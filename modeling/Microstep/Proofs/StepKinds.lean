import Mathlib.Logic.ExistsUnique
import Microstep.Proofs.Visit

/-!
# Kinds of steps

Every step of a run makes progress, and in one way only. Either the cursor goes on to a later node
of the command or to the command itself, or the activation leaves the command for one behind it, or
an activation is started, or the running one returns. The first two are told from each other by the
position and from the others by the depth, so a state never follows itself.

* `StepKind`, `State.StepOf`: the kinds of steps, and what each of them changes;
* `State.StepOf.eq_stepKind`, `State.StepOf.changes`: a step is of one kind, and changes the state;
* `State.advance_stepOf`: a step of a run is of some kind;
* `State.advance_progress`: all of this together.
-/

namespace Microstep

/-- What a step is for: a node, the way through the body, a call or a return. -/
inductive StepKind where
  | evaluate
  | proceed
  | call
  | ret
deriving DecidableEq, Repr

/-- The step from `s` to `s'` is of a kind. -/
def State.StepOf (p : Program) (s s' : State) : StepKind → Prop
  | .evaluate => s'.position = s.position ∧ s'.depth = s.depth ∧
    ∃ c done later, p.commandAt s.position = .ok (some c) ∧
      c.operandPaths = done ++ s.cursor :: later ∧ (s'.cursor ∈ later ∨ s'.cursor = [])
  | .proceed => s'.depth = s.depth ∧ s'.position.type = s.position.type ∧
    s'.position.method = s.position.method ∧ compare s.position s'.position = .lt ∧
    ∃ f rest, s'.memory.stack = f :: rest ∧ f.pending = ∅
  | .call => s'.depth = s.depth + 1 ∧ s'.position.path = [⟨0, 0⟩] ∧
    (∃ first body, p.body? s'.position.type s'.position.method = some (first :: body)) ∧
    ∃ callee, s'.memory.stack = callee :: s.memory.stack ∧ callee.pending = ∅
  | .ret => s'.depth + 1 = s.depth ∧ (s'.isFinished = true ∨
    ∃ f rest site, s.memory.stack = f :: rest ∧ f.caller = some site ∧
      s'.position = site.position)

/-! ## Nodes of a command -/

namespace Command

variable {c : Command} {done later : List ExprPath} {path : ExprPath}

/-- No node of an operand is the command itself. -/
theorem nil_not_mem_operandPaths (c : Command) : [] ∉ c.operandPaths := by
  have below (e : Expr) (path : ExprPath) (hp : path ≠ []) : [] ∉ e.workList path :=
    fun h => hp (List.prefix_nil.mp (Expr.prefix_of_mem_workList h))
  cases c with
  | entry => exact List.not_mem_nil
  | assign target value =>
    cases target with
    | field receiver name =>
      rw [operandPaths, List.mem_append, not_or]
      exact ⟨below _ _ (by simp), below _ _ (by simp)⟩
    | _ => exact below _ _ (by simp)
  | cond condition thenBranch elseBranch => exact below _ _ (by simp)
  | call receiver method args =>
    rw [operandPaths, List.mem_append, not_or]
    refine ⟨below _ _ (by simp), fun h => ?_⟩
    obtain ⟨i, -, hi⟩ := Expr.below_of_mem_workListOf h
    simp at hi
  | ret value =>
    cases value with
    | none => exact List.not_mem_nil
    | some value => exact below _ _ (by simp)

/-- A node of the work list that is not the command itself lies in an operand. What comes behind it
lies in an operand, too, or is the command. -/
theorem operandPaths_of_workList (h : c.workList = done ++ path :: later) (hp : path ≠ []) :
    ∃ rest, c.operandPaths = done ++ path :: rest ∧ ∀ q ∈ later, q ∈ rest ∨ q = [] := by
  have own : ∀ q ∈ List.replicate c.calls ([] : ExprPath), q = [] := fun q hq =>
    (List.mem_replicate.mp hq).2
  rw [workList_eq, List.append_eq_append_iff] at h
  obtain ⟨front, -, h⟩ | ⟨back, h, hback⟩ := h
  · exact absurd (own path (h ▸ List.mem_append_right front List.mem_cons_self)) hp
  · cases back with
    | nil =>
      rw [List.nil_append] at hback
      exact absurd (own path (hback ▸ List.mem_cons_self)) hp
    | cons q back =>
      cases hback
      refine ⟨back, h, fun q hq => ?_⟩
      exact (List.mem_append.mp hq).imp_right (own q)

end Command

/-- A frame that keeps values for no node keeps none. -/
theorem Frame.Keeps.eq_empty {f : Frame} {position : Position} (h : f.Keeps position []) :
    f.pending = ∅ :=
  Std.ExtTreeMap.eq_empty_iff_forall_not_mem.mpr fun site hs => by simpa using (h site).mp hs

namespace State

variable {p : Program} {s s₀ s' : State} {f : Frame} {rest : List Frame} {r : Redex} {c : Command}
  {kind : StepKind} {type method : String} {n : Nat}

/-! ## One kind only -/

/-- The kind of a step as the depth and the position tell. -/
def stepKind (s s' : State) : StepKind :=
  if s.depth < s'.depth then .call
  else if s'.depth < s.depth then .ret
  else if s'.position = s.position then .evaluate
  else .proceed

/-- Depth and position tell of which kind a step is. -/
theorem StepOf.eq_stepKind (h : s.StepOf p s' kind) : kind = s.stepKind s' := by
  rw [stepKind]
  cases kind with
  | evaluate =>
    obtain ⟨same, depth, -⟩ := h
    rw [if_neg (by omega), if_neg (by omega), if_pos same]
  | proceed =>
    obtain ⟨depth, -, -, lt, -⟩ := h
    rw [if_neg (by omega), if_neg (by omega), if_neg (Position.ne_of_lt lt).symm]
  | call =>
    have deeper := h.1
    rw [if_pos (by omega)]
  | ret =>
    have back := h.1
    rw [if_neg (by omega), if_pos (by omega)]

/-- A step goes to another position, another node or another depth. -/
theorem StepOf.changes (h : s.StepOf p s' kind) :
    (s'.position, s'.cursor, s'.depth) ≠ (s.position, s.cursor, s.depth) := by
  intro same
  simp only [Prod.mk.injEq] at same
  obtain ⟨position, cursor, depth⟩ := same
  cases kind with
  | evaluate =>
    obtain ⟨-, -, c, done, later, -, paths, hnext⟩ := h
    rw [cursor] at hnext
    have nodup : c.operandPaths.Nodup :=
      (List.nodup_append.mp (c.workList_eq ▸ c.nodup_workList)).1
    obtain later | empty := hnext
    · rw [paths] at nodup
      exact (List.nodup_cons.mp (List.nodup_append.mp nodup).2.1).1 later
    · refine c.nil_not_mem_operandPaths ?_
      rw [paths, empty]
      simp
  | proceed =>
    obtain ⟨-, -, -, lt, -⟩ := h
    exact Position.ne_of_lt lt position.symm
  | call =>
    have := h.1
    omega
  | ret =>
    have := h.1
    omega

/-! ## Some kind -/

/-- The value of a node takes the cursor on to the next one. -/
theorem stepOf_evaluate {heap : Heap} {v : Value} (marked : p.Marked)
    (start : State.start p type method = .ok s₀) (run : s₀.iterate p n = .ok s)
    (next : s.advance p = .ok s') (hs : s.memory.stack = f :: rest)
    (command : p.commandAt s.position = .ok (some c)) (due : c.readiness s.known = .due r)
    (operand : r.source.isCall = false) (position : s'.position = s.position)
    (memory : s'.memory = ⟨heap, f.record (s.site r.path) v :: rest⟩) :
    s.StepOf p s' .evaluate := by
  obtain ⟨-, active⟩ := (iterate_valid (start_valid start) run).of_stack hs
  obtain ⟨done, later, work, keeps⟩ := workList_of_due hs command active due
  have path : r.path ≠ [] := fun empty => by
    obtain ⟨receiver, method, args, -, source⟩ := Command.call_of_readiness due empty
    rw [source] at operand
    cases operand
  have run' : s₀.iterate p (n + 1) = .ok s' := by rw [iterate_succ, run, ok_bind, next]
  have stack : s'.memory.stack = f.record (s.site r.path) v :: rest := by rw [memory]
  have before := cursor_eq_head marked start run hs command work keeps
  have work' : c.workList = (done ++ [r.path]) ++ later := by rw [work, List.append_cons]
  have after := cursor_eq_head marked start run' stack (position ▸ command) work'
    (position ▸ keeps.record v)
  obtain ⟨behind, paths, among⟩ := Command.operandPaths_of_workList work path
  refine ⟨position, (depth_eq stack).trans (depth_eq hs).symm, c, done, behind, command, ?_, ?_⟩
  · rw [before, paths]
    rfl
  · rw [after]
    cases later with
    | nil => exact .inr rfl
    | cons q later => exact among q List.mem_cons_self

theorem Delivers.stepOf {v : Option Value} (hs : s.memory.stack = f :: rest)
    (h : Delivers s f rest v s') : s.StepOf p s' .ret := by
  refine ⟨by rw [h.depth, depth_eq hs], ?_⟩
  cases h with
  | finish caller status position memory =>
    exact .inl (by simp [isFinished, status])
  | resume caller stack status position memory =>
    exact .inr ⟨f, rest, _, hs, caller, position⟩

/-- A step of a run is of some kind. -/
theorem advance_stepOf (marked : p.Marked) (start : State.start p type method = .ok s₀)
    (run : s₀.iterate p n = .ok s) (next : s.advance p = .ok s') :
    ∃ kind, s.StepOf p s' kind := by
  obtain ⟨status, t, path, ht, rfl⟩ := advance_eq_ok next
  obtain ⟨f, rest, hs, active, -⟩ := (iterate_valid (start_valid start) run).of_running status
  obtain ⟨command?, command, h⟩ := bind_eq_ok_iff.mp ht
  cases command? with
  | none => exact ⟨.ret, ((returnWith_cases hs h).delivers path).stepOf hs⟩
  | some c =>
    obtain ⟨r, due, fires⟩ | ⟨vs, -, performs⟩ := execute_cases hs h
    · cases fires with
      | value v operand =>
        exact ⟨.evaluate, stepOf_evaluate marked start run next hs command due operand rfl rfl⟩
      | object source fresh =>
        exact ⟨.evaluate, stepOf_evaluate marked start run next hs command due (by rw [source]; rfl)
          rfl rfl⟩
      | call source values typeOf dispatch =>
        obtain ⟨body, commands, -⟩ := marked.of_dispatch dispatch
        have hbody := Program.body?_of_dispatch dispatch
        rw [commands] at hbody
        exact ⟨.call, rfl, rfl, ⟨.entry, body, hbody⟩, _, rfl, rfl⟩
    · cases performs with
      | @move heap g q write bind goes =>
        obtain ⟨_, done, _, -, -, keeps⟩ := active
        have kept : g.Keeps s.position done := by
          obtain rfl | ⟨name, v, rfl⟩ := bind
          · exact keeps
          · exact keeps.bind name v
        have lt := goes.lt marked command
        obtain ⟨path', rfl⟩ := goes.exists_path
        exact ⟨.proceed, (depth_eq hs).symm, rfl, rfl, lt, g.clear s.position, rest, rfl,
          (kept.clear s.position).eq_empty⟩
      | «return» _ returns => exact ⟨.ret, (returns.delivers path).stepOf hs⟩

/-- Every step of a run is of exactly one kind: the value of a node, which takes the cursor on to a
later node of the command or to the command itself; the way to a command behind the current one, of
which nothing is kept then; a call, which starts with the first command of a body; or a return, for
good or to the position from which the activation was called. So no step leaves position, cursor and
depth as they are. -/
theorem advance_progress (marked : p.Marked) (start : State.start p type method = .ok s₀)
    (run : s₀.iterate p n = .ok s) (next : s.advance p = .ok s') :
    (∃! kind, s.StepOf p s' kind) ∧
      (s'.position, s'.cursor, s'.depth) ≠ (s.position, s.cursor, s.depth) := by
  obtain ⟨kind, h⟩ := advance_stepOf marked start run next
  exact ⟨⟨kind, h, fun kind' h' => h'.eq_stepKind.trans h.eq_stepKind.symm⟩, h.changes⟩

/-- Step 5 of the counter is the first call of `add`, from within the condition. -/
theorem advance_progress_counter :
    ∃ s₀ s s' : State, State.start .counter "Main" "main" = .ok s₀ ∧ Program.counter.Marked ∧
      s₀.iterate .counter 4 = .ok s ∧ s.advance .counter = .ok s' ∧
      s.StepOf .counter s' .call ∧ ∀ kind, s.StepOf .counter s' kind → kind = .call := by
  have marked : Program.counter.Marked := by decide
  have depths : ∀ k < 2, ((State.start .counter "Main" "main").bind
      (·.iterate .counter (4 + k))).toOption.map State.depth = some (1 + k) := by decide +kernel
  obtain ⟨s₀, s, s', hs₀, hs, next, depth, deeper⟩ :=
    exists_step_of_view (depths 0 (by omega)) (depths 1 (by omega))
  obtain ⟨⟨kind, h, only⟩, -⟩ := advance_progress marked hs₀ hs next
  obtain rfl : kind = .call := by
    rw [h.eq_stepKind, stepKind, if_pos (by omega)]
  exact ⟨s₀, s, s', hs₀, marked, hs, next, h, only⟩

end State

end Microstep
