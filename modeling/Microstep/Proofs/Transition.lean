import Microstep.Proofs.Following

/-!
# The steps of a run

Seen from the stack, a step of a run is one of four. The running activation keeps the value of a
node, or starts the activation that will have it; it goes on to another command; or it returns, with
a value that the command names. Frames below the top one change only by a return, which adds one
value to the frame that becomes the top.

* `State.Yields`: the value with which an activation returns;
* `State.Delivers`, `State.Moves`: a return, and a step;
* `State.advance_cases`: every step of a run is one of these;
* `State.Stays`: a run that keeps some number of activations for a while.
-/

namespace Microstep.State

variable {p : Program} {s s' t : State} {f : Frame} {rest : List Frame} {r : Redex} {c : Command}
  {v : Option Value} {d m n : Nat}

/-- The activation on top returns in the next step with the value, or without one. -/
inductive Yields (p : Program) (s : State) : Option Value → Prop
  /-- The body has ended. -/
  | fall (ended : p.commandAt s.position = .ok none) : Yields p s none
  /-- The command is a return without an expression. -/
  | void (command : p.commandAt s.position = .ok (some (.ret none))) : Yields p s none
  /-- The command returns the value of an expression. -/
  | value {e : Expr} {v : Value} (command : p.commandAt s.position = .ok (some (.ret (some e))))
      (evaluated : s.evaluate [0] e = .ok (some v)) : Yields p s (some v)

/-- The activation `f` of `s` has returned in `s'`: to the node of its caller that waits for the
value, which is null if there is none, or for good. -/
inductive Delivers (s : State) (f : Frame) (rest : List Frame) (v : Option Value) (s' : State) :
    Prop
  | finish (caller : f.caller = none) (status : s'.status = .finished v)
      (position : s'.position = s.position) (memory : s'.memory = ⟨s.memory.heap, rest⟩)
  | resume {site : Site} {g : Frame} {below : List Frame} (caller : f.caller = some site)
      (stack : rest = g :: below) (status : s'.status = s.status)
      (position : s'.position = site.position)
      (memory : s'.memory = ⟨s.memory.heap, g.record site (v.getD .null) :: below⟩)

/-- What the step from `s` to `s'` does; `f` is the running activation of `s`. The cursor is left
out. -/
inductive Moves (p : Program) (s : State) (f : Frame) (rest : List Frame) (s' : State) : Prop
  /-- The value of the due node is kept. -/
  | keep {c : Command} {r : Redex} {v : Value} {h : Heap}
      (command : p.commandAt s.position = .ok (some c)) (due : c.readiness s.known = .due r)
      (status : s'.status = s.status) (position : s'.position = s.position)
      (memory : s'.memory = ⟨h, f.record (s.site r.path) v :: rest⟩)
  /-- An activation is started that returns to the due node. -/
  | call {c : Command} {r : Redex} {g : Frame} {type method : String} {arity : Nat}
      {found : Implementation} (command : p.commandAt s.position = .ok (some c))
      (due : c.readiness s.known = .due r) (caller : g.caller = some (s.site r.path))
      (fresh : g.pending = ∅) (dispatch : p.dispatch type method arity = .ok found)
      (status : s'.status = s.status) (position : s'.position = .entry found.owner.name method)
      (memory : s'.memory = s.memory.push g)
  /-- The activation leaves the command, of which nothing is due any more. -/
  | leave {c : Command} {vs : List Value} {h : Heap} {g : Frame}
      (command : p.commandAt s.position = .ok (some c)) (ready : c.readiness s.known = .ready vs)
      (caller : g.caller = f.caller) (pending : g.pending = f.pending)
      (goes : Goes p c s.position s'.position) (status : s'.status = s.status)
      (memory : s'.memory = ⟨h, g.clear s.position :: rest⟩)
  /-- The activation returns. -/
  | return {v : Option Value} (yields : s.Yields p v) (delivers : Delivers s f rest v s')

theorem Returns.delivers (h : Returns s f rest v s') (path : ExprPath) :
    Delivers s f rest v { s' with cursor := path } := by
  cases h with
  | finish caller => exact .finish caller rfl rfl rfl
  | resume caller hrest => exact .resume caller hrest rfl rfl rfl

theorem Fires.moves (command : p.commandAt s.position = .ok (some c))
    (due : c.readiness s.known = .due r) (h : Fires p s f rest r s') (path : ExprPath) :
    Moves p s f rest { s' with cursor := path } := by
  cases h with
  | value v source => exact .keep command due rfl rfl rfl
  | object source fresh => exact .keep command due rfl rfl rfl
  | call source values typeOf dispatch => exact .call command due rfl rfl dispatch rfl rfl rfl

/-- The step of a return whose expression, if any, has a value. -/
theorem yields_of_ret (hs : s.memory.stack = f :: rest) {value : Option Expr} {vs : List Value}
    (command : p.commandAt s.position = .ok (some (.ret value)))
    (ready : (Command.ret value).readiness s.known = .ready vs)
    (h : s.execute p (.ret value) = .ok s') : ∃ v, s.Yields p v ∧ Returns s f rest v s' := by
  cases value with
  | none => exact ⟨none, .void command, returnWith_cases hs h⟩
  | some e =>
    have he := evaluate_eq hs [0] e
    rw [execute, withOperand, he, ok_bind] at h
    cases hv : e.value? s.known [0] with
    | some v =>
      rw [hv] at he h
      exact ⟨some v, .value command he, returnWith_cases hs h⟩
    | none =>
      obtain ⟨r, hr⟩ := readiness_of_value? hv
      simp [Command.readiness, Command.operands, Expr.readinessEach, hr] at ready

theorem transition_cases (hs : s.memory.stack = f :: rest) (h : s.transition p = .ok s')
    (path : ExprPath) : Moves p s f rest { s' with cursor := path } := by
  obtain ⟨command?, hc, h⟩ := bind_eq_ok_iff.mp h
  cases command? with
  | none => exact .return (.fall hc) ((returnWith_cases hs h).delivers path)
  | some c =>
    obtain ⟨r, due, fires⟩ | ⟨vs, ready, performs⟩ := execute_cases hs h
    · exact fires.moves hc due path
    · cases performs with
      | move write bind goes =>
        obtain rfl | ⟨name, v, rfl⟩ := bind
        · exact .leave hc ready rfl rfl goes rfl rfl
        · exact .leave (g := f.bind name v) hc ready rfl rfl goes rfl rfl
      | «return» command returns =>
        subst command
        obtain ⟨v, yields, returns⟩ := yields_of_ret hs hc ready h
        exact .return yields (returns.delivers path)

/-- What a step of a run does. -/
theorem advance_cases (hs : s.memory.stack = f :: rest) (h : s.advance p = .ok s') :
    Moves p s f rest s' := by
  obtain ⟨-, next, path, hn, rfl⟩ := advance_eq_ok h
  exact transition_cases hs hn path

theorem Delivers.depth (h : Delivers s f rest v s') : s'.depth = rest.length := by
  cases h with
  | finish caller status position memory => simp [State.depth, Memory.depth, memory]
  | resume caller stack status position memory =>
    simp [State.depth, Memory.depth, memory, stack]

theorem Delivers.heap (h : Delivers s f rest v s') : s'.memory.heap = s.memory.heap := by
  cases h with
  | finish caller status position memory => rw [memory]
  | resume caller stack status position memory => rw [memory]

theorem depth_eq (hs : s.memory.stack = f :: rest) : s.depth = rest.length + 1 := by
  simp [depth, Memory.depth, hs]

/-! ## Runs -/

theorem iterate_succ : s.iterate p (n + 1) = s.iterate p n >>= fun t => t.advance p := by
  rw [iterate_add]
  cases s.iterate p n with
  | error e => rfl
  | ok t => cases ht : t.advance p <;> simp [iterate, ht]

theorem advance_of_iterate (h : s.iterate p n = .ok t) (h' : s.iterate p (n + 1) = .ok s') :
    t.advance p = .ok s' := by
  rwa [iterate_succ, h, ok_bind] at h'

theorem iterate_cons (h : s.advance p = .ok t) : s.iterate p (n + 1) = t.iterate p n := by
  rw [iterate, h, ok_bind]

/-- For `n` steps of the run from `s`, as far as it goes, there are at least `d` activations. -/
def Stays (p : Program) (d : Nat) (s : State) (n : Nat) : Prop :=
  ∀ m ≤ n, ∀ t, s.iterate p m = .ok t → d ≤ t.depth

theorem Stays.mono (h : s.Stays p d n) (hm : m ≤ n) : s.Stays p d m :=
  fun k hk => h k (Nat.le_trans hk hm)

theorem stays_zero (h : d ≤ s.depth) : s.Stays p d 0 := by
  intro m hm t ht
  obtain rfl := Nat.le_zero.mp hm
  cases ht
  exact h

end Microstep.State
