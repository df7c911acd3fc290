import Microstep.Proofs.Focus
import Microstep.Proofs.Layout

/-!
# The machine and the evaluation

In a program whose bodies are opened by the entry marker, which stands nowhere else, the run of the
machine and the evaluation by recursion come to the same end. A run follows a command from its
position to the next one, a block from its first command to its exit, a body from its entry to the
return, and a call, by induction on the fuel, from the node that is due to the value that is kept
for it.

* `State.Arrived`, `State.Returned`: where a run stands before a command and after a body;
* `State.command_follows`, `State.block_follows`, `State.body_follows`: runs follow the syntax;
* `State.answered`: runs follow calls, whatever the fuel;
* `State.run_iff_eval`: a run ends as the evaluation does.
-/

namespace Microstep

/-- Only conditionals have branches. -/
theorem Command.branch?_eq_some {c : Command} {i : Nat} {branch : List Command}
    (h : c.branch? i = some branch) : ∃ condition thenBranch elseBranch,
      c = .cond condition thenBranch elseBranch ∧
        (branch = thenBranch ∨ elseBranch = some branch) := by
  cases c with
  | cond condition thenBranch elseBranch =>
    refine ⟨condition, thenBranch, elseBranch, rfl, ?_⟩
    match i, h with
    | 0, h => exact .inl (Option.some.inj h).symm
    | 1, h => exact .inr h
  | _ => cases h

mutual

/-- What holds of a block if it holds of the branches of its commands holds of every branch. -/
theorem Command.branchInduction {motive : List Command → Prop}
    (block : ∀ commands : List Command,
      (∀ c ∈ commands, ∀ i branch, c.branch? i = some branch → motive branch) → motive commands) :
    ∀ (c : Command) (i : Nat) (branch : List Command), c.branch? i = some branch → motive branch
  | .cond _ thenBranch none, _, _, h => by
    have ht := block thenBranch (Command.blockInductionAll block thenBranch)
    obtain ⟨_, _, _, hc, rfl | h⟩ := Command.branch?_eq_some h <;> cases hc
    · exact ht
    · cases h
  | .cond _ thenBranch (some elseBranch), _, _, h => by
    have ht := block thenBranch (Command.blockInductionAll block thenBranch)
    have he := block elseBranch (Command.blockInductionAll block elseBranch)
    obtain ⟨_, _, _, hc, rfl | h⟩ := Command.branch?_eq_some h <;> cases hc
    · exact ht
    · cases h
      exact he
  | .entry, _, _, h | .assign .., _, _, h | .call .., _, _, h | .ret _, _, _, h => by cases h

theorem Command.blockInductionAll {motive : List Command → Prop}
    (block : ∀ commands : List Command,
      (∀ c ∈ commands, ∀ i branch, c.branch? i = some branch → motive branch) → motive commands) :
    ∀ commands : List Command,
      ∀ c ∈ commands, ∀ i branch, c.branch? i = some branch → motive branch
  | [] => fun _ h => absurd h List.not_mem_nil
  | c :: rest => List.forall_mem_cons.mpr
      ⟨Command.branchInduction block c, Command.blockInductionAll block rest⟩

end

/-- Induction on the nesting of blocks. -/
theorem Command.blockInduction {motive : List Command → Prop}
    (block : ∀ commands : List Command,
      (∀ c ∈ commands, ∀ i branch, c.branch? i = some branch → motive branch) → motive commands)
    (commands : List Command) : motive commands :=
  block commands (Command.blockInductionAll block commands)

theorem Command.unmarkedAll_branch {c : Command} {i : Nat} {branch : List Command}
    (hu : c.unmarked = true) (hb : c.branch? i = some branch) :
    Command.unmarkedAll branch = true := by
  obtain ⟨condition, thenBranch, elseBranch, rfl, h⟩ := Command.branch?_eq_some hb
  obtain ⟨ht, he⟩ := Bool.and_eq_true_iff.mp hu
  obtain rfl | rfl := h
  · exact ht
  · exact he

/-- The answer to a call: the receiver, its type and the method are found, then the body is run. -/
theorem Program.answer_succ (p : Program) (fuel : Nat) (source : Expr) (receiver : Value)
    (method : String) (args : List Value) (h : Heap) :
    p.answer (fuel + 1) source receiver method args h =
      .ofExcept (receiver.address source) >>= fun a =>
        .ofExcept (h.typeOf a) >>= fun type =>
          .ofExcept (p.dispatch type method args.length) >>= fun found =>
            runBody p (p.answer fuel) ((Scope.empty a).bindAll found.method.params args) h
              found.method.commands >>= fun r => .done (r.1.getD .null, r.2) := rfl

/-- The evaluation of a program whose first object and first method are known. -/
theorem Program.eval_eq {p : Program} {type method : String} {o : Object} {found : Implementation}
    (ho : p.instantiate type = .ok o) (hfound : p.dispatch type method 0 = .ok found) (fuel : Nat) :
    p.eval fuel type method =
      runBody p (p.answer fuel) (.empty (Heap.empty.allocate o).1) (Heap.empty.allocate o).2
        found.method.commands := by
  rw [eval, ho, hfound]
  rfl

namespace State

variable {p : Program} {s s' : State} {f g : Frame} {rest : List Frame} {c : Command} {fuel : Nat}
  {position exit : Position} {scope : Scope} {h : Heap} {caller : Option Site} {v : Option Value}

/-- The run has come to a position, in an activation that keeps no values. -/
structure Arrived (position : Position) (scope : Scope) (h : Heap) (caller : Option Site)
    (rest : List Frame) (s : State) : Prop where
  status : s.status = .running
  place : s.position = position
  memory : ∃ f : Frame, s.memory = ⟨h, f :: rest⟩ ∧ f.toScope = scope ∧ f.caller = caller ∧
    f.Keeps position []

/-- The activation above the given frames has returned, to the node at the caller's site or, if
there is none, for good. -/
def Returned (v : Option Value) (h : Heap) (caller : Option Site) (rest : List Frame) (s : State) :
    Prop :=
  match caller, rest with
  | none, rest => s.status = .finished v ∧ s.memory = ⟨h, rest⟩
  | some site, g :: below =>
    s.status = .running ∧ s.position = site.position ∧
      s.memory = ⟨h, g.record site (v.getD .null) :: below⟩
  | some _, [] => False

/-- The run has come to the exit of a command or of a block, or its activation has returned. -/
def Left (exit : Position) (caller : Option Site) (rest : List Frame) (a : Flow × Scope × Heap)
    (s : State) : Prop :=
  match a.1 with
  | .next => Arrived exit a.2.1 a.2.2 caller rest s
  | .returned v => Returned v a.2.2 caller rest s

/-! ## Single steps -/

/-- A step that moves on, perhaps after a write. -/
theorem move_arrives (hs : Stands p c f rest s) (hg : g.pending = f.pending)
    (hc : g.caller = f.caller)
    (ht : s.transition p = moveTo { s with memory := ⟨h, g :: rest⟩ } position) :
    ∃ s', s.iterate p 1 = .ok s' ∧ Arrived position g.toScope h f.caller rest s' := by
  have htop : ({ s with memory := ⟨h, g :: rest⟩ } : State).memory.stack = g :: rest := rfl
  rw [moveTo_eq htop] at ht
  obtain ⟨path, ha⟩ := advance_of_transition hs.status hs.valid ht
  refine ⟨_, iterate_one ha, hs.status, rfl, g.clear s.position, rfl, rfl, hc, ?_⟩
  obtain ⟨f', _, hstack, ⟨_, done, _, -, -, hk⟩, -⟩ := hs.valid.of_running hs.status
  obtain ⟨rfl, rfl⟩ := List.cons.inj (hstack.symm.trans hs.stack)
  have hk : g.Keeps s.position done := fun site => by rw [hg]; exact hk site
  exact hk.clear position

theorem leave_follows (hs : Stands p c f rest s) (hn : p.next s.position = .ok exit)
    (hg : g.pending = f.pending) (hc : g.caller = f.caller)
    (ht : s.transition p = leave p { s with memory := ⟨h, g :: rest⟩ }) :
    s.Follows p fuel (Left exit f.caller rest) (.done (.next, g.toScope, h)) := by
  rw [leave, hn, ok_bind] at ht
  obtain ⟨s', hs', ha⟩ := move_arrives hs hg hc ht
  exact ⟨1, s', hs', ha⟩

/-- A step that moves on and does nothing else. -/
theorem pass_follows (hs : Stands p c f rest s) (hn : p.next s.position = .ok exit)
    (ht : s.transition p = leave p s) :
    s.Follows p fuel (Left exit f.caller rest) (.done (.next, f.toScope, s.memory.heap)) :=
  leave_follows hs hn rfl rfl (ht.trans (congrArg (leave p) hs.memory_eq))

/-- A step that returns. -/
theorem return_returned (hv : Valid p s) (status : s.status = .running)
    (hs : s.memory.stack = f :: rest) (ht : s.transition p = s.returnWith v) :
    ∃ s', s.iterate p 1 = .ok s' ∧ Returned v s.memory.heap f.caller rest s' := by
  obtain ⟨f', _, hstack, -, waiting, -⟩ := hv.of_running status
  obtain ⟨rfl, rfl⟩ := List.cons.inj (hstack.symm.trans hs)
  obtain ⟨s', hr⟩ := returnWith_of_waiting hs waiting v
  obtain ⟨path, ha⟩ := advance_of_transition status hv (ht.trans hr)
  refine ⟨_, iterate_one ha, ?_⟩
  cases returnWith_cases hs hr with
  | finish hcaller =>
    rw [hcaller]
    exact ⟨rfl, rfl⟩
  | resume hcaller hrest =>
    rw [hcaller, hrest]
    exact ⟨status, rfl, rfl⟩

theorem return_follows (hs : Stands p c f rest s) (ht : s.transition p = s.returnWith v) :
    s.Follows p fuel (Left exit f.caller rest) (.done (.returned v, f.toScope, s.memory.heap)) := by
  obtain ⟨s', hs', hret⟩ := return_returned hs.valid hs.status hs.stack ht
  exact ⟨1, s', hs', hret⟩

/-! ## Commands and blocks -/

/-- A run follows the block from its first position to its exit. -/
def Follows.Block (p : Program) (fuel : Nat) (commands : List Command) : Prop :=
  ∀ {s : State} {position exit : Position} {scope : Scope} {h : Heap} {caller : Option Site}
    {rest : List Frame}, p.Laid commands position exit → Valid p s →
    Arrived position scope h caller rest s →
    s.Follows p fuel (Left exit caller rest) (Command.runAll p (p.answer fuel) scope h commands)

/-- A branch is entered at its first command; one that is empty is passed by. -/
theorem enter_follows (hs : Stands p c f rest s) (hn : p.next s.position = .ok exit) {i : Nat}
    {branch : List Command} (hb : c.branch? i = some branch) (hblock : Follows.Block p fuel branch)
    (ht : s.transition p = s.enter p i branch) :
    s.Follows p fuel (Left exit f.caller rest)
      (Command.runAll p (p.answer fuel) f.toScope s.memory.heap branch) := by
  unfold enter at ht
  split at ht
  · rename_i hempty
    rw [List.isEmpty_iff.mp hempty]
    exact pass_follows hs hn ht
  · rename_i inside
    have inside : branch ≠ [] := by simpa using inside
    have ht := ht.trans (congrArg (moveTo · (s.position.descend i)) hs.memory_eq)
    obtain ⟨s', hs', ha⟩ := move_arrives hs rfl rfl ht
    have hlaid := Program.laid_branch hs.command hb inside hn
    exact (hblock hlaid (iterate_valid hs.valid hs') ha).after hs' (by omega)

/-- The step of a command that has values for its operands. -/
theorem effect_follows (hs : Stands p c f rest s) (hn : p.next s.position = .ok exit)
    (hu : c.unmarked = true)
    (blocks : ∀ i branch, c.branch? i = some branch → Follows.Block p fuel branch)
    {vs : List Value} (hr : c.readiness s.known = .ready vs) :
    s.Follows p fuel (Left exit f.caller rest)
      (c.effect p (p.answer fuel) f.toScope s.memory.heap vs) := by
  have hlen := Expr.length_of_readinessEach hr
  have ht : s.transition p = s.perform p c vs := by rw [hs.transition_eq, hr, onReady_ready]
  cases c with
  | entry => cases hu
  | assign target value =>
    cases target with
    | var name =>
      obtain ⟨v, rfl⟩ := single_of_length hlen
      simp only [perform, Memory.write, Memory.bind, Memory.modifyTop, hs.stack, ok_bind] at ht
      exact leave_follows (g := f.bind name v) hs hn rfl rfl ht
    | field receiver name =>
      obtain ⟨r, v, rfl⟩ := pair_of_length hlen
      simp only [perform, Memory.write, bind_assoc] at ht
      refine follows_both hs.status ht fun a _ ht => ?_
      refine follows_both hs.status ht fun heap _ ht => ?_
      rw [pure_eq_ok, ok_bind, hs.stack] at ht
      exact leave_follows hs hn rfl rfl ht
    | _ => cases hs.sound
  | cond condition thenBranch elseBranch =>
    obtain ⟨v, rfl⟩ := single_of_length hlen
    simp only [perform, choose] at ht
    simp only [Command.effect]
    cases hbool : v.bool? with
    | none =>
      rw [hbool] at ht
      exact follows_failed hs.status ht
    | some b =>
      rw [hbool] at ht
      cases b with
      | true => exact enter_follows hs hn rfl (blocks 0 thenBranch rfl) ht
      | false =>
        cases elseBranch with
        | some branch => exact enter_follows hs hn rfl (blocks 1 branch rfl) ht
        | none => exact pass_follows hs hn ht
  | call receiver method args => exact pass_follows hs hn ht
  | ret value =>
    cases value with
    | none => exact return_follows hs ht
    | some value =>
      obtain ⟨v, rfl⟩ := single_of_length hlen
      exact return_follows hs ht

/-- A run follows a command from its position to the next one. -/
theorem command_follows (answered : p.Answered fuel) (hc : p.commandAt position = .ok (some c))
    (hn : p.next position = .ok exit) (hu : c.unmarked = true)
    (blocks : ∀ i branch, c.branch? i = some branch → Follows.Block p fuel branch)
    (hv : Valid p s) (ha : Arrived position scope h caller rest s) :
    s.Follows p fuel (Left exit caller rest) (c.run p (p.answer fuel) scope h) := by
  obtain ⟨status, rfl, f, hm, rfl, rfl, hk⟩ := ha
  have hstack : s.memory.stack = f :: rest := by rw [hm]
  obtain rfl : s.memory.heap = h := by rw [hm]
  cases hf : c.fault? with
  | some e =>
    rw [Command.run_of_fault hf]
    exact follows_failed status (by rw [transition, hc]; exact execute_of_fault hf)
  | none =>
    have hs : Stands p c f rest s := ⟨hv, status, hstack, hc, hf⟩
    have unknown (q : ExprPath) : s.known q = none := by
      rw [known_eq hstack]
      exact Std.ExtTreeMap.getElem?_eq_none fun hin => absurd ((hk _).mp hin).2 List.not_mem_nil
    rw [Command.run_eq hf]
    refine .bind hv (operands_follow answered hs unknown) ?_
    rintro a s₁ hv₁ ⟨hw, hready⟩
    obtain ⟨pending, hs₁⟩ := hs.within hw hv₁
    rw [← hw.heap]
    exact effect_follows hs₁ (hw.position ▸ hn) hu blocks hready

/-- A run follows a block, by induction on the blocks within. -/
theorem block_follows (answered : p.Answered fuel) (commands : List Command)
    (hu : Command.unmarkedAll commands = true) : Follows.Block p fuel commands := by
  induction commands using Command.blockInduction with
  | block commands blocks =>
    intro s position exit scope h caller rest laid hv ha
    induction laid generalizing s scope h with
    | nil => exact follows_done ha
    | cons command next _ ih =>
      obtain ⟨hc, hu⟩ := Bool.and_eq_true_iff.mp hu
      refine .bind hv (command_follows answered command next hc (fun i branch hb => ?_) hv ha) ?_
      · exact blocks _ List.mem_cons_self i branch hb (Command.unmarkedAll_branch hc hb)
      rintro ⟨flow, scope', h'⟩ s' hv' left
      cases flow with
      | next => exact ih (fun c hc => blocks c (List.mem_cons_of_mem _ hc)) hu hv' left
      | returned v => exact follows_done left

/-! ## Bodies and calls -/

/-- A run follows a body from its entry marker to the return. -/
theorem body_follows (answered : p.Answered fuel) {type method : String} {body : List Command}
    (hb : p.body? type method = some (.entry :: body)) (hu : Command.unmarkedAll body = true)
    (hv : Valid p s) (ha : Arrived (.entry type method) scope h caller rest s) :
    s.Follows p fuel (fun a s' => Returned a.1 a.2 caller rest s')
      (runBody p (p.answer fuel) scope h (.entry :: body)) := by
  obtain ⟨status, hplace, f, hm, rfl, rfl, -⟩ := ha
  have hstack : s.memory.stack = f :: rest := by rw [hm]
  have hmarker : p.commandAt s.position = .ok (some .entry) := by
    cases Program.laid_body hb (Nat.zero_le _) with
    | cons command => rw [hplace]; exact command
  have hs : Stands p .entry f rest s := ⟨hv, status, hstack, hmarker, rfl⟩
  have ht : s.transition p = moveTo { s with memory := ⟨h, f :: rest⟩ } s.position.afterEntry := by
    rw [hs.transition_eq, ← hm]
    rfl
  obtain ⟨s₁, hs₁, ha₁⟩ := move_arrives hs rfl rfl ht
  have hv₁ := iterate_valid hv hs₁
  rw [hplace] at ha₁
  have hlaid := Program.laid_body hb (Nat.le_add_left 1 body.length)
  refine Follows.after hs₁ (.bind hv₁ (block_follows answered body hu hlaid hv₁ ha₁) ?_) (by omega)
  rintro ⟨flow, scope', h'⟩ s₂ hv₂ left
  cases flow with
  | returned v => exact follows_done left
  | next =>
    obtain ⟨status₂, hplace₂, g, hm₂, -, hcaller, -⟩ := left
    have hend : s₂.transition p = s₂.returnWith none := by
      rw [transition, hplace₂, Program.end_of_body hb]
      rfl
    obtain ⟨s₃, hs₃, hret⟩ := return_returned hv₂ status₂ (by rw [hm₂]) hend
    rw [hcaller, hm₂] at hret
    exact ⟨1, s₃, hs₃, hret⟩

/-- Runs follow calls, by induction on the fuel. A call takes a step and a unit of fuel. -/
theorem answered (marked : p.Marked) (fuel : Nat) : p.Answered fuel := by
  induction fuel with
  | zero =>
    intro s c f rest r receiver method args v vs hs hr source values
    exact ⟨0, s, Nat.le_refl 0, rfl⟩
  | succ fuel ih =>
    intro s c f rest r receiver method args v vs hs hr source values
    have ht := hs.transition_eq
    rw [hr, onReady_due, fire_call source values] at ht
    rw [Program.answer_succ]
    refine follows_both hs.status ht fun a _ ht => ?_
    refine follows_both hs.status ht fun type _ ht => ?_
    refine follows_both hs.status ht fun found hfound ht => ?_
    obtain ⟨body, hcommands, hu⟩ := marked.of_dispatch hfound
    have hb := Program.body?_of_dispatch hfound
    rw [hcommands] at hb ⊢
    obtain ⟨q, hadvance⟩ := advance_of_transition hs.status hs.valid ht
    have hv₁ := advance_valid hs.valid hadvance
    have hbody := body_follows ih hb hu hv₁
      ⟨hs.status, rfl, _, rfl, rfl, rfl, Frame.keeps_enter _ _ _ _⟩
    refine Follows.after (iterate_one hadvance) (.bind hv₁ hbody ?_) (by omega)
    intro b s₂ _ hret
    rw [hs.stack] at hret
    obtain ⟨status, position, hm⟩ := hret
    exact follows_done (within_record hs.stack (status.trans hs.status.symm) position hm)

/-! ## Programs -/

/-- A run follows the evaluation of its program. -/
theorem program_follows (marked : p.Marked) {type method : String}
    (start : State.start p type method = .ok s) (fuel : Nat) :
    s.Follows p fuel (fun a s' => s'.status = .finished a.1 ∧ s'.memory.heap = a.2)
      (p.eval fuel type method) := by
  have hv := start_valid start
  obtain ⟨o, ho, start⟩ := bind_eq_ok_iff.mp start
  obtain ⟨position, hp, start⟩ := bind_eq_ok_iff.mp start
  obtain ⟨found, hfound, hp⟩ := bind_eq_ok_iff.mp hp
  cases start
  cases hp
  obtain ⟨body, hcommands, hu⟩ := marked.of_dispatch hfound
  have hb := Program.body?_of_dispatch hfound
  rw [hcommands] at hb
  have hbody := body_follows (answered marked fuel) hb hu hv
    ⟨rfl, rfl, _, rfl, rfl, rfl, Frame.keeps_enter _ _ _ _⟩
  rw [Program.eval_eq ho hfound, hcommands]
  exact hbody.weaken fun a s' ⟨status, hm⟩ => ⟨status, by rw [hm]⟩

/-- The run of a program ends as its evaluation with enough fuel does: with the same result and the
same heap, or with the same error; it goes on forever if no fuel is enough. -/
theorem run_iff_eval (marked : p.Marked) {type method : String} {s₀ : State}
    (start : State.start p type method = .ok s₀) :
    (∀ r h, (∃ n s, s₀.iterate p n = .ok s ∧ s.status = .finished r ∧ s.memory.heap = h) ↔
      ∃ fuel, p.eval fuel type method = .done (r, h)) ∧
    (∀ e, (∃ n s, s₀.iterate p n = .ok s ∧ s.isFinished = false ∧ s.advance p = .error e) ↔
      ∃ fuel, p.eval fuel type method = .failed e) ∧
    ((∀ n, ∃ s, s₀.iterate p n = .ok s) ↔ ∀ fuel, p.eval fuel type method = .unfinished) := by
  have follows := program_follows marked start
  have final (a : Option Value × Heap) (t : State)
      (h : t.status = .finished a.1 ∧ t.memory.heap = a.2) : t.isFinished = true := by
    rw [isFinished, h.1]
  refine ⟨fun r h => ⟨?_, ?_⟩, fun e => ⟨?_, ?_⟩, ⟨?_, ?_⟩⟩
  · rintro ⟨n, s, hs, status, rfl⟩
    have finished : s.isFinished = true := by rw [isFinished, status]
    obtain ⟨⟨r', h⟩, he, status', rfl⟩ | ⟨unfinished, -⟩ :=
      (follows (n + 1)).of_end hs (advance_of_finished finished) final
    · cases status.symm.trans status'
      exact ⟨n + 1, he⟩
    · rw [finished] at unfinished
      cases unfinished
  · rintro ⟨fuel, he⟩
    have hf := follows fuel
    rw [he] at hf
    exact hf
  · rintro ⟨n, s, hs, unfinished, he⟩
    obtain ⟨a, -, hp⟩ | ⟨-, he⟩ := (follows (n + 1)).of_end hs he final
    · rw [final a s hp] at unfinished
      cases unfinished
    · exact ⟨n + 1, he⟩
  · rintro ⟨fuel, he⟩
    have hf := follows fuel
    rw [he] at hf
    exact hf
  · exact fun endless fuel => (follows fuel).of_endless endless final
  · intro unfinished n
    have hf := follows n
    rw [unfinished n] at hf
    obtain ⟨m, t, hm, ht⟩ := hf
    exact exists_of_iterate ht hm

/-- The counter comes to 3, by the machine and by evaluation. -/
theorem run_iff_eval_counter :
    ∃ s₀ s : State, State.start .counter "Main" "main" = .ok s₀ ∧ Program.counter.Marked ∧
      s₀.iterate .counter 32 = .ok s ∧
      ∃ fuel, Program.counter.eval fuel "Main" "main" = .done (some (.int 3), s.memory.heap) := by
  have marked : Program.counter.Marked := by decide
  have run : ((start .counter "Main" "main").bind (·.iterate .counter 32)).toOption.map
      State.status = some (.finished (some (.int 3))) := by decide +kernel
  obtain ⟨s₀, s, hs₀, hs, status⟩ := exists_of_view run
  exact ⟨s₀, s, hs₀, marked, hs, ((run_iff_eval marked hs₀).1 _ _).mp ⟨32, s, hs, status, rfl⟩⟩

end State

end Microstep
