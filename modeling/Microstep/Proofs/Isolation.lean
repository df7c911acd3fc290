import Microstep.Proofs.Bracketing

/-!
# Activations on their own

What an activation does depends on its own frame, the position and the heap. Two runs of a program
that agree on these go on alike until the activation returns, whatever waits below it, and whatever
calls it makes meanwhile. Only the site to which the frame returns may differ, as it is not read
before the return.

* `Frame.Alike`, `StacksAlike`, `State.Alike`: states that agree down to an activation;
* `State.Lockstep`: two steps that succeed together or fail with the same error;
* `State.Alike.transition`, `State.Alike.advance`: one step of both runs;
* `State.activation_isolated`: the runs until the activation returns.
-/

namespace Microstep

/-- The frames are the same, but perhaps for where they return to. -/
def Frame.Alike (f g : Frame) : Prop := ∃ caller, g = { f with caller }

/-- The stacks agree down to an activation, up to where that returns to. The frames `below` and
`below'` lie below it. -/
inductive StacksAlike (below below' : List Frame) : List Frame → List Frame → Prop
  | base {f g : Frame} (alike : f.Alike g) : StacksAlike below below' (f :: below) (g :: below')
  | push {f : Frame} {rest rest' : List Frame} (alike : StacksAlike below below' rest rest') :
    StacksAlike below below' (f :: rest) (f :: rest')

section Stacks

variable {below below' stack stack' rest rest' : List Frame} {f g : Frame}

theorem Frame.Alike.symm (h : f.Alike g) : g.Alike f := by
  obtain ⟨caller, rfl⟩ := h
  exact ⟨f.caller, rfl⟩

theorem StacksAlike.symm (h : StacksAlike below below' stack stack') :
    StacksAlike below' below stack' stack := by
  induction h with
  | base alike => exact .base alike.symm
  | push _ ih => exact .push ih

theorem StacksAlike.length (h : StacksAlike below below' stack stack') :
    below.length < stack.length ∧ stack.length + below'.length = stack'.length + below.length := by
  induction h with
  | base alike => simp only [List.length_cons]; omega
  | push _ ih => simp only [List.length_cons]; omega

/-- The top frames of two stacks that agree, and what lies below them: the frames that do not count,
or again stacks that agree. -/
structure TopsAlike (below below' : List Frame) (f g : Frame) (rest rest' : List Frame) :
    Prop where
  frames : f.Alike g
  rests : (rest = below ∧ rest' = below') ∨
    (f.caller = g.caller ∧ StacksAlike below below' rest rest')

theorem StacksAlike.tops (h : StacksAlike below below' stack stack') :
    ∃ f g rest rest', stack = f :: rest ∧ stack' = g :: rest' ∧
      TopsAlike below below' f g rest rest' := by
  cases h with
  | base alike => exact ⟨_, _, _, _, rfl, rfl, alike, .inl ⟨rfl, rfl⟩⟩
  | push alike => exact ⟨_, _, _, _, rfl, rfl, ⟨_, rfl⟩, .inr ⟨rfl, alike⟩⟩

/-- The same change to both top frames leaves the stacks alike. It does not read where a frame
returns to. -/
theorem TopsAlike.change (h : TopsAlike below below' f g rest rest') (k : Frame → Frame)
    (blind : ∀ (f : Frame) caller, k { f with caller } = { k f with caller }) :
    StacksAlike below below' (k f :: rest) (k g :: rest') := by
  obtain ⟨⟨caller, rfl⟩, ⟨rfl, rfl⟩ | ⟨hc, hr⟩⟩ := h
  · exact .base ⟨caller, blind f caller⟩
  · cases hc
    exact .push hr

end Stacks

namespace State

variable {p : Program} {s t s' t' u : State} {below below' : List Frame} {f g : Frame}
  {rest rest' : List Frame} {c : Command} {r : Redex} {v : Option Value} {n : Nat} {h : Heap}
  {R S : State → State → Prop}

/-- The states are the same down to an activation, up to where that returns to. -/
structure Alike (below below' : List Frame) (s t : State) : Prop where
  position : t.position = s.position
  cursor : t.cursor = s.cursor
  status : t.status = s.status
  heap : t.memory.heap = s.memory.heap
  stack : StacksAlike below below' s.memory.stack t.memory.stack

/-- Both steps succeed, with related states, or both fail with the same error. -/
inductive Lockstep (R : State → State → Prop) : Except Error State → Except Error State → Prop
  | ok {s t : State} (related : R s t) : Lockstep R (.ok s) (.ok t)
  | error (e : Error) : Lockstep R (.error e) (.error e)

theorem Lockstep.mono {x y : Except Error State} (hxy : Lockstep R x y)
    (hr : ∀ s t, R s t → S s t) : Lockstep S x y := by
  cases hxy with
  | ok related => exact .ok (hr _ _ related)
  | error e => exact .error e

/-- What both steps begin with. -/
theorem Lockstep.after {α : Type} {x : Except Error α} {k k' : α → Except Error State}
    (next : ∀ a, Lockstep R (k a) (k' a)) : Lockstep R (x >>= k) (x >>= k') := by
  cases x with
  | error e => exact .error e
  | ok a => exact next a

theorem Lockstep.bind {x y : Except Error State} {k k' : State → Except Error State}
    (hxy : Lockstep R x y)
    (next : ∀ s t, x = .ok s → y = .ok t → R s t → Lockstep S (k s) (k' t)) :
    Lockstep S (x >>= k) (y >>= k') := by
  cases hxy with
  | error e => exact .error e
  | ok related => exact next _ _ rfl rfl related

/-- The states are still alike, or the activation has returned in both. -/
inductive Together (below below' : List Frame) (s t : State) : Prop
  | inside (alike : Alike below below' s t)
  | outside (depth : s.depth = below.length) (depth' : t.depth = below'.length)
      (heap : t.memory.heap = s.memory.heap)

namespace Alike

theorem symm (alike : Alike below below' s t) : Alike below' below t s :=
  ⟨alike.position.symm, alike.cursor.symm, alike.status.symm, alike.heap.symm, alike.stack.symm⟩

theorem depth (alike : Alike below below' s t) :
    below.length < s.depth ∧ s.depth + below'.length = t.depth + below.length :=
  alike.stack.length

theorem known (alike : Alike below below' s t) : t.known = s.known := by
  obtain ⟨f, g, rest, rest', hs, ht, ⟨caller, rfl⟩, -⟩ := alike.stack.tops
  funext path
  rw [known_eq hs, known_eq ht, site, site, alike.position]

/-- The same value is returned, if any is. -/
theorem yields (alike : Alike below below' s t) (h : s.Yields p v) : t.Yields p v := by
  obtain ⟨f, g, rest, rest', hs, ht, -⟩ := alike.stack.tops
  cases h with
  | fall ended => exact .fall (alike.position ▸ ended)
  | void command => exact .void (alike.position ▸ command)
  | value command evaluated =>
    rw [evaluate_eq hs] at evaluated
    refine .value (alike.position ▸ command) ?_
    rwa [evaluate_eq ht, alike.known]

/-- The same heap, and the same change to both top frames. -/
theorem change (alike : Alike below below' s t) (tops : TopsAlike below below' f g rest rest')
    (k : Frame → Frame) (blind : ∀ (f : Frame) caller, k { f with caller } = { k f with caller })
    (h : Heap) : Alike below below' { s with memory := ⟨h, k f :: rest⟩ }
      { t with memory := ⟨h, k g :: rest'⟩ } :=
  ⟨alike.position, alike.cursor, alike.status, rfl, tops.change k blind⟩

/-! ## Parts of a step -/

theorem moveTo (alike : Alike below below' s t) (q : Position) :
    Lockstep (Alike below below') (s.moveTo q) (t.moveTo q) := by
  obtain ⟨f, g, rest, rest', hs, ht, tops⟩ := alike.stack.tops
  rw [moveTo_eq hs, moveTo_eq ht, alike.position, alike.heap]
  exact .ok ⟨rfl, rfl, alike.status, rfl, tops.change (·.clear s.position) fun _ _ => rfl⟩

theorem leave (alike : Alike below below' s t) :
    Lockstep (Alike below below') (s.leave p) (t.leave p) := by
  rw [State.leave, State.leave, alike.position]
  exact .after alike.moveTo

theorem enter (alike : Alike below below' s t) (block : Nat) (branch : List Command) :
    Lockstep (Alike below below') (s.enter p block branch) (t.enter p block branch) := by
  unfold State.enter
  split
  · exact alike.leave
  · rw [alike.position]
    exact alike.moveTo _

theorem choose (alike : Alike below below' s t) (condition : Expr) (thenBranch : List Command)
    (elseBranch : Option (List Command)) (v : Value) :
    Lockstep (Alike below below') (s.choose p condition thenBranch elseBranch v)
      (t.choose p condition thenBranch elseBranch v) := by
  unfold State.choose
  split
  · exact .error _
  · exact alike.enter 0 thenBranch
  · exact alike.enter 1 _
  · exact alike.leave

/-- A return from above the activation leaves the states alike; that of the activation itself takes
it off both stacks. -/
theorem returnWith (alike : Alike below below' s t) (hv : Valid p s) (hv' : Valid p t)
    (status : s.status = .running) (v : Option Value) :
    Lockstep (Together below below') (s.returnWith v) (t.returnWith v) := by
  obtain ⟨f, g, rest, rest', hs, ht, tops⟩ := alike.stack.tops
  obtain ⟨_, _, hs', -, waiting, -⟩ := hv.of_running status
  obtain ⟨_, _, ht', -, waiting', -⟩ := hv'.of_running (alike.status.trans status)
  cases hs.symm.trans hs'
  cases ht.symm.trans ht'
  obtain ⟨rfl, rfl⟩ | ⟨hc, hrest⟩ := tops.rests
  · obtain ⟨s', hs'⟩ := returnWith_of_waiting hs waiting v
    obtain ⟨t', ht'⟩ := returnWith_of_waiting ht waiting' v
    have left := (returnWith_cases hs hs').delivers []
    have right := (returnWith_cases ht ht').delivers []
    rw [hs', ht']
    exact .ok (.outside left.depth right.depth (right.heap.trans (alike.heap.trans left.heap.symm)))
  · obtain ⟨f', g', below₁, below₁', rfl, rfl, tops'⟩ := hrest.tops
    simp only [State.returnWith, Memory.pop_eq hs, Memory.pop_eq ht, ok_bind, ← hc]
    cases hcaller : f.caller with
    | none => rw [hcaller] at waiting; exact waiting.elim
    | some site =>
      have resumed := tops'.change (·.record site (v.getD .null)) fun _ _ => rfl
      exact .ok (.inside ⟨rfl, rfl, alike.status, alike.heap, resumed⟩)

/-- A node that is due is evaluated, or called for, in the same way. -/
theorem fire (alike : Alike below below' s t) (hconst : r.source.isConst = false)
    (hlen : r.values.length = r.source.children.length) :
    Lockstep (Alike below below') (s.fire p r) (t.fire p r) := by
  obtain ⟨f, g, rest, rest', hs, ht, tops⟩ := alike.stack.tops
  cases hcall : r.source.isCall with
  | false =>
    rw [fire_value hs hconst hcall hlen, fire_value ht hconst hcall hlen, alike.heap]
    have scopes : g.toScope = f.toScope := by obtain ⟨_, h⟩ := tops.frames; rw [h]
    have sites : t.site r.path = s.site r.path := by rw [site, site, alike.position]
    rw [scopes, sites]
    refine .after fun result => ?_
    obtain ⟨v, h⟩ := result
    exact .ok (alike.change tops (·.record (s.site r.path) v) (fun _ _ => rfl) h)
  | true =>
    obtain ⟨receiver, method, args, v, vs, source, values⟩ := call_of_isCall hcall hlen
    rw [fire_call source values, fire_call source values, alike.heap, site, site, alike.position]
    refine .after fun a => .after fun type => .after fun found => .ok ?_
    exact ⟨rfl, rfl, alike.status, alike.heap, .push alike.stack⟩

/-- A command takes effect in the same way. -/
theorem perform (alike : Alike below below' s t) (hv : Valid p s) (hv' : Valid p t)
    (status : s.status = .running) (c : Command) (vs : List Value) :
    Lockstep (Together below below') (s.perform p c vs) (t.perform p c vs) := by
  obtain ⟨f, g, rest, rest', hs, ht, tops⟩ := alike.stack.tops
  unfold State.perform
  split
  · rw [alike.position]
    exact (alike.moveTo _).mono fun _ _ => .inside
  · simp only [Memory.write, Memory.bind, Memory.modifyTop, hs, ht, ok_bind, alike.heap]
    rename_i name _ v _
    have bound := alike.change tops (·.bind name v) (fun _ _ => rfl) s.memory.heap
    exact bound.leave.mono fun _ _ => .inside
  · simp only [Memory.write, hs, ht, alike.heap, bind_assoc]
    refine .after fun a => .after fun h => ?_
    have written := alike.change tops id (fun _ _ => rfl) h
    exact written.leave.mono fun _ _ => .inside
  · exact (alike.choose ..).mono fun _ _ => .inside
  · exact alike.leave.mono fun _ _ => .inside
  · exact alike.returnWith hv hv' status none
  · exact alike.returnWith hv hv' status _
  · exact .error _

/-! ## Steps -/

theorem transition (alike : Alike below below' s t) (hv : Valid p s) (hv' : Valid p t)
    (status : s.status = .running) :
    Lockstep (Together below below') (s.transition p) (t.transition p) := by
  obtain ⟨f, g, rest, rest', hs, ht, -⟩ := alike.stack.tops
  rw [State.transition, State.transition, alike.position]
  refine .after fun command? => ?_
  cases command? with
  | none => exact alike.returnWith hv hv' status none
  | some c =>
    show Lockstep _ (s.execute p c) (t.execute p c)
    cases hf : c.fault? with
    | some e => rw [execute_of_fault hf, execute_of_fault hf]; exact .error e
    | none =>
      rw [execute_eq hs hf, execute_eq ht hf, alike.known]
      cases hr : c.readiness s.known with
      | ready vs => exact alike.perform hv hv' status c vs
      | due r =>
        obtain ⟨hconst, hlen⟩ := Command.operands_of_readiness hr
        exact (alike.fire hconst hlen).mono fun _ _ => .inside

theorem refresh (alike : Alike below below' s t) :
    Lockstep (Alike below below') (s.refresh p) (t.refresh p) := by
  obtain ⟨f, g, rest, rest', hs, ht, -⟩ := alike.stack.tops
  rw [State.refresh, State.refresh, command?, command?, alike.status, alike.position]
  refine .after fun current => ?_
  cases current with
  | none => exact .ok ⟨rfl, rfl, rfl, alike.heap, alike.stack⟩
  | some c =>
    simp only [cursorOf_eq hs, cursorOf_eq ht, alike.known]
    exact .ok ⟨rfl, rfl, rfl, alike.heap, alike.stack⟩

end Alike

theorem Together.refresh (h : Together below below' s t) (hv : Valid p s) (hv' : Valid p t) :
    Lockstep (Together below below') (s.refresh p) (t.refresh p) := by
  cases h with
  | inside alike => exact alike.refresh.mono fun _ _ => .inside
  | outside depth depth' heap =>
    obtain ⟨s', hs'⟩ := refresh_of_valid hv
    obtain ⟨t', ht'⟩ := refresh_of_valid hv'
    obtain ⟨path, rfl⟩ := refresh_cases hs'
    obtain ⟨path', rfl⟩ := refresh_cases ht'
    rw [hs', ht']
    exact .ok (.outside depth depth' heap)

/-- One step of two runs that are alike. -/
theorem Alike.advance (alike : Alike below below' s t) (hv : Valid p s) (hv' : Valid p t) :
    Lockstep (Together below below') (s.advance p) (t.advance p) := by
  rw [State.advance, State.advance, alike.status]
  cases status : s.status with
  | finished result => exact .error _
  | running =>
    refine (alike.transition hv hv' status).bind fun s' t' hs' ht' together => ?_
    exact together.refresh (transition_valid status hv hs')
      (transition_valid (alike.status.trans status) hv' ht')

/-! ## Runs -/

/-- The runs are alike as long as the activation has not returned. -/
theorem Alike.iterate (alike : Alike below below' s t) (hv : Valid p s) (hv' : Valid p t)
    (stays : s.Stays p (below.length + 1) n) :
    Lockstep (Alike below below') (s.iterate p n) (t.iterate p n) := by
  induction n with
  | zero => exact .ok alike
  | succ n ih =>
    rw [iterate_succ, iterate_succ]
    refine (ih (stays.mono (Nat.le_succ n))).bind fun u u' hu hu' alike => ?_
    have step := alike.advance (iterate_valid hv hu) (iterate_valid hv' hu')
    generalize hx : u.advance p = x at step
    generalize u'.advance p = y at step
    cases step with
    | error e => exact .error e
    | @ok w w' together =>
      cases together with
      | inside alike => exact .ok alike
      | outside depth depth' heap =>
        have := stays (n + 1) (Nat.le_refl _) w (by rw [iterate_succ, hu, ok_bind, hx])
        omega

/-- The activation on top of `s` is there for `n` steps and returns in the next one, with the value,
or without one, and the heap. -/
def ReturnsAfter (p : Program) (s : State) (n : Nat) (value : Option Value) (h : Heap) : Prop :=
  ∃ u u', s.Stays p s.depth n ∧ s.iterate p n = .ok u ∧ u.advance p = .ok u' ∧
    u'.depth < s.depth ∧ u.Yields p value ∧ u'.memory.heap = h

/-- A run that comes below the depth at which it started has returned from there. -/
theorem returnsAfter_of_depth (hs : s.memory.stack = f :: below)
    (stays : s.Stays p s.depth n) (h : s.iterate p (n + 1) = .ok t) (back : t.depth < s.depth) :
    ∃ value, s.ReturnsAfter p n value t.memory.heap := by
  obtain ⟨u, hu, ha⟩ := bind_eq_ok_iff.mp (iterate_succ.symm.trans h)
  have deep := depth_eq hs
  have hosts : Hosts s.memory.stack f.caller below := hs ▸ hosts_cons.mpr (.inl ⟨rfl, rfl⟩)
  have hosts := hosts_iterate hosts (fun m hm t ht => by have := stays m hm t ht; omega) hu
  obtain ⟨g, value, -, -, yields, -⟩ := returns_of_depth hosts ha (by omega)
  exact ⟨value, u, t, stays, hu, ha, back, yields, rfl⟩

/-- If one activation returns, so does another one that is alike, in the same step. -/
theorem Alike.returnsAfter (alike : Alike below below' s t) (hv : Valid p s) (hv' : Valid p t)
    (hs : s.memory.stack = f :: below) (returns : s.ReturnsAfter p n v h) :
    t.ReturnsAfter p n v h := by
  obtain ⟨u, u', stays, hu, ha, back, yields, rfl⟩ := returns
  rw [depth_eq hs] at stays back
  have ht : t.depth = below'.length + 1 := by have := alike.depth; rw [depth_eq hs] at this; omega
  have run := alike.iterate hv hv' stays
  rw [hu] at run
  generalize hw : t.iterate p n = w at run
  cases run with
  | @ok _ w alike' =>
    have step := alike'.advance (iterate_valid hv hu) (iterate_valid hv' hw)
    rw [ha] at step
    generalize hw' : w.advance p = w' at step
    cases step with
    | @ok _ w' together =>
      cases together with
      | inside inner => have := inner.depth; omega
      | outside depth depth' heap =>
        refine ⟨w, w', fun m hm x hx => ?_, hw, hw', by omega, alike'.yields yields, heap⟩
        have run := alike.iterate hv hv' (stays.mono hm)
        rw [hx] at run
        generalize s.iterate p m = y at run
        cases run with
        | ok alike'' => have := alike''.depth; omega

/-- Two activations of a program that agree in everything but where they return to go on alike, in
the same position and with the same heap, until they return: if one returns, so does the other, in
the same step, with the same value and the same heap. -/
theorem activation_isolated {type method type' method' : String} {s₀ t₀ : State} {i j : Nat}
    (start : State.start p type method = .ok s₀) (start' : State.start p type' method' = .ok t₀)
    (run : s₀.iterate p i = .ok s) (run' : t₀.iterate p j = .ok t)
    (unfinished : s.isFinished = false) (unfinished' : t.isFinished = false)
    (position : t.position = s.position) (cursor : t.cursor = s.cursor)
    (heap : t.memory.heap = s.memory.heap) (stack : s.memory.stack = f :: below)
    (stack' : t.memory.stack = g :: below') (frames : f.Alike g) :
    (∀ n, s.Stays p s.depth n →
      Lockstep (Alike below below') (s.iterate p n) (t.iterate p n)) ∧
    (∀ n value h, s.ReturnsAfter p n value h ↔ t.ReturnsAfter p n value h) ∧
    ∀ n u, s.Stays p s.depth n → s.iterate p (n + 1) = .ok u → u.depth < s.depth →
      ∃ value, s.ReturnsAfter p n value u.memory.heap := by
  have hv := iterate_valid (start_valid start) run
  have hv' := iterate_valid (start_valid start') run'
  have status : t.status = s.status := by
    rw [running_of_isFinished unfinished, running_of_isFinished unfinished']
  have alike : Alike below below' s t :=
    ⟨position, cursor, status, heap, by rw [stack, stack']; exact .base frames⟩
  refine ⟨fun n stays => ?_, fun n value h => ⟨?_, ?_⟩, fun n u stays hu back => ?_⟩
  · exact alike.iterate hv hv' (depth_eq stack ▸ stays)
  · exact alike.returnsAfter hv hv' stack
  · exact alike.symm.returnsAfter hv' hv stack'
  · exact returnsAfter_of_depth stack stays hu back

end State

/-- Two methods call a third one, with nothing left to do or with a sum to be finished. -/
def Program.callers : Program where
  table := [⟨"Main", none, [], [
    .ofBody "seven" [] [.ret (some (.apply .add [.const (.int 3), .const (.int 4)]))],
    .ofBody "first" [] [.ret (some (.call .self "seven" []))],
    .ofBody "second" [] [.ret (some (.apply .add [.call .self "seven" [], .const (.int 1)]))]]⟩]
  fault?_eq_none := by decide

/-- The third method is called in step 3 of both runs, returns to different nodes, and returns in
step 3 of its own. -/
theorem State.activation_isolated_callers :
    ∃ s₀ t₀ s t : State, State.start .callers "Main" "first" = .ok s₀ ∧
      State.start .callers "Main" "second" = .ok t₀ ∧ s₀.iterate .callers 3 = .ok s ∧
      t₀.iterate .callers 3 = .ok t ∧
      s.memory.stack.head?.map Frame.caller ≠ t.memory.stack.head?.map Frame.caller ∧
      ∃ value h, s.ReturnsAfter .callers 2 value h ∧ t.ReturnsAfter .callers 2 value h := by
  -- what is equal in both states
  let view (s : State) := (s.isFinished, s.position, s.cursor, s.memory.heap,
    s.memory.stack.head?.map ({ · with caller := none }))
  have same : ((start .callers "Main" "first").bind (·.iterate .callers 3)).toOption.map view =
      ((start .callers "Main" "second").bind (·.iterate .callers 3)).toOption.map view := by
    decide +kernel
  have callers : ((start .callers "Main" "first").bind (·.iterate .callers 3)).toOption.map
      (·.memory.stack.head?.map Frame.caller) ≠
    ((start .callers "Main" "second").bind (·.iterate .callers 3)).toOption.map
      (·.memory.stack.head?.map Frame.caller) := by decide +kernel
  have depths : ∀ k < 4, ((start .callers "Main" "first").bind
      (·.iterate .callers (3 + k))).toOption.map State.depth = some (if k = 3 then 1 else 2) := by
    decide +kernel
  have running : ((start .callers "Main" "second").bind (·.iterate .callers 3)).toOption.map
      (fun t => (t.isFinished, t.depth)) = some (false, 2) := by decide +kernel
  obtain ⟨s₀, u, hs₀, hu, hdu⟩ := exists_of_view (depths 3 (by omega))
  obtain ⟨t₀, t, ht₀, ht, htop⟩ := exists_of_view running
  obtain ⟨unfinished', hdt⟩ := Prod.mk.inj htop
  obtain ⟨s, hs⟩ := exists_of_iterate hu (show 3 ≤ 3 + 3 by omega)
  have hds := view_eq hs₀ hs (depths 0 (by omega))
  rw [view_iterate _ hs₀ hs, view_iterate _ ht₀ ht] at same callers
  obtain ⟨f, below, stack⟩ := List.exists_cons_of_length_pos (l := s.memory.stack) (by
    rw [show s.memory.stack.length = 2 from hds]; decide)
  obtain ⟨g, below', stack'⟩ := List.exists_cons_of_length_pos (l := t.memory.stack) (by
    rw [show t.memory.stack.length = 2 from hdt]; decide)
  simp only [view, stack, stack', List.head?_cons, Option.map_some, Option.some.injEq,
    Prod.mk.injEq] at same
  obtain ⟨finished, position, cursor, heap, frames⟩ := same
  have alike : f.Alike g := ⟨g.caller, by cases f; cases g; cases frames; rfl⟩
  obtain ⟨-, returns, deeper⟩ := activation_isolated hs₀ ht₀ hs ht (finished.trans unfinished')
    unfinished' position.symm cursor.symm heap.symm stack stack' alike
  have stays : s.Stays .callers s.depth 2 := fun k hk w hw => by
    have run : s₀.iterate .callers (3 + k) = .ok w := by rw [iterate_add, hs, ok_bind, hw]
    have hd := view_eq hs₀ run (depths k (by omega))
    rw [hds, hd]
    split <;> split <;> omega
  have hu' : s.iterate .callers 3 = .ok u := by rwa [iterate_add, hs, ok_bind] at hu
  obtain ⟨value, h⟩ := deeper 2 u stays hu' (by rw [hds, hdu]; decide)
  exact ⟨s₀, t₀, s, t, hs₀, ht₀, hs, ht, fun h => callers (congrArg some h), value, _, h,
    (returns 2 value _).mp h⟩

end Microstep
