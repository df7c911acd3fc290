import Microstep.Proofs.Transition

/-!
# Calls and returns

Between a call and its return a run does not touch the activations below the callee, however many
calls are made and answered meanwhile. The return then adds one value to the caller, which is
otherwise as it was.

* `Hosts`, `State.advance_hosts`: an activation on the stack, and what a step does to it;
* `State.hosts_iterate`, `State.returns_of_depth`: the run until it returns, and its return;
* `State.calls_bracketed`: calls and returns of a run match.
-/

namespace Microstep

/-- An activation that returns to `caller` runs or waits, and the frames `below` lie below it. -/
def Hosts (stack : List Frame) (caller : Option Site) (below : List Frame) : Prop :=
  ∃ above g, stack = above ++ g :: below ∧ g.caller = caller

section Hosts

variable {stack rest below : List Frame} {caller : Option Site} {f : Frame}

theorem hosts_cons : Hosts (f :: rest) caller below ↔
    (f.caller = caller ∧ rest = below) ∨ Hosts rest caller below := by
  constructor
  · rintro ⟨above, g, hstack, hcaller⟩
    cases above with
    | nil =>
      cases hstack
      exact .inl ⟨hcaller, rfl⟩
    | cons a above =>
      cases hstack
      exact .inr ⟨above, g, rfl, hcaller⟩
  · rintro (⟨hcaller, rfl⟩ | ⟨above, g, rfl, hcaller⟩)
    · exact ⟨[], f, rfl, hcaller⟩
    · exact ⟨f :: above, g, rfl, hcaller⟩

/-- Only the caller of the top frame counts. -/
theorem Hosts.of_top {g : Frame} (h : Hosts (f :: rest) caller below) (hg : g.caller = f.caller) :
    Hosts (g :: rest) caller below := by
  rw [hosts_cons] at h ⊢
  rwa [hg]

theorem Hosts.suffix (h : Hosts stack caller below) : below <:+ stack := by
  obtain ⟨above, g, rfl, -⟩ := h
  exact ⟨above ++ [g], by simp⟩

theorem Hosts.length_lt (h : Hosts stack caller below) : below.length < stack.length := by
  obtain ⟨above, g, rfl, -⟩ := h
  simp only [List.length_append, List.length_cons]
  omega

theorem Hosts.exists_cons (h : Hosts stack caller below) : ∃ f rest, stack = f :: rest :=
  List.exists_cons_of_length_pos (Nat.zero_lt_of_lt h.length_lt)

end Hosts

namespace State

variable {p : Program} {s s' t u : State} {f : Frame} {rest below : List Frame}
  {caller : Option Site} {v : Option Value} {m n : Nat}

/-- A step leaves an activation on the stack, unless it is the return of that activation. -/
theorem Moves.hosts (hs : s.memory.stack = f :: rest) (h : Moves p s f rest s')
    (hosts : Hosts s.memory.stack caller below) :
    Hosts s'.memory.stack caller below ∨
      ∃ v, rest = below ∧ f.caller = caller ∧ s.Yields p v ∧ Delivers s f rest v s' := by
  rw [hs] at hosts
  cases h with
  | keep command due status position memory =>
    rw [memory]
    exact .inl (hosts.of_top rfl)
  | call command due hcaller fresh dispatch status position memory =>
    rw [memory, Memory.push, hs]
    exact .inl (hosts_cons.mpr (.inr hosts))
  | leave command ready hcaller pending goes status memory =>
    rw [memory]
    exact .inl (hosts.of_top hcaller)
  | @«return» v yields delivers =>
    obtain ⟨hf, hrest⟩ | hosts := hosts_cons.mp hosts
    · exact .inr ⟨v, hrest, hf, yields, delivers⟩
    · refine .inl ?_
      cases delivers with
      | finish _ status position memory => rwa [memory]
      | resume _ stack status position memory =>
        rw [stack] at hosts
        rw [memory]
        exact hosts.of_top rfl

theorem advance_hosts (h : s.advance p = .ok s') (hosts : Hosts s.memory.stack caller below) :
    Hosts s'.memory.stack caller below ∨
      ∃ f v, s.memory.stack = f :: below ∧ f.caller = caller ∧ s.Yields p v ∧
        Delivers s f below v s' := by
  obtain ⟨f, rest, hs⟩ := hosts.exists_cons
  obtain hosts | ⟨v, rfl, hcaller, yields, delivers⟩ := (advance_cases hs h).hosts hs hosts
  · exact .inl hosts
  · exact .inr ⟨f, v, hs, hcaller, yields, delivers⟩

/-- The activation is there as long as the run has not come back to the depth below it. -/
theorem hosts_iterate (hosts : Hosts s.memory.stack caller below)
    (above : ∀ m ≤ n, ∀ t, s.iterate p m = .ok t → t.depth ≠ below.length)
    (h : s.iterate p n = .ok s') : Hosts s'.memory.stack caller below := by
  induction n generalizing s' with
  | zero => cases h; exact hosts
  | succ n ih =>
    obtain ⟨t, ht, ha⟩ := bind_eq_ok_iff.mp (iterate_succ.symm.trans h)
    have hosts := ih (fun m hm => above m (Nat.le_succ_of_le hm)) ht
    obtain hosts | ⟨f, v, -, -, -, delivers⟩ := advance_hosts ha hosts
    · exact hosts
    · exact absurd delivers.depth (above (n + 1) (Nat.le_refl _) s' h)

/-- A step to the depth below an activation is the return of that activation. -/
theorem returns_of_depth (hosts : Hosts s.memory.stack caller below) (h : s.advance p = .ok s')
    (back : s'.depth ≤ below.length) : ∃ f v, s.memory.stack = f :: below ∧ f.caller = caller ∧
      s.Yields p v ∧ Delivers s f below v s' := by
  obtain hosts | returns := advance_hosts h hosts
  · exact absurd hosts.length_lt (Nat.not_lt.mpr back)
  · exact returns

/-- A step makes or ends at most one activation. -/
theorem Moves.depth (hs : s.memory.stack = f :: rest) (h : Moves p s f rest s') :
    s'.depth ≤ s.depth + 1 ∧ s.depth ≤ s'.depth + 1 := by
  rw [depth_eq hs]
  cases h with
  | keep command due status position memory =>
    have := depth_eq (congrArg Memory.stack memory)
    omega
  | call command due caller fresh dispatch status position memory =>
    have := depth_eq (s := s') (by rw [memory, Memory.push, hs])
    rw [List.length_cons] at this
    omega
  | leave command ready caller pending goes status memory =>
    have := depth_eq (congrArg Memory.stack memory)
    omega
  | «return» yields delivers =>
    rw [delivers.depth]
    omega

/-- A step that makes an activation is a call. Its site in the caller is a node of the current
command that has no value. -/
theorem Moves.of_deeper (hs : s.memory.stack = f :: rest) (h : Moves p s f rest s')
    (deeper : s'.depth = s.depth + 1) : ∃ callee site, s'.memory.stack = callee :: s.memory.stack ∧
      callee.pending = ∅ ∧ callee.caller = some site ∧ site.position = s.position ∧
      f.pending[site]? = none := by
  rw [depth_eq hs] at deeper
  cases h with
  | keep command due status position memory =>
    simp [State.depth, Memory.depth, memory] at deeper
  | call command due caller fresh dispatch status position memory =>
    exact ⟨_, _, by rw [memory, Memory.push], fresh, caller, rfl, unknown_of_due hs due⟩
  | leave command ready caller pending goes status memory =>
    simp [State.depth, Memory.depth, memory] at deeper
  | «return» yields delivers =>
    rw [delivers.depth] at deeper
    omega

/-- The step from `u` to `u'` answers the call that was made at `site` of `s`: the frames are those
of `s`, with one more value, which is the one that the callee has returned, or null. -/
structure Answers (p : Program) (s : State) (site : Site) (u u' : State) : Prop where
  position : u'.position = site.position
  heap : u'.memory.heap = u.memory.heap
  frames : ∃ f g rest callee value, s.memory.stack = f :: rest ∧
    u.memory.stack = callee :: s.memory.stack ∧ callee.caller = some site ∧ u.Yields p value ∧
    f.Gains site (value.getD .null) g ∧ u'.memory.stack = g :: rest

theorem Delivers.answers {site : Site} {callee : Frame} (hs : s.memory.stack = f :: rest)
    (unknown : f.pending[site]? = none) (hu : u.memory.stack = callee :: s.memory.stack)
    (hcaller : callee.caller = some site) (yields : u.Yields p v)
    (h : Delivers u callee s.memory.stack v t) : Answers p s site u t := by
  cases h with
  | finish caller => simp [hcaller] at caller
  | resume caller stack status position memory =>
    cases hcaller.symm.trans caller
    cases hs.symm.trans stack
    exact ⟨position, by rw [memory], f, _, rest, callee, v, hs, hu, hcaller, yields,
      Frame.gains_record unknown _, by rw [memory]⟩

/-- Calls and returns of a run match. The depth changes by at most one in a step. After a call the
run does not touch the frames of the caller and those below until it comes back to their depth, and
the step that comes back answers the call. -/
theorem calls_bracketed {type method : String} {s₀ : State}
    (start : State.start p type method = .ok s₀) :
    (∀ i s t, s₀.iterate p i = .ok s → s₀.iterate p (i + 1) = .ok t →
      t.depth ≤ s.depth + 1 ∧ s.depth ≤ t.depth + 1) ∧
    ∀ i s t, s₀.iterate p i = .ok s → s₀.iterate p (i + 1) = .ok t → t.depth = s.depth + 1 →
      ∃ callee site, t.memory.stack = callee :: s.memory.stack ∧ callee.caller = some site ∧
        site.position = s.position ∧
        ∀ j u, i < j → s₀.iterate p j = .ok u →
          (∀ k v, i < k → k ≤ j → s₀.iterate p k = .ok v → v.depth ≠ s.depth) →
          s.memory.stack <:+ u.memory.stack ∧
          ∀ u', s₀.iterate p (j + 1) = .ok u' → u'.depth = s.depth → Answers p s site u u' := by
  have top {i : Nat} {s t : State} (hi : s₀.iterate p i = .ok s) (ha : s.advance p = .ok t) :
      ∃ f rest, s.memory.stack = f :: rest ∧ Moves p s f rest t := by
    obtain ⟨f, rest, hs, -⟩ :=
      (iterate_valid (start_valid start) hi).of_running (advance_eq_ok ha).1
    exact ⟨f, rest, hs, advance_cases hs ha⟩
  refine ⟨fun i s t hi ht => ?_, fun i s t hi ht deeper => ?_⟩
  · obtain ⟨f, rest, hs, moves⟩ := top hi (advance_of_iterate hi ht)
    exact moves.depth hs
  · obtain ⟨f, rest, hs, moves⟩ := top hi (advance_of_iterate hi ht)
    obtain ⟨callee, site, hstack, -, hcaller, hsite, unknown⟩ := moves.of_deeper hs deeper
    refine ⟨callee, site, hstack, hcaller, hsite, fun j u hij hu above => ?_⟩
    -- the run from the first state of the callee
    obtain ⟨n, rfl⟩ : ∃ n, j = i + 1 + n := ⟨j - (i + 1), by omega⟩
    have run {m : Nat} : s₀.iterate p (i + 1 + m) = t.iterate p m := by
      rw [iterate_add, ht, ok_bind]
    have hosts : Hosts t.memory.stack (some site) s.memory.stack :=
      hstack ▸ hosts_cons.mpr (.inl ⟨hcaller, rfl⟩)
    have hosts := hosts_iterate hosts (fun m hm v hv =>
      above (i + 1 + m) v (by omega) (by omega) (run.trans hv)) (run.symm.trans hu)
    refine ⟨hosts.suffix, fun u' hu' back => ?_⟩
    obtain ⟨g, value, hstack', hcaller', yields, delivers⟩ :=
      returns_of_depth hosts (advance_of_iterate hu hu') (Nat.le_of_eq back)
    exact delivers.answers hs unknown hstack' hcaller' yields

/-- What is seen of a state of a run, as the program computes it. -/
theorem view_iterate {α : Type} {type method : String} {s₀ : State} (view : State → α)
    (start : State.start p type method = .ok s₀) (run : s₀.iterate p n = .ok s) :
    ((State.start p type method).bind (·.iterate p n)).toOption.map view = some (view s) := by
  simp [start, run, Except.bind, Except.toOption]

theorem view_eq {α : Type} {type method : String} {s₀ : State} {view : State → α} {a : α}
    (start : State.start p type method = .ok s₀) (run : s₀.iterate p n = .ok s)
    (seen : ((State.start p type method).bind (·.iterate p n)).toOption.map view = some a) :
    view s = a :=
  Option.some.inj ((view_iterate view start run).symm.trans seen)

/-- What is seen of the states before and after a step, computed. -/
theorem exists_step_of_view {α β : Type} {type method : String} {view : State → α}
    {view' : State → β} {a : α} {b : β}
    (before : ((State.start p type method).bind (·.iterate p n)).toOption.map view = some a)
    (after : ((State.start p type method).bind (·.iterate p (n + 1))).toOption.map view' =
      some b) :
    ∃ s₀ s s' : State, State.start p type method = .ok s₀ ∧ s₀.iterate p n = .ok s ∧
      s.advance p = .ok s' ∧ view s = a ∧ view' s' = b := by
  obtain ⟨s₀, s', start, run', seen'⟩ := exists_of_view after
  obtain ⟨s, run⟩ := exists_of_iterate run' (Nat.le_succ n)
  have seen := view_eq start run before
  exact ⟨s₀, s, s', start, run, advance_of_iterate run run', seen, seen'⟩

/-- The first call of the counter is made in step 5 and answered in step 15, with the value 1, which
its node has from then on. -/
theorem calls_bracketed_counter :
    let site : Site := ⟨⟨"Main", "main", [⟨0, 2⟩]⟩, [0, 0]⟩
    ∃ s₀ s u u' : State, State.start .counter "Main" "main" = .ok s₀ ∧
      s₀.iterate .counter 4 = .ok s ∧ s₀.iterate .counter 14 = .ok u ∧
      s₀.iterate .counter 15 = .ok u' ∧ Answers .counter s site u u' ∧
      s.memory.stack.map (·.pending[site]?) = [none] ∧
      u'.memory.stack.map (·.pending[site]?) = [some (.int 1)] := by
  intro site
  have depths : ∀ k < 12, ((start .counter "Main" "main").bind
      (·.iterate .counter (4 + k))).toOption.map State.depth =
        some (if k = 0 ∨ k = 11 then 1 else 2) := by decide +kernel
  have values (k : Nat) (hk : k = 0 ∨ k = 11) : ((start .counter "Main" "main").bind
      (·.iterate .counter (4 + k))).toOption.map (·.memory.stack.map (·.pending[site]?)) =
        some [if k = 0 then none else some (.int 1)] := by
    obtain rfl | rfl := hk <;> decide +kernel
  have callers : ((start .counter "Main" "main").bind (·.iterate .counter 5)).toOption.map
      (·.memory.stack.map (·.caller)) = some [some site, none] := by decide +kernel
  obtain ⟨s₀, u', hs₀, hu', hd'⟩ := exists_of_view (depths 11 (by omega))
  have at_step {k : Nat} (hk : k < 12) :
      ∃ s, s₀.iterate .counter (4 + k) = .ok s ∧ s.depth = if k = 0 ∨ k = 11 then 1 else 2 := by
    obtain ⟨s, hs⟩ := exists_of_iterate hu' (show 4 + k ≤ 4 + 11 by omega)
    exact ⟨s, hs, view_eq hs₀ hs (depths k hk)⟩
  obtain ⟨s, hs, hd⟩ := at_step (k := 0) (by omega)
  obtain ⟨t, ht, hdt⟩ := at_step (k := 1) (by omega)
  obtain ⟨u, hu, -⟩ := at_step (k := 10) (by omega)
  obtain ⟨-, brackets⟩ := calls_bracketed hs₀
  obtain ⟨callee, waiting, hstack, caller, -, answered⟩ :=
    brackets 4 s t hs ht (by simp [hd, hdt])
  obtain rfl : waiting = site := by
    have called := view_eq hs₀ ht callers
    rw [hstack, List.map_cons, caller] at called
    exact Option.some.inj (List.cons.inj called).1
  obtain ⟨-, answers⟩ := answered 14 u (by omega) hu fun k v hik hkj hv => by
    obtain ⟨w, hw, hdw⟩ := at_step (k := k - 4) (by omega)
    rw [Nat.add_sub_cancel' (by omega)] at hw
    cases hv.symm.trans hw
    rw [hd, hdw, if_neg (by omega), if_pos (.inl rfl)]
    exact Nat.succ_ne_self 1
  exact ⟨s₀, s, u, u', hs₀, hs, hu, hu', answers u' hu' (hd'.trans hd.symm),
    view_eq hs₀ hs (values 0 (.inl rfl)), view_eq hs₀ hu' (values 11 (.inr rfl))⟩

end State

end Microstep
