import Microstep.Proofs.Bracketing

/-!
# The run of one activation

The steps of an activation, with the calls that it makes skipped: from a state in which it runs to
the next such state it either gets the value of one node of the current command, or leaves the
command.

* `State.Resumes`: the next state in which an activation runs;
* `State.Continues`, `State.resumes_cases`: what has happened until then;
* `State.Latest`, `State.exists_latest`: the last such state up to some step of the run.
-/

namespace Microstep.State

variable {p : Program} {s s' t u : State} {f : Frame} {rest : List Frame} {c : Command}
  {k m n : Nat}

/-- A run starts with one activation. -/
theorem start_stack {type method : String} (h : State.start p type method = .ok s) :
    ∃ f, s.memory.stack = [f] ∧ f.caller = none ∧ f.pending = ∅ := by
  obtain ⟨o, -, h⟩ := bind_eq_ok_iff.mp h
  obtain ⟨position, -, h⟩ := bind_eq_ok_iff.mp h
  cases h
  exact ⟨_, rfl, rfl, rfl⟩

/-- The activation on top of `s` is on top again after `n` steps, for the first time. -/
structure Resumes (p : Program) (s : State) (n : Nat) (t : State) : Prop where
  pos : 0 < n
  run : s.iterate p n = .ok t
  depth : t.depth = s.depth
  deeper : ∀ m, 0 < m → m < n → ∀ u, s.iterate p m = .ok u → s.depth < u.depth

/-- What an activation `f` that stands at a command has done when it is on top again. -/
inductive Continues (p : Program) (s : State) (f : Frame) (rest : List Frame) (n : Nat)
    (t : State) : Prop
  /-- The due node has its value, by a call perhaps. -/
  | keep {c : Command} {r : Redex} {v : Value} (command : p.commandAt s.position = .ok (some c))
      (due : c.readiness s.known = .due r) (position : t.position = s.position)
      (stack : t.memory.stack = f.record (s.site r.path) v :: rest)
  /-- It has left the command, of which nothing was due. -/
  | leave {c : Command} {vs : List Value} {g : Frame} (once : n = 1)
      (command : p.commandAt s.position = .ok (some c)) (ready : c.readiness s.known = .ready vs)
      (pending : g.pending = f.pending) (goes : Goes p c s.position t.position)
      (stack : t.memory.stack = g.clear s.position :: rest)

theorem Resumes.exists_advance (h : s.Resumes p n t) : ∃ s', s.advance p = .ok s' := by
  obtain ⟨s', hs'⟩ := exists_of_iterate h.run (show 1 ≤ n from h.pos)
  exact ⟨s', advance_of_iterate (s := s) (n := 0) rfl hs'⟩

/-- An activation that makes no call is on top again at once. -/
theorem Resumes.once (h : s.Resumes p n t) (ha : s.advance p = .ok s') (hd : s'.depth ≤ s.depth) :
    n = 1 ∧ t = s' := by
  obtain ⟨n, rfl⟩ : ∃ k, n = k + 1 := ⟨n - 1, by have := h.pos; omega⟩
  have run := h.run
  cases n with
  | zero =>
    rw [iterate_cons ha] at run
    cases run
    exact ⟨rfl, rfl⟩
  | succ n => exact absurd (h.deeper 1 (by omega) (by omega) s' (iterate_one ha)) (by omega)

/-- What an activation has done when it is on top again. -/
theorem resumes_cases (hs : s.memory.stack = f :: rest) (h : s.Resumes p n t) :
    Continues p s f rest n t := by
  obtain ⟨s', ha⟩ := h.exists_advance
  have moves := advance_cases hs ha
  have deep := depth_eq hs
  cases moves with
  | keep command due status position memory =>
    obtain ⟨-, rfl⟩ := h.once ha (by simp [State.depth, Memory.depth, memory, hs])
    exact .keep command due position (by rw [memory])
  | leave command ready caller pending goes status memory =>
    obtain ⟨hn, rfl⟩ := h.once ha (by simp [State.depth, Memory.depth, memory, hs])
    exact .leave hn command ready pending goes (by rw [memory])
  | «return» yields delivers =>
    have back := delivers.depth
    obtain ⟨-, rfl⟩ := h.once ha (by omega)
    exact absurd h.depth (by omega)
  | @call c r callee _ _ _ _ command due caller fresh dispatch status position memory =>
    -- the callee is there from the next state on, and returns in the last step
    have hcallee : s'.memory.stack = callee :: s.memory.stack := by rw [memory, Memory.push]
    obtain ⟨n, rfl⟩ : ∃ j, n = j + 1 := ⟨n - 1, by have := h.pos; omega⟩
    have run := h.run
    rw [iterate_cons ha] at run
    cases n with
    | zero =>
      cases run
      have := depth_eq hcallee
      exact absurd h.depth (by rw [this]; exact Nat.succ_ne_self _)
    | succ n =>
      obtain ⟨u, hu, hlast⟩ := bind_eq_ok_iff.mp (iterate_succ.symm.trans run)
      have hosts : Hosts s'.memory.stack (some (s.site r.path)) s.memory.stack :=
        hcallee ▸ hosts_cons.mpr (.inl ⟨caller, rfl⟩)
      have hosts := hosts_iterate hosts (fun m hm w hw =>
        (Nat.ne_of_lt (h.deeper (m + 1) (by omega) (by omega) w
          (by rw [iterate_cons ha, hw]))).symm) hu
      obtain ⟨_, v, -, hcaller, -, delivers⟩ :=
        returns_of_depth hosts hlast (Nat.le_of_eq h.depth)
      cases delivers with
      | finish hfinish => cases hcaller.symm.trans hfinish
      | resume hresume stack status position memory =>
        cases hcaller.symm.trans hresume
        cases hs.symm.trans stack
        exact .keep command due position (by rw [memory])

/-- An activation can resume only if one runs. -/
theorem Resumes.top (h : s.Resumes p n t) (hv : Valid p s) :
    ∃ f rest, s.memory.stack = f :: rest ∧ Continues p s f rest n t := by
  obtain ⟨s', ha⟩ := h.exists_advance
  obtain ⟨status, -⟩ := advance_eq_ok ha
  obtain ⟨f, rest, hs, -⟩ := hv.of_running status
  exact ⟨f, rest, hs, resumes_cases hs h⟩

/-- Up to step `n` the activation on top of `s` has been on top in `u`, after `k` steps, and not
later. -/
structure Latest (p : Program) (s : State) (n k : Nat) (u : State) : Prop where
  le : k ≤ n
  run : s.iterate p k = .ok u
  depth : u.depth = s.depth
  deeper : ∀ m, k < m → m ≤ n → ∀ t, s.iterate p m = .ok t → s.depth < t.depth

theorem latest_zero : s.Latest p 0 0 s :=
  ⟨Nat.le_refl _, rfl, rfl, fun _ _ _ => by omega⟩

/-- In one more step of the run either the activation is on top again, or it is not yet. -/
theorem Latest.succ (h : s.Latest p n k u) (run : s.iterate p (n + 1) = .ok t)
    (stays : s.depth ≤ t.depth) :
    u.Resumes p (n + 1 - k) t ∧ s.Latest p (n + 1) (n + 1) t ∨
      s.depth < t.depth ∧ s.Latest p (n + 1) k u := by
  have le := h.le
  have from_u {m : Nat} : s.iterate p (k + m) = u.iterate p m := by
    rw [iterate_add, h.run, ok_bind]
  obtain deeper | same := Nat.lt_or_eq_of_le stays
  · refine .inr ⟨deeper, Nat.le_succ_of_le le, h.run, h.depth, fun m hk hm w hw => ?_⟩
    obtain hm | rfl := Nat.le_or_eq_of_le_succ hm
    · exact h.deeper m hk hm w hw
    · cases run.symm.trans hw
      exact deeper
  · refine .inl ⟨⟨by omega, ?_, same.symm.trans h.depth.symm, fun m h0 hm w hw => ?_⟩,
      Nat.le_refl _, run, same.symm, fun m hk hm => by omega⟩
    · rw [← from_u, Nat.add_sub_cancel' (by omega), run]
    · rw [h.depth]
      exact h.deeper (k + m) (by omega) (by omega) w (from_u.trans hw)

/-- A property of the states in which an activation runs, from each to the next. -/
theorem exists_latest {motive : State → Prop} (base : motive s)
    (resume : ∀ k u m t, s.iterate p k = .ok u → motive u → u.Resumes p m t → motive t)
    (run : s.iterate p n = .ok t) (stays : s.Stays p s.depth n) :
    ∃ k u, s.Latest p n k u ∧ motive u := by
  induction n generalizing t with
  | zero => exact ⟨0, s, latest_zero, base⟩
  | succ n ih =>
    obtain ⟨w, hw⟩ := exists_of_iterate run (Nat.le_succ n)
    obtain ⟨k, u, latest, hu⟩ := ih hw (stays.mono (Nat.le_succ n))
    obtain ⟨resumes, latest'⟩ | ⟨-, latest'⟩ :=
      latest.succ run (stays (n + 1) (Nat.le_refl _) t run)
    · exact ⟨n + 1, t, latest', resume k u _ t latest.run hu resumes⟩
    · exact ⟨k, u, latest', hu⟩

/-- The state itself, if the activation is on top. -/
theorem Latest.eq (h : s.Latest p n k u) (run : s.iterate p n = .ok t) (depth : t.depth = s.depth) :
    t = u := by
  obtain hlt | rfl := Nat.lt_or_eq_of_le h.le
  · exact absurd (h.deeper n hlt (Nat.le_refl _) t run) (by omega)
  · exact Except.ok.inj (run.symm.trans h.run)

end Microstep.State
