import Microstep.Outcome
import Microstep.Proofs.Safety

/-!
# Runs that follow an evaluation

A run follows the outcome of an evaluation with some fuel if it comes to a state that fits the
value, or stops with the error, or takes at least as many steps as there was fuel. Runs can be
followed part by part (`State.Follows.bind`). A run has one end only (`State.end_unique`), so one
that follows an evaluation whatever the fuel also ends only as the evaluation does.

* `State.Follows`: a run and an outcome;
* `State.follows_both`, `State.follows_step`: one step, which fails when the evaluation does;
* `State.Follows.of_end`, `State.Follows.of_endless`: what the end of a run tells of the evaluation.
-/

namespace Microstep.State

variable {p : Program} {s s' t : State} {α β : Type} {fuel m n : Nat} {x : Outcome α} {e : Error}
  {mid post : α → State → Prop}

theorem iterate_add : s.iterate p (m + n) = s.iterate p m >>= fun s' => s'.iterate p n := by
  induction m generalizing s with
  | zero => rw [Nat.zero_add]; rfl
  | succ m ih =>
    rw [Nat.succ_add, iterate, iterate]
    cases s.advance p with
    | error e => rfl
    | ok s' => exact ih

theorem iterate_trans (h : s.iterate p m = .ok s') (h' : s'.iterate p n = .ok t) :
    s.iterate p (m + n) = .ok t := by
  rw [iterate_add, h, ok_bind, h']

theorem iterate_one (h : s.advance p = .ok s') : s.iterate p 1 = .ok s' := by
  rw [iterate, h]
  rfl

/-- The run from `s` does what the outcome of an evaluation with some fuel tells. -/
def Follows (p : Program) (s : State) (fuel : Nat) (post : α → State → Prop) : Outcome α → Prop
  | .done a => ∃ n s', s.iterate p n = .ok s' ∧ post a s'
  | .failed e => ∃ n s', s.iterate p n = .ok s' ∧ s'.isFinished = false ∧ s'.advance p = .error e
  | .unfinished => ∃ n s', fuel ≤ n ∧ s.iterate p n = .ok s'

/-- What follows after some steps follows from the start, and each step is worth fuel. -/
theorem Follows.after {k : Nat} (h : s.iterate p m = .ok s') (hf : Follows p s' fuel post x)
    (hk : k ≤ m + fuel) : Follows p s k post x := by
  cases x with
  | done a =>
    obtain ⟨n, t, ht, hp⟩ := hf
    exact ⟨m + n, t, iterate_trans h ht, hp⟩
  | failed e =>
    obtain ⟨n, t, ht, he⟩ := hf
    exact ⟨m + n, t, iterate_trans h ht, he⟩
  | unfinished =>
    obtain ⟨n, t, hn, ht⟩ := hf
    exact ⟨m + n, t, by omega, iterate_trans h ht⟩

/-- An evaluation in two parts is followed part by part. -/
theorem Follows.bind {post : β → State → Prop} {g : α → Outcome β} (hv : Valid p s)
    (h : Follows p s fuel mid x)
    (next : ∀ a s', Valid p s' → mid a s' → Follows p s' fuel post (g a)) :
    Follows p s fuel post (x >>= g) := by
  cases x with
  | done a =>
    obtain ⟨n, s', hs', hm⟩ := h
    exact (next a s' (iterate_valid hv hs') hm).after hs' (by omega)
  | failed e => exact h
  | unfinished => exact h

theorem Follows.weaken (h : Follows p s fuel mid x) (hp : ∀ a s', mid a s' → post a s') :
    Follows p s fuel post x := by
  cases x with
  | done a =>
    obtain ⟨n, s', hs', hm⟩ := h
    exact ⟨n, s', hs', hp a s' hm⟩
  | failed e => exact h
  | unfinished => exact h

theorem follows_done {a : α} (h : post a s) : Follows p s fuel post (.done a) :=
  ⟨0, s, rfl, h⟩

theorem follows_failed (status : s.status = .running) (h : s.transition p = .error e) :
    Follows p s fuel post (.failed e) :=
  ⟨0, s, rfl, by rw [isFinished, status], by rw [advance, status]; simp [h]⟩

/-- What a step and an evaluation both begin with: they fail together, or go on together. -/
theorem follows_both {post : β → State → Prop} (status : s.status = .running) {y : Except Error α}
    {k : α → Except Error State} {g : α → Outcome β} (h : s.transition p = y >>= k)
    (next : ∀ a, y = .ok a → s.transition p = k a → Follows p s fuel post (g a)) :
    Follows p s fuel post (.ofExcept y >>= g) := by
  cases y with
  | error e => exact follows_failed status h
  | ok a => exact next a rfl h

/-- A step that does no more than what the evaluation does; the cursor does not count. -/
theorem follows_step (status : s.status = .running) (hv : Valid p s) {y : Except Error α}
    {k : α → State} (h : s.transition p = y >>= fun a => .ok (k a))
    (hp : ∀ a path, post a { k a with cursor := path }) :
    Follows p s fuel post (.ofExcept y) := by
  cases y with
  | error e => exact follows_failed status h
  | ok a =>
    obtain ⟨path, ha⟩ := advance_of_transition status hv h
    exact ⟨1, _, iterate_one ha, hp a path⟩

/-- A run that has ended goes no further. -/
theorem le_of_end (h : s.iterate p m = .ok s') (he : s'.advance p = .error e)
    (h' : s.iterate p n = .ok t) : n ≤ m :=
  Nat.le_of_not_lt fun hlt => by
    obtain ⟨d, rfl⟩ : ∃ d, n = m + (d + 1) := ⟨n - m - 1, by omega⟩
    rw [iterate_add, h, ok_bind, iterate, he] at h'
    cases h'

/-- A run has one end only. -/
theorem end_unique {e' : Error} (h : s.iterate p m = .ok s') (he : s'.advance p = .error e)
    (h' : s.iterate p n = .ok t) (he' : t.advance p = .error e') : s' = t ∧ e = e' := by
  obtain rfl := Nat.le_antisymm (le_of_end h' he' h) (le_of_end h he h')
  obtain rfl := Except.ok.inj (h.symm.trans h')
  exact ⟨rfl, Except.error.inj (he.symm.trans he')⟩

/-- A run that follows an evaluation with more fuel than it has steps ends as the evaluation
does. -/
theorem Follows.of_end (h : s.iterate p n = .ok s') (he : s'.advance p = .error e)
    (final : ∀ a t, post a t → t.isFinished = true) (hf : Follows p s (n + 1) post x) :
    (∃ a, x = .done a ∧ post a s') ∨ s'.isFinished = false ∧ x = .failed e := by
  cases x with
  | done a =>
    obtain ⟨m, t, ht, hp⟩ := hf
    obtain ⟨rfl, -⟩ := end_unique h he ht (advance_of_finished (final a t hp))
    exact .inl ⟨a, rfl, hp⟩
  | failed e' =>
    obtain ⟨m, t, ht, unfinished, he'⟩ := hf
    obtain ⟨rfl, rfl⟩ := end_unique h he ht he'
    exact .inr ⟨unfinished, rfl⟩
  | unfinished =>
    obtain ⟨m, t, hm, ht⟩ := hf
    exact absurd (le_of_end h he ht) (by omega)

/-- A run that goes on forever follows an evaluation only if that does not come to an end. -/
theorem Follows.of_endless (endless : ∀ n, ∃ s', s.iterate p n = .ok s')
    (final : ∀ a t, post a t → t.isFinished = true) (hf : Follows p s fuel post x) :
    x = .unfinished := by
  have goes {n : Nat} {t : State} {e : Error} (ht : s.iterate p n = .ok t)
      (he : t.advance p = .error e) : False := by
    obtain ⟨u, hu⟩ := endless (n + 1)
    exact absurd (le_of_end ht he hu) (by omega)
  cases x with
  | done a =>
    obtain ⟨n, t, ht, hp⟩ := hf
    exact (goes ht (advance_of_finished (final a t hp))).elim
  | failed e =>
    obtain ⟨n, t, ht, -, he⟩ := hf
    exact (goes ht he).elim
  | unfinished => rfl

theorem exists_of_iterate (h : s.iterate p n = .ok s') (hm : m ≤ n) :
    ∃ t, s.iterate p m = .ok t := by
  obtain ⟨d, rfl⟩ := Nat.exists_eq_add_of_le hm
  rw [iterate_add] at h
  obtain ⟨t, ht, -⟩ := bind_eq_ok_iff.mp h
  exact ⟨t, ht⟩

end Microstep.State
