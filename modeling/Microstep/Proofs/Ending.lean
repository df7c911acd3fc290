import Microstep.Proofs.Navigation

/-!
# How a player's run ends

A player that runs records up to the first state behind which the run does not go on: because the
program has finished, because a limit is reached, or because the next step fails. Which state this
is, and what the player answers, depends on the first state and the limits alone, not on what has
been done with the player before.

* `State.usage`, `State.Ends`: the memory of the first states, and the reasons to end behind one;
* `Player.Tracks.ends`, `Player.Tracks.not_ends`: a run ends for such a reason, and for the first;
* `Player.run_canonical`: the end of every run of a player.
-/

namespace Microstep

namespace State

variable {p : Program} {limits : Limits} {s₀ s : State} {m n : Nat} {r r' : Option Error}

/-- The memory that the states of the run from `s` up to step `n` take. -/
def usage (p : Program) (s : State) (n : Nat) : Nat := ((s.trace p n).map footprint).sum

/-- Why a recording of the run from `s₀` ends with the state after `m` steps. Each reason applies
only if those before it do not. -/
inductive Ends (p : Program) (limits : Limits) (s₀ : State) (m : Nat) : Option Error → Prop
  /-- The program has finished. -/
  | finished {s : State} (run : s₀.iterate p m = .ok s) (finished : s.isFinished = true) :
    Ends p limits s₀ m none
  /-- As many steps are recorded as may be. -/
  | steps {s : State} (run : s₀.iterate p m = .ok s) (unfinished : s.isFinished = false)
      (limit : m = limits.steps) : Ends p limits s₀ m (some (.stepLimitExceeded limits.steps))
  /-- The next step fails. -/
  | fails {s : State} {e : Error} (run : s₀.iterate p m = .ok s)
      (unfinished : s.isFinished = false) (within : m ≠ limits.steps)
      (fails : s.advance p = .error e) : Ends p limits s₀ m (some e)
  /-- The next state does not fit into the memory. -/
  | memory {s t : State} (run : s₀.iterate p m = .ok s) (unfinished : s.isFinished = false)
      (within : m ≠ limits.steps) (next : s.advance p = .ok t)
      (exceeds : limits.memory < s₀.usage p (m + 1)) :
    Ends p limits s₀ m (some (.snapshotLimitExceeded (s₀.usage p (m + 1)) limits.memory))

/-- There is one reason at most. -/
theorem Ends.unique (h : Ends p limits s₀ m r) (h' : Ends p limits s₀ m r') : r = r' := by
  cases h <;> cases h' <;> simp_all

theorem usage_succ (run : s₀.iterate p (n + 1) = .ok s) :
    s₀.usage p (n + 1) = s₀.usage p n + s.footprint := by
  simp [usage, trace_succ run]

theorem usage_mono (h : m ≤ n) : s₀.usage p m ≤ s₀.usage p n := by
  obtain ⟨later, hl⟩ : s₀.trace p m <+: s₀.trace p n := trace_prefix h
  simp only [usage, ← hl, List.map_append, List.sum_append]
  exact Nat.le_add_right _ _

/-- Up to the end of a program that needs no more than there is, there is no reason but the end. -/
theorem Ends.eq_none (h : s₀.Ends p limits m r) (hm : m ≤ n) (run : s₀.iterate p n = .ok s)
    (finished : s.isFinished = true) (steps : n ≤ limits.steps)
    (memory : s₀.usage p n ≤ limits.memory) : r = none := by
  have before {t : State} (ht : s₀.iterate p m = .ok t) (unfinished : t.isFinished = false) :
      m < n := by
    refine Nat.lt_of_le_of_ne hm ?_
    rintro rfl
    cases ht.symm.trans run
    rw [unfinished] at finished
    cases finished
  cases h with
  | finished => rfl
  | steps ht unfinished limit =>
    have lt := before ht unfinished
    omega
  | fails ht unfinished within fails =>
    obtain ⟨u, hu⟩ := exists_of_iterate run (before ht unfinished)
    cases fails.symm.trans (advance_of_iterate ht hu)
  | memory ht unfinished within next exceeds =>
    have usage : s₀.usage p (m + 1) ≤ s₀.usage p n := usage_mono (before ht unfinished)
    omega

end State

namespace Player

variable {p : Program} {s₀ : State} {limits : Limits} {pl pl' : Player} {k : Nat}
  {e : Error} {r : Option Error}

namespace Tracks

theorem used (tracks : pl.Tracks p s₀ limits) : pl.recording.used = s₀.usage p (pl.size - 1) := by
  rw [used_eq_sum, tracks.history, State.usage]

theorem memory (tracks : pl.Tracks p s₀ limits) : s₀.usage p (pl.size - 1) ≤ limits.memory := by
  rw [← tracks.used, ← tracks.limit_eq]
  exact pl.recording.used_le

/-- A failure to extend the recording is a reason to end it. -/
theorem ends_of_extend (tracks : pl.Tracks p s₀ limits) (unfinished : pl.isFinished = false)
    (h : pl.extend = .error e) : s₀.Ends p limits (pl.size - 1) (some e) := by
  have steps := tracks.steps
  obtain ⟨remaining, rfl⟩ | ⟨remaining, h⟩ := extend_eq_error h
  · rw [Player.remaining, tracks.maxSteps_eq] at remaining
    rw [tracks.maxSteps_eq]
    -- no more steps are recorded than allowed, so that none is left only at the limit itself
    exact .steps tracks.latest unfinished (by omega)
  · rw [Player.remaining, tracks.maxSteps_eq] at remaining
    have more : pl.size - 1 ≠ limits.steps := by omega
    rw [tracks.program_eq] at h
    obtain h | ⟨t, next, full, rfl⟩ := h
    · exact .fails tracks.latest unfinished more h
    · have run : s₀.iterate p (pl.size - 1 + 1) = .ok t := by
        rw [State.iterate_succ, tracks.latest, ok_bind, next]
      have usage := State.usage_succ run
      rw [← tracks.used] at usage
      rw [Recording.Fits, ← usage, tracks.limit_eq] at full
      rw [Recording.overflow, ← usage, tracks.limit_eq]
      exact .memory tracks.latest unfinished more next (Nat.lt_of_not_le full)

/-- A run of a player ends for a reason. -/
theorem ends (tracks : pl.Tracks p s₀ limits) :
    s₀.Ends p limits (pl.run.1.size - 1) pl.run.2 := by
  obtain ⟨hr, finished⟩ | ⟨e, hr, unfinished, hx⟩ := pl.run_ends
  · rw [hr]
    exact .finished tracks.run.latest finished
  · rw [hr]
    exact tracks.run.ends_of_extend unfinished hx

/-- There is no reason to end a recording before its last state. -/
theorem not_ends (tracks : pl.Tracks p s₀ limits) (hk : k < pl.size - 1) :
    ¬ s₀.Ends p limits k r := by
  -- the state after the one in question is recorded, too
  obtain ⟨t, ht⟩ := State.exists_of_iterate tracks.latest (Nat.succ_le_of_lt hk)
  have next {s : State} (run : s₀.iterate p k = .ok s) : s.advance p = .ok t :=
    State.advance_of_iterate run ht
  intro ends
  cases ends with
  | finished run finished =>
    have next := next run
    rw [State.advance_of_finished finished] at next
    cases next
  | steps run unfinished limit =>
    have within := tracks.steps
    omega
  | fails run unfinished within fails =>
    cases (next run).symm.trans fails
  | memory run unfinished within _ exceeds =>
    have usage : s₀.usage p (k + 1) ≤ s₀.usage p (pl.size - 1) :=
      State.usage_mono (Nat.succ_le_of_lt hk)
    have memory := tracks.memory
    omega

/-- Two players of the same run end at the same state. -/
theorem size_run_le (tracks : pl.Tracks p s₀ limits) (tracks' : pl'.Tracks p s₀ limits) :
    pl.run.1.size ≤ pl'.run.1.size := by
  refine Nat.le_of_not_lt fun lt => tracks.run.not_ends ?_ tracks'.ends
  have pos := pl'.run.1.size_pos
  omega

end Tracks

/-- A run that is repeated finds nothing to do. -/
theorem run_run (pl : Player) : pl.run.1.run = pl.run := by
  rw [run_eq]
  obtain ⟨hr, hf⟩ | ⟨e, hr, hf, hx⟩ := pl.run_ends
  · rw [hf]
    exact Prod.ext rfl hr.symm
  · rw [hf, hx]
    exact Prod.ext rfl hr.symm

/-- However a player was used before, its run ends at the first state behind which there is a reason
to end, and answers that reason. The recording then holds the states up to that one, the player
shows the same state as before, and a second run changes nothing. A program that finishes within the
limits, even if it uses them up, runs to its end. -/
theorem run_canonical {pl₀ : Player} (loaded : load p s₀ limits = .ok pl₀) :
    ∃ m answer, s₀.Ends p limits m answer ∧ (∀ k < m, ∀ r, ¬ s₀.Ends p limits k r) ∧
      (∀ actions pl, pl₀.actAll actions = pl →
        pl.run.2 = answer ∧ pl.run.1.history = s₀.trace p m ∧ pl.run.1.size = m + 1 ∧
          pl.run.1.index = pl.index ∧ pl.run.1.run = pl.run) ∧
      ∀ n s, s₀.iterate p n = .ok s → s.isFinished = true → n ≤ limits.steps →
        s₀.usage p n ≤ limits.memory → answer = none := by
  have tracks₀ := load_tracks loaded
  have least {k : Nat} {r : Option Error} (hk : k < pl₀.run.1.size - 1) :
      ¬ s₀.Ends p limits k r := tracks₀.run.not_ends hk
  refine ⟨pl₀.run.1.size - 1, pl₀.run.2, tracks₀.ends, fun k hk r => least hk, ?_, ?_⟩
  · rintro actions pl rfl
    have tracks := tracks₀.actAll actions
    have size := Nat.le_antisymm (tracks.size_run_le tracks₀) (tracks₀.size_run_le tracks)
    have ends := tracks.ends
    have history := tracks.run.history
    rw [size] at ends history
    have pos := pl₀.run.1.size_pos
    exact ⟨ends.unique tracks₀.ends, history, by omega, index_run _, run_run _⟩
  · intro n s run finished steps memory
    have hm := Nat.le_of_not_lt fun lt => least lt (.finished run finished)
    exact tracks₀.ends.eq_none hm run finished steps memory

/-- The counter finishes in 32 steps. A player that allows no more, and 15992 bytes for the states,
runs it to its end, also after other actions. -/
theorem run_canonical_counter :
    ∃ s₀ pl₀, State.start .counter "Main" "main" = .ok s₀ ∧
      load .counter s₀ ⟨15992, 32⟩ = .ok pl₀ ∧ s₀.Ends .counter ⟨15992, 32⟩ 32 none ∧
      (pl₀.actAll [.forward, .forward, .back]).run.2 = none ∧
      (pl₀.actAll [.forward, .forward, .back]).run.1.history = s₀.trace .counter 32 := by
  have view : ((State.start .counter "Main" "main").bind
      (load .counter · ⟨15992, 32⟩)).toOption.map (fun pl₀ =>
        (pl₀.run.1.size, pl₀.run.1.isFinished)) = some (33, true) := by decide +kernel
  obtain ⟨s₀, pl₀, hs₀, loaded, h⟩ := exists_of_view view
  obtain ⟨size, finished⟩ := Prod.mk.inj h
  have tracks := (load_tracks loaded).run
  have run := tracks.latest
  have memory := tracks.memory
  rw [size] at run memory
  obtain ⟨m, answer, ends, -, runs, finishes⟩ := run_canonical loaded
  obtain ⟨hanswer, history, -⟩ := runs [.forward, .forward, .back] _ rfl
  obtain rfl := finishes 32 _ run finished (Nat.le_refl 32) memory
  obtain rfl : m = 32 := by
    cases ends with
    | finished run' finished' =>
      exact Nat.le_antisymm (State.le_of_end run (State.advance_of_finished finished) run')
        (State.le_of_end run' (State.advance_of_finished finished') run)
  exact ⟨s₀, pl₀, hs₀, loaded, ends, hanswer, history⟩

end Player

end Microstep
