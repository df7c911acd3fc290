import Mathlib.Algebra.Order.BigOperators.Group.List
import Mathlib.Algebra.Order.Ring.Nat
import Microstep.Player.Action
import Microstep.Proofs.Recording
import Microstep.Proofs.Trace

/-!
# Players follow the run

Whatever is done with a player, its recording is a beginning of the run that starts with the state
it was loaded with, and the state that it shows is one of the recorded ones. The recording only
grows, by the next state of the run, and does so within the limits.

* `Player.run_induction`: a run extends the recording again and again;
* `Player.Tracks`: what is true of a player whatever is done with it;
* `Player.navigation_tracks`: every player is so, and what each action does.
-/

namespace Microstep.Player

variable {p : Program} {s₀ s : State} {limits : Limits} {pl pl' : Player} {e : Error}

/-! ## Recordings -/

theorem size_eq_length (pl : Player) : pl.size = pl.history.length :=
  (Array.length_toList).symm

theorem size_pos (pl : Player) : 0 < pl.size := Nat.zero_lt_of_lt pl.index_lt

theorem getElem?_current (pl : Player) : pl.history[pl.index]? = some pl.current := by
  rw [history, Array.getElem?_toList]
  exact Array.getElem?_eq_getElem pl.index_lt

theorem getElem?_latest (pl : Player) : pl.history[pl.size - 1]? = some pl.latest := by
  rw [history, Array.getElem?_toList]
  exact Array.getElem?_eq_getElem (Nat.sub_one_lt_of_lt pl.index_lt)

theorem used_eq_sum (pl : Player) :
    pl.recording.used = (pl.history.map State.footprint).sum :=
  pl.recording.used_eq_sum

theorem history_add (pl : Player) (s : State) (fits : pl.recording.Fits s) :
    (pl.add s fits).history = pl.history ++ [s] := by
  simp [history, add]

/-! ## Growing -/

/-- What is recorded behind the last state is the next state of the run, which fits. -/
theorem extend_eq_ok (h : pl.extend = .ok pl') :
    pl.remaining ≠ 0 ∧ ∃ s, ∃ fits : pl.recording.Fits s,
      pl.latest.advance pl.program = .ok s ∧ pl' = pl.add s fits := by
  unfold extend at h
  split at h
  · cases h
  · rename_i remaining
    obtain ⟨⟨s, fits⟩, hs, h⟩ := bind_eq_ok_iff.mp h
    obtain ⟨t, ht, hs⟩ := bind_eq_ok_iff.mp hs
    cases h
    split at hs
    · cases hs
      exact ⟨remaining, s, fits, ht, rfl⟩
    · cases hs

/-- A recording grows no further because of a limit, or because the run does not go on. -/
theorem extend_eq_error (h : pl.extend = .error e) :
    (pl.remaining = 0 ∧ e = .stepLimitExceeded pl.maxSteps) ∨
      pl.remaining ≠ 0 ∧ (pl.latest.advance pl.program = .error e ∨
        ∃ s, pl.latest.advance pl.program = .ok s ∧ ¬ pl.recording.Fits s ∧
          e = pl.recording.overflow s) := by
  unfold extend at h
  split at h
  · rename_i remaining
    cases h
    exact .inl ⟨remaining, rfl⟩
  · rename_i remaining
    refine .inr ⟨remaining, ?_⟩
    obtain h | ⟨⟨s, fits⟩, -, h⟩ := bind_eq_error_iff.mp h
    · obtain h | ⟨s, hs, h⟩ := bind_eq_error_iff.mp h
      · exact .inl h
      · split at h
        · cases h
        · rename_i full
          cases h
          exact .inr ⟨s, hs, full, rfl⟩
    · cases h

theorem remaining_add (pl : Player) (s : State) (fits : pl.recording.Fits s) :
    (pl.add s fits).remaining = pl.remaining - 1 := by
  have := pl.size_pos
  simp only [remaining, size_add]
  change pl.maxSteps - (pl.size + 1 - 1) = pl.maxSteps - (pl.size - 1) - 1
  omega

/-- Each recorded state uses up one of the steps that are left. -/
theorem remaining_extend (h : pl.extend = .ok pl') : pl'.remaining < pl.remaining := by
  obtain ⟨remaining, s, fits, -, rfl⟩ := extend_eq_ok h
  rw [remaining_add]
  omega

/-- A run extends the recording until the program has finished. -/
theorem run_eq (pl : Player) :
    pl.run = if pl.isFinished then (pl, none) else
      match pl.extend with
      | .ok pl' => pl'.run
      | .error e => (pl, some e) := by
  rw [run]
  -- the budget of the loop is what remains, so that it runs out only when nothing may be recorded
  cases hr : pl.remaining with
  | zero => cases hf : pl.isFinished <;> simp [runFor, extend, hf, hr]
  | succ budget =>
    cases hf : pl.isFinished with
    | true => simp [runFor, hf]
    | false =>
      cases hu : pl.upcoming with
      | error e => simp [runFor, extend, hf, hr, hu]
      | ok next =>
        obtain ⟨s, fits⟩ := next
        have rest : (pl.add s fits).remaining = budget := by rw [remaining_add, hr]; rfl
        simp [runFor, extend, hf, hr, hu, run, rest]

/-- What happens between the beginning and the end of a run: nothing if the program has finished, a
failure, or one more state. -/
theorem run_induction {motive : Player → Player × Option Error → Prop}
    (finished : ∀ pl : Player, pl.isFinished = true → motive pl (pl, none))
    (fails : ∀ (pl : Player) (e : Error), pl.isFinished = false → pl.extend = .error e →
      motive pl (pl, some e))
    (grows : ∀ pl longer : Player, pl.isFinished = false → pl.extend = .ok longer →
      motive longer longer.run → motive pl longer.run)
    (pl : Player) : motive pl pl.run := by
  rw [run_eq]
  cases hf : pl.isFinished with
  | true => exact finished pl hf
  | false =>
    cases hx : pl.extend with
    | error e => exact fails pl e hf hx
    | ok longer =>
      have fewer := remaining_extend hx
      exact grows pl longer hf hx (run_induction finished fails grows longer)
termination_by pl.remaining

/-- A step forward shows the next state, after recording it if the last one is shown. -/
theorem forward_eq_ok (h : pl.forward = .ok pl') :
    ∃ shown hi, pl' = seek shown (pl.index + 1) hi ∧
      (pl.index + 1 < pl.size ∧ shown = pl ∨
        pl.index + 1 = pl.size ∧ pl.isFinished = false ∧ pl.extend = .ok shown) := by
  unfold forward at h
  split at h
  · rename_i hi
    cases h
    exact ⟨pl, hi, rfl, .inl ⟨hi, rfl⟩⟩
  · rename_i hi
    have hlt : pl.index < pl.size := pl.index_lt
    split at h
    · cases h
    · rename_i hf
      split at h
      · cases h
      · rename_i hr
        obtain ⟨⟨s, fits⟩, hu, h⟩ := bind_eq_ok_iff.mp h
        cases h
        have extended : pl.extend = .ok (pl.add s fits) := by simp [extend, hr, hu]
        exact ⟨pl.add s fits, _, rfl, .inr ⟨by omega, by simpa using hf, extended⟩⟩

theorem back_eq_ok (h : pl.back = .ok pl') :
    0 < pl.index ∧ ∃ hi, pl' = pl.seek (pl.index - 1) hi := by
  unfold back at h
  split at h
  · cases h
  · rename_i hi
    cases h
    exact ⟨Nat.pos_of_ne_zero hi, _, rfl⟩

/-! ## The recorded run -/

/-- The player has recorded a beginning of the run from `s₀`, within the limits, and shows one of
its states. -/
structure Tracks (pl : Player) (p : Program) (s₀ : State) (limits : Limits) : Prop where
  program_eq : pl.program = p
  limits_eq : pl.limits = limits
  /-- The recording holds the states of the run by number. -/
  history : pl.history = s₀.trace p (pl.size - 1)
  /-- The run goes as far as the recording. -/
  latest : s₀.iterate p (pl.size - 1) = .ok pl.latest
  steps : pl.size - 1 ≤ limits.steps

namespace Tracks

theorem maxSteps_eq (tracks : pl.Tracks p s₀ limits) : pl.maxSteps = limits.steps :=
  congrArg Limits.steps tracks.limits_eq

theorem limit_eq (tracks : pl.Tracks p s₀ limits) : pl.recording.limit = limits.memory :=
  congrArg Limits.memory tracks.limits_eq

theorem extend (tracks : pl.Tracks p s₀ limits) (h : pl.extend = .ok pl') :
    pl'.Tracks p s₀ limits := by
  obtain ⟨remaining, s, fits, next, rfl⟩ := extend_eq_ok h
  have pos := pl.size_pos
  have hsize : (pl.add s fits).size - 1 = pl.size - 1 + 1 := by rw [size_add]; omega
  have run : s₀.iterate p (pl.size - 1 + 1) = .ok s := by
    rw [State.iterate_succ, tracks.latest, ok_bind, ← tracks.program_eq, next]
  have history : (pl.add s fits).history = s₀.trace p (pl.size - 1 + 1) := by
    rw [history_add, tracks.history, State.trace_succ run]
  have latest := (pl.add s fits).getElem?_latest
  rw [history, hsize, State.getElem?_trace_iff] at latest
  refine ⟨tracks.program_eq, tracks.limits_eq, by rw [history, hsize], by rw [hsize, latest.2], ?_⟩
  rw [Player.remaining, tracks.maxSteps_eq] at remaining
  omega

theorem seek (tracks : pl.Tracks p s₀ limits) {index : Nat} (h : index < pl.size) :
    (pl.seek index h).Tracks p s₀ limits :=
  ⟨tracks.program_eq, tracks.limits_eq, tracks.history, tracks.latest, tracks.steps⟩

theorem run (tracks : pl.Tracks p s₀ limits) : pl.run.1.Tracks p s₀ limits := by
  revert tracks
  refine run_induction (motive := fun pl r => pl.Tracks p s₀ limits → r.1.Tracks p s₀ limits)
    (fun pl _ tracks => tracks) (fun pl e _ _ tracks => tracks) ?_ pl
  exact fun pl longer _ hx ih tracks => ih (tracks.extend hx)

theorem forward (tracks : pl.Tracks p s₀ limits) (h : pl.forward = .ok pl') :
    pl'.Tracks p s₀ limits := by
  obtain ⟨shown, hi, rfl, ⟨-, rfl⟩ | ⟨-, -, hx⟩⟩ := forward_eq_ok h
  · exact tracks.seek hi
  · exact (tracks.extend hx).seek hi

theorem back (tracks : pl.Tracks p s₀ limits) (h : pl.back = .ok pl') :
    pl'.Tracks p s₀ limits := by
  obtain ⟨-, hi, rfl⟩ := back_eq_ok h
  exact tracks.seek hi

theorem attempt (tracks : pl.Tracks p s₀ limits) {move : Except Error Player}
    (moved : ∀ pl', move = .ok pl' → pl'.Tracks p s₀ limits) :
    (pl.attempt move).1.Tracks p s₀ limits := by
  cases move with
  | ok pl' => exact moved pl' rfl
  | error e => exact tracks

/-- Every action keeps a player on the run. -/
theorem act (tracks : pl.Tracks p s₀ limits) (action : Action) :
    (pl.act action).1.Tracks p s₀ limits := by
  cases action with
  | run => exact tracks.run
  | forward => exact tracks.attempt fun _ => tracks.forward
  | back => exact tracks.attempt fun _ => tracks.back
  | rewind => exact tracks.seek _

theorem actAll (tracks : pl.Tracks p s₀ limits) (actions : List Action) :
    (pl.actAll actions).Tracks p s₀ limits := by
  induction actions generalizing pl with
  | nil => exact tracks
  | cons action actions ih => exact ih (tracks.act action)

end Tracks

/-- A player that has just been loaded has recorded the first state. -/
theorem load_tracks (h : load p s₀ limits = .ok pl) : pl.Tracks p s₀ limits := by
  unfold load at h
  dsimp only at h
  split at h
  · cases h
    exact ⟨rfl, rfl, rfl, rfl, Nat.zero_le _⟩
  · cases h

/-! ## The actions -/

theorem index_extend (h : pl.extend = .ok pl') : pl'.index = pl.index := by
  obtain ⟨-, s, fits, -, rfl⟩ := extend_eq_ok h
  rfl

theorem size_extend (h : pl.extend = .ok pl') : pl'.size = pl.size + 1 := by
  obtain ⟨-, s, fits, -, rfl⟩ := extend_eq_ok h
  exact pl.size_add s fits

theorem history_extend (h : pl.extend = .ok pl') : pl.history <+: pl'.history := by
  obtain ⟨-, s, fits, -, rfl⟩ := extend_eq_ok h
  rw [history_add]
  exact List.prefix_append _ _

theorem index_run (pl : Player) : pl.run.1.index = pl.index :=
  run_induction (motive := fun pl r => r.1.index = pl.index) (fun _ _ => rfl) (fun _ _ _ _ => rfl)
    (fun _ _ _ hx ih => ih.trans (index_extend hx)) pl

theorem history_run (pl : Player) : pl.history <+: pl.run.1.history :=
  run_induction (motive := fun pl r => pl.history <+: r.1.history)
    (fun _ _ => List.prefix_refl _) (fun _ _ _ _ => List.prefix_refl _)
    (fun _ _ _ hx ih => (history_extend hx).trans ih) pl

/-- A run ends with a finished program or with the failure to extend the recording. -/
theorem run_ends (pl : Player) :
    (pl.run.2 = none ∧ pl.run.1.isFinished = true) ∨
      ∃ e, pl.run.2 = some e ∧ pl.run.1.isFinished = false ∧ pl.run.1.extend = .error e :=
  run_induction (motive := fun _ r => (r.2 = none ∧ r.1.isFinished = true) ∨
      ∃ e, r.2 = some e ∧ r.1.isFinished = false ∧ r.1.extend = .error e)
    (fun _ hf => .inl ⟨rfl, hf⟩) (fun _ e hf hx => .inr ⟨e, rfl, hf, hx⟩) (fun _ _ _ _ ih => ih) pl

/-- What the actions do to a player. -/
structure Navigates (pl : Player) : Prop where
  forward : ∀ pl', pl.forward = .ok pl' →
    pl'.index = pl.index + 1 ∧ pl'.size = max pl.size (pl'.index + 1)
  back_iff : (∃ pl', pl.back = .ok pl') ↔ 0 < pl.index
  back : ∀ pl', pl.back = .ok pl' → pl'.index + 1 = pl.index ∧ pl'.history = pl.history
  rewind : pl.rewind.index = 0 ∧ pl.rewind.history = pl.history
  run : pl.run.1.index = pl.index
  /-- A step that fails changes nothing. -/
  failing : ∀ action e, action ≠ .run → (pl.act action).2 = some e → (pl.act action).1 = pl
  /-- A run that fails keeps what it has recorded until then. -/
  interrupted : ∀ e, pl.run.2 = some e →
    pl.history <+: pl.run.1.history ∧ pl.run.1.isFinished = false ∧ pl.run.1.extend = .error e

theorem attempt_failing {moved : Except Error Player} (h : (pl.attempt moved).2 = some e) :
    (pl.attempt moved).1 = pl := by
  cases moved with
  | ok moved => cases h
  | error e => rfl

theorem navigates (pl : Player) : pl.Navigates where
  forward pl' h := by
    obtain ⟨shown, hi, rfl, ⟨lt, rfl⟩ | ⟨eq, -, hx⟩⟩ := forward_eq_ok h
    · exact ⟨rfl, (Nat.max_eq_left lt).symm⟩
    · refine ⟨rfl, ?_⟩
      change shown.size = max pl.size (pl.index + 1 + 1)
      rw [size_extend hx]
      omega
  back_iff := by
    refine ⟨fun ⟨pl', h⟩ => (back_eq_ok h).1, fun pos => ?_⟩
    rw [Player.back, if_neg (Nat.ne_of_gt pos)]
    exact ⟨_, rfl⟩
  back pl' h := by
    obtain ⟨pos, hi, rfl⟩ := back_eq_ok h
    exact ⟨Nat.sub_add_cancel pos, rfl⟩
  rewind := ⟨rfl, rfl⟩
  run := pl.index_run
  failing action e notRun h := by
    cases action with
    | run => exact absurd rfl notRun
    | forward | back => exact attempt_failing h
    | rewind => cases h
  interrupted e h := by
    obtain ⟨hn, -⟩ | ⟨e', he, hf, hx⟩ := pl.run_ends
    · rw [hn] at h
      cases h
    · cases he.symm.trans h
      exact ⟨pl.history_run, hf, hx⟩

/-- A player after any actions. It has recorded the first states of the run, of which at most the
last is finished, in no more steps and no more memory than it may use, and it shows one of them. The
actions move it about as they should. Two players of the same run differ only in how far their
recordings go, and in which state they show. -/
theorem navigation_tracks {pl₀ : Player} (loaded : load p s₀ limits = .ok pl₀)
    (actions : List Action) (reached : pl₀.actAll actions = pl) :
    pl.Tracks p s₀ limits ∧
    (1 ≤ pl.size ∧ pl.history.length = pl.size ∧ ∀ s ∈ pl.history.dropLast, s.isFinished = false) ∧
    (pl.recording.used = (pl.history.map State.footprint).sum ∧
      pl.recording.used ≤ limits.memory) ∧
    (pl.index < pl.size ∧ s₀.iterate p pl.index = .ok pl.current) ∧
    pl.Navigates ∧
    ∀ limits' pl₁ others, load p s₀ limits' = .ok pl₁ →
      pl.history <+: (pl₁.actAll others).history ∨ (pl₁.actAll others).history <+: pl.history := by
  have tracks := (load_tracks loaded).actAll actions
  rw [reached] at tracks
  refine ⟨tracks, ⟨pl.size_pos, pl.size_eq_length.symm, fun s hs => ?_⟩,
    ⟨pl.used_eq_sum, ?_⟩, ⟨pl.index_lt, ?_⟩, pl.navigates, fun limits' pl₁ others loaded' => ?_⟩
  · rw [tracks.history] at hs
    exact State.unfinished_of_mem_dropLast_trace hs
  · rw [← tracks.limit_eq]
    exact pl.recording.used_le
  · have current := pl.getElem?_current
    rw [tracks.history, State.getElem?_trace_iff] at current
    exact current.2
  · have tracks' := (load_tracks loaded').actAll others
    rw [tracks.history, tracks'.history]
    exact (Nat.le_total _ _).imp State.trace_prefix State.trace_prefix

/-- What is seen of a player that has been loaded with the first state of a run, computed. -/
theorem exists_of_view {α : Type} {type method : String} {view : Player → α} {a : α}
    (h : ((State.start p type method).bind (load p · limits)).toOption.map view = some a) :
    ∃ s₀ pl₀, State.start p type method = .ok s₀ ∧ load p s₀ limits = .ok pl₀ ∧ view pl₀ = a := by
  cases hs₀ : State.start p type method with
  | error e => rw [hs₀] at h; cases h
  | ok s₀ =>
    rw [hs₀] at h
    cases hpl : load p s₀ limits with
    | error e => simp [Except.bind, hpl, Except.toOption] at h
    | ok pl₀ =>
      simp only [Except.bind, hpl, Except.toOption, Option.map_some, Option.some.injEq] at h
      exact ⟨s₀, pl₀, rfl, hpl, h⟩

/-- A player of the counter that cannot step back at first, then steps forward twice, runs to the
end and steps back, shows the state after the first step. -/
theorem navigation_tracks_counter :
    ∃ s₀ pl₀ pl, State.start .counter "Main" "main" = .ok s₀ ∧
      load .counter s₀ ⟨20000, 40⟩ = .ok pl₀ ∧
      pl₀.actAll [.back, .forward, .forward, .run, .back] = pl ∧ pl.index = 1 ∧ pl.size = 33 ∧
      pl.history = s₀.trace .counter 32 ∧ s₀.iterate .counter 1 = .ok pl.current := by
  have run : ((State.start .counter "Main" "main").bind
      (load .counter · ⟨20000, 40⟩)).toOption.map (fun pl₀ =>
        let pl := pl₀.actAll [.back, .forward, .forward, .run, .back]
        (pl.index, pl.size)) = some (1, 33) := by decide +kernel
  obtain ⟨s₀, pl₀, hs₀, loaded, h⟩ := exists_of_view run
  obtain ⟨hindex, hsize⟩ := Prod.mk.inj h
  obtain ⟨tracks, -, -, ⟨-, current⟩, -⟩ := navigation_tracks loaded _ rfl
  have history := tracks.history
  rw [hindex] at current
  rw [hsize] at history
  exact ⟨s₀, pl₀, _, hs₀, loaded, rfl, hindex, hsize, history, current⟩

end Microstep.Player
