import Microstep.Itinerary
import Microstep.Proofs.Activation
import Microstep.Proofs.PositionOrder
import Microstep.Proofs.Trace

/-!
# Visits

The states in which an activation stands at a command show the cursors of the command's itinerary,
one after the other, whatever calls lie between them. A visit that is cut short by an error or by a
call that does not return shows the first of them.

* `State.visit`: the states of an activation at a command, up to some step of the run;
* `State.Progress`: how far a visit has come when the activation runs;
* `State.visit_follows_itinerary`: the cursors of a visit.
-/

namespace Microstep

namespace State

variable {p : Program} {s s₀ t u : State} {f : Frame} {rest : List Frame} {c : Command}
  {q : Position} {k m n : Nat} {cursors : List ExprPath}

/-- The states up to step `n` in which the activation on top of `s` is on top and stands at `q`.
None is counted once that activation has returned. -/
def visit (p : Program) (s : State) (n : Nat) (q : Position) : List State :=
  ((trace p s n).takeWhile (s.depth ≤ ·.depth)).filter fun t =>
    t.depth = s.depth ∧ t.position = q

/-! ## Traces -/

/-- The activation is there in all states of a trace, if it stays. -/
theorem takeWhile_trace :
    (trace p s n).takeWhile (s.depth ≤ ·.depth) = trace p s n ↔ s.Stays p s.depth n := by
  constructor
  · intro h m hm t run
    have all := List.all_takeWhile (p := fun t : State => decide (s.depth ≤ t.depth))
      (l := trace p s n)
    rw [h, List.all_eq_true] at all
    exact of_decide_eq_true (all t (mem_trace.mpr ⟨m, hm, run⟩))
  · intro h
    have all : ∀ t ∈ trace p s n, decide (s.depth ≤ t.depth) = true := fun t ht => by
      obtain ⟨m, hm, run⟩ := mem_trace.mp ht
      exact decide_eq_true (h m hm t run)
    simpa using @List.takeWhile_append_of_pos _ _ _ [] all

theorem visit_zero : s.visit p 0 q = if s.position = q then [s] else [] := by
  simp [visit, trace, iterate, Except.toOption, List.filter_cons]

theorem visit_succ (stays : s.Stays p s.depth (n + 1)) (run : s.iterate p (n + 1) = .ok t) :
    s.visit p (n + 1) q =
      s.visit p n q ++ if t.depth = s.depth ∧ t.position = q then [t] else [] := by
  rw [visit, visit, takeWhile_trace.mpr stays, takeWhile_trace.mpr (stays.mono (Nat.le_succ n)),
    trace_succ run, List.filter_append, List.filter_cons]
  simp

/-- A visit grows only in a state of the run in which the activation is there. -/
theorem visit_succ_of_not (h : ¬ (s.Stays p s.depth (n + 1) ∧ ∃ t, s.iterate p (n + 1) = .ok t)) :
    s.visit p (n + 1) q = s.visit p n q := by
  cases run : s.iterate p (n + 1) with
  | error e => rw [visit, visit, trace_succ_error run]
  | ok t =>
    rw [visit, visit, trace_succ run, List.takeWhile_append]
    split
    · rename_i all
      have all := (List.takeWhile_prefix _).eq_of_length all
      have back : t.depth < s.depth := Nat.lt_of_not_le fun le => h ⟨fun m hm u hu => by
        obtain hm | rfl := Nat.le_or_eq_of_le_succ hm
        · exact takeWhile_trace.mp all m hm u hu
        · cases run.symm.trans hu
          exact le, t, run⟩
      rw [all, List.takeWhile_cons_of_neg (by simpa using back), List.append_nil]
    · rfl

/-- Visits only grow. -/
theorem visit_mono_succ : s.visit p n q <+: s.visit p (n + 1) q := by
  by_cases h : s.Stays p s.depth (n + 1) ∧ ∃ t, s.iterate p (n + 1) = .ok t
  · obtain ⟨stays, t, run⟩ := h
    rw [visit_succ stays run]
    exact List.prefix_append ..
  · exact visit_succ_of_not h ▸ List.prefix_rfl

theorem visit_mono (h : m ≤ n) : s.visit p m q <+: s.visit p n q := by
  induction h with
  | refl => exact List.prefix_rfl
  | step _ ih => exact ih.trans visit_mono_succ

/-! ## Cursors -/

theorem Valid.of_stack (hv : Valid p s) (hs : s.memory.stack = f :: rest) :
    s.status = .running ∧ f.Active p s.position := by
  cases hv with
  | running status stack active =>
    cases hs.symm.trans stack
    exact ⟨status, active⟩
  | finished status stack => cases hs.symm.trans stack

theorem cursor_of_advance (h : s.advance p = .ok t) (status : t.status = .running)
    (hs : t.memory.stack = f :: rest) (command : p.commandAt t.position = .ok (some c)) :
    t.cursor = (c.readiness t.known).path?.getD [] := by
  rw [advance] at h
  split at h
  · cases h
  · obtain ⟨next, -, h⟩ := bind_eq_ok_iff.mp h
    obtain ⟨path, rfl⟩ := refresh_cases h
    have hcursor := cursorOf_eq (s := next) hs c
    have hcommand : next.command? p = .ok (some c) := by
      rw [State.command?, show next.status = .running from status]
      exact command
    simp only [refresh, hcommand, hcursor, ok_bind, pure_eq_ok, Except.ok.injEq] at h
    exact (congrArg State.cursor h).symm

/-- In a run the cursor stands on the first node of the work list that has no value, or on the
command itself if there is none. -/
theorem cursor_eq_head {type method : String} {done later : List ExprPath} (marked : p.Marked)
    (start : State.start p type method = .ok s₀) (run : s₀.iterate p n = .ok s)
    (hs : s.memory.stack = f :: rest) (command : p.commandAt s.position = .ok (some c))
    (work : c.workList = done ++ later) (keeps : f.Keeps s.position done) :
    s.cursor = later.head?.getD [] := by
  cases n with
  | zero =>
    cases run
    obtain ⟨o, -, start⟩ := bind_eq_ok_iff.mp start
    obtain ⟨position, entry, start⟩ := bind_eq_ok_iff.mp start
    cases start
    obtain ⟨found, hf, entry⟩ := bind_eq_ok_iff.mp entry
    cases entry
    cases command.symm.trans (marked.commandAt_entry (Program.body?_of_dispatch hf))
    obtain ⟨-, rfl⟩ := List.nil_eq_append_iff.mp work
    rfl
  | succ n =>
    obtain ⟨t, -, ha⟩ := bind_eq_ok_iff.mp (iterate_succ.symm.trans run)
    obtain ⟨status, -⟩ := (iterate_valid (start_valid start) run).of_stack hs
    rw [cursor_of_advance ha status hs command, path?_readiness hs work keeps]

/-! ## Progress of a visit -/

/-- How far the visits of an activation at `q`, where the command `c` stands, have come in a state
`u` in which it runs. -/
inductive Progress (c : Command) (q : Position) (u : State) (cursors : List ExprPath) : Prop
  | before (position : compare u.position q = .lt) (seen : cursors = [])
  | during (position : u.position = q) {f : Frame} {rest : List Frame} {done later : List ExprPath}
      (stack : u.memory.stack = f :: rest) (work : c.workList = done ++ later)
      (keeps : f.Keeps q done) (cursor : u.cursor = later.head?.getD [])
      (seen : cursors = done ++ [u.cursor])
  | after (position : compare q u.position = .lt) (seen : cursors = [] ∨ cursors = c.itinerary)

theorem Progress.within (h : Progress c q u cursors) : cursors <+: c.itinerary := by
  cases h with
  | before position seen =>
    rw [seen]
    exact List.nil_prefix
  | @during _ f rest done later stack work keeps cursor seen =>
    rw [seen, cursor, c.itinerary_eq, work]
    cases later with
    | nil =>
      rw [List.append_nil]
      exact List.prefix_rfl
    | cons path later =>
      exact ⟨later ++ [[]], by simp⟩
  | after position seen =>
    obtain rfl | rfl := seen
    · exact List.nil_prefix
    · exact List.prefix_rfl

/-- The first state of an activation at a command. -/
theorem progress_of_fresh {type method : String} (marked : p.Marked)
    (start : State.start p type method = .ok s₀) (run : s₀.iterate p n = .ok u)
    (hc : p.commandAt q = .ok (some c)) (hs : u.memory.stack = f :: rest)
    (keeps : f.Keeps u.position []) :
    Progress c q u (if u.position = q then [u.cursor] else []) := by
  cases order : compare u.position q with
  | lt =>
    rw [if_neg (Position.ne_of_lt order)]
    exact .before order rfl
  | eq =>
    obtain rfl := Std.LawfulEqOrd.eq_of_compare order
    rw [if_pos rfl]
    exact .during rfl hs rfl keeps (cursor_eq_head marked start run hs hc rfl keeps) rfl
  | gt =>
    have order : compare q u.position = .lt := Std.OrientedCmp.gt_iff_lt.mp order
    rw [if_neg (Position.ne_of_lt order).symm]
    exact .after order (.inl rfl)

/-- When the activation runs again, its visits have come one state further if it stands at `q`. -/
theorem Progress.resume {type method : String} (marked : p.Marked)
    (start : State.start p type method = .ok s₀) (run : s₀.iterate p n = .ok t) (hv : Valid p u)
    (hc : p.commandAt q = .ok (some c)) (resumes : u.Resumes p m t) (h : Progress c q u cursors) :
    Progress c q t (cursors ++ if t.position = q then [t.cursor] else []) := by
  obtain ⟨f, rest, hs, continues⟩ := resumes.top hv
  cases continues with
  | @keep _ r v command due position stack =>
    cases h with
    | before lt seen =>
      rw [if_neg (position ▸ Position.ne_of_lt lt), List.append_nil]
      exact .before (position ▸ lt) seen
    | @during same g below done later hstack work keeps cursor seen =>
      subst same
      cases hs.symm.trans hstack
      cases hc.symm.trans command
      have head := path?_readiness hs work keeps
      rw [due] at head
      cases later with
      | nil => cases head
      | cons path later =>
        cases head
        -- the node that was due joins those that are done
        rw [List.append_cons] at work
        have keeps : (f.record (u.site r.path) v).Keeps u.position (done ++ [r.path]) :=
          keeps.record v
        rw [if_pos position]
        exact .during position stack work keeps
          (cursor_eq_head marked start run stack (position ▸ hc) work (position ▸ keeps))
          (by rw [seen, cursor]; rfl)
    | after lt seen =>
      rw [if_neg (position ▸ (Position.ne_of_lt lt).symm), List.append_nil]
      exact .after (position ▸ lt) seen
  | @leave d vs g once command ready pending goes stack =>
    have lt := goes.lt marked command
    obtain ⟨-, _, done, later, -, -, keeps⟩ := hv.of_stack hs
    have kept : g.Keeps u.position done := by rwa [Frame.Keeps, pending]
    have cleared := kept.clear t.position
    cases h with
    | before _ seen =>
      rw [seen]
      exact progress_of_fresh marked start run hc stack cleared
    | @during same _ _ done later hstack work keeps cursor seen =>
      subst same
      cases hs.symm.trans hstack
      cases hc.symm.trans command
      have head := path?_readiness hs work keeps
      rw [ready] at head
      cases later with
      | cons path later => cases head
      | nil =>
        -- nothing was due, so the cursor stood on the command itself, at the end of the itinerary
        rw [if_neg (Position.ne_of_lt lt).symm, List.append_nil]
        exact .after lt (.inr (by rw [seen, cursor, c.itinerary_eq, work, List.append_nil]; rfl))
    | after before seen =>
      have lt := Std.TransCmp.lt_trans before lt
      rw [if_neg (Position.ne_of_lt lt).symm, List.append_nil]
      exact .after lt seen

/-- The activation on top of `s` has just been started: by the run itself, or by a call. -/
def Begins (p : Program) (s₀ : State) (i : Nat) (s : State) : Prop :=
  i = 0 ∨ ∃ j r, i = j + 1 ∧ s₀.iterate p j = .ok r ∧ r.depth < s.depth

/-- An activation begins without values. -/
theorem Begins.fresh {type method : String} {i : Nat} (h : Begins p s₀ i s)
    (start : State.start p type method = .ok s₀) (run : s₀.iterate p i = .ok s) :
    ∃ f rest, s.memory.stack = f :: rest ∧ f.pending = ∅ := by
  obtain rfl | ⟨j, r, rfl, hr, deeper⟩ := h
  · cases run
    obtain ⟨f, hs, -, fresh⟩ := start_stack start
    exact ⟨f, [], hs, fresh⟩
  · have ha := advance_of_iterate hr run
    obtain ⟨f, rest, hs, -⟩ :=
      (iterate_valid (start_valid start) hr).of_running (advance_eq_ok ha).1
    have moves := advance_cases hs ha
    obtain ⟨callee, site, hstack, fresh, -⟩ :=
      moves.of_deeper hs (Nat.le_antisymm (moves.depth hs).1 deeper)
    exact ⟨callee, _, hstack, fresh⟩

/-- The visits of an activation, as long as it is there. -/
theorem visit_progress {type method : String} {i : Nat} (marked : p.Marked)
    (start : State.start p type method = .ok s₀) (run : s₀.iterate p i = .ok s)
    (first : Begins p s₀ i s) (hc : p.commandAt q = .ok (some c)) (runs : s.iterate p n = .ok t)
    (stays : s.Stays p s.depth n) :
    ∃ k u, s.Latest p n k u ∧ Progress c q u ((s.visit p n q).map State.cursor) := by
  -- below a call the visit stands still, and `u` is the state of the call
  induction n generalizing t with
  | zero =>
    obtain ⟨f, rest, hs, fresh⟩ := first.fresh start run
    have keeps : f.Keeps s.position [] := fun site => by simp [fresh]
    refine ⟨0, s, latest_zero, ?_⟩
    rw [visit_zero, apply_ite (List.map _)]
    exact progress_of_fresh marked start run hc hs keeps
  | succ n ih =>
    obtain ⟨w, hw⟩ := exists_of_iterate runs (Nat.le_succ n)
    obtain ⟨k, u, latest, progress⟩ := ih hw (stays.mono (Nat.le_succ n))
    have hu := iterate_valid (iterate_valid (start_valid start) run) latest.run
    rw [visit_succ stays runs, List.map_append, apply_ite (List.map _)]
    obtain ⟨resumes, latest'⟩ | ⟨deeper, latest'⟩ :=
      latest.succ runs (stays (n + 1) (Nat.le_refl _) t runs)
    · refine ⟨n + 1, t, latest', ?_⟩
      simp only [latest'.depth, true_and]
      exact progress.resume marked start (iterate_trans run runs) hu hc resumes
    · refine ⟨k, u, latest', ?_⟩
      rw [if_neg fun h => absurd h.1 (Nat.ne_of_gt deeper), List.map_nil, List.append_nil]
      exact progress

/-- Nothing is due when an activation returns. -/
theorem Yields.path?_readiness {v : Option Value} (h : s.Yields p v)
    (hs : s.memory.stack = f :: rest) (hc : p.commandAt s.position = .ok (some c)) :
    (c.readiness s.known).path? = none := by
  cases h with
  | fall ended => cases hc.symm.trans ended
  | void command =>
    cases hc.symm.trans command
    rfl
  | @value e v command evaluated =>
    cases hc.symm.trans command
    rw [evaluate_eq hs] at evaluated
    have ready := Expr.readiness_of_value (Except.ok.inj evaluated)
    simp [Command.readiness, Command.operands, Expr.readinessEach, ready, Readiness.path?]

/-- Nothing is due when an activation leaves a command. -/
theorem path?_readiness_of_ends (hs : s.memory.stack = f :: rest)
    (hc : p.commandAt s.position = .ok (some c)) (h : s.advance p = .ok t)
    (ends : t.depth < s.depth ∨ t.depth = s.depth ∧ t.position ≠ s.position) :
    (c.readiness s.known).path? = none := by
  have deep := depth_eq hs
  cases advance_cases hs h with
  | keep command due status position memory =>
    have same : t.depth = s.depth := by simp [State.depth, Memory.depth, memory, hs]
    obtain back | ⟨-, away⟩ := ends
    · omega
    · exact absurd position away
  | call command due caller fresh dispatch status position memory =>
    have deeper : t.depth = s.depth + 1 := by
      simp [State.depth, Memory.depth, memory, Memory.push]
    omega
  | leave command ready caller pending goes status memory =>
    cases hc.symm.trans command
    rw [ready]
    rfl
  | «return» yields delivers => exact yields.path?_readiness hs hc

theorem visit_within_itinerary {type method : String} {i : Nat} (marked : p.Marked)
    (start : State.start p type method = .ok s₀) (run : s₀.iterate p i = .ok s)
    (first : Begins p s₀ i s) (hc : p.commandAt q = .ok (some c)) (n : Nat) :
    (s.visit p n q).map State.cursor <+: c.itinerary := by
  induction n with
  | zero =>
    obtain ⟨k, u, -, progress⟩ :=
      visit_progress marked start run first hc rfl (stays_zero (Nat.le_refl _))
    exact progress.within
  | succ n ih =>
    by_cases h : s.Stays p s.depth (n + 1) ∧ ∃ t, s.iterate p (n + 1) = .ok t
    · obtain ⟨stays, t, runs⟩ := h
      obtain ⟨k, u, -, progress⟩ := visit_progress marked start run first hc runs stays
      exact progress.within
    · rw [visit_succ_of_not h]
      exact ih

/-- In the states in which an activation stands at a command, the cursor goes through the itinerary
of the command: the nodes of its operands, from left to right and children first, and then the
command itself, twice if that calls. It comes to the end of the itinerary if the activation leaves
the command, whatever calls it has made for it; and so these are as many steps as the itinerary is
long. -/
theorem visit_follows_itinerary {type method : String} {i : Nat} (marked : p.Marked)
    (start : State.start p type method = .ok s₀) (run : s₀.iterate p i = .ok s)
    (first : Begins p s₀ i s) (hc : p.commandAt q = .ok (some c)) (n : Nat) :
    (s.visit p n q).map State.cursor <+: c.itinerary ∧
    ∀ m t, m ≤ n → s.iterate p m = .ok t → s.Stays p s.depth m → t.depth = s.depth →
      t.position = q → s.visit p n q ≠ [] ∧
        ∀ t', t.advance p = .ok t' → t'.depth < s.depth ∨ t'.depth = s.depth ∧ t'.position ≠ q →
          (s.visit p n q).map State.cursor = c.itinerary ∧
            (s.visit p n q).length = c.operandNodes + c.calls + 1 := by
  have inside := visit_within_itinerary marked start run first hc n
  refine ⟨inside, fun m t hm runs stays depth position => ?_⟩
  obtain ⟨k, u, latest, progress⟩ := visit_progress marked start run first hc runs stays
  obtain rfl := latest.eq runs depth
  have grows := (visit_mono (p := p) (s := s) (q := q) hm).map State.cursor
  subst position
  cases progress with
  | before lt => exact absurd rfl (Position.ne_of_lt lt)
  | after lt => exact absurd rfl (Position.ne_of_lt lt)
  | during _ hs work keeps cursor seen =>
    refine ⟨fun empty => ?_, fun t' ha ends => ?_⟩
    · rw [empty, seen] at grows
      simp at grows
    · have head := path?_readiness hs work keeps
      rw [path?_readiness_of_ends hs hc ha (depth ▸ ends)] at head
      obtain rfl := List.head?_eq_none_iff.mp head.symm
      have full : (s.visit p m t.position).map State.cursor = c.itinerary := by
        rw [seen, cursor, c.itinerary_eq, work, List.append_nil]
        rfl
      rw [full] at grows
      have all := inside.eq_of_length (Nat.le_antisymm inside.length_le grows.length_le)
      exact ⟨all, by rw [← c.length_itinerary, ← all, List.length_map]⟩

/-- The condition of the counter has five nodes. Each of its two calls takes ten steps, which the
visit does not count. -/
theorem visit_follows_itinerary_counter :
    ∃ s₀ : State, State.start .counter "Main" "main" = .ok s₀ ∧ Program.counter.Marked ∧
      (s₀.visit .counter 32 ⟨"Main", "main", [⟨0, 2⟩]⟩).map State.cursor =
        [[0, 0, 0], [0, 0], [0, 1, 0], [0, 1], [0], []] := by
  have marked : Program.counter.Marked := by decide
  have here : ((State.start .counter "Main" "main").bind (·.iterate .counter 28)).toOption.map
      (fun s => (s.depth, s.position)) = some (1, ⟨"Main", "main", [⟨0, 2⟩]⟩) := by decide +kernel
  have behind : ((State.start .counter "Main" "main").bind (·.iterate .counter 29)).toOption.map
      (fun s => (s.depth, s.position)) = some (1, ⟨"Main", "main", [⟨0, 2⟩, ⟨0, 0⟩]⟩) := by
    decide +kernel
  obtain ⟨s₀, t', hs₀, ht', hview'⟩ := exists_of_view behind
  obtain ⟨t, ht⟩ := exists_of_iterate ht' (show 28 ≤ 29 by omega)
  have hview := view_eq hs₀ ht here
  obtain ⟨depth, position⟩ := Prod.mk.inj hview
  obtain ⟨depth', position'⟩ := Prod.mk.inj hview'
  obtain ⟨f, hs, -⟩ := start_stack hs₀
  have one : s₀.depth = 1 := depth_eq hs
  have stays : s₀.Stays .counter s₀.depth 28 := fun k hk u hu => by
    obtain ⟨u', hu'⟩ := exists_of_iterate ht' (show k + 1 ≤ 29 by omega)
    obtain ⟨status, -⟩ := advance_eq_ok (advance_of_iterate hu hu')
    obtain ⟨g, rest, hstack, -⟩ := (iterate_valid (start_valid hs₀) hu).of_running status
    rw [one, depth_eq hstack]
    exact Nat.le_add_left 1 _
  have hc : Program.counter.commandAt ⟨"Main", "main", [⟨0, 2⟩]⟩ =
    .ok (some (Command.cond _ _ _)) := rfl
  obtain ⟨-, visits⟩ := visit_follows_itinerary marked hs₀ (i := 0) rfl (.inl rfl) hc 32
  obtain ⟨-, completes⟩ := visits 28 t (by omega) ht stays (depth.trans one.symm) position
  obtain ⟨cursors, -⟩ := completes t' (advance_of_iterate ht ht')
    (.inr ⟨depth'.trans one.symm, by rw [position']; decide⟩)
  exact ⟨s₀, hs₀, marked, cursors⟩

end State

end Microstep
