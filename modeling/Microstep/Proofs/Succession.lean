import Microstep.Program.Place
import Microstep.Proofs.Bind

/-!
# Where a program goes on

Positions seen from their last level: a position deeper than a body lies in a branch of the command
at the position without its last level.

* `Program.locate_body_iff`, `Program.locate_concat_iff`: the block of a position, in a body and in
  a branch;
* `Program.next_within`, `Program.next_behind`, `Program.next_end`: the next position, by what
  follows in the block;
* `Program.next_resolves`: a command is followed by a command or by the end of the body.
-/

namespace Microstep

namespace Path

variable {block : List Command} {pre : Path} {l : Level} {place : Place}

theorem follow_cons_iff {a b : Level} {path : Path} :
    Path.follow block (a :: b :: path) = .ok place ↔
      ∃ d branch, block[a.command]? = some d ∧ d.branch? b.block = some branch ∧
        Path.follow branch (b :: path) = .ok place := by
  rw [follow]
  cases block[a.command]? with
  | none => simp
  | some d => cases hb : d.branch? b.block <;> simp [hb]

/-- A path ends in a branch of the command to which the path without its last level leads. -/
theorem follow_concat_iff (hp : pre ≠ []) :
    Path.follow block (pre ++ [l]) = .ok place ↔
      ∃ outer d branch, Path.follow block pre = .ok outer ∧ outer.command? = some d ∧
        d.branch? l.block = some branch ∧ place = ⟨branch, l.command⟩ := by
  induction pre generalizing block with
  | nil => exact absurd rfl hp
  | cons a pre ih =>
    cases pre with
    | nil =>
      rw [List.cons_append, List.nil_append, follow_cons_iff]
      constructor
      · rintro ⟨d, branch, hd, hb, h⟩
        cases h
        exact ⟨_, d, branch, rfl, hd, hb, rfl⟩
      · rintro ⟨_, d, branch, ho, hd, hb, rfl⟩
        cases ho
        exact ⟨d, branch, hd, hb, rfl⟩
    | cons b pre =>
      have ih := @ih
      simp only [List.cons_append, follow_cons_iff] at ih ⊢
      constructor
      · rintro ⟨d, branch, hd, hb, h⟩
        obtain ⟨outer, e, inner, ho, he, hi, rfl⟩ := (ih (by simp)).mp h
        exact ⟨outer, e, inner, ⟨d, branch, hd, hb, ho⟩, he, hi, rfl⟩
      · rintro ⟨outer, e, inner, ⟨d, branch, hd, hb, ho⟩, he, hi, rfl⟩
        exact ⟨d, branch, hd, hb, (ih (by simp)).mpr ⟨outer, e, inner, ho, he, hi, rfl⟩⟩

theorem successor?_cons {a b : Level} {path : Path} {d : Command} {branch : List Command}
    (hd : block[a.command]? = some d) (hb : d.branch? b.block = some branch) :
    Path.successor? block (a :: b :: path) =
      match Path.successor? branch (b :: path) with
      | some path => some (a :: path)
      | none => Path.successor? block [a] := by
  have h : Path.successor? block [a] =
      if a.command + 1 < block.length then some (following [a]) else none := by
    simp [successor?, hd, following]
  rw [h, successor?]
  cases hs : Path.successor? branch (b :: path) <;> simp [hd, hb, hs, following]

/-- The successor of the command at a path: the next one in the block, or else the successor of the
command that holds the block. -/
theorem successor?_concat {branch : List Command} {i : Nat}
    (h : Path.follow block (pre ++ [l]) = .ok ⟨branch, i⟩) :
    Path.successor? block (pre ++ [l]) =
      if i + 1 < branch.length then some (pre ++ [⟨l.block, i + 1⟩])
      else if pre = [] then none else Path.successor? block pre := by
  induction pre generalizing block with
  | nil =>
    simp only [List.nil_append, follow, Except.ok.injEq, Place.mk.injEq] at h
    obtain ⟨rfl, rfl⟩ := h
    simp only [List.nil_append, successor?, following]
    cases block[l.command]? <;> simp
  | cons a pre ih =>
    cases pre with
    | nil =>
      obtain ⟨d, inner, hd, hb, h⟩ := follow_cons_iff.mp h
      rw [List.cons_append, List.nil_append, successor?_cons hd hb, ← List.nil_append [l],
        ih (by simpa using h)]
      by_cases hi : i + 1 < branch.length <;> simp [hi]
    | cons b pre =>
      obtain ⟨d, inner, hd, hb, h⟩ := follow_cons_iff.mp h
      rw [List.cons_append, List.cons_append, successor?_cons hd hb, successor?_cons hd hb,
        ← List.cons_append, ih (by simpa using h)]
      by_cases hi : i + 1 < branch.length <;> simp [hi]

/-- No command is its own successor. -/
theorem successor?_ne {path q : Path} (h : Path.successor? block path = some q) : q ≠ path := by
  induction path generalizing block q with
  | nil => simp [successor?] at h
  | cons a path ih =>
    rw [successor?] at h
    split at h
    · rename_i inner hi
      cases h
      simp only [Option.bind_eq_bind, Option.bind_eq_some_iff] at hi
      obtain ⟨d, -, b, -, branch, -, hi⟩ := hi
      simpa using ih hi
    · split at h
      · cases h
        cases a
        simp [following]
      · cases h

end Path

namespace Program

variable {p : Program} {type method : String} {pre : Path} {l : Level} {place : Place}
  {position q : Position} {c : Command}

theorem commandAt_eq_some_iff :
    p.commandAt position = .ok (some c) ↔
      ∃ place, p.locate position = .ok place ∧ place.command? = some c := by
  rw [commandAt]
  cases p.locate position with
  | error fault => simp
  | ok place =>
    cases hc : place.command? with
    | none => simp only [hc]; split <;> simp [hc]
    | some d => simp [hc]

theorem bodyOf_concat (hp : pre ≠ []) :
    p.bodyOf ⟨type, method, pre ++ [l]⟩ = p.bodyOf ⟨type, method, pre⟩ := by
  cases pre with
  | nil => exact absurd rfl hp
  | cons a pre => rfl

/-- The places in a body. -/
theorem locate_body_iff :
    p.locate ⟨type, method, [l]⟩ = .ok place ↔
      l.block = 0 ∧ ∃ body, p.body? type method = some body ∧ place = ⟨body, l.command⟩ := by
  simp only [locate, bodyOf]
  by_cases hl : l.block = 0
  · cases p.body? type method <;> simp [hl, Path.follow, eq_comm]
  · simp [hl]

/-- The places in a branch of a command. -/
theorem locate_concat_iff (hp : pre ≠ []) :
    p.locate ⟨type, method, pre ++ [l]⟩ = .ok place ↔
      ∃ d branch, p.commandAt ⟨type, method, pre⟩ = .ok (some d) ∧
        d.branch? l.block = some branch ∧ place = ⟨branch, l.command⟩ := by
  simp only [commandAt_eq_some_iff, locate, bodyOf_concat hp]
  cases p.bodyOf ⟨type, method, pre⟩ with
  | error fault => simp
  | ok body =>
    simp only [ok_bind, Path.follow_concat_iff hp]
    constructor
    · rintro ⟨outer, d, branch, ho, hd, hb, rfl⟩
      exact ⟨d, branch, ⟨outer, ho, hd⟩, hb, rfl⟩
    · rintro ⟨d, branch, ⟨outer, ho, hd⟩, hb, rfl⟩
      exact ⟨outer, d, branch, ho, hd, hb, rfl⟩

theorem index_of_locate (h : p.locate ⟨type, method, pre ++ [l]⟩ = .ok place) :
    place.index = l.command := by
  cases pre with
  | nil => obtain ⟨-, body, -, rfl⟩ := locate_body_iff.mp h; rfl
  | cons a pre =>
    obtain ⟨d, branch, -, -, rfl⟩ := (locate_concat_iff (List.cons_ne_nil a pre)).mp h
    rfl

/-- Going on at another index of the same block. -/
theorem locate_sibling {block i : Nat} {commands : List Command} (j : Nat)
    (h : p.locate ⟨type, method, pre ++ [⟨block, i⟩]⟩ = .ok ⟨commands, i⟩) :
    p.locate ⟨type, method, pre ++ [⟨block, j⟩]⟩ = .ok ⟨commands, j⟩ := by
  cases pre with
  | nil =>
    obtain ⟨hl, body, hb, h⟩ := locate_body_iff.mp h
    cases h
    exact locate_body_iff.mpr ⟨hl, _, hb, rfl⟩
  | cons a pre =>
    obtain ⟨d, branch, hd, hb, h⟩ := (locate_concat_iff (List.cons_ne_nil a pre)).mp h
    cases h
    exact (locate_concat_iff (List.cons_ne_nil a pre)).mpr ⟨d, _, hd, hb, rfl⟩

/-- A position that can be located has a next one. -/
theorem next_eq (h : p.locate position = .ok place) :
    ∃ body, p.bodyOf position = .ok body ∧ position.path.follow body = .ok place ∧
      p.next position = .ok { position with path := nextPath body position.path } := by
  obtain ⟨body, hb, hf⟩ := bind_eq_ok_iff.mp h
  exact ⟨body, hb, hf, by simp [next, hb, hf]⟩

variable {block i : Nat} {commands : List Command}

theorem next_within (h : p.locate ⟨type, method, pre ++ [⟨block, i⟩]⟩ = .ok ⟨commands, i⟩)
    (hi : i + 1 < commands.length) :
    p.next ⟨type, method, pre ++ [⟨block, i⟩]⟩ =
      .ok ⟨type, method, pre ++ [⟨block, i + 1⟩]⟩ := by
  obtain ⟨body, hb, hf, hn⟩ := next_eq h
  rw [hn, nextPath, Path.successor?_concat hf, if_pos hi]

theorem next_behind (h : p.locate ⟨type, method, pre ++ [⟨block, i⟩]⟩ = .ok ⟨commands, i⟩)
    (hi : commands.length ≤ i + 1) (hp : pre ≠ []) :
    p.next ⟨type, method, pre ++ [⟨block, i⟩]⟩ = p.next ⟨type, method, pre⟩ := by
  obtain ⟨body, hb, hf, hn⟩ := next_eq h
  obtain ⟨outer, d, branch, ho, -⟩ := (Path.follow_concat_iff hp).mp hf
  rw [bodyOf_concat hp] at hb
  have hl : p.locate ⟨type, method, pre⟩ = .ok outer := bind_eq_ok_iff.mpr ⟨body, hb, ho⟩
  obtain ⟨body', hb', -, hn'⟩ := next_eq hl
  obtain rfl : body = body' := Except.ok.inj (hb.symm.trans hb')
  rw [hn, hn', nextPath, nextPath, Path.successor?_concat hf, if_neg (by omega), if_neg hp]
  cases pre with
  | nil => exact absurd rfl hp
  | cons a pre => rfl

theorem next_end (h : p.locate ⟨type, method, [⟨block, i⟩]⟩ = .ok ⟨commands, i⟩)
    (hi : commands.length ≤ i + 1) :
    p.next ⟨type, method, [⟨block, i⟩]⟩ = .ok ⟨type, method, [⟨block, i + 1⟩]⟩ := by
  obtain ⟨body, hb, hf, hn⟩ := next_eq h
  have hs : Path.successor? body [⟨block, i⟩] = none := by
    rw [← List.nil_append [_], Path.successor?_concat hf, if_neg (by omega), if_pos rfl]
  rw [hn, nextPath, hs]
  rfl

theorem next_ne (h : p.next position = .ok q) : q ≠ position := by
  unfold next at h
  cases hb : p.bodyOf position with
  | error fault => simp [hb] at h
  | ok body =>
    cases hf : position.path.follow body with
    | error fault => simp [hb, hf] at h
    | ok place =>
      simp only [hb, hf, ok_bind, pure_eq_ok, Except.ok.injEq] at h
      subst h
      intro he
      have he : nextPath body position.path = position.path := congrArg Position.path he
      cases hp : position.path with
      | nil => rw [hp] at hf; cases hf
      | cons a path =>
        rw [nextPath, hp] at he
        split at he
        · rename_i hs
          exact Path.successor?_ne hs he
        · cases a
          simp [Path.following] at he

/-- A position at which a run can stand: that of a command, or the end of a body. -/
def Resolves (p : Program) (position : Position) : Prop :=
  ∃ command?, p.commandAt position = .ok command?

theorem resolves_body (hb : p.body? type method = some commands) (hi : i ≤ commands.length) :
    p.Resolves ⟨type, method, [⟨0, i⟩]⟩ := by
  have hl := (locate_body_iff (l := ⟨0, i⟩)).mpr ⟨rfl, commands, hb, rfl⟩
  obtain hi | rfl := Nat.lt_or_eq_of_le hi
  · exact ⟨_, commandAt_eq_some_iff.mpr ⟨_, hl, List.getElem?_eq_getElem hi⟩⟩
  · refine ⟨none, ?_⟩
    simp [commandAt, hl, Place.command?, Position.depth]

theorem resolves_of_command? (hl : p.locate position = .ok place)
    (hc : place.command? = some c) : p.Resolves position :=
  ⟨_, commandAt_eq_some_iff.mpr ⟨place, hl, hc⟩⟩

/-- The first command of a branch. -/
theorem descend_resolves {branch : List Command} (h : p.commandAt position = .ok (some c))
    (hb : c.branch? block = some branch) (inside : branch ≠ []) :
    p.Resolves (position.descend block) := by
  obtain ⟨type, method, path⟩ := position
  have hp : path ≠ [] := by
    rintro rfl
    obtain ⟨place, hl, -⟩ := commandAt_eq_some_iff.mp h
    cases hl
  exact resolves_of_command? ((locate_concat_iff hp).mpr ⟨c, branch, h, hb, rfl⟩)
    (List.getElem?_eq_getElem (List.length_pos_iff.mpr inside))

/-- A body that holds a command has a position behind its first one. -/
theorem afterEntry_resolves (h : p.commandAt position = .ok (some c)) :
    p.Resolves position.afterEntry := by
  obtain ⟨type, method, path⟩ := position
  obtain ⟨place, hl, hc⟩ := commandAt_eq_some_iff.mp h
  obtain ⟨body, hbody, hf⟩ := bind_eq_ok_iff.mp hl
  cases path with
  | nil => cases hf
  | cons a path =>
    have hb : p.body? type method = some body := by
      simp only [bodyOf] at hbody
      split at hbody
      · cases hbody
      · cases hm : p.body? type method with
        | none => simp [hm] at hbody
        | some b => simpa [hm] using hbody
    have hlen : 0 < body.length := by
      cases path with
      | nil =>
        cases hf
        obtain ⟨hi, -⟩ := List.getElem?_eq_some_iff.mp hc
        exact Nat.zero_lt_of_lt hi
      | cons b path =>
        obtain ⟨d, branch, hd, -⟩ := Path.follow_cons_iff.mp hf
        obtain ⟨hi, -⟩ := List.getElem?_eq_some_iff.mp hd
        exact Nat.zero_lt_of_lt hi
    exact resolves_body hb hlen

/-- The position behind a command is that of a command or the end of the body. -/
theorem next_resolves (h : p.commandAt position = .ok (some c)) :
    ∃ q, p.next position = .ok q ∧ p.Resolves q := by
  obtain ⟨type, method, path⟩ := position
  induction hn : path.length generalizing path c with
  | zero =>
    obtain ⟨place, hl, -⟩ := commandAt_eq_some_iff.mp h
    rw [List.eq_nil_of_length_eq_zero hn] at hl
    cases hl
  | succ n ih =>
    obtain ⟨pre, ⟨block, i⟩, rfl⟩ : ∃ pre l, path = pre ++ [l] :=
      ⟨_, _, (List.dropLast_concat_getLast (List.ne_nil_of_length_eq_add_one hn)).symm⟩
    obtain ⟨⟨commands, j⟩, hl, hc⟩ := commandAt_eq_some_iff.mp h
    obtain rfl : j = i := index_of_locate hl
    obtain ⟨hj, -⟩ := List.getElem?_eq_some_iff.mp hc
    by_cases hlt : j + 1 < commands.length
    · exact ⟨_, next_within hl hlt,
        resolves_of_command? (locate_sibling (j + 1) hl) (List.getElem?_eq_getElem hlt)⟩
    · cases pre with
      | nil =>
        obtain ⟨hb, body, hbody, he⟩ := locate_body_iff.mp hl
        cases he
        cases hb
        exact ⟨_, next_end hl (by omega), resolves_body hbody hj⟩
      | cons a pre =>
        have hp := List.cons_ne_nil a pre
        obtain ⟨d, branch, hd, -⟩ := (locate_concat_iff hp).mp hl
        rw [next_behind hl (by omega) hp]
        exact ih _ hd (by simpa using hn)

end Program

end Microstep
