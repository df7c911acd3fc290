import Mathlib.Data.List.Basic
import Microstep.Position

/-!
# Reading positions back

The text of a position, of a path or of a site belongs to no other, provided that the names in it do
not hold the characters that end them. Text is read from the left: each part ends at the first
character that it cannot hold itself.

* `append_cons_inj`, `intercalate_inj`: where a part ends, and lists of parts;
* `Position.text_append_inj`: a position is read off the beginning of a longer text;
* `Site.text_unambiguous`: equal texts, equal addresses.
-/

namespace Microstep

/-! ## Parts of a text -/

section

variable {α : Type} {c : α} {sep xs ys r s : List α} {items others : List (List α)}

/-- A part that does not hold `c` ends at the first `c`. -/
theorem append_cons_inj (hx : c ∉ xs) (hy : c ∉ ys) (h : xs ++ c :: r = ys ++ c :: s) :
    xs = ys ∧ r = s := by
  induction xs generalizing ys with
  | nil =>
    cases ys with
    | nil => exact ⟨rfl, (List.cons.inj h).2⟩
    | cons y ys => exact absurd ((List.cons.inj h).1 ▸ List.mem_cons_self) hy
  | cons x xs ih =>
    cases ys with
    | nil => exact absurd ((List.cons.inj h).1 ▸ List.mem_cons_self) hx
    | cons y ys =>
      obtain ⟨rfl, tails⟩ := List.cons.inj h
      rw [List.mem_cons, not_or] at hx hy
      obtain ⟨rfl, rest⟩ := ih hx.2 hy.2 tails
      exact ⟨rfl, rest⟩

/-- Parts that are each followed by a separator can be told apart. -/
theorem flatMap_separator_inj (hx : ∀ x ∈ items, c ∉ x) (hy : ∀ y ∈ others, c ∉ y)
    (h : items.flatMap (· ++ c :: sep) = others.flatMap (· ++ c :: sep)) : items = others := by
  induction items generalizing others with
  | nil =>
    cases others with
    | nil => rfl
    | cons y others => simp at h
  | cons x items ih =>
    cases others with
    | nil => simp at h
    | cons y others =>
      rw [List.forall_mem_cons] at hx hy
      simp only [List.flatMap_cons, List.append_assoc, List.cons_append] at h
      obtain ⟨rfl, rest⟩ := append_cons_inj hx.1 hy.1 h
      rw [ih hx.2 hy.2 (List.append_cancel_left rest)]

/-- With one more separator at the end, one follows each part. -/
theorem intercalate_append (sep : List α) (h : items ≠ []) :
    sep.intercalate items ++ sep = items.flatMap (· ++ sep) := by
  induction items with
  | nil => exact absurd rfl h
  | cons x items ih =>
    by_cases last : items = []
    · simp [last]
    · rw [List.intercalate_cons_of_ne_nil last, List.flatMap_cons, ← ih last]
      simp

theorem mem_of_mem_intercalate (h : c ∈ sep.intercalate items) :
    c ∈ sep ∨ ∃ x ∈ items, c ∈ x := by
  by_cases none : items = []
  · simp [none] at h
  · have h := List.mem_append_left sep h
    rw [intercalate_append sep none, List.mem_flatMap] at h
    obtain ⟨x, hx, h⟩ := h
    exact (List.mem_append.mp h).symm.imp_right fun h => ⟨x, hx, h⟩

/-- Parts that are not empty can be told apart if there are separators between them. -/
theorem intercalate_inj (hx : ∀ x ∈ items, x ≠ [] ∧ c ∉ x) (hy : ∀ y ∈ others, y ≠ [] ∧ c ∉ y)
    (h : (c :: sep).intercalate items = (c :: sep).intercalate others) : items = others := by
  have nonempty {items : List (List α)} (hx : ∀ x ∈ items, x ≠ [] ∧ c ∉ x)
      (some : items ≠ []) : (c :: sep).intercalate items ≠ [] := by
    match items, some with
    | [x], _ => simpa using (hx x List.mem_cons_self).1
    | x :: y :: items, _ => simp [List.intercalate_cons_cons]
  by_cases none : items = []
  · by_contra different
    rw [none] at h different
    exact nonempty hy (Ne.symm different) h.symm
  by_cases none' : others = []
  · rw [none'] at h
    exact absurd h (nonempty hx none)
  · have separated := congrArg (· ++ c :: sep) h
    simp only [intercalate_append _ none, intercalate_append _ none'] at separated
    exact flatMap_separator_inj (fun x hm => (hx x hm).2) (fun y hm => (hy y hm).2) separated

end

/-! ## Numbers and levels -/

theorem toDigits_injective {m n : Nat} (h : Nat.toDigits 10 m = Nat.toDigits 10 n) : m = n := by
  rw [← @Nat.ofDigitChars_ten_toDigits m, h, Nat.ofDigitChars_ten_toDigits]

/-- A number is written without separators. -/
theorem not_mem_toDigits {c : Char} (hc : c.isDigit = false) (n : Nat) :
    c ∉ Nat.toDigits 10 n := by
  intro hm
  cases hc.symm.trans (Nat.isDigit_of_mem_toDigits (by decide) (by decide) hm)

namespace Level

theorem toList_text (l : Level) :
    l.text.toList = Nat.toDigits 10 l.block ++ ':' :: Nat.toDigits 10 l.command := by
  simp [text]

theorem text_injective {l m : Level} (h : l.text.toList = m.text.toList) : l = m := by
  rw [toList_text, toList_text] at h
  obtain ⟨block, command⟩ :=
    append_cons_inj (not_mem_toDigits rfl _) (not_mem_toDigits rfl _) h
  obtain ⟨i, j⟩ := l
  obtain ⟨i', j'⟩ := m
  obtain rfl : i = i' := toDigits_injective block
  obtain rfl : j = j' := toDigits_injective command
  rfl

/-- A level is written in digits, with a colon. -/
theorem not_mem_text {c : Char} (hc : c.isDigit = false) (colon : c ≠ ':') (l : Level) :
    c ∉ l.text.toList := by
  simp [toList_text, not_mem_toDigits hc, colon]

theorem text_ne_nil (l : Level) : l.text.toList ≠ [] := by
  simp [toList_text]

end Level

/-! ## Paths, positions and sites -/

namespace ExprPath

variable {path path' : ExprPath}

theorem toList_text (h : path ≠ []) :
    (text path).toList = ['.'].intercalate (path.map (Nat.toDigits 10)) := by
  rw [text, if_neg (by simpa using h), String.toList_intercalate, List.map_map]
  congr 2
  funext n
  simp

/-- The name of the empty path is in letters, and there are none in the text of any other path. -/
theorem text_eq_iff_nil : text path = "EMPTY" ↔ path = [] := by
  constructor
  · intro h
    by_contra some
    have letter : 'E' ∈ (text path).toList := by rw [h]; decide
    rw [toList_text some] at letter
    obtain dot | ⟨digits, hm, letter⟩ := mem_of_mem_intercalate letter
    · simp at dot
    · obtain ⟨n, -, rfl⟩ := List.mem_map.mp hm
      exact not_mem_toDigits rfl n letter
  · rintro rfl
    rfl

theorem text_inj (h : text path = text path') : path = path' := by
  by_cases none : path = []
  · rw [none] at h
    rw [none, text_eq_iff_nil.mp h.symm]
  by_cases none' : path' = []
  · rw [none'] at h
    exact absurd (text_eq_iff_nil.mp h) none
  · have item {path : ExprPath} : ∀ x ∈ path.map (Nat.toDigits 10), x ≠ [] ∧ '.' ∉ x := by
      simp only [List.forall_mem_map]
      exact fun n _ => ⟨Nat.toDigits_ne_nil, not_mem_toDigits rfl n⟩
    have same := congrArg String.toList h
    rw [toList_text none, toList_text none'] at same
    exact List.map_injective_iff.mpr (fun _ _ => toDigits_injective)
      (intercalate_inj item item same)

end ExprPath

namespace Position

variable {p q : Position} {r s : List Char}

/-- The names do not hold the characters that end them in the text of a position. -/
structure Legible (p : Position) : Prop where
  type : '.' ∉ p.type.toList
  method : ' ' ∉ p.method.toList

/-- The levels in the text of a position. -/
def levels (path : Path) : List Char := " / ".toList.intercalate (path.map (·.text.toList))

theorem toList_text (p : Position) :
    p.text.toList =
      p.type.toList ++ '.' :: (p.method.toList ++ ' ' :: '[' :: (levels p.path ++ [']'])) := by
  simp [text, levels, String.toList_intercalate, Function.comp_def]

theorem levels_inj {path path' : Path} (h : levels path = levels path') : path = path' := by
  have item {path : Path} : ∀ x ∈ path.map (·.text.toList), x ≠ [] ∧ ' ' ∉ x := by
    simp only [List.forall_mem_map]
    exact fun l _ => ⟨l.text_ne_nil, l.not_mem_text rfl (by decide)⟩
  exact List.map_injective_iff.mpr (fun _ _ => Level.text_injective) (intercalate_inj item item h)

/-- Nothing in the levels is mistaken for their end. -/
theorem not_mem_levels (path : Path) : ']' ∉ levels path := by
  intro h
  obtain sep | ⟨x, hm, h⟩ := mem_of_mem_intercalate h
  · simp at sep
  · obtain ⟨l, -, rfl⟩ := List.mem_map.mp hm
    exact l.not_mem_text rfl (by decide) h

/-- A position is read off the beginning of a text, whatever follows. -/
theorem text_append_inj (hp : p.Legible) (hq : q.Legible)
    (h : p.text.toList ++ r = q.text.toList ++ s) : p = q ∧ r = s := by
  simp only [toList_text, List.append_assoc, List.cons_append, List.nil_append] at h
  obtain ⟨type, h⟩ := append_cons_inj hp.type hq.type h
  obtain ⟨method, h⟩ := append_cons_inj hp.method hq.method h
  obtain ⟨levels, rest⟩ := append_cons_inj (not_mem_levels _) (not_mem_levels _) (List.cons.inj h).2
  obtain ⟨t, m, path⟩ := p
  obtain ⟨t', m', path'⟩ := q
  obtain rfl : t = t' := String.toList_injective type
  obtain rfl : m = m' := String.toList_injective method
  obtain rfl : path = path' := levels_inj levels
  exact ⟨rfl, rest⟩

theorem text_inj (hp : p.Legible) (hq : q.Legible) (h : p.text = q.text) : p = q := by
  have same : p.text.toList ++ [] = q.text.toList ++ [] := by rw [h]
  exact (text_append_inj hp hq same).1

end Position

namespace Site

variable {a b : Site}

theorem text_inj (ha : a.position.Legible) (hb : b.position.Legible) (h : a.text = b.text) :
    a = b := by
  have same := congrArg String.toList h
  simp only [text, String.toList_append, List.append_assoc] at same
  obtain ⟨position, rest⟩ := Position.text_append_inj ha hb same
  obtain ⟨p, path⟩ := a
  obtain ⟨q, path'⟩ := b
  obtain rfl : p = q := position
  obtain rfl : path = path' :=
    ExprPath.text_inj (String.toList_injective (List.append_cancel_left rest))
  rfl

/-- Addresses are equal if their texts are. For positions, and for sites, the type must be written
without a dot and the method without a space, which would end them too early. No other path is
written like the empty one. -/
theorem text_unambiguous :
    (∀ a b : Site, a.position.Legible → b.position.Legible → (a.text = b.text ↔ a = b)) ∧
    (∀ p q : Position, p.Legible → q.Legible → (p.text = q.text ↔ p = q)) ∧
    (∀ path path' : ExprPath, ExprPath.text path = ExprPath.text path' ↔ path = path') ∧
    ∀ path : ExprPath, ExprPath.text path = "EMPTY" ↔ path = [] :=
  ⟨fun _ _ ha hb => ⟨text_inj ha hb, congrArg text⟩,
    fun _ _ hp hq => ⟨Position.text_inj hp hq, congrArg Position.text⟩,
    fun _ _ => ⟨ExprPath.text_inj, congrArg ExprPath.text⟩,
    fun _ => ExprPath.text_eq_iff_nil⟩

/-- Whatever else the names hold, a site that is reached in two ways is known by its text. -/
theorem text_unambiguous_nested :
    let a : Site := ⟨(Position.entry "Box [0:1] @ 2" "put.in").following.descend 1, [1, 0]⟩
    let b : Site := ⟨⟨"Box [0:1] @ 2", "put.in", [⟨0, 1⟩, ⟨1, 0⟩]⟩, [1, 0]⟩
    a.position.Legible ∧ b.position.Legible ∧
      a.text = "Box [0:1] @ 2.put.in [0:1 / 1:0] @ 1.0" ∧ a.text = b.text ∧ a = b := by
  intro a b
  have ha : a.position.Legible := ⟨by decide, by decide⟩
  have hb : b.position.Legible := ⟨by decide, by decide⟩
  have same : a.text = b.text := by decide +kernel
  exact ⟨ha, hb, by decide +kernel, same, (text_unambiguous.1 a b ha hb).mp same⟩

/-- With a dot in the name of a type the text can be read in two ways. -/
example : (⟨"Box.Lid", "open", [⟨0, 1⟩]⟩ : Position).text =
    (⟨"Box", "Lid.open", [⟨0, 1⟩]⟩ : Position).text := by
  decide +kernel

end Site

end Microstep
