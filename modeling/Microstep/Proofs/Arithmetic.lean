import Mathlib.Algebra.Order.Group.Unbundled.Abs
import Mathlib.Algebra.Order.Ring.Int
import Microstep.Proofs.Reduction

/-!
# Integer arithmetic

Arithmetic on words is that of the integers, as far as words hold the results. A sum, difference,
product or negation is the exact integer or an overflow. Quotient and remainder fail together: for
the divisor zero, and for the one quotient that no word holds.

* `Integer.fits_iff`, `Integer.fits_tdiv_iff`: the integers that words hold, and the quotients;
* `Operator.Exact`, `Truncated`: the exact result, and division that rounds toward zero;
* `Operator.division_eq`: what quotient and remainder have in common;
* `Operator.arithmetic_exact`: arithmetic on any two words.
-/

namespace Microstep

/-- `q` is the quotient of `a` by `b`, rounded toward zero, and `r` is the remainder. -/
structure Truncated (a b q r : Int) : Prop where
  division : a = b * q + r
  small : |r| < |b|
  sign : r = 0 ∨ r.sign = a.sign
  /-- The absolute value of the quotient is rounded down, and the sign is that of the fraction. -/
  toward_zero : q.natAbs = a.natAbs / b.natAbs ∧ (q = 0 ∨ q.sign = a.sign * b.sign)

theorem truncated_tdiv_tmod (a : Int) {b : Int} (hb : b ≠ 0) :
    Truncated a b (a.tdiv b) (a.tmod b) where
  division := (Int.mul_tdiv_add_tmod a b).symm
  small := by
    rw [Int.abs_eq_natAbs, Int.abs_eq_natAbs, Int.natAbs_tmod]
    exact Int.ofNat_lt.mpr (Nat.mod_lt _ (Int.natAbs_pos.mpr hb))
  sign := by
    rw [Int.sign_tmod]
    split
    · next dvd => exact .inl (Int.tmod_eq_zero_of_dvd dvd)
    · exact .inr rfl
  toward_zero := by
    refine ⟨Int.natAbs_tdiv a b, ?_⟩
    rw [Int.sign_tdiv]
    split
    · next less =>
      refine .inl (Int.natAbs_eq_zero.mp ?_)
      rw [Int.natAbs_tdiv]
      exact Nat.div_eq_of_lt less
    · exact .inr rfl

namespace Integer

variable {a b n : Int}

theorem fits_iff : Fits n ↔ -2 ^ 63 ≤ n ∧ n ≤ 2 ^ 63 - 1 := Iff.rfl

/-- A remainder has the sign of the dividend and is not larger. -/
theorem fits_tmod (ha : Fits a) (b : Int) : Fits (a.tmod b) := by
  have size : (a.tmod b).natAbs ≤ a.natAbs := by
    rw [Int.natAbs_tmod]
    exact Nat.mod_le _ _
  unfold Fits least greatest at *
  obtain pos | neg := Int.le_total 0 a
  · omega
  · have pos := Int.tmod_nonneg b (Int.neg_nonneg_of_nonpos neg)
    rw [Int.neg_tmod] at pos
    omega

/-- Of all quotients only that of the least word by minus one is too large for a word. -/
theorem fits_tdiv_iff (ha : Fits a) : Fits (a.tdiv b) ↔ ¬ (a = -2 ^ 63 ∧ b = -1) := by
  unfold Fits least greatest at *
  by_cases minusOne : b = -1
  · rw [minusOne, Int.tdiv_neg, Int.tdiv_one]
    omega
  by_cases one : b = 1
  · rw [one, Int.tdiv_one]
    omega
  · -- a divisor of another size at least halves the dividend, or is zero
    have half : (a.tdiv b).natAbs ≤ a.natAbs / 2 := by
      rw [Int.natAbs_tdiv]
      show a.natAbs / b.natAbs ≤ a.natAbs / 2
      obtain zero | large : b.natAbs = 0 ∨ 2 ≤ b.natAbs := by omega
      · simp [zero]
      · exact Nat.div_le_div_left large (by decide)
    omega

end Integer

namespace Operator

/-- The outcome of an operation whose result is the integer `n`: the word that holds `n` or, if none
does, an overflow. -/
inductive Exact (n : Int) (operation : String) : Except Error Value → Prop
  | result (w : Int64) (fits : -2 ^ 63 ≤ n ∧ n ≤ 2 ^ 63 - 1) (value : w.toInt = n) :
    Exact n operation (.ok (.int w))
  | overflow (outside : ¬ (-2 ^ 63 ≤ n ∧ n ≤ 2 ^ 63 - 1)) :
    Exact n operation (.error (.integerOverflow operation))

theorem exact_checked (operation : String) (n : Int) :
    Exact n operation (checked operation n) := by
  unfold checked
  split
  · next w found =>
    have value := Integer.toInt_of_word? found
    exact .result w (Integer.fits_iff.mp (value ▸ Integer.fits_toInt w)) value
  · next none => exact .overflow (Integer.word?_eq_none_iff.mp none)

theorem checked_of_fits {n : Int} (fits : Integer.Fits n) (operation : String) :
    ∃ w : Int64, w.toInt = n ∧ checked operation n = .ok (.int w) := by
  have found : Integer.word? n = some (Int64.ofInt n) := if_pos fits
  exact ⟨_, Integer.toInt_of_word? found, by rw [checked, found]⟩

theorem checked_of_not_fits {n : Int} (outside : ¬ Integer.Fits n) (operation : String) :
    checked operation n = .error (.integerOverflow operation) := by
  rw [checked, Integer.word?_eq_none_iff.mpr outside]

/-- How the outcome of a division is decided. -/
theorem division_eq (op : Operator) (a b : Int64) (result : Int → Int → Int) :
    op.division [.int a, .int b] result =
      if b.toInt = 0 then .error (.divisionByZero (op.operation a b))
      else if a.toInt = -2 ^ 63 ∧ b.toInt = -1 then .error (.integerOverflow (op.operation a b))
      else checked (op.operation a b) (result a.toInt b.toInt) := by
  have zero : b = 0 ↔ b.toInt = 0 := Int64.toInt_inj.symm
  have quotient := Integer.fits_tdiv_iff (b := b.toInt) (Integer.fits_toInt a)
  rw [division, integers, ok_bind]
  simp only [zero]
  by_cases large : a.toInt = -2 ^ 63 ∧ b.toInt = -1
  · have outside := mt quotient.mp (not_not_intro large)
    rw [if_pos large, checked_of_not_fits outside, error_bind]
  · obtain ⟨w, -, fits⟩ := checked_of_fits (quotient.mpr large) (op.operation a b)
    rw [if_neg large, fits, ok_bind]

/-- A division fails for zero and for one quotient, whichever of its two results is wanted. -/
theorem division_outcome (op : Operator) (a b : Int64) {result : Int → Int → Int}
    (fits : ¬ (a.toInt = -2 ^ 63 ∧ b.toInt = -1) → Integer.Fits (result a.toInt b.toInt)) :
    (op.division [.int a, .int b] result = .error (.divisionByZero (op.operation a b)) ↔
      b.toInt = 0) ∧
    (op.division [.int a, .int b] result = .error (.integerOverflow (op.operation a b)) ↔
      a.toInt = -2 ^ 63 ∧ b.toInt = -1) ∧
    (b.toInt ≠ 0 → ¬ (a.toInt = -2 ^ 63 ∧ b.toInt = -1) →
      ∃ w : Int64, w.toInt = result a.toInt b.toInt ∧
        op.division [.int a, .int b] result = .ok (.int w)) := by
  rw [division_eq]
  by_cases zero : b.toInt = 0
  · simp [zero]
  by_cases large : a.toInt = -2 ^ 63 ∧ b.toInt = -1
  · simp [large]
  · obtain ⟨w, value, hw⟩ := checked_of_fits (fits large) (op.operation a b)
    rw [if_neg zero, if_neg large, hw]
    exact ⟨⟨nofun, fun h => absurd h zero⟩, ⟨nofun, fun h => absurd h large⟩,
      fun _ _ => ⟨w, value, rfl⟩⟩

/-- In the machine the operands of arithmetic are just reduced. -/
theorem applyOperator_int (h : Heap) (source : Expr) (a b : Int64) :
    (∀ op ∈ [add, sub, mul, div, mod],
      h.applyOperator source op [.int a, .int b] = op.reduce [.int a, .int b]) ∧
    h.applyOperator source neg [.int a] = neg.reduce [.int a] := by
  have two : [Value.int a, .int b].mapM h.valueType = .ok [.int, .int] := rfl
  have one : [Value.int a].mapM h.valueType = .ok [.int] := rfl
  refine ⟨fun op arithmetic => ?_, applyOperator_of_resultType one rfl rfl⟩
  simp only [List.mem_cons, List.not_mem_nil, or_false] at arithmetic
  obtain rfl | rfl | rfl | rfl | rfl := arithmetic <;>
    exact applyOperator_of_resultType two rfl rfl

/-- Arithmetic on words is exact, or an error says why not. Sum, difference, product and negation
overflow exactly if no word holds the result. Quotient and remainder are those of a division that
rounds toward zero; both fail for the divisor zero, and both overflow for the least word by minus
one. An error names the operation with its operands. -/
theorem arithmetic_exact (a b : Int64) :
    let text (symbol : String) : String :=
      Integer.decimal a ++ " " ++ symbol ++ " " ++ Integer.decimal b
    Exact (a.toInt + b.toInt) (text "+") (add.reduce [.int a, .int b]) ∧
    Exact (a.toInt - b.toInt) (text "-") (sub.reduce [.int a, .int b]) ∧
    Exact (a.toInt * b.toInt) (text "*") (mul.reduce [.int a, .int b]) ∧
    Exact (-a.toInt) ("-" ++ Integer.decimal a) (neg.reduce [.int a]) ∧
    (div.reduce [.int a, .int b] = .error (.divisionByZero (text "/")) ↔ b.toInt = 0) ∧
    (mod.reduce [.int a, .int b] = .error (.divisionByZero (text "%")) ↔ b.toInt = 0) ∧
    (div.reduce [.int a, .int b] = .error (.integerOverflow (text "/")) ↔
      a.toInt = -2 ^ 63 ∧ b.toInt = -1) ∧
    (mod.reduce [.int a, .int b] = .error (.integerOverflow (text "%")) ↔
      a.toInt = -2 ^ 63 ∧ b.toInt = -1) ∧
    (b.toInt ≠ 0 → ¬ (a.toInt = -2 ^ 63 ∧ b.toInt = -1) →
      ∃ q r : Int64, div.reduce [.int a, .int b] = .ok (.int q) ∧
        mod.reduce [.int a, .int b] = .ok (.int r) ∧
        Truncated a.toInt b.toInt q.toInt r.toInt) ∧
    (∀ (h : Heap) (source : Expr),
      (∀ op ∈ [add, sub, mul, div, mod],
        h.applyOperator source op [.int a, .int b] = op.reduce [.int a, .int b]) ∧
      h.applyOperator source neg [.int a] = neg.reduce [.int a]) ∧
    ∀ operation : String,
      (Error.integerOverflow operation).message = "Integer overflow in " ++ operation ∧
      (Error.divisionByZero operation).message = "Division by zero in " ++ operation := by
  obtain ⟨divZero, divLarge, quotient⟩ := division_outcome div a b
    (Integer.fits_tdiv_iff (Integer.fits_toInt a)).mpr
  obtain ⟨modZero, modLarge, remainder⟩ := division_outcome mod a b
    fun _ => Integer.fits_tmod (Integer.fits_toInt a) b.toInt
  refine ⟨exact_checked _ _, exact_checked _ _, exact_checked _ _, exact_checked _ _,
    divZero, modZero, divLarge, modLarge, fun zero large => ?_,
    fun h source => applyOperator_int h source a b, fun operation => ⟨rfl, rfl⟩⟩
  obtain ⟨q, hq, hdiv⟩ := quotient zero large
  obtain ⟨r, hr, hmod⟩ := remainder zero large
  refine ⟨q, r, hdiv, hmod, ?_⟩
  rw [hq, hr]
  exact truncated_tdiv_tmod a.toInt zero

/-- The least word can be divided by two, but not by minus one. -/
theorem arithmetic_exact_least :
    let least : Int64 := .ofInt Integer.least
    (∃ q r : Int64, div.reduce [.int least, .int 2] = .ok (.int q) ∧
      mod.reduce [.int least, .int 2] = .ok (.int r) ∧ Truncated (-2 ^ 63) 2 q.toInt r.toInt) ∧
    mod.reduce [.int least, .int (-1)] =
      .error (.integerOverflow "-9223372036854775808 % -1") ∧
    Heap.empty.applyOperator .self mul [.int least, .int (-1)] =
      .error (.integerOverflow "-9223372036854775808 * -1") := by
  intro least
  obtain ⟨-, -, -, -, -, -, -, -, divides, -⟩ := arithmetic_exact least 2
  obtain ⟨-, -, product, -, -, -, -, overflow, -, machine, -⟩ := arithmetic_exact least (-1)
  refine ⟨divides (by decide) (by decide), ?_, ?_⟩
  · rw [overflow.mpr ⟨rfl, rfl⟩]
    rfl
  · rw [(machine .empty .self).1 mul (by simp)]
    cases product with
    | overflow outside => rfl

end Operator

end Microstep
