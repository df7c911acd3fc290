/-!
# 64-bit integers

Signed 64-bit words. Arithmetic on them is done on the mathematical integers; a word is made of the
result only if it fits. `toInt_of_word?` and `word?_toInt` say that words and the integers that fit
are the same.
-/

namespace Microstep.Integer

/-- The least integer that a word holds. -/
def least : Int := -9223372036854775808

/-- The greatest integer that a word holds. -/
def greatest : Int := 9223372036854775807

/-- Whether a word holds `n`. -/
def Fits (n : Int) : Prop := least ≤ n ∧ n ≤ greatest

instance : DecidablePred Fits := fun n => inferInstanceAs (Decidable (least ≤ n ∧ n ≤ greatest))

/-- The word that holds `n`, if there is one. -/
def word? (n : Int) : Option Int64 := if Fits n then some (Int64.ofInt n) else none

/-- A word in decimal. -/
def decimal (n : Int64) : String := toString n.toInt

theorem fits_toInt (w : Int64) : Fits w.toInt := by
  have := w.le_toInt
  have := w.toInt_lt
  unfold Fits least greatest
  omega

@[simp]
theorem word?_toInt (w : Int64) : word? w.toInt = some w := by
  simp [word?, fits_toInt]

theorem toInt_of_word? {n : Int} {w : Int64} (h : word? n = some w) : w.toInt = n := by
  unfold word? at h
  split at h
  · next fits =>
    obtain rfl := Option.some.inj h
    unfold Fits least greatest at fits
    exact Int64.toInt_ofInt_of_le (by omega) (by omega)
  · contradiction

theorem word?_eq_none_iff {n : Int} : word? n = none ↔ ¬ Fits n := by
  simp [word?]

end Microstep.Integer
