import Microstep.Error

/-!
# Sequences of steps that may fail

What `do` means for steps that end in a value or in an error. `bind_eq_ok_iff` and
`bind_eq_error_iff` take a sequence apart: it has a value if both parts have one, and it fails with
the error of the first part that fails.
-/

namespace Microstep

variable {ε α β : Type}

@[simp]
theorem ok_bind (a : α) (f : α → Except ε β) : ((.ok a : Except ε α) >>= f) = f a := rfl

@[simp]
theorem error_bind (e : ε) (f : α → Except ε β) : ((.error e : Except ε α) >>= f) = .error e := rfl

@[simp]
theorem pure_eq_ok (a : α) : (pure a : Except ε α) = .ok a := rfl

@[simp]
theorem bind_eq_ok_iff {x : Except ε α} {f : α → Except ε β} {b : β} :
    (x >>= f) = .ok b ↔ ∃ a, x = .ok a ∧ f a = .ok b := by
  cases x <;> simp

theorem toOption_eq_some_iff {x : Except ε α} {a : α} : x.toOption = some a ↔ x = .ok a := by
  cases x <;> simp [Except.toOption]

theorem ne_error_of_ok {x : Except ε α} {e : ε} (h : ∃ a, x = .ok a) : x ≠ .error e := by
  obtain ⟨a, rfl⟩ := h
  exact nofun

theorem bind_eq_error_iff {x : Except ε α} {f : α → Except ε β} {e : ε} :
    (x >>= f) = .error e ↔ x = .error e ∨ ∃ a, x = .ok a ∧ f a = .error e := by
  cases x <;> simp

/-- Of two computations that fail alike one has a value if the other has. -/
theorem exists_ok_iff {x : Except ε α} {y : Except ε β}
    (alike : ∀ e, x = .error e ↔ y = .error e) : (∃ a, x = .ok a) ↔ ∃ b, y = .ok b := by
  cases x <;> cases y <;> simp_all

end Microstep
