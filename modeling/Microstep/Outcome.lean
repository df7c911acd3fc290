import Microstep.Error

/-!
# Outcomes

The result of an evaluation that may also not come to an end within its fuel.
-/

namespace Microstep

/-- A value, an error, or no answer yet. -/
inductive Outcome (α : Type) where
  | done (value : α)
  | failed (error : Error)
  | unfinished
deriving DecidableEq

namespace Outcome

/-- Goes on with a value. -/
def bind {α β : Type} (x : Outcome α) (f : α → Outcome β) : Outcome β :=
  match x with
  | .done value => f value
  | .failed error => .failed error
  | .unfinished => .unfinished

instance : Monad Outcome where
  pure := .done
  bind := bind

/-- An answer that needs no fuel. -/
def ofExcept {α : Type} : Except Error α → Outcome α
  | .ok value => .done value
  | .error error => .failed error

instance : MonadLift (Except Error) Outcome := ⟨ofExcept⟩

@[simp]
theorem done_bind {α β : Type} (value : α) (f : α → Outcome β) :
    (Outcome.done value >>= f) = f value := rfl

@[simp]
theorem failed_bind {α β : Type} (error : Error) (f : α → Outcome β) :
    (Outcome.failed error >>= f) = .failed error := rfl

@[simp]
theorem unfinished_bind {α β : Type} (f : α → Outcome β) :
    ((Outcome.unfinished : Outcome α) >>= f) = .unfinished := rfl

@[simp]
theorem pure_eq_done {α : Type} (value : α) : (pure value : Outcome α) = .done value := rfl

@[simp]
theorem ofExcept_ok {α : Type} (value : α) : ofExcept (.ok value) = .done value := rfl

@[simp]
theorem ofExcept_error {α : Type} (error : Error) :
    ofExcept (.error error : Except Error α) = .failed error := rfl

end Outcome

end Microstep
