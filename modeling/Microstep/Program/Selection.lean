import Microstep.Program

/-!
# Selection

Which method a call finds on its way up an ancestry, said of the declarations in it and not of how
they are looked up.

* `TypeDef.Declares`: a type declares a method;
* `Selects`: what is found among types, nearest first, or why nothing is.
-/

namespace Microstep

/-- The type itself declares the method, under the given name. -/
def TypeDef.Declares (t : TypeDef) (name : String) (m : MethodDef) : Prop :=
  m ∈ t.methods ∧ m.name = name

/-- What a call of `method` with `arity` arguments finds on an object of type `type`, whose ancestry
is `types`. -/
inductive Selects (types : List TypeDef) (type method : String) (arity : Nat) :
    Except Error Implementation → Prop
  /-- The nearest declaration with as many parameters as there are arguments. -/
  | found {nearer farther : List TypeDef} {t : TypeDef} {m : MethodDef}
      (split : types = nearer ++ t :: farther) (declares : t.Declares method m)
      (fits : m.arity = arity)
      (nearest : ∀ u ∈ nearer, ∀ other, u.Declares method other → other.arity ≠ arity) :
      Selects types type method arity (.ok ⟨t, m⟩)
  /-- No declaration has as many; the nearest one tells how many it has. -/
  | mismatch {nearer farther : List TypeDef} {t : TypeDef} {m : MethodDef}
      (split : types = nearer ++ t :: farther) (declares : t.Declares method m)
      (nearest : ∀ u ∈ nearer, ∀ other, ¬ u.Declares method other)
      (unfit : ∀ u ∈ types, ∀ other, u.Declares method other → other.arity ≠ arity) :
      Selects types type method arity (.error (.argumentCountMismatch t.name method m.arity arity))
  /-- There is no declaration. -/
  | missing (none : ∀ u ∈ types, ∀ other, ¬ u.Declares method other) :
      Selects types type method arity (.error (.missingMethod type method arity))

end Microstep
