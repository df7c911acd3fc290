import Mathlib.Data.List.Forall2
import Microstep.Operand
import Microstep.Proofs.Bind

/-!
# Operators and the types of their operands

Of an operator the type of the result and the result itself are given apart. The two agree: on
operands of types that are taken there is a result of the type that was promised, or none that fits
or is defined, and on all others the reduction is a misuse. So the check of the operands leaves an
operator nothing else to complain about.

* `Value.HasType`, `Operator.Agrees`: types of values, and a result that has the promised type;
* `Operator.reduce_agrees`: the reduction of an operator agrees with its type;
* `Operator.reduce_error`: what an operator can still fail with after the check;
* `Operator.application_typed`: the application of an operator to any operands.
-/

namespace Microstep

theorem pair_of_length {α : Type} {xs : List α} (h : xs.length = 2) : ∃ a b, xs = [a, b] := by
  match xs, h with
  | [a, b], _ => exact ⟨a, b, rfl⟩

theorem single_of_length {α : Type} {xs : List α} (h : xs.length = 1) : ∃ a, xs = [a] := by
  match xs, h with
  | [a], _ => exact ⟨a, rfl⟩

/-- The value is of the type. A reference may be of any object type, which only the heap decides. -/
inductive Value.HasType : Value → ValueType → Prop
  | bool (b : Bool) : HasType (.bool b) .bool
  | int (n : Int64) : HasType (.int n) .int
  | str (s : String) : HasType (.str s) .string
  | null : HasType .null .null
  | ref (a : Address) (type : String) : HasType (.ref a) (.object type)

namespace Heap

variable {h : Heap} {v : Value} {vs : List Value} {types : List ValueType} {type : ValueType}

theorem hasType_of_valueType (hv : h.valueType v = .ok type) : v.HasType type := by
  cases v with
  | ref a =>
    obtain ⟨name, -, hv⟩ := bind_eq_ok_iff.mp hv
    cases hv
    exact .ref a name
  | bool b => cases hv; exact .bool b
  | int n => cases hv; exact .int n
  | str s => cases hv; exact .str s
  | null => cases hv; exact .null

theorem valueType_of_hasType (hv : v.HasType type) (plain : ∀ name, type ≠ .object name) :
    h.valueType v = .ok type := by
  cases hv with
  | ref a name => exact absurd rfl (plain name)
  | bool | int | str | null => rfl

theorem hasTypes_of_mapM (hm : vs.mapM h.valueType = .ok types) :
    List.Forall₂ Value.HasType vs types := by
  induction vs generalizing types with
  | nil => cases hm; exact .nil
  | cons v vs ih =>
    rw [List.mapM_cons] at hm
    obtain ⟨t, hv, hm⟩ := bind_eq_ok_iff.mp hm
    obtain ⟨ts, hvs, hm⟩ := bind_eq_ok_iff.mp hm
    cases hm
    exact .cons (hasType_of_valueType hv) (ih hvs)

/-- Values have types unless a reference dangles. -/
theorem exists_mapM_valueType (allocated : ∀ a, .ref a ∈ vs → ∃ o, h.get a = .ok o) :
    ∃ types, vs.mapM h.valueType = .ok types := by
  induction vs with
  | nil => exact ⟨[], rfl⟩
  | cons v vs ih =>
    obtain ⟨ts, hvs⟩ := ih fun a ha => allocated a (List.mem_cons_of_mem v ha)
    obtain ⟨t, hv⟩ : ∃ t, h.valueType v = .ok t := by
      cases v with
      | ref a =>
        obtain ⟨o, ho⟩ := allocated a List.mem_cons_self
        exact ⟨.object o.type, by simp [valueType, typeOf, ho]⟩
      | bool | int | str | null => exact ⟨_, rfl⟩
    exact ⟨t :: ts, by simp [List.mapM_cons, hv, hvs]⟩

theorem checkOperands_eq_ok {source : Expr} {op : Operator}
    (hc : h.checkOperands source op vs = .ok ()) :
    vs.length = op.arity ∧
      ∃ types, vs.mapM h.valueType = .ok types ∧ (op.resultType types).isSome := by
  rw [checkOperands] at hc
  split at hc
  · cases hc
  · rename_i hlen
    obtain ⟨types, hm, hc⟩ := bind_eq_ok_iff.mp hc
    refine ⟨by omega, types, hm, ?_⟩
    split at hc
    · rename_i ht
      rw [ht]
      rfl
    · cases hc

end Heap

namespace Operator

variable {op : Operator} {vs : List Value} {types : List ValueType} {type : ValueType} {e : Error}

/-- The errors of operations that have no result, or none that fits. -/
inductive Undefined : Error → Prop
  | overflow (operation : String) : Undefined (.integerOverflow operation)
  | zero (operation : String) : Undefined (.divisionByZero operation)

/-- The reduction keeps to the type of the result: operands are refused by both or by none. -/
inductive Agrees : Option ValueType → Except Error Value → Prop
  | typed {type : ValueType} {v : Value} (hasType : v.HasType type) : Agrees (some type) (.ok v)
  | undefined {type : ValueType} {e : Error} (undefined : Undefined e) :
    Agrees (some type) (.error e)
  | refused (message : String) : Agrees none (.error (.protocolViolation message))

/-! ## Reading operands -/

/-- Operands are read if their types pass a test, and it is a misuse to read others. -/
inductive Reads {α : Type} : Bool → Except Error α → Prop
  | read (a : α) : Reads true (.ok a)
  | refused (message : String) : Reads false (.error (.protocolViolation message))

theorem Reads.map {α β : Type} {test : Bool} {x : Except Error α} (reads : Reads test x)
    (f : α → β) : Reads test (x >>= fun a => pure (f a)) := by
  cases reads with
  | read a => exact .read (f a)
  | refused message => exact .refused message

/-- A reduction that starts by reading its operands agrees with a type that has the same test. -/
theorem Reads.agrees {α : Type} {test : Bool} {x : Except Error α} {f : α → Except Error Value}
    (reads : Reads test x) (result : ∀ a, Agrees (some type) (f a)) :
    Agrees (if test then some type else none) (x >>= f) := by
  cases reads with
  | read a => exact result a
  | refused message => exact .refused message

theorem integers_reads (count : vs.length = 2) (typed : List.Forall₂ Value.HasType vs types) :
    Reads (types.all (· = .int)) (integers vs) := by
  obtain ⟨a, b, rfl⟩ := pair_of_length count
  obtain _ | ⟨ha, _ | ⟨hb, _ | _⟩⟩ := typed
  cases ha with
  | int m =>
    cases hb with
    | int n => exact .read (m, n)
    | bool | str | null | ref => exact .refused _
  | bool | str | null | ref => exact .refused _

theorem booleans_reads (typed : List.Forall₂ Value.HasType vs types) :
    Reads (types.all (· = .bool)) (booleans vs) := by
  induction typed with
  | nil => exact .read []
  | cons hv typed ih =>
    cases hv with
    | bool b => exact ih.map (b :: ·)
    | int | str | null | ref => exact .refused _

/-! ## Results -/

theorem Agrees.undefined_of_error (h : Agrees (some type) (.error e)) : Undefined e := by
  cases h with
  | undefined undefined => exact undefined

theorem checked_agrees (operation : String) (n : Int) :
    Agrees (some .int) (checked operation n) := by
  unfold checked
  split
  · exact .typed (.int _)
  · exact .undefined (.overflow operation)

theorem comparison_agrees (count : vs.length = 2) (typed : List.Forall₂ Value.HasType vs types)
    (test : Int64 → Int64 → Bool) :
    Agrees (if types.all (· = .int) then some .bool else none) (comparison vs test) :=
  (integers_reads count typed).agrees fun (a, b) => .typed (.bool (test a b))

theorem total_agrees (op : Operator) (count : vs.length = 2)
    (typed : List.Forall₂ Value.HasType vs types) (result : Int → Int → Int) :
    Agrees (if types.all (· = .int) then some .int else none) (op.total vs result) :=
  (integers_reads count typed).agrees fun (_, _) => checked_agrees _ _

/-- A remainder fails as the quotient does. -/
theorem division_agrees (op : Operator) (count : vs.length = 2)
    (typed : List.Forall₂ Value.HasType vs types) (result : Int → Int → Int) :
    Agrees (if types.all (· = .int) then some .int else none) (op.division vs result) := by
  refine (integers_reads count typed).agrees fun (a, b) => ?_
  dsimp only
  split
  · exact .undefined (.zero _)
  · have quotient := checked_agrees (op.operation a b) (a.toInt.tdiv b.toInt)
    cases hq : checked (op.operation a b) (a.toInt.tdiv b.toInt) with
    | ok v => exact checked_agrees _ _
    | error e => exact .undefined (hq ▸ quotient).undefined_of_error

/-- A sum with a string is a string, and every value has a text. -/
theorem add_agrees (count : vs.length = 2) (typed : List.Forall₂ Value.HasType vs types) :
    Agrees (add.resultType types) (add.reduce vs) := by
  have sum := total_agrees add count typed (· + ·)
  obtain ⟨a, b, rfl⟩ := pair_of_length count
  obtain _ | ⟨ha, _ | ⟨hb, _ | _⟩⟩ := typed
  cases ha with
  | str s => exact .typed (.str _)
  | bool | int | null | ref =>
    cases hb with
    | str s => exact .typed (.str _)
    | bool | int | null | ref => exact sum

/-- On operands of given types the reduction keeps to the type of the result. -/
theorem reduce_agrees (count : vs.length = op.arity)
    (typed : List.Forall₂ Value.HasType vs types) :
    Agrees (op.resultType types) (op.reduce vs) := by
  cases op with
  | eq | ne =>
    obtain ⟨a, b, rfl⟩ := pair_of_length count
    exact .typed (.bool _)
  | lt | le | gt | ge =>
    rw [reduce]
    exact comparison_agrees count typed _
  | add => exact add_agrees count typed
  | sub | mul => exact total_agrees _ count typed _
  | div | mod => exact division_agrees _ count typed _
  | and | or => exact (booleans_reads typed).agrees fun bs => .typed (.bool _)
  | not =>
    obtain ⟨a, rfl⟩ := single_of_length count
    obtain _ | ⟨ha, _ | _⟩ := typed
    cases ha with
    | bool b => exact .typed (.bool _)
    | int | str | null | ref => exact .refused _
  | neg =>
    obtain ⟨a, rfl⟩ := single_of_length count
    obtain _ | ⟨ha, _ | _⟩ := typed
    cases ha with
    | int n => exact checked_agrees _ _
    | bool | str | null | ref => exact .refused _

theorem resultType_ne_object (ht : op.resultType types = some type) (name : String) :
    type ≠ .object name := by
  rintro rfl
  cases op with
  | add =>
    simp only [resultType] at ht
    split at ht
    · cases ht
    · split at ht <;> cases ht
  | _ => simp [resultType] at ht

/-! ## Applications -/

variable {h : Heap} {source : Expr}

/-- On operands that it takes, an operator fails only if it has no result for them. -/
theorem reduce_error (hc : h.checkOperands source op vs = .ok ()) (hr : op.reduce vs = .error e) :
    Undefined e := by
  obtain ⟨count, types, hm, ht⟩ := Heap.checkOperands_eq_ok hc
  obtain ⟨type, ht⟩ := Option.isSome_iff_exists.mp ht
  have agrees := reduce_agrees count (Heap.hasTypes_of_mapM hm)
  rw [ht, hr] at agrees
  exact agrees.undefined_of_error

/-- Operands are refused for their number or for their types. -/
theorem applyOperator_of_refused (hm : vs.mapM h.valueType = .ok types)
    (refused : vs.length ≠ op.arity ∨ op.resultType types = none) :
    ∃ expected got, h.applyOperator source op vs =
      .error (.typeError expected got source.text) := by
  rw [Heap.applyOperator, Heap.checkOperands]
  by_cases count : vs.length = op.arity
  · have ht := refused.resolve_left (not_not_intro count)
    simp [count, hm, ht]
  · simp [count]

/-- Operands that are taken are reduced. -/
theorem applyOperator_of_resultType (hm : vs.mapM h.valueType = .ok types)
    (count : vs.length = op.arity) (ht : op.resultType types = some type) :
    h.applyOperator source op vs = op.reduce vs := by
  simp [Heap.applyOperator, Heap.checkOperands, count, hm, ht]

/-- The type of an operator's result and its reduction accept the same operands. On operands of
which none dangles, an application is a type error exactly if their number or their types are
refused; else it gives a value of the promised type, or the operation has no result that fits. -/
theorem application_typed (op : Operator) (vs : List Value) :
    (∀ types, vs.length = op.arity → List.Forall₂ Value.HasType vs types →
      Agrees (op.resultType types) (op.reduce vs)) ∧
    ∀ (h : Heap) (source : Expr), (∀ a, .ref a ∈ vs → ∃ o, h.get a = .ok o) →
      ∃ types, vs.mapM h.valueType = .ok types ∧ List.Forall₂ Value.HasType vs types ∧
        ((∃ expected got, h.applyOperator source op vs =
            .error (.typeError expected got source.text)) ↔
          vs.length ≠ op.arity ∨ op.resultType types = none) ∧
        ∀ type, vs.length = op.arity → op.resultType types = some type →
          (∃ v, h.applyOperator source op vs = .ok v ∧ h.valueType v = .ok type) ∨
            ∃ e, h.applyOperator source op vs = .error e ∧ Undefined e := by
  refine ⟨fun types count typed => reduce_agrees count typed, fun h source allocated => ?_⟩
  obtain ⟨types, hm⟩ := Heap.exists_mapM_valueType allocated
  have typed := Heap.hasTypes_of_mapM hm
  have outcome (type : ValueType) (count : vs.length = op.arity)
      (ht : op.resultType types = some type) :
      (∃ v, h.applyOperator source op vs = .ok v ∧ h.valueType v = .ok type) ∨
        ∃ e, h.applyOperator source op vs = .error e ∧ Undefined e := by
    have agrees := reduce_agrees count typed
    rw [applyOperator_of_resultType hm count ht]
    rw [ht] at agrees
    cases hr : op.reduce vs with
    | error e => exact .inr ⟨e, rfl, (hr ▸ agrees).undefined_of_error⟩
    | ok v =>
      rw [hr] at agrees
      cases agrees with
      | typed hasType =>
        exact .inl ⟨v, rfl, Heap.valueType_of_hasType hasType (resultType_ne_object ht)⟩
  refine ⟨types, hm, typed, ⟨fun ⟨expected, got, he⟩ => ?_, applyOperator_of_refused hm⟩, outcome⟩
  by_contra! taken
  obtain ⟨count, ht⟩ := taken
  obtain ⟨type, ht⟩ := Option.ne_none_iff_exists'.mp ht
  obtain ⟨v, hv, -⟩ | ⟨e, he', undefined⟩ := outcome type count ht
  · cases he.symm.trans hv
  · cases he.symm.trans he'
    cases undefined

/-- An object can be a part of a longer string, but it is not less than a number. -/
theorem application_typed_address :
    let h := (Heap.empty.allocate ⟨"Lamp", ∅⟩).2
    let sum : Expr := .apply .add [.self, .const (.str "!")]
    let order : Expr := .apply .lt [.self, .const (.int 1)]
    (∃ v, h.applyOperator sum .add [.ref ⟨0⟩, .str "!"] = .ok v ∧ h.valueType v = .ok .string) ∧
      (∃ expected got, h.applyOperator order .lt [.ref ⟨0⟩, .int 1] =
        .error (.typeError expected got order.text)) ∧
      Agrees (lt.resultType [.object "Lamp", .int]) (lt.reduce [.ref ⟨0⟩, .int 1]) := by
  intro h sum order
  have object (a : Address) (v : Value) (other : ∀ b, v ≠ .ref b)
      (ha : .ref a ∈ [.ref ⟨0⟩, v]) : ∃ o, h.get a = .ok o := by
    obtain ha | ha := List.mem_cons.mp ha
    · cases ha
      exact ⟨_, rfl⟩
    · exact absurd (List.mem_singleton.mp ha).symm (other a)
  obtain ⟨-, sums⟩ := application_typed .add [.ref ⟨0⟩, .str "!"]
  obtain ⟨types, hm, -, -, outcome⟩ := sums h sum fun a => object a _ nofun
  cases hm
  obtain ⟨agrees, orders⟩ := application_typed .lt [.ref ⟨0⟩, .int 1]
  obtain ⟨types, hm, -, refused, -⟩ := orders h order fun a => object a _ nofun
  cases hm
  refine ⟨?_, refused.mpr (.inr rfl), agrees _ rfl (.cons (.ref _ _) (.cons (.int _) .nil))⟩
  obtain found | ⟨e, he, -⟩ := outcome .string rfl rfl
  · exact found
  · cases he

end Operator

end Microstep
