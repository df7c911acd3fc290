import Microstep.Proofs.Readiness

/-!
# The values of nodes

The node that is due has values for all its operands. Unless it is a call, what it comes to depends
on these values, on the variables and on the heap, and on nothing else of the state.

* `Expr.result`: the value of a node, given those of its operands;
* `Frame.Gains`: an activation with the value of one more node;
* `State.fire_value`, `State.fire_call`: the step of a due node;
* `State.Fires`, `State.fire_cases`: what the step of a due node can change.
-/

namespace Microstep

/-- The value of a node whose operands have the given values, and the heap after it. The value of a
call comes from another activation. -/
def Expr.result (p : Program) (scope : Scope) (h : Heap) (e : Expr) (values : List Value) :
    Except Error (Value × Heap) :=
  match e, values with
  | .var name, _ => do return (← scope.read name, h)
  | .self, _ => .ok (.ref scope.self, h)
  | .field receiver name, v :: _ => do
    let a ← v.address (.field receiver name)
    return (← h.read a name, h)
  | .apply op operands, _ => do return (← h.applyOperator (.apply op operands) op values, h)
  | .new type, _ => do
    let o ← p.instantiate type
    return (.ref (h.allocate o).1, (h.allocate o).2)
  | e, _ => .error (.protocolViolation e.text)

/-- Whether the value of a node comes from another activation. -/
def Expr.isCall : Expr → Bool
  | .call .. => true
  | _ => false

/-- Only the creation of an object changes the heap. -/
theorem Expr.result_eq_ok {p : Program} {scope : Scope} {h h' : Heap} {e : Expr}
    {values : List Value} {v : Value} (hr : e.result p scope h values = .ok (v, h')) :
    h' = h ∨ ∃ type o, e = .new type ∧ p.instantiate type = .ok o ∧
      v = .ref (h.allocate o).1 ∧ h' = (h.allocate o).2 := by
  cases e with
  | const | call => cases hr
  | self =>
    cases hr
    exact .inl rfl
  | var | apply =>
    obtain ⟨v, -, hr⟩ := bind_eq_ok_iff.mp hr
    cases hr
    exact .inl rfl
  | field receiver name =>
    cases values with
    | nil => cases hr
    | cons v vs =>
      obtain ⟨a, -, hr⟩ := bind_eq_ok_iff.mp hr
      obtain ⟨v, -, hr⟩ := bind_eq_ok_iff.mp hr
      cases hr
      exact .inl rfl
  | new type =>
    obtain ⟨o, ho, hr⟩ := bind_eq_ok_iff.mp hr
    cases hr
    exact .inr ⟨type, o, rfl, ho, rfl, rfl⟩

/-- `g` is `f` with the value `v` for one more node, of which nothing was known. -/
structure Frame.Gains (f : Frame) (site : Site) (v : Value) (g : Frame) : Prop where
  unknown : f.pending[site]? = none
  eq : g = { f with pending := f.pending.insert site v }

theorem Frame.gains_record {f : Frame} {site : Site} (unknown : f.pending[site]? = none)
    (v : Value) : f.Gains site v (f.record site v) := ⟨unknown, rfl⟩

theorem Memory.record_eq {m : Memory} {f : Frame} {rest : List Frame} (hm : m.stack = f :: rest)
    (site : Site) (v : Value) : m.record site v = .ok ⟨m.heap, f.record site v :: rest⟩ := by
  simp [record, modifyTop, hm]

namespace State

variable {p : Program} {s s' : State} {f : Frame} {rest : List Frame} {r : Redex}

theorem record_eq (hs : s.memory.stack = f :: rest) (path : ExprPath) (v : Value) :
    s.record path v =
      .ok { s with memory := ⟨s.memory.heap, f.record (s.site path) v :: rest⟩ } := by
  simp [record, Memory.record_eq hs]

/-- The step of a node that is no call keeps its value. -/
theorem fire_value (hs : s.memory.stack = f :: rest) (hconst : r.source.isConst = false)
    (hcall : r.source.isCall = false) (hlen : r.values.length = r.source.children.length) :
    s.fire p r = r.source.result p f.toScope s.memory.heap r.values >>= fun (v, h) =>
      .ok { s with memory := ⟨h, f.record (s.site r.path) v :: rest⟩ } := by
  obtain ⟨path, source, values⟩ := r
  cases source with
  | const v => cases hconst
  | call receiver method args => cases hcall
  | var name =>
    simp only [fire, reduce, Expr.result, Memory.read, Memory.top, hs, ok_bind, bind_assoc]
    cases f.toScope.read name <;> simp [record_eq hs]
  | self => simp [fire, reduce, Expr.result, Memory.top, hs, record_eq hs]
  | field receiver name =>
    cases values with
    | nil => cases hlen
    | cons v vs =>
      simp only [fire, reduce, Expr.result, Memory.read]
      cases v.address (.field receiver name) with
      | error e => rfl
      | ok a =>
        simp only [ok_bind]
        cases s.memory.heap.read a name <;> simp [record_eq hs]
  | apply op operands =>
    simp only [fire, reduce, Expr.result]
    cases s.memory.heap.applyOperator (.apply op operands) op values <;> simp [record_eq hs]
  | new type =>
    simp only [fire, reduce, Expr.result]
    cases p.instantiate type with
    | error e => rfl
    | ok o => exact record_eq (s := { s with memory := (s.memory.allocate o).2 }) hs _ _

/-- A due call has a value for its receiver. -/
theorem call_of_isCall (hcall : r.source.isCall = true)
    (hlen : r.values.length = r.source.children.length) :
    ∃ receiver method args v vs, r.source = .call receiver method args ∧ r.values = v :: vs := by
  obtain ⟨path, source, values⟩ := r
  cases source with
  | call receiver method args =>
    cases values with
    | nil => cases hlen
    | cons v vs => exact ⟨receiver, method, args, v, vs, rfl, rfl⟩
  | _ => cases hcall

/-- The step of a call starts an activation of the method that the receiver's object selects. -/
theorem fire_call {receiver : Expr} {method : String} {args : List Expr} {v : Value}
    {vs : List Value} (source : r.source = .call receiver method args)
    (values : r.values = v :: vs) :
    s.fire p r = do
      let a ← v.address r.source
      let type ← s.memory.heap.typeOf a
      let found ← p.dispatch type method vs.length
      return { s with
        memory := s.memory.push (.enter ((Scope.empty a).bindAll found.method.params vs) method
          (some (s.site r.path)) type)
        position := .entry found.owner.name method
        cursor := [] } := by
  rw [fire, source, values]
  rfl

/-- The state after the node `r` of `s` has been evaluated; `f` is the running activation. -/
inductive Fires (p : Program) (s : State) (f : Frame) (rest : List Frame) (r : Redex) :
    State → Prop
  /-- A value is kept. -/
  | value (v : Value) (source : r.source.isCall = false) :
    Fires p s f rest r
      { s with memory := ⟨s.memory.heap, f.record (s.site r.path) v :: rest⟩ }
  /-- A new object is put on the heap, and its address is kept. -/
  | object {type : String} {o : Object} (source : r.source = .new type)
      (fresh : p.instantiate type = .ok o) :
    Fires p s f rest r
      { s with memory := ⟨(s.memory.heap.allocate o).2,
          f.record (s.site r.path) (.ref (s.memory.heap.allocate o).1) :: rest⟩ }
  /-- An activation is started, whose result will be the value. -/
  | call {receiver : Expr} {method : String} {args : List Expr} {a : Address} {vs : List Value}
      {type : String} {found : Implementation} (source : r.source = .call receiver method args)
      (values : r.values = .ref a :: vs) (typeOf : s.memory.heap.typeOf a = .ok type)
      (dispatch : p.dispatch type method vs.length = .ok found) :
    Fires p s f rest r
      { s with
        memory := s.memory.push (.enter ((Scope.empty a).bindAll found.method.params vs) method
          (some (s.site r.path)) type)
        position := .entry found.owner.name method
        cursor := [] }

theorem address_eq_ok {v : Value} {e : Expr} {a : Address} (h : v.address e = .ok a) :
    v = .ref a := by
  cases v <;> simp_all [Value.address]

theorem fire_cases (hs : s.memory.stack = f :: rest) (hconst : r.source.isConst = false)
    (hlen : r.values.length = r.source.children.length) (h : s.fire p r = .ok s') :
    Fires p s f rest r s' := by
  cases hcall : r.source.isCall with
  | false =>
    rw [fire_value hs hconst hcall hlen] at h
    obtain ⟨⟨v, heap⟩, hv, h⟩ := bind_eq_ok_iff.mp h
    cases h
    obtain rfl | ⟨type, o, source, fresh, rfl, rfl⟩ := Expr.result_eq_ok hv
    · exact .value v hcall
    · exact .object source fresh
  | true =>
    obtain ⟨receiver, method, args, v, vs, source, values⟩ := call_of_isCall hcall hlen
    rw [fire_call source values] at h
    obtain ⟨a, ha, h⟩ := bind_eq_ok_iff.mp h
    obtain ⟨type, typeOf, h⟩ := bind_eq_ok_iff.mp h
    obtain ⟨found, dispatch, h⟩ := bind_eq_ok_iff.mp h
    cases h
    obtain rfl := address_eq_ok ha
    exact .call source values typeOf dispatch

end State

end Microstep
