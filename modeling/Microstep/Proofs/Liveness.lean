import Microstep.Proofs.Objects

/-!
# References to objects

A value is live if it refers to an object whenever it is a reference. Where all values are live, in
the fields of the objects and in an activation, what a node comes to is live, too, and no address is
looked up at which there is no object.

* `Value.Live`, `Heap.Closed`, `Frame.Closed`: values, heaps and activations without references to
  nothing;
* `Sound`: computations that keep to this, put together by `Sound.bind`;
* `Operator.sound_reduce`, `Expr.sound_result`: operators and nodes.
-/

namespace Microstep

/-- There is an object at the address. -/
def Heap.Allocated (h : Heap) (a : Address) : Prop := ∃ o, h.get a = .ok o

/-- A value that refers to an object, if it refers to anything. -/
def Value.Live (h : Heap) : Value → Prop
  | .ref a => h.Allocated a
  | _ => True

/-- All values of a map are live. -/
def AllLive {κ : Type} [Ord κ] [Std.TransOrd κ] (h : Heap) (values : Std.ExtTreeMap κ Value) :
    Prop :=
  ∀ (k : κ) (v : Value), values[k]? = some v → v.Live h

/-- Every reference in a field refers to an object. -/
def Heap.Closed (h : Heap) : Prop := ∀ a o, h.get a = .ok o → AllLive h o.fields

/-- Every reference of an activation refers to an object. -/
structure Frame.Closed (h : Heap) (f : Frame) : Prop where
  self : h.Allocated f.self
  locals : AllLive h f.locals
  pending : AllLive h f.pending

/-! ## Computations -/

/-- The computation has a value for which `post` holds, or it fails, but not because of an address
at which there is no object. -/
def Sound {α : Type} (post : α → Prop) : Except Error α → Prop
  | .ok a => post a
  | .error e => ∀ a, e ≠ .unknownAddress a

@[simp]
theorem sound_error {α : Type} {post : α → Prop} {e : Error} :
    Sound post (.error e) ↔ ∀ a, e ≠ .unknownAddress a := Iff.rfl

namespace Sound

variable {α β : Type} {mid post : α → Prop} {x : Except Error α}

/-- Two computations in sequence. -/
theorem bind {post : β → Prop} {k : α → Except Error β} (h : Sound mid x)
    (next : ∀ a, mid a → Sound post (k a)) : Sound post (x >>= k) := by
  cases x with
  | ok a => exact next a h
  | error e => exact h

theorem of_ok {a : α} (h : Sound post x) (hx : x = .ok a) : post a := by
  rw [hx] at h
  exact h

end Sound

/-! ## Heaps -/

namespace Heap

variable {h h' : Heap} {a : Address} {o : Object}

theorem allocated_iff_index_lt : h.Allocated a ↔ a.index < h.size := by
  refine ⟨fun ⟨o, ho⟩ => index_lt_of_get ho, fun lt => ?_⟩
  have known : h.objects[a.index]? = some h.objects[a.index] := Array.getElem?_eq_getElem lt
  exact ⟨h.objects[a.index], by rw [get, known]⟩

theorem allocated_iff_typeOf : h.Allocated a ↔ ∃ type, h.typeOf a = .ok type := by
  simp only [typeOf_eq_ok_iff]
  exact ⟨fun ⟨o, ho⟩ => ⟨o.type, o, ho, rfl⟩, fun ⟨_, o, ho, _⟩ => ⟨o, ho⟩⟩

theorem Allocated.grow (known : h.Allocated a) (grows : h.Grows h') : h'.Allocated a := by
  rw [allocated_iff_typeOf] at known ⊢
  obtain ⟨type, known⟩ := known
  exact ⟨type, grows a type known⟩

end Heap

theorem Value.Live.grow {h h' : Heap} {v : Value} (live : v.Live h) (grows : h.Grows h') :
    v.Live h' := by
  cases v with
  | ref a => exact Heap.Allocated.grow live grows
  | _ => trivial

namespace AllLive

variable {κ : Type} [Ord κ] [Std.TransOrd κ] {h h' : Heap} {values : Std.ExtTreeMap κ Value}

theorem empty : AllLive h (∅ : Std.ExtTreeMap κ Value) := by
  intro k v hv
  simp at hv

theorem insert {v : Value} (live : AllLive h values) (hv : v.Live h) (k : κ) :
    AllLive h (values.insert k v) := by
  intro k' w hw
  rw [Std.ExtTreeMap.getElem?_insert] at hw
  split at hw
  · cases hw
    exact hv
  · exact live k' w hw

theorem grow (live : AllLive h values) (grows : h.Grows h') : AllLive h' values :=
  fun k v hv => (live k v hv).grow grows

end AllLive

namespace Heap

variable {h h' : Heap} {a : Address} {name : String} {v : Value} {vs : List Value} {o : Object}

theorem sound_typeOf (known : h.Allocated a) : Sound (fun _ => True) (h.typeOf a) := by
  obtain ⟨type, known⟩ := allocated_iff_typeOf.mp known
  rw [known]
  trivial

theorem sound_read (closed : h.Closed) (known : h.Allocated a) (name : String) :
    Sound (·.Live h) (h.read a name) := by
  obtain ⟨o, ho⟩ := known
  rw [read, ho, ok_bind, Object.read]
  split
  · rename_i v hv
    exact closed a o ho name v hv
  · simp

theorem closed_write (closed : h.Closed) (live : v.Live h) (hw : h.write a name v = .ok h') :
    h'.Closed := by
  have grows := grows_write hw
  obtain ⟨o, ho, hget⟩ := get_write hw
  intro b u hu
  rw [hget] at hu
  split at hu
  · cases hu
    exact ((closed a o ho).insert live name).grow grows
  · exact (closed b u hu).grow grows

theorem sound_write (closed : h.Closed) (known : h.Allocated a) (live : v.Live h) (name : String) :
    Sound (fun h' => h'.Closed ∧ h.Grows h') (h.write a name v) := by
  cases hw : h.write a name v with
  | ok h' => exact ⟨closed_write closed live hw, grows_write hw⟩
  | error e =>
    obtain ⟨o, ho⟩ := known
    rw [write, ho, ok_bind, Object.write] at hw
    split at hw
    · cases hw
    · cases hw
      simp

theorem sound_valueType (live : v.Live h) : Sound (fun _ => True) (h.valueType v) := by
  cases v with
  | ref a => exact (sound_typeOf live).bind fun _ _ => trivial
  | _ => trivial

theorem sound_checkOperands (live : ∀ v ∈ vs, v.Live h) (source : Expr) (op : Operator) :
    Sound (fun _ => True) (h.checkOperands source op vs) := by
  have types : Sound (fun _ => True) (vs.mapM h.valueType) := by
    induction vs with
    | nil => trivial
    | cons v vs ih =>
      obtain ⟨hv, hvs⟩ := List.forall_mem_cons.mp live
      rw [List.mapM_cons]
      exact (sound_valueType hv).bind fun _ _ => (ih hvs).bind fun _ _ => trivial
  rw [checkOperands]
  split
  · simp
  · refine types.bind fun ts _ => ?_
    split
    · trivial
    · simp

end Heap

/-! ## Operators -/

namespace Operator

variable {op : Operator} {args : List Value} {h : Heap}

theorem sound_checked (operation : String) (n : Int) : Sound (·.Live h) (checked operation n) := by
  unfold checked
  split
  · trivial
  · simp

theorem sound_integers (args : List Value) : Sound (fun _ => True) (integers args) := by
  unfold integers
  split
  · trivial
  · simp

theorem sound_booleans (args : List Value) : Sound (fun _ => True) (booleans args) := by
  fun_induction booleans args with
  | case1 => trivial
  | case2 b rest ih => exact ih.bind fun _ _ => trivial
  | case3 => simp

theorem sound_pair (args : List Value) : Sound (fun _ => True) (pair args) := by
  unfold pair
  split
  · trivial
  · simp

theorem sound_total (args : List Value) (result : Int → Int → Int) :
    Sound (·.Live h) (op.total args result) :=
  (sound_integers args).bind fun _ _ => sound_checked _ _

theorem sound_comparison (args : List Value) (test : Int64 → Int64 → Bool) :
    Sound (·.Live h) (comparison args test) :=
  (sound_integers args).bind fun _ _ => trivial

theorem sound_division (args : List Value) (result : Int → Int → Int) :
    Sound (·.Live h) (op.division args result) := by
  refine (sound_integers args).bind fun operands _ => ?_
  dsimp only
  split
  · simp
  · exact (sound_checked (h := h) _ _).bind fun _ _ => sound_checked _ _

/-- The result of an operator is no reference. -/
theorem sound_reduce (op : Operator) (args : List Value) : Sound (·.Live h) (op.reduce args) := by
  cases op with
  | eq | ne => exact (sound_pair args).bind fun _ _ => trivial
  | lt | le | gt | ge =>
    rw [reduce]
    exact sound_comparison args _
  | add =>
    rw [reduce.eq_def]
    dsimp only
    split
    · trivial
    · trivial
    · exact sound_total args _
  | sub | mul => exact sound_total args _
  | div | mod => exact sound_division args _
  | and | or => exact (sound_booleans args).bind fun _ _ => trivial
  | not =>
    refine (sound_booleans args).bind fun bs _ => ?_
    cases bs with
    | nil => simp
    | cons => trivial
  | neg =>
    rw [reduce.eq_def]
    dsimp only
    split
    · exact sound_checked _ _
    · simp

end Operator

/-! ## Nodes -/

variable {p : Program} {h h' : Heap}

theorem Value.sound_address {v : Value} (live : v.Live h) (source : Expr) :
    Sound h.Allocated (v.address source) := by
  cases v with
  | ref a => exact live
  | _ => simp [address]

theorem ValueType.live_default (type : ValueType) : type.default.Live h := by
  cases type <;> trivial

/-- The fields of a new object hold no references. -/
theorem Object.allLive_ofDeclarations (type : String) (declarations : List Declaration) :
    AllLive h (ofDeclarations type declarations).fields := by
  rw [ofDeclarations]
  generalize empty : (∅ : Std.ExtTreeMap String Value) = fields
  have live : AllLive h fields := empty ▸ .empty
  clear empty
  induction declarations generalizing fields with
  | nil => exact live
  | cons d declarations ih => exact ih _ (live.insert d.type.live_default d.name)

theorem Heap.closed_allocate {type : String} {o : Object} (closed : h.Closed)
    (fresh : p.instantiate type = .ok o) : (h.allocate o).2.Closed := by
  obtain ⟨declarations, -, fresh⟩ := bind_eq_ok_iff.mp fresh
  cases fresh
  intro a u hu
  rw [get_allocate] at hu
  split at hu
  · cases hu
    exact Object.allLive_ofDeclarations type declarations
  · exact (closed a u hu).grow (grows_allocate h _)

theorem Program.sound_instantiate (p : Program) (type : String) :
    Sound (fun o => p.instantiate type = .ok o) (p.instantiate type) := by
  cases ho : p.instantiate type with
  | ok o => exact Eq.refl (Except.ok o)
  | error e =>
    obtain ⟨-, rfl⟩ := instantiate_eq_error ho
    simp

theorem Program.sound_dispatch (p : Program) (type method : String) (arity : Nat) :
    Sound (fun _ => True) (p.dispatch type method arity) := by
  have types : Sound (fun _ => True) (p.ancestry type) := by
    cases ha : p.ancestry type with
    | ok types => trivial
    | error e =>
      obtain ⟨-, rfl⟩ := ancestry_eq_error ha
      simp
  refine types.bind fun ts _ => ?_
  dsimp only
  split
  · trivial
  · split <;> simp

/-- What a node comes to, if the variables, the objects and the operands are good. -/
theorem Expr.sound_result {scope : Scope} {values : List Value} (closed : h.Closed)
    (self : h.Allocated scope.self)
    (locals : AllLive h scope.locals) (live : ∀ v ∈ values, v.Live h) (e : Expr) :
    Sound (fun r => r.2.Closed ∧ h.Grows r.2 ∧ r.1.Live r.2) (e.result p scope h values) := by
  have keep {v : Value} (live : v.Live h) : h.Closed ∧ h.Grows h ∧ v.Live h :=
    ⟨closed, .refl h, live⟩
  cases e with
  | const | call => simp [result]
  | self => exact keep self
  | var name =>
    have read : Sound (·.Live h) (scope.read name) := by
      unfold Scope.read
      split
      · rename_i v hv
        exact locals name v hv
      · simp
    exact read.bind fun v live => keep live
  | field receiver name =>
    cases values with
    | nil => simp [result]
    | cons v vs =>
      exact (Value.sound_address (live v List.mem_cons_self) _).bind fun a known =>
        (Heap.sound_read closed known name).bind fun w live => keep live
  | apply op operands =>
    refine Sound.bind ?_ fun v live => keep live
    exact (Heap.sound_checkOperands live _ op).bind fun _ _ => op.sound_reduce values
  | new type =>
    refine (p.sound_instantiate type).bind fun o fresh => ?_
    refine ⟨Heap.closed_allocate closed fresh, Heap.grows_allocate h o, ?_⟩
    exact ⟨o, (h.get_allocate o _).trans (if_pos rfl)⟩

/-! ## Activations -/

namespace Frame

variable {f : Frame}

theorem Closed.grow (closed : f.Closed h) (grows : h.Grows h') : f.Closed h' :=
  ⟨closed.self.grow grows, closed.locals.grow grows, closed.pending.grow grows⟩

theorem Closed.record {v : Value} (closed : f.Closed h) (live : v.Live h) (site : Site) :
    (f.record site v).Closed h :=
  ⟨closed.self, closed.locals, closed.pending.insert live site⟩

theorem Closed.bind {v : Value} (closed : f.Closed h) (live : v.Live h) (name : String) :
    (f.bind name v).Closed h :=
  ⟨closed.self, closed.locals.insert live name, closed.pending⟩

theorem Closed.clear (closed : f.Closed h) (position : Position) : (f.clear position).Closed h where
  self := closed.self
  locals := closed.locals
  pending site v hv := by
    rw [getElem?_pending_clear] at hv
    split at hv
    · cases hv
    · exact closed.pending site v hv

/-- The parameters of an activation hold the arguments. -/
theorem closed_enter {scope : Scope} {params : List Declaration} {args : List Value}
    (self : h.Allocated scope.self) (locals : AllLive h scope.locals)
    (live : ∀ v ∈ args, v.Live h) (method : String) (caller : Option Site) (type : String) :
    (enter (scope.bindAll params args) method caller type).Closed h := by
  induction params generalizing scope args with
  | nil => exact ⟨self, locals, .empty⟩
  | cons param params ih =>
    cases args with
    | nil => exact ⟨self, locals, .empty⟩
    | cons v args =>
      obtain ⟨hv, hargs⟩ := List.forall_mem_cons.mp live
      have bound : AllLive h (scope.bind param.name v).locals := locals.insert hv param.name
      exact @ih (scope.bind param.name v) args self bound hargs

end Frame

end Microstep
