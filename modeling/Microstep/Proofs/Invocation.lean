import Microstep.Proofs.Bracketing
import Microstep.Proofs.Dispatch
import Microstep.Proofs.Linkage
import Microstep.Proofs.Safety

/-!
# Invocations

A step that adds an activation is a call. It runs the body that `Selects` finds for the type of the
receiver's object, and the activation knows nothing but its receiver and the arguments, each under
the name of its parameter. A call that comes next and is not made is refused, for one of the reasons
of `CallRefused`.

* `Scope.Binds`, `Scope.binds_bindAll`: the variables that parameters and arguments give;
* `State.Supplied`, `State.NextIn`: the values that a call is made with, and that it comes next;
* `State.Invokes`, `CallRefused`: the two outcomes of such a call;
* `State.invocation`: when a run makes a call, and what the call starts.
-/

namespace Microstep

/-! ## Parameters -/

/-- The variables are the parameters, and each has the value of its argument. Of several parameters
of one name the last one counts. -/
structure Scope.Binds (scope : Scope) (params : List Declaration) (args : List Value) : Prop where
  names : ∀ name, name ∈ scope.locals ↔ ∃ d ∈ params, d.name = name
  values : ∀ before d after, params = before ++ d :: after → (∀ d' ∈ after, d'.name ≠ d.name) →
    scope.locals[d.name]? = args[before.length]?

namespace Scope

variable {params : List Declaration} {args : List Value} {name : String}

/-- Parameters are variables, and no others are added. -/
theorem mem_bindAll_iff (scope : Scope) (count : args.length = params.length) :
    name ∈ (scope.bindAll params args).locals ↔
      (∃ d ∈ params, d.name = name) ∨ name ∈ scope.locals := by
  refine ⟨fun bound => ?_, scope.mem_bindAll count⟩
  induction params generalizing args scope with
  | nil => exact .inr bound
  | cons param params ih =>
    cases args with
    | nil => cases count
    | cons v args =>
      obtain ⟨d, hd, rfl⟩ | bound := ih (scope.bind param.name v) (Nat.succ.inj count) bound
      · exact .inl ⟨d, List.mem_cons_of_mem _ hd, rfl⟩
      · rw [bind, Std.ExtTreeMap.mem_insert, Std.compare_eq_iff_eq] at bound
        exact bound.imp_left fun h => ⟨param, List.mem_cons_self, h⟩

/-- Other variables keep their values. -/
theorem getElem?_bindAll_of_ne (scope : Scope) (other : ∀ d ∈ params, d.name ≠ name) :
    (scope.bindAll params args).locals[name]? = scope.locals[name]? := by
  induction params generalizing args scope with
  | nil => rfl
  | cons param params ih =>
    cases args with
    | nil => rfl
    | cons v args =>
      obtain ⟨hne, other⟩ := List.forall_mem_cons.mp other
      have kept : (scope.bind param.name v).locals[name]? = scope.locals[name]? := by
        simp [bind, Std.ExtTreeMap.getElem?_insert, hne]
      exact (ih (scope.bind param.name v) other).trans kept

/-- A parameter has the value of its argument unless a later one has the same name. -/
theorem getElem?_bindAll (scope : Scope) {before after : List Declaration} {d : Declaration}
    (count : args.length = (before ++ d :: after).length) (last : ∀ d' ∈ after, d'.name ≠ d.name) :
    (scope.bindAll (before ++ d :: after) args).locals[d.name]? = args[before.length]? := by
  induction before generalizing args scope with
  | nil =>
    cases args with
    | nil => cases count
    | cons v args =>
      have bound : (scope.bind d.name v).locals[d.name]? = some v := by simp [bind]
      exact ((scope.bind d.name v).getElem?_bindAll_of_ne last).trans bound
  | cons param before ih =>
    cases args with
    | nil => cases count
    | cons v args => exact ih (scope.bind param.name v) (Nat.succ.inj count)

theorem binds_bindAll (a : Address) (count : args.length = params.length) :
    ((Scope.empty a).bindAll params args).Binds params args where
  names name := by simp [mem_bindAll_iff _ count, empty]
  values before d after split last := by
    subst split
    exact getElem?_bindAll _ count last

end Scope

/-! ## Calls -/

/-- The activation `g` has been started for a call at `site`, on the object at `a`. Its variables
are the parameters, and no node has been evaluated in it. -/
structure Frame.Begins (g : Frame) (site : Site) (a : Address) (type method : String)
    (params : List Declaration) (args : List Value) : Prop where
  caller : g.caller = some site
  self : g.self = a
  type : g.type = type
  method : g.method = method
  pending : g.pending = ∅
  binds : g.toScope.Binds params args

/-- Why a call with these values for its receiver and its arguments is refused. `source` is the
call. -/
inductive CallRefused (p : Program) (h : Heap) (source : Expr) (method : String) (v : Value)
    (vs : List Value) : Error → Prop
  | null (receiver : v = .null) : CallRefused p h source method v vs (.nullDereference source.text)
  | primitive (receiver : v ≠ .null) (noObject : ∀ a, v ≠ .ref a) :
    CallRefused p h source method v vs (.typeError "object" v.kind source.text)
  | dangling {a : Address} (receiver : v = .ref a) (free : ∀ o, h.get a ≠ .ok o) :
    CallRefused p h source method v vs (.unknownAddress a)
  /-- No method of the object's type and its ancestors fits. -/
  | unselected {a : Address} {o : Object} {types : List TypeDef} {e : Error}
      (receiver : v = .ref a) (object : h.get a = .ok o) (ancestry : p.ancestry o.type = .ok types)
      (selects : Selects types o.type method vs.length (.error e)) :
    CallRefused p h source method v vs e

theorem Heap.eq_of_get_error {h : Heap} {a : Address} {e : Error} (missing : h.get a = .error e) :
    e = .unknownAddress a := by
  unfold get at missing
  split at missing <;> cases missing
  rfl

theorem Heap.get_of_free {h : Heap} {a : Address} (free : ∀ o, h.get a ≠ .ok o) :
    h.get a = .error (.unknownAddress a) := by
  cases missing : h.get a with
  | ok o => exact absurd missing (free o)
  | error e => rw [eq_of_get_error missing]

namespace State

variable {p : Program} {s s' : State} {f : Frame} {rest : List Frame} {r : Redex} {c : Command}
  {path : ExprPath} {receiver : Expr} {method : String} {args : List Expr} {v : Value}
  {vs : List Value} {e : Error}

/-- The call at `path` of the command `c` has values for its receiver, at child 0, and for its
arguments, from child 1 on. A child that is no constant has the value that the running activation
keeps for it. -/
structure Supplied (s : State) (c : Command) (path : ExprPath) (receiver : Expr) (method : String)
    (args : List Expr) (v : Value) (vs : List Value) : Prop where
  node : c.node? path = some (.call receiver method args)
  receives : receiver.value? s.known (path ++ [0]) = some v
  count : vs.length = args.length
  passes : ∀ (i : Nat) (arg : Expr), args[i]? = some arg →
    arg.value? s.known (path ++ [1 + i]) = vs[i]?

/-- The next step goes to the node at `path` of the command `c`, which has no value yet. A command
that can never take effect is refused before anything in it is evaluated. -/
structure NextIn (p : Program) (s : State) (c : Command) (path : ExprPath) : Prop where
  unfinished : s.isFinished = false
  command : p.commandAt s.position = .ok (some c)
  writable : c.fault? = none
  cursor : s.cursorOf c = .ok path
  unknown : s.known path = none

/-- In the step from `s` to `s'` the call at `path` has started the body that the type of the object
at `a` selects. Nothing else has changed in the memory. -/
def Invokes (p : Program) (s : State) (path : ExprPath) (method : String) (a : Address)
    (vs : List Value) (s' : State) : Prop :=
  ∃ o types found g, s.memory.heap.get a = .ok o ∧ p.ancestry o.type = .ok types ∧
    Selects types o.type method vs.length (.ok found) ∧
    s'.position = .entry found.owner.name method ∧
    p.commandAt s'.position = .ok found.method.commands[0]? ∧
    s'.memory = ⟨s.memory.heap, g :: s.memory.stack⟩ ∧
    g.Begins ⟨s.position, path⟩ a o.type method found.method.params vs

/-! ## The values of a call -/

/-- The children of a due call have the values with which it is made. -/
theorem supplied_of_due (due : c.readiness s.known = .due r)
    (source : r.source = .call receiver method args) (values : r.values = v :: vs) :
    s.Supplied c r.path receiver method args v vs := by
  have node := Command.node?_of_readiness due
  have count := (Command.operands_of_readiness due).2
  have draws := Command.draws_of_readiness due
  rw [source, values] at draws
  rw [source, values] at count
  have count : vs.length = args.length := Nat.succ.inj count
  refine ⟨source ▸ node, ?_, count, fun i arg harg => ?_⟩
  · obtain ⟨child, hchild, known⟩ := draws 0 v rfl
    cases hchild
    exact known
  · have hi : i < vs.length := count ▸ (List.getElem?_eq_some_iff.mp harg).1
    obtain ⟨child, hchild, known⟩ := draws (i + 1) vs[i] (by simp [hi])
    obtain rfl : arg = child := Option.some.inj (harg.symm.trans hchild)
    rw [List.getElem?_eq_getElem hi, ← known, Nat.zero_add, Nat.add_comm]

theorem Supplied.unique {w : Value} {ws : List Value}
    (h : s.Supplied c path receiver method args v vs)
    (h' : s.Supplied c path receiver method args w ws) : w = v ∧ ws = vs := by
  refine ⟨Option.some.inj (h'.receives.symm.trans h.receives), List.ext_getElem? fun i => ?_⟩
  cases harg : args[i]? with
  | some arg => exact (h'.passes i arg harg).symm.trans (h.passes i arg harg)
  | none =>
    have hle := List.getElem?_eq_none_iff.mp harg
    rw [List.getElem?_eq_none (h'.count ▸ hle), List.getElem?_eq_none (h.count ▸ hle)]

/-- The node that comes next is due. -/
theorem NextIn.exists_due (hs : s.memory.stack = f :: rest) (next : NextIn p s c path) {e : Expr}
    (node : c.node? path = some e) : ∃ values, c.readiness s.known = .due ⟨path, e, values⟩ := by
  have cursor := (cursorOf_eq hs c).symm.trans next.cursor
  cases hr : c.readiness s.known with
  | ready ws =>
    -- with nothing due the cursor is on the command itself, which then is a call without a value
    rw [hr] at cursor
    obtain rfl : [] = path := Except.ok.inj cursor
    obtain ⟨receiver, method, args, rfl, -⟩ := Command.call_of_node?_nil node
    have unknown : (Expr.call receiver method args).value? s.known [] = none := next.unknown
    obtain ⟨r, due⟩ := readiness_of_value? unknown
    simp [Command.readiness, Command.operands, Expr.readinessEach, due] at hr
  | due r =>
    rw [hr] at cursor
    obtain rfl : r.path = path := Except.ok.inj cursor
    obtain rfl : r.source = e := Option.some.inj ((Command.node?_of_readiness hr).symm.trans node)
    exact ⟨r.values, rfl⟩

/-- The step of a node that comes next evaluates it. -/
theorem NextIn.transition_eq (hs : s.memory.stack = f :: rest) (next : NextIn p s c path)
    (due : c.readiness s.known = .due r) : s.transition p = s.fire p r := by
  rw [transition, next.command, ok_bind]
  show s.execute p c = _
  rw [execute_eq hs next.writable, due, onReady_due]

/-- A call that comes next is due with the values of its receiver and its arguments. -/
theorem NextIn.due (hs : s.memory.stack = f :: rest) (next : NextIn p s c path)
    (h : s.Supplied c path receiver method args v vs) :
    c.readiness s.known = .due ⟨path, .call receiver method args, v :: vs⟩ := by
  obtain ⟨values, due⟩ := next.exists_due hs h.node
  cases values with
  | nil => cases (Command.operands_of_readiness due).2
  | cons w ws =>
    obtain ⟨rfl, rfl⟩ := h.unique (supplied_of_due due rfl rfl)
    exact due

/-! ## What a call does -/

/-- A due call that fails is refused. -/
theorem refused_of_fire (typed : s.memory.heap.Typed p)
    (source : r.source = .call receiver method args) (values : r.values = v :: vs)
    (h : s.fire p r = .error e) : CallRefused p s.memory.heap r.source method v vs e := by
  rw [fire_call source values] at h
  obtain noObject | ⟨a, address, located⟩ := bind_eq_error_iff.mp h
  · cases v with
    | null => cases noObject; exact .null rfl
    | ref a => cases noObject
    | bool | int | str => cases noObject; exact .primitive nofun nofun
  have receiver := address_eq_ok address
  obtain untyped | ⟨type, typeOf, started⟩ := bind_eq_error_iff.mp located
  · obtain missing | ⟨o, -, untyped⟩ := bind_eq_error_iff.mp untyped
    · obtain rfl := Heap.eq_of_get_error missing
      exact .dangling receiver fun o object => by rw [missing] at object; cases object
    · cases untyped
  · obtain ⟨o, object, typeOf⟩ := bind_eq_ok_iff.mp typeOf
    cases typeOf
    obtain ⟨t, ht⟩ := typed a o object
    obtain ⟨types, ancestry⟩ := Program.ancestry_of_type? ht
    obtain dispatch | ⟨found, -, made⟩ := bind_eq_error_iff.mp started
    · exact .unselected receiver object ancestry ((Program.dispatch_eq_iff ancestry).mp dispatch)
    · cases made

/-- A due call that is refused fails. -/
theorem fire_of_refused (source : r.source = .call receiver method args)
    (values : r.values = v :: vs) (h : CallRefused p s.memory.heap r.source method v vs e) :
    s.fire p r = .error e := by
  rw [fire_call source values]
  cases h with
  | null receiver => rw [receiver]; rfl
  | primitive other noObject =>
    cases v with
    | null => exact absurd rfl other
    | ref a => exact absurd rfl (noObject a)
    | bool | int | str => rfl
  | dangling receiver free =>
    rw [receiver]
    simp [Value.address, Heap.typeOf, Heap.get_of_free free]
  | unselected receiver object ancestry selects =>
    have dispatch := (Program.dispatch_eq_iff ancestry).mpr selects
    rw [receiver]
    simp [Value.address, Heap.typeOf, object, dispatch]

/-- A call that is made starts the body that is selected. -/
theorem Fires.invokes (typed : s.memory.heap.Typed p) (h : Fires p s f rest r s')
    (source : r.source = .call receiver method args) (cursor : ExprPath) :
    ∃ a vs, r.values = .ref a :: vs ∧ Invokes p s r.path method a vs { s' with cursor } := by
  cases h with
  | value v noCall => rw [source] at noCall; cases noCall
  | object new => rw [source] at new; cases new
  | @call _ _ _ a vs type found source' values typeOf dispatch =>
    cases source.symm.trans source'
    obtain ⟨o, object, rfl⟩ : ∃ o, s.memory.heap.get a = .ok o ∧ o.type = type := by
      simpa [Heap.typeOf] using typeOf
    obtain ⟨t, ht⟩ := typed a o object
    obtain ⟨types, ancestry⟩ := Program.ancestry_of_type? ht
    refine ⟨a, vs, values, o, types, found, _, object, ancestry,
      (Program.dispatch_eq_iff ancestry).mp dispatch, rfl, Program.commandAt_of_dispatch dispatch,
      rfl, rfl, ?_, rfl, rfl, rfl, ?_⟩
    · exact Scope.self_bindAll _ _ _
    · exact Scope.binds_bindAll a (Program.arity_of_dispatch dispatch).symm

theorem Invokes.depth {a : Address} (h : Invokes p s path method a vs s') :
    s'.depth = s.depth + 1 := by
  obtain ⟨-, -, -, g, -, -, -, -, -, memory, -⟩ := h
  rw [State.depth, memory]
  rfl

/-- No command adds an activation when it takes effect. -/
theorem Performs.depth_le (hs : s.memory.stack = f :: rest) (h : Performs p s f rest c s') :
    s'.depth ≤ s.depth := by
  rw [depth_eq hs]
  cases h with
  | move write bind goes => exact Nat.le_refl _
  | «return» command returns =>
    have := (returns.delivers []).depth
    exact Nat.le_succ_of_le (Nat.le_of_eq this)

/-- A step that adds an activation evaluates a call. -/
theorem exists_call_of_deeper (hs : s.memory.stack = f :: rest) (h : s.transition p = .ok s')
    (deeper : s.depth < s'.depth) :
    ∃ c r receiver method args, p.commandAt s.position = .ok (some c) ∧
      c.readiness s.known = .due r ∧ r.source = .call receiver method args ∧
      Fires p s f rest r s' := by
  obtain ⟨command?, command, h⟩ := bind_eq_ok_iff.mp h
  cases command? with
  | none =>
    have := ((returnWith_cases hs h).delivers []).depth
    have : s'.depth = rest.length := this
    rw [depth_eq hs] at deeper
    omega
  | some c =>
    obtain ⟨r, due, fires⟩ | ⟨vs, -, performs⟩ := execute_cases hs h
    · have fires' := fires
      cases fires with
      | value v source =>
        rw [depth_eq hs] at deeper
        exact absurd deeper (Nat.lt_irrefl _)
      | object source fresh =>
        rw [depth_eq hs] at deeper
        exact absurd deeper (Nat.lt_irrefl _)
      | call source values typeOf dispatch => exact ⟨c, r, _, _, _, command, due, source, fires'⟩
    · exact absurd deeper (Nat.not_lt.mpr (performs.depth_le hs))

/-- When a run makes a call, and what the call starts. A step that adds an activation makes a call
whose receiver and arguments have values, the receiver an object. A call that comes next and has
these values is made unless it is refused. A command that can never take effect makes none. -/
theorem invocation {type entry : String} {s₀ : State} {n : Nat}
    (start : State.start p type entry = .ok s₀) (run : s₀.iterate p n = .ok s) :
    (∀ s', s.advance p = .ok s' → s.depth < s'.depth →
      ∃ c path receiver method args a vs, p.commandAt s.position = .ok (some c) ∧
        s.Supplied c path receiver method args (.ref a) vs ∧ Invokes p s path method a vs s') ∧
    (∀ c path receiver method args v vs, NextIn p s c path →
      s.Supplied c path receiver method args v vs →
      (∀ e, s.advance p = .error e ↔
        CallRefused p s.memory.heap (.call receiver method args) method v vs e) ∧
      ∀ s', s.advance p = .ok s' →
        s'.depth = s.depth + 1 ∧ ∃ a, v = .ref a ∧ Invokes p s path method a vs s') ∧
    ∀ c e, s.isFinished = false → p.commandAt s.position = .ok (some c) → c.fault? = some e →
      s.advance p = .error e := by
  have hv := iterate_valid (start_valid start) run
  refine ⟨fun s' ha deeper => ?_, fun c path receiver method args v vs next supplied => ?_,
    fun c e unfinished command fault => ?_⟩
  · obtain ⟨status, t, cursor, h, rfl⟩ := advance_eq_ok ha
    obtain ⟨f, rest, hs, -, -, typed⟩ := hv.of_running status
    obtain ⟨c, r, receiver, method, args, command, due, source, fires⟩ :=
      exists_call_of_deeper hs h deeper
    obtain ⟨a, vs, values, invokes⟩ := fires.invokes typed source cursor
    exact ⟨c, r.path, receiver, method, args, a, vs, command,
      supplied_of_due due source values, invokes⟩
  · have status := running_of_isFinished next.unfinished
    obtain ⟨f, rest, hs, -, -, typed⟩ := hv.of_running status
    have due := next.due hs supplied
    have step := next.transition_eq hs due
    refine ⟨fun e => ?_, fun s' ha => ?_⟩
    · constructor
      · intro he
        exact refused_of_fire typed rfl rfl (step ▸ transition_of_advance status hv he)
      · intro refused
        have he := step.trans (fire_of_refused rfl rfl refused)
        simp [advance, status, he]
    · obtain ⟨-, t, cursor, h, rfl⟩ := advance_eq_ok ha
      obtain ⟨-, hlen⟩ := Command.operands_of_readiness due
      obtain ⟨a, ws, values, invokes⟩ :=
        (fire_cases hs rfl hlen (step ▸ h)).invokes typed rfl cursor
      cases values
      exact ⟨invokes.depth, a, rfl, invokes⟩
  · have step : s.transition p = .error e := by
      rw [transition, command, ok_bind]
      exact execute_of_fault fault
    simp [advance, running_of_isFinished unfinished, step]

/-- The second call of the counter is made in step 17, with the counter and 2. -/
theorem invocation_counter :
    ∃ s₀ s s' : State, ∃ c : Command, State.start .counter "Main" "main" = .ok s₀ ∧
      s₀.iterate .counter 16 = .ok s ∧ s.advance .counter = .ok s' ∧ s.depth < s'.depth ∧
      NextIn .counter s c [0, 1] ∧
      s.Supplied c [0, 1] (.var "c") "add" [.const (.int 2)] (.ref ⟨1⟩) [.int 2] ∧
      Invokes .counter s [0, 1] "add" ⟨1⟩ [.int 2] s' := by
  let c : Command := .cond (.apply .lt [.call (.var "c") "add" [.const (.int 1)],
    .call (.var "c") "add" [.const (.int 2)]]) [.ret (some (.field (.var "c") "n"))] none
  have before : ((start .counter "Main" "main").bind (·.iterate .counter 16)).toOption.map
      (fun s => (s.isFinished, s.position, decide ((s.cursorOf c).toOption = some [0, 1] ∧
        s.known [0, 1] = none ∧ s.known [0, 1, 0] = some (.ref ⟨1⟩)))) =
      some (false, ⟨"Main", "main", [⟨0, 2⟩]⟩, true) := by decide +kernel
  have after : ((start .counter "Main" "main").bind (·.iterate .counter 17)).toOption.map
      State.depth = some 2 := by decide +kernel
  obtain ⟨s₀, s, s', hs₀, hs, ha, seen, depth⟩ := exists_step_of_view before after
  simp only [Prod.mk.injEq, decide_eq_true_eq] at seen
  obtain ⟨unfinished, position, cursor, unknown, receives⟩ := seen
  have next : NextIn .counter s c [0, 1] :=
    ⟨unfinished, by rw [position]; rfl, rfl, toOption_eq_some_iff.mp cursor, unknown⟩
  have supplied : s.Supplied c [0, 1] (.var "c") "add" [.const (.int 2)] (.ref ⟨1⟩) [.int 2] := by
    refine ⟨rfl, receives, rfl, fun i arg harg => ?_⟩
    obtain ⟨rfl, rfl⟩ : i = 0 ∧ .const (.int 2) = arg := by
      cases i <;> simp_all
    rfl
  obtain ⟨-, comes, -⟩ := invocation hs₀ hs
  obtain ⟨deeper, a, receiver, invokes⟩ := (comes c _ _ _ _ _ _ next supplied).2 s' ha
  cases receiver
  exact ⟨s₀, s, s', c, hs₀, hs, ha, by omega, next, supplied, invokes⟩

end State

end Microstep
