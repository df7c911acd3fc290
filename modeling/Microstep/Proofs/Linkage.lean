import Microstep.Proofs.Objects
import Microstep.Proofs.Origin
import Microstep.Proofs.PositionOrder

/-!
# Stacks that fit together

Where an activation stands is recorded several times: by the position of the state or the site to
which the activation above returns, by the name of its method, by the type of its receiver, which is
the type of the object, and by the method table, from which the type and the name select the body.
These records agree for all activations of a state, and each activation but the one on top stands at
a call of the method of the activation above.

* `Frame.RunsAt`, `Program.Calls`: one activation, and an activation below another;
* `Linked`: a whole stack, with the position of the activation on top;
* `State.transition_coherent`: a step keeps the stack linked;
* `State.stack_consistent`: the stack of every state of a run.
-/

namespace Microstep

/-- The method in whose body a position lies. -/
def Program.methodAt? (p : Program) (position : Position) : Option MethodDef := do
  let t ← p.table.type? position.type
  t.method? position.method

/-- The activation `f` stands at `position`: a place in the body of its method, which is the one
that its type selects by name and number of parameters. All parameters have values. -/
structure Frame.RunsAt (p : Program) (h : Heap) (f : Frame) (position : Position) : Prop where
  resolves : p.Resolves position
  method : position.method = f.method
  receiver : h.typeOf f.self = .ok f.type
  body : ∃ found, p.methodAt? position = some found.method ∧
    p.dispatch f.type f.method found.method.arity = .ok found ∧ found.owner.name = position.type ∧
    ∀ d ∈ found.method.params, d.name ∈ f.locals

/-- At `site` stands a call of the method at `position`, with an argument for each parameter. It is
the command itself if no path leads into it. -/
def Program.Calls (p : Program) (site : Site) (position : Position) : Prop :=
  ∃ c receiver args m, p.commandAt site.position = .ok (some c) ∧
    c.node? site.path = some (.call receiver position.method args) ∧
    (site.path = [] → c = .call receiver position.method args) ∧
    p.methodAt? position = some m ∧ args.length = m.arity

/-- Where the activation stands that has `i` others above it, the one on top standing at
`position`: at the site to which the activation above returns. -/
def positionIn? (position : Position) (stack : List Frame) : Nat → Option Position
  | 0 => some position
  | i + 1 => do
    let above ← stack[i]?
    let site ← above.caller
    return site.position

/-- The activations of a stack, of which the one on top stands at the given position. -/
inductive Linked (p : Program) (h : Heap) : Position → List Frame → Prop
  /-- Nothing waits for the activation that the run started with. -/
  | bottom {position : Position} {f : Frame} (caller : f.caller = none)
      (runs : f.RunsAt p h position) : Linked p h position [f]
  /-- The activations below wait at the call that started `f`. -/
  | above {position : Position} {f : Frame} {site : Site} {below : List Frame}
      (caller : f.caller = some site) (runs : f.RunsAt p h position)
      (calls : p.Calls site position) (linked : Linked p h site.position below) :
      Linked p h position (f :: below)

theorem positionIn?_succ {position : Position} {stack : List Frame} {i : Nat} {above : Frame}
    {site : Site} (h : stack[i]? = some above) (caller : above.caller = some site) :
    positionIn? position stack (i + 1) = some site.position := by
  simp [positionIn?, h, caller]

/-! ## Parts of the program -/

/-- Only a call command is a node itself. -/
theorem Command.call_of_node?_nil {c : Command} {e : Expr} (h : c.node? [] = some e) :
    ∃ receiver method args, c = .call receiver method args ∧ e = .call receiver method args := by
  cases c with
  | call => cases h; exact ⟨_, _, _, rfl, rfl⟩
  | ret value => cases value <;> cases h
  | _ => cases h

namespace Program

variable {p : Program} {type method : String} {arity : Nat} {found : Implementation}

/-- A dispatch finds a method with as many parameters as there are arguments. -/
theorem arity_of_dispatch (h : p.dispatch type method arity = .ok found) :
    found.method.arity = arity := by
  obtain ⟨types, -, h⟩ := bind_eq_ok_iff.mp h
  dsimp only at h
  split at h
  · rename_i hf
    cases h
    simpa using List.find?_some hf
  · split at h <;> cases h

/-- A dispatch finds the method at whose first position a call goes on. -/
theorem methodAt?_of_dispatch (h : p.dispatch type method arity = .ok found) :
    p.methodAt? (.entry found.owner.name method) = some found.method := by
  obtain ⟨owner, declared⟩ := type?_of_dispatch h
  simp [methodAt?, Position.entry, owner, declared]

end Program

/-- All parameters that have an argument are bound. -/
theorem Scope.mem_bindAll {params : List Declaration} {args : List Value} (scope : Scope)
    (h : args.length = params.length) {name : String}
    (bound : (∃ d ∈ params, d.name = name) ∨ name ∈ scope.locals) :
    name ∈ (scope.bindAll params args).locals := by
  induction params generalizing args scope with
  | nil => simpa [bindAll] using bound
  | cons param params ih =>
    cases args with
    | nil => cases h
    | cons v args =>
      refine ih (scope.bind param.name v) (Nat.succ.inj h) ?_
      obtain ⟨d, hd, rfl⟩ | bound := bound
      · obtain rfl | hd := List.mem_cons.mp hd
        · exact .inr (by simp [Scope.bind])
        · exact .inl ⟨d, hd, rfl⟩
      · exact .inr (by simp [Scope.bind, bound])

theorem Scope.self_bindAll (scope : Scope) (params : List Declaration) (args : List Value) :
    (scope.bindAll params args).self = scope.self := by
  rw [bindAll]
  generalize params.zip args = pairs
  induction pairs generalizing scope with
  | nil => rfl
  | cons pair pairs ih => exact ih (scope.bind pair.1.name pair.2)

/-! ## Activations -/

/-- `g` is the activation `f`, perhaps with more variables. -/
structure Frame.Widens (f g : Frame) : Prop where
  self : g.self = f.self
  type : g.type = f.type
  method : g.method = f.method
  caller : g.caller = f.caller
  locals : ∀ name ∈ f.locals, name ∈ g.locals

namespace Frame

variable {p : Program} {h h' : Heap} {f g : Frame} {position : Position}

theorem widens_clear (f : Frame) (position : Position) : f.Widens (f.clear position) :=
  ⟨rfl, rfl, rfl, rfl, fun _ => id⟩

theorem widens_record (f : Frame) (site : Site) (v : Value) : f.Widens (f.record site v) :=
  ⟨rfl, rfl, rfl, rfl, fun _ => id⟩

theorem widens_bind (f : Frame) (name : String) (v : Value) : f.Widens (f.bind name v) :=
  ⟨rfl, rfl, rfl, rfl, fun other bound => by simp [bind, Scope.bind, bound]⟩

theorem Widens.clear (w : f.Widens g) (position : Position) : f.Widens (g.clear position) :=
  ⟨w.self, w.type, w.method, w.caller, w.locals⟩

theorem RunsAt.grow (runs : f.RunsAt p h position) (grows : h.Grows h') :
    f.RunsAt p h' position :=
  { runs with receiver := grows _ _ runs.receiver }

/-- An activation goes on elsewhere in its body. -/
theorem RunsAt.move {path : Path} (runs : f.RunsAt p h position) (w : f.Widens g)
    (resolves : p.Resolves { position with path }) : g.RunsAt p h { position with path } where
  resolves := resolves
  method := runs.method.trans w.method.symm
  receiver := by rw [w.self, w.type]; exact runs.receiver
  body := by
    obtain ⟨found, hm, dispatch, owner, bound⟩ := runs.body
    rw [w.type, w.method]
    exact ⟨found, hm, dispatch, owner, fun d hd => w.locals _ (bound d hd)⟩

/-- A call starts an activation at the first position of the body that it finds. -/
theorem runsAt_enter {a : Address} {args : List Value} {type method : String}
    {found : Implementation} {caller : Option Site} (receiver : h.typeOf a = .ok type)
    (dispatch : p.dispatch type method args.length = .ok found) :
    (Frame.enter ((Scope.empty a).bindAll found.method.params args) method caller type).RunsAt p h
      (.entry found.owner.name method) where
  resolves := Program.resolves_body (Program.body?_of_dispatch dispatch) (Nat.zero_le _)
  method := rfl
  receiver := by rw [enter, Scope.self_bindAll]; exact receiver
  body := by
    have arity := Program.arity_of_dispatch dispatch
    refine ⟨found, Program.methodAt?_of_dispatch dispatch, ?_, rfl, fun d hd => ?_⟩
    · rw [arity]
      exact dispatch
    · exact Scope.mem_bindAll _ arity.symm (.inl ⟨d, hd, rfl⟩)

end Frame

namespace Linked

variable {p : Program} {h h' : Heap} {f g : Frame} {rest : List Frame} {position : Position}

theorem runs (linked : Linked p h position (f :: rest)) : f.RunsAt p h position := by
  cases linked with
  | bottom caller runs => exact runs
  | above caller runs calls linked => exact runs

theorem grow {stack : List Frame} (linked : Linked p h position stack) (grows : h.Grows h') :
    Linked p h' position stack := by
  induction linked with
  | bottom caller runs => exact .bottom caller (runs.grow grows)
  | above caller runs calls linked ih => exact .above caller (runs.grow grows) calls ih

/-- The activation on top goes on elsewhere in its body. -/
theorem move {path : Path} (linked : Linked p h position (f :: rest)) (w : f.Widens g)
    (resolves : p.Resolves { position with path }) :
    Linked p h { position with path } (g :: rest) := by
  cases linked with
  | bottom caller runs => exact .bottom (w.caller.trans caller) (runs.move w resolves)
  | above caller runs calls linked =>
    exact .above (w.caller.trans caller) (runs.move w resolves) calls linked

theorem widen (linked : Linked p h position (f :: rest)) (w : f.Widens g) :
    Linked p h position (g :: rest) :=
  linked.move w linked.runs.resolves

theorem ne_nil {stack : List Frame} (linked : Linked p h position stack) : stack ≠ [] := by
  cases linked <;> exact List.cons_ne_nil _ _

theorem caller_eq_none_iff (linked : Linked p h position (f :: rest)) :
    f.caller = none ↔ rest = [] := by
  cases linked with
  | bottom caller runs => simp [caller]
  | above caller runs calls linked => simp [caller, linked.ne_nil]

/-- An activation with others below it was started by a call. -/
theorem exists_calls (linked : Linked p h position (f :: rest)) (hrest : rest ≠ []) :
    ∃ site, f.caller = some site ∧ p.Calls site position := by
  cases linked with
  | bottom caller runs => exact absurd rfl hrest
  | above caller runs calls linked => exact ⟨_, caller, calls⟩

/-- The activations from any one on are linked. -/
theorem drop {stack : List Frame} {i : Nat} (linked : Linked p h position stack)
    (hf : stack[i]? = some f) :
    ∃ q, positionIn? position stack i = some q ∧ Linked p h q (f :: stack.drop (i + 1)) := by
  induction i generalizing position stack with
  | zero =>
    obtain ⟨rest, rfl⟩ : ∃ rest, stack = f :: rest := by
      cases stack with
      | nil => cases hf
      | cons g rest => cases hf; exact ⟨rest, rfl⟩
    exact ⟨position, rfl, linked⟩
  | succ i ih =>
    cases linked with
    | bottom caller runs => cases hf
    | above caller runs calls linked =>
      obtain ⟨q, hq, linked⟩ := ih linked hf
      refine ⟨q, ?_, linked⟩
      rw [← hq]
      -- the activation directly below the top one is placed by the caller of the top one
      cases i with
      | zero => exact positionIn?_succ rfl caller
      | succ i => rfl

end Linked

namespace State

variable {p : Program} {s s' : State} {f : Frame} {rest : List Frame} {r : Redex} {c : Command}
  {v : Option Value} {n : Nat}

/-- The whole state: its stack is linked as long as the run goes on, and empty afterwards. -/
inductive Coherent (p : Program) (s : State) : Prop
  | running (status : s.status = .running)
      (stack : Linked p s.memory.heap s.position s.memory.stack)
  | finished {v : Option Value} (status : s.status = .finished v) (stack : s.memory.stack = [])

/-! ## Steps -/

/-- A due call is one of the method of the activation that it starts. -/
theorem calls_of_due {receiver : Expr} {method type : String} {args : List Expr} {v : Value}
    {vs : List Value} {found : Implementation} (command : p.commandAt s.position = .ok (some c))
    (due : c.readiness s.known = .due r) (source : r.source = .call receiver method args)
    (values : r.values = v :: vs) (dispatch : p.dispatch type method vs.length = .ok found) :
    p.Calls (s.site r.path) (.entry found.owner.name method) := by
  have hnode := Command.node?_of_readiness due
  have hlen := (Command.operands_of_readiness due).2
  rw [source, values] at hlen
  rw [source] at hnode
  refine ⟨c, receiver, args, found.method, command, hnode, fun hp => ?_,
    Program.methodAt?_of_dispatch dispatch, ?_⟩
  · have hp : r.path = [] := hp
    rw [hp] at hnode
    obtain ⟨_, _, _, rfl, same⟩ := Command.call_of_node?_nil hnode
    cases same
    rfl
  · rw [Program.arity_of_dispatch dispatch]
    exact (Nat.succ.inj hlen).symm

theorem Fires.linked (hs : s.memory.stack = f :: rest)
    (command : p.commandAt s.position = .ok (some c)) (due : c.readiness s.known = .due r)
    (linked : Linked p s.memory.heap s.position (f :: rest))
    (h : Fires p s f rest r s') :
    Linked p s'.memory.heap s'.position s'.memory.stack := by
  have linked := linked.grow h.changes.grows
  cases h with
  | value v source => exact linked.widen (f.widens_record _ _)
  | object source fresh => exact linked.widen (f.widens_record _ _)
  | call source values typeOf dispatch =>
    refine .above rfl (Frame.runsAt_enter typeOf dispatch)
      (calls_of_due command due source values dispatch) ?_
    change Linked p s.memory.heap s.position s.memory.stack
    rw [hs]
    exact linked

/-- The caller of an activation that returns goes on at its call. -/
theorem Returns.linked (status : s.status = .running)
    (linked : Linked p s.memory.heap s.position (f :: rest))
    (h : Returns s f rest v s') : Coherent p s' := by
  cases h with
  | finish caller =>
    cases linked with
    | bottom _ runs => exact .finished rfl rfl
    | above waits => rw [caller] at waits; cases waits
  | resume caller hrest =>
    cases linked with
    | bottom none => rw [caller] at none; cases none
    | above waits runs calls linked =>
      cases caller.symm.trans waits
      subst hrest
      exact .running status (linked.widen (Frame.widens_record _ _ _))

theorem Performs.linked (status : s.status = .running)
    (command : p.commandAt s.position = .ok (some c))
    (linked : Linked p s.memory.heap s.position (f :: rest))
    (h : Performs p s f rest c s') : Coherent p s' := by
  have linked' := linked.grow h.changes.grows
  cases h with
  | move write bind goes =>
    obtain ⟨path, rfl⟩ := goes.exists_path
    have resolves := goes.resolves command
    obtain rfl | ⟨name, v, rfl⟩ := bind
    · exact .running status (linked'.move (Frame.widens_clear _ _) resolves)
    · exact .running status (linked'.move ((Frame.widens_bind _ _ _).clear _) resolves)
  | «return» _ returns => exact returns.linked status linked

/-- A step keeps the stack linked. -/
theorem transition_coherent (status : s.status = .running)
    (linked : Linked p s.memory.heap s.position s.memory.stack)
    (h : s.transition p = .ok s') : Coherent p s' := by
  obtain ⟨f, rest, hs⟩ : ∃ f rest, s.memory.stack = f :: rest := by
    cases hstack : s.memory.stack with
    | nil => rw [hstack] at linked; cases linked
    | cons f rest => exact ⟨f, rest, rfl⟩
  rw [hs] at linked
  obtain ⟨command?, command, h⟩ := bind_eq_ok_iff.mp h
  cases command? with
  | none => exact (returnWith_cases hs h).linked status linked
  | some c =>
    obtain ⟨r, due, fires⟩ | ⟨vs, -, performs⟩ := execute_cases hs h
    · have status' : s'.status = .running := by cases fires <;> exact status
      exact .running status' (fires.linked hs command due linked)
    · exact performs.linked status command linked

theorem Coherent.withCursor (coherent : Coherent p s) (path : ExprPath) :
    Coherent p { s with cursor := path } := by
  cases coherent with
  | running status stack => exact .running status stack
  | finished status stack => exact .finished status stack

/-! ## Runs -/

theorem advance_coherent (coherent : Coherent p s) (h : s.advance p = .ok s') : Coherent p s' := by
  obtain ⟨status, next, path, hn, rfl⟩ := advance_eq_ok h
  cases coherent with
  | running _ stack => exact (transition_coherent status stack hn).withCursor path
  | finished finished => rw [status] at finished; cases finished

theorem start_coherent {type method : String} (h : State.start p type method = .ok s) :
    Coherent p s := by
  obtain ⟨o, ho, h⟩ := bind_eq_ok_iff.mp h
  obtain ⟨position, hp, h⟩ := bind_eq_ok_iff.mp h
  cases h
  obtain ⟨found, dispatch, hp⟩ := bind_eq_ok_iff.mp hp
  cases hp
  obtain ⟨declarations, -, ho⟩ := bind_eq_ok_iff.mp ho
  cases ho
  have receiver : (Memory.empty.allocate (.ofDeclarations type declarations)).2.heap.typeOf
      (Memory.empty.allocate (.ofDeclarations type declarations)).1 = .ok type := rfl
  have runs := @Frame.runsAt_enter p _ _ [] type method found none receiver dispatch
  -- a method that is found for no arguments has no parameters to bind
  rw [List.eq_nil_of_length_eq_zero (Program.arity_of_dispatch dispatch)] at runs
  exact .running rfl (.bottom rfl runs)

/-- The stack of every state of a run is linked. -/
theorem iterate_coherent (coherent : Coherent p s) (h : s.iterate p n = .ok s') : Coherent p s' :=
  iterate_induction (fun _ _ => advance_coherent) coherent h

/-- The stack of a reachable state is empty exactly if the run has finished, and only then is there
a result. Every activation runs where it stands, only the lowest one has no caller, and each one but
the top one stands at the call that started the activation above. -/
theorem stack_consistent {type method : String} {s₀ : State}
    (start : State.start p type method = .ok s₀) (run : s₀.iterate p n = .ok s) :
    (s.isFinished = true ↔ s.memory.stack = []) ∧
    (∀ v, s.result? = some v → s.isFinished = true) ∧
    (∀ i f, s.memory.stack[i]? = some f →
      (f.caller = none ↔ i + 1 = s.memory.stack.length) ∧
      ∃ position, positionIn? s.position s.memory.stack i = some position ∧
        f.RunsAt p s.memory.heap position) ∧
    ∀ i above below, s.memory.stack[i]? = some above → s.memory.stack[i + 1]? = some below →
      ∃ site position, above.caller = some site ∧
        positionIn? s.position s.memory.stack i = some position ∧
        positionIn? s.position s.memory.stack (i + 1) = some site.position ∧
        p.Calls site position := by
  cases iterate_coherent (start_coherent start) run with
  | finished status hs => simp [hs, isFinished, status]
  | running status linked =>
    refine ⟨?_, ?_, fun i f hf => ?_, fun i above below ha hb => ?_⟩
    · simp [isFinished, status, linked.ne_nil]
    · simp [result?, status]
    · obtain ⟨position, hposition, linked⟩ := linked.drop hf
      have hi : i < s.memory.stack.length := (List.getElem?_eq_some_iff.mp hf).1
      refine ⟨?_, position, hposition, linked.runs⟩
      rw [linked.caller_eq_none_iff, List.drop_eq_nil_iff]
      omega
    · obtain ⟨position, hposition, linked⟩ := linked.drop ha
      have hi : i + 1 < s.memory.stack.length := (List.getElem?_eq_some_iff.mp hb).1
      obtain ⟨site, caller, calls⟩ := linked.exists_calls (by simpa using hi)
      exact ⟨site, position, caller, hposition, positionIn?_succ ha caller, calls⟩

/-- During the second call of `add` the caller stands at the condition, with a variable for the
counter, and the call has an argument for the one parameter of `add`. -/
theorem stack_consistent_counter :
    ∃ s₀ s : State, ∃ g below : Frame, State.start .counter "Main" "main" = .ok s₀ ∧
      s₀.iterate .counter 18 = .ok s ∧ s.memory.stack = [g, below] ∧
      g.RunsAt .counter s.memory.heap ⟨"Counter", "add", [⟨0, 1⟩]⟩ ∧
      below.RunsAt .counter s.memory.heap ⟨"Main", "main", [⟨0, 2⟩]⟩ ∧
      Program.counter.Calls ⟨⟨"Main", "main", [⟨0, 2⟩]⟩, [0, 1]⟩
        ⟨"Counter", "add", [⟨0, 1⟩]⟩ := by
  have run : ((start .counter "Main" "main").bind (·.iterate .counter 18)).toOption.map
      (fun s => (s.position, s.memory.stack.map (·.caller))) =
        some (⟨"Counter", "add", [⟨0, 1⟩]⟩,
          [some ⟨⟨"Main", "main", [⟨0, 2⟩]⟩, [0, 1]⟩, none]) := by decide +kernel
  obtain ⟨s₀, s, hs₀, hs, h⟩ := exists_of_view run
  obtain ⟨position, callers⟩ := Prod.mk.inj h
  obtain ⟨-, -, frames, calls⟩ := stack_consistent hs₀ hs
  obtain ⟨g, stack, hstack, hg, hframes⟩ := List.map_eq_cons_iff.mp callers
  obtain ⟨below, stack, rfl, -, hnil⟩ := List.map_eq_cons_iff.mp hframes
  obtain rfl := List.map_eq_nil_iff.mp hnil
  rw [hstack, position] at frames calls
  obtain ⟨-, q, hq, top⟩ := frames 0 g rfl
  obtain ⟨-, q', hq', bottom⟩ := frames 1 below rfl
  obtain ⟨site, r, hsite, hr, hbelow, call⟩ := calls 0 g below rfl rfl
  cases hg.symm.trans hsite
  cases hq
  cases hr
  cases hq'.symm.trans hbelow
  exact ⟨s₀, s, g, below, hs₀, hs, hstack, top, bottom, call⟩

end State

end Microstep
