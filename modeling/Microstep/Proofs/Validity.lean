import Microstep.Proofs.Ancestry
import Microstep.Proofs.Execution
import Microstep.Proofs.Succession
import Microstep.Proofs.WorkOrder

/-!
# Valid states

What is true of every state of a run. The running activation stands at a command or at the end of a
body, and keeps values for the first nodes of the command's work list, in the order of the list, and
for nothing else. Each activation below stands at a command, has values for the nodes before the
call for which it waits, and for nothing else. The objects on the heap are of types that the program
defines.

* `State.Valid`, `State.transition_valid`: the invariant, and that a step preserves it;
* `State.iterate_valid`: every state of a run is valid;
* `State.pending_prefix`: the values that a reachable state keeps.
-/

namespace Microstep

/-- The frame keeps values for exactly the given nodes of the command at `position`. -/
def Frame.Keeps (f : Frame) (position : Position) (nodes : List ExprPath) : Prop :=
  ∀ site, site ∈ f.pending ↔ site.position = position ∧ site.path ∈ nodes

namespace Frame

variable {f : Frame} {position : Position} {nodes : List ExprPath}

theorem keeps_enter (scope : Scope) (method : String) (caller : Option Site) (type : String) :
    (Frame.enter scope method caller type).Keeps position [] := by
  intro site
  simp [enter]

theorem Keeps.record {path : ExprPath} (h : f.Keeps position nodes) (v : Value) :
    (f.record ⟨position, path⟩ v).Keeps position (nodes ++ [path]) := by
  intro site
  simp only [Frame.record, Std.ExtTreeMap.mem_insert, Std.compare_eq_iff_eq, h site,
    List.mem_append, List.mem_singleton]
  constructor
  · rintro (rfl | ⟨rfl, hp⟩)
    · exact ⟨rfl, .inr rfl⟩
    · exact ⟨rfl, .inl hp⟩
  · rintro ⟨rfl, hp | rfl⟩
    · exact .inr ⟨rfl, hp⟩
    · exact .inl rfl

theorem Keeps.bind (h : f.Keeps position nodes) (name : String) (v : Value) :
    (f.bind name v).Keeps position nodes := h

/-- Leaving a command forgets the values of its nodes, and there were no others. -/
theorem Keeps.clear (h : f.Keeps position nodes) (q : Position) :
    (f.clear position).Keeps q [] := by
  intro site
  have hs := f.getElem?_pending_clear position site
  rw [Std.ExtTreeMap.mem_iff_isSome_getElem?, hs]
  split
  · simp
  · rename_i hne
    have hout : ¬ site ∈ f.pending := fun hin => hne ((h site).mp hin).1
    rw [Std.ExtTreeMap.mem_iff_isSome_getElem?] at hout
    simp [hout]

end Frame

/-- The nodes that have to be evaluated before a run goes on; none at the end of a body. -/
def workListAt : Option Command → List ExprPath
  | none => []
  | some c => c.workList

/-- The activation `f` stands at `position`, and has evaluated the first nodes of the work list. -/
def Frame.Active (p : Program) (f : Frame) (position : Position) : Prop :=
  ∃ command? done later, p.commandAt position = .ok command? ∧
    workListAt command? = done ++ later ∧ f.Keeps position done

/-- The activation `f` waits for the value of the node at `site`, and has evaluated the nodes before
it. -/
def Frame.Suspended (p : Program) (f : Frame) (site : Site) : Prop :=
  ∃ c done later, p.commandAt site.position = .ok (some c) ∧
    c.workList = done ++ site.path :: later ∧ f.Keeps site.position done

/-- The activations below one that returns to `caller`. -/
def Waiting (p : Program) : Option Site → List Frame → Prop
  | none, [] => True
  | some site, f :: rest => f.Suspended p site ∧ Waiting p f.caller rest
  | _, _ => False

/-- The objects are of types that the program defines. -/
def Heap.Typed (p : Program) (h : Heap) : Prop :=
  ∀ a o, h.get a = .ok o → ∃ t, p.table.type? o.type = some t

/-- What is true of every state of a run. -/
inductive State.Valid (p : Program) (s : State) : Prop
  | running {f : Frame} {rest : List Frame} (status : s.status = .running)
      (stack : s.memory.stack = f :: rest) (active : f.Active p s.position)
      (waiting : Waiting p f.caller rest) (typed : s.memory.heap.Typed p)
  | finished {v : Option Value} (status : s.status = .finished v) (stack : s.memory.stack = [])
      (typed : s.memory.heap.Typed p)

namespace Heap

variable {p : Program} {h h' : Heap}

theorem typed_empty : Heap.empty.Typed p := by
  intro a o ho
  simp [get, empty] at ho

theorem Typed.allocate (ht : h.Typed p) {type : String} {o : Object}
    (fresh : p.instantiate type = .ok o) : (h.allocate o).2.Typed p := by
  intro a o' ho
  rw [get_allocate] at ho
  split at ho
  · cases ho
    exact Program.type?_of_instantiate fresh
  · exact ht a o' ho

/-- A write that succeeds changes one field of one object. -/
theorem get_write {a : Address} {name : String} {v : Value} (hw : h.write a name v = .ok h') :
    ∃ o, h.get a = .ok o ∧ ∀ b,
      h'.get b = if b = a then .ok { o with fields := o.fields.insert name v } else h.get b := by
  obtain ⟨o, ho, hw⟩ := bind_eq_ok_iff.mp hw
  obtain ⟨o', hwrite, hw⟩ := bind_eq_ok_iff.mp hw
  cases hw
  rw [Object.write] at hwrite
  split at hwrite
  · cases hwrite
    refine ⟨o, ho, fun b => ?_⟩
    have hlt : a.index < h.objects.size := Nat.lt_of_not_le fun hge => by
      simp [get, Array.getElem?_eq_none hge] at ho
    obtain ⟨i⟩ := a
    obtain ⟨j⟩ := b
    by_cases hij : i = j
    · subst hij
      simp [get, hlt]
    · simp [get, hij, Ne.symm hij]
  · cases hwrite

theorem Typed.write (ht : h.Typed p) {a : Address} {name : String} {v : Value}
    (hw : h.write a name v = .ok h') : h'.Typed p := by
  obtain ⟨o, ho, hget⟩ := get_write hw
  intro b u hu
  rw [hget] at hu
  split at hu
  · cases hu
    exact ht a o ho
  · exact ht b u hu

end Heap

theorem mem_left_iff {α : Type} {xs ys : List α} (hn : (xs ++ ys).Nodup) {i : Nat} {x : α}
    (hi : (xs ++ ys)[i]? = some x) : x ∈ xs ↔ i < xs.length := by
  constructor
  · intro hx
    obtain ⟨j, hj⟩ := List.getElem?_of_mem hx
    have hlt := (List.getElem?_eq_some_iff.mp hj).1
    have hj' : (xs ++ ys)[j]? = (xs ++ ys)[i]? := by
      rw [hi, List.getElem?_append_left hlt, hj]
    rwa [← (List.getElem?_inj (by rw [List.length_append]; omega) hn).mp hj']
  · intro hlt
    rw [List.getElem?_append_left hlt] at hi
    exact List.mem_of_getElem? hi

namespace State

variable {p : Program} {s s' : State} {f : Frame} {rest : List Frame} {r : Redex} {c : Command}
  {done later : List ExprPath}

theorem knownUpTo (hs : s.memory.stack = f :: rest) (hk : f.Keeps s.position done)
    (hn : (done ++ later).Nodup) : KnownUpTo s.known done.length (done ++ later) := by
  intro i q hi
  rw [known_eq hs, ← Std.ExtTreeMap.mem_iff_isSome_getElem?, hk, ← mem_left_iff hn hi]
  exact ⟨fun h => h.2, fun h => ⟨rfl, h⟩⟩

/-- The node that is due is the first one of the work list that has no value. -/
theorem path?_readiness (hs : s.memory.stack = f :: rest) (hw : c.workList = done ++ later)
    (hk : f.Keeps s.position done) : (c.readiness s.known).path? = later.head? := by
  have hn := hw ▸ c.nodup_workList
  rw [Command.path?_readiness (hw ▸ knownUpTo hs hk hn), hw, List.getElem?_append_right (by simp)]
  cases later <;> simp

theorem workList_of_due (hs : s.memory.stack = f :: rest)
    (hc : p.commandAt s.position = .ok (some c)) (ha : f.Active p s.position)
    (hr : c.readiness s.known = .due r) :
    ∃ done later, c.workList = done ++ r.path :: later ∧ f.Keeps s.position done := by
  obtain ⟨command?, done, later, hc', hw, hk⟩ := ha
  rw [hc] at hc'
  cases hc'
  have hp := path?_readiness hs hw hk
  rw [hr] at hp
  cases later with
  | nil => cases hp
  | cons q later =>
    cases hp
    exact ⟨done, later, hw, hk⟩

theorem active_of_resolves {position q : Position} (hq : p.Resolves q) {nodes : List ExprPath}
    (hk : f.Keeps position nodes) : (f.clear position).Active p q := by
  obtain ⟨command?, hq⟩ := hq
  exact ⟨command?, [], _, hq, rfl, hk.clear q⟩

theorem active_enter {type method : String} {arity : Nat} {found : Implementation}
    (hf : p.dispatch type method arity = .ok found) {scope : Scope} {caller : Option Site} :
    (Frame.enter scope method caller type).Active p (.entry found.owner.name method) := by
  obtain ⟨command?, hentry⟩ :=
    Program.resolves_body (Program.body?_of_dispatch hf) (Nat.zero_le _)
  exact ⟨command?, [], _, hentry, rfl, Frame.keeps_enter _ _ _ _⟩

/-- The evaluation of a due node preserves validity. -/
theorem Fires.valid (hs : s.memory.stack = f :: rest) (status : s.status = .running)
    (hc : p.commandAt s.position = .ok (some c)) (hr : c.readiness s.known = .due r)
    (active : f.Active p s.position) (waiting : Waiting p f.caller rest)
    (typed : s.memory.heap.Typed p) (h : Fires p s f rest r s') : Valid p s' := by
  obtain ⟨done, later, hw, hk⟩ := workList_of_due hs hc active hr
  have hw' : c.workList = (done ++ [r.path]) ++ later := by simp [hw]
  cases h with
  | value v source =>
    exact .running status rfl ⟨_, _, later, hc, hw', hk.record v⟩ waiting typed
  | object source fresh =>
    exact .running status rfl ⟨_, _, later, hc, hw', hk.record _⟩ waiting (typed.allocate fresh)
  | call source values typeOf dispatch =>
    have hcaller : Waiting p (some (s.site r.path)) s.memory.stack := by
      rw [hs]
      exact ⟨⟨c, done, later, hc, hw, hk⟩, waiting⟩
    exact .running status rfl (active_enter dispatch) hcaller typed

/-- A return preserves validity. -/
theorem Returns.valid {v : Option Value} (status : s.status = .running)
    (waiting : Waiting p f.caller rest) (typed : s.memory.heap.Typed p)
    (h : Returns s f rest v s') : Valid p s' := by
  cases h with
  | finish caller =>
    rw [caller] at waiting
    cases rest with
    | nil => exact .finished rfl rfl typed
    | cons g below => exact waiting.elim
  | resume caller hrest =>
    subst hrest
    rw [caller] at waiting
    obtain ⟨⟨c, done, later, hc, hw, hk⟩, below⟩ := waiting
    exact .running status rfl ⟨_, _, later, hc, by simp [workListAt, hw], hk.record _⟩ below typed

theorem Goes.resolves {position q : Position} (hc : p.commandAt position = .ok (some c))
    (h : Goes p c position q) : p.Resolves q := by
  cases h with
  | entry => exact Program.afterEntry_resolves hc
  | next next =>
    obtain ⟨q', hq', hr⟩ := Program.next_resolves hc
    cases next.symm.trans hq'
    exact hr
  | branch branch? inside => exact Program.descend_resolves hc branch? inside

/-- A command that takes effect preserves validity. -/
theorem Performs.valid (status : s.status = .running)
    (hc : p.commandAt s.position = .ok (some c)) (active : f.Active p s.position)
    (waiting : Waiting p f.caller rest) (typed : s.memory.heap.Typed p)
    (h : Performs p s f rest c s') : Valid p s' := by
  cases h with
  | @move heap g q write bind goes =>
    obtain ⟨_, done, _, -, -, hk⟩ := active
    have ht : heap.Typed p := by
      obtain rfl | ⟨a, name, v, hw⟩ := write
      · exact typed
      · exact typed.write hw
    obtain rfl | ⟨name, v, rfl⟩ := bind
    · exact .running status rfl (active_of_resolves (goes.resolves hc) hk) waiting ht
    · exact .running status rfl (active_of_resolves (goes.resolves hc) (hk.bind name v)) waiting ht
  | «return» _ returns => exact returns.valid status waiting typed

/-- A run that goes on has a running activation. -/
theorem Valid.of_running (hv : Valid p s) (status : s.status = .running) :
    ∃ f rest, s.memory.stack = f :: rest ∧ f.Active p s.position ∧ Waiting p f.caller rest ∧
      s.memory.heap.Typed p := by
  cases hv with
  | finished hf => rw [status] at hf; cases hf
  | running _ hs active waiting typed => exact ⟨_, _, hs, active, waiting, typed⟩

theorem Valid.typed (hv : Valid p s) : s.memory.heap.Typed p := by
  cases hv with
  | running _ _ _ _ typed => exact typed
  | finished _ _ typed => exact typed

theorem running_of_isFinished (unfinished : s.isFinished = false) : s.status = .running := by
  unfold isFinished at unfinished
  split at unfinished
  · assumption
  · cases unfinished

/-- A step preserves validity, whether or not the cursor is placed anew. -/
theorem transition_valid (status : s.status = .running) (hv : Valid p s)
    (h : s.transition p = .ok s') : Valid p s' := by
  obtain ⟨f, rest, hs, active, waiting, typed⟩ := hv.of_running status
  obtain ⟨command?, hc, h⟩ := bind_eq_ok_iff.mp h
  cases command? with
  | none => exact (returnWith_cases hs h).valid status waiting typed
  | some c =>
    obtain ⟨r, hr, fires⟩ | ⟨vs, -, performs⟩ := execute_cases hs h
    · exact fires.valid hs status hc hr active waiting typed
    · exact performs.valid status hc active waiting typed

theorem Valid.withCursor (hv : Valid p s) (path : ExprPath) :
    Valid p { s with cursor := path } := by
  cases hv with
  | running status hs active waiting typed => exact .running status hs active waiting typed
  | finished status hs typed => exact .finished status hs typed

theorem refresh_cases (h : s.refresh p = .ok s') : ∃ path, s' = { s with cursor := path } := by
  obtain ⟨command?, -, h⟩ := bind_eq_ok_iff.mp h
  cases command? with
  | none => cases h; exact ⟨_, rfl⟩
  | some c =>
    obtain ⟨path, -, h⟩ := bind_eq_ok_iff.mp h
    cases h
    exact ⟨path, rfl⟩

theorem advance_eq_ok (h : s.advance p = .ok s') :
    s.status = .running ∧
      ∃ next path, s.transition p = .ok next ∧ s' = { next with cursor := path } := by
  rw [advance] at h
  split at h
  · cases h
  · rename_i status
    obtain ⟨next, hn, h⟩ := bind_eq_ok_iff.mp h
    obtain ⟨path, rfl⟩ := refresh_cases h
    exact ⟨status, next, path, hn, rfl⟩

theorem advance_valid (hv : Valid p s) (h : s.advance p = .ok s') : Valid p s' := by
  obtain ⟨status, next, path, hn, rfl⟩ := advance_eq_ok h
  exact (transition_valid status hv hn).withCursor path

theorem start_valid {type method : String} (h : State.start p type method = .ok s) :
    Valid p s := by
  obtain ⟨o, ho, h⟩ := bind_eq_ok_iff.mp h
  obtain ⟨position, hp, h⟩ := bind_eq_ok_iff.mp h
  cases h
  obtain ⟨found, hf, hp⟩ := bind_eq_ok_iff.mp hp
  cases hp
  exact .running rfl rfl (active_enter hf) trivial (Heap.typed_empty.allocate ho)

/-- What each step preserves is true of all states of a run if it is true of the first. -/
theorem iterate_induction {motive : State → Prop} {n : Nat}
    (step : ∀ t t', motive t → t.advance p = .ok t' → motive t') (first : motive s)
    (h : s.iterate p n = .ok s') : motive s' := by
  induction n generalizing s with
  | zero => cases h; exact first
  | succ n ih =>
    obtain ⟨next, hn, h⟩ := bind_eq_ok_iff.mp h
    exact ih (step s next first hn) h

/-- Every state of a run is valid. -/
theorem iterate_valid {n : Nat} (hv : Valid p s) (h : s.iterate p n = .ok s') : Valid p s' :=
  iterate_induction (fun _ _ => advance_valid) hv h

/-! ## The values that are kept -/

theorem take_of_workList {nodes : List ExprPath} (h : nodes = done ++ later) :
    nodes.take done.length = done := by
  simp [h]

theorem takeWhile_of_workList {path : ExprPath} (h : c.workList = done ++ path :: later) :
    c.workList.takeWhile (· ≠ path) = done := by
  have hn := h ▸ c.nodup_workList
  have hout : ∀ q ∈ done, q ≠ path := fun q hq =>
    (List.pairwise_append.mp hn).2.2 q hq path List.mem_cons_self
  rw [h, List.takeWhile_append_of_pos (by simpa using hout)]
  simp

theorem suspended_of_waiting {above below : Frame} {i : Nat} (hw : Waiting p f.caller rest)
    (ha : (f :: rest)[i]? = some above) (hb : (f :: rest)[i + 1]? = some below) :
    ∃ site, above.caller = some site ∧ below.Suspended p site := by
  induction i generalizing f rest with
  | zero =>
    cases rest with
    | nil => cases hb
    | cons g rest =>
      cases ha
      cases hb
      cases hc : above.caller with
      | none => rw [hc] at hw; exact hw.elim
      | some site =>
        rw [hc] at hw
        exact ⟨site, rfl, hw.1⟩
  | succ i ih =>
    cases rest with
    | nil => cases ha
    | cons g rest =>
      cases hc : f.caller with
      | none => rw [hc] at hw; exact hw.elim
      | some site =>
        rw [hc] at hw
        exact ih hw.2 ha hb

/-- A node with a value has values for all nodes below it. -/
theorem closed_of_keeps {position : Position} (hw : c.workList = done ++ later)
    (hk : f.Keeps position done) {site : Site} (hs : site ∈ f.pending) {path : ExprPath}
    (hp : path ∈ c.workList) (hbelow : site.path <+: path) : ⟨site.position, path⟩ ∈ f.pending := by
  obtain ⟨rfl, hin⟩ := (hk site).mp hs
  have hpair := hw ▸ c.pairwise_workList
  refine (hk _).mpr ⟨rfl, ?_⟩
  rw [hw] at hp
  obtain hp | hp := List.mem_append.mp hp
  · exact hp
  · exact absurd hbelow ((List.pairwise_append.mp hpair).2.2 _ hin _ hp)

/-- The frames of a state whose run goes on: the running activation keeps values for the first nodes
of the work list at its position, each activation below for the nodes before the call for which it
waits, and each node that has a value has values for all nodes below it. -/
theorem pending_prefix {type method : String} {s₀ : State} {n : Nat}
    (start : State.start p type method = .ok s₀) (run : s₀.iterate p n = .ok s)
    (unfinished : s.isFinished = false) :
    (∃ f rest command? k, s.memory.stack = f :: rest ∧ p.commandAt s.position = .ok command? ∧
      f.Keeps s.position ((workListAt command?).take k)) ∧
    (∀ i above below, s.memory.stack[i]? = some above → s.memory.stack[i + 1]? = some below →
      ∃ site c, above.caller = some site ∧ p.commandAt site.position = .ok (some c) ∧
        site.path ∈ c.workList ∧
        below.Keeps site.position (c.workList.takeWhile (· ≠ site.path))) ∧
    ∀ g ∈ s.memory.stack, ∀ site ∈ g.pending, ∃ c, p.commandAt site.position = .ok (some c) ∧
      site.path ∈ c.workList ∧
      ∀ path ∈ c.workList, site.path <+: path → ⟨site.position, path⟩ ∈ g.pending := by
  obtain ⟨f, rest, hs, active, waiting, -⟩ :=
    (iterate_valid (start_valid start) run).of_running (running_of_isFinished unfinished)
  rw [hs]
  refine ⟨?_, fun i above below ha hb => ?_, fun g hg site hsite => ?_⟩
  · obtain ⟨command?, done, later, hc, hw, hk⟩ := active
    exact ⟨f, rest, command?, done.length, rfl, hc, by rwa [take_of_workList hw]⟩
  · obtain ⟨site, hcaller, c, done, later, hc, hw, hk⟩ := suspended_of_waiting waiting ha hb
    exact ⟨site, c, hcaller, hc, by simp [hw], by rwa [takeWhile_of_workList hw]⟩
  · obtain ⟨i, hi⟩ := List.getElem?_of_mem hg
    cases i with
    | zero =>
      cases hi
      obtain ⟨command?, done, later, hc, hw, hk⟩ := active
      obtain ⟨hpos, hin⟩ := (hk site).mp hsite
      cases command? with
      | none => rw [(List.append_eq_nil_iff.mp hw.symm).1] at hin; cases hin
      | some c =>
        have hw : c.workList = done ++ later := hw
        exact ⟨c, hpos ▸ hc, by simp [hw, hin], fun path => closed_of_keeps hw hk hsite⟩
    | succ i =>
      obtain ⟨hlt, -⟩ := List.getElem?_eq_some_iff.mp hi
      obtain ⟨above, ha⟩ : ∃ above, (f :: rest)[i]? = some above :=
        ⟨_, List.getElem?_eq_getElem (by omega)⟩
      obtain ⟨r, -, c, done, later, hc, hw, hk⟩ := suspended_of_waiting waiting ha hi
      obtain ⟨hpos, hin⟩ := (hk site).mp hsite
      exact ⟨c, hpos ▸ hc, by simp [hw, hin], fun path => closed_of_keeps hw hk hsite⟩

end State

/-- What is seen of the state after some steps, computed. -/
theorem State.exists_of_view {α : Type} {p : Program} {type method : String} {n : Nat}
    {view : State → α} {a : α}
    (h : ((start p type method).bind (·.iterate p n)).toOption.map view = some a) :
    ∃ s₀ s, start p type method = .ok s₀ ∧ s₀.iterate p n = .ok s ∧ view s = a := by
  cases hs₀ : start p type method with
  | error e => rw [hs₀] at h; cases h
  | ok s₀ =>
    rw [hs₀] at h
    cases hs : s₀.iterate p n with
    | error e => simp [Except.bind, hs, Except.toOption] at h
    | ok s =>
      simp only [Except.bind, hs, Except.toOption, Option.map_some, Option.some.injEq] at h
      exact ⟨s₀, s, rfl, hs, h⟩

/-- A counter is raised twice within one condition; what it holds then is the result. -/
def Program.counter : Program where
  table := [
    ⟨"Counter", none, [⟨"n", .int⟩], [
      .ofBody "add" [⟨"k", .int⟩] [
        .assign (.field .self "n") (.apply .add [.field .self "n", .var "k"]),
        .ret (some (.field .self "n"))]]⟩,
    ⟨"Main", none, [], [
      .ofBody "main" [] [
        .assign (.var "c") (.new "Counter"),
        .cond (.apply .lt [.call (.var "c") "add" [.const (.int 1)],
            .call (.var "c") "add" [.const (.int 2)]])
          [.ret (some (.field (.var "c") "n"))] none]]⟩]
  fault?_eq_none := by decide

/-- During the second call the caller keeps the value of the first one, and of both receivers. -/
theorem State.pending_prefix_counter :
    ∃ s₀ s : State, ∃ g below : Frame, State.start .counter "Main" "main" = .ok s₀ ∧
      s₀.iterate .counter 18 = .ok s ∧ s.isFinished = false ∧ s.memory.stack = [g, below] ∧
      below.Keeps ⟨"Main", "main", [⟨0, 2⟩]⟩ [[0, 0, 0], [0, 0], [0, 1, 0]] := by
  have run : ((start .counter "Main" "main").bind (·.iterate .counter 18)).toOption.map
      (fun s => (s.isFinished, s.memory.stack.map (·.caller))) =
        some (false, [some ⟨⟨"Main", "main", [⟨0, 2⟩]⟩, [0, 1]⟩, none]) := by decide +kernel
  obtain ⟨s₀, s, hs₀, hs, h⟩ := exists_of_view run
  obtain ⟨unfinished, callers⟩ := Prod.mk.inj h
  obtain ⟨-, suspended, -⟩ := pending_prefix hs₀ hs unfinished
  obtain ⟨g, frames, hstack, hg, hframes⟩ := List.map_eq_cons_iff.mp callers
  obtain ⟨below, frames, rfl, -, hnil⟩ := List.map_eq_cons_iff.mp hframes
  obtain rfl := List.map_eq_nil_iff.mp hnil
  obtain ⟨site, c, hsite, hc, -, hk⟩ := suspended 0 g below (by simp [hstack]) (by simp [hstack])
  cases hg.symm.trans hsite
  cases hc.symm.trans (rfl : _ = Except.ok (some (Command.cond _ _ _)))
  exact ⟨s₀, s, g, below, hs₀, hs, unfinished, hstack, hk⟩

end Microstep
