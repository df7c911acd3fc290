import Microstep.Proofs.Execution
import Microstep.Proofs.Succession

/-!
# The cursor and the step

What the cursor shows is what the next step does. If it stands on a node, the step of the command
evaluates that node or starts the call that will; if it stands on the command itself, the command
takes effect. This holds in every state with a running activation, whatever values that activation
keeps, and for every command, whether or not it is the one at the position of the state.
-/

namespace Microstep.State

variable {p : Program} {s s' : State} {f : Frame} {rest : List Frame} {r : Redex} {c : Command}

/-- `s'` is `s` with a value for the node at `path`, which had none. The heap is the same, but
perhaps for one new object. -/
def Evaluated (s : State) (path : ExprPath) (s' : State) : Prop :=
  s'.position = s.position ∧ s'.status = s.status ∧
    ∃ f g rest v heap, s.memory.stack = f :: rest ∧ f.Gains ⟨s.position, path⟩ v g ∧
      s'.memory = ⟨heap, g :: rest⟩ ∧
      (heap = s.memory.heap ∨ ∃ o, heap.objects = s.memory.heap.objects.push o)

/-- `s'` is in an activation that was started in `s` and returns to the node at `path`. The memory
is otherwise the same. -/
def Called (s : State) (path : ExprPath) (s' : State) : Prop :=
  ∃ g : Frame, g.caller = some ⟨s.position, path⟩ ∧ s'.memory = ⟨s.memory.heap, g :: s.memory.stack⟩

/-- The command `c` has taken effect between `s` and `s'`: it has called, it has returned, or the
program has gone on. An entry marker leads to the second command of its body, also from there. -/
def TookEffect (c : Command) (s s' : State) : Prop :=
  s'.depth = s.depth + 1 ∨ s'.depth + 1 = s.depth ∨
    s'.depth = s.depth ∧ (s'.position ≠ s.position ∨
      c = .entry ∧ s.position.path = [⟨0, 1⟩] ∧ s'.position = s.position)

theorem Fires.evaluated_or_called (hs : s.memory.stack = f :: rest)
    (unknown : f.pending[s.site r.path]? = none) (h : Fires p s f rest r s') :
    s.Evaluated r.path s' ∨ s.Called r.path s' := by
  have gains := Frame.gains_record unknown
  cases h with
  | value v source => exact .inl ⟨rfl, rfl, f, _, rest, v, _, hs, gains v, rfl, .inl rfl⟩
  | @object type o source fresh =>
    exact .inl ⟨rfl, rfl, f, _, rest, _, _, hs, gains _, rfl, .inr ⟨o, rfl⟩⟩
  | call source values typeOf dispatch => exact .inr ⟨_, rfl, rfl⟩

theorem Goes.ne_or_entry {position q : Position} (h : Goes p c position q) :
    q ≠ position ∨ c = .entry ∧ position.path = [⟨0, 1⟩] ∧ q = position := by
  cases h with
  | entry entry =>
    by_cases hp : position.path = [⟨0, 1⟩]
    · exact .inr ⟨entry, hp, by simp [Position.afterEntry, ← hp]⟩
    · exact .inl fun h => hp (congrArg Position.path h).symm
  | next next => exact .inl (Program.next_ne next)
  | branch branch? inside =>
    exact .inl fun h => by simpa [Position.descend] using congrArg Position.path h

theorem Performs.tookEffect (hs : s.memory.stack = f :: rest) (h : Performs p s f rest c s') :
    TookEffect c s s' := by
  have hd : s.depth = rest.length + 1 := by simp [depth, Memory.depth, hs]
  cases h with
  | move write bind goes => exact .inr (.inr ⟨hd.symm, goes.ne_or_entry⟩)
  | «return» _ returns =>
    cases returns with
    | finish caller => exact .inr (.inl hd.symm)
    | resume caller hrest =>
      subst hrest
      exact .inr (.inl hd.symm)

/-- The step of a command evaluates the node on which the cursor stands, or calls for it; if the
cursor stands on no node, the command takes effect. -/
theorem execute_at_cursor (p : Program) (s : State) (c : Command) (hs : s.memory.stack ≠ []) :
    ∃ path, s.cursorOf c = .ok path ∧ ∀ s', s.execute p c = .ok s' →
      (path ≠ [] → s.Evaluated path s' ∨ s.Called path s') ∧
      (path = [] → TookEffect c s s') := by
  obtain ⟨f, rest, hs⟩ := List.exists_cons_of_ne_nil hs
  refine ⟨_, cursorOf_eq hs c, fun s' h => ?_⟩
  obtain ⟨r, hr, fires⟩ | ⟨vs, hr, performs⟩ := execute_cases hs h
  · rw [hr]
    refine ⟨fun _ => fires.evaluated_or_called hs (unknown_of_due hs hr), fun hp => ?_⟩
    obtain ⟨receiver, method, args, -, hsource⟩ := Command.call_of_readiness hr hp
    cases fires with
    | value v source => rw [hsource] at source; cases source
    | object source fresh => rw [hsource] at source; cases source
    | call source values typeOf dispatch => exact .inl rfl
  · rw [hr]
    exact ⟨fun hp => absurd rfl hp, fun _ => performs.tookEffect hs⟩

/-- A return of `1 + x` starts with the value of `x`, which is kept for the node on the right. -/
theorem execute_at_cursor_sum :
    let frame := Frame.enter ((Scope.empty ⟨0⟩).bind "x" (.int 2)) "main" none "Main"
    let s : State := ⟨⟨.empty, [frame]⟩, .entry "Main" "main", [], .running⟩
    let c : Command := .ret (some (.apply .add [.const (.int 1), .var "x"]))
    s.cursorOf c = .ok [0, 1] ∧ ∃ s', s.execute ⟨[], rfl⟩ c = .ok s' ∧ s.Evaluated [0, 1] s' ∧
      s'.memory.stack.map (·.pending[(⟨s.position, [0, 1]⟩ : Site)]?) = [some (.int 2)] := by
  intro frame s c
  obtain ⟨path, hp, h⟩ := execute_at_cursor ⟨[], rfl⟩ s c (List.cons_ne_nil _ _)
  have hc : s.cursorOf c = .ok [0, 1] := rfl
  obtain rfl : path = [0, 1] := Except.ok.inj (hp.symm.trans hc)
  have he : s.execute ⟨[], rfl⟩ c =
      .ok { s with memory := ⟨.empty, [frame.record (s.site [0, 1]) (.int 2)]⟩ } := rfl
  have kept : [(frame.record (s.site [0, 1]) (.int 2)).pending[(⟨s.position, [0, 1]⟩ : Site)]?] =
      [some (.int 2)] := by decide +kernel
  obtain evaluated | ⟨g, -, memory⟩ := (h _ he).1 (by decide)
  · exact ⟨hc, _, he, evaluated, kept⟩
  · cases memory

end Microstep.State
