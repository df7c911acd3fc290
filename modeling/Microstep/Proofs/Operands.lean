import Microstep.Evaluation
import Microstep.Proofs.Execution

/-!
# Operands in place

The evaluation of a node, its operands first and then the node itself, and the places at which its
operands stand, none of which lies below another.

* `Expr.finish`, `Expr.eval_eq`: a node after its operands;
* `Expr.placed`, `Expr.readinessOf_eq_each`: operands with their paths;
* `Command.effect`, `Command.run_eq`: a command after its operands.
-/

namespace Microstep

namespace Expr

variable {p : Program} {call : CallRule} {scope : Scope} {h : Heap}

/-- The value of a node whose operands have the given values, and the heap after it. -/
def finish (p : Program) (call : CallRule) (scope : Scope) (h : Heap) (e : Expr)
    (values : List Value) : Outcome (Value × Heap) :=
  match e, values with
  | .call receiver method args, v :: vs => call (.call receiver method args) v method vs h
  | e, vs => .ofExcept (e.result p scope h vs)

theorem finish_of_not_call {e : Expr} (hcall : e.isCall = false) (values : List Value) :
    e.finish p call scope h values = .ofExcept (e.result p scope h values) := by
  cases e <;> first | rfl | cases hcall

theorem evalAll_cons (e : Expr) (rest : List Expr) :
    evalAll p call scope h (e :: rest) =
      e.eval p call scope h >>= fun r =>
        evalAll p call scope r.2 rest >>= fun t => .done (r.1 :: t.1, t.2) := rfl

/-- The evaluation of a node: its operands from left to right, then the node. -/
theorem eval_eq {e : Expr} (hconst : e.isConst = false) :
    e.eval p call scope h =
      evalAll p call scope h e.children >>= fun r => e.finish p call scope r.2 r.1 := by
  cases e with
  | const v => cases hconst
  | self => rfl
  | var name =>
    simp only [eval, children, evalAll, finish, result, Outcome.done_bind]
    cases scope.read name <;> rfl
  | field receiver name =>
    simp only [eval, children, evalAll]
    cases receiver.eval p call scope h with
    | done r =>
      simp only [Outcome.done_bind, Outcome.pure_eq_done, finish, result]
      cases r.1.address (.field receiver name) with
      | error e => rfl
      | ok a =>
        show Outcome.ofExcept (r.2.read a name) >>= _ = Outcome.ofExcept (r.2.read a name >>= _)
        cases r.2.read a name <;> rfl
    | failed e => rfl
    | unfinished => rfl
  | apply op operands =>
    simp only [eval, children]
    cases evalAll p call scope h operands with
    | done r =>
      simp only [Outcome.done_bind, finish, result]
      cases r.2.applyOperator (.apply op operands) op r.1 <;> rfl
    | failed e => rfl
    | unfinished => rfl
  | call receiver method args =>
    simp only [eval, children, evalAll_cons]
    cases receiver.eval p call scope h with
    | done r =>
      simp only [Outcome.done_bind]
      cases evalAll p call scope r.2 args <;> rfl
    | failed e => rfl
    | unfinished => rfl
  | new type =>
    simp only [eval, children, evalAll, finish, result, Outcome.done_bind]
    cases p.instantiate type <;> rfl

/-- The operands of the node at `path`, counted from `index`, with their paths. -/
def placed (path : ExprPath) (index : Nat) : List Expr → List (ExprPath × Expr)
  | [] => []
  | e :: rest => (path ++ [index], e) :: placed path (index + 1) rest

/-- Neither of two expressions lies below the other. -/
def Apart (a b : ExprPath × Expr) : Prop :=
  ¬ a.1 <+: b.1 ∧ ¬ b.1 <+: a.1

variable {path : ExprPath} {index : Nat} {es : List Expr}

theorem map_placed (path : ExprPath) (index : Nat) (es : List Expr) :
    (placed path index es).map (·.2) = es := by
  induction es generalizing index with
  | nil => rfl
  | cons e rest ih => rw [placed, List.map_cons, ih]

theorem of_mem_placed {o : ExprPath × Expr} (ho : o ∈ placed path index es) :
    ∃ i, index ≤ i ∧ o.1 = path ++ [i] ∧ o.2 ∈ es := by
  induction es generalizing index with
  | nil => cases ho
  | cons e rest ih =>
    obtain rfl | ho := List.mem_cons.mp ho
    · exact ⟨index, Nat.le_refl _, rfl, List.mem_cons_self⟩
    · obtain ⟨i, hi, hp, he⟩ := ih ho
      exact ⟨i, by omega, hp, List.mem_cons_of_mem _ he⟩

theorem pairwise_placed : (placed path index es).Pairwise Apart := by
  induction es generalizing index with
  | nil => exact .nil
  | cons e rest ih =>
    refine .cons (fun o ho => ?_) ih
    obtain ⟨i, hi, hp, -⟩ := of_mem_placed ho
    rw [Apart, hp, List.prefix_append_right_inj, List.prefix_append_right_inj]
    simp only [List.cons_prefix_cons, List.nil_prefix, and_true]
    omega

theorem readinessOf_eq_each (known : ExprPath → Option Value) :
    readinessOf known path index es = readinessEach known (placed path index es) := by
  induction es generalizing index with
  | nil => rfl
  | cons e rest ih => rw [readinessOf, placed, readinessEach, ih]

end Expr

namespace Command

variable {p : Program} {call : CallRule} {scope : Scope} {h : Heap} {c : Command}

/-- What a command does once its operands have the given values. -/
def effect (p : Program) (call : CallRule) (scope : Scope) (h : Heap) (c : Command)
    (values : List Value) : Outcome (Flow × Scope × Heap) :=
  match c, values with
  | .assign (.var name) _, v :: _ => .done (.next, scope.bind name v, h)
  | .assign (.field receiver name) _, r :: v :: _ => do
    let a ← r.address (.field receiver name)
    return (.next, scope, ← h.write a name v)
  | .cond condition thenBranch elseBranch, v :: _ =>
    match v.bool? with
    | some true => runAll p call scope h thenBranch
    | some false => runElse p call scope h elseBranch
    | none => .failed (.typeError "bool" v.kind condition.text)
  | .ret none, _ => .done (.returned none, scope, h)
  | .ret (some _), v :: _ => .done (.returned (some v), scope, h)
  | _, _ => .done (.next, scope, h)

/-- A command is run operands first, unless it can never take effect. -/
theorem run_eq (hc : c.fault? = none) :
    c.run p call scope h =
      Expr.evalAll p call scope h (c.operands.map (·.2)) >>= fun r =>
        c.effect p call scope r.2 r.1 := by
  cases c with
  | entry => rfl
  | assign target value =>
    cases target with
    | var name =>
      simp only [run, operands, Expr.targetOperands, List.nil_append, List.map_cons, List.map_nil,
        Expr.evalAll_cons]
      cases value.eval p call scope h <;> rfl
    | field receiver name =>
      simp only [run, operands, Expr.targetOperands, List.singleton_append, List.map_cons,
        List.map_nil, Expr.evalAll_cons]
      cases receiver.eval p call scope h with
      | done r =>
        simp only [Outcome.done_bind]
        cases value.eval p call scope r.2 <;> rfl
      | failed e => rfl
      | unfinished => rfl
    | _ => cases hc
  | cond condition thenBranch elseBranch =>
    simp only [run, operands, List.map_cons, List.map_nil, Expr.evalAll_cons]
    cases condition.eval p call scope h <;> rfl
  | call receiver method args =>
    simp only [run, operands, List.map_cons, List.map_nil, Expr.evalAll_cons]
    cases (Expr.call receiver method args).eval p call scope h <;> rfl
  | ret value =>
    cases value with
    | none => rfl
    | some value =>
      simp only [run, operands, List.map_cons, List.map_nil, Expr.evalAll_cons]
      cases value.eval p call scope h <;> rfl

theorem run_of_fault {e : Error} (hc : c.fault? = some e) :
    c.run p call scope h = .failed e := by
  cases c with
  | assign target value => cases target <;> cases hc <;> rfl
  | _ => cases hc

theorem pairwise_operands : c.operands.Pairwise Expr.Apart := by
  cases c with
  | assign target value => cases target <;> simp [operands, Expr.targetOperands, Expr.Apart]
  | ret value => cases value <;> simp [operands]
  | _ => simp [operands]

end Command

end Microstep
