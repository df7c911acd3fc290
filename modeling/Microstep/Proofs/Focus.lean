import Microstep.Proofs.Following
import Microstep.Proofs.Operands

/-!
# Expressions in focus

A run follows the evaluation of an expression while the expression has the focus of the current
command: as long as a node is due in it, that node is what the command steps next. The focus passes
from an expression to its operands, from left to right, and back to its own node. Nothing that is
known of nodes elsewhere changes meanwhile.

* `Command.Focus`, `Command.Focus.pass`: the part of a command that decides what is due;
* `State.Stands`, `State.Within`: a run at a command, and what it changes below some nodes;
* `State.eval_follows`: the evaluation of an expression, given that calls are answered
  (`Program.Answered`);
* `State.operands_follow`: the evaluation of all operands of a command.
-/

namespace Microstep

/-- While values change only at the nodes of the region, what is due in the search is what is due in
the command. -/
def Command.Focus {α : Type} (c : Command) (known : ExprPath → Option Value)
    (region : ExprPath → Prop) (search : (ExprPath → Option Value) → Readiness α) : Prop :=
  ∀ known', (∀ path, ¬ region path → known' path = known path) →
    ∀ r, search known' = .due r → c.readiness known' = .due r

/-- The focus passes to a part of the search, once what comes before the part is settled. -/
theorem Command.Focus.pass {α β : Type} {c : Command} {known known₁ : ExprPath → Option Value}
    {region region' : ExprPath → Prop} {search : (ExprPath → Option Value) → Readiness α}
    {part : (ExprPath → Option Value) → Readiness β} (focus : c.Focus known region search)
    (settled : ∀ path, ¬ region path → known₁ path = known path)
    (within : ∀ path, region' path → region path)
    (due : ∀ known' r, (∀ path, ¬ region' path → known' path = known₁ path) →
      part known' = .due r → search known' = .due r) :
    c.Focus known₁ region' part := by
  intro known' agrees r hr
  refine focus known' (fun path hout => ?_) r (due known' r agrees hr)
  rw [agrees path fun hin => hout (within path hin), settled path hout]

namespace Expr

variable {known known' : ExprPath → Option Value} {path q : ExprPath} {e : Expr}
  {es : List (ExprPath × Expr)} {index : Nat}

/-- The nodes of the given expressions. -/
def Below (es : List (ExprPath × Expr)) (path : ExprPath) : Prop :=
  ∃ o ∈ es, o.1 <+: path

theorem below_cons_iff : Below ((path, e) :: es) q ↔ path <+: q ∨ Below es q := by
  simp [Below]

/-- Expressions that stand apart have no nodes in common. -/
theorem not_prefix_of_below (apart : ∀ o ∈ es, Apart (path, e) o) (hq : Below es q) :
    ¬ path <+: q := by
  obtain ⟨o, ho, hq⟩ := hq
  intro hp
  obtain hle | hle := List.prefix_or_prefix_of_prefix hp hq
  · exact (apart o ho).1 hle
  · exact (apart o ho).2 hle

theorem below_placed {es : List Expr} (hq : Below (placed path index es) q) :
    path <+: q ∧ q ≠ path := by
  obtain ⟨o, ho, hq⟩ := hq
  obtain ⟨i, -, hp, -⟩ := of_mem_placed ho
  rw [hp] at hq
  refine ⟨(List.prefix_append ..).trans hq, ?_⟩
  rintro rfl
  exact absurd hq.length_le (by simp)

theorem value?_congr (h : known' path = known path) (e : Expr) :
    e.value? known' path = e.value? known path := by
  cases e <;> first | rfl | exact h

theorem readinessEach_cons (known : ExprPath → Option Value) (path : ExprPath) (e : Expr)
    (es : List (ExprPath × Expr)) :
    readinessEach known ((path, e) :: es) =
      e.readiness known path >>= fun v => readinessEach known es >>= fun vs => .ready (v :: vs) :=
  rfl

/-- A node without a value is due once its operands, each at its place, have values. -/
theorem readiness_placed (hconst : e.isConst = false) (hk : known path = none) :
    e.readiness known path =
      readinessEach known (placed path 0 e.children) >>= fun vs => .due ⟨path, e, vs⟩ := by
  rw [readiness_of_none (by rwa [value?_of_not_const (by simp [hconst])]), readinessOf_eq_each]

end Expr

namespace State

variable {p : Program} {s s' t : State} {f : Frame} {rest : List Frame} {r : Redex} {c : Command}
  {fuel : Nat} {region region' : ExprPath → Prop} {h h' : Heap} {v : Value} {path : ExprPath}

/-- The run is at the command `c` in the activation `f`. -/
structure Stands (p : Program) (c : Command) (f : Frame) (rest : List Frame) (s : State) :
    Prop where
  valid : Valid p s
  status : s.status = .running
  stack : s.memory.stack = f :: rest
  command : p.commandAt s.position = .ok (some c)
  sound : c.fault? = none

/-- Between `s` and `s'`, at the same command, only values at the nodes of the region have changed,
and the heap, which is now `h`. -/
structure Within (region : ExprPath → Prop) (s : State) (h : Heap) (s' : State) : Prop where
  status : s'.status = s.status
  position : s'.position = s.position
  memory : ∃ f rest pending, s.memory.stack = f :: rest ∧
    s'.memory = ⟨h, { f with pending } :: rest⟩
  known : ∀ path, ¬ region path → s'.known path = s.known path

theorem Stands.transition_eq (hs : Stands p c f rest s) :
    s.transition p = s.onReady p (c.readiness s.known) (s.perform p c) := by
  rw [transition, hs.command, ok_bind]
  exact execute_eq hs.stack hs.sound

theorem Stands.memory_eq (hs : Stands p c f rest s) :
    s = { s with memory := ⟨s.memory.heap, f :: rest⟩ } := by
  rw [← hs.stack]

theorem Within.heap (hw : Within region s h s') : s'.memory.heap = h := by
  obtain ⟨f, rest, pending, -, hm⟩ := hw.memory
  rw [hm]

theorem Stands.within (hs : Stands p c f rest s) (hw : Within region s h s') (hv : Valid p s') :
    ∃ pending, Stands p c { f with pending } rest s' := by
  obtain ⟨g, rest', pending, hstack, hm⟩ := hw.memory
  obtain ⟨rfl, rfl⟩ := List.cons.inj (hstack.symm.trans hs.stack)
  exact ⟨pending, hv, hw.status.trans hs.status, by rw [hm], hw.position ▸ hs.command, hs.sound⟩

theorem Stands.within_refl (hs : Stands p c f rest s) : Within region s s.memory.heap s := by
  exact ⟨rfl, rfl, ⟨f, rest, f.pending, hs.stack, by rw [← hs.stack]⟩, fun _ _ => rfl⟩

theorem Within.trans (hw : Within region s h s') (hw' : Within region' s' h' t)
    (hr : ∀ path, region' path → region path) : Within region s h' t := by
  obtain ⟨f, rest, pending, hstack, hm⟩ := hw.memory
  obtain ⟨g, below, pending', hstack', hm'⟩ := hw'.memory
  rw [hm] at hstack'
  cases hstack'
  exact ⟨hw'.status.trans hw.status, hw'.position.trans hw.position,
    ⟨f, rest, pending', hstack, hm'⟩,
    fun path hout => (hw'.known path fun hin => hout (hr path hin)).trans (hw.known path hout)⟩

theorem Within.weaken (hw : Within region s h s') (hr : ∀ path, region path → region' path) :
    Within region' s h s' :=
  ⟨hw.status, hw.position, hw.memory, fun path hout => hw.known path fun hin => hout (hr path hin)⟩

/-- A value is kept for one node. -/
theorem within_record (hstack : s.memory.stack = f :: rest) (status : s'.status = s.status)
    (position : s'.position = s.position)
    (hm : s'.memory = ⟨h, f.record (s.site path) v :: rest⟩) :
    Within (· = path) s h s' ∧ s'.known path = some v := by
  have known (q : ExprPath) :
      s'.known q = if s.site path = s.site q then some v else s.known q := by
    have hsite : s'.site q = s.site q := by rw [site, site, position]
    rw [known_eq (by rw [hm]), known_eq hstack, ← Frame.getElem?_pending_record, hsite]
  refine ⟨⟨status, position, ⟨f, rest, _, hstack, hm⟩, fun q hq => ?_⟩, ?_⟩
  · rw [known, if_neg fun he => hq (congrArg Site.path he).symm]
  · rw [known, if_pos rfl]

end State

/-- Runs follow the answers to calls with some fuel: they keep what a call yields. -/
def Program.Answered (p : Program) (fuel : Nat) : Prop :=
  ∀ {s : State} {c : Command} {f : Frame} {rest : List Frame} {r : Redex} {receiver : Expr}
    {method : String} {args : List Expr} {v : Value} {vs : List Value},
    State.Stands p c f rest s → c.readiness s.known = .due r →
    r.source = .call receiver method args → r.values = v :: vs →
    s.Follows p fuel
      (fun a s' => State.Within (· = r.path) s a.2 s' ∧ s'.known r.path = some a.1)
      (p.answer fuel r.source v method vs s.memory.heap)

namespace State

variable {p : Program} {s s' : State} {f : Frame} {rest : List Frame} {r : Redex} {c : Command}
  {fuel : Nat} {path : ExprPath}

/-- The step of the due node, or the run of the body that it calls. -/
theorem node_follows (answered : p.Answered fuel) (hs : Stands p c f rest s)
    (hr : c.readiness s.known = .due r) :
    s.Follows p fuel (fun a s' => Within (· = r.path) s a.2 s' ∧ s'.known r.path = some a.1)
      (r.source.finish p (p.answer fuel) f.toScope s.memory.heap r.values) := by
  obtain ⟨hconst, hlen⟩ := Command.operands_of_readiness hr
  cases hcall : r.source.isCall with
  | false =>
    rw [Expr.finish_of_not_call hcall]
    refine follows_step hs.status hs.valid (k := fun a =>
      { s with memory := ⟨a.2, f.record (s.site r.path) a.1 :: rest⟩ }) ?_ fun a q => ?_
    · rw [hs.transition_eq, hr, onReady_due, fire_value hs.stack hconst hcall hlen]
    · exact within_record hs.stack rfl rfl rfl
  | true =>
    obtain ⟨receiver, method, args, v, vs, source, values⟩ := call_of_isCall hcall hlen
    have h := answered hs hr source values
    rw [source] at h ⊢
    rwa [values]

/-- A run follows the evaluation of the expression wherever the expression has the focus. -/
def Evaluates (p : Program) (fuel : Nat) (e : Expr) : Prop :=
  ∀ {s : State} {c : Command} {f : Frame} {rest : List Frame} {path : ExprPath},
    Stands p c f rest s → c.Focus s.known (path <+: ·) (e.readiness · path) →
    (∀ q, path <+: q → s.known q = none) →
    s.Follows p fuel
      (fun a s' => Within (path <+: ·) s a.2 s' ∧ e.value? s'.known path = some a.1)
      (e.eval p (p.answer fuel) f.toScope s.memory.heap)

/-- Expressions that stand apart are evaluated one after the other. -/
theorem evalAll_follows {es : List (ExprPath × Expr)} (hs : Stands p c f rest s)
    (evaluates : ∀ o ∈ es, Evaluates p fuel o.2) (apart : es.Pairwise Expr.Apart)
    (focus : c.Focus s.known (Expr.Below es) (Expr.readinessEach · es))
    (unknown : ∀ q, Expr.Below es q → s.known q = none) :
    s.Follows p fuel
      (fun a s' => Within (Expr.Below es) s a.2 s' ∧ Expr.readinessEach s'.known es = .ready a.1)
      (Expr.evalAll p (p.answer fuel) f.toScope s.memory.heap (es.map (·.2))) := by
  induction es generalizing s f with
  | nil => exact follows_done ⟨hs.within_refl, rfl⟩
  | cons o es ih =>
    obtain ⟨path, e⟩ := o
    obtain ⟨hapart, apart⟩ := List.pairwise_cons.mp apart
    obtain ⟨hevaluates, evaluates⟩ := List.forall_mem_cons.mp evaluates
    have hfirst (q : ExprPath) (hq : path <+: q) : Expr.Below ((path, e) :: es) q :=
      Expr.below_cons_iff.mpr (.inl hq)
    have hothers (q : ExprPath) (hq : Expr.Below es q) : Expr.Below ((path, e) :: es) q :=
      Expr.below_cons_iff.mpr (.inr hq)
    rw [List.map_cons, Expr.evalAll_cons]
    refine .bind hs.valid (hevaluates hs ?_ fun q hq => unknown q (hfirst q hq)) ?_
    · refine focus.pass (fun _ _ => rfl) hfirst fun known' r _ hr => ?_
      rw [Expr.readinessEach_cons, hr, Readiness.due_bind]
    rintro ⟨v, h⟩ s₁ hv₁ ⟨hw₁, hvalue⟩
    obtain ⟨pending, hs₁⟩ := hs.within hw₁ hv₁
    have hsettled (q : ExprPath) (hq : ¬ Expr.Below ((path, e) :: es) q) :=
      hw₁.known q fun hp => hq (hfirst q hp)
    -- the other expressions leave alone what is known of the first one
    have ready (known' : ExprPath → Option Value)
        (agrees : ∀ q, ¬ Expr.Below es q → known' q = s₁.known q) :
        e.readiness known' path = .ready v := by
      have hout : ¬ Expr.Below es path := fun hin =>
        Expr.not_prefix_of_below hapart hin List.prefix_rfl
      exact Expr.readiness_of_value (by rw [Expr.value?_congr (agrees path hout), hvalue])
    have hrest := ih hs₁ evaluates apart (focus.pass hsettled hothers fun known' r agrees hr => ?_)
      fun q hq => ?_
    · rw [← hw₁.heap]
      refine .bind hv₁ hrest ?_
      rintro ⟨vs, h'⟩ s₂ hv₂ ⟨hw₂, hready⟩
      refine follows_done ⟨(hw₁.weaken hfirst).trans hw₂ hothers, ?_⟩
      rw [Expr.readinessEach_cons, ready _ hw₂.known, hready]
      rfl
    · rw [Expr.readinessEach_cons, ready _ agrees, Readiness.ready_bind, hr, Readiness.due_bind]
    · rw [hw₁.known q (Expr.not_prefix_of_below hapart hq), unknown q (hothers q hq)]

/-- A run follows the evaluation of every expression. -/
theorem eval_follows (answered : p.Answered fuel) (e : Expr) : Evaluates p fuel e := by
  induction e using Expr.childrenInduction with
  | node e ih =>
    intro s c f rest path hs focus unknown
    cases hconst : e.isConst with
    | true =>
      cases e with
      | const v => exact follows_done ⟨hs.within_refl, rfl⟩
      | _ => cases hconst
    | false =>
      have hpath (q : ExprPath) (hq : Expr.Below (Expr.placed path 0 e.children) q) : path <+: q :=
        (Expr.below_placed hq).1
      have hself (known' : ExprPath → Option Value)
          (agrees : ∀ q, ¬ Expr.Below (Expr.placed path 0 e.children) q → known' q = s.known q) :
          known' path = none := by
        rw [agrees path fun hin => (Expr.below_placed hin).2 rfl, unknown path List.prefix_rfl]
      rw [Expr.eval_eq hconst, ← Expr.map_placed path 0 e.children]
      refine .bind hs.valid (evalAll_follows hs (fun o ho => ?_) Expr.pairwise_placed ?_
        fun q hq => unknown q (hpath q hq)) ?_
      · obtain ⟨i, -, -, he⟩ := Expr.of_mem_placed ho
        exact ih _ he
      · refine focus.pass (fun _ _ => rfl) hpath fun known' r agrees hr => ?_
        rw [Expr.readiness_placed hconst (hself known' agrees), hr, Readiness.due_bind]
      rintro ⟨vs, h⟩ s₁ hv₁ ⟨hw₁, hready⟩
      obtain ⟨pending, hs₁⟩ := hs.within hw₁ hv₁
      have hr : c.readiness s₁.known = .due ⟨path, e, vs⟩ := by
        refine focus _ (fun q hq => hw₁.known q fun hin => hq (hpath q hin)) _ ?_
        dsimp only
        rw [Expr.readiness_placed hconst (hself _ hw₁.known), hready, Readiness.ready_bind]
      rw [← hw₁.heap]
      refine (node_follows answered hs₁ hr).weaken ?_
      rintro a s₂ ⟨hw₂, hvalue⟩
      refine ⟨(hw₁.weaken hpath).trans hw₂ fun q hq => ?_, ?_⟩
      · exact hq ▸ List.prefix_rfl
      · rw [Expr.value?_of_not_const (by simp [hconst]), hvalue]

/-- A run at a command for whose nodes it keeps no values follows the evaluation of its operands. -/
theorem operands_follow (answered : p.Answered fuel) (hs : Stands p c f rest s)
    (unknown : ∀ q, s.known q = none) :
    s.Follows p fuel
      (fun a s' => Within (fun _ => True) s a.2 s' ∧ c.readiness s'.known = .ready a.1)
      (Expr.evalAll p (p.answer fuel) f.toScope s.memory.heap (c.operands.map (·.2))) := by
  refine (evalAll_follows hs (fun o _ => eval_follows answered o.2) c.pairwise_operands
    (fun _ _ _ hr => hr) fun q _ => unknown q).weaken ?_
  rintro a s' ⟨hw, hready⟩
  exact ⟨hw.weaken fun _ _ => trivial, hready⟩

end State

end Microstep
