import Microstep.Program.Selection
import Microstep.Proofs.Acceptance
import Microstep.Proofs.Layout

/-!
# Dispatch

A call finds what `Selects` says of the ancestry: the nearest declaration of the name with as many
parameters as there are arguments. Therefore what is found for an ancestor is found for its
descendants too, unless one nearer to them declares a method that fits.

* `Program.dispatch_eq_iff`: what a call finds;
* `Program.dispatch_of_append`: a call on a descendant;
* `Program.commandAt_of_dispatch`: where the body that is found begins;
* `Program.dispatch_nearest`: all of it for one type.
-/

namespace Microstep

theorem TypeDef.method?_eq_none_iff {t : TypeDef} {name : String} :
    t.method? name = none ↔ ∀ m, ¬ t.Declares name m := by
  simp [method?, Declares, List.find?_eq_none]

/-- Where no method name is repeated, a declaration is found by its name. -/
theorem TypeDef.Declares.found {t : TypeDef} {name : String} {m : MethodDef}
    (declares : t.Declares name m) (nodup : (t.methods.map (·.name)).Nodup) :
    t.method? name = some m := by
  obtain ⟨hm, rfl⟩ := declares
  exact find?_of_nodup nodup hm

theorem TypeDef.declares_of_method? {t : TypeDef} {name : String} {m : MethodDef}
    (h : t.method? name = some m) : t.Declares name m :=
  ⟨List.mem_of_find?_eq_some h, by simpa using List.find?_some h⟩

/-! ## Among given types -/

/-- Either nothing in a list has a property, or there is a first that has it. -/
theorem exists_first {α : Type} (P : α → Prop) (xs : List α) :
    (∀ x ∈ xs, ¬ P x) ∨
      ∃ before x after, xs = before ++ x :: after ∧ P x ∧ ∀ y ∈ before, ¬ P y := by
  induction xs with
  | nil => exact .inl fun x hx => absurd hx List.not_mem_nil
  | cons x xs ih =>
    by_cases first : P x
    · exact .inr ⟨[], x, xs, rfl, first, fun y hy => absurd hy List.not_mem_nil⟩
    · obtain none | ⟨before, y, after, rfl, hy, earlier⟩ := ih
      · exact .inl (List.forall_mem_cons.mpr ⟨first, none⟩)
      · exact .inr ⟨x :: before, y, after, rfl, hy, List.forall_mem_cons.mpr ⟨first, earlier⟩⟩

/-- Among any types something is found, or there is a reason why nothing is. -/
theorem exists_selects (types : List TypeDef) (type method : String) (arity : Nat) :
    ∃ result, Selects types type method arity result := by
  obtain unfit | ⟨nearer, t, farther, split, ⟨m, declares, fits⟩, nearest⟩ :=
    exists_first (fun t => ∃ m, t.Declares method m ∧ m.arity = arity) types
  · have unfit (u : TypeDef) (hu : u ∈ types) (m : MethodDef) (declares : u.Declares method m) :
        m.arity ≠ arity := fun fits => unfit u hu ⟨m, declares, fits⟩
    obtain none | ⟨nearer, t, farther, split, ⟨m, declares⟩, nearest⟩ :=
      exists_first (fun t => ∃ m, t.Declares method m) types
    · exact ⟨_, .missing fun u hu m declares => none u hu ⟨m, declares⟩⟩
    · exact ⟨_, .mismatch split declares
        (fun u hu m declares => nearest u hu ⟨m, declares⟩) unfit⟩
  · exact ⟨_, .found split declares fits
      fun u hu m declares fits => nearest u hu ⟨m, declares, fits⟩⟩

namespace Program

variable {p : Program} {types nearer farther : List TypeDef} {t u : TypeDef} {m : MethodDef}
  {type method : String} {arity : Nat} {found : Implementation}
  {result : Except Error Implementation}

theorem implementations_append :
    implementations (nearer ++ farther) method =
      implementations nearer method ++ implementations farther method :=
  List.filterMap_append

theorem implementations_of_declares (nodup : (t.methods.map (·.name)).Nodup)
    (declares : t.Declares method m) :
    implementations (nearer ++ t :: farther) method =
      implementations nearer method ++ ⟨t, m⟩ :: implementations farther method := by
  simp [implementations, declares.found nodup]

theorem implementations_eq_nil (none : ∀ u ∈ types, ∀ m, ¬ u.Declares method m) :
    implementations types method = [] := by
  refine List.filterMap_eq_nil_iff.mpr fun u hu => ?_
  rw [TypeDef.method?_eq_none_iff.mpr (none u hu), Option.map_none]

/-- No declaration among the types has the number of parameters. -/
theorem find?_eq_none (unfit : ∀ u ∈ types, ∀ m, u.Declares method m → m.arity ≠ arity) :
    (implementations types method).find? (·.method.arity = arity) = none := by
  refine List.find?_eq_none.mpr fun found hfound => ?_
  obtain ⟨owner, declared⟩ := mem_implementations hfound
  simpa using unfit _ owner _ (TypeDef.declares_of_method? declared)

theorem dispatch_eq_ok_iff (ancestry : p.ancestry type = .ok types) :
    p.dispatch type method arity = .ok found ↔
      (implementations types method).find? (·.method.arity = arity) = some found := by
  simp only [dispatch, ancestry, ok_bind]
  cases (implementations types method).find? (·.method.arity = arity) with
  | some found => simp
  | none => cases implementations types method <;> simp

/-- The methods of an ancestor have different names. -/
theorem nodup_of_ancestry (ancestry : p.ancestry type = .ok types) (ht : t ∈ types) :
    (t.methods.map (·.name)).Nodup := by
  obtain ⟨u, -, lineage⟩ := TypeTable.lineage_of_climb ancestry
  exact p.distinct.methods t (lineage.mem_table ht)

/-- What is selected among the ancestors is what a call finds. -/
theorem dispatch_of_selects (ancestry : p.ancestry type = .ok types)
    (h : Selects types type method arity result) : p.dispatch type method arity = result := by
  cases h with
  | @found nearer farther t m split declares fits nearest =>
    have nodup := nodup_of_ancestry ancestry (t := t) (by simp [split])
    rw [dispatch_eq_ok_iff ancestry, split, implementations_of_declares nodup declares,
      List.find?_append, find?_eq_none nearest]
    simp [fits]
  | @mismatch nearer farther t m split declares nearest unfit =>
    have nodup := nodup_of_ancestry ancestry (t := t) (by simp [split])
    have declared : implementations types method = ⟨t, m⟩ :: implementations farther method := by
      rw [split, implementations_of_declares nodup declares, implementations_eq_nil nearest,
        List.nil_append]
    simp only [dispatch, ancestry, ok_bind]
    rw [find?_eq_none unfit, declared]
  | missing none =>
    simp only [dispatch, ancestry, ok_bind, implementations_eq_nil none, List.find?_nil]

/-- A call finds what is selected among the ancestors. -/
theorem dispatch_eq_iff (ancestry : p.ancestry type = .ok types) :
    p.dispatch type method arity = result ↔ Selects types type method arity result := by
  constructor
  · rintro rfl
    obtain ⟨result, selects⟩ := exists_selects types type method arity
    rwa [dispatch_of_selects ancestry selects]
  · exact dispatch_of_selects ancestry

/-- What a call finds on an ancestor it finds on the type, unless a nearer type has a method that
fits. -/
theorem dispatch_of_append (ancestry : p.ancestry type = .ok (nearer ++ u :: farther))
    (h : p.dispatch u.name method arity = .ok found) :
    ∃ found', p.dispatch type method arity = .ok found' ∧
      (found' = found ∨ found'.owner ∈ nearer) := by
  obtain ⟨t, -, lineage⟩ := TypeTable.lineage_of_climb ancestry
  have above : p.ancestry u.name = .ok (u :: farther) :=
    TypeTable.ancestry_of_lineage p.distinct.types lineage.suffix
  rw [dispatch_eq_ok_iff above] at h
  have both : (implementations (nearer ++ u :: farther) method).find? (·.method.arity = arity) =
      ((implementations nearer method).find? (·.method.arity = arity)).or (some found) := by
    rw [implementations_append, List.find?_append, h]
  cases nearest : (implementations nearer method).find? (·.method.arity = arity) with
  | none => exact ⟨found, (dispatch_eq_ok_iff ancestry).mpr (by rw [both, nearest]; rfl), .inl rfl⟩
  | some found' =>
    have owner := (mem_implementations (List.mem_of_find?_eq_some nearest)).1
    exact ⟨found', (dispatch_eq_ok_iff ancestry).mpr (by rw [both, nearest]; rfl), .inr owner⟩

/-- The body that is found begins with its first command, or is at its end if it has none. -/
theorem commandAt_of_dispatch (h : p.dispatch type method arity = .ok found) :
    p.commandAt (.entry found.owner.name method) = .ok found.method.commands[0]? := by
  have body := body?_of_dispatch h
  cases hc : found.method.commands with
  | nil =>
    rw [hc] at body
    exact end_of_body body
  | cons c commands =>
    rw [hc] at body
    exact commandAt_eq_some_iff.mpr
      ⟨⟨c :: commands, 0⟩, locate_body_iff.mpr ⟨rfl, _, body, rfl⟩, rfl⟩

/-- A call on an object of a defined type finds the nearest declaration of the name in the lineage
of the type that has as many parameters as there are arguments. If there is none, the nearest
declaration of the name is at fault, or the name is missing. A call that finds something on an
ancestor finds the same on the type, or something that is declared nearer to it. What is found has
its first position and its parameters. -/
theorem dispatch_nearest (defined : t ∈ p.table) (method : String) (arity : Nat) :
    ∃ types, p.table.Lineage t types ∧ p.ancestry t.name = .ok types ∧
      (∀ result, p.dispatch t.name method arity = result ↔
        Selects types t.name method arity result) ∧
      (∀ nearer u farther, types = nearer ++ u :: farther →
        ∀ found, p.dispatch u.name method arity = .ok found →
          ∃ found', p.dispatch t.name method arity = .ok found' ∧
            (found' = found ∨ found'.owner ∈ nearer)) ∧
      (∀ position, p.entry t.name method arity = .ok position ↔
        ∃ found, p.dispatch t.name method arity = .ok found ∧
          .entry found.owner.name method = position) ∧
      (∀ params, p.params t.name method arity = .ok params ↔
        ∃ found, p.dispatch t.name method arity = .ok found ∧ found.method.params = params) ∧
      ∀ found, p.dispatch t.name method arity = .ok found →
        p.commandAt (.entry found.owner.name method) = .ok found.method.commands[0]? := by
  obtain ⟨types, lineage, ancestry⟩ := exists_lineage defined
  refine ⟨types, lineage, ancestry, fun result => dispatch_eq_iff ancestry, ?_, fun position => ?_,
    fun params => ?_, fun found => commandAt_of_dispatch⟩
  · rintro nearer u farther rfl found h
    exact dispatch_of_append ancestry h
  · simp [entry]
  · simp [Program.params]

/-- Reads a gauge. -/
def reading : MethodDef := .ofBody "read" [] [.ret (some (.const (.int 7)))]

/-- Reads a dial in some unit. -/
def readingIn : MethodDef := .ofBody "read" [⟨"unit", .string⟩] []

/-- A gauge can be read. -/
def gauge : TypeDef := ⟨"Gauge", none, [], [reading]⟩

/-- A dial is a gauge that can also be read in some unit. -/
def dial : TypeDef := ⟨"Dial", some "Gauge", [], [readingIn]⟩

/-- Dials and gauges. -/
def gauges : Program := ⟨[dial, gauge], by decide⟩

/-- Without a unit a dial is read as a gauge, although the dial declares the name itself. For two
arguments the declaration of the dial is at fault. -/
theorem dispatch_nearest_dial :
    dial ∈ gauges.table ∧ gauges.dispatch "Dial" "read" 0 = .ok ⟨gauge, reading⟩ ∧
      gauges.dispatch "Dial" "read" 2 = .error (.argumentCountMismatch "Dial" "read" 1 2) := by
  have hdial : dial ∈ gauges.table := List.mem_cons_self
  have hgauge : gauge ∈ gauges.table := List.mem_cons_of_mem _ List.mem_cons_self
  have lineage : gauges.table.Lineage dial [dial, gauge] := .child hdial rfl (.root hgauge rfl)
  have declares : dial.Declares "read" readingIn := ⟨List.mem_cons_self, rfl⟩
  have nearest : ∀ u ∈ [dial], ∀ m, u.Declares "read" m → m.arity = 1 := by
    simp +contextual [TypeDef.Declares, dial, readingIn, MethodDef.ofBody, MethodDef.arity]
  have farther : ∀ u ∈ [dial, gauge], ∀ m, u.Declares "read" m → m.arity ≤ 1 := by
    simp +contextual [TypeDef.Declares, dial, gauge, reading, readingIn, MethodDef.ofBody,
      MethodDef.arity]
  have inherited : Selects [dial, gauge] "Dial" "read" 0 (.ok ⟨gauge, reading⟩) :=
    @Selects.found _ _ _ _ [dial] [] gauge reading rfl ⟨List.mem_cons_self, rfl⟩ rfl
      fun u hu m h => by simp [nearest u hu m h]
  have unfit : Selects [dial, gauge] "Dial" "read" 2
      (.error (.argumentCountMismatch "Dial" "read" 1 2)) :=
    @Selects.mismatch _ _ _ _ [] [gauge] dial readingIn rfl declares
      (fun u hu => absurd hu List.not_mem_nil) fun u hu m h => by have := farther u hu m h; omega
  obtain ⟨types, found, -, without, -⟩ := dispatch_nearest hdial "read" 0
  obtain ⟨types', found', -, twice, -⟩ := dispatch_nearest hdial "read" 2
  obtain rfl := lineage.unique gauges.distinct.types found
  obtain rfl := lineage.unique gauges.distinct.types found'
  exact ⟨hdial, (without _).mpr inherited, (twice _).mpr unfit⟩

end Program

end Microstep
