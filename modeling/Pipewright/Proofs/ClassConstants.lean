import Pipewright.Proofs.FreshName
import Pipewright.Proofs.Outcomes
import Pipewright.Proofs.Scoping

/-!
# Constants that become variables of the class

Where a line or a vector is needed as expressions, a constant becomes two variables
of the class. They get names that nothing has, so neither declaration is dropped,
whatever was declared or handed out before (`constants_declared`).
-/

namespace Pipewright

variable {σ : Type}

/-- A component of a constant: what its variable is called if the name is free, its value, and its label. -/
structure Component where
  name : String
  initial : Value
  label : Option String := none

namespace Component

def variableNamed (c : Component) (fresh : String) : Variable := ⟨fresh, c.initial⟩

def declaration (c : Component) (fresh : String) : Stmt :=
  .instanceVariable .isPublic (c.variableNamed fresh) c.label {}

end Component

inductive PairKind where
  | line | vec2

namespace PairKind

def name : PairKind → String
  | line => "LineParameters"
  | vec2 => "Vector2"

def constant? (l : Language) : PairKind → GenValue → Option (Component × Component)
  | line, .line color thickness =>
    some (⟨"lineColor", color.toValue l, some "Line Color"⟩, ⟨"lineThickness", l.int thickness, some "Line Thickness"⟩)
  | vec2, .vec2 x y => some ({ name := "vectorX", initial := l.double x }, { name := "vectorY", initial := l.double y })
  | _, _ => none

def runtime? : PairKind → GenValue → Option (Value × Value)
  | line, .runtimeLine color thickness => some (color, thickness)
  | vec2, .runtimeVec2 x y => some (x, y)
  | _, _ => none

def ensure (pin : Pin) : PairKind → GenValue → Gen σ (Value × Value)
  | line => Gen.runtimeLine pin
  | vec2 => Gen.runtimeVec2 pin

def mismatch (kind : PairKind) (pin : Pin) (value : GenValue) : GenError :=
  .pin pin s!"expected {kind.name}, got {value.kind}"

end PairKind

/-! ## One call -/

namespace Workspace

structure DeclaresPair (w : Workspace σ) (a b : Component) (x y : String) (w' : Workspace σ) : Prop where
  first : FirstFree (· ∉ w.names ++ w.classStart.declared) a.name x
  second : FirstFree (· ∉ w.names ++ [x] ++ w.classStart.declared) b.name y
  stmts : ∃ gap, (gap = [] ∨ gap = [.blank]) ∧
    w'.classStart.stmts = w.classStart.stmts ++ (gap ++ [a.declaration x, b.declaration y])
  declared : w'.classStart.declared = w.classStart.declared ++ [x, y]
  dropped : w'.classStart.dropped = w.classStart.dropped
  rest : w' = { w with names := w.names ++ [x, y], classStart := w'.classStart }

def pairGroup (a b : Component) (x y : String) (s : Scope) : Scope :=
  s.group fun s => (s.instanceVariable .isPublic (a.variableNamed x) a.label).instanceVariable .isPublic
    (b.variableNamed y) b.label

def declarePair (w : Workspace σ) (a b : Component) : String × String × Workspace σ :=
  let x := w.uniqueName a.name
  let y := (w.reserve x).uniqueName b.name
  (x, y, ((w.reserve x).reserve y).modifyScope (pairGroup a b x y) .classStart)

theorem pairGroup_adds {a b : Component} {x y : String} {s : Scope} (hx : x ∉ s.declared) (hy : y ∉ s.declared ++ [x]) :
    ∃ gap, (gap = [] ∨ gap = [.blank]) ∧
      Scope.Adds s (pairGroup a b x y s) (gap ++ [a.declaration x, b.declaration y]) := by
  obtain ⟨gap, hadds, hgap⟩ := Scope.Adds.beginGroup s
  have hsame : s.beginGroup.declared = s.declared := by
    rw [hadds.declared, declaredNames_gap hgap, List.append_nil]
  have hnew : (a.variableNamed x).name ∉ s.beginGroup.declared := hsame ▸ hx
  -- a declaration is kept if its name is free when its turn comes; the gap in front takes none
  have hfirst : Scope.Adds s.beginGroup _ [a.declaration x] := .instanceVariable .isPublic hnew a.label {}
  have hother : (b.variableNamed y).name ∉
      (s.beginGroup.instanceVariable .isPublic (a.variableNamed x) a.label).declared := by
    rw [hfirst.declared, hsame]
    exact hy
  have hsecond : Scope.Adds _ _ [b.declaration y] := .instanceVariable .isPublic hother b.label {}
  exact ⟨gap, hgap, hadds.trans (hfirst.trans hsecond)⟩

theorem declarePair_declares (w : Workspace σ) (a b : Component) :
    w.DeclaresPair a b (w.declarePair a b).1 (w.declarePair a b).2.1 (w.declarePair a b).2.2 := by
  let x := w.uniqueName a.name
  let y := (w.reserve x).uniqueName b.name
  have hx : x ∉ w.names ++ w.classStart.declared := freshName_not_mem _ _
  have hy : y ∉ w.names ++ [x] ++ w.classStart.declared := freshName_not_mem _ _
  simp only [List.mem_append, not_or] at hx hy
  obtain ⟨gap, hgap, hadds⟩ := pairGroup_adds (a := a) (b := b) hx.2 (s := w.classStart) (y := y)
    (by simpa using ⟨hy.2, by simpa using hy.1.2⟩)
  refine ⟨firstFree_freshName _ _, firstFree_freshName _ _, ⟨gap, hgap, hadds.stmts⟩, ?_, hadds.dropped, ?_⟩
  · have hdeclared := hadds.declared
    rw [declaredNames_append, declaredNames_gap hgap] at hdeclared
    exact hdeclared
  · simp [declarePair, reserve, modifyScope]

end Workspace

namespace PairKind

variable (generate : Nat → Target → Pass σ → Except GenError Unit × Pass σ) (target : Target) (pin : Pin) (p : Pass σ)
  {kind : PairKind} {value : GenValue}

theorem ends_constant {a b : Component} (h : kind.constant? p.language value = some (a, b)) :
    (kind.ensure pin value).Ends generate target p
      (.ok ((a.variableNamed (p.work.declarePair a b).1).reference,
        (b.variableNamed (p.work.declarePair a b).2.1).reference)) (p.work.declarePair a b).2.2 := by
  intro k
  cases kind <;> cases value <;> simp only [constant?, reduceCtorEq, Option.some.injEq, Prod.mk.injEq] at h <;>
    obtain ⟨rfl, rfl⟩ := h <;> rfl

theorem ends_runtime {values : Value × Value} (h : kind.runtime? value = some values) :
    (kind.ensure pin value).Ends generate target p (.ok values) p.work := by
  intro k
  cases kind <;> cases value <;> simp only [runtime?, reduceCtorEq, Option.some.injEq] at h <;> subst h <;> rfl

theorem ends_mismatch (hconstant : kind.constant? p.language value = none) (hruntime : kind.runtime? value = none) :
    (kind.ensure pin value).Ends generate target p (.error (kind.mismatch pin value)) p.work := by
  intro k
  cases kind with
  | line =>
    cases value with
    | line _ _ => cases hconstant
    | runtimeLine _ _ => cases hruntime
    | _ => rfl
  | vec2 =>
    cases value with
    | vec2 _ _ => cases hconstant
    | runtimeVec2 _ _ => cases hruntime
    | _ => rfl

end PairKind

/-! ## Any number of calls -/

structure Scope.Extends (s t : Scope) : Prop where
  stmts : s.stmts <+: t.stmts
  declared : s.declared ⊆ t.declared

inductive ClassStep where
  | ensure (kind : PairKind) (pin : Pin) (value : GenValue)
  | request (name : String) (initial : Value)
  | declare (build : Scope → Scope) (hbuild : ∀ s : Scope, s.Extends (build s))

namespace ClassStep

def code : ClassStep → Gen σ (List (Except GenError (Value × Value)))
  | ensure kind pin value => do return [← (kind.ensure pin value).attempt]
  | request name initial => do
    let _ ← Gen.uniqueVariable name initial
    return []
  | declare build _ => do
    Gen.inTarget .classStart (Gen.append build)
    return []

def codes : List ClassStep → Gen σ (List (Except GenError (Value × Value)))
  | [] => return []
  | step :: rest => do
    let first ← step.code
    return first ++ (← codes rest)

/-- The outcome of a step, and the declarations that it puts at the start of the class for a constant: the values are
references to just these variables. -/
inductive Answers (l : Language) : ClassStep → List (Except GenError (Value × Value)) → List Stmt → Prop
  | constant {kind : PairKind} {pin : Pin} {value : GenValue} {a b : Component} (x y : String) :
      kind.constant? l value = some (a, b) →
      Answers l (.ensure kind pin value) [.ok ((a.variableNamed x).reference, (b.variableNamed y).reference)]
        [a.declaration x, b.declaration y]
  | runtime {kind : PairKind} {pin : Pin} {value : GenValue} {values : Value × Value} :
      kind.runtime? value = some values → Answers l (.ensure kind pin value) [.ok values] []
  | mismatch {kind : PairKind} {pin : Pin} {value : GenValue} :
      kind.constant? l value = none → kind.runtime? value = none →
      Answers l (.ensure kind pin value) [.error (kind.mismatch pin value)] []
  | request (name : String) (initial : Value) : Answers l (.request name initial) [] []
  | declare (build : Scope → Scope) (hbuild : ∀ s : Scope, s.Extends (build s)) : Answers l (.declare build hbuild) [] []

inductive AllAnswer (l : Language) : List ClassStep → List (Except GenError (Value × Value)) → List Stmt → Prop
  | nil : AllAnswer l [] [] []
  | cons {step : ClassStep} {rest : List ClassStep} {first others : List (Except GenError (Value × Value))}
      {fields more : List Stmt} : Answers l step first fields → AllAnswer l rest others more →
      AllAnswer l (step :: rest) (first ++ others) (fields ++ more)

end ClassStep

/-- From `w` to `w'` the declarations `fields` are added at the start of the class, perhaps among others. None was
dropped: their names are recorded there, they are all different, and none was declared or handed out before. -/
structure Workspace.GainsFields (w : Workspace σ) (fields : List Stmt) (w' : Workspace σ) : Prop where
  stmts : ∃ added, w'.classStart.stmts = w.classStart.stmts ++ added ∧ fields.Sublist added
  declared : w.classStart.declared ++ declaredNames fields ⊆ w'.classStart.declared
  names : w.names ++ declaredNames fields ⊆ w'.names
  nodup : (declaredNames fields).Nodup
  fresh : ∀ x ∈ declaredNames fields, x ∉ w.names ∧ x ∉ w.classStart.declared

namespace Workspace.GainsFields

variable {w w' w'' : Workspace σ} {fields more : List Stmt}

theorem refl (w : Workspace σ) : w.GainsFields [] w where
  stmts := ⟨[], by simp, List.Sublist.refl _⟩
  declared := by simp
  names := by simp
  nodup := List.nodup_nil
  fresh := by simp

theorem trans (h : w.GainsFields fields w') (h' : w'.GainsFields more w'') : w.GainsFields (fields ++ more) w'' := by
  obtain ⟨added, hadded, hfields⟩ := h.stmts
  obtain ⟨added', hadded', hmore⟩ := h'.stmts
  obtain ⟨hdeclared, hdeclared'⟩ := List.append_subset.mp h'.declared
  obtain ⟨hnames, hnames'⟩ := List.append_subset.mp h'.names
  constructor
  · exact ⟨added ++ added', by rw [hadded', hadded, List.append_assoc], hfields.append hmore⟩
  · rw [declaredNames_append, ← List.append_assoc]
    exact List.append_subset.mpr ⟨List.Subset.trans h.declared hdeclared, hdeclared'⟩
  · rw [declaredNames_append, ← List.append_assoc]
    exact List.append_subset.mpr ⟨List.Subset.trans h.names hnames, hnames'⟩
  · rw [declaredNames_append]
    -- the names of the first part were handed out before the second began
    refine List.nodup_append'.mpr ⟨h.nodup, h'.nodup, fun x hx hx' => ?_⟩
    exact (h'.fresh x hx').1 (h.names (List.mem_append_right _ hx))
  · intro x hx
    rw [declaredNames_append] at hx
    rcases List.mem_append.mp hx with hx | hx
    · exact h.fresh x hx
    · obtain ⟨hhanded, hfree⟩ := h'.fresh x hx
      exact ⟨fun hold => hhanded (h.names (List.mem_append_left _ hold)),
        fun hold => hfree (h.declared (List.mem_append_left _ hold))⟩

theorem of_pair {a b : Component} {x y : String} (h : w.DeclaresPair a b x y w') :
    w.GainsFields [a.declaration x, b.declaration y] w' := by
  have hx := h.first.free
  have hy := h.second.free
  simp only [List.mem_append, List.mem_singleton, not_or] at hx hy
  have hfields : declaredNames [a.declaration x, b.declaration y] = [x, y] := rfl
  obtain ⟨gap, -, hstmts⟩ := h.stmts
  rw [h.rest]
  -- of `w'` only the names and the start of the class are left to look at
  constructor
  · exact ⟨_, hstmts, List.sublist_append_right _ _⟩
  · rw [hfields, h.declared]
    exact List.Subset.refl _
  · rw [hfields]
    exact List.Subset.refl _
  · rw [hfields]
    simpa using Ne.symm hy.1.2
  · rw [hfields]
    simpa using ⟨hx, hy.1.1, hy.2⟩

theorem of_request (w : Workspace σ) (name : String) : w.GainsFields [] (w.reserve name) where
  stmts := ⟨[], by simp [reserve], List.Sublist.refl _⟩
  declared := by simp [reserve]
  names := by simp [reserve]
  nodup := List.nodup_nil
  fresh := by simp

theorem of_extends (w : Workspace σ) {build : Scope → Scope} (h : w.classStart.Extends (build w.classStart)) :
    w.GainsFields [] (w.modifyScope build .classStart) where
  stmts := by
    obtain ⟨added, hadded⟩ := h.stmts
    exact ⟨added, hadded.symm, List.nil_sublist _⟩
  declared := by simpa [modifyScope] using h.declared
  names := by simp [modifyScope]
  nodup := List.nodup_nil
  fresh := by simp

end Workspace.GainsFields

namespace ClassStep

variable (generate : Nat → Target → Pass σ → Except GenError Unit × Pass σ) (target : Target)

theorem ends_code (step : ClassStep) (p : Pass σ) : ∃ results fields w,
    step.Answers p.language results fields ∧ p.work.GainsFields fields w ∧
      step.code.Ends generate target p (.ok results) w := by
  cases step with
  | ensure kind pin value =>
    have houtcome : ∀ {outcome w}, (kind.ensure pin value).Ends generate target p outcome w →
        (ensure kind pin value).code.Ends generate target p (.ok [outcome]) w :=
      fun h => h.attempt.bind (Gen.ends_pure _)
    cases hconstant : kind.constant? p.language value with
    | some components =>
      obtain ⟨a, b⟩ := components
      exact ⟨_, _, _, .constant _ _ hconstant, .of_pair (p.work.declarePair_declares a b),
        houtcome (PairKind.ends_constant generate target pin p hconstant)⟩
    | none =>
      cases hruntime : kind.runtime? value with
      | some values =>
        exact ⟨_, _, _, .runtime hruntime, .refl _, houtcome (PairKind.ends_runtime generate target pin p hruntime)⟩
      | none =>
        exact ⟨_, _, _, .mismatch hconstant hruntime, .refl _,
          houtcome (PairKind.ends_mismatch generate target pin p hconstant hruntime)⟩
  | request name initial =>
    exact ⟨_, _, _, .request name initial, .of_request p.work (p.work.uniqueName name),
      (Gen.ends_uniqueVariable name initial).bind (Gen.ends_pure _)⟩
  | declare build hbuild =>
    exact ⟨_, _, _, .declare build hbuild, .of_extends p.work (hbuild _), fun _ => rfl⟩

theorem ends_codes (steps : List ClassStep) : ∀ p : Pass σ, ∃ results fields w,
    AllAnswer p.language steps results fields ∧ p.work.GainsFields fields w ∧
      (codes steps).Ends generate target p (.ok results) w := by
  induction steps with
  | nil =>
    intro p
    exact ⟨[], [], p.work, .nil, .refl _, Gen.ends_pure _⟩
  | cons step rest ih =>
    intro p
    obtain ⟨first, fields, w, hfirst, hgains, hstep⟩ := ends_code generate target step p
    obtain ⟨others, more, w', hothers, hgains', hrest⟩ := ih { p with work := w }
    exact ⟨first ++ others, fields ++ more, w', .cons hfirst hothers, hgains.trans hgains',
      hstep.bind (hrest.bind (Gen.ends_pure _))⟩

end ClassStep

/-- Where a line or a vector is needed as expressions, a constant becomes two variables at the start of the class, with
its components as their initial values, and the expressions are references to them. A value of the program is taken as
it is and one of another kind is an error, and both leave the pass as it was. The variables of all calls are there in
the end, under different names that nothing had. -/
theorem constants_declared (generate : Nat → Target → Pass σ → Except GenError Unit × Pass σ) (target : Target)
    (p : Pass σ) :
    (∀ (kind : PairKind) (pin : Pin) (value : GenValue),
      (∀ a b, kind.constant? p.language value = some (a, b) → ∃ x y w, p.work.DeclaresPair a b x y w ∧
        (kind.ensure pin value).Ends generate target p
          (.ok ((a.variableNamed x).reference, (b.variableNamed y).reference)) w) ∧
      (∀ values, kind.runtime? value = some values →
        (kind.ensure pin value).Ends generate target p (.ok values) p.work) ∧
      (kind.constant? p.language value = none → kind.runtime? value = none →
        (kind.ensure pin value).Ends generate target p (.error (kind.mismatch pin value)) p.work)) ∧
    ∀ steps : List ClassStep, ∃ results fields w, ClassStep.AllAnswer p.language steps results fields ∧
      p.work.GainsFields fields w ∧ (ClassStep.codes steps).Ends generate target p (.ok results) w := by
  refine ⟨fun kind pin value => ⟨fun a b hconstant => ?_, fun values hruntime => ?_, fun hconstant hruntime => ?_⟩,
    fun steps => ClassStep.ends_codes generate target steps p⟩
  · exact ⟨_, _, _, p.work.declarePair_declares a b, PairKind.ends_constant generate target pin p hconstant⟩
  · exact PairKind.ends_runtime generate target pin p hruntime
  · exact PairKind.ends_mismatch generate target pin p hconstant hruntime

end Pipewright
