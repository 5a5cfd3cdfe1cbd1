import Pipewright.Proofs.CarriedImports
import Pipewright.Proofs.Features
import Pipewright.Proofs.ImportScope
import Pipewright.Proofs.ImportSink

/-!
# Types that a program spells

A type is spelled with its arguments, and these with theirs. What is registered
for it goes less deep: with a value comes its type and the arguments of that, for
a return or a supertype the type alone. Anything below is in the import scope
only if something else asks for it (`RenderStyle.writeBlock_spelled`).
-/

namespace Pipewright

namespace Ty

mutual

def parts : Ty → List Ty
  | t@(mk _ _ generics _ _ _) => t :: partsOfAll generics

def partsOfAll : List Ty → List Ty
  | [] => []
  | t :: ts => t.parts ++ partsOfAll ts

end

def arguments (t : Ty) : List Ty := partsOfAll t.generics

theorem parts_eq (t : Ty) : t.parts = t :: t.arguments := by
  cases t
  rfl

theorem partsOfAll_eq_flatMap (types : List Ty) : partsOfAll types = types.flatMap parts := by
  induction types with
  | nil => rfl
  | cons t types ih => rw [partsOfAll, ih, List.flatMap_cons]

theorem mem_arguments {t a : Ty} : a ∈ t.arguments ↔ a ∈ t.generics ∨ ∃ g ∈ t.generics, a ∈ g.arguments := by
  simp only [arguments, partsOfAll_eq_flatMap t.generics, List.mem_flatMap, parts_eq, List.mem_cons, and_or_left,
    exists_or, exists_eq_right']

end Ty

/-! ## Values and their types -/

namespace Value

variable {v : Value} {a : Ty}

theorem imports_own (ha : a = v.ty ∨ a ∈ v.ty.generics) (hneeds : a.shouldImport = true) : v.Imports a := by
  refine imports_of_mem (mem_imports.mpr ⟨?_, hneeds⟩)
  rw [types, List.mem_append, List.mem_cons]
  exact .inl ha

end Value

theorem Variable.types_reference_subset (var : Variable) : var.reference.types ⊆ var.initial.types := by
  intro t ht
  rcases List.mem_append.mp ht with ht | ht
  · exact List.mem_append_left _ ht
  · rcases Value.mem_of_mem_foldl_addImport ht with ht | ht
    · cases ht
    · rw [List.flatMap_singleton] at ht
      exact (Value.mem_imports.mp ht).1

/-! ## What statements spell -/

@[simp] def Action.values : Action → List Value
  | assign _ value | assignInstance _ value => [value]
  | setElement _ index value => [index, value]
  | staticCall _ _ args | call _ args => args
  | methodCall callee _ args => callee :: args
  | enumeration _ _ | comment _ | raw _ => []

@[simp] def Action.classes : Action → List Ty
  | staticCall cls _ _ => [cls]
  | _ => []

namespace Stmt

@[simp] def loopVariable? : Stmt → Option Variable
  | forLoop var _ _ _ _ | foreach var _ _ => some var
  | _ => none

@[simp] def parameters : Stmt → List Parameter
  | method signature _ => signature.parameters
  | constructor _ _ parameters _ => parameters
  | _ => []

@[simp] def headerTypes : Stmt → List Ty
  | method signature _ => [signature.returns]
  | cls signature _ => signature.parent.toList ++ signature.interfaces
  | _ => []

@[simp] def classes : Stmt → List Ty
  | act a => a.classes
  | _ => []

@[simp] def operands : Stmt → List Value
  | act a => a.values
  | ret value => value.toList
  | ifThen condition _ | whileLoop condition _ => [condition]
  | forLoop _ start limit step _ => start :: limit :: step.toList
  | foreach _ iterable _ => [iterable]
  | _ => []

/-- The values of a statement without those in its body. What it declares is among them, with all that its initial
value carries. -/
def values (s : Stmt) : List Value :=
  (s.declared?.toList ++ s.loopVariable?.toList).map Variable.reference ++ s.parameters.map Parameter.reference ++
    s.operands

end Stmt

namespace Compound

/-- The operands that stand in the text of an expression. A variable is written by its name alone. -/
def written : Compound → List Compound
  | named _ _ => []
  | e => e.operands

inductive Shows : Compound → Compound → Prop
  | self (e : Compound) : Shows e e
  | operand {e o part : Compound} (ho : o ∈ e.written) (h : Shows o part) : Shows e part

theorem Shows.mem_parts {e part : Compound} (h : e.Shows part) : part ∈ e.parts := by
  induction h with
  | self e => exact e.mem_parts_self
  | @operand e o part ho _ ih =>
    have hoperand : o ∈ e.operands := by
      cases e with
      | named _ _ => cases ho
      | _ => exact ho
    exact e.parts_eq ▸ List.mem_cons_of_mem _ (List.mem_flatMap.mpr ⟨o, hoperand, ih⟩)

end Compound

namespace Stmt

variable (l : Language)

/-- The types in the header of a method or a class. Kotlin leaves out the type of a method that returns nothing. -/
def spelledHeader : Stmt → List Ty
  | method signature _ => if l = .kotlin ∧ Language.isUnit signature.returns then [] else [signature.returns]
  | cls signature _ => signature.parent.toList ++ signature.interfaces
  | _ => []

def CastsTo (s : Stmt) (e : Compound) (t : Ty) : Prop :=
  (e.value l ∈ s.operands ∨ ∃ var, s.declared? = some var ∧ e.value l = var.initial) ∧
    ∃ operand, e.Shows (.cast operand t)

/-- A type that a statement spells for a variable, for a parameter or in a cast. Where equal types of an expression
are not imported alike, one of them may stand for the target of a cast, which is not counted then. -/
inductive SpellsWithValue (s : Stmt) : Ty → Prop
  | declared {var : Variable} (h : s.declared? = some var) : SpellsWithValue s var.ty
  | loop {var : Variable} (hl : l = .java) (h : s.loopVariable? = some var) : SpellsWithValue s var.ty
  | parameter {p : Parameter} (h : p ∈ s.parameters) : SpellsWithValue s p.ty
  | castTarget {e : Compound} {t : Ty} (h : s.CastsTo l e t) (huniform : Ty.Uniform (e.types l)) : SpellsWithValue s t

def Spells (s : Stmt) (t : Ty) : Prop :=
  s.SpellsWithValue l t ∨ t ∈ s.spelledHeader l ∨ ∃ e, s.CastsTo l e t

/-- A type that a statement spells somewhere and does not report. -/
def Skips (s : Stmt) (a : Ty) : Prop :=
  (∃ t, s.SpellsWithValue l t ∧ ∃ g ∈ t.generics, a ∈ g.arguments) ∨ (∃ t ∈ s.spelledHeader l, a ∈ t.arguments) ∨
    ∃ e t, s.CastsTo l e t ∧ ¬ Ty.Uniform (e.types l) ∧ a ∈ t.parts

variable {l} {s : Stmt} {t a : Ty}

theorem mem_headerTypes (h : t ∈ s.spelledHeader l) : t ∈ s.headerTypes := by
  cases s with
  | method signature body =>
    rw [spelledHeader] at h
    split at h
    · cases h
    · exact h
  | _ => exact h

theorem reference_mem_values {var : Variable} (h : s.declared? = some var ∨ s.loopVariable? = some var) :
    var.reference ∈ s.values := by
  refine List.mem_append_left _ (List.mem_append_left _ (List.mem_map_of_mem ?_))
  rw [List.mem_append, Option.mem_toList, Option.mem_toList]
  exact h

theorem CastsTo.exists_imports {e : Compound} (h : s.CastsTo l e t) (huniform : Ty.Uniform (e.types l))
    (ha : a = t ∨ a ∈ t.generics) (hneeds : a.shouldImport = true) : ∃ v ∈ s.values, v.Imports a := by
  obtain ⟨hvalue, operand, hshows⟩ := h
  have hcast : ((Compound.cast operand t).value l).Imports a := Value.imports_own ha hneeds
  have hwhole : (e.value l).Imports a := e.imports_of_part l huniform hshows.mem_parts hcast
  rcases hvalue with hvalue | ⟨var, hvar, hinitial⟩
  · exact ⟨e.value l, List.mem_append_right _ hvalue, hwhole⟩
  · refine ⟨var.reference, reference_mem_values (.inl hvar), ?_⟩
    rw [hinitial] at hwhole
    have hinside : var.initial.types ⊆ e.types l := hinitial ▸ e.types_value_subset l
    have hreference : var.reference.types ⊆ e.types l := fun u hu => hinside (var.types_reference_subset hu)
    exact (Value.handsOn_withImportsOf (List.mem_singleton.mpr rfl)).imports huniform hreference hinside hwhole

theorem SpellsWithValue.exists_imports (h : s.SpellsWithValue l t) (ha : a = t ∨ a ∈ t.generics)
    (hneeds : a.shouldImport = true) : ∃ v ∈ s.values, v.Imports a := by
  cases h with
  | @declared var h => exact ⟨var.reference, reference_mem_values (.inl h), Value.imports_own ha hneeds⟩
  | @loop var hl h => exact ⟨var.reference, reference_mem_values (.inr h), Value.imports_own ha hneeds⟩
  | @parameter p h =>
    exact ⟨p.reference, List.mem_append_left _ (List.mem_append_right _ (List.mem_map_of_mem h)),
      Value.imports_own ha hneeds⟩
  | @castTarget e _ h huniform => exact h.exists_imports huniform ha hneeds

theorem Skips.exists_part (h : s.Skips l a) : ∃ t, s.Spells l t ∧ a ∈ t.parts := by
  rcases h with ⟨t, ht, g, hg, ha⟩ | ⟨t, ht, ha⟩ | ⟨e, t, ht, -, ha⟩
  · exact ⟨t, .inl ht, t.parts_eq ▸ List.mem_cons_of_mem _ (Ty.mem_arguments.mpr (.inr ⟨g, hg, ha⟩))⟩
  · exact ⟨t, .inr (.inl ht), t.parts_eq ▸ List.mem_cons_of_mem _ ha⟩
  · exact ⟨t, .inr (.inr ⟨e, ht⟩), ha⟩

theorem SpellsWithValue.part_cases (h : s.SpellsWithValue l t) (ha : a ∈ t.parts) :
    (a = t ∨ a ∈ t.generics) ∨ s.Skips l a := by
  rw [Ty.parts_eq] at ha
  rcases List.mem_cons.mp ha with rfl | ha
  · exact .inl (.inl rfl)
  rcases Ty.mem_arguments.mp ha with hnext | hdeep
  · exact .inl (.inr hnext)
  · exact .inr (.inl ⟨t, h, hdeep⟩)

/-- Whatever is spelled is either reported where it is spelled or skipped there. -/
theorem Spells.part_cases (h : s.Spells l t) (ha : a ∈ t.parts) :
    s.SpellsWithValue l t ∧ (a = t ∨ a ∈ t.generics) ∨ t ∈ s.spelledHeader l ∧ a = t ∨ s.Skips l a := by
  rcases h with hvalue | hheader | ⟨e, hcast⟩
  · exact (hvalue.part_cases ha).imp (⟨hvalue, ·⟩) .inr
  · rw [Ty.parts_eq] at ha
    rcases List.mem_cons.mp ha with he | ha
    · exact .inr (.inl ⟨hheader, he⟩)
    · exact .inr (.inr (.inr (.inl ⟨t, hheader, ha⟩)))
  · by_cases huniform : Ty.Uniform (e.types l)
    · have hvalue : s.SpellsWithValue l t := .castTarget hcast huniform
      exact (hvalue.part_cases ha).imp (⟨hvalue, ·⟩) .inr
    · exact .inr (.inr (.inr (.inr ⟨e, t, hcast, huniform, ha⟩)))

end Stmt

/-! ## What statements report -/

namespace Rendered

variable {α β : Type}

theorem uses_bind {x : Rendered α} {f : α → Rendered β} {types : List Ty} (hx : x.failure? = none)
    (hf : ∀ a, (f a).uses = types) : (x >>= f).uses = x.uses ++ types := by
  obtain ⟨uses, result⟩ := x
  cases result with
  | error e => cases hx
  | ok a => exact congrArg (uses ++ ·) (hf a)

theorem uses_bind_pure {x : Rendered α} (hx : x.failure? = none) (f : α → β) :
    (x >>= fun a => pure (f a)).uses = x.uses := by
  have hnone : ∀ a, (pure (f a) : Rendered β).uses = [] := fun _ => rfl
  rw [uses_bind hx hnone, List.append_nil]

theorem uses_report (types : List Ty) (a : α) : (report types >>= fun _ => pure a).uses = types :=
  uses_bind_pure rfl fun _ => a

theorem uses_ofExcept (x : Except LanguageError α) (f : α → β) : (ofExcept x >>= fun a => pure (f a)).uses = [] := by
  cases x <;> rfl

end Rendered

namespace RenderStyle

open Rendered (uses_bind uses_bind_pure uses_report uses_ofExcept)

variable (style : RenderStyle)

@[simp] def labelTypes : Stmt → List Ty
  | .instanceVariable visibility var label modifiers =>
    (style.language.instanceVariable visibility var (if style.preview then label else none) modifiers).imports
  | _ => []

def reports (s : Stmt) : List Ty :=
  s.headerTypes ++ s.classes ++ s.values.flatMap Value.imports ++ style.labelTypes s

/-- Some statement reports a type that stands for the same import. -/
def Asks (b : Block) (u : Ty) : Prop :=
  ∃ s ∈ b.preorder, ∃ t ∈ style.reports s, t.shouldImport = true ∧ (t.importTarget == u.importTarget) = true

section
variable {style} (hl : style.language.inClass = true)
include hl

theorem firstFailure?_of_inClass (stmts : List Stmt) : style.firstFailure? stmts = none := by
  have hlacks : ∀ s, style.language.lacks? s = none := by
    obtain ⟨l, preview⟩ := style
    intro s
    cases l with
    | java => cases s <;> rfl
    | kotlin => cases s <;> rfl
    | lua => cases hl
    | python => cases hl
  rw [firstFailure?, List.findSome?_eq_none_iff.mpr fun s _ => hlacks s, Option.map_none]

theorem uses_withBody (n : Nat) (s : Stmt) {x : Rendered String} (hx : x.failure? = none) :
    (style.header n s >>= fun head => x >>= fun text => pure (style.withBody n head text)).uses =
      (style.header n s).uses ++ x.uses := by
  refine uses_bind ((style.failure?_header n s).trans (firstFailure?_of_inClass hl _)) fun head => ?_
  exact uses_bind_pure hx _

theorem uses_header (n : Nat) {s : Stmt} {body : Block} (hs : s.body? = some body) :
    (style.header n s).uses = style.reports s := by
  cases s with
  | ifThen condition body | whileLoop condition body | forLoop var start limit step body
  | foreach var iterable body =>
    rw [header, uses_report]
    simp [reports, Stmt.values, Stmt.declared?]
  | method signature body =>
    simp only [header, uses_report]
    simp [reports, Stmt.values, Stmt.declared?, List.flatMap_map]
  | constructor visibility className parameters body =>
    rw [header, uses_bind rfl fun _ => uses_ofExcept _ _]
    simp [Rendered.report, reports, Stmt.values, Stmt.declared?, List.flatMap_map]
  | cls signature body =>
    have hheader : (Rendered.ofExcept (style.language.classHeader signature)).failure? = none := by
      cases hlang : style.language with
      | java => rfl
      | kotlin => rfl
      | lua => rw [hlang] at hl; cases hl
      | python => rw [hlang] at hl; cases hl
    rw [header, uses_bind hheader fun _ => uses_report _ _]
    simp [Rendered.ofExcept, reports, Stmt.values, Stmt.declared?]
  | nested body at_ => rfl
  | _ => cases hs

end

variable {style}

theorem uses_action (n : Nat) (a : Action) : (style.action n a).uses = style.reports (.act a) := by
  cases a <;> simp [action, reports, Stmt.values, Stmt.declared?]

mutual

theorem uses_stmt (hl : style.language.inClass = true) : ∀ (s : Stmt) (n : Nat),
    (style.stmt n s).uses = s.preorder.flatMap style.reports
  | .instanceVariable visibility var label modifiers, n => by
    simp only [stmt, uses_report]
    simp [Stmt.preorder, reports, Stmt.values, Stmt.declared?]
  | .localVariable var isFinal, n => by
    rw [stmt, uses_report]
    simp [Stmt.preorder, reports, Stmt.values, Stmt.declared?]
  | .act a, n => by
    rw [stmt, uses_action]
    simp [Stmt.preorder]
  | .ret value, n => by
    rw [stmt, uses_report]
    simp [Stmt.preorder, reports, Stmt.values, Stmt.declared?]
  | .blank, n => by
    rw [stmt]
    rfl
  | .nested body at_, n => by
    rw [stmt, Stmt.preorder, List.flatMap_cons]
    exact uses_blockAt_eq hl body _
  | .ifThen _ body, n | .whileLoop _ body, n | .forLoop _ _ _ _ body, n | .foreach _ _ body, n
  | .method _ body, n | .constructor _ _ _ body, n | .cls _ body, n => by
    have hbody := style.failure?_blockAt body (n + 1)
    rw [firstFailure?_of_inClass hl] at hbody
    rw [stmt, Stmt.preorder, List.flatMap_cons, uses_withBody hl n _ hbody, uses_header hl n rfl,
      uses_blockAt_eq hl body]

theorem uses_blockAt_eq (hl : style.language.inClass = true) : ∀ (b : Block) (n : Nat),
    (style.blockAt n b).uses = b.preorder.flatMap style.reports
  | .mk _ stmts, n => by
    rw [blockAt, Block.preorder]
    exact uses_stmtsFrom hl stmts n ""

theorem uses_stmtsFrom (hl : style.language.inClass = true) : ∀ (stmts : List Stmt) (n : Nat) (out : String),
    (style.stmtsFrom n out stmts).uses = (preorders stmts).flatMap style.reports
  | [], n, out => by
    rw [stmtsFrom, preorders]
    rfl
  | s :: rest, n, out => by
    have hs := style.failure?_stmt s n
    rw [firstFailure?_of_inClass hl] at hs
    rw [stmtsFrom, preorders, List.flatMap_append, ← uses_stmt hl s n]
    exact uses_bind hs fun text => uses_stmtsFrom hl rest n _

end

/-! ## What is registered for a spelled type -/

variable {s : Stmt} {t a : Ty} {b : Block}

theorem asks_iff {u : Ty} : style.Asks b u ↔
    ∃ t ∈ b.preorder.flatMap style.reports, t.shouldImport = true ∧ (t.importTarget == u.importTarget) = true := by
  constructor
  · rintro ⟨s, hs, t, ht, hasks⟩
    exact ⟨t, List.mem_flatMap.mpr ⟨s, hs, ht⟩, hasks⟩
  · rintro ⟨t, ht, hasks⟩
    obtain ⟨s, hs, ht⟩ := List.mem_flatMap.mp ht
    exact ⟨s, hs, t, ht, hasks⟩

theorem asks_of_mem_headerTypes (hs : s ∈ b.preorder) (ht : t ∈ s.headerTypes) (hneeds : t.shouldImport = true) :
    style.Asks b t := by
  refine ⟨s, hs, t, ?_, hneeds, BEq.refl _⟩
  exact List.mem_append_left _ (List.mem_append_left _ (List.mem_append_left _ ht))

theorem asks_of_imports {v : Value} (hs : s ∈ b.preorder) (hv : v ∈ s.values) (h : v.Imports a) : style.Asks b a := by
  obtain ⟨u, hu, halike⟩ := h
  refine ⟨s, hs, u, ?_, (Value.mem_imports.mp hu).2, halike.2.2⟩
  exact List.mem_append_left _ (List.mem_append_right _ (List.mem_flatMap.mpr ⟨v, hv, hu⟩))

theorem exists_result (hl : style.language.inClass = true) (n : Nat) (b : Block) :
    ∃ text, (style.blockAt n b).result = .ok text := by
  have hfailure := (style.failure?_blockAt b n).trans (firstFailure?_of_inClass hl _)
  cases hresult : (style.blockAt n b).result with
  | error e =>
    rw [Rendered.failure?_eq_some_iff.mpr hresult] at hfailure
    cases hfailure
  | ok text => exact ⟨text, rfl⟩

/-- A class is written whole, and what its statements report is registered. -/
theorem exists_sink (hl : style.language.inClass = true) (n : Nat) (b : Block) (imports : ImportScope) :
    ∃ text after, (style.writeBlock n b).sink imports = (.ok text, after) ∧
      ∀ u, after.contains u = true ↔ imports.contains u = true ∨ style.Asks b u := by
  obtain ⟨text, htext⟩ := exists_result hl n b
  refine ⟨text, imports.registerAll (style.blockAt n b).uses, ?_, fun u => ?_⟩
  · rw [writeBlock_eq, ← htext]
    rfl
  · rw [ImportScope.contains_registerAll, uses_blockAt_eq hl, asks_iff]

/-- In a class every block renders. The scope then has what it had before and what some statement reports, no more:
each type that is spelled with a value is there with the arguments next to it, each type of a header for itself. So
everything that is spelled is there, at every depth, just if each type that is skipped was there before or is reported
somewhere. -/
theorem writeBlock_spelled (hl : style.language.inClass = true) (b : Block) (n : Nat) (imports : ImportScope) :
    ∃ text after, (style.writeBlock n b).sink imports = (.ok text, after) ∧
      (∀ u, after.contains u = true ↔ imports.contains u = true ∨ style.Asks b u) ∧
      (∀ s ∈ b.preorder, ∀ t, s.SpellsWithValue style.language t →
        ∀ a, a = t ∨ a ∈ t.generics → a.shouldImport = true → after.contains a = true) ∧
      (∀ s ∈ b.preorder, ∀ t ∈ s.spelledHeader style.language, t.shouldImport = true → after.contains t = true) ∧
      ((∀ s ∈ b.preorder, ∀ t, s.Spells style.language t →
          ∀ a ∈ t.parts, a.shouldImport = true → after.contains a = true) ↔
        ∀ s ∈ b.preorder, ∀ a, s.Skips style.language a → a.shouldImport = true →
          imports.contains a = true ∨ style.Asks b a) := by
  obtain ⟨text, after, hsink, hcontains⟩ := exists_sink hl n b imports
  have hvalues : ∀ s ∈ b.preorder, ∀ t, s.SpellsWithValue style.language t → ∀ a, a = t ∨ a ∈ t.generics →
      a.shouldImport = true → after.contains a = true := by
    intro s hs t ht a ha hneeds
    obtain ⟨v, hv, himports⟩ := ht.exists_imports ha hneeds
    exact (hcontains a).mpr (.inr (asks_of_imports hs hv himports))
  have hheaders : ∀ s ∈ b.preorder, ∀ t ∈ s.spelledHeader style.language, t.shouldImport = true →
      after.contains t = true := by
    intro s hs t ht hneeds
    exact (hcontains t).mpr (.inr (asks_of_mem_headerTypes hs (Stmt.mem_headerTypes ht) hneeds))
  refine ⟨text, after, hsink, hcontains, hvalues, hheaders, ?_, ?_⟩
  · intro h s hs a hskips hneeds
    obtain ⟨t, hspells, hpart⟩ := hskips.exists_part
    exact (hcontains a).mp (h s hs t hspells a hpart hneeds)
  · intro h s hs t ht a ha hneeds
    rcases ht.part_cases ha with ⟨hvalue, hown⟩ | ⟨hheader, rfl⟩ | hskips
    · exact hvalues s hs t hvalue a hown hneeds
    · exact hheaders s hs a hheader hneeds
    · exact (hcontains a).mpr (h s hs a hskips hneeds)

def listing : Block :=
  .mk 0 [.method ⟨.isPublic, Catalog.Java.list Catalog.OpenCv.rect, "all", [], {}⟩
    (.mk 1 [.localVariable
      (.typed (Catalog.Java.map Catalog.Java.string (Catalog.Java.list Catalog.OpenCv.size)) "groups") false])]

theorem writeBlock_spelled_listing :
    Language.java.inClass = true ∧ ∃ after,
      ((⟨.java, false⟩ : RenderStyle).writeBlock 0 listing).sink .empty =
        (.ok "public List<Rect> all() \x7b\n\tMap<String, List<Size>> groups;\n\x7d\n", after) ∧
      after.contains (Catalog.Java.list Catalog.OpenCv.rect) = true ∧ after.contains Catalog.OpenCv.rect = false ∧
      after.contains (Catalog.Java.list Catalog.OpenCv.size) = true ∧ after.contains Catalog.OpenCv.size = false ∧
      ¬ ∀ s ∈ listing.preorder, ∀ t, s.Spells .java t →
        ∀ a ∈ t.parts, a.shouldImport = true → after.contains a = true := by
  obtain ⟨text, after, hsink, hcontains, hvalues, hheaders, hall⟩ :=
    @writeBlock_spelled ⟨.java, false⟩ rfl listing 0 .empty
  obtain ⟨htext, hafter⟩ := Prod.mk.inj (hsink.symm.trans (by rfl :
    ((⟨.java, false⟩ : RenderStyle).writeBlock 0 listing).sink .empty =
      (.ok "public List<Rect> all() \x7b\n\tMap<String, List<Size>> groups;\n\x7d\n", _)))
  have hmethod : Stmt.method _ _ ∈ listing.preorder := List.mem_cons_self
  have hlocal : Stmt.localVariable _ _ ∈ listing.preorder := List.mem_cons_of_mem _ List.mem_cons_self
  have hrect : after.contains Catalog.OpenCv.rect = false := by rw [hafter]; rfl
  have hsize : after.contains Catalog.OpenCv.size = false := by rw [hafter]; rfl
  refine ⟨rfl, after, by rw [hsink, htext], ?_, hrect, ?_, hsize, ?_⟩
  · exact hheaders _ hmethod _ List.mem_cons_self rfl
  · exact hvalues _ hlocal _ (.declared rfl) _ (.inr (List.mem_cons_of_mem _ List.mem_cons_self)) rfl
  · intro h
    have hasks := hall.mp h _ hmethod Catalog.OpenCv.rect
      (.inr (.inl ⟨_, List.mem_cons_self, List.mem_cons_self⟩)) rfl
    rw [(hcontains Catalog.OpenCv.rect).mpr hasks] at hrect
    cases hrect

end RenderStyle

end Pipewright
