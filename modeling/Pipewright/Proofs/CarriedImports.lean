import Pipewright.Declaration
import Pipewright.Proofs.Grouping

/-!
# What an expression imports

Every way of combining values hands on the imports of its operands. A type that
equals one which is there already is not added again, so what arrives is an equal
type, which stands for the same import where equal types are imported alike
(`Compound.imports_kept`).
-/

namespace Pipewright

/-! ## Equal types -/

namespace Ty

theorem name_eq : ∀ {t u : Ty}, (t == u) = true → t.name = u.name
  | mk .., mk .., h => by
    change same _ _ = true at h
    simp only [same, Bool.and_eq_true, beq_iff_eq] at h
    exact h.1.1

theorem package_eq : ∀ {t u : Ty}, (t == u) = true → t.package = u.package
  | mk .., mk .., h => by
    change same _ _ = true at h
    simp only [same, Bool.and_eq_true, beq_iff_eq] at h
    exact h.1.2

def ImportedAlike (t u : Ty) : Prop :=
  (t == u) = true ∧ t.rule = u.rule ∧ (t.importTarget == u.importTarget) = true

instance (t u : Ty) : Decidable (ImportedAlike t u) := inferInstanceAs (Decidable (_ ∧ _ ∧ _))

namespace ImportedAlike

variable {t u v : Ty}

theorem refl (t : Ty) : t.ImportedAlike t := ⟨BEq.refl t, rfl, BEq.refl _⟩

theorem trans (h : t.ImportedAlike u) (h' : u.ImportedAlike v) : t.ImportedAlike v :=
  ⟨BEq.trans h.1 h'.1, h.2.1.trans h'.2.1, BEq.trans h.2.2 h'.2.2⟩

theorem shouldImport_eq (h : t.ImportedAlike u) : t.shouldImport = u.shouldImport := by
  unfold shouldImport
  rw [h.2.1, name_eq h.1, package_eq h.1]

end ImportedAlike

def Uniform (types : List Ty) : Prop := ∀ t ∈ types, ∀ u ∈ types, (t == u) = true → t.ImportedAlike u

instance (types : List Ty) : Decidable (Uniform types) :=
  inferInstanceAs (Decidable (∀ t ∈ types, ∀ u ∈ types, (t == u) = true → t.ImportedAlike u))

theorem Uniform.subset {types more : List Ty} (h : Uniform more) (hsub : types ⊆ more) : Uniform types :=
  fun t ht u hu => h t (hsub ht) u (hsub hu)

end Ty

/-! ## Values -/

namespace Value

def types (v : Value) : List Ty := v.ty :: v.ty.generics ++ v.extra

theorem mem_imports {v : Value} {t : Ty} : t ∈ v.imports ↔ t ∈ v.types ∧ t.shouldImport = true := List.mem_filter

theorem mem_addImport {types : List Ty} {t u : Ty} (h : u ∈ types) : u ∈ addImport types t := by
  unfold addImport
  split
  · exact h
  · exact List.mem_append_left _ h

theorem exists_addImport (types : List Ty) (t : Ty) : ∃ u ∈ addImport types t, (u == t) = true := by
  unfold addImport
  split
  · rename_i h
    rw [List.contains_eq_any_beq, List.any_eq_true] at h
    obtain ⟨u, hu, htu⟩ := h
    exact ⟨u, hu, BEq.symm htu⟩
  · exact ⟨t, List.mem_append_right _ (List.mem_singleton.mpr rfl), BEq.refl t⟩

theorem mem_foldl_addImport (types : List Ty) {extra : List Ty} {t : Ty} (h : t ∈ extra) :
    t ∈ types.foldl addImport extra := by
  induction types generalizing extra with
  | nil => exact h
  | cons u types ih => exact ih (mem_addImport h)

theorem exists_foldl_addImport {types : List Ty} (extra : List Ty) {t : Ty} (h : t ∈ types) :
    ∃ u ∈ types.foldl addImport extra, (u == t) = true := by
  induction types generalizing extra with
  | nil => cases h
  | cons u types ih =>
    rcases List.mem_cons.mp h with rfl | h
    · obtain ⟨w, hw, hwt⟩ := exists_addImport extra t
      exact ⟨w, mem_foldl_addImport types hw, hwt⟩
    · exact ih _ h

theorem mem_of_mem_foldl_addImport {types extra : List Ty} {t : Ty} (h : t ∈ types.foldl addImport extra) :
    t ∈ extra ∨ t ∈ types := by
  induction types generalizing extra with
  | nil => exact .inl h
  | cons u types ih =>
    rcases ih h with h | h
    · unfold addImport at h
      split at h
      · exact .inl h
      · rcases List.mem_append.mp h with h | h
        · exact .inl h
        · exact .inr (List.mem_cons.mpr (.inl (List.mem_singleton.mp h)))
    · exact .inr (List.mem_cons_of_mem _ h)

def HandsOn (v w : Value) : Prop := ∀ t ∈ w.imports, ∃ u ∈ v.types, (u == t) = true

variable {v w : Value} {t : Ty}

theorem mem_types_withImports (h : t ∈ v.types) (types : List Ty) : t ∈ (v.withImports types).types := by
  rcases List.mem_append.mp h with h | h
  · exact List.mem_append_left _ h
  · exact List.mem_append_right _ (mem_foldl_addImport types h)

theorem mem_types_withImportsOf (h : t ∈ v.types) (values : List Value) : t ∈ (v.withImportsOf values).types :=
  mem_types_withImports h _

theorem exists_types_withImports {types : List Ty} (h : t ∈ types) :
    ∃ u ∈ (v.withImports types).types, (u == t) = true := by
  obtain ⟨u, hu, hut⟩ := exists_foldl_addImport v.extra h
  exact ⟨u, List.mem_append_right _ hu, hut⟩

theorem handsOn_withImportsOf {values : List Value} (h : w ∈ values) : (v.withImportsOf values).HandsOn w :=
  fun _ ht => exists_types_withImports (List.mem_flatMap.mpr ⟨w, h, ht⟩)

theorem HandsOn.withImportsOf (h : v.HandsOn w) (values : List Value) : (v.withImportsOf values).HandsOn w := by
  intro t ht
  obtain ⟨u, hu, hut⟩ := h t ht
  exact ⟨u, mem_types_withImportsOf hu values, hut⟩

def Imports (v : Value) (t : Ty) : Prop := ∃ u ∈ v.imports, u.ImportedAlike t

theorem imports_of_mem (h : t ∈ v.imports) : v.Imports t := ⟨t, h, .refl t⟩

section
variable {all : List Ty} (huniform : Ty.Uniform all) (hv : v.types ⊆ all)
include huniform hv

theorem imports_of_beq {u : Ty} (hu : u ∈ v.types) (ht : t ∈ all) (hut : (u == t) = true)
    (hneeds : t.shouldImport = true) : v.Imports t := by
  have halike := huniform u (hv hu) t ht hut
  exact ⟨u, mem_imports.mpr ⟨hu, halike.shouldImport_eq.trans hneeds⟩, halike⟩

theorem HandsOn.imports (h : v.HandsOn w) (hw : w.types ⊆ all) (ht : w.Imports t) : v.Imports t := by
  obtain ⟨u, hu, hut⟩ := ht
  obtain ⟨x, hx, hxu⟩ := h u hu
  obtain ⟨htypes, hneeds⟩ := mem_imports.mp hu
  obtain ⟨y, hy, hyu⟩ := imports_of_beq huniform hv hx (hw htypes) hxu hneeds
  exact ⟨y, hy, hyu.trans hut⟩

end

end Value

/-! ## Combined values -/

/-- An expression as it is built from values. -/
inductive Compound where
  | leaf (v : Value)
  | relational (left : Compound) (operator : String) (right : Compound)
  | compare (c : Comparison) (left right : Compound)
  | objectEquals (left right : Compound)
  | connect (k : Connective) (left right : Compound)
  | negation (operand : Compound)
  | arithmetic (left : Compound) (operator : String) (right : Compound)
  | calculate (o : Arithmetic) (left right : Compound)
  | cast (operand : Compound) (ty : Ty)
  | call (method : String) (returns : Ty) (args : List Compound)
  | staticCall (cls : Ty) (method : String) (returns : Ty) (args : List Compound)
  | methodCall (callee : Compound) (method : String) (returns : Ty) (args : List Compound)
  | property (source : Compound) (name : String) (ty : Ty)
  | element (source index : Compound) (ty : Ty)
  | size (array : Compound)
  | newInstance (ty : Ty) (args : List Compound)
  | newArrayOf (ty : Ty) (values : List Compound)
  /-- A variable that is initialised with an expression. -/
  | named (name : String) (initial : Compound)

namespace Compound

variable (l : Language)

mutual

def value : Compound → Value
  | leaf v => v
  | relational a operator b => l.relational a.value operator b.value
  | compare c a b => c.combine l a.value b.value
  | objectEquals a b => l.objectEquals a.value b.value
  | connect k a b => k.combine l a.value b.value
  | negation a => l.negation a.value
  | arithmetic a operator b => l.arithmetic a.value operator b.value
  | calculate o a b => o.combine l a.value b.value
  | cast a ty => l.cast a.value ty
  | call method returns args => Language.callValue method returns (values args)
  | staticCall cls method returns args => l.staticCallValue cls method returns (values args)
  | methodCall callee method returns args => l.methodCallValue callee.value method returns (values args)
  | property a name ty => Language.propertyValue a.value name ty
  | element a index ty => Language.arrayValue a.value index.value ty
  | size a => l.arraySize a.value
  | newInstance ty args => l.newInstance ty (values args)
  | newArrayOf ty args => l.newArrayOf ty (values args)
  | named name initial => Variable.reference ⟨name, initial.value⟩

def values : List Compound → List Value
  | [] => []
  | e :: es => e.value :: values es

end

def operands : Compound → List Compound
  | leaf _ => []
  | relational a _ b | compare _ a b | objectEquals a b | connect _ a b | arithmetic a _ b | calculate _ a b
  | element a b _ => [a, b]
  | negation a | cast a _ | property a _ _ | size a | named _ a => [a]
  | call _ _ args | staticCall _ _ _ args | newInstance _ args | newArrayOf _ args => args
  | methodCall callee _ _ args => callee :: args

mutual

def parts : Compound → List Compound
  | e@(leaf _) => [e]
  | e@(relational a _ b) | e@(compare _ a b) | e@(objectEquals a b) | e@(connect _ a b) | e@(arithmetic a _ b)
  | e@(calculate _ a b) | e@(element a b _) => e :: (a.parts ++ b.parts)
  | e@(negation a) | e@(cast a _) | e@(property a _ _) | e@(size a) | e@(named _ a) => e :: a.parts
  | e@(call _ _ args) | e@(staticCall _ _ _ args) | e@(newInstance _ args) | e@(newArrayOf _ args) =>
    e :: partsOfAll args
  | e@(methodCall callee _ _ args) => e :: (callee.parts ++ partsOfAll args)

def partsOfAll : List Compound → List Compound
  | [] => []
  | e :: es => e.parts ++ partsOfAll es

end

def types (e : Compound) : List Ty := e.parts.flatMap fun part => (part.value l).types

theorem values_eq_map (es : List Compound) : values l es = es.map (value l) := by
  induction es with
  | nil => rfl
  | cons e es ih => rw [values, ih, List.map_cons]

theorem partsOfAll_eq_flatMap (es : List Compound) : partsOfAll es = es.flatMap parts := by
  induction es with
  | nil => rfl
  | cons e es ih => rw [partsOfAll, ih, List.flatMap_cons]

theorem parts_eq (e : Compound) : e.parts = e :: e.operands.flatMap parts := by
  cases e <;> simp [parts, operands, partsOfAll_eq_flatMap]

theorem sizeOf_lt_of_mem {o e : Compound} (h : o ∈ e.operands) : sizeOf o < sizeOf e := by
  cases e with
  | leaf v => cases h
  | negation a | cast a _ | property a _ _ | size a | named _ a =>
    obtain rfl := List.mem_singleton.mp h
    grind
  | relational a _ b | compare _ a b | objectEquals a b | connect _ a b | arithmetic a _ b | calculate _ a b
  | element a b _ =>
    have ho : o = a ∨ o = b := by simpa [operands] using h
    rcases ho with rfl | rfl <;> grind
  | call _ _ args | staticCall _ _ _ args | newInstance _ args | newArrayOf _ args =>
    have hlt : sizeOf o < sizeOf args := List.sizeOf_lt_of_mem h
    grind
  | methodCall callee _ _ args =>
    rcases List.mem_cons.mp h with rfl | h
    · grind
    · have hlt : sizeOf o < sizeOf args := List.sizeOf_lt_of_mem h
      grind

@[elab_as_elim]
theorem induct_operands {motive : Compound → Prop} (h : ∀ e, (∀ o ∈ e.operands, motive o) → motive e) (e : Compound) :
    motive e :=
  h e fun o _ => induct_operands h o
termination_by sizeOf e
decreasing_by exact sizeOf_lt_of_mem ‹_›

/-! ## What is handed on -/

section
variable {e : Compound}

theorem mem_parts_self (e : Compound) : e ∈ e.parts := e.parts_eq ▸ List.mem_cons_self

theorem types_value_subset (e : Compound) : (e.value l).types ⊆ e.types l :=
  fun _ ht => List.mem_flatMap.mpr ⟨e, e.mem_parts_self, ht⟩

theorem types_operand_subset {o : Compound} (h : o ∈ e.operands) : o.types l ⊆ e.types l := by
  intro t ht
  obtain ⟨part, hpart, htype⟩ := List.mem_flatMap.mp ht
  have hmem : part ∈ e.parts := by
    rw [parts_eq]
    exact List.mem_cons_of_mem _ (List.mem_flatMap.mpr ⟨o, h, hpart⟩)
  exact List.mem_flatMap.mpr ⟨part, hmem, htype⟩

theorem handsOn_operand {o : Compound} (h : o ∈ e.operands) : (e.value l).HandsOn (o.value l) := by
  have hargs : ∀ {args : List Compound}, o ∈ args → o.value l ∈ values l args := fun ho => by
    rw [values_eq_map]
    exact List.mem_map_of_mem ho
  have hone : ∀ {a : Compound}, o ∈ [a] → o.value l ∈ [a.value l] := fun ho => hargs ho
  have htwo : ∀ {a b : Compound}, o ∈ [a, b] → o.value l ∈ [a.value l, b.value l] := fun ho => hargs ho
  cases e with
  | leaf v => cases h
  | relational a operator b => exact Value.handsOn_withImportsOf (htwo h)
  | compare c a b => cases c <;> exact Value.handsOn_withImportsOf (htwo h)
  | objectEquals a b => cases l <;> exact Value.handsOn_withImportsOf (htwo h)
  | connect k a b => cases k <;> exact Value.handsOn_withImportsOf (htwo h)
  | negation a => exact Value.handsOn_withImportsOf (hone h)
  | arithmetic a operator b => exact Value.handsOn_withImportsOf (htwo h)
  | calculate o a b => cases o <;> exact Value.handsOn_withImportsOf (htwo h)
  | cast a ty => exact Value.handsOn_withImportsOf (hone h)
  | call method returns args => exact Value.handsOn_withImportsOf (hargs h)
  | staticCall cls method returns args => exact Value.handsOn_withImportsOf (hargs h)
  | methodCall callee method returns args =>
    rcases List.mem_cons.mp h with rfl | h
    · exact (Value.handsOn_withImportsOf (List.mem_singleton.mpr rfl)).withImportsOf _
    · exact Value.handsOn_withImportsOf (hargs h)
  | property a name ty => exact Value.handsOn_withImportsOf (hone h)
  | element a index ty => exact Value.handsOn_withImportsOf (htwo h)
  | size a => exact Value.handsOn_withImportsOf (hone h)
  | newInstance ty args => exact Value.handsOn_withImportsOf (hargs h)
  | newArrayOf ty args => exact Value.handsOn_withImportsOf (hargs h)
  | named name initial => exact Value.handsOn_withImportsOf (hone h)

/-- What any part of an expression imports, the whole imports. -/
theorem imports_of_part (e : Compound) (huniform : Ty.Uniform (e.types l)) {part : Compound} (hpart : part ∈ e.parts)
    {t : Ty} (ht : (part.value l).Imports t) : (e.value l).Imports t := by
  induction e using induct_operands with
  | h e ih =>
    rw [parts_eq] at hpart
    rcases List.mem_cons.mp hpart with rfl | hpart
    · exact ht
    obtain ⟨o, ho, hpart⟩ := List.mem_flatMap.mp hpart
    have hsub := types_operand_subset l ho
    have hoperand := ih o ho (huniform.subset hsub) hpart
    exact (handsOn_operand l ho).imports huniform (types_value_subset l e)
      (fun _ hmem => hsub (types_value_subset l o hmem)) hoperand

end

/-- The value of an expression imports all that its leaves import, and each class of a static call in it that needs
an import. -/
theorem imports_kept (e : Compound) (huniform : Ty.Uniform (e.types l)) :
    (∀ v, leaf v ∈ e.parts → ∀ t ∈ v.imports, (e.value l).Imports t) ∧
      ∀ cls method returns args, staticCall cls method returns args ∈ e.parts → cls.shouldImport = true →
        (e.value l).Imports cls := by
  constructor
  · intro v hv t ht
    exact e.imports_of_part l huniform hv (Value.imports_of_mem ht)
  · intro cls method returns args hcall hneeds
    refine e.imports_of_part l huniform hcall (Value.imports_of_mem (Value.mem_imports.mpr ⟨?_, hneeds⟩))
    exact Value.mem_types_withImportsOf (List.mem_append_right _ (List.mem_singleton.mpr rfl)) _

def largest : Compound :=
  .compare .greaterThan
    (.staticCall Catalog.OpenCv.imgproc "contourArea" Catalog.double
      [.named "shape" (.element (.leaf (.new (Catalog.Java.list Catalog.OpenCv.matOfPoint) "shapes"))
        (.leaf (.raw "0")) Catalog.OpenCv.matOfPoint)])
    (.staticCall Catalog.Java.math "max" Catalog.double
      [.size (.leaf (.new (Catalog.Java.list Catalog.OpenCv.rect) "boxes")),
        .cast (.leaf (.new Catalog.OpenCv.size "limit")) Catalog.double])

theorem imports_kept_largest : Ty.Uniform (largest.types .kotlin) ∧
    (largest.value .kotlin).Imports Catalog.OpenCv.rect ∧ (largest.value .kotlin).Imports Catalog.OpenCv.size ∧
      (largest.value .kotlin).Imports Catalog.OpenCv.imgproc := by
  have huniform : Ty.Uniform (largest.types .kotlin) := by decide +kernel
  obtain ⟨hleaves, hcalls⟩ := largest.imports_kept .kotlin huniform
  refine ⟨huniform, ?_, ?_, ?_⟩
  · exact hleaves (.new (Catalog.Java.list Catalog.OpenCv.rect) "boxes") (by simp [largest, parts, partsOfAll])
      Catalog.OpenCv.rect (List.mem_cons_of_mem _ List.mem_cons_self)
  · exact hleaves (.new Catalog.OpenCv.size "limit") (by simp [largest, parts, partsOfAll]) Catalog.OpenCv.size
      List.mem_cons_self
  · exact hcalls Catalog.OpenCv.imgproc _ _ _
      (List.mem_cons_of_mem _ (List.mem_append_left _ (mem_parts_self _))) rfl

end Compound

end Pipewright
