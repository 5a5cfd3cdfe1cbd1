import Mathlib.Logic.Relation
import Pipewright.Proofs.CarriedImports
import Pipewright.Proofs.Spelling

/-!
# What Python's own expressions import

Tuples, named arguments, type tests and element accesses hand on the imports of
what they are built from. A slice does not: its parts stand in its text, and it
imports nothing. So an expression carries an import exactly if something in it that
is in no slice asks for it (`Python.Form.imports_carried`).
-/

namespace Pipewright

open Relation

namespace Value

def Carries (v : Value) (t : Ty) : Prop := ∃ u ∈ v.imports, (u == t) = true

instance (v : Value) (t : Ty) : Decidable (v.Carries t) :=
  inferInstanceAs (Decidable (∃ u ∈ v.imports, (u == t) = true))

theorem carries_of_mem {v : Value} {t : Ty} (h : t ∈ v.imports) : v.Carries t := ⟨t, h, BEq.refl t⟩

theorem not_carries {v : Value} (h : v.imports = []) (t : Ty) : ¬ v.Carries t := by
  rintro ⟨u, hu, -⟩
  rw [h] at hu
  cases hu

/-- All that is added to a value without extra imports needs an import, so nothing of it is shadowed. -/
theorem carries_withImportsOf {v : Value} (h : v.extra = []) {values : List Value} {t : Ty} :
    (v.withImportsOf values).Carries t ↔ v.Carries t ∨ ∃ w ∈ values, w.Carries t := by
  have hadded : ∀ u ∈ (values.flatMap imports).foldl addImport v.extra, ∃ w ∈ values, u ∈ w.imports := by
    intro u hu
    rcases mem_of_mem_foldl_addImport hu with hu | hu
    · rw [h] at hu
      cases hu
    · exact List.mem_flatMap.mp hu
  constructor
  · rintro ⟨u, hu, hut⟩
    obtain ⟨htypes, hneeds⟩ := mem_imports.mp hu
    rcases List.mem_append.mp htypes with hown | hextra
    · exact .inl ⟨u, mem_imports.mpr ⟨List.mem_append_left _ hown, hneeds⟩, hut⟩
    · obtain ⟨w, hw, hu⟩ := hadded u hextra
      exact .inr ⟨w, hw, u, hu, hut⟩
  · rintro (⟨u, hu, hut⟩ | ⟨w, hw, u, hu, hut⟩)
    · obtain ⟨htypes, hneeds⟩ := mem_imports.mp hu
      exact ⟨u, mem_imports.mpr ⟨mem_types_withImportsOf htypes values, hneeds⟩, hut⟩
    · obtain ⟨x, hx, hxu⟩ := exists_foldl_addImport v.extra (List.mem_flatMap.mpr ⟨w, hw, hu⟩)
      obtain ⟨w', -, hxw⟩ := hadded x hx
      exact ⟨x, mem_imports.mpr ⟨List.mem_append_right _ hx, (mem_imports.mp hxw).2⟩, BEq.trans hxu hut⟩

end Value

namespace Python

/-- An expression of Python's own forms, as it is built from values. -/
inductive Form where
  | leaf (v : Value)
  | tuple (items : List Form)
  | named (name : String) (value : Form)
  | slice (start stop step : Option Form)
  | isType (value : Form) (ty : Ty)
  | isNotType (value : Form) (ty : Ty)
  | element (source index : Form) (ty : Ty)

namespace Form

mutual

def value : Form → Value
  | leaf v => v
  | tuple items => Python.tuple (values items)
  | named name e => Python.namedArgument name e.value
  | slice start stop step => Python.slice (part start) (part stop) (part step)
  | isType e ty => Python.isType e.value ty
  | isNotType e ty => Python.isNotType e.value ty
  | element source index ty => Language.arrayValue source.value index.value ty

def values : List Form → List Value
  | [] => []
  | e :: es => e.value :: values es

def part : Option Form → Option Value
  | none => none
  | some e => some e.value

end

def operands : Form → List Form
  | leaf _ => []
  | tuple items => items
  | named _ e | isType e _ | isNotType e _ => [e]
  | slice start stop step => start.toList ++ stop.toList ++ step.toList
  | element source index _ => [source, index]

def isSlice : Form → Bool
  | slice .. => true
  | _ => false

def own : Form → List Ty
  | leaf v => v.imports
  | element _ _ ty => (ty :: ty.generics).filter Ty.shouldImport
  | tuple _ | named _ _ | slice .. | isType _ _ | isNotType _ _ => []

def Holds : Form → Form → Prop := ReflTransGen fun e o => o ∈ e.operands

/-- A part that is in no slice. -/
def Shows : Form → Form → Prop := ReflTransGen fun e o => e.isSlice = false ∧ o ∈ e.operands

theorem values_eq_map (es : List Form) : values es = es.map value := by
  induction es with
  | nil => rfl
  | cons e es ih => rw [values, ih, List.map_cons]

theorem sizeOf_lt_of_mem {o e : Form} (h : o ∈ e.operands) : sizeOf o < sizeOf e := by
  cases e with
  | leaf v => cases h
  | tuple items =>
    have hlt : sizeOf o < sizeOf items := List.sizeOf_lt_of_mem h
    grind
  | named _ e | isType e _ | isNotType e _ =>
    obtain rfl := List.mem_singleton.mp h
    grind
  | slice start stop step =>
    simp only [operands, List.mem_append, Option.mem_toList, or_assoc] at h
    rcases h with rfl | rfl | rfl <;> grind
  | element source index _ =>
    have ho : o = source ∨ o = index := by simpa [operands] using h
    rcases ho with rfl | rfl <;> grind

@[elab_as_elim]
theorem induct_operands {motive : Form → Prop} (h : ∀ e, (∀ o ∈ e.operands, motive o) → motive e) (e : Form) :
    motive e :=
  h e fun o _ => induct_operands h o
termination_by sizeOf e
decreasing_by exact sizeOf_lt_of_mem ‹_›

/-! ## One form -/

section
variable {e o : Form} {t : Ty}

theorem infix_commaSeparated {v : Value} {vs : List Value} (h : v ∈ vs) :
    v.text.toList <:+: (Value.commaSeparated vs).toList := by
  unfold Value.commaSeparated
  induction vs with
  | nil => cases h
  | cons w vs ih =>
    cases vs with
    | nil =>
      obtain rfl := List.mem_singleton.mp h
      simp
    | cons x vs =>
      rw [List.map_cons, String.intercalate_cons_of_ne_nil (by simp), String.toList_append, String.toList_append]
      rcases List.mem_cons.mp h with rfl | h
      · exact (List.prefix_append _ _).isInfix.trans (List.prefix_append _ _).isInfix
      · exact (ih h).trans (List.suffix_append _ _).isInfix

theorem text_slice (start stop step : Option Value) : (Python.slice start stop step).text =
    (start.map Value.text).getD "" ++ ":" ++ (stop.map Value.text).getD "" ++
      (step.map fun w => ":" ++ w.text).getD "" := by
  cases step <;> rfl

theorem infix_slice {v : Value} {start stop step : Option Value} (h : start = some v ∨ stop = some v ∨ step = some v) :
    v.text.toList <:+: (Python.slice start stop step).text.toList := by
  rw [text_slice]
  rcases h with rfl | rfl | rfl
  · simp only [String.toList_append, List.append_assoc]
    exact (List.prefix_append _ _).isInfix
  · exact infix_append _ v.text _
  · simp only [Option.map_some, Option.getD_some, String.toList_append]
    exact ((List.suffix_append _ _).trans (List.suffix_append _ _)).isInfix

theorem infix_of_operand (h : o ∈ e.operands) : o.value.text.toList <:+: e.value.text.toList := by
  cases e with
  | leaf v => cases h
  | tuple items =>
    have hitem : o.value ∈ values items := values_eq_map items ▸ List.mem_map_of_mem h
    exact (infix_commaSeparated hitem).trans (infix_append "(" _ ")")
  | named name e =>
    obtain rfl := List.mem_singleton.mp h
    have htext : (named name o).value.text = name ++ "=" ++ o.value.text := rfl
    rw [htext, String.toList_append]
    exact (List.suffix_append _ _).isInfix
  | slice start stop step =>
    simp only [operands, List.mem_append, Option.mem_toList, or_assoc] at h
    refine infix_slice (h.imp (fun h => ?_) (Or.imp (fun h => ?_) fun h => ?_)) <;> rw [h] <;> rfl
  | isType e ty =>
    obtain rfl := List.mem_singleton.mp h
    have htext : (isType o ty).value.text = o.value.text ++ " is " ++ ty.name := rfl
    rw [htext, String.toList_append, String.toList_append]
    exact (List.prefix_append _ _).isInfix.trans (List.prefix_append _ _).isInfix
  | isNotType e ty =>
    obtain rfl := List.mem_singleton.mp h
    have htext : (isNotType o ty).value.text = o.value.text ++ " is not " ++ ty.name := rfl
    rw [htext, String.toList_append, String.toList_append]
    exact (List.prefix_append _ _).isInfix.trans (List.prefix_append _ _).isInfix
  | element source index ty =>
    have htext : (element source index ty).value.text = source.value.text ++ "[" ++ index.value.text ++ "]" := rfl
    have ho : o = source ∨ o = index := by simpa [operands] using h
    rw [htext]
    rcases ho with rfl | rfl
    · rw [String.append_assoc, String.append_assoc, String.toList_append]
      exact (List.prefix_append _ _).isInfix
    · exact infix_append _ _ "]"

/-- Beside leaves and slices, a form is a new value with the imports of its operands added. -/
theorem exists_fresh (hleaf : ∀ v, e ≠ leaf v) (hslice : e.isSlice = false) :
    ∃ fresh : Value, fresh.extra = [] ∧ fresh.imports = e.own ∧
      e.value = fresh.withImportsOf (e.operands.map value) := by
  cases e with
  | leaf v => exact absurd rfl (hleaf v)
  | slice start stop step => cases hslice
  | tuple items => exact ⟨_, rfl, rfl, by rw [value, values_eq_map]; rfl⟩
  | named name e => exact ⟨_, rfl, rfl, rfl⟩
  | isType e ty => exact ⟨_, rfl, rfl, rfl⟩
  | isNotType e ty => exact ⟨_, rfl, rfl, rfl⟩
  | element source index ty => exact ⟨_, rfl, by rw [Value.imports]; exact congrArg _ (List.append_nil _), rfl⟩

def Asks (e : Form) (t : Ty) : Prop := ∃ u ∈ e.own, (u == t) = true

theorem carries_value_iff (e : Form) (t : Ty) :
    e.value.Carries t ↔ e.Asks t ∨ e.isSlice = false ∧ ∃ o ∈ e.operands, o.value.Carries t := by
  cases hslice : e.isSlice with
  | true =>
    obtain ⟨start, stop, step, rfl⟩ : ∃ start stop step, e = slice start stop step := by
      cases e with
      | slice start stop step => exact ⟨start, stop, step, rfl⟩
      | _ => cases hslice
    have hnone : ¬ (slice start stop step).value.Carries t := Value.not_carries rfl t
    simp [hnone, Asks, own]
  | false =>
    by_cases hleaf : ∃ v, e = leaf v
    · obtain ⟨v, rfl⟩ := hleaf
      simp [value, Value.Carries, Asks, own, operands]
    · obtain ⟨fresh, hextra, hown, hvalue⟩ := exists_fresh (fun v h => hleaf ⟨v, h⟩) hslice
      rw [hvalue, Value.carries_withImportsOf hextra]
      simp [Value.Carries, Asks, hown]

end

/-! ## A whole expression -/

section
variable {e part : Form} {t : Ty}

theorem infix_of_holds (h : e.Holds part) : part.value.text.toList <:+: e.value.text.toList := by
  induction h with
  | refl => exact List.infix_rfl
  | tail _ hpart ih => exact (infix_of_operand hpart).trans ih

theorem Shows.holds (h : e.Shows part) : e.Holds part := ReflTransGen.mono (fun _ _ h => h.2) _ _ h

theorem carries_iff (e : Form) (t : Ty) : e.value.Carries t ↔ ∃ part, e.Shows part ∧ part.Asks t := by
  induction e using induct_operands with
  | h e ih =>
    rw [carries_value_iff]
    constructor
    · rintro (hasks | ⟨hslice, o, ho, hcarries⟩)
      · exact ⟨e, .refl, hasks⟩
      · obtain ⟨part, hshows, hasks⟩ := (ih o ho).mp hcarries
        exact ⟨part, .head ⟨hslice, ho⟩ hshows, hasks⟩
    · rintro ⟨part, hshows, hasks⟩
      rcases ReflTransGen.cases_head hshows with rfl | ⟨o, ⟨hslice, ho⟩, hshows⟩
      · exact .inl hasks
      · exact .inr ⟨hslice, o, ho, (ih o ho).mpr ⟨part, hshows, hasks⟩⟩

/-- The first slice on the way to a part is itself in no slice. -/
theorem Holds.shows_or_in_slice (h : e.Holds part) :
    e.Shows part ∨ ∃ s, e.Shows s ∧ s.isSlice = true ∧ s.Holds part := by
  induction h with
  | refl => exact .inl .refl
  | @tail part o hpart ho ih =>
    -- below a shown part the next step either leaves a slice, which is then the first, or stays shown
    rcases ih with hshows | ⟨s, hshows, hslice, hs⟩
    · cases hslice : part.isSlice with
      | false => exact .inl (hshows.tail ⟨hslice, ho⟩)
      | true => exact .inr ⟨part, hshows, hslice, .single ho⟩
    · exact .inr ⟨s, hshows, hslice, hs.tail ho⟩

theorem carries_of_shows (h : e.Shows part) (hcarries : part.value.Carries t) : e.value.Carries t := by
  obtain ⟨asking, hshows, hasks⟩ := (carries_iff part t).mp hcarries
  exact (carries_iff e t).mpr ⟨asking, h.trans hshows, hasks⟩

/-- All that an expression is built from stands in its text. It carries what its parts in no slice ask for, so the
imports of all parts arrive if those within slices are asked for beside the slices too. -/
theorem imports_carried (e : Form) :
    (∀ part, e.Holds part → part.value.text.toList <:+: e.value.text.toList) ∧
      (∀ t, e.value.Carries t ↔ ∃ part, e.Shows part ∧ part.Asks t) ∧
      ((∀ part, e.Holds part → ∀ t ∈ part.value.imports, e.value.Carries t) ↔
        ∀ s, e.Shows s → s.isSlice = true → ∀ part, s.Holds part → ∀ t ∈ part.value.imports,
          ∃ asking, e.Shows asking ∧ asking.Asks t) := by
  refine ⟨fun part => infix_of_holds, carries_iff e, ?_, ?_⟩
  · intro hall s hshows hslice part hpart t ht
    exact (carries_iff e t).mp (hall part (hshows.holds.trans hpart) t ht)
  · intro hslices part hpart t ht
    rcases hpart.shows_or_in_slice with hshows | ⟨s, hshows, hslice, hpart⟩
    · exact carries_of_shows hshows (Value.carries_of_mem ht)
    · exact (carries_iff e t).mpr (hslices s hshows hslice part hpart t ht)

end

def threshold : Form := leaf ((Value.new Catalog.Python.noType "cv2.THRESH_OTSU").withImports [Catalog.Python.cv2])

def rowsFrom : Form := element (leaf (.raw "rows")) (slice (some threshold) none none) Catalog.Python.noType

theorem imports_carried_rowsFrom : rowsFrom.value.text = "rows[cv2.THRESH_OTSU:]" ∧
    threshold.value.text.toList <:+: rowsFrom.value.text.toList ∧ threshold.value.imports = [Catalog.Python.cv2] ∧
    ¬ rowsFrom.value.Carries Catalog.Python.cv2 ∧ (tuple [threshold, rowsFrom]).value.Carries Catalog.Python.cv2 := by
  have hheld : rowsFrom.Holds threshold :=
    .head (b := slice (some threshold) none none) (by simp [rowsFrom, operands]) (.single (by simp [operands]))
  refine ⟨by decide, (imports_carried rowsFrom).1 threshold hheld, rfl, by decide, ?_⟩
  refine ((imports_carried (tuple [threshold, rowsFrom])).2.1 Catalog.Python.cv2).mpr ⟨threshold, ?_, ?_⟩
  · exact .single ⟨rfl, List.mem_cons_self⟩
  · exact ⟨Catalog.Python.cv2, List.mem_cons_self, by decide⟩

end Form

end Python

end Pipewright
