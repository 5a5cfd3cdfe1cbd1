import Pipewright.Language.Expr
import Pipewright.Language.ImportBlock

/-!
# Imports that nothing needs

Whether a type asks for an import is decided on the type in use, but what is
stored is the type that is imported for it. The two agree unless that one needs
no import itself, as where an array is imported as its builtin element; a scope
holds needed types only just if none of the types in use is of this kind
(`types_needed_iff`).
-/

namespace Pipewright

/-! ## Import targets -/

namespace Ty

theorem importing_importTarget : ∀ t : Ty, t.importTarget.importing = none
  | mk _ _ _ none _ _ => by
    rw [importTarget, targetOr]
    rfl
  | mk _ _ _ (some u) _ _ => by
    rw [importTarget, targetOr]
    exact importing_importTarget u

theorem importTarget_of_importing_none : ∀ {t : Ty}, t.importing = none → t.importTarget = t
  | mk _ _ _ none _ _, _ => by rw [importTarget, targetOr]

theorem importTarget_importTarget (t : Ty) : t.importTarget.importTarget = t.importTarget :=
  importTarget_of_importing_none t.importing_importTarget

/-- A type asks for an import, and what is imported for it needs none. -/
def Stray (t : Ty) : Prop := t.shouldImport = true ∧ t.importTarget.shouldImport = false

end Ty

/-! ## Arrays -/

namespace Language

theorem stray_arrayOf_suffixed {l : Language} (hl : l = java ∨ l = lua) (t : Ty) : (l.arrayOf t).Stray ↔
    t.package ≠ "" ∧ t.package ≠ t.spelling ++ "[]" ∧ t.importTarget.shouldImport = false := by
  have harray : l.arrayOf t = .mk (t.spelling ++ "[]") t.package [] (some t.importTarget) true .auto := by
    rcases hl with rfl | rfl <;> rfl
  have htarget : (l.arrayOf t).importTarget = t.importTarget := by
    rw [harray, Ty.importTarget, Ty.targetOr, t.importTarget_importTarget]
  have hneeds : (l.arrayOf t).shouldImport = true ↔ t.package ≠ "" ∧ t.package ≠ t.spelling ++ "[]" := by
    rw [harray]
    simp [Ty.shouldImport, Ty.rule, Ty.package, Ty.name]
  rw [Ty.Stray, htarget, hneeds, and_assoc]

def StrayArray (l : Language) (t : Ty) : Prop :=
  match l with
  | java | lua => t.package ≠ "" ∧ t.package ≠ t.spelling ++ "[]" ∧ t.importTarget.shouldImport = false
  | kotlin => False
  | python => t.Stray

theorem stray_arrayOf_iff (l : Language) (t : Ty) : (l.arrayOf t).Stray ↔ l.StrayArray t := by
  cases l with
  | java => exact stray_arrayOf_suffixed (.inl rfl) t
  | lua => exact stray_arrayOf_suffixed (.inr rfl) t
  | kotlin =>
    refine iff_of_false ?_ not_false
    intro h
    cases h.1
  | python => exact Iff.rfl

end Language

/-! ## Sequences of steps -/

inductive ImportStep where
  | type (t : Ty)
  | value (v : Value)
  | truncate (count : Nat)

def ImportStep.asks : ImportStep → List Ty
  | type t => [t]
  | value v => v.imports
  | truncate _ => []

namespace ImportScope

def step (s : ImportScope) : ImportStep → ImportScope
  | .type t => s.register t
  | .value v => s.registerValue v
  | .truncate count => s.truncate count

def run (s : ImportScope) (steps : List ImportStep) : ImportScope := steps.foldl step s

variable {s : ImportScope} {t : Ty}

theorem mem_register {u : Ty} (h : t ∈ (s.register u).types) :
    t ∈ s.types ∨ u.shouldImport = true ∧ t = u.importTarget := by
  unfold register at h
  split at h
  · rename_i hlacks
    rw [lacks, Bool.and_eq_true] at hlacks
    rcases List.mem_append.mp h with h | h
    · exact .inl h
    · exact .inr ⟨hlacks.1, List.mem_singleton.mp h⟩
  · exact .inl h

theorem mem_registerAll {types : List Ty} (h : t ∈ (s.registerAll types).types) :
    t ∈ s.types ∨ ∃ u ∈ types, u.shouldImport = true ∧ t = u.importTarget := by
  induction types generalizing s with
  | nil => exact .inl h
  | cons u types ih =>
    rcases ih h with h | ⟨w, hw, htarget⟩
    · exact (mem_register h).imp_right fun htarget => ⟨u, List.mem_cons_self, htarget⟩
    · exact .inr ⟨w, List.mem_cons_of_mem _ hw, htarget⟩

theorem mem_step {x : ImportStep} (h : t ∈ (s.step x).types) :
    t ∈ s.types ∨ ∃ u ∈ x.asks, u.shouldImport = true ∧ t = u.importTarget := by
  cases x with
  | type u => exact (mem_register h).imp_right fun htarget => ⟨u, List.mem_singleton.mpr rfl, htarget⟩
  | value v => exact mem_registerAll h
  | truncate count => exact .inl (List.mem_of_mem_take h)

theorem mem_run {steps : List ImportStep} (h : t ∈ (s.run steps).types) :
    t ∈ s.types ∨ ∃ x ∈ steps, ∃ u ∈ x.asks, u.shouldImport = true ∧ t = u.importTarget := by
  induction steps generalizing s with
  | nil => exact .inl h
  | cons x steps ih =>
    rcases ih h with h | ⟨y, hy, htarget⟩
    · exact (mem_step h).imp_right fun htarget => ⟨x, List.mem_cons_self, htarget⟩
    · exact .inr ⟨y, List.mem_cons_of_mem _ hy, htarget⟩

theorem register_empty (h : t.shouldImport = true) : empty.register t = ⟨[t.importTarget]⟩ := by
  have hlacks : empty.lacks t = true := by
    rw [lacks, h]
    rfl
  rw [register, if_pos hlacks]
  rfl

end ImportScope

/-! ## What a scope holds -/

def Language.WritesImport (l : Language) (t : Ty) : Prop := t ∈ l.importedTypes ⟨[t]⟩

theorem Language.mem_importedTypes {l : Language} {s : ImportScope} {t : Ty} :
    t ∈ l.importedTypes s ↔ t ∈ s.types ∧ l.WritesImport t := by
  simp [WritesImport, importedTypes]

theorem Language.writesImport_of_needless {l : Language} {t : Ty} (h : t.shouldImport = false) :
    l.WritesImport t ↔ l ≠ python ∧ l.excludesImport t = false ∧ t.package ≠ "" := by
  cases l <;> simp [WritesImport, importedTypes, h]

/-- A scope that registering types in use and forgetting some of them can lead to. -/
def ReachedBy (used : Ty → Prop) (s : ImportScope) : Prop :=
  ∃ steps : List ImportStep, (∀ x ∈ steps, ∀ t ∈ x.asks, used t) ∧ s = ImportScope.empty.run steps

namespace ReachedBy

variable {used : Ty → Prop} {t : Ty}

theorem single (ht : used t) (h : t.shouldImport = true) : ReachedBy used ⟨[t.importTarget]⟩ := by
  refine ⟨[.type t], ?_, (ImportScope.register_empty h).symm⟩
  intro x hx u hu
  obtain rfl := List.mem_singleton.mp hx
  obtain rfl := List.mem_singleton.mp hu
  exact ht

theorem target {s : ImportScope} (h : ReachedBy used s) (ht : t ∈ s.types) :
    ∃ u, used u ∧ u.shouldImport = true ∧ t = u.importTarget := by
  obtain ⟨steps, hused, rfl⟩ := h
  rcases ImportScope.mem_run ht with h | ⟨x, hx, u, hu, hneeds, htarget⟩
  · cases h
  · exact ⟨u, hused x hx u hu, hneeds, htarget⟩

/-- What is stored and needs no import is there for a stray type. -/
theorem exists_stray {s : ImportScope} (h : ReachedBy used s) (ht : t ∈ s.types) (hno : t.shouldImport = false) :
    ∃ u, used u ∧ u.Stray ∧ t = u.importTarget := by
  obtain ⟨u, hu, hneeds, rfl⟩ := h.target ht
  exact ⟨u, hu, ⟨hneeds, hno⟩, rfl⟩

end ReachedBy

/-- Scopes hold types that need an import, whatever of the types in use is registered, just if no type in use is
stray; and a language writes import statements for such types only just if it writes none for what stray types are
imported as. Python never writes one, the others do if the type has a package and is not excluded. An array is stray
in Java and Lua where its element needs no import and has a package, in Kotlin never. -/
theorem types_needed_iff (used : Ty → Prop) :
    ((∀ s, ReachedBy used s → ∀ t ∈ s.types, t.shouldImport = true) ↔ ∀ t, used t → ¬ t.Stray) ∧
      (∀ l : Language, (∀ s, ReachedBy used s → ∀ t ∈ l.importedTypes s, t.shouldImport = true) ↔
        ∀ t, used t → t.Stray → ¬ l.WritesImport t.importTarget) ∧
      (∀ (l : Language) (t : Ty), t.Stray → (l.WritesImport t.importTarget ↔
        l ≠ .python ∧ l.excludesImport t.importTarget = false ∧ t.importTarget.package ≠ "")) ∧
      ∀ (l : Language) (t : Ty), (l.arrayOf t).Stray ↔ l.StrayArray t := by
  refine ⟨⟨?_, ?_⟩, fun l => ⟨?_, ?_⟩, fun l t h => Language.writesImport_of_needless h.2, Language.stray_arrayOf_iff⟩
  · intro h t ht hstray
    have hneeds := h _ (.single ht hstray.1) t.importTarget (List.mem_singleton.mpr rfl)
    rw [hstray.2] at hneeds
    cases hneeds
  · intro h s hs t ht
    refine Bool.of_not_eq_false fun hno => ?_
    obtain ⟨u, hu, hstray, -⟩ := hs.exists_stray ht hno
    exact h u hu hstray
  · intro h t ht hstray hwrites
    have hneeds := h _ (.single ht hstray.1) t.importTarget hwrites
    rw [hstray.2] at hneeds
    cases hneeds
  · intro h s hs t ht
    obtain ⟨htypes, hwrites⟩ := Language.mem_importedTypes.mp ht
    refine Bool.of_not_eq_false fun hno => ?_
    obtain ⟨u, hu, hstray, rfl⟩ := hs.exists_stray htypes hno
    exact h u hu hstray hwrites

/-- The array `{ 3 }` of the builtin `int` in Java. -/
theorem types_needed_intArray :
    let numbers := Language.java.newArrayOf Catalog.int [.raw "3"]
    (Language.java.arrayOf Catalog.int).Stray ∧
      (¬ ∀ s, ReachedBy (· ∈ numbers.imports) s → ∀ t ∈ s.types, t.shouldImport = true) ∧
      Language.java.importBlock (ImportScope.empty.run [.value numbers]) = .ok "import int.int;" := by
  intro numbers
  obtain ⟨hstored, -, -, harrays⟩ := types_needed_iff (· ∈ numbers.imports)
  have hstray : (Language.java.arrayOf Catalog.int).Stray := (harrays .java Catalog.int).mpr ⟨by decide, by decide, rfl⟩
  have hused : Language.java.arrayOf Catalog.int ∈ numbers.imports :=
    List.mem_filter.mpr ⟨List.mem_cons_self, hstray.1⟩
  exact ⟨hstray, fun h => hstored.mp h _ hused hstray, by rfl⟩

end Pipewright
