import Mathlib.Data.List.Induction
import Pipewright.Proofs.ImportLines

/-!
# The names of a package

What a block imports from a package depends on the class names of that package
alone, in the order of registration and with repetitions
(`PackageImports.lookup_of`). So a block is known once it is known what it makes
of one list of names (`Language.packages_listed`).
-/

namespace Pipewright

/-! ## Lists without repetitions -/

namespace Language

variable {items : List String} {item : String}

theorem distinct_concat (items : List String) (item : String) :
    distinct (items ++ [item]) = addDistinct (distinct items) item := by
  rw [distinct, List.foldl_append]
  rfl

theorem mem_distinct : item ∈ distinct items ↔ item ∈ items :=
  mem_foldl_addDistinct.trans (or_iff_right List.not_mem_nil)

theorem distinct_concat_of_mem (h : item ∈ items) : distinct (items ++ [item]) = distinct items := by
  rw [distinct_concat]
  exact addDistinct_eq_self_iff.mpr (mem_distinct.mpr h)

theorem distinct_concat_of_not_mem (h : item ∉ items) : distinct (items ++ [item]) = distinct items ++ [item] := by
  rw [distinct_concat, addDistinct, if_neg]
  simpa [mem_distinct] using h

/-- A last item brings one more if it is new. -/
theorem length_distinct_concat (items : List String) (item : String) :
    (distinct (items ++ [item])).length = (distinct items).length + if item ∈ items then 0 else 1 := by
  split
  · rename_i h
    rw [distinct_concat_of_mem h, Nat.add_zero]
  · rename_i h
    rw [distinct_concat_of_not_mem h, List.length_append, List.length_singleton]

theorem nodup_distinct (items : List String) : (distinct items).Nodup := by
  induction items using List.reverseRecOn with
  | nil => exact List.nodup_nil
  | append_singleton items item ih =>
    by_cases h : item ∈ items
    · rw [distinct_concat_of_mem h]
      exact ih
    · rw [distinct_concat_of_not_mem h]
      exact ih.append (List.nodup_singleton item) (by simpa [mem_distinct] using h)

end Language

open Pipewright.Language (distinct mem_distinct distinct_concat_of_mem distinct_concat_of_not_mem)

/-! ## One package -/

namespace ImportedNames

def taken (collapse : Bool) : Option ImportedNames → String → ImportedNames
  | none, name => only [name]
  | some x, name => x.insert collapse name

def ofNames (collapse : Bool) (names : List String) : Option ImportedNames :=
  names.foldl (fun x name => some (taken collapse x name)) none

theorem ofNames_concat (collapse : Bool) (names : List String) (name : String) :
    ofNames collapse (names ++ [name]) = some (taken collapse (ofNames collapse names) name) := by
  rw [ofNames, List.foldl_append]
  rfl

/-- Where nothing collapses, all names are there. -/
theorem ofNames_plain {names : List String} (h : names ≠ []) : ofNames false names = some (only (distinct names)) := by
  induction names using List.reverseRecOn with
  | nil => exact absurd rfl h
  | append_singleton init name ih =>
    rw [ofNames_concat]
    by_cases hinit : init = []
    · rw [hinit]
      rfl
    rw [ih hinit]
    by_cases hmem : name ∈ init
    · simp [taken, insert, distinct_concat_of_mem hmem, mem_distinct, hmem]
    · simp [taken, insert, distinct_concat_of_not_mem hmem, mem_distinct, hmem]

end ImportedNames

/-! ## All packages -/

namespace PackageImports

variable {collapse : Bool} {groups : PackageImports}

theorem lookup_insert (collapse : Bool) (package name q : String) (groups : PackageImports) :
    (groups.insert collapse package name).lookup q =
      if q = package then some (.taken collapse (groups.lookup q) name) else groups.lookup q := by
  induction groups with
  | nil =>
    by_cases hq : q = package
    · subst hq
      simp [insert, ImportedNames.taken]
    · have hne : (q == package) = false := by simpa using hq
      simp [insert, List.lookup_cons, hne, hq]
  | cons g rest ih =>
    obtain ⟨p, names⟩ := g
    rw [insert]
    split
    · rename_i hp
      subst hp
      by_cases hq : q = p
      · subst hq
        simp [ImportedNames.taken]
      · have hne : (q == p) = false := by simpa using hq
        simp [List.lookup_cons, hne, hq]
    · rename_i hp
      by_cases hq : q = p
      · subst hq
        simp [hp]
      · have hne : (q == p) = false := by simpa using hq
        simp only [List.lookup_cons, hne]
        exact ih

/-- What is imported from a package depends on the names of its types alone. -/
theorem lookup_of (collapse : Bool) (types : List Ty) (q : String) : (of collapse types).lookup q =
    ImportedNames.ofNames collapse ((types.filter fun t => t.package = q).map Ty.name) := by
  induction types using List.reverseRecOn with
  | nil => rfl
  | append_singleton types t ih =>
    have hstep : of collapse (types ++ [t]) = (of collapse types).insert collapse t.package t.name := by
      rw [of, List.foldl_append]
      rfl
    rw [hstep, lookup_insert, List.filter_append, List.map_append, ih]
    by_cases hq : q = t.package
    · subst hq
      simp [ImportedNames.ofNames_concat]
    · simp [hq, Ne.symm hq]

theorem Sound.lookup_of_mem (h : groups.Sound) {g : String × ImportedNames} (hg : g ∈ groups) :
    groups.lookup g.1 = some g.2 := by
  obtain ⟨before, after, rfl⟩ := List.append_of_mem hg
  refine List.lookup_eq_some_iff.mpr ⟨before, after, rfl, fun k hk => ?_⟩
  have hkeys := h.keys
  rw [List.map_append, List.map_cons, List.nodup_append] at hkeys
  simpa using (hkeys.2.2 k.1 (List.mem_map_of_mem hk) g.1 List.mem_cons_self).symm

end PackageImports

namespace Language

variable (l : Language)

def classNames (imports : ImportScope) (package : String) : List String :=
  ((l.importedTypes imports).filter fun t => t.package = package).map Ty.name

def packageNames (imports : ImportScope) : List String :=
  distinct ((l.importedTypes imports).map Ty.package)

variable {l} {imports : ImportScope} {p n : String}

theorem mem_classNames : n ∈ l.classNames imports p ↔ ∃ t ∈ l.importedTypes imports, t.package = p ∧ t.name = n := by
  simp [classNames, and_assoc]

theorem mem_packageNames_of (h : n ∈ l.classNames imports p) : p ∈ l.packageNames imports := by
  obtain ⟨t, ht, hp, -⟩ := mem_classNames.mp h
  exact mem_distinct.mpr (List.mem_map.mpr ⟨t, ht, hp⟩)

/-- A block is known by what it makes of the names of one package. -/
theorem packages_listed {shown : List String → List String}
    (hshown : ∀ names x, ImportedNames.ofNames l.collapses names = some x → x.toList = shown names)
    (imports : ImportScope) : (l.packages imports).map (fun g => (g.1, g.2.toList)) =
      (l.packageNames imports).map fun p => (p, shown (l.classNames imports p)) := by
  rw [packageNames, ← PackageImports.map_fst_of l.collapses, List.map_map]
  refine List.map_congr_left fun g hg => ?_
  have hlookup := (l.packages_sound imports).lookup_of_mem hg
  rw [packages, PackageImports.lookup_of] at hlookup
  exact congrArg (g.1, ·) (hshown _ _ hlookup)

end Language

end Pipewright
