import Pipewright.Proofs.PackageNames

/-!
# Wildcard imports

A package is imported as a whole if one more type of it comes when three of its
names are there: always with more than three names, and with just three if the last
type repeats one (`Language.importBlock_wildcards`).
-/

namespace Pipewright

open Pipewright.Language (distinct mem_distinct distinct_concat_of_mem distinct_concat_of_not_mem length_distinct_concat)

/-! ## One package -/

/-- What a block names of a package whose types have these class names, in the order of their registration. -/
def shownNames (names : List String) : List String :=
  if names.head? = some "*" ∨ 2 < (distinct names.dropLast).length then ["*"] else distinct names

namespace ImportedNames

/-- A package of `*` stays as it is, others are imported as a whole once a name comes on top of three. -/
theorem ofNames_eq {names : List String} (h : names ≠ []) : ofNames true names =
    some (if names.head? = some "*" then only ["*"] else if 2 < (distinct names.dropLast).length then everything
      else only (distinct names)) := by
  induction names using List.reverseRecOn with
  | nil => exact absurd rfl h
  | append_singleton init name ih =>
    rw [ofNames_concat, List.dropLast_concat]
    by_cases hinit : init = []
    · subst hinit
      by_cases hname : name = "*"
      · rw [hname]; rfl
      · have hhead : ¬ ([name].head? = some "*") := by simpa using hname
        rw [List.nil_append, if_neg hhead]
        rfl
    have hhead : (init ++ [name]).head? = init.head? := List.head?_append_of_ne_nil init hinit
    rw [ih hinit, hhead]
    by_cases hstar : init.head? = some "*"
    · rw [if_pos hstar, if_pos hstar]
      rfl
    rw [if_neg hstar, if_neg hstar]
    -- the names in front of the last one are more than two only if all of them are
    have hgrows : (distinct init.dropLast).length ≤ (distinct init).length := by
      have hlen := length_distinct_concat init.dropLast (init.getLast hinit)
      rw [List.dropLast_append_getLast hinit] at hlen
      omega
    by_cases hmany : 2 < (distinct init).length
    · rw [if_pos hmany]
      split
      · rfl
      · have hnames : distinct init ≠ ["*"] := fun he => by
          rw [he] at hmany
          simp at hmany
        simp [taken, insert, hnames, hmany]
    · rw [if_neg hmany, if_neg fun hlt => hmany (Nat.lt_of_lt_of_le hlt hgrows)]
      have hnames : distinct init ≠ ["*"] := fun he => by
        obtain ⟨first, rest, rfl⟩ := List.exists_cons_of_ne_nil hinit
        have hfirst : first ∈ distinct (first :: rest) := mem_distinct.mpr List.mem_cons_self
        rw [he, List.mem_singleton] at hfirst
        exact hstar (by rw [hfirst]; rfl)
      by_cases hmem : name ∈ init
      · simp [taken, insert, hnames, hmany, distinct_concat_of_mem hmem, mem_distinct, hmem]
      · simp [taken, insert, hnames, hmany, distinct_concat_of_not_mem hmem, mem_distinct, hmem]

theorem toList_of_ofNames {names : List String} {x : ImportedNames} (h : ofNames true names = some x) :
    x.toList = shownNames names := by
  have hne : names ≠ [] := by
    rintro rfl
    cases h
  rw [ofNames_eq hne, Option.some.injEq] at h
  subst h
  unfold shownNames
  split
  · rename_i hstar
    rw [if_pos (.inl hstar)]
    rfl
  · rename_i hstar
    split
    · rename_i hmany
      rw [if_pos (.inr hmany)]
      rfl
    · rename_i hfew
      rw [if_neg (not_or.mpr ⟨hstar, hfew⟩)]
      rfl

end ImportedNames

/-! ## Blocks -/

namespace Language

variable (l : Language)

/-- What a block is to name of a package: in Java more than two class names become one wildcard. -/
def dueNames (names : List String) : List String :=
  if l = java ∧ 2 < (distinct names).length then ["*"] else distinct names

variable {l}

theorem pairs_packages (hl : l.inClass = true) (imports : ImportScope) : (l.packages imports).pairs =
    (l.packageNames imports).flatMap fun p => (shownNames (l.classNames imports p)).map (p, ·) := by
  have hcollapses : l.collapses = true := by
    cases l with
    | java => rfl
    | kotlin => rfl
    | lua => cases hl
    | python => cases hl
  have hshown : ∀ names x, ImportedNames.ofNames l.collapses names = some x → x.toList = shownNames names := by
    rw [hcollapses]
    exact fun _ _ => ImportedNames.toList_of_ofNames
  have hpairs := congrArg (List.flatMap fun g : String × List String => g.2.map (g.1, ·)) (packages_listed hshown imports)
  rw [List.flatMap_map, List.flatMap_map] at hpairs
  exact hpairs

/-! ### The wildcard -/

def RepeatsLast (names : List String) : Prop := ∃ n ∈ names.dropLast, names.getLast? = some n

instance (names : List String) : Decidable (RepeatsLast names) :=
  inferInstanceAs (Decidable (∃ n ∈ names.dropLast, names.getLast? = some n))

theorem repeatsLast_concat {init : List String} {n : String} : RepeatsLast (init ++ [n]) ↔ n ∈ init := by
  rw [RepeatsLast, List.dropLast_concat, List.getLast?_concat]
  simp

/-- Three names stand in front of the last one if there are more than three, or three with a repetition at the end. -/
theorem two_lt_length_distinct_dropLast {names : List String} : 2 < (distinct names.dropLast).length ↔
    3 < (distinct names).length ∨ (distinct names).length = 3 ∧ RepeatsLast names := by
  obtain rfl | ⟨init, n, rfl⟩ := names.eq_nil_or_concat'
  · simp [distinct]
  rw [repeatsLast_concat, List.dropLast_concat, length_distinct_concat]
  by_cases h : n ∈ init
  · rw [if_pos h, and_iff_left h]
    omega
  · rw [if_neg h, or_iff_left fun hmem => h hmem.2]
    omega

variable {names : List String} {n : String}

theorem mem_of_mem_shownNames (h : n ∈ shownNames names) : n = "*" ∨ n ∈ names := by
  rw [shownNames] at h
  split at h
  · exact .inl (List.mem_singleton.mp h)
  · exact .inr (mem_distinct.mp h)

section
variable (hstar : "*" ∉ names)
include hstar

theorem shownNames_eq :
    shownNames names = if 2 < (distinct names.dropLast).length then ["*"] else distinct names := by
  have hhead : names.head? ≠ some "*" := fun h => hstar (List.mem_of_mem_head? h)
  simp [shownNames, hhead]

theorem star_mem_ite (collapsed : Prop) [Decidable collapsed] :
    "*" ∈ (if collapsed then ["*"] else distinct names) ↔ collapsed := by
  split
  · rename_i h
    exact iff_of_true (List.mem_singleton.mpr rfl) h
  · rename_i h
    exact iff_of_false (fun hmem => hstar (mem_distinct.mp hmem)) h

theorem star_mem_shownNames : "*" ∈ shownNames names ↔ 2 < (distinct names.dropLast).length := by
  rw [shownNames_eq hstar]
  exact star_mem_ite hstar _

theorem shownNames_of_star_not_mem (h : "*" ∉ shownNames names) : shownNames names = distinct names := by
  rw [shownNames_eq hstar, if_neg fun hmany => h ((star_mem_shownNames hstar).mpr hmany)]

theorem star_mem_dueNames : "*" ∈ l.dueNames names ↔ l = java ∧ 2 < (distinct names).length :=
  star_mem_ite hstar _

/-- What is shown is what is due if it agrees on the wildcard. -/
theorem shownNames_eq_dueNames_iff :
    shownNames names = l.dueNames names ↔ ("*" ∈ shownNames names ↔ "*" ∈ l.dueNames names) := by
  refine ⟨fun h => by rw [h], fun h => ?_⟩
  rw [star_mem_shownNames hstar, star_mem_dueNames hstar] at h
  rw [shownNames_eq hstar, dueNames, if_congr h rfl rfl]

end

theorem mem_packageNames_of_shown {imports : ImportScope} {p : String} (h : n ∈ shownNames (l.classNames imports p)) :
    p ∈ l.packageNames imports := by
  have hne : l.classNames imports p ≠ [] := fun hnil => by
    rw [hnil] at h
    cases h
  obtain ⟨m, hm⟩ := List.exists_mem_of_ne_nil _ hne
  exact mem_packageNames_of hm

/-- A package of a class has its wildcard with more than three class names, and with just three if the type that came
last repeats one of them. In Java this misses three names of which the last is new; in Kotlin no wildcard is due. -/
theorem importBlock_wildcards (hl : l.inClass = true) (imports : ImportScope)
    (hnames : ∀ t ∈ imports.types, '.' ∉ t.name.toList ∧ t.name ≠ "*") :
    let shown := fun p => shownNames (l.classNames imports p)
    let lines := (l.packageNames imports).flatMap fun p => (shown p).map fun n => l.importLine (p, n)
    l.importBlock imports = .ok ("\n".intercalate lines) ∧
    ∀ p, let names := l.classNames imports p
      (l.importLine (p, "*") ∈ lines ↔
        3 < (distinct names).length ∨ (distinct names).length = 3 ∧ RepeatsLast names) ∧
      (l.importLine (p, "*") ∉ lines → shown p = distinct names) ∧
      (l = java → (shown p = l.dueNames names ↔ ((distinct names).length = 3 → RepeatsLast names))) ∧
      (l = kotlin → (shown p = l.dueNames names ↔ l.importLine (p, "*") ∉ lines)) := by
  intro shown lines
  have hclass : ∀ p, ∀ n ∈ l.classNames imports p, '.' ∉ n.toList ∧ n ≠ "*" := by
    intro p n hn
    obtain ⟨t, ht, rfl⟩ := List.mem_map.mp hn
    exact hnames t (List.mem_of_mem_filter (List.mem_of_mem_filter ht))
  have hstar : ∀ p, "*" ∉ l.classNames imports p := fun p h => (hclass p _ h).2 rfl
  have hdots : ∀ p, ∀ n ∈ shown p, '.' ∉ n.toList := by
    intro p n hn
    rcases mem_of_mem_shownNames hn with rfl | hn
    · decide
    · exact (hclass p n hn).1
  have hmem : ∀ p, l.importLine (p, "*") ∈ lines ↔ "*" ∈ shown p := by
    intro p
    have hdot : '.' ∉ "*".toList := by decide
    constructor
    · intro hline
      obtain ⟨q, -, hline⟩ := List.mem_flatMap.mp hline
      obtain ⟨n, hn, he⟩ := List.mem_map.mp hline
      obtain ⟨rfl, rfl⟩ := Prod.mk.inj (importLine_inj (hdots q n hn) hdot he)
      exact hn
    · intro h
      exact List.mem_flatMap.mpr ⟨p, mem_packageNames_of_shown h, List.mem_map_of_mem h⟩
  refine ⟨?_, fun p => ⟨?_, ?_, ?_, ?_⟩⟩
  · rw [importBlock_of_inClass hl, pairs_packages hl, List.map_flatMap]
    simp only [List.map_map]
    rfl
  · rw [hmem, star_mem_shownNames (hstar p), two_lt_length_distinct_dropLast]
  · rw [hmem]
    exact shownNames_of_star_not_mem (hstar p)
  · rintro rfl
    rw [shownNames_eq_dueNames_iff (hstar p), star_mem_shownNames (hstar p), star_mem_dueNames (hstar p),
      two_lt_length_distinct_dropLast]
    by_cases h : RepeatsLast (java.classNames imports p)
    · simp only [h, and_true, true_and, implies_true, iff_true]
      omega
    · simp only [h, and_false, or_false, true_and, imp_false]
      omega
  · rintro rfl
    have hdue : ¬ "*" ∈ kotlin.dueNames (kotlin.classNames imports p) := by simp [star_mem_dueNames (hstar p)]
    rw [shownNames_eq_dueNames_iff (hstar p), iff_false_right hdue, hmem]

/-- In Java three names get a line each when the last of them comes last, and with another list at the end the same
types become a wildcard. -/
theorem importBlock_wildcards_utilities :
    let fresh := ImportScope.empty.registerAll [Catalog.Java.list Catalog.OpenCv.mat,
      Catalog.Java.list Catalog.OpenCv.rect, Catalog.Java.set Catalog.OpenCv.mat, Catalog.Java.collections]
    let repeated := ImportScope.empty.registerAll [Catalog.Java.list Catalog.OpenCv.mat,
      Catalog.Java.set Catalog.OpenCv.mat, Catalog.Java.collections, Catalog.Java.list Catalog.OpenCv.rect]
    fresh.types.Perm repeated.types ∧
      (∀ t ∈ fresh.types, '.' ∉ t.name.toList ∧ t.name ≠ "*") ∧
      java.importBlock fresh = .ok "import java.util.List;\nimport java.util.Set;\nimport java.util.Collections;" ∧
      java.importBlock repeated = .ok "import java.util.*;" ∧
      shownNames (java.classNames fresh "java.util") ≠ java.dueNames (java.classNames fresh "java.util") := by
  intro fresh repeated
  have hperm : fresh.types.Perm repeated.types :=
    .cons _ (@List.perm_append_comm _ [Catalog.Java.list Catalog.OpenCv.rect] _)
  have hnames : ∀ t ∈ fresh.types, '.' ∉ t.name.toList ∧ t.name ≠ "*" := by decide
  obtain ⟨-, hpackages⟩ := importBlock_wildcards (l := java) rfl fresh hnames
  obtain ⟨-, -, hdue, -⟩ := hpackages "java.util"
  refine ⟨hperm, hnames, rfl, rfl, fun he => ?_⟩
  have hlast : RepeatsLast (java.classNames fresh "java.util") := (hdue rfl).mp he rfl
  exact absurd hlast (by decide)

end Language

end Pipewright
