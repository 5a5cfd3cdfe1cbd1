import Mathlib.Data.List.Nodup
import Pipewright.Proofs.ImportText

/-!
# The lines of an import block

Whatever order the types of a class come in, each of them is covered by one line
of the block and no line stands there in vain (`Language.importBlock_covers`).
What a package shows covers all of its types at every point: it takes up each new
name until one line stands for the whole package.
-/

namespace Pipewright

/-! ## Names of a package -/

namespace ImportedNames

def Regular : ImportedNames → Prop
  | everything => True
  | only names => names.Nodup ∧ "*" ∉ names

def Covers (name : String) : ImportedNames → Prop
  | everything => True
  | only names => name ∈ names

variable {collapse : Bool} {name n : String} {x : ImportedNames}

theorem Regular.insert (h : x.Regular) (hname : name ≠ "*") : (x.insert collapse name).Regular := by
  generalize hy : x.insert collapse name = y
  cases hy ▸ insertion collapse name x with
  | present _ => exact h
  | full _ _ _ => trivial
  | new _ fresh =>
    refine ⟨List.Nodup.append h.1 (List.nodup_singleton _) (by simpa using fresh), ?_⟩
    rw [List.mem_append, List.mem_singleton, not_or]
    exact ⟨h.2, hname.symm⟩

theorem Covers.insert (h : x.Covers n) : (x.insert collapse name).Covers n := by
  generalize hy : x.insert collapse name = y
  cases hy ▸ insertion collapse name x with
  | present _ => exact h
  | full _ _ _ => trivial
  | new _ _ => exact List.mem_append_left _ h

theorem Regular.covers_of_has (h : x.Regular) (hhas : x.Has collapse name) : x.Covers name := by
  cases x with
  | everything => trivial
  | only names =>
    cases collapse with
    | false => exact hhas
    | true =>
      rcases hhas with rfl | ⟨hmem, -⟩
      · exact absurd (List.mem_singleton.mpr rfl) h.2
      · exact hmem

theorem Regular.covers_insert (h : x.Regular) : (x.insert collapse name).Covers name := by
  generalize hy : x.insert collapse name = y
  cases hy ▸ insertion collapse name x with
  | present has => exact h.covers_of_has has
  | full _ _ _ => trivial
  | new _ _ => exact List.mem_append_right _ (List.mem_singleton.mpr rfl)

theorem Regular.nodup_toList (h : x.Regular) : x.toList.Nodup := by
  cases x with
  | everything => exact List.nodup_singleton _
  | only names => exact h.1

/-- A name is covered by exactly one of those that are listed. -/
theorem Regular.existsUnique_of_covers (h : x.Regular) (hcovers : x.Covers name) (hname : name ≠ "*") :
    ∃! m, m ∈ x.toList ∧ (m = name ∨ m = "*") := by
  cases x with
  | everything =>
    refine ⟨"*", ⟨List.mem_singleton.mpr rfl, .inr rfl⟩, ?_⟩
    rintro m ⟨hm, -⟩
    exact List.mem_singleton.mp hm
  | only names =>
    refine ⟨name, ⟨hcovers, .inl rfl⟩, ?_⟩
    rintro m ⟨hm, rfl | rfl⟩
    · rfl
    · exact absurd hm h.2

end ImportedNames

/-! ## Packages -/

def Ty.CoveredBy (t : Ty) (pr : String × String) : Prop := pr = (t.package, t.name) ∨ pr = (t.package, "*")

namespace PackageImports

variable {collapse : Bool} {package name : String} {groups : PackageImports} {types : List Ty} {t : Ty}

theorem map_fst_insert (collapse : Bool) (package name : String) (groups : PackageImports) :
    (groups.insert collapse package name).map Prod.fst = Language.addDistinct (groups.map Prod.fst) package := by
  induction groups with
  | nil => rfl
  | cons g rest ih =>
    obtain ⟨p, names⟩ := g
    rw [insert]
    split
    · rename_i hp
      exact (Language.addDistinct_eq_self_iff.mpr (hp ▸ List.mem_cons_self)).symm
    · rename_i hp
      have hhead : (package == p) = false := by simpa using Ne.symm hp
      simp only [List.map_cons, ih, Language.addDistinct, List.contains_cons, hhead, Bool.false_or]
      split <;> rfl

theorem map_fst_foldl (collapse : Bool) (types : List Ty) (groups : PackageImports) :
    (types.foldl (fun groups t => groups.insert collapse t.package t.name) groups).map Prod.fst =
      (types.map Ty.package).foldl Language.addDistinct (groups.map Prod.fst) := by
  induction types generalizing groups with
  | nil => rfl
  | cons t types ih => rw [List.foldl_cons, ih, map_fst_insert, List.map_cons, List.foldl_cons]

/-- The packages stand in the order of their first types. -/
theorem map_fst_of (collapse : Bool) (types : List Ty) :
    (of collapse types).map Prod.fst = Language.distinct (types.map Ty.package) :=
  map_fst_foldl collapse types []

def Regular (groups : PackageImports) : Prop := ∀ g ∈ groups, g.2.Regular

def Covers (groups : PackageImports) (t : Ty) : Prop := ∃ g ∈ groups, g.1 = t.package ∧ g.2.Covers t.name

theorem mem_insert {g : String × ImportedNames} (h : g ∈ groups.insert collapse package name) :
    g ∈ groups ∨ g = (package, .only [name]) ∨ ∃ k ∈ groups, g = (package, k.2.insert collapse name) := by
  induction groups with
  | nil => exact .inr (.inl (List.mem_singleton.mp h))
  | cons k rest ih =>
    obtain ⟨p, names⟩ := k
    rw [insert] at h
    split at h
    · rename_i hp
      rcases List.mem_cons.mp h with rfl | h
      · exact .inr (.inr ⟨_, List.mem_cons_self, by rw [hp]⟩)
      · exact .inl (List.mem_cons_of_mem _ h)
    · rcases List.mem_cons.mp h with rfl | h
      · exact .inl List.mem_cons_self
      · rcases ih h with h | h | ⟨k, hk, h⟩
        · exact .inl (List.mem_cons_of_mem _ h)
        · exact .inr (.inl h)
        · exact .inr (.inr ⟨k, List.mem_cons_of_mem _ hk, h⟩)

theorem Regular.insert (h : groups.Regular) (hname : name ≠ "*") : (groups.insert collapse package name).Regular := by
  intro g hg
  rcases mem_insert hg with hg | rfl | ⟨k, hk, rfl⟩
  · exact h g hg
  · refine ⟨List.nodup_singleton _, ?_⟩
    rw [List.mem_singleton]
    exact hname.symm
  · exact (h k hk).insert hname

theorem Covers.insert (h : groups.Covers t) : (groups.insert collapse package name).Covers t := by
  induction groups with
  | nil =>
    obtain ⟨g, hg, -⟩ := h
    cases hg
  | cons k rest ih =>
    obtain ⟨p, names⟩ := k
    obtain ⟨g, hg, hp, hname⟩ := h
    rw [PackageImports.insert]
    split
    · rcases List.mem_cons.mp hg with rfl | hg
      · exact ⟨_, List.mem_cons_self, hp, hname.insert⟩
      · exact ⟨g, List.mem_cons_of_mem _ hg, hp, hname⟩
    · rcases List.mem_cons.mp hg with rfl | hg
      · exact ⟨_, List.mem_cons_self, hp, hname⟩
      · obtain ⟨g, hg, hcovers⟩ := ih ⟨g, hg, hp, hname⟩
        exact ⟨g, List.mem_cons_of_mem _ hg, hcovers⟩

theorem Regular.covers_insert (h : groups.Regular) : (groups.insert collapse t.package t.name).Covers t := by
  induction groups with
  | nil => exact ⟨_, List.mem_singleton.mpr rfl, rfl, List.mem_singleton.mpr rfl⟩
  | cons k rest ih =>
    obtain ⟨p, names⟩ := k
    rw [PackageImports.insert]
    split
    · rename_i hp
      exact ⟨_, List.mem_cons_self, hp, (h _ List.mem_cons_self).covers_insert⟩
    · obtain ⟨g, hg, hcovers⟩ := ih fun g hg => h g (List.mem_cons_of_mem _ hg)
      exact ⟨g, List.mem_cons_of_mem _ hg, hcovers⟩

theorem covers_foldl (types : List Ty) (h : groups.Covers t) :
    (types.foldl (fun groups t => groups.insert collapse t.package t.name) groups).Covers t := by
  induction types generalizing groups with
  | nil => exact h
  | cons u types ih => exact ih h.insert

theorem Regular.foldl (h : groups.Regular) (hnames : ∀ t ∈ types, t.name ≠ "*") :
    (types.foldl (fun groups t => groups.insert collapse t.package t.name) groups).Regular ∧
      ∀ t ∈ types, (types.foldl (fun groups t => groups.insert collapse t.package t.name) groups).Covers t := by
  induction types generalizing groups with
  | nil => exact ⟨h, fun t ht => by cases ht⟩
  | cons u types ih =>
    obtain ⟨hu, hrest⟩ := List.forall_mem_cons.mp hnames
    obtain ⟨hregular, hcovers⟩ := ih (h.insert hu) hrest
    exact ⟨hregular, List.forall_mem_cons.mpr ⟨covers_foldl types h.covers_insert, hcovers⟩⟩

theorem mem_pairs {p n : String} : (p, n) ∈ groups.pairs ↔ ∃ names, (p, names) ∈ groups ∧ n ∈ names.toList := by
  constructor
  · intro h
    obtain ⟨⟨q, names⟩, hg, hpr⟩ := List.mem_flatMap.mp h
    obtain ⟨m, hm, he⟩ := List.mem_map.mp hpr
    cases he
    exact ⟨names, hg, hm⟩
  · rintro ⟨names, hg, hn⟩
    exact List.mem_flatMap.mpr ⟨_, hg, List.mem_map_of_mem hn⟩

theorem Sound.nodup_pairs (h : groups.Sound) (hregular : groups.Regular) : groups.pairs.Nodup := by
  induction groups with
  | nil => exact List.nodup_nil
  | cons g rest ih =>
    have hrest : (pairs rest).Nodup := ih h.tail fun k hk => hregular k (List.mem_cons_of_mem _ hk)
    have hhead : (g.2.toList.map (g.1, ·)).Nodup :=
      (hregular g List.mem_cons_self).nodup_toList.map fun _ _ he => (Prod.mk.inj he).2
    refine hhead.append hrest ?_
    intro pr hpr hmem
    obtain ⟨n, -, rfl⟩ := List.mem_map.mp hpr
    exact h.key_not_mem hmem

/-- The names of a package are in one place, so what covers a type there covers it once. -/
theorem Sound.existsUnique_of_covers (h : groups.Sound) (hregular : groups.Regular) (hcovers : groups.Covers t)
    (hname : t.name ≠ "*") : ∃! pr, pr ∈ groups.pairs ∧ t.CoveredBy pr := by
  obtain ⟨⟨p, names⟩, hg, hp, hn⟩ := hcovers
  obtain rfl : p = t.package := hp
  obtain ⟨m, ⟨hm, hmn⟩, honly⟩ := (hregular _ hg).existsUnique_of_covers hn hname
  refine ⟨(t.package, m), ⟨mem_pairs.mpr ⟨names, hg, hm⟩, hmn.imp (congrArg _) (congrArg _)⟩, ?_⟩
  rintro ⟨q, k⟩ ⟨hk, hcase⟩
  have hq : q = t.package ∧ (k = t.name ∨ k = "*") := by
    rcases hcase with he | he <;> cases he
    · exact ⟨rfl, .inl rfl⟩
    · exact ⟨rfl, .inr rfl⟩
  obtain ⟨rfl, hkn⟩ := hq
  obtain ⟨names', hg', hk⟩ := mem_pairs.mp hk
  obtain rfl : names' = names := congrArg Prod.snd (List.inj_on_of_nodup_map h.keys hg' hg rfl)
  rw [honly k ⟨hk, hkn⟩]

end PackageImports

/-! ## Blocks -/

namespace Language

variable {l : Language}

def Lists (l : Language) (t : Ty) : Prop := l.excludesImport t = false ∧ t.package ≠ ""

instance (l : Language) (t : Ty) : Decidable (l.Lists t) := inferInstanceAs (Decidable (_ ∧ _))

def Covers (l : Language) (line : String) (t : Ty) : Prop :=
  line = l.importLine (t.package, t.name) ∨ line = l.importLine (t.package, "*")

theorem importedTypes_of_inClass (hl : l.inClass = true) (imports : ImportScope) :
    l.importedTypes imports = imports.types.filter fun t => l.Lists t := by
  refine List.filter_congr fun t _ => ?_
  rw [Bool.eq_iff_iff, decide_eq_true_iff]
  cases l with
  | java => simp [Lists]
  | kotlin => simp [Lists]
  | lua => cases hl
  | python => cases hl

section
variable {imports : ImportScope} {pr : String × String} {t : Ty}

theorem covers_importLine_iff (hpr : '.' ∉ pr.2.toList) (ht : '.' ∉ t.name.toList) :
    l.Covers (l.importLine pr) t ↔ t.CoveredBy pr := by
  have hstar : '.' ∉ "*".toList := by decide
  constructor
  · exact Or.imp (importLine_inj hpr ht) (importLine_inj hpr hstar)
  · exact Or.imp (congrArg l.importLine) (congrArg l.importLine)

theorem coveredBy_of_mem_pairs (h : pr ∈ (l.packages imports).pairs) :
    ∃ t ∈ l.importedTypes imports, t.CoveredBy pr := by
  rcases PackageImports.mem_pairs_of h with h | ⟨t, ht, hp, hn⟩
  · cases h
  · exact ⟨t, ht, hn.symm.imp (Prod.ext hp) (Prod.ext hp)⟩

/-- What no name contains, no name of a package contains either. -/
theorem not_mem_of_mem_pairs {c : Char} (hstar : c ∉ "*".toList)
    (hnames : ∀ t ∈ l.importedTypes imports, c ∉ t.name.toList) (h : pr ∈ (l.packages imports).pairs) :
    c ∉ pr.2.toList := by
  obtain ⟨t, ht, rfl | rfl⟩ := coveredBy_of_mem_pairs h
  · exact hnames t ht
  · exact hstar

theorem packages_regular (hnames : ∀ t ∈ l.importedTypes imports, t.name ≠ "*") :
    (l.packages imports).Regular ∧ ∀ t ∈ l.importedTypes imports, (l.packages imports).Covers t :=
  PackageImports.Regular.foldl (fun _ hg => absurd hg List.not_mem_nil) hnames

theorem map_importLine_pairs (groups : PackageImports) : groups.pairs.map l.importLine =
    (groups.map fun g => (g.1, g.2.toList)).flatMap fun (p, names) => names.map fun name => l.importLine (p, name) := by
  simp [PackageImports.pairs, List.flatMap_map, List.map_flatMap, Function.comp_def]

end

/-- The block of a class has its lines once each. Every type that it lists is covered by one line, every line covers
one of these types, and their packages stand in the order of their first types. -/
theorem importBlock_covers (hl : l.inClass = true) (imports : ImportScope)
    (hnames : ∀ t ∈ imports.types, '.' ∉ t.name.toList ∧ t.name ≠ "*") :
    ∃ groups : List (String × List String),
      let lines := groups.flatMap fun (p, names) => names.map fun name => l.importLine (p, name)
      l.importBlock imports = .ok ("\n".intercalate lines) ∧
      ((∀ t ∈ imports.types, '\n' ∉ t.name.toList ∧ '\n' ∉ t.package.toList) → lines ≠ [] →
        ("\n".intercalate lines).toList.splitOn '\n' = lines.map String.toList) ∧
      lines.Nodup ∧
      (∀ t ∈ imports.types, l.Lists t → ∃! line, line ∈ lines ∧ l.Covers line t) ∧
      (∀ line ∈ lines, ∃ t ∈ imports.types, l.Lists t ∧ l.Covers line t) ∧
      (∀ g ∈ groups, g.2 ≠ []) ∧
      groups.map Prod.fst = distinct ((imports.types.filter fun t => l.Lists t).map Ty.package) := by
  have hlisted := importedTypes_of_inClass hl imports
  have hmem : ∀ {t}, t ∈ l.importedTypes imports ↔ t ∈ imports.types ∧ l.Lists t := by simp [hlisted]
  have hsound := l.packages_sound imports
  obtain ⟨hregular, hcovers⟩ := packages_regular fun t ht => (hnames t (hmem.mp ht).1).2
  have hdots : ∀ pr ∈ (l.packages imports).pairs, '.' ∉ pr.2.toList := fun pr =>
    not_mem_of_mem_pairs (by decide) fun t ht => (hnames t (hmem.mp ht).1).1
  refine ⟨(l.packages imports).map fun g => (g.1, g.2.toList), ?_⟩
  rw [← map_importLine_pairs]
  refine ⟨importBlock_of_inClass hl imports, ?_, ?_, ?_, ?_, ?_, ?_⟩
  · intro hplain hne
    refine splitOn_intercalate_newline hne fun line hline => ?_
    obtain ⟨pr, hpr, rfl⟩ := List.mem_map.mp hline
    have hname : '\n' ∉ pr.2.toList := not_mem_of_mem_pairs (by decide) (fun t ht => (hplain t (hmem.mp ht).1).1) hpr
    obtain ⟨t, ht, rfl | rfl⟩ := coveredBy_of_mem_pairs hpr <;>
      exact newline_not_mem_importLine (hplain t (hmem.mp ht).1).2 hname
  · exact (hsound.nodup_pairs hregular).map_on fun a ha b hb => importLine_inj (hdots a ha) (hdots b hb)
  · intro t ht hlists
    obtain ⟨hdot, hstar⟩ := hnames t ht
    obtain ⟨pr, ⟨hpr, hcovered⟩, honly⟩ :=
      hsound.existsUnique_of_covers hregular (hcovers t (hmem.mpr ⟨ht, hlists⟩)) hstar
    refine ⟨l.importLine pr, ⟨List.mem_map_of_mem hpr, (covers_importLine_iff (hdots pr hpr) hdot).mpr hcovered⟩, ?_⟩
    rintro line ⟨hline, hline'⟩
    obtain ⟨pr', hpr', rfl⟩ := List.mem_map.mp hline
    rw [honly pr' ⟨hpr', (covers_importLine_iff (hdots pr' hpr') hdot).mp hline'⟩]
  · intro line hline
    obtain ⟨pr, hpr, rfl⟩ := List.mem_map.mp hline
    obtain ⟨t, ht, hcovered⟩ := coveredBy_of_mem_pairs hpr
    obtain ⟨htypes, hlists⟩ := hmem.mp ht
    exact ⟨t, htypes, hlists, (covers_importLine_iff (hdots pr hpr) (hnames t htypes).1).mpr hcovered⟩
  · intro g hg
    obtain ⟨k, hk, rfl⟩ := List.mem_map.mp hg
    exact hsound.named k hk
  · rw [← hlisted, ← PackageImports.map_fst_of l.collapses]
    simp [packages]

/-- Two lists that share a name, a type that is visible everywhere and four of one package. -/
theorem importBlock_covers_vision :
    let imports := ImportScope.empty.registerAll [Catalog.Java.list Catalog.OpenCv.mat, Catalog.OpenCv.mat,
      Catalog.Java.string, Catalog.OpenCv.size, Catalog.OpenCv.scalar, Catalog.Java.list Catalog.OpenCv.rect,
      Catalog.OpenCv.rect]
    (∀ t ∈ imports.types, '.' ∉ t.name.toList ∧ t.name ≠ "*") ∧
      java.importBlock imports = .ok "import java.util.List;\nimport org.opencv.core.*;" ∧
      ∃ lines, java.importBlock imports = .ok ("\n".intercalate lines) ∧
        ∃! line, line ∈ lines ∧ java.Covers line Catalog.OpenCv.rect := by
  intro imports
  have hnames : ∀ t ∈ imports.types, '.' ∉ t.name.toList ∧ t.name ≠ "*" := by decide
  obtain ⟨groups, hblock, -, -, hcovers, -⟩ := importBlock_covers (l := java) rfl imports hnames
  have hrect : Catalog.OpenCv.rect ∈ imports.types := List.mem_of_getElem? (i := 6) rfl
  exact ⟨hnames, rfl, _, hblock, hcovers Catalog.OpenCv.rect hrect (by decide)⟩

end Language

end Pipewright
