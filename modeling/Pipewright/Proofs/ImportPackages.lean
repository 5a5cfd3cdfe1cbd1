import Mathlib.Algebra.GroupWithZero.Nat
import Pipewright.Language.ImportBlock

/-!
# Imports by package

An import block takes up its types one after another. Each of them either leaves
what is imported as it is or adds to it, and no later one can undo that: after a
list of types the packages are the same just if each of these would have changed
nothing alone (`PackageImports.foldl_sum_eq_iff`).
-/

namespace Pipewright

/-! ## Folds that climb -/

structure Climbs {α β : Type} (step : β → α → β) (Inv : β → Prop) (rank : β → Nat) : Prop where
  inv : ∀ s a, Inv s → Inv (step s a)
  step : ∀ s a, Inv s → step s a = s ∨ rank s < rank (step s a)

namespace Climbs

variable {α β : Type} {step : β → α → β} {Inv : β → Prop} {rank : β → Nat} (h : Climbs step Inv rank)
include h

theorem rank_le_foldl {as : List α} {s : β} (hs : Inv s) : rank s ≤ rank (as.foldl step s) := by
  induction as generalizing s with
  | nil => exact Nat.le_refl _
  | cons a as ih =>
    have hle : rank (step s a) ≤ rank (as.foldl step (step s a)) := ih (h.inv s a hs)
    refine Nat.le_trans ?_ hle
    rcases h.step s a hs with he | hlt
    · exact Nat.le_of_eq (congrArg rank he.symm)
    · exact Nat.le_of_lt hlt

/-- A fold is at the height of its start only if no step has moved. -/
theorem rank_foldl_eq_iff {as : List α} {s : β} (hs : Inv s) :
    rank (as.foldl step s) = rank s ↔ ∀ a ∈ as, step s a = s := by
  induction as with
  | nil => simp
  | cons a as ih =>
    rw [List.foldl_cons, List.forall_mem_cons]
    rcases h.step s a hs with he | hlt
    · rw [he, ih]
      exact (and_iff_right rfl).symm
    · have hle : rank (step s a) ≤ rank (as.foldl step (step s a)) := h.rank_le_foldl (h.inv s a hs)
      constructor
      · intro heq; omega
      · intro hall; rw [hall.1] at hlt; omega

end Climbs

theorem foldl_eq_self {α β : Type} {step : β → α → β} {s : β} {as : List α} (h : ∀ a ∈ as, step s a = s) :
    as.foldl step s = s := by
  induction as with
  | nil => rfl
  | cons a as ih =>
    rw [List.foldl_cons, h a (List.mem_cons_self ..)]
    exact ih fun b hb => h b (List.mem_cons_of_mem _ hb)

/-! ## Names of a package -/

namespace ImportedNames

/-- Another type of this name changes nothing of what is imported. -/
def Has (collapse : Bool) (name : String) : ImportedNames → Prop
  | everything => True
  | only names => if collapse then names = ["*"] ∨ name ∈ names ∧ names.length ≤ 2 else name ∈ names

/-- The cases of an insertion. A package is `full` if its next name stands for all of it. -/
inductive Insertion (collapse : Bool) (name : String) : ImportedNames → ImportedNames → Prop
  | present {x} (has : x.Has collapse name) : Insertion collapse name x x
  | full {names} (collapses : collapse = true) (star : names ≠ ["*"]) (many : 2 < names.length) :
      Insertion collapse name (only names) everything
  | new {names} (few : collapse = true → names ≠ ["*"] ∧ names.length ≤ 2) (fresh : name ∉ names) :
      Insertion collapse name (only names) (only (names ++ [name]))

theorem insertion (collapse : Bool) (name : String) (x : ImportedNames) :
    Insertion collapse name x (x.insert collapse name) := by
  cases x with
  | everything => exact .present trivial
  | only names =>
    simp only [insert]
    split
    · rename_i h
      obtain ⟨rfl, hstar⟩ : collapse = true ∧ names = ["*"] := by simpa using h
      exact .present (.inl hstar)
    rename_i hstar
    split
    · rename_i h
      obtain ⟨rfl, hmany⟩ : collapse = true ∧ 2 < names.length := by simpa using h
      exact .full rfl (by simpa using hstar) hmany
    rename_i hfew
    have hfew' : collapse = true → names ≠ ["*"] ∧ names.length ≤ 2 := by
      rintro rfl
      exact ⟨by simpa using hstar, by simpa using hfew⟩
    split
    · rename_i h
      have hmem : name ∈ names := by simpa using h
      refine .present ?_
      cases collapse with
      | false => exact hmem
      | true => exact .inr ⟨hmem, (hfew' rfl).2⟩
    · rename_i h
      exact .new hfew' (by simpa using h)

variable {collapse : Bool} {name : String} {x : ImportedNames}

/-- How far a package has come on the way to one that is imported as a whole. -/
def weight (collapse : Bool) (names : List String) : Nat :=
  if collapse then if names = ["*"] then 4 else min names.length 3 else names.length

theorem weight_of_ne_star {names : List String} (h : names ≠ ["*"]) : weight true names = min names.length 3 := by
  rw [weight, if_pos rfl, if_neg h]

theorem insert_eq_or_weight_lt (collapse : Bool) (name : String) (x : ImportedNames) :
    x.insert collapse name = x ∨ weight collapse x.toList < weight collapse (x.insert collapse name).toList := by
  generalize hy : x.insert collapse name = y
  cases hy ▸ insertion collapse name x with
  | present _ => exact .inl rfl
  | @full names hc hstar _ =>
    subst hc
    refine .inr ?_
    change weight true names < 4
    rw [weight_of_ne_star hstar]
    omega
  | @new names hfew _ =>
    refine .inr ?_
    change weight collapse names < weight collapse (names ++ [name])
    cases collapse with
    | false => simp [weight]
    | true =>
      obtain ⟨hstar, hlen⟩ := hfew rfl
      rw [weight_of_ne_star hstar]
      by_cases hone : names ++ [name] = ["*"]
      · rw [hone]
        change min names.length 3 < 4
        omega
      · rw [weight_of_ne_star hone, List.length_append, List.length_singleton]
        omega

theorem insert_eq_self_iff : x.insert collapse name = x ↔ x.Has collapse name := by
  generalize hy : x.insert collapse name = y
  cases hy ▸ insertion collapse name x with
  | present h => exact iff_of_true rfl h
  | @full names hc hstar hmany =>
    subst hc
    refine iff_of_false (by simp) ?_
    rintro (h | ⟨-, h⟩)
    · exact hstar h
    · omega
  | @new names hfew hfresh =>
    refine iff_of_false (by simp) ?_
    cases collapse with
    | false => exact hfresh
    | true =>
      rintro (h | ⟨h, -⟩)
      · exact (hfew rfl).1 h
      · exact hfresh h

theorem toList_insert_ne_nil (h : x.toList ≠ []) : (x.insert collapse name).toList ≠ [] := by
  generalize hy : x.insert collapse name = y
  cases hy ▸ insertion collapse name x with
  | present _ => exact h
  | full _ _ _ => simp [toList]
  | new _ _ => simp [toList]

theorem mem_toList_insert {n : String} (h : n ∈ (x.insert collapse name).toList) :
    n = "*" ∨ n = name ∨ n ∈ x.toList := by
  generalize hy : x.insert collapse name = y at h
  cases hy ▸ insertion collapse name x with
  | present _ => exact .inr (.inr h)
  | full _ _ _ => exact .inl (List.mem_singleton.mp h)
  | new _ _ =>
    rcases List.mem_append.mp h with h | h
    · exact .inr (.inr h)
    · exact .inr (.inl (List.mem_singleton.mp h))

end ImportedNames

/-! ## Packages -/

namespace PackageImports

def pairs (groups : PackageImports) : List (String × String) :=
  groups.flatMap fun (p, names) => names.toList.map (p, ·)

def Has (collapse : Bool) (groups : PackageImports) (t : Ty) : Prop :=
  ∃ names, groups.lookup t.package = some names ∧ names.Has collapse t.name

structure Sound (groups : PackageImports) : Prop where
  keys : (groups.map Prod.fst).Nodup
  named : ∀ g ∈ groups, g.2.toList ≠ []

variable {collapse : Bool} {package name : String} {groups : PackageImports}

theorem mem_keys_insert {q : String} (h : q ∈ (groups.insert collapse package name).map Prod.fst) :
    q = package ∨ q ∈ groups.map Prod.fst := by
  induction groups with
  | nil => exact .inl (by simpa [insert] using h)
  | cons g rest ih =>
    obtain ⟨p, names⟩ := g
    simp only [insert] at h
    split at h
    · exact .inr h
    · rcases List.mem_cons.mp h with h | h
      · exact .inr (h ▸ List.mem_cons_self ..)
      · exact (ih h).imp_right (List.mem_cons_of_mem _)

theorem Sound.empty : Sound [] := ⟨List.nodup_nil, by simp⟩

theorem Sound.tail {g : String × ImportedNames} (h : Sound (g :: groups)) : Sound groups :=
  ⟨(List.nodup_cons.mp h.keys).2, fun k hk => h.named k (List.mem_cons_of_mem _ hk)⟩

theorem Sound.insert (h : groups.Sound) : (groups.insert collapse package name).Sound := by
  induction groups with
  | nil => exact ⟨by simp [PackageImports.insert], by simp [PackageImports.insert, ImportedNames.toList]⟩
  | cons g rest ih =>
    obtain ⟨p, names⟩ := g
    obtain ⟨hp, hrest⟩ := List.nodup_cons.mp h.keys
    have hnames : names.toList ≠ [] := h.named _ (List.mem_cons_self ..)
    simp only [PackageImports.insert]
    split
    · refine ⟨h.keys, List.forall_mem_cons.mpr ⟨ImportedNames.toList_insert_ne_nil hnames, h.tail.named⟩⟩
    · rename_i hne
      refine ⟨List.nodup_cons.mpr ⟨fun hm => ?_, (ih h.tail).keys⟩, List.forall_mem_cons.mpr ⟨hnames, (ih h.tail).named⟩⟩
      rcases mem_keys_insert hm with hm | hm
      · exact hne hm
      · exact hp hm

theorem insert_eq_self_iff {t : Ty} : groups.insert collapse t.package t.name = groups ↔ groups.Has collapse t := by
  induction groups with
  | nil => exact iff_of_false (by simp [insert]) (by simp [Has])
  | cons g rest ih =>
    obtain ⟨p, names⟩ := g
    simp only [insert, Has, List.lookup_cons]
    by_cases hp : p = t.package
    · subst hp
      simp [ImportedNames.insert_eq_self_iff]
    · have hne : (t.package == p) = false := by simpa using Ne.symm hp
      simp only [if_neg hp, hne, List.cons.injEq, true_and]
      exact ih

section
variable {size : String × ImportedNames → Nat} (hnew : ∀ p n, 0 < size (p, .only [n]))
  (hgrows : ∀ p names, names.toList ≠ [] → ∀ n,
    names.insert collapse n = names ∨ size (p, names) < size (p, names.insert collapse n))
include hnew hgrows

/-- An insertion that changes anything adds to every sum over the packages in which each of them can only grow. -/
theorem insert_eq_or_sum_lt (h : groups.Sound) : groups.insert collapse package name = groups ∨
    (groups.map size).sum < ((groups.insert collapse package name).map size).sum := by
  induction groups with
  | nil => exact .inr (by simpa [insert] using hnew package name)
  | cons g rest ih =>
    obtain ⟨p, names⟩ := g
    simp only [insert]
    split
    · rcases hgrows p names (h.named _ (List.mem_cons_self ..)) name with he | hlt
      · exact .inl (by rw [he])
      · exact .inr (by simpa using hlt)
    · rcases ih h.tail with he | hlt
      · exact .inl (by rw [he])
      · exact .inr (by simpa using hlt)

theorem climbs : Climbs (fun groups (t : Ty) => PackageImports.insert collapse t.package t.name groups) Sound
    fun groups => (groups.map size).sum where
  inv _ _ h := h.insert
  step _ _ h := insert_eq_or_sum_lt hnew hgrows h

theorem foldl_sum_eq_iff (h : groups.Sound) (types : List Ty) :
    ((types.foldl (fun groups t => groups.insert collapse t.package t.name) groups).map size).sum =
      (groups.map size).sum ↔ ∀ t ∈ types, groups.Has collapse t := by
  rw [(climbs hnew hgrows).rank_foldl_eq_iff h]
  simp only [insert_eq_self_iff]

end

theorem foldl_eq_self_of_has {types : List Ty} (h : ∀ t ∈ types, groups.Has collapse t) :
    types.foldl (fun groups t => groups.insert collapse t.package t.name) groups = groups :=
  foldl_eq_self fun t ht => insert_eq_self_iff.mpr (h t ht)

theorem mem_pairs_insert {pr : String × String} (h : pr ∈ (groups.insert collapse package name).pairs) :
    pr ∈ groups.pairs ∨ pr.1 = package ∧ (pr.2 = "*" ∨ pr.2 = name) := by
  induction groups with
  | nil =>
    obtain rfl : pr = (package, name) := by simpa [insert, pairs, ImportedNames.toList] using h
    exact .inr ⟨rfl, .inr rfl⟩
  | cons g rest ih =>
    obtain ⟨p, names⟩ := g
    simp only [insert] at h
    split at h
    · rename_i hp
      rcases List.mem_append.mp h with h | h
      · obtain ⟨n, hn, rfl⟩ := List.mem_map.mp h
        rcases ImportedNames.mem_toList_insert hn with hs | hs | hs
        · exact .inr ⟨hp, .inl hs⟩
        · exact .inr ⟨hp, .inr hs⟩
        · exact .inl (List.mem_append_left _ (List.mem_map_of_mem hs))
      · exact .inl (List.mem_append_right _ h)
    · rcases List.mem_append.mp h with h | h
      · exact .inl (List.mem_append_left _ h)
      · exact (ih h).imp_left (List.mem_append_right _)

theorem mem_keys_of_mem_pairs {pr : String × String} (h : pr ∈ groups.pairs) : pr.1 ∈ groups.map Prod.fst := by
  obtain ⟨⟨p, names⟩, hg, hpr⟩ := List.mem_flatMap.mp h
  obtain ⟨n, -, rfl⟩ := List.mem_map.mp hpr
  exact List.mem_map_of_mem hg

theorem Sound.pairs_eq_nil_iff (h : groups.Sound) : groups.pairs = [] ↔ groups = [] := by
  cases groups with
  | nil => simp [pairs]
  | cons g rest =>
    have hg : g.2.toList ≠ [] := h.named g (List.mem_cons_self ..)
    simp [pairs, hg]

theorem Sound.key_not_mem {p : String} {names : ImportedNames} (h : Sound ((p, names) :: groups)) {n : String} :
    (p, n) ∉ groups.pairs :=
  fun hm => (List.nodup_cons.mp h.keys).1 (mem_keys_of_mem_pairs hm)

/-- The pairs tell the packages apart, as they stand once each. -/
theorem Sound.listed_eq : ∀ {a b : PackageImports}, a.Sound → b.Sound → a.pairs = b.pairs →
    (a.map fun g => (g.1, g.2.toList)) = b.map fun g => (g.1, g.2.toList)
  | [], b, _, hb, h => by rw [(hb.pairs_eq_nil_iff).mp h.symm]
  | a :: as, [], ha, _, h => by cases (ha.pairs_eq_nil_iff).mp h
  | (p, x) :: as, (q, y) :: bs, ha, hb, h => by
    have hx : x.toList ≠ [] := ha.named _ (List.mem_cons_self ..)
    have hy : y.toList ≠ [] := hb.named _ (List.mem_cons_self ..)
    change x.toList.map (p, ·) ++ pairs as = y.toList.map (q, ·) ++ pairs bs at h
    obtain rfl : p = q := by
      obtain ⟨n, ns, hn⟩ := List.exists_cons_of_ne_nil hx
      obtain ⟨m, ms, hm⟩ := List.exists_cons_of_ne_nil hy
      rw [hn, hm] at h
      exact congrArg Prod.fst (List.cons.inj h).1
    -- the longer of the two runs of one package would reach into the packages behind it
    have hsame : x.toList.map (p, ·) = y.toList.map (p, ·) ∧ pairs as = pairs bs := by
      rcases List.append_eq_append_iff.mp h with ⟨more, hy', hrest⟩ | ⟨more, hx', hrest⟩
      · cases more with
        | nil => exact ⟨by simpa using hy'.symm, by simpa using hrest⟩
        | cons pr more =>
          obtain ⟨n, -, rfl⟩ := List.mem_map.mp (hy' ▸ List.mem_append_right _ (List.mem_cons_self ..))
          exact absurd (hrest ▸ List.mem_append_left _ (List.mem_cons_self ..)) ha.key_not_mem
      · cases more with
        | nil => exact ⟨by simpa using hx', by simpa using hrest.symm⟩
        | cons pr more =>
          obtain ⟨n, -, rfl⟩ := List.mem_map.mp (hx' ▸ List.mem_append_right _ (List.mem_cons_self ..))
          exact absurd (hrest ▸ List.mem_append_left _ (List.mem_cons_self ..)) hb.key_not_mem
    have hnames : x.toList = y.toList := by simpa [Function.comp_def] using congrArg (List.map Prod.snd) hsame.1
    rw [List.map_cons, List.map_cons, ha.tail.listed_eq hb.tail hsame.2]
    exact congrArg (fun names => (p, names) :: _) hnames

theorem sound_of (collapse : Bool) (types : List Ty) {groups : PackageImports} (h : groups.Sound) :
    (types.foldl (fun groups t => groups.insert collapse t.package t.name) groups).Sound := by
  induction types generalizing groups with
  | nil => exact h
  | cons t types ih => exact ih h.insert

theorem mem_pairs_of {types : List Ty} {pr : String × String} {groups : PackageImports}
    (h : pr ∈ (types.foldl (fun groups t => groups.insert collapse t.package t.name) groups).pairs) :
    pr ∈ groups.pairs ∨ ∃ t ∈ types, pr.1 = t.package ∧ (pr.2 = "*" ∨ pr.2 = t.name) := by
  induction types generalizing groups with
  | nil => exact .inl h
  | cons t types ih =>
    rcases ih h with h | ⟨u, hu, hpr⟩
    · rcases mem_pairs_insert h with h | h
      · exact .inl h
      · exact .inr ⟨t, List.mem_cons_self .., h⟩
    · exact .inr ⟨u, List.mem_cons_of_mem _ hu, hpr⟩

end PackageImports

end Pipewright
