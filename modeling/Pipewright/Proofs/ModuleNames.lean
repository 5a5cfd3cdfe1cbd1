import Pipewright.Catalog
import Pipewright.Proofs.PackageNames

/-!
# What the names of a Python program mean

A module with a single name is imported under it, and from one with several names each
of them is taken. So a name that stands for a module comes to stand for a member of it
when the module gets another name, and a later statement takes a name away from an earlier
one. Nothing else changes what a name means when a scope grows, and no name gets lost
(`PythonImports.meaning_kept_iff`).
-/

namespace Pipewright

/-! ## Bindings -/

inductive Meaning where
  | module (path : String)
  | member (path name : String)
deriving DecidableEq, Repr

abbrev Bindings := List (String × Meaning)

namespace Bindings

variable {n : String}

/-- What a name is bound to after all statements, of which later ones replace earlier ones. -/
def final (env : Bindings) (n : String) : Option Meaning := env.reverse.lookup n

theorem final_append (a b : Bindings) : final (a ++ b) n = (b.final n).or (a.final n) := by
  rw [final, List.reverse_append, List.lookup_append]
  rfl

theorem final_single (name : String) (m : Meaning) : final [(name, m)] n = if n = name then some m else none := by
  by_cases hn : n = name
  · simp [final, hn]
  · have hne : (n == name) = false := by simpa using hn
    simp [final, List.lookup_cons, hne, hn]

theorem final_members (path : String) (names : List String) :
    final (names.map fun name => (name, .member path name)) n = if n ∈ names then some (.member path n) else none := by
  induction names using List.reverseRecOn with
  | nil => rfl
  | append_singleton names name ih =>
    rw [List.map_append, final_append, ih, List.map_singleton, final_single]
    by_cases hn : n = name
    · simp [hn]
    · simp [hn]

end Bindings

def moduleBindings (path : String) : List String → Bindings
  | [name] => [(name, .module path)]
  | names => names.map fun name => (name, .member path name)

theorem moduleBindings_more (path first second : String) (rest : List String) :
    moduleBindings path (first :: second :: rest) =
      (first :: second :: rest).map fun name => (name, .member path name) := rfl

/-! ## Reading statements -/

def withoutComma (word : String) : String := String.ofList (word.toList.takeWhile (· ≠ ','))

def boundByWords : List String → Bindings
  | ["import", path] => [(path, .module path)]
  | ["import", path, "as", name] => [(name, .module path)]
  | "from" :: path :: "import" :: names => (names.map withoutComma).map fun name => (name, .member path name)
  | _ => []

def wordsOf (line : List Char) : List String := (line.splitOn ' ').map String.ofList

def boundByText (text : String) : Bindings :=
  (text.toList.splitOn '\n').flatMap fun line => boundByWords (wordsOf line)

def OneWord (text : String) : Prop := ' ' ∉ text.toList ∧ '\n' ∉ text.toList

instance (text : String) : Decidable (OneWord text) := inferInstanceAs (Decidable (_ ∧ _))

theorem wordsOf_intercalate {ws : List String} (hne : ws ≠ []) (h : ∀ w ∈ ws, OneWord w) :
    wordsOf (" ".intercalate ws).toList = ws := by
  have hsplit : (" ".intercalate ws).toList.splitOn ' ' = ws.map String.toList := by
    rw [String.toList_intercalate]
    exact List.splitOn_intercalate ' ' (by simpa using fun w hw => (h w hw).1) (by simpa using hne)
  rw [wordsOf, hsplit, List.map_map]
  simp

theorem newline_not_mem_intercalate {separator : String} {ws : List String} (hs : '\n' ∉ separator.toList)
    (h : ∀ w ∈ ws, '\n' ∉ w.toList) : '\n' ∉ (separator.intercalate ws).toList := by
  induction ws with
  | nil => simp
  | cons w ws ih =>
    obtain ⟨hw, hrest⟩ := List.forall_mem_cons.mp h
    by_cases hne : ws = []
    · rw [hne, String.intercalate_singleton]
      exact hw
    · rw [String.intercalate_cons_of_ne_nil hne]
      simp only [String.toList_append, List.mem_append, not_or]
      exact ⟨⟨hw, hs⟩, ih hrest⟩

def withCommas : List String → List String
  | [] => []
  | [name] => [name]
  | first :: second :: rest => (first ++ ",") :: withCommas (second :: rest)

theorem withCommas_ne_nil (name : String) (rest : List String) : withCommas (name :: rest) ≠ [] := by
  cases rest <;> simp [withCommas]

theorem intercalate_comma : ∀ names : List String, ", ".intercalate names = " ".intercalate (withCommas names)
  | [] => rfl
  | [name] => by rw [withCommas, String.intercalate_singleton, String.intercalate_singleton]
  | first :: second :: rest => by
    have hsep : ", " = "," ++ " " := rfl
    rw [String.intercalate_cons_cons, intercalate_comma (second :: rest), withCommas,
      String.intercalate_cons_of_ne_nil (withCommas_ne_nil second rest), hsep]
    simp only [String.append_assoc]

theorem oneWord_withCommas : ∀ {names : List String}, (∀ n ∈ names, OneWord n) → ∀ w ∈ withCommas names, OneWord w
  | [], _ => fun w hw => by cases hw
  | [_], h => h
  | first :: second :: rest, h => by
    obtain ⟨hfirst, hrest⟩ := List.forall_mem_cons.mp h
    have hcomma : OneWord (first ++ ",") := by simpa [OneWord] using hfirst
    exact List.forall_mem_cons.mpr ⟨hcomma, oneWord_withCommas hrest⟩

theorem withoutComma_append {name : String} (h : ',' ∉ name.toList) (rest : String)
    (hrest : rest.toList.takeWhile (· ≠ ',') = []) : withoutComma (name ++ rest) = name := by
  have hname : ∀ c ∈ name.toList, decide (c ≠ ',') = true := by
    intro c hc
    exact decide_eq_true fun he => h (he ▸ hc)
  rw [withoutComma, String.toList_append, List.takeWhile_append_of_pos hname, hrest, List.append_nil,
    String.ofList_toList]

theorem map_withoutComma : ∀ {names : List String}, (∀ n ∈ names, ',' ∉ n.toList) →
    (withCommas names).map withoutComma = names
  | [], _ => rfl
  | [name], h => by
    have hname := withoutComma_append (h name List.mem_cons_self) "" rfl
    rw [String.append_empty] at hname
    exact congrArg (· :: []) hname
  | first :: second :: rest, h => by
    obtain ⟨hfirst, hrest⟩ := List.forall_mem_cons.mp h
    rw [withCommas, List.map_cons, map_withoutComma hrest]
    exact congrArg (· :: second :: rest) (withoutComma_append hfirst "," rfl)

section
variable {path : String} (hpath : OneWord path)
include hpath

theorem words_import : wordsOf ("import " ++ path).toList = ["import", path] := by
  have htext : "import " ++ path = " ".intercalate ["import", path] := String.toList_injective (by simp)
  rw [htext]
  refine wordsOf_intercalate (List.cons_ne_nil _ _) ?_
  simp only [List.forall_mem_cons]
  exact ⟨by decide, hpath, fun w hw => by cases hw⟩

theorem words_alias {name : String} (hname : OneWord name) :
    wordsOf ("import " ++ path ++ " as " ++ name).toList = ["import", path, "as", name] := by
  have htext : "import " ++ path ++ " as " ++ name = " ".intercalate ["import", path, "as", name] :=
    String.toList_injective (by simp)
  rw [htext]
  refine wordsOf_intercalate (List.cons_ne_nil _ _) ?_
  simp only [List.forall_mem_cons]
  exact ⟨by decide, hpath, by decide, hname, fun w hw => by cases hw⟩

theorem words_members {name : String} {rest : List String} (h : ∀ n ∈ name :: rest, OneWord n) :
    wordsOf ("from " ++ path ++ " import " ++ ", ".intercalate (name :: rest)).toList =
      "from" :: path :: "import" :: withCommas (name :: rest) := by
  have htext : "from " ++ path ++ " import " ++ ", ".intercalate (name :: rest) =
      " ".intercalate ("from" :: path :: "import" :: withCommas (name :: rest)) := by
    rw [intercalate_comma, String.intercalate_cons_cons, String.intercalate_cons_cons,
      String.intercalate_cons_of_ne_nil (withCommas_ne_nil name rest)]
    exact String.toList_injective (by simp)
  rw [htext]
  refine wordsOf_intercalate (List.cons_ne_nil _ _) ?_
  simp only [List.forall_mem_cons]
  exact ⟨by decide, hpath, by decide, oneWord_withCommas h⟩

/-- A statement reads as what it binds. -/
theorem boundByWords_moduleImport {names : List String} (hne : names ≠ [])
    (h : ∀ n ∈ names, OneWord n ∧ ',' ∉ n.toList) :
    boundByWords (wordsOf (Language.moduleImport path names).toList) = moduleBindings path names := by
  match names with
  | [] => exact absurd rfl hne
  | [name] =>
    obtain ⟨hname, -⟩ := h name List.mem_cons_self
    rw [Language.moduleImport_one]
    split
    · rename_i hsame
      rw [words_import hpath, hsame]
      rfl
    · rw [words_alias hpath hname]
      rfl
  | first :: second :: rest =>
    rw [Language.moduleImport_more, words_members hpath fun n hn => (h n hn).1, boundByWords,
      map_withoutComma fun n hn => (h n hn).2, moduleBindings_more]

theorem newline_not_mem_moduleImport {names : List String} (hne : names ≠ []) (h : ∀ n ∈ names, OneWord n) :
    '\n' ∉ (Language.moduleImport path names).toList := by
  have himport : '\n' ∉ "import ".toList := by decide
  have has : '\n' ∉ " as ".toList := by decide
  have hfrom : '\n' ∉ "from ".toList := by decide
  have hinner : '\n' ∉ " import ".toList := by decide
  match names with
  | [] => exact absurd rfl hne
  | [name] =>
    rw [Language.moduleImport_one]
    split
    · simp only [String.toList_append, List.mem_append, not_or]
      exact ⟨himport, hpath.2⟩
    · simp only [String.toList_append, List.mem_append, not_or]
      exact ⟨⟨⟨himport, hpath.2⟩, has⟩, (h name List.mem_cons_self).2⟩
  | first :: second :: rest =>
    rw [Language.moduleImport_more]
    simp only [String.toList_append, List.mem_append, not_or]
    exact ⟨⟨⟨hfrom, hpath.2⟩, hinner⟩, newline_not_mem_intercalate (by decide) fun n hn => (h n hn).2⟩

end

/-! ## Blocks -/

namespace PythonImports

open Pipewright.Language (python distinct mem_distinct nodup_distinct)
open Bindings (final_append final_single final_members)

def bindings (imports : ImportScope) : Bindings :=
  (python.packageNames imports).flatMap fun p => moduleBindings p (distinct (python.classNames imports p))

def meaning (imports : ImportScope) (n : String) : Option Meaning := (bindings imports).final n

def Alone (imports : ImportScope) (p n : String) : Prop := ∀ m ∈ python.classNames imports p, m = n

instance (imports : ImportScope) (p n : String) : Decidable (Alone imports p n) :=
  inferInstanceAs (Decidable (∀ m ∈ python.classNames imports p, m = n))

/-- What the statement for a module says of a name. -/
def sense (imports : ImportScope) (p n : String) : Meaning := if Alone imports p n then .module p else .member p n

/-- The module of the last statement with the name. -/
def importer (imports : ImportScope) (n : String) : Option String :=
  (python.packageNames imports).reverse.find? fun p => n ∈ python.classNames imports p

section
variable {imports : ImportScope} {p n : String}

theorem final_moduleBindings : (moduleBindings p (distinct (python.classNames imports p))).final n =
    if n ∈ python.classNames imports p then some (sense imports p n) else none := by
  have hmem : ∀ m, m ∈ python.classNames imports p ↔ m ∈ distinct (python.classNames imports p) :=
    fun _ => mem_distinct.symm
  simp only [sense, Alone, hmem]
  have hnodup := nodup_distinct (python.classNames imports p)
  generalize distinct (python.classNames imports p) = names at hnodup
  match names with
  | [] => rfl
  | [name] =>
    rw [moduleBindings, final_single]
    by_cases hn : n = name
    · simp [hn]
    · simp [hn]
  | first :: second :: rest =>
    rw [moduleBindings_more, final_members, if_neg (c := ∀ m ∈ _, m = n)]
    intro hall
    have hsame : first = second := (hall first (by simp)).trans (hall second (by simp)).symm
    simp [hsame] at hnodup

theorem meaning_eq : meaning imports n = (importer imports n).map (sense imports · n) := by
  rw [meaning, bindings, importer]
  induction python.packageNames imports using List.reverseRecOn with
  | nil => rfl
  | append_singleton ps p ih =>
    rw [List.flatMap_append, final_append, List.flatMap_singleton, final_moduleBindings, ih, List.reverse_concat,
      List.find?_cons]
    by_cases hn : n ∈ python.classNames imports p
    · simp [hn]
    · simp [hn]

theorem mem_of_importer (h : importer imports n = some p) : n ∈ python.classNames imports p := by
  simpa using List.find?_some h

theorem exists_importer (h : n ∈ python.classNames imports p) : ∃ q, importer imports n = some q := by
  rw [← Option.isSome_iff_exists, importer, List.find?_isSome]
  exact ⟨p, List.mem_reverse.mpr (Language.mem_packageNames_of h), by simpa using h⟩

theorem sense_eq_iff {s t : ImportScope} {q : String} :
    sense t q n = sense s p n ↔ q = p ∧ (Alone t q n ↔ Alone s p n) := by
  unfold sense
  by_cases ht : Alone t q n <;> by_cases hs : Alone s p n <;> simp [ht, hs]

end

/-! ### The text -/

theorem importBlock_eq (imports : ImportScope) : python.importBlock imports = .ok ("\n".intercalate
    ((python.packageNames imports).map fun p => Language.moduleImport p (distinct (python.classNames imports p)))) := by
  have hshown : ∀ names x, ImportedNames.ofNames false names = some x → x.toList = distinct names := by
    intro names x hx
    have hne : names ≠ [] := by
      rintro rfl
      cases hx
    rw [ImportedNames.ofNames_plain hne] at hx
    cases hx
    rfl
  have hlines := congrArg (List.map fun g : String × List String => Language.moduleImport g.1 g.2)
    (Language.packages_listed (l := python) hshown imports)
  rw [List.map_map, List.map_map] at hlines
  exact congrArg (fun lines : List String => Except.ok ("\n".intercalate lines)) hlines

/-- The text reads as what the block binds. -/
theorem boundByText_importBlock {imports : ImportScope}
    (hwords : ∀ t ∈ imports.types, OneWord t.package ∧ OneWord t.name ∧ ',' ∉ t.name.toList) :
    ∃ text, python.importBlock imports = .ok text ∧ boundByText text = bindings imports := by
  refine ⟨_, importBlock_eq imports, ?_⟩
  by_cases hnone : python.packageNames imports = []
  · rw [bindings, hnone]
    rfl
  have hstatement : ∀ p ∈ python.packageNames imports, distinct (python.classNames imports p) ≠ [] ∧ OneWord p ∧
      ∀ n ∈ distinct (python.classNames imports p), OneWord n ∧ ',' ∉ n.toList := by
    intro p hp
    obtain ⟨u, hu, rfl⟩ := List.mem_map.mp (mem_distinct.mp hp)
    have hname : u.name ∈ python.classNames imports u.package := Language.mem_classNames.mpr ⟨u, hu, rfl, rfl⟩
    refine ⟨List.ne_nil_of_mem (mem_distinct.mpr hname), (hwords u (List.mem_of_mem_filter hu)).1, fun n hn => ?_⟩
    obtain ⟨v, hv, -, rfl⟩ := Language.mem_classNames.mp (mem_distinct.mp hn)
    exact (hwords v (List.mem_of_mem_filter hv)).2
  have hlines : ∀ line ∈ (python.packageNames imports).map fun p =>
      Language.moduleImport p (distinct (python.classNames imports p)), '\n' ∉ line.toList := by
    intro line hline
    obtain ⟨p, hp, rfl⟩ := List.mem_map.mp hline
    obtain ⟨hne, hpath, hnames⟩ := hstatement p hp
    exact newline_not_mem_moduleImport hpath hne fun n hn => (hnames n hn).1
  rw [boundByText, splitOn_intercalate_newline (by simpa using hnone) hlines, bindings, List.map_map, List.flatMap_map]
  refine List.flatMap_congr fun p hp => ?_
  obtain ⟨hne, hpath, hnames⟩ := hstatement p hp
  exact boundByWords_moduleImport hpath hne hnames

/-! ## Growing scopes -/

section
variable {s t : ImportScope} {p n : String} (h : s.types ⊆ t.types)
include h

theorem classNames_subset : python.classNames s p ⊆ python.classNames t p := by
  intro n hn
  obtain ⟨u, hu, hp, hname⟩ := Language.mem_classNames.mp hn
  obtain ⟨hmem, hlisted⟩ := List.mem_filter.mp hu
  exact Language.mem_classNames.mpr ⟨u, List.mem_filter.mpr ⟨h hmem, hlisted⟩, hp, hname⟩

theorem Alone.of_subset (ha : Alone t p n) : Alone s p n := fun m hm => ha m (classNames_subset h hm)

theorem meaning_of_subset {m : Meaning} (hm : meaning s n = some m) : ∃ m', meaning t n = some m' ∧
    (m' = m ↔ importer t n = importer s n ∧ ∀ p ∈ importer s n, Alone s p n → Alone t p n) := by
  rw [meaning_eq, Option.map_eq_some_iff] at hm
  obtain ⟨p, hp, rfl⟩ := hm
  obtain ⟨q, hq⟩ := exists_importer (classNames_subset h (mem_of_importer hp))
  refine ⟨sense t q n, by rw [meaning_eq, hq]; rfl, ?_⟩
  rw [sense_eq_iff, hp, hq, Option.some.injEq]
  refine and_congr_right ?_
  rintro rfl
  constructor
  · rintro hiff p hp
    cases hp
    exact hiff.mpr
  · intro hall
    exact ⟨Alone.of_subset h, hall q rfl⟩

end

/-- A name that a block binds is bound in the block of every longer scope, and to the same thing just if the last
statement with the name is still the one for the same module and this module, if it had no other name, has got none. -/
theorem meaning_kept_iff {s t : ImportScope} (h : s.types ⊆ t.types) :
    (∀ n m, meaning s n = some m → ∃ m', meaning t n = some m' ∧
      (m' = m ↔ importer t n = importer s n ∧ ∀ p ∈ importer s n, Alone s p n → Alone t p n)) ∧
    ∀ imports : ImportScope, (∀ u ∈ imports.types, OneWord u.package ∧ OneWord u.name ∧ ',' ∉ u.name.toList) →
      ∃ text, python.importBlock imports = .ok text ∧ ∀ n, (boundByText text).final n = meaning imports n := by
  refine ⟨fun n m => meaning_of_subset h, fun imports hwords => ?_⟩
  obtain ⟨text, htext, hbound⟩ := boundByText_importBlock hwords
  exact ⟨text, htext, fun n => by rw [hbound]; rfl⟩

/-- With a member of another module what `np` stands for stays the same, and with another module under this name
it does not. -/
theorem meaning_kept_iff_numpy :
    let one := ImportScope.empty.registerAll [Catalog.Python.numpy]
    let more := ImportScope.empty.registerAll [Catalog.Python.numpy, Catalog.Python.module "collections" (some "deque")]
    let twice := ImportScope.empty.registerAll [Catalog.Python.numpy, Catalog.Python.module "jax.numpy" (some "np")]
    one.types ⊆ more.types ∧ one.types ⊆ twice.types ∧
      meaning one "np" = some (.module "numpy") ∧ meaning more "np" = some (.module "numpy") ∧
      meaning twice "np" ≠ some (.module "numpy") := by
  intro one more twice
  have hmore : one.types ⊆ more.types := List.cons_subset_cons _ (List.nil_subset _)
  have htwice : one.types ⊆ twice.types := List.cons_subset_cons _ (List.nil_subset _)
  have hone : meaning one "np" = some (.module "numpy") := by decide
  obtain ⟨m, hm, hkept⟩ := (meaning_kept_iff hmore).1 "np" _ hone
  obtain ⟨m', hm', hlost⟩ := (meaning_kept_iff htwice).1 "np" _ hone
  have hsame : m = .module "numpy" := hkept.mpr (by decide)
  have hother : m' ≠ .module "numpy" := mt hlost.mp (by decide)
  exact ⟨hmore, htwice, hone, hsame ▸ hm, by rw [hm']; simpa using hother⟩

/-- The module `collections` is taken for itself under the name `deque`, until there is a second name of it. -/
theorem meaning_not_kept : ¬ ∀ s t : ImportScope, s.types <+: t.types →
    (∀ u ∈ t.types, ∃ path name, u = Catalog.Python.module path name) →
    ∀ text text', python.importBlock s = .ok text → python.importBlock t = .ok text' →
    ∀ n m, (boundByText text).final n = some m → (boundByText text').final n = some m := by
  intro h
  let deque := Catalog.Python.module "collections" (some "deque")
  let orderedDict := Catalog.Python.module "collections" (some "OrderedDict")
  have hmodules : ∀ u ∈ [deque, orderedDict], ∃ path name, u = Catalog.Python.module path name := by
    simp only [List.forall_mem_cons]
    exact ⟨⟨_, _, rfl⟩, ⟨_, _, rfl⟩, fun u hu => by cases hu⟩
  have hbound : (boundByText "import collections as deque").final "deque" = some (.module "collections") := by decide
  have hkept := h ⟨[deque]⟩ ⟨[deque, orderedDict]⟩ (List.prefix_append [deque] [orderedDict]) hmodules
    "import collections as deque" "from collections import deque, OrderedDict" rfl rfl "deque" _ hbound
  exact absurd hkept (by decide)

end PythonImports

end Pipewright
