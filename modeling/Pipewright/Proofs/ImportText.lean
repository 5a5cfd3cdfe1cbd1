import Pipewright.Proofs.ImportPackages

/-!
# The text of an import block

What a block shows can be read off its text: the text grows with every line and
every name that is added, and where names are plain the lines of a class tell one
package from the other (`Language.importBlock_append_iff`).
-/

namespace Pipewright

/-! ## Texts of several lines -/

theorem eq_of_map_eq {α β : Type} {f : α → β} : ∀ {as bs : List α}, (∀ a ∈ as, ∀ b ∈ bs, f a = f b → a = b) →
    as.map f = bs.map f → as = bs
  | [], [], _, _ => rfl
  | [], _ :: _, _, h => by cases h
  | _ :: _, [], _, h => by cases h
  | a :: as, b :: bs, hf, h => by
    obtain ⟨hab, hrest⟩ := List.cons.inj h
    rw [hf a (List.mem_cons_self ..) b (List.mem_cons_self ..) hab,
      eq_of_map_eq (fun x hx y hy => hf x (List.mem_cons_of_mem _ hx) y (List.mem_cons_of_mem _ hy)) hrest]

theorem length_intercalate_newline {xs : List String} (h : xs ≠ []) :
    ("\n".intercalate xs).length + 1 = (xs.map fun x => x.length + 1).sum := by
  induction xs with
  | nil => exact absurd rfl h
  | cons x xs ih =>
    by_cases hxs : xs = []
    · simp [hxs]
    · have hlen := ih hxs
      rw [String.intercalate_cons_of_ne_nil hxs]
      simp only [String.length_append, List.map_cons, List.sum_cons]
      have hsep : "\n".length = 1 := by decide
      omega

theorem intercalate_newline_eq_empty {xs : List String} (h : ∀ x ∈ xs, x ≠ "") :
    "\n".intercalate xs = "" ↔ xs = [] := by
  constructor
  · intro he
    cases xs with
    | nil => rfl
    | cons x xs =>
      have hx : x.length ≠ 0 := by simpa using h x (List.mem_cons_self ..)
      have hlen := length_intercalate_newline (List.cons_ne_nil x xs)
      rw [he] at hlen
      simp at hlen
      omega
  · rintro rfl
    exact String.intercalate_nil

theorem splitOn_intercalate_newline {xs : List String} (hne : xs ≠ []) (h : ∀ x ∈ xs, '\n' ∉ x.toList) :
    ("\n".intercalate xs).toList.splitOn '\n' = xs.map String.toList := by
  rw [String.toList_intercalate]
  exact List.splitOn_intercalate '\n' (by simpa using h) (by simpa using hne)

theorem intercalate_newline_inj {xs ys : List String} (hx : ∀ x ∈ xs, x ≠ "" ∧ '\n' ∉ x.toList)
    (hy : ∀ y ∈ ys, y ≠ "" ∧ '\n' ∉ y.toList) (h : "\n".intercalate xs = "\n".intercalate ys) : xs = ys := by
  have hempty : xs = [] ↔ ys = [] := by
    rw [← intercalate_newline_eq_empty fun x hm => (hx x hm).1, h, intercalate_newline_eq_empty fun y hm => (hy y hm).1]
  by_cases hxs : xs = []
  · rw [hxs, hempty.mp hxs]
  have hsplit := congrArg (fun s => s.toList.splitOn '\n') h
  simp only [splitOn_intercalate_newline hxs fun x hm => (hx x hm).2,
    splitOn_intercalate_newline (mt hempty.mpr hxs) fun y hm => (hy y hm).2] at hsplit
  exact (List.map_inj_right fun _ _ => String.toList_injective).mp hsplit

/-- The lines of a text make up its length, so a text of more lines is longer. -/
theorem sum_eq_of_intercalate {xs ys : List String} (hx : ∀ x ∈ xs, x ≠ "") (hy : ∀ y ∈ ys, y ≠ "")
    (h : "\n".intercalate xs = "\n".intercalate ys) :
    (xs.map fun x => x.length + 1).sum = (ys.map fun y => y.length + 1).sum := by
  have hempty : xs = [] ↔ ys = [] := by
    rw [← intercalate_newline_eq_empty hx, h, intercalate_newline_eq_empty hy]
  by_cases hxs : xs = []
  · rw [hxs, hempty.mp hxs]
  · rw [← length_intercalate_newline hxs, h, length_intercalate_newline (mt hempty.mpr hxs)]

/-! ## Blocks -/

structure Ty.Plain (t : Ty) : Prop where
  name : '\n' ∉ t.name.toList ∧ '.' ∉ t.name.toList
  package : '\n' ∉ t.package.toList

namespace Language

variable (l : Language)

def collapses : Bool := l.inClass && l.collapsesImports

def packages (imports : ImportScope) : PackageImports := .of l.collapses (l.importedTypes imports)

def importLine (pr : String × String) : String := "import " ++ pr.1 ++ "." ++ pr.2 ++ l.semicolon

def luaImport (t : Ty) : String := t.name ++ " = java.import('" ++ t.package ++ "." ++ t.name ++ "')"

/-- Another type like `t` would change nothing of the block. -/
def Shows (imports : ImportScope) (t : Ty) : Prop :=
  match l with
  | lua => luaImport t ∈ (l.importedTypes imports).map luaImport
  | _ => (l.packages imports).Has l.collapses t

variable {l}

theorem importBlock_of_inClass (hl : l.inClass = true) (imports : ImportScope) :
    l.importBlock imports = .ok ("\n".intercalate ((l.packages imports).pairs.map l.importLine)) := by
  have hlines : ∀ prs : List (String × String),
      prs.mapM (fun pr => l.importDeclaration pr.1 pr.2) = .ok (prs.map l.importLine) := by
    intro prs
    cases l with
    | java => exact List.mapM_pure
    | kotlin => exact List.mapM_pure
    | lua => cases hl
    | python => cases hl
  cases l with
  | java => exact congrArg (· >>= fun lines => pure ("\n".intercalate lines)) (hlines (packages java imports).pairs)
  | kotlin =>
    exact congrArg (· >>= fun lines => pure ("\n".intercalate lines)) (hlines (packages kotlin imports).pairs)
  | lua => cases hl
  | python => cases hl

theorem importLine_inj {a b : String × String} (ha : '.' ∉ a.2.toList) (hb : '.' ∉ b.2.toList)
    (h : l.importLine a = l.importLine b) : a = b := by
  obtain ⟨p, n⟩ := a
  obtain ⟨q, m⟩ := b
  have hline : p.toList ++ '.' :: n.toList = q.toList ++ '.' :: m.toList := by
    have hchars := congrArg String.toList h
    simp only [importLine, String.toList_append, List.append_assoc, List.append_right_inj] at hchars
    rw [← List.append_assoc, ← List.append_assoc, ← List.append_assoc, ← List.append_assoc, List.append_left_inj] at hchars
    simpa using hchars
  -- the last dot of the line is the one in front of the name
  have hboth : p.toList = q.toList ∧ n.toList = m.toList := by
    rcases List.append_eq_append_iff.mp hline with ⟨more, hq, hn⟩ | ⟨more, hp, hm⟩
    · cases more with
      | nil => exact ⟨by simpa using hq.symm, by simpa using hn⟩
      | cons c more =>
        rw [List.cons_append, List.cons.injEq] at hn
        exact absurd (hn.2 ▸ List.mem_append_right _ (List.mem_cons_self ..)) ha
    · cases more with
      | nil => exact ⟨by simpa using hp, by simpa using hm.symm⟩
      | cons c more =>
        rw [List.cons_append, List.cons.injEq] at hm
        exact absurd (hm.2 ▸ List.mem_append_right _ (List.mem_cons_self ..)) hb
  exact Prod.ext (String.toList_injective hboth.1) (String.toList_injective hboth.2)

theorem importLine_ne_empty (pr : String × String) : l.importLine pr ≠ "" := by
  intro h
  have hlen := congrArg String.length h
  simp [importLine] at hlen

theorem newline_not_mem_importLine {pr : String × String} (hp : '\n' ∉ pr.1.toList) (hn : '\n' ∉ pr.2.toList) :
    '\n' ∉ (l.importLine pr).toList := by
  have hsemicolon : '\n' ∉ l.semicolon.toList := by cases l <;> decide
  simp only [importLine, String.toList_append, List.mem_append, not_or]
  exact ⟨⟨⟨⟨by decide, hp⟩, by decide⟩, hn⟩, hsemicolon⟩

/-- The block of a class, where names are plain, tells what is imported from each package. -/
theorem pairs_eq_of_importBlock (hl : l.inClass = true) {a b : ImportScope}
    (ha : ∀ t ∈ l.importedTypes a, t.Plain) (hb : ∀ t ∈ l.importedTypes b, t.Plain)
    (h : l.importBlock a = l.importBlock b) : (l.packages a).pairs = (l.packages b).pairs := by
  have hplain : ∀ {s : ImportScope}, (∀ t ∈ l.importedTypes s, t.Plain) → ∀ pr ∈ (l.packages s).pairs,
      '\n' ∉ pr.1.toList ∧ '\n' ∉ pr.2.toList ∧ '.' ∉ pr.2.toList := by
    intro s hs pr hpr
    rcases PackageImports.mem_pairs_of hpr with hpr | ⟨t, ht, hp, hn⟩
    · cases hpr
    · refine ⟨hp ▸ (hs t ht).package, ?_⟩
      rcases hn with hn | hn
      · rw [hn]; decide
      · rw [hn]; exact (hs t ht).name
  have hlines : ∀ {s : ImportScope}, (∀ t ∈ l.importedTypes s, t.Plain) →
      ∀ line ∈ (l.packages s).pairs.map l.importLine, line ≠ "" ∧ '\n' ∉ line.toList := by
    intro s hs line hline
    obtain ⟨pr, hpr, rfl⟩ := List.mem_map.mp hline
    obtain ⟨hp, hn, -⟩ := hplain hs pr hpr
    exact ⟨importLine_ne_empty pr, newline_not_mem_importLine hp hn⟩
  rw [importBlock_of_inClass hl, importBlock_of_inClass hl] at h
  have hmap := intercalate_newline_inj (hlines ha) (hlines hb) (Except.ok.inj h)
  exact eq_of_map_eq (fun x hx y hy => importLine_inj (hplain ha x hx).2.2 (hplain hb y hy).2.2) hmap

theorem importedTypes_append (types late : List Ty) :
    l.importedTypes ⟨types ++ late⟩ = l.importedTypes ⟨types⟩ ++ l.importedTypes ⟨late⟩ :=
  List.filter_append ..

theorem packages_append (types late : List Ty) : l.packages ⟨types ++ late⟩ = (l.importedTypes ⟨late⟩).foldl
    (fun groups t => groups.insert l.collapses t.package t.name) (l.packages ⟨types⟩) := by
  rw [packages, importedTypes_append, PackageImports.of, List.foldl_append]
  rfl

theorem packages_sound (imports : ImportScope) : (l.packages imports).Sound :=
  PackageImports.sound_of l.collapses (l.importedTypes imports) .empty

/-! ### Classes -/

theorem has_of_importBlock_append (hl : l.inClass = true) {types late : List Ty}
    (hplain : ∀ t ∈ l.importedTypes ⟨types ++ late⟩, t.Plain)
    (h : l.importBlock ⟨types ++ late⟩ = l.importBlock ⟨types⟩) :
    ∀ t ∈ l.importedTypes ⟨late⟩, (l.packages ⟨types⟩).Has l.collapses t := by
  let size (g : String × ImportedNames) : Nat := ImportedNames.weight l.collapses g.2.toList + 1
  have hpairs := pairs_eq_of_importBlock hl hplain
    (fun t ht => hplain t (importedTypes_append types late ▸ List.mem_append_left _ ht)) h
  have hlisted := (packages_sound ⟨types ++ late⟩).listed_eq (packages_sound ⟨types⟩) hpairs
  have hsum : ((l.packages ⟨types ++ late⟩).map size).sum = ((l.packages ⟨types⟩).map size).sum := by
    have hmap := congrArg (List.map fun g : String × List String => ImportedNames.weight l.collapses g.2 + 1) hlisted
    rw [List.map_map, List.map_map] at hmap
    exact congrArg List.sum hmap
  rw [packages_append] at hsum
  refine (PackageImports.foldl_sum_eq_iff (fun _ _ => Nat.succ_pos _) (fun _ names _ n => ?_)
    (packages_sound ⟨types⟩) _).mp hsum
  exact (ImportedNames.insert_eq_or_weight_lt l.collapses n names).imp_right Nat.succ_lt_succ

/-! ### Python -/

theorem moduleImport_one (module name : String) : moduleImport module [name] =
    if name = module then "import " ++ module else "import " ++ module ++ " as " ++ name := rfl

theorem moduleImport_more (module first second : String) (rest : List String) :
    moduleImport module (first :: second :: rest) =
      "from " ++ module ++ " import " ++ ", ".intercalate (first :: second :: rest) := rfl

theorem moduleImport_ne_empty (module : String) {names : List String} (h : names ≠ []) :
    moduleImport module names ≠ "" := by
  match names with
  | [] => exact absurd rfl h
  | [name] =>
    rw [moduleImport_one]
    split <;> simp
  | first :: second :: rest =>
    rw [moduleImport_more]
    simp

theorem length_moduleImport_lt (module name : String) {names : List String} (h : names ≠ []) :
    (moduleImport module names).length < (moduleImport module (names ++ [name])).length := by
  match names with
  | [] => exact absurd rfl h
  | [first] =>
    have hmore : (moduleImport module [first, name]).length = module.length + first.length + name.length + 15 := by
      rw [moduleImport_more, String.intercalate_cons_cons, String.intercalate_singleton]
      simp only [String.length_append]
      change 5 + _ + 8 + (_ + 2 + _) = _
      omega
    have hone : (moduleImport module [first]).length ≤ module.length + first.length + 11 := by
      rw [moduleImport_one]
      split
      · simp only [String.length_append]
        change 7 + _ ≤ _
        omega
      · simp only [String.length_append]
        change 7 + _ + 4 + _ ≤ _
        omega
    change _ < (moduleImport module [first, name]).length
    omega
  | first :: second :: rest =>
    have happ : ", ".intercalate (first :: second :: rest ++ [name]) =
        ", ".intercalate (first :: second :: rest) ++ ", " ++ name := by
      rw [String.intercalate_append_of_ne_nil (by simp) (by simp), String.intercalate_singleton]
    change _ < (moduleImport module (first :: second :: (rest ++ [name]))).length
    rw [moduleImport_more, moduleImport_more]
    change _ < (_ ++ ", ".intercalate (first :: second :: rest ++ [name])).length
    rw [happ]
    simp only [String.length_append]
    have hsep : ", ".length = 2 := by decide
    omega

theorem has_of_importBlock_python {types late : List Ty}
    (h : python.importBlock ⟨types ++ late⟩ = python.importBlock ⟨types⟩) :
    ∀ t ∈ python.importedTypes ⟨late⟩, (python.packages ⟨types⟩).Has false t := by
  let size (g : String × ImportedNames) : Nat := (moduleImport g.1 g.2.toList).length + 1
  have hlines : ∀ imports, ∀ line ∈ (python.packages imports).map (fun g => moduleImport g.1 g.2.toList), line ≠ "" := by
    intro imports line hline
    obtain ⟨g, hg, rfl⟩ := List.mem_map.mp hline
    exact moduleImport_ne_empty g.1 ((packages_sound imports).named g hg)
  have hsum : ((python.packages ⟨types ++ late⟩).map size).sum = ((python.packages ⟨types⟩).map size).sum := by
    have hlen := sum_eq_of_intercalate (hlines ⟨types ++ late⟩) (hlines ⟨types⟩) (Except.ok.inj h)
    rw [List.map_map, List.map_map] at hlen
    exact hlen
  rw [packages_append] at hsum
  refine (PackageImports.foldl_sum_eq_iff (fun _ _ => Nat.succ_pos _) (fun p names hnames n => ?_)
    (packages_sound ⟨types⟩) _).mp hsum
  generalize hy : names.insert false n = y
  cases hy ▸ ImportedNames.insertion false n names with
  | present _ => exact .inl rfl
  | full hc _ _ => cases hc
  | new _ _ => exact .inr (Nat.succ_lt_succ (length_moduleImport_lt p n hnames))

/-! ### Lua -/

def addDistinct (seen : List String) (item : String) : List String :=
  if seen.contains item then seen else seen ++ [item]

theorem addDistinct_eq_self_iff {seen : List String} {item : String} :
    addDistinct seen item = seen ↔ item ∈ seen := by
  unfold addDistinct
  split
  · rename_i h
    exact iff_of_true rfl (by simpa using h)
  · rename_i h
    exact iff_of_false (by simp) (by simpa using h)

theorem mem_foldl_addDistinct {x : String} {items seen : List String} :
    x ∈ items.foldl addDistinct seen ↔ x ∈ seen ∨ x ∈ items := by
  induction items generalizing seen with
  | nil => simp
  | cons item items ih =>
    have hstep : x ∈ addDistinct seen item ↔ x ∈ seen ∨ x = item := by
      unfold addDistinct
      split
      · rename_i h
        have hmem : item ∈ seen := by simpa using h
        exact ⟨.inl, fun hx => hx.elim (fun hs => hs) fun he => he ▸ hmem⟩
      · simp
    rw [List.foldl_cons, ih, hstep, List.mem_cons, or_assoc]

theorem importBlock_lua (imports : ImportScope) : lua.importBlock imports =
    .ok ("\n".intercalate (((lua.importedTypes imports).map luaImport).foldl addDistinct [] ++ [forEachSmart])) := rfl

theorem shows_of_importBlock_lua {types late : List Ty}
    (h : lua.importBlock ⟨types ++ late⟩ = lua.importBlock ⟨types⟩) :
    ∀ t ∈ lua.importedTypes ⟨late⟩, lua.Shows ⟨types⟩ t := by
  let lines (imports : ImportScope) := ((lua.importedTypes imports).map luaImport).foldl addDistinct []
  have hlines : ∀ imports, ∀ line ∈ lines imports ++ [forEachSmart], line ≠ "" := by
    intro imports line hline
    rcases List.mem_append.mp hline with hline | hline
    · rcases mem_foldl_addDistinct.mp hline with hline | hline
      · cases hline
      · obtain ⟨t, -, rfl⟩ := List.mem_map.mp hline
        simp [luaImport]
    · rw [List.mem_singleton.mp hline]
      decide
  have hsum := sum_eq_of_intercalate (hlines ⟨types ++ late⟩) (hlines ⟨types⟩) (Except.ok.inj h)
  have happ : lines ⟨types ++ late⟩ = ((lua.importedTypes ⟨late⟩).map luaImport).foldl addDistinct (lines ⟨types⟩) := by
    simp only [lines, importedTypes_append, List.map_append, List.foldl_append]
  simp only [List.map_append, List.sum_append, Nat.add_right_cancel_iff, happ] at hsum
  have hclimbs : Climbs addDistinct (fun _ => True) fun seen => (seen.map fun line => line.length + 1).sum := by
    refine ⟨fun _ _ _ => trivial, fun seen line _ => ?_⟩
    unfold addDistinct
    split
    · exact .inl rfl
    · exact .inr (by simp)
  have hstay := (hclimbs.rank_foldl_eq_iff trivial).mp hsum
  intro t ht
  have hmem : luaImport t ∈ lines ⟨types⟩ := addDistinct_eq_self_iff.mp (hstay _ (List.mem_map_of_mem ht))
  exact (mem_foldl_addDistinct.mp hmem).resolve_left (List.not_mem_nil)

/-! ### Every language -/

theorem importBlock_isOk (l : Language) (imports : ImportScope) : ∃ block, l.importBlock imports = .ok block := by
  cases l with
  | java => exact ⟨_, importBlock_of_inClass rfl imports⟩
  | kotlin => exact ⟨_, importBlock_of_inClass rfl imports⟩
  | lua => exact ⟨_, rfl⟩
  | python => exact ⟨_, rfl⟩

theorem importBlock_append_of_shows {types late : List Ty} (h : ∀ t ∈ l.importedTypes ⟨late⟩, l.Shows ⟨types⟩ t) :
    l.importBlock ⟨types ++ late⟩ = l.importBlock ⟨types⟩ := by
  have hpackages : (∀ t ∈ l.importedTypes ⟨late⟩, (l.packages ⟨types⟩).Has l.collapses t) →
      l.packages ⟨types ++ late⟩ = l.packages ⟨types⟩ := fun h => by
    rw [packages_append]
    exact PackageImports.foldl_eq_self_of_has h
  cases l with
  | java => rw [importBlock_of_inClass rfl, importBlock_of_inClass rfl, hpackages h]
  | kotlin => rw [importBlock_of_inClass rfl, importBlock_of_inClass rfl, hpackages h]
  | python =>
    exact congrArg (fun groups : PackageImports => Except.ok
      ("\n".intercalate (groups.map fun g => moduleImport g.1 g.2.toList))) (hpackages h)
  | lua =>
    rw [importBlock_lua, importBlock_lua, importedTypes_append, List.map_append, List.foldl_append]
    rw [foldl_eq_self fun line hline => ?_]
    obtain ⟨t, ht, rfl⟩ := List.mem_map.mp hline
    exact addDistinct_eq_self_iff.mpr (mem_foldl_addDistinct.mpr (.inr (h t ht)))

/-- A block stays the same just if it shows each type that is added. In a class the lines tell that only where names
are plain, as a line could come about from another package otherwise. -/
theorem importBlock_append_iff {types late : List Ty}
    (hplain : l.inClass = true → ∀ t ∈ l.importedTypes ⟨types ++ late⟩, t.Plain) :
    l.importBlock ⟨types ++ late⟩ = l.importBlock ⟨types⟩ ↔
      ∀ t ∈ l.importedTypes ⟨late⟩, l.Shows ⟨types⟩ t := by
  refine ⟨fun h => ?_, importBlock_append_of_shows⟩
  cases l with
  | java => exact has_of_importBlock_append rfl (hplain rfl) h
  | kotlin => exact has_of_importBlock_append rfl (hplain rfl) h
  | lua => exact shows_of_importBlock_lua h
  | python => exact has_of_importBlock_python h

end Language

end Pipewright
