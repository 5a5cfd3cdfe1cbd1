import Mathlib.Data.List.Induction
import Pipewright.Proofs.Rendering

/-!
# Indentation

Rendering a block one level deeper puts a tab before each line that is not empty
and changes nothing else (`RenderStyle.blockAt_deeper`). All text is rendered as
whole lines, so it is enough to compare two renderings line by line.
-/

namespace Pipewright

/-! ## Lines one tab deeper -/

def tabbed (line : List Char) : List Char := if line.isEmpty then [] else '\t' :: line

def deeper (text : String) : String :=
  String.ofList (['\n'].intercalate ((text.toList.splitOn '\n').map tabbed))

def unlines (ls : List (List Char)) : List Char := ls.flatMap (· ++ ['\n'])

@[simp] theorem tabbed_nil : tabbed [] = [] := rfl

theorem tabbed_of_ne_nil {line : List Char} (h : line ≠ []) : tabbed line = '\t' :: line := by
  simp [tabbed, h]

theorem tabbed_eq_nil {line : List Char} : tabbed line = [] ↔ line = [] := by
  cases line <;> simp [tabbed]

theorem newline_not_mem_tabbed {line : List Char} (h : '\n' ∉ line) : '\n' ∉ tabbed line := by
  cases line with
  | nil => simp
  | cons c rest => simpa [tabbed] using h

@[simp] theorem unlines_nil : unlines [] = [] := rfl

@[simp] theorem unlines_cons (line : List Char) (ls : List (List Char)) :
    unlines (line :: ls) = line ++ '\n' :: unlines ls := by
  simp [unlines]

@[simp] theorem unlines_append (ks ls : List (List Char)) : unlines (ks ++ ls) = unlines ks ++ unlines ls := by
  simp [unlines]

theorem splitOn_unlines {ls : List (List Char)} (h : ∀ l ∈ ls, '\n' ∉ l) :
    (unlines ls).splitOn '\n' = ls ++ [[]] := by
  induction ls with
  | nil => rfl
  | cons line ls ih =>
    simp only [List.mem_cons, forall_eq_or_imp] at h
    rw [unlines_cons, List.splitOn_append_cons_self_of_not_mem h.1, ih h.2, List.cons_append]

theorem intercalate_concat_nil (ls : List (List Char)) : ['\n'].intercalate (ls ++ [[]]) = unlines ls := by
  induction ls with
  | nil => rfl
  | cons line ls ih =>
    rw [List.cons_append, List.intercalate_cons_of_ne_nil (by simp), ih]
    simp

/-! ## Texts that differ by one tab -/

def Deeper (a b : String) : Prop :=
  ∃ ls : List (List Char), (∀ l ∈ ls, '\n' ∉ l) ∧ a.toList = unlines ls ∧ b.toList = unlines (ls.map tabbed)

theorem Deeper.eq {a b : String} (h : Deeper a b) : b = deeper a := by
  obtain ⟨ls, hls, ha, hb⟩ := h
  apply String.toList_injective
  rw [deeper, ha, hb, splitOn_unlines hls, List.map_append, List.map_singleton, tabbed_nil, intercalate_concat_nil,
    String.toList_ofList]

theorem Deeper.empty : Deeper "" "" := ⟨[], by simp, rfl, rfl⟩

theorem Deeper.newline : Deeper "\n" "\n" := ⟨[[]], by simp, rfl, rfl⟩

theorem Deeper.append {a b c d : String} (h : Deeper a b) (h' : Deeper c d) : Deeper (a ++ c) (b ++ d) := by
  obtain ⟨ks, hks, ha, hb⟩ := h
  obtain ⟨ls, hls, hc, hd⟩ := h'
  refine ⟨ks ++ ls, ?_, by simp [ha, hc], by simp [hb, hd]⟩
  intro l hl
  rcases List.mem_append.mp hl with hl | hl
  · exact hks l hl
  · exact hls l hl

theorem Deeper.line {line : String} (hne : line ≠ "") (h : '\n' ∉ line.toList) :
    Deeper (line ++ "\n") ("\t" ++ line ++ "\n") := by
  have hchars : line.toList ≠ [] := fun he => hne (String.toList_injective (by simp [he]))
  exact ⟨[line.toList], by simpa using h, by simp, by simp [tabbed_of_ne_nil hchars]⟩

/-! ## The lines of a text -/

theorem newline_not_mem_linesFrom {run cs : List Char} (h : '\n' ∉ run) : ∀ l ∈ linesFrom run cs, '\n' ∉ l := by
  fun_induction linesFrom run cs with
  | case1 => simp
  | case2 run hne => simpa using h
  | case3 run rest ih =>
    simp only [List.mem_cons, not_or] at h
    simpa [h.2] using ih (by simp)
  | case4 run rest hrun ih => simpa [h] using ih (by simp)
  | case5 run c rest _ hlf ih =>
    apply ih
    simp only [List.mem_cons, not_or]
    exact ⟨fun he => hlf he.symm, h⟩

theorem tabs_succ (n : Nat) : tabs (n + 1) = "\t" ++ tabs n := by
  apply String.toList_injective
  simp [tabs, List.replicate_succ]

theorem newline_not_mem_tabs (n : Nat) : '\n' ∉ (tabs n).toList := by
  simp [tabs]

theorem deeper_tabs (text : String) (hne : text ≠ "") (h : '\n' ∉ text.toList) (n : Nat) :
    Deeper (tabs n ++ text ++ "\n") (tabs (n + 1) ++ text ++ "\n") := by
  have hline : Deeper (tabs n ++ text ++ "\n") ("\t" ++ (tabs n ++ text) ++ "\n") := by
    apply Deeper.line
    · intro he
      exact hne (String.append_eq_empty_iff.mp he).2
    · simp [h, newline_not_mem_tabs]
  rw [tabs_succ]
  simpa only [String.append_assoc] using hline

theorem deeper_indentLines (n : Nat) (text : String) : Deeper (indentLines n text) (indentLines (n + 1) text) := by
  have hlines : ∀ l ∈ lines text, '\n' ∉ l.toList := by
    intro l hl
    obtain ⟨cs, hcs, rfl⟩ := List.mem_map.mp hl
    simpa using newline_not_mem_linesFrom (by simp) cs hcs
  unfold indentLines
  generalize lines text = ls at hlines
  induction ls with
  | nil => exact Deeper.empty
  | cons l ls ih =>
    simp only [List.mem_cons, forall_eq_or_imp] at hlines
    simp only [List.map_cons, String.join_cons]
    refine Deeper.append ?_ (ih hlines.2)
    by_cases hl : l = ""
    · subst hl
      exact Deeper.newline
    · simpa [hl] using deeper_tabs _ hl hlines.1 n

/-! ## Empty lines in front -/

theorem newlines_suffix_iff {line : List Char} (h : '\n' ∉ line) (ls : List (List Char)) :
    ['\n', '\n'] <:+ unlines (ls ++ [line]) ↔ line = [] ∧ ls ≠ [] := by
  have hlast : unlines (ls ++ [line]) = (unlines ls ++ line) ++ ['\n'] := by simp
  rw [hlast, show ['\n', '\n'] = ['\n'] ++ ['\n'] from rfl, List.suffix_append_self_iff]
  constructor
  · intro hs
    cases line using List.reverseRecOn with
    | nil =>
      refine ⟨rfl, ?_⟩
      rintro rfl
      simp at hs
    | append_singleton cs c _ =>
      obtain ⟨t, ht⟩ := hs
      rw [← List.append_assoc, List.append_singleton_inj] at ht
      simp [← ht.2] at h
  · rintro ⟨rfl, hls⟩
    cases ls using List.reverseRecOn with
    | nil => exact absurd rfl hls
    | append_singleton ks k _ => exact ⟨unlines ks ++ k, by simp⟩

theorem isEmpty_eq (text : String) : text.isEmpty = text.toList.isEmpty := by
  rw [Bool.eq_iff_iff, String.isEmpty_iff, List.isEmpty_iff, String.toList_eq_nil_iff]

theorem isEmpty_unlines_concat (ls : List (List Char)) (line : List Char) :
    (unlines (ls ++ [line])).isEmpty = false := by
  rw [List.isEmpty_eq_false_iff]
  simp

theorem lacksBlankLine_of_deeper {a b : String} (h : Deeper a b) : lacksBlankLine b = lacksBlankLine a := by
  obtain ⟨ls, hls, ha, hb⟩ := h
  unfold lacksBlankLine
  rw [isEmpty_eq, isEmpty_eq, ha, hb]
  cases ls using List.reverseRecOn with
  | nil => rfl
  | append_singleton ks k _ =>
    have hk : '\n' ∉ k := hls k (by simp)
    have hsame : ['\n', '\n'].isSuffixOf (unlines ((ks ++ [k]).map tabbed)) =
        ['\n', '\n'].isSuffixOf (unlines (ks ++ [k])) := by
      rw [Bool.eq_iff_iff, List.isSuffixOf_iff_suffix, List.isSuffixOf_iff_suffix, List.map_append,
        List.map_singleton, newlines_suffix_iff hk, newlines_suffix_iff (newline_not_mem_tabbed hk), tabbed_eq_nil]
      simp
    rw [hsame, List.map_append, List.map_singleton, isEmpty_unlines_concat, isEmpty_unlines_concat]

/-! ## Bodies without delimiters -/

@[simp] theorem dropTail_concat (p : Char → Bool) (cs : List Char) (c : Char) :
    dropTail p (cs ++ [c]) = if p c then dropTail p cs else cs ++ [c] := by
  by_cases h : p c <;> simp [dropTail, h]

theorem dropTail_unlines_concat {line : List Char} (hne : line ≠ []) (h : '\n' ∉ line) (ls : List (List Char)) :
    dropTail (· == '\n') (unlines (ls ++ [line])) ++ ['\n'] = unlines (ls ++ [line]) := by
  cases line using List.reverseRecOn with
  | nil => exact absurd rfl hne
  | append_singleton cs c _ =>
    have hc : c ≠ '\n' := by
      rintro rfl
      simp at h
    have hlast : unlines (ls ++ [cs ++ [c]]) = (unlines ls ++ cs ++ [c]) ++ ['\n'] := by simp
    rw [hlast, dropTail_concat, if_pos (by simp), dropTail_concat, if_neg (by simpa using hc)]

/-- Where some line is not empty, dropping the line feeds at the end drops the empty lines there. -/
theorem dropTail_unlines {ls : List (List Char)} (h : ∀ l ∈ ls, '\n' ∉ l) (hne : ∃ l ∈ ls, l ≠ []) :
    ∃ ks : List (List Char), (∀ l ∈ ks, l ∈ ls) ∧ dropTail (· == '\n') (unlines ls) ++ ['\n'] = unlines ks ∧
      dropTail (· == '\n') (unlines (ls.map tabbed)) ++ ['\n'] = unlines (ks.map tabbed) := by
  induction ls using List.reverseRecOn with
  | nil => simp at hne
  | append_singleton ls l ih =>
    by_cases hl : l = []
    · subst hl
      obtain ⟨ks, hks, hdrop, htabbed⟩ := ih (fun k hk => h k (by simp [hk])) (by simpa using hne)
      refine ⟨ks, fun k hk => by simp [hks k hk], ?_, ?_⟩
      · simpa using hdrop
      · simpa using htabbed
    · have hn : '\n' ∉ l := h l (by simp)
      refine ⟨ls ++ [l], fun k hk => hk, dropTail_unlines_concat hl hn ls, ?_⟩
      rw [List.map_append, List.map_singleton]
      exact dropTail_unlines_concat (by simpa [tabbed_eq_nil] using hl) (newline_not_mem_tabbed hn) _

theorem deeper_withoutTail {a b : String} (h : Deeper a b) (hne : isBlankText a = false) :
    Deeper (Language.withoutTail a ++ "\n") (Language.withoutTail b ++ "\n") := by
  obtain ⟨ls, hls, ha, hb⟩ := h
  have hsome : ∃ l ∈ ls, l ≠ [] := by
    by_contra hall
    have hblank : isBlankText a = true := by
      simp only [isBlankText, ha, unlines, List.all_flatMap, List.all_eq_true]
      intro l hl
      have hnil : l = [] := by
        by_contra hl'
        exact hall ⟨l, hl, hl'⟩
      simp [hnil, isBlank]
    simp [hblank] at hne
  obtain ⟨ks, hks, hdrop, htabbed⟩ := dropTail_unlines hls hsome
  exact ⟨ks, fun l hl => hls l (hks l hl), by simpa [Language.withoutTail, ha] using hdrop,
    by simpa [Language.withoutTail, hb] using htabbed⟩

theorem isBlankText_of_deeper {a b : String} (h : Deeper a b) : isBlankText b = isBlankText a := by
  obtain ⟨ls, -, ha, hb⟩ := h
  have hline : ∀ l : List Char, (tabbed l).all isBlank = l.all isBlank := by
    intro l
    cases l with
    | nil => rfl
    | cons c cs => simp [tabbed, show isBlank '\t' = true from rfl]
  simp only [isBlankText, ha, hb, unlines, List.all_flatMap, List.all_map, List.all_append, Function.comp_def, hline]

/-! ## Blocks with a header -/

theorem mem_of_mem_trim {text : String} {c : Char} (h : c ∈ (trim text).toList) : c ∈ text.toList := by
  simp only [trim, dropTail, String.toList_ofList, List.mem_reverse] at h
  have hrest := (List.dropWhile_suffix isBlank).subset h
  exact (List.dropWhile_suffix isBlank).subset (List.mem_reverse.mp hrest)

theorem mem_dropWhile {p : Char → Bool} {c : Char} (hc : p c = false) {cs : List Char} (h : c ∈ cs) :
    c ∈ cs.dropWhile p := by
  induction cs with
  | nil => exact h
  | cons d ds ih =>
    by_cases hd : p d
    · rw [List.dropWhile_cons_of_pos hd]
      rcases List.mem_cons.mp h with rfl | h
      · simp [hc] at hd
      · exact ih h
    · rwa [List.dropWhile_cons_of_neg hd]

theorem trim_ne_empty {text : String} {c : Char} (hc : isBlank c = false) (h : c ∈ text.toList) : trim text ≠ "" := by
  intro he
  have hmem : c ∈ (trim text).toList := by
    simp only [trim, dropTail, String.toList_ofList, List.mem_reverse]
    exact mem_dropWhile hc (List.mem_reverse.mpr (mem_dropWhile hc h))
  simp [he] at hmem

/-- A header that fits on one line, which is not empty where the line holds nothing else. -/
structure Language.OneLine (l : Language) (header : String) : Prop where
  newline : '\n' ∉ header.toList
  visible : l = .lua → trim header ≠ ""

theorem Language.OneLine.deeper_block {l : Language} {header : String} (h : l.OneLine header) {a b : String}
    (hbody : Deeper a b) (n : Nat) : Deeper (l.block header a n ++ "\n") (l.block header b (n + 1) ++ "\n") := by
  have htrim : '\n' ∉ (trim header).toList := fun hm => h.newline (mem_of_mem_trim hm)
  have hopen : ∀ mark : String, trim header ++ mark ≠ "" → '\n' ∉ mark.toList →
      Deeper (tabs n ++ (trim header ++ mark) ++ "\n") (tabs (n + 1) ++ (trim header ++ mark) ++ "\n") := by
    intro mark hne hn
    exact deeper_tabs _ hne (by simp [htrim, hn]) n
  have hmark : ∀ mark : String, mark ≠ "" → trim header ++ mark ≠ "" := by
    intro mark hne he
    exact hne (String.append_eq_empty_iff.mp he).2
  cases l with
  | java | kotlin =>
    have hblock := ((hopen " \x7b" (hmark _ (by decide)) (by decide)).append hbody).append
      (deeper_tabs "\x7d" (by decide) (by decide) n)
    have hbrace : " \x7b\n" = " \x7b" ++ "\n" := by decide
    simpa only [block, hbrace, String.append_assoc] using hblock
  | lua =>
    have hblock := ((hopen "" (by simpa using h.visible rfl) (by decide)).append hbody).append
      (deeper_tabs "end" (by decide) (by decide) n)
    simpa only [block, String.append_assoc, String.append_empty] using hblock
  | python =>
    have hhead := hopen ":" (hmark _ (by decide)) (by decide)
    have hcolon : ":\n" = ":" ++ "\n" := by decide
    simp only [block, isBlankText_of_deeper hbody, hcolon]
    by_cases hblank : isBlankText a
    · have hpass := hhead.append (deeper_tabs "\tpass" (by decide) (by decide) n)
      simpa only [hblank, if_true, String.append_assoc] using hpass
    · have hrest := hhead.append (deeper_withoutTail hbody (by simpa using hblank))
      simpa only [hblank, if_false, Bool.false_eq_true, String.append_assoc] using hrest

/-! ## Renderings -/

namespace Rendered

variable {α β γ δ : Type} {R : α → β → Prop} {S : γ → δ → Prop}

inductive Alike (R : α → β → Prop) : Rendered α → Rendered β → Prop
  | ok (uses : List Ty) {a : α} {b : β} : R a b → Alike R ⟨uses, .ok a⟩ ⟨uses, .ok b⟩
  | error (uses : List Ty) (e : LanguageError) : Alike R ⟨uses, .error e⟩ ⟨uses, .error e⟩

theorem Alike.bind {x : Rendered α} {y : Rendered β} {f : α → Rendered γ} {g : β → Rendered δ} (h : Alike R x y)
    (hf : ∀ a b, R a b → Alike S (f a) (g b)) : Alike S (x >>= f) (y >>= g) := by
  cases h with
  | error uses e => exact .error uses e
  | @ok uses a b hab =>
    have hfab := hf a b hab
    change Alike S ⟨uses ++ (f a).uses, (f a).result⟩ ⟨uses ++ (g b).uses, (g b).result⟩
    generalize f a = x, g b = y at hfab
    cases hfab with
    | ok more hcd => exact .ok _ hcd
    | error more e => exact .error _ e

theorem Alike.pure {a : α} {b : β} (h : R a b) : Alike R (Pure.pure a) (Pure.pure b) := .ok [] h

theorem Alike.refl {R : α → α → Prop} (hR : ∀ a, R a a) (x : Rendered α) : Alike R x x := by
  obtain ⟨uses, result⟩ := x
  cases result with
  | ok a => exact .ok uses (hR a)
  | error e => exact .error uses e

theorem Alike.and_ok {P : α → Prop} {x : Rendered α} {y : Rendered β} (h : Alike R x y)
    (hP : ∀ a, x.result = .ok a → P a) : Alike (fun a b => R a b ∧ P a) x y := by
  cases h with
  | ok uses hab => exact .ok uses ⟨hab, hP _ rfl⟩
  | error uses e => exact .error uses e

theorem report_alike (types : List Ty) : Alike Eq (report types) (report types) := .ok types rfl

end Rendered

namespace RenderStyle

open Rendered (Alike report_alike)

variable (style : RenderStyle)

theorem deeper_aboveLine (n : Nat) (above : Option String) :
    Deeper (aboveLine n above) (aboveLine (n + 1) above) := by
  cases above with
  | none => exact Deeper.empty
  | some text =>
    by_cases h : text.isEmpty
    · simpa only [aboveLine, h, if_true] using Deeper.empty
    · simpa only [aboveLine, h, if_false, Bool.false_eq_true] using deeper_indentLines n text

theorem action_alike (n : Nat) (a : Action) : Alike Deeper (style.action n a) (style.action (n + 1) a) := by
  cases a <;> exact .ok _ (deeper_indentLines n _)

theorem header_alike (n : Nat) (s : Stmt) :
    Alike (fun h h' => Deeper h.1 h'.1 ∧ h'.2 = h.2) (style.header n s) (style.header (n + 1) s) := by
  have hplain : ∀ text : String, Alike (fun h h' => Deeper h.1 h'.1 ∧ h'.2 = h.2)
      (pure ("", text) : Rendered (String × String)) (pure ("", text)) :=
    fun text => .pure ⟨Deeper.empty, rfl⟩
  cases s with
  | ifThen | whileLoop | forLoop | foreach => exact (report_alike _).bind fun _ _ _ => hplain _
  | method => exact (report_alike _).bind fun _ _ _ => .pure ⟨deeper_aboveLine n _, rfl⟩
  | constructor =>
    refine (report_alike _).bind fun _ _ _ => (Alike.refl (fun _ => rfl) _).bind fun a b (hab : a = b) => ?_
    subst hab
    exact hplain a
  | cls =>
    refine (Alike.refl (fun _ => rfl) _).bind fun a b (hab : a = b) => (report_alike _).bind fun _ _ _ => ?_
    subst hab
    exact hplain a
  | _ => exact hplain ""

/-- In Lua every header starts with a word. -/
theorem trim_header_ne_empty {n : Nat} {s : Stmt} {h : String × String} (hs : s.body?.isSome)
    (hnest : ∀ block indent, s ≠ .nested block indent) (hh : (style.header n s).result = .ok h)
    (hl : style.language = .lua) : trim h.2 ≠ "" := by
  cases s with
  | ifThen condition body =>
    have hline : h.2 = style.language.ifHeader condition := by rw [← Except.ok.inj hh]
    rw [hline, hl]
    exact trim_ne_empty (c := 'i') (by decide) (by simp [Language.ifHeader, toString])
  | whileLoop condition body =>
    have hline : h.2 = style.language.whileHeader condition := by rw [← Except.ok.inj hh]
    rw [hline, hl]
    exact trim_ne_empty (c := 'w') (by decide) (by simp [Language.whileHeader, toString])
  | forLoop var start limit step body =>
    have hline : h.2 = style.language.forHeader var start limit step := by rw [← Except.ok.inj hh]
    rw [hline, hl]
    apply trim_ne_empty (c := 'f') (by decide)
    unfold Language.forHeader
    generalize Language.otherStep? step = other
    cases other <;> simp [toString]
  | foreach var iterable body =>
    have hline : h.2 = style.language.foreachHeader var iterable := by rw [← Except.ok.inj hh]
    rw [hline, hl]
    exact trim_ne_empty (c := 'f') (by decide) (by simp [Language.foreachHeader, toString])
  | method signature body =>
    have hline : h.2 = (style.language.methodHeader signature).line := by rw [← Except.ok.inj hh]
    rw [hline, hl]
    exact trim_ne_empty (c := 'f') (by decide) (by simp [Language.methodHeader, toString])
  | constructor visibility className parameters body =>
    rw [show style = ⟨.lua, style.preview⟩ by rw [← hl]] at hh
    cases hh
  | cls signature body =>
    rw [show style = ⟨.lua, style.preview⟩ by rw [← hl]] at hh
    cases hh
  | nested block indent => exact absurd rfl (hnest block indent)
  | _ => simp [Stmt.body?] at hs

/-! ## Statements and blocks -/

def HeaderOnLine (s : Stmt) : Prop := ∀ h, (style.header 0 s).result = .ok h → '\n' ∉ h.2.toList

mutual

def StmtLevel : Stmt → Prop
  | .nested block at_ => at_ = none ∧ BlockLevel block
  | s@(.ifThen _ body) | s@(.whileLoop _ body) | s@(.forLoop _ _ _ _ body) | s@(.foreach _ _ body)
  | s@(.method _ body) | s@(.constructor _ _ _ body) | s@(.cls _ body) => style.HeaderOnLine s ∧ BlockLevel body
  | _ => True

def BlockLevel : Block → Prop
  | .mk _ stmts => StmtsLevel stmts

def StmtsLevel : List Stmt → Prop
  | [] => True
  | s :: rest => StmtLevel s ∧ StmtsLevel rest

end

theorem newline_not_mem_header {s : Stmt} (hline : style.HeaderOnLine s) : ∀ (n : Nat) (h : String × String),
    (style.header n s).result = .ok h → '\n' ∉ h.2.toList := by
  intro n
  induction n with
  | zero => exact hline
  | succ n ih =>
    intro h hh
    generalize hx : style.header n s = x, hy : style.header (n + 1) s = y
    rw [hx] at ih
    rw [hy] at hh
    cases hx ▸ hy ▸ style.header_alike n s with
    | ok uses hab =>
      obtain rfl := Except.ok.inj hh
      rw [hab.2]
      exact ih _ rfl
    | error uses e => cases hh

theorem oneLine_header {s : Stmt} (hs : s.body?.isSome) (hnest : ∀ block indent, s ≠ .nested block indent)
    (hline : style.HeaderOnLine s) {n : Nat} {h : String × String} (hh : (style.header n s).result = .ok h) :
    style.language.OneLine h.2 :=
  ⟨style.newline_not_mem_header hline n h hh, style.trim_header_ne_empty hs hnest hh⟩

/-- A statement with a header, once its body is known to be rendered alike. -/
theorem withBody_alike {s : Stmt} (hs : s.body?.isSome) (hnest : ∀ block indent, s ≠ .nested block indent)
    (hline : style.HeaderOnLine s) (n : Nat) {x y : Rendered String} (hbody : Alike Deeper x y) :
    Alike Deeper
      (style.header n s >>= fun head => x >>= fun text => pure (style.withBody n head text))
      (style.header (n + 1) s >>= fun head => y >>= fun text => pure (style.withBody (n + 1) head text)) := by
  have hhead := Alike.and_ok (style.header_alike n s) (P := fun h => style.language.OneLine h.2)
    fun h hh => style.oneLine_header hs hnest hline hh
  refine hhead.bind fun h h' hh => hbody.bind fun a b hab => .pure ?_
  obtain ⟨⟨habove, heq⟩, hone⟩ := hh
  simp only [withBody, heq, String.append_assoc]
  exact habove.append (hone.deeper_block hab n)

mutual

theorem stmt_alike : ∀ (s : Stmt), style.StmtLevel s → ∀ n, Alike Deeper (style.stmt n s) (style.stmt (n + 1) s)
  | .instanceVariable visibility var label modifiers, _, n => by
    rw [stmt, stmt]
    exact (report_alike _).bind fun _ _ _ => .pure ((deeper_aboveLine n _).append (deeper_indentLines n _))
  | .localVariable var isFinal, _, n => by
    rw [stmt, stmt]
    exact (report_alike _).bind fun _ _ _ => .pure (deeper_indentLines n _)
  | .act a, _, n => by
    rw [stmt, stmt]
    exact style.action_alike n a
  | .ret value, _, n => by
    rw [stmt, stmt]
    exact (report_alike _).bind fun _ _ _ => .pure (deeper_indentLines n _)
  | .blank, _, n => by
    rw [stmt, stmt]
    exact .pure Deeper.newline
  | .nested block at_, h, n => by
    rw [stmt, stmt, h.1]
    exact blockAt_alike block h.2 n
  | .ifThen _ body, h, n | .whileLoop _ body, h, n | .forLoop _ _ _ _ body, h, n | .foreach _ _ body, h, n
  | .method _ body, h, n | .constructor _ _ _ body, h, n | .cls _ body, h, n => by
    rw [stmt, stmt]
    exact style.withBody_alike rfl (by simp) h.1 n (blockAt_alike body h.2 (n + 1))

theorem blockAt_alike : ∀ (b : Block), style.BlockLevel b → ∀ n,
    Alike Deeper (style.blockAt n b) (style.blockAt (n + 1) b)
  | .mk _ stmts, h, n => by
    rw [blockAt, blockAt]
    exact stmtsFrom_alike stmts h n Deeper.empty

theorem stmtsFrom_alike : ∀ (stmts : List Stmt), style.StmtsLevel stmts → ∀ n {out out' : String}, Deeper out out' →
    Alike Deeper (style.stmtsFrom n out stmts) (style.stmtsFrom (n + 1) out' stmts)
  | [], _, n, out, out', hout => by
    rw [stmtsFrom, stmtsFrom]
    exact .pure hout
  | s :: rest, h, n, out, out', hout => by
    rw [stmtsFrom, stmtsFrom]
    refine (stmt_alike s h.1 n).bind fun text text' htext => stmtsFrom_alike rest h.2 n ?_
    -- whether an empty line goes between them depends on the text so far alone
    rw [lacksBlankLine_of_deeper hout]
    refine (hout.append ?_).append htext
    by_cases hgap : (s.isDeclarationBlock && lacksBlankLine out) = true
    · simpa only [hgap, if_true] using Deeper.newline
    · simpa only [hgap, if_false, Bool.false_eq_true] using Deeper.empty

end

/-- A level block, rendered one level deeper: the same text with a tab before each line that is not empty, or the
same error, and the same types to import. -/
theorem blockAt_deeper (b : Block) (h : style.BlockLevel b) (n : Nat) :
    (style.blockAt (n + 1) b).result = (style.blockAt n b).result.map deeper ∧
      (style.blockAt (n + 1) b).uses = (style.blockAt n b).uses := by
  generalize hx : style.blockAt n b = x, hy : style.blockAt (n + 1) b = y
  cases hx ▸ hy ▸ style.blockAt_alike b h n with
  | ok uses hab => exact ⟨congrArg Except.ok hab.eq, rfl⟩
  | error uses e => exact ⟨rfl, rfl⟩

def spaced : Block :=
  let loop := Stmt.whileLoop (.raw "waiting()") (.mk 2 [])
  let spliced := Stmt.nested (.mk 7 [.blank, .act (.call "done" [])]) none
  .mk 0 [.act (.comment "steps"),
    .method { visibility := .isPublic, returns := Catalog.Python.noType, name := "run" }
      (.mk 1 [loop, .act (.raw "first()\n\nsecond()"), spliced])]

theorem blockAt_deeper_spaced :
    (⟨.python, false⟩ : RenderStyle).BlockLevel spaced ∧
      ((⟨.python, false⟩ : RenderStyle).blockAt 1 spaced).result =
        ((⟨.python, false⟩ : RenderStyle).blockAt 0 spaced).result.map deeper ∧
      ((⟨.python, false⟩ : RenderStyle).blockAt 1 spaced).uses =
        ((⟨.python, false⟩ : RenderStyle).blockAt 0 spaced).uses := by
  have hlevel : (⟨.python, false⟩ : RenderStyle).BlockLevel spaced := by
    have hheader : ∀ {s : Stmt} (line : String),
        ((⟨.python, false⟩ : RenderStyle).header 0 s).result.map Prod.snd = .ok line → '\n' ∉ line.toList →
          (⟨.python, false⟩ : RenderStyle).HeaderOnLine s := by
      intro s line hs hline h hh
      rw [hh] at hs
      rwa [Except.ok.inj hs]
    exact ⟨trivial, ⟨hheader "def run()" rfl (by decide),
      ⟨hheader "while waiting()" rfl (by decide), trivial⟩, trivial, ⟨rfl, trivial, trivial, trivial⟩,
      trivial⟩, trivial⟩
  exact ⟨hlevel, blockAt_deeper _ spaced hlevel 0⟩

example : ((⟨.python, false⟩ : RenderStyle).blockAt 0 spaced).result.toOption =
    some "# steps\n\ndef run():\n\twhile waiting():\n\t\tpass\n\tfirst()\n\n\tsecond()\n\n\n\tdone()\n" := by
  decide +kernel

end RenderStyle

end Pipewright
