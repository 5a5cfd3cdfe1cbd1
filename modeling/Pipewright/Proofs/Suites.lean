import Pipewright.Proofs.Rows

/-!
# Bodies without delimiters

In Python a header needs a line of code behind it, more deeply indented. The body
is spelled out as `pass` where its text is blank, which a body of comments is not:
so a header has its line of code exactly when its body does something or shows
nothing (`RenderStyle.blockAt_hasSuite`).
-/

namespace Pipewright

/-! ## Lines behind a header -/

def depth (line : List Char) : Nat := (line.takeWhile (· == '\t')).length

def isCode (line : List Char) : Bool := (line.dropWhile isBlank).head?.any (· != '#')

/-- A line of code that is deeper than `d`, before any line that shows and is not. -/
def HasSuite (d : Nat) (ls : List (List Char)) : Prop :=
  ∃ before line behind, ls = before ++ line :: behind ∧ d < depth line ∧ isCode line = true ∧
    ∀ l ∈ before, l.all isBlank = true ∨ d < depth l

section

variable {d : Nat} {line : List Char} {xs ys zs : List (List Char)}

theorem isCode_of_all_isBlank (h : line.all isBlank = true) : isCode line = false := by
  have hnil : line.dropWhile isBlank = [] := List.dropWhile_eq_nil_iff.mpr (List.all_eq_true.mp h)
  simp [isCode, hnil]

theorem not_hasSuite_nil : ¬HasSuite d [] := by
  rintro ⟨before, line, behind, h, -⟩
  simp at h

theorem hasSuite_cons : HasSuite d (line :: ys) ↔
    (d < depth line ∧ isCode line = true) ∨ (line.all isBlank = true ∨ d < depth line) ∧ HasSuite d ys := by
  constructor
  · rintro ⟨before, code, behind, hlist, hdeeper, hcode, hbefore⟩
    cases before with
    | nil =>
      obtain ⟨rfl, -⟩ := List.cons.inj hlist
      exact .inl ⟨hdeeper, hcode⟩
    | cons first before =>
      obtain ⟨rfl, rfl⟩ := List.cons.inj hlist
      obtain ⟨hfirst, hbefore⟩ := List.forall_mem_cons.mp hbefore
      exact .inr ⟨hfirst, before, code, behind, rfl, hdeeper, hcode, hbefore⟩
  · rintro (⟨hdeeper, hcode⟩ | ⟨hfirst, before, code, behind, rfl, hdeeper, hcode, hbefore⟩)
    · exact ⟨[], line, ys, rfl, hdeeper, hcode, by simp⟩
    · exact ⟨line :: before, code, behind, rfl, hdeeper, hcode, List.forall_mem_cons.mpr ⟨hfirst, hbefore⟩⟩

instance decidableHasSuite : ∀ ls, Decidable (HasSuite d ls)
  | [] => .isFalse not_hasSuite_nil
  | _ :: ys =>
    have := decidableHasSuite ys
    decidable_of_iff _ hasSuite_cons.symm

example : HasSuite 0 ["".toList, "\t# a remark".toList, "\tpass".toList] := by decide

theorem hasSuite_blank (h : line.all isBlank = true) : HasSuite d (line :: ys) ↔ HasSuite d ys := by
  rw [hasSuite_cons, isCode_of_all_isBlank h]
  simp [h]

/-- A line that shows and is not deeper ends the search. -/
theorem not_hasSuite_cons (h : line.all isBlank = false) (hd : depth line ≤ d) : ¬HasSuite d (line :: ys) := by
  rw [hasSuite_cons, h]
  simp [Nat.not_lt.mpr hd]

/-- Behind lines that are blank or deeper. -/
theorem hasSuite_append (h : ∀ l ∈ xs, l.all isBlank = true ∨ d < depth l) :
    HasSuite d (xs ++ ys) ↔ xs.any isCode = true ∨ HasSuite d ys := by
  induction xs with
  | nil => simp
  | cons line xs ih =>
    obtain ⟨hline, h⟩ := List.forall_mem_cons.mp h
    rw [List.cons_append, List.any_cons, Bool.or_eq_true]
    by_cases hblank : line.all isBlank = true
    · rw [hasSuite_blank hblank, ih h, isCode_of_all_isBlank hblank]
      simp
    · have hdeeper := hline.resolve_left hblank
      rw [hasSuite_cons, ih h]
      simp only [hdeeper, true_and, or_true, or_assoc]

theorem hasSuite_congr (h : HasSuite d ys ↔ HasSuite d zs) : HasSuite d (xs ++ ys) ↔ HasSuite d (xs ++ zs) := by
  induction xs with
  | nil => exact h
  | cons line xs ih => rw [List.cons_append, List.cons_append, hasSuite_cons, hasSuite_cons, ih]

end

/-! ## What a body holds -/

mutual

def Stmt.acts : Stmt → Bool
  | .act (.comment _) | .blank => false
  | .nested block _ => block.acts
  | _ => true

def Block.acts : Block → Bool
  | .mk _ stmts => anyActs stmts

def anyActs : List Stmt → Bool
  | [] => false
  | s :: rest => s.acts || anyActs rest

end

mutual

def Stmt.isSilent : Stmt → Bool
  | .act (.comment text) => (lines text).isEmpty
  | .blank => true
  | .nested block _ => block.isSilent
  | _ => false

def Block.isSilent : Block → Bool
  | .mk _ stmts => allSilent stmts

def allSilent : List Stmt → Bool
  | [] => true
  | s :: rest => s.isSilent && allSilent rest

end

/-! ## Texts on a line of their own -/

def Opens (text : String) : Prop := ∃ c ∈ text.toList.head?, isBlank c = false ∧ c ≠ '#'

theorem linesFrom_head {c : Char} (hc : c ≠ '\r') {run cs : List Char} (h : run.getLast? = some c) :
    ∃ line rest, linesFrom run cs = line :: rest ∧ line.head? = some c := by
  fun_induction linesFrom run cs with
  | case1 => simp at h
  | case2 run => exact ⟨_, _, rfl, by rwa [List.head?_reverse]⟩
  | case3 run rest =>
    refine ⟨_, _, rfl, ?_⟩
    cases run with
    | nil => exact absurd (by simpa using h.symm) hc
    | cons d run => rwa [List.head?_reverse, ← List.getLast?_cons_cons]
  | case4 run rest => exact ⟨_, _, rfl, by rwa [List.head?_reverse]⟩
  | case5 run d rest _ _ ih =>
    refine ih ?_
    cases run with
    | nil => simp at h
    | cons e run => rwa [List.getLast?_cons_cons]

/-- The line in front of a line feed, without a carriage return at its end. -/
theorem linesFrom_append {cs : List Char} (h : '\n' ∉ cs) (run rest : List Char) :
    ∃ line, linesFrom run (cs ++ '\n' :: rest) = line :: linesFrom [] rest ∧
      (run.reverse ++ cs = line ∨ run.reverse ++ cs = line ++ ['\r']) := by
  induction cs generalizing run with
  | nil =>
    rw [List.nil_append, List.append_nil]
    cases run with
    | nil => exact ⟨_, by rw [linesFrom]; simp, .inl rfl⟩
    | cons c run =>
      by_cases hc : c = '\r'
      · subst hc
        exact ⟨_, by rw [linesFrom], .inr (by simp)⟩
      · exact ⟨_, by rw [linesFrom]; simp [hc], .inl rfl⟩
  | cons c cs ih =>
    rw [List.mem_cons, not_or] at h
    have hstep : linesFrom run (c :: (cs ++ '\n' :: rest)) = linesFrom (c :: run) (cs ++ '\n' :: rest) := by
      cases run <;> simp [linesFrom, Ne.symm h.1]
    obtain ⟨line, hline, hends⟩ := ih h.2 (c :: run)
    refine ⟨line, by rw [List.cons_append, hstep, hline], ?_⟩
    simpa using hends

theorem linesFrom_intercalate {ps : List (List Char)} (h : ∀ p ∈ ps, '\n' ∉ p ∧ ∃ rest, p = '#' :: ' ' :: rest) :
    (linesFrom [] (['\n'].intercalate ps) = [] ↔ ps = []) ∧
      ∀ line ∈ linesFrom [] (['\n'].intercalate ps), line.head? = some '#' := by
  induction ps with
  | nil => exact ⟨by simp [linesFrom], by simp [linesFrom]⟩
  | cons p ps ih =>
    obtain ⟨⟨hp, rest, rfl⟩, htail⟩ := List.forall_mem_cons.mp h
    cases ps with
    | nil =>
      have hone := linesFrom_of_not_mem hp [] (.inr (by simp))
      simp only [List.intercalate_singleton, hone]
      exact ⟨by simp, by simp⟩
    | cons q ps =>
      obtain ⟨line, hline, hends⟩ := linesFrom_append hp [] (['\n'].intercalate (q :: ps))
      -- at most a carriage return is lost at the end of the line, never the mark at its start
      have hhead : line.head? = some '#' := by
        rcases hends with hends | hends
        · rw [← hends]
          rfl
        · cases line with
          | nil => simp at hends
          | cons c line =>
            obtain ⟨rfl, -⟩ := List.cons.inj hends
            rfl
      rw [List.intercalate_cons_of_ne_nil (by simp), List.append_assoc, List.singleton_append, hline]
      exact ⟨by simp, List.forall_mem_cons.mpr ⟨hhead, (ih htail).2⟩⟩

theorem lines_comment (text : String) : ((lines (Language.python.comment text)).isEmpty = (lines text).isEmpty) ∧
    ∀ line ∈ lines (Language.python.comment text), line.toList.head? = some '#' := by
  have hpieces : ∀ p ∈ ((lines text).map (Language.python.commentMark ++ ·)).map String.toList,
      '\n' ∉ p ∧ ∃ rest, p = '#' :: ' ' :: rest := by
    intro p hp
    obtain ⟨piece, hpiece, rfl⟩ := List.mem_map.mp hp
    obtain ⟨line, hline, rfl⟩ := List.mem_map.mp hpiece
    obtain ⟨cs, hcs, rfl⟩ := List.mem_map.mp hline
    have hplain := newline_not_mem_linesFrom (by simp) cs hcs
    rw [Language.commentMark, String.toList_append, String.toList_ofList]
    exact ⟨by simp [hplain], cs, by simp⟩
  obtain ⟨hnil, hhead⟩ := linesFrom_intercalate hpieces
  have htext : (Language.python.comment text).toList =
      ['\n'].intercalate (((lines text).map (Language.python.commentMark ++ ·)).map String.toList) := by
    rw [Language.comment, String.toList_intercalate]
    rfl
  rw [← htext] at hnil hhead
  constructor
  · rw [Bool.eq_iff_iff, List.isEmpty_iff, List.isEmpty_iff, lines, List.map_eq_nil_iff, hnil]
    simp
  · intro line hline
    obtain ⟨cs, hcs, rfl⟩ := List.mem_map.mp hline
    rw [String.toList_ofList]
    exact hhead cs hcs

/-! ## Indented lines -/

section

variable {n : Nat} {cs : List Char} {c : Char}

theorem toList_tabs_append (n : Nat) (text : String) :
    (tabs n ++ text).toList = List.replicate n '\t' ++ text.toList := by
  simp [tabs]

theorem le_depth (n : Nat) (cs : List Char) : n ≤ depth (List.replicate n '\t' ++ cs) := by
  rw [depth, List.takeWhile_append_of_pos (by simp), List.length_append, List.length_replicate]
  exact Nat.le_add_right _ _

theorem depth_indented (hc : isBlank c = false) (h : cs.head? = some c) : depth (List.replicate n '\t' ++ cs) = n := by
  obtain ⟨rest, rfl⟩ := List.head?_eq_some_iff.mp h
  have htab : (c == '\t') = false := by
    cases htab : c == '\t' with
    | false => rfl
    | true =>
      rw [beq_iff_eq.mp htab] at hc
      cases hc
  rw [depth, List.takeWhile_append_of_pos (by simp)]
  simp [htab]

theorem all_isBlank_indented (hc : isBlank c = false) (h : cs.head? = some c) :
    (List.replicate n '\t' ++ cs).all isBlank = false := by
  obtain ⟨rest, rfl⟩ := List.head?_eq_some_iff.mp h
  simp [hc]

theorem isCode_indented (hc : isBlank c = false) (h : cs.head? = some c) :
    isCode (List.replicate n '\t' ++ cs) = (c != '#') := by
  obtain ⟨rest, rfl⟩ := List.head?_eq_some_iff.mp h
  have htabs : ∀ t ∈ List.replicate n '\t', isBlank t = true := by
    intro t ht
    rw [List.eq_of_mem_replicate ht]
    rfl
  rw [isCode, List.dropWhile_append_of_pos htabs, List.dropWhile_cons_of_neg (by simp [hc])]
  rfl

end

/-! ## Rows at an indentation -/

/-- What the headers among some rows promise, if the lines `ys` are behind them: code in the body, or nothing to show
there. -/
def Suited : List Row → List (List Char) → Prop
  | [], _ => True
  | r :: rest, ys =>
    (∀ s, r.stmt? = some s → ∀ body, s.body? = some body →
      (HasSuite (depth r.chars) (chars rest ++ ys) ↔ body.acts = true ∨ body.isSilent = true)) ∧ Suited rest ys

section

variable {n : Nat} {rows rows' : List Row} {ys zs : List (List Char)}

theorem suited_append : Suited (rows ++ rows') ys ↔ Suited rows (chars rows' ++ ys) ∧ Suited rows' ys := by
  induction rows with
  | nil => simp [Suited]
  | cons r rows ih =>
    have hbehind : chars (rows ++ rows') ++ ys = chars rows ++ (chars rows' ++ ys) := by simp [chars]
    rw [List.cons_append, Suited, Suited, ih, hbehind, and_assoc]

theorem Suited.congr (h : Suited rows ys) (hsame : ∀ d, HasSuite d ys ↔ HasSuite d zs) : Suited rows zs := by
  induction rows with
  | nil => trivial
  | cons r rows ih =>
    refine ⟨fun s hs body hbody => ?_, ih h.2⟩
    rw [← h.1 s hs body hbody]
    exact (hasSuite_congr (hsame _)).symm

theorem suited_of_none (h : ∀ r ∈ rows, r.stmt? = none) : Suited rows ys := by
  induction rows with
  | nil => trivial
  | cons r rows ih =>
    obtain ⟨hr, h⟩ := List.forall_mem_cons.mp h
    exact ⟨fun s hs => by simp [hr] at hs, ih h⟩

/-- The rows of statements at indentation `n`. Behind them nothing is deeper than `n` than was before. -/
structure Laid (n : Nat) (acts silent : Bool) (rows : List Row) : Prop where
  level : ∀ d, n ≤ d → ∀ ys, ¬HasSuite d ys → ¬HasSuite d (chars rows ++ ys)
  deep : ∀ r ∈ rows, r.chars.all isBlank = true ∨ n ≤ depth r.chars
  acts_eq : rows.any (isCode ·.chars) = acts
  silent_eq : rows.all (·.chars.all isBlank) = silent
  suited : ∀ ys, (∀ d, n ≤ d → ¬HasSuite d ys) → Suited rows ys

namespace Laid

variable {a a' b b' : Bool}

theorem empty : Laid n false true [] :=
  ⟨fun _ _ _ h => h, by simp, rfl, rfl, fun _ _ => trivial⟩

theorem blank : Laid n false true [{ chars := [] }] where
  level d _ ys h := by
    have hskip : HasSuite d ([] :: ys) ↔ HasSuite d ys := hasSuite_blank rfl
    exact mt hskip.mp h
  deep := by simp
  acts_eq := rfl
  silent_eq := rfl
  suited _ _ := suited_of_none (by simp)

theorem append (h : Laid n a b rows) (h' : Laid n a' b' rows') : Laid n (a || a') (b && b') (rows ++ rows') where
  level d hd ys hys := by
    have hnext := h.level d hd _ (h'.level d hd ys hys)
    simpa [chars] using hnext
  deep r hr := (List.mem_append.mp hr).elim (h.deep r) (h'.deep r)
  acts_eq := by rw [List.any_append, h.acts_eq, h'.acts_eq]
  silent_eq := by rw [List.all_append, h.silent_eq, h'.silent_eq]
  suited ys hys := suited_append.mpr
    ⟨h.suited _ fun d hd => h'.level d hd ys (hys d hd), h'.suited ys hys⟩

/-- The first row shows and is at the indentation itself. -/
theorem of_first {r : Row} (hshows : r.chars.all isBlank = false) (hdepth : depth r.chars = n)
    (hdeep : ∀ r ∈ rows, r.chars.all isBlank = true ∨ n ≤ depth r.chars) (hnone : ∀ r' ∈ r :: rows, r'.stmt? = none) :
    Laid n ((r :: rows).any (isCode ·.chars)) false (r :: rows) where
  level d hd ys _ := not_hasSuite_cons hshows (hdepth ▸ hd)
  deep := List.forall_mem_cons.mpr ⟨.inr (Nat.le_of_eq hdepth.symm), hdeep⟩
  acts_eq := rfl
  silent_eq := by rw [List.all_cons, hshows, Bool.false_and]
  suited _ _ := suited_of_none hnone

end Laid

theorem deep_textRows (text : String) : ∀ r ∈ textRows n text, r.chars.all isBlank = true ∨ n ≤ depth r.chars := by
  intro r hr
  obtain ⟨line, -, rfl⟩ := List.mem_map.mp hr
  by_cases h : line.isEmpty = true
  · exact .inl (by simp [h])
  · right
    simp only [h]
    exact toList_tabs_append n line ▸ le_depth n _

/-- A line that is not empty stands behind the tabs. -/
theorem textRows_cons {text line : String} {rest : List String} {c : Char} (h : lines text = line :: rest)
    (hline : line.toList.head? = some c) : ∃ rows, textRows n text =
      { chars := List.replicate n '\t' ++ line.toList } :: rows := by
  have hfilled : line.isEmpty = false := by
    rw [isEmpty_eq]
    obtain ⟨cs, hcs⟩ := List.head?_eq_some_iff.mp hline
    rw [hcs]
    rfl
  rw [textRows, h, List.map_cons, hfilled, toList_tabs_append]
  exact ⟨_, rfl⟩

theorem laid_text {text : String} (h : Opens text) : Laid n true false (textRows n text) := by
  obtain ⟨c, hhead, hblank, hcomment⟩ := h
  obtain ⟨cs, hcs⟩ := List.head?_eq_some_iff.mp (Option.mem_def.mp hhead)
  have hfeed : c ≠ '\n' := by rintro rfl; cases hblank
  have hreturn : c ≠ '\r' := by rintro rfl; cases hblank
  obtain ⟨line, rest, hlines, hline⟩ : ∃ line rest, linesFrom [c] cs = line :: rest ∧ line.head? = some c :=
    linesFrom_head hreturn rfl
  have hstart : lines text = String.ofList line :: rest.map String.ofList := by
    have hstep : linesFrom [] (c :: cs) = linesFrom [c] cs := by simp [linesFrom]
    rw [lines, hcs, hstep, hlines, List.map_cons]
  have hhead : (String.ofList line).toList.head? = some c := by rwa [String.toList_ofList]
  obtain ⟨rows, hrows⟩ := textRows_cons (n := n) hstart hhead
  have hdeep := deep_textRows (n := n) text
  have hnone := stmt?_textRows (n := n) text
  rw [hrows] at hdeep hnone ⊢
  have hlaid := Laid.of_first (all_isBlank_indented hblank hhead) (depth_indented hblank hhead)
    (List.forall_mem_cons.mp hdeep).2 hnone
  have hcode : (c != '#') = true := by simpa using hcomment
  rwa [List.any_cons, isCode_indented hblank hhead, hcode, Bool.true_or] at hlaid

theorem laid_comment (text : String) :
    Laid n false (lines text).isEmpty (textRows n (Language.python.comment text)) := by
  obtain ⟨hempty, hhash⟩ := lines_comment text
  rw [← hempty]
  cases hlines : lines (Language.python.comment text) with
  | nil =>
    rw [textRows, hlines]
    exact .empty
  | cons line rest =>
    have hhead := hhash line (hlines ▸ List.mem_cons_self)
    have hdeep := deep_textRows (n := n) (Language.python.comment text)
    have hnone := stmt?_textRows (n := n) (Language.python.comment text)
    have hremarks : (textRows n (Language.python.comment text)).any (isCode ·.chars) = false := by
      refine List.any_eq_false.mpr fun r hr => ?_
      obtain ⟨line, hline, rfl⟩ := List.mem_map.mp hr
      have hhead := hhash line hline
      by_cases hempty : line.isEmpty = true
      · simp [hempty, isCode]
      · simp only [hempty, Bool.false_eq_true, if_false]
        rw [toList_tabs_append, isCode_indented (by decide) hhead]
        simp
    obtain ⟨rows, hrows⟩ := textRows_cons (n := n) hlines hhead
    rw [hrows] at hdeep hnone hremarks ⊢
    have hlaid := Laid.of_first (all_isBlank_indented (by decide) hhead) (depth_indented (by decide) hhead)
      (List.forall_mem_cons.mp hdeep).2 hnone
    rwa [hremarks] at hlaid

theorem hasSuite_blanks {d : Nat} {xs : List (List Char)} (h : ∀ l ∈ xs, l.all isBlank = true) :
    HasSuite d (xs ++ ys) ↔ HasSuite d ys := by
  induction xs with
  | nil => rfl
  | cons line xs ih =>
    obtain ⟨hline, h⟩ := List.forall_mem_cons.mp h
    rw [List.cons_append, hasSuite_blank hline, ih h]

/-- The rows of a body in its block: `pass` is code, and empty rows at the end are not missed. -/
theorem laid_suiteRows {a b : Bool} (h : Laid (n + 1) a b rows) :
    (∀ r ∈ suiteRows n rows, r.chars.all isBlank = true ∨ n < depth r.chars) ∧
      (suiteRows n rows).any (isCode ·.chars) = (a || b) ∧
      ∀ ys, (∀ d, n + 1 ≤ d → ¬HasSuite d ys) → Suited (suiteRows n rows) ys := by
  cases b with
  | true =>
    have hpass : (tabs n ++ "\tpass").toList = List.replicate (n + 1) '\t' ++ ['p', 'a', 's', 's'] := by
      rw [toList_tabs_append, List.replicate_succ', List.append_assoc]
      rfl
    have hblank : isBlank 'p' = false := by decide
    have hhead : ['p', 'a', 's', 's'].head? = some 'p' := rfl
    have hdepth := depth_indented (n := n + 1) hblank hhead
    have hcode := isCode_indented (n := n + 1) hblank hhead
    rw [suiteRows, h.silent_eq, if_pos rfl, hpass]
    refine ⟨fun r hr => .inr ?_, ?_, fun ys _ => suited_of_none (by simp)⟩
    · rw [List.mem_singleton.mp hr, hdepth]
      exact Nat.lt_succ_self n
    · rw [List.any_cons, hcode]
      simp
  | false =>
    obtain ⟨dropped, hcut, hdropped⟩ := suiteRows_cut (n := n) h.silent_eq
    generalize suiteRows n rows = kept at hcut ⊢
    subst hcut
    refine ⟨fun r hr => h.deep r (List.mem_append_left _ hr), ?_, fun ys hys => ?_⟩
    · have hnone : dropped.any (isCode ·.chars) = false :=
        List.any_eq_false.mpr fun r hr => by simp [hdropped r hr, isCode]
      rw [← h.acts_eq, List.any_append, hnone, Bool.or_false, Bool.or_false]
    · have hkept := (suited_append.mp (h.suited ys hys)).1
      refine hkept.congr fun d => hasSuite_blanks fun l hl => ?_
      obtain ⟨r, hr, rfl⟩ := List.mem_map.mp hl
      rw [hdropped r hr]
      rfl

theorem laid_block {style : RenderStyle} {s : Stmt} {body : Block} (hbody : s.body? = some body)
    (hopens : Opens (trim (style.heading s) ++ ":")) (h : Laid (n + 1) body.acts body.isSilent rows) :
    Laid n true false (style.headerRow n s :: suiteRows n rows) := by
  obtain ⟨hdeep, hcode, hsuited⟩ := laid_suiteRows h
  obtain ⟨c, hhead, hblank, hcomment⟩ := hopens
  have hchars : (style.headerRow n s).chars = List.replicate n '\t' ++ (trim (style.heading s) ++ ":").toList :=
    toList_tabs_append n _
  have hshows : (style.headerRow n s).chars.all isBlank = false := by
    rw [hchars]
    exact all_isBlank_indented hblank hhead
  have hdepth : depth (style.headerRow n s).chars = n := by
    rw [hchars]
    exact depth_indented hblank hhead
  have hheader : isCode (style.headerRow n s).chars = true := by
    rw [hchars, isCode_indented hblank hhead]
    simpa using hcomment
  have hlines : ∀ l ∈ chars (suiteRows n rows), l.all isBlank = true ∨ n < depth l := by
    intro l hl
    obtain ⟨r, hr, rfl⟩ := List.mem_map.mp hl
    exact hdeep r hr
  -- all that the body shows is deeper, so a suite behind it is no suite of the header unless one is in the body
  have hsuite : ∀ ys, ¬HasSuite n ys →
      (HasSuite n (chars (suiteRows n rows) ++ ys) ↔ body.acts = true ∨ body.isSilent = true) := by
    intro ys hys
    have hany : (chars (suiteRows n rows)).any isCode = (suiteRows n rows).any (isCode ·.chars) := by
      rw [chars, List.any_map]
      rfl
    rw [hasSuite_append hlines, or_iff_left hys, hany, hcode, Bool.or_eq_true]
  refine ⟨fun d hd ys _ => not_hasSuite_cons hshows (by rw [hdepth]; exact hd), ?_, ?_, ?_, fun ys hys => ?_⟩
  · exact List.forall_mem_cons.mpr ⟨.inr (Nat.le_of_eq hdepth.symm), fun r hr => (hdeep r hr).imp_right Nat.le_of_lt⟩
  · rw [List.any_cons, hheader, Bool.true_or]
  · rw [List.all_cons, hshows, Bool.false_and]
  · rw [Suited]
    refine ⟨fun s' hs' body' hbody' => ?_, hsuited ys fun d hd => hys d (Nat.le_of_succ_le hd)⟩
    obtain rfl : s = s' := Option.some.inj hs'
    obtain rfl : body = body' := Option.some.inj (hbody.symm.trans hbody')
    rw [hdepth]
    exact hsuite ys (hys n (Nat.le_refl n))

end

/-! ## Statements whose text is a line of code -/

theorem Opens.of_prefix {a b : String} (h : Opens a) (hfront : a.toList <+: b.toList) : Opens b := by
  obtain ⟨c, hhead, hblank, hcomment⟩ := h
  obtain ⟨cs, hcs⟩ := List.head?_eq_some_iff.mp (Option.mem_def.mp hhead)
  obtain ⟨rest, hrest⟩ := hfront
  refine ⟨c, ?_, hblank, hcomment⟩
  rw [← hrest, hcs]
  rfl

theorem opens_trim {text : String} (h : Opens text) : Opens (trim text ++ ":") := by
  obtain ⟨c, hhead, hblank, hcomment⟩ := h
  obtain ⟨cs, hcs⟩ := List.head?_eq_some_iff.mp (Option.mem_def.mp hhead)
  refine ⟨c, ?_, hblank, hcomment⟩
  have hkeep : ∃ rest, dropTail isBlank (c :: cs) = c :: rest := by
    rw [dropTail, List.reverse_cons, List.dropWhile_append]
    split
    · exact ⟨[], by simp [hblank]⟩
    · exact ⟨_, by rw [List.reverse_append, List.reverse_singleton, List.singleton_append]⟩
  obtain ⟨rest, hrest⟩ := hkeep
  rw [String.toList_append, trim, String.toList_ofList, hcs, List.dropWhile_cons_of_neg (by simp [hblank]), hrest]
  rfl

namespace RenderStyle

variable {style : RenderStyle}

/-- What a statement spells, unless it is a comment, starts with neither white space nor a comment mark. -/
def Plain (style : RenderStyle) : Stmt → Prop
  | .act (.comment _) => True
  | s@(.act _) | s@(.instanceVariable ..) | s@(.localVariable ..) => ∀ text ∈ style.spelled s, Opens text
  | _ => True

theorem opens_heading (hl : style.language = .python) {s : Stmt} (hs : s.body?.isSome)
    (hnest : ∀ block indent, s ≠ .nested block indent) : Opens (trim (style.heading s) ++ ":") := by
  obtain ⟨l, preview⟩ := style
  obtain rfl : l = .python := hl
  have hnone : Opens (trim "" ++ ":") := ⟨':', by decide, by decide, by decide⟩
  have hkeyword (word : String) (hopens : Opens word) (h : word.toList <+: (heading ⟨.python, preview⟩ s).toList) :
      Opens (trim (heading ⟨.python, preview⟩ s) ++ ":") := opens_trim (hopens.of_prefix h)
  cases s with
  | ifThen condition =>
    refine hkeyword "if " ⟨'i', by decide, by decide, by decide⟩ ?_
    simp only [heading, spelled, Language.ifHeader, List.headD_cons, toString, String.toList_append, List.prefix_append]
  | whileLoop condition =>
    refine hkeyword "while " ⟨'w', by decide, by decide, by decide⟩ ?_
    simp only [heading, spelled, Language.whileHeader, List.headD_cons, toString, String.toList_append,
      List.prefix_append]
  | forLoop var start limit step =>
    refine hkeyword "for " ⟨'f', by decide, by decide, by decide⟩ ?_
    rw [heading, spelled, List.headD_cons]
    unfold Language.forHeader
    simp only [toString, String.toList_append, List.append_assoc, List.prefix_append]
  | foreach var iterable =>
    refine hkeyword "for " ⟨'f', by decide, by decide, by decide⟩ ?_
    simp only [heading, spelled, Language.foreachHeader, List.headD_cons, toString, String.toList_append,
      List.append_assoc, List.prefix_append]
  | method signature =>
    refine hkeyword "def " ⟨'d', by decide, by decide, by decide⟩ ?_
    simp only [heading, spelled, Language.methodHeader, Option.toList_none, List.nil_append, List.headD_cons, toString,
      String.toList_append, List.append_assoc, List.prefix_append]
  | constructor visibility className parameters body =>
    have hempty : heading ⟨.python, preview⟩ (.constructor visibility className parameters body) = "" := by
      simp [heading, spelled, Language.constructorHeader, Except.toOption]
    rw [hempty]
    exact hnone
  | cls signature body =>
    have hempty : heading ⟨.python, preview⟩ (.cls signature body) = "" := by
      simp [heading, spelled, Language.classHeader, Except.toOption]
    rw [hempty]
    exact hnone
  | nested block indent => exact absurd rfl (hnest block indent)
  | _ => cases hs

theorem laid_action (hl : style.language = .python) {a : Action} (hplain : style.Plain (.act a)) (n : Nat) :
    Laid n (Stmt.act a).acts (Stmt.act a).isSilent (textRows n (style.language.actionText a)) := by
  obtain ⟨l, preview⟩ := style
  obtain rfl : l = .python := hl
  have hopens : (∀ text, a ≠ .comment text) → Opens (Language.python.actionText a) := by
    intro hne
    cases a with
    | comment text => exact absurd rfl (hne text)
    | _ => exact hplain _ (List.mem_singleton.mpr rfl)
  cases a with
  | comment text => exact laid_comment text
  | _ => exact laid_text (hopens (by simp))

mutual

theorem laid_stmt (hl : style.language = .python) : ∀ (s : Stmt), style.StmtLevel s →
    (∀ t ∈ s.preorder, style.Plain t) → ∀ n, Laid n s.acts s.isSilent (style.stmtRows n s)
  | .instanceVariable visibility var label modifiers, _, hplain, n => by
    obtain ⟨l, preview⟩ := style
    obtain rfl : l = .python := hl
    have hopens := hplain _ (List.mem_singleton.mpr rfl) _ (List.mem_singleton.mpr rfl)
    rw [stmtRows]
    simpa [spelled, Language.instanceVariable, Stmt.acts, Stmt.isSilent] using laid_text (n := n) hopens
  | .localVariable var isFinal, _, hplain, n => by
    have hopens := hplain _ (List.mem_singleton.mpr rfl) _ (List.mem_singleton.mpr rfl)
    rw [stmtRows]
    simpa [spelled, Stmt.acts, Stmt.isSilent] using laid_text (n := n) hopens
  | .act a, _, hplain, n => by
    rw [stmtRows, spelled, List.flatMap_singleton]
    exact laid_action hl (hplain _ (List.mem_singleton.mpr rfl)) n
  | .ret value, _, hplain, n => by
    have hword : Opens "return" := ⟨'r', by decide, by decide, by decide⟩
    have hopens : Opens (style.language.returnLine value) := hword.of_prefix (by
      cases value <;> simp [Language.returnLine, toString])
    rw [stmtRows]
    simpa [spelled, Stmt.acts, Stmt.isSilent] using laid_text (n := n) hopens
  | .blank, _, _, n => by
    rw [stmtRows]
    exact .blank
  | .nested block at_, hlevel, hplain, n => by
    rw [stmtRows, hlevel.1]
    exact laid_blockAt hl block hlevel.2 (List.forall_mem_cons.mp hplain).2 n
  | .ifThen _ body, hlevel, hplain, n | .whileLoop _ body, hlevel, hplain, n | .forLoop _ _ _ _ body, hlevel, hplain, n
  | .foreach _ _ body, hlevel, hplain, n | .method _ body, hlevel, hplain, n
  | .constructor _ _ _ body, hlevel, hplain, n | .cls _ body, hlevel, hplain, n => by
    rw [stmtRows]
    exact laid_block rfl (opens_heading hl rfl (by simp))
      (laid_blockAt hl body hlevel.2 (List.forall_mem_cons.mp hplain).2 (n + 1))

theorem laid_blockAt (hl : style.language = .python) : ∀ (b : Block), style.BlockLevel b →
    (∀ t ∈ b.preorder, style.Plain t) → ∀ n, Laid n b.acts b.isSilent (style.blockRows n b)
  | .mk _ stmts, hlevel, hplain, n => by
    rw [blockRows]
    exact laid_rowsFrom hl stmts hlevel hplain .empty

theorem laid_rowsFrom (hl : style.language = .python) : ∀ (stmts : List Stmt), style.StmtsLevel stmts →
    (∀ t ∈ preorders stmts, style.Plain t) → ∀ {n : Nat} {rows : List Row} {a b : Bool}, Laid n a b rows →
      Laid n (a || anyActs stmts) (b && allSilent stmts) (style.rowsFrom n rows stmts)
  | [], _, _, n, rows, a, b, h => by
    rw [rowsFrom, anyActs, allSilent, Bool.or_false, Bool.and_true]
    exact h
  | s :: rest, hlevel, hplain, n, rows, a, b, h => by
    rw [preorders, List.forall_mem_append] at hplain
    -- a line may be left free in front of a declaration, depending on the text so far
    have hgap : ∀ gap : Bool, Laid n false true (if gap then [{ chars := [] }] else []) := by
      intro gap
      cases gap
      · exact .empty
      · exact .blank
    have hfirst : ∀ gap : Bool, Laid n (a || s.acts) (b && s.isSilent)
        (rows ++ (if gap then [{ chars := [] }] else []) ++ style.stmtRows n s) := fun gap => by
      simpa only [Bool.or_false, Bool.and_true] using (h.append (hgap gap)).append (laid_stmt hl s hlevel.1 hplain.1 n)
    rw [rowsFrom, anyActs, allSilent, ← Bool.or_assoc, ← Bool.and_assoc]
    exact laid_rowsFrom hl rest hlevel.2 hplain.2 (hfirst _)

end

/-- In the text of a block each header is a line, in the order of the statements, and a line of code of the body stands
behind it exactly when the body does something or shows nothing. -/
theorem blockAt_hasSuite (hl : style.language = .python) {b : Block} (hlevel : style.BlockLevel b)
    (hplain : ∀ t ∈ b.preorder, style.Plain t) {n : Nat} {text : String} (h : (style.blockAt n b).result = .ok text) :
    text.toList.splitOn '\n' = chars (style.blockRows n b) ++ [[]] ∧
      Heads style (style.blockRows n b) (b.preorder.filter Stmt.opensBlock) ∧
      ∀ before head after s body, style.blockRows n b = before ++ head :: after → head.stmt? = some s →
        s.body? = some body →
          (HasSuite (depth head.chars) (chars after) ↔ body.acts = true ∨ body.isSilent = true) := by
  refine ⟨(isText_blockAt hl b hlevel h).splitOn_eq, heads_blockAt b n, ?_⟩
  intro before head after s body hrows hs hbody
  have hsuited := (laid_blockAt hl b hlevel hplain n).suited [] fun d _ => not_hasSuite_nil
  rw [hrows, suited_append, Suited] at hsuited
  have hhead := hsuited.2.1 s hs body hbody
  rwa [List.append_nil] at hhead

def remarked : Block :=
  .mk 0 [.ifThen (Language.python.boolean true) (.mk 1 [.act (.comment "later")]),
    .whileLoop (.raw "waiting()") (.mk 1 [])]

theorem blockAt_hasSuite_remarked :
    ((⟨.python, false⟩ : RenderStyle).blockAt 0 remarked).result =
        .ok "if True:\n\t# later\nwhile waiting():\n\tpass\n" ∧
      ¬HasSuite 0 ["\t# later".toList, "while waiting():".toList, "\tpass".toList] ∧
      HasSuite 0 ["\tpass".toList] := by
  have hresult : ((⟨.python, false⟩ : RenderStyle).blockAt 0 remarked).result =
      .ok "if True:\n\t# later\nwhile waiting():\n\tpass\n" := by rfl
  have hheader : ∀ {s : Stmt} (line : String),
      ((⟨.python, false⟩ : RenderStyle).header 0 s).result.map Prod.snd = .ok line → '\n' ∉ line.toList →
        (⟨.python, false⟩ : RenderStyle).HeaderOnLine s := by
    intro s line hs hline head hhead
    rw [hhead] at hs
    rwa [Except.ok.inj hs]
  have hlevel : (⟨.python, false⟩ : RenderStyle).BlockLevel remarked :=
    ⟨⟨hheader "if True" rfl (by decide), trivial, trivial⟩, ⟨hheader "while waiting()" rfl (by decide), trivial⟩,
      trivial⟩
  have hplain : ∀ t ∈ remarked.preorder, (⟨.python, false⟩ : RenderStyle).Plain t := by
    intro t ht
    simp only [remarked, Block.preorder, preorders, Stmt.preorder, List.append_nil, List.cons_append, List.nil_append,
      List.mem_cons, List.not_mem_nil, or_false] at ht
    rcases ht with rfl | rfl | rfl <;> trivial
  obtain ⟨-, -, hsuites⟩ := blockAt_hasSuite rfl hlevel hplain hresult
  refine ⟨hresult, ?_, ?_⟩
  · have hif := hsuites [] _ _ _ _ rfl rfl rfl
    exact mt hif.mp (by decide)
  · have hwhile := hsuites [_, _] _ _ _ _ rfl rfl rfl
    exact hwhile.mpr (.inr rfl)

end RenderStyle

end Pipewright
