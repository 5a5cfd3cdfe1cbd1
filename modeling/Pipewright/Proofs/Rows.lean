import Mathlib.Data.List.DropRight
import Pipewright.Proofs.Spelling

/-!
# Rows of a rendering

In Python a block has no delimiters, so the text of a block is told apart into
rows: a row is a line, with the statement whose header it is
(`RenderStyle.blockRows`). The rows are the lines of the text
(`RenderStyle.isText_blockAt`), and each header has its row, in the order of the
statements (`RenderStyle.heads_blockAt`).
-/

namespace Pipewright

/-! ## Rows -/

structure Row where
  chars : List Char
  /-- The statement whose header the line is. -/
  stmt? : Option Stmt := none

def chars (rows : List Row) : List (List Char) := rows.map Row.chars

def textRows (n : Nat) (text : String) : List Row :=
  (lines text).map fun line => { chars := if line.isEmpty then [] else (tabs n ++ line).toList }

def suiteRows (n : Nat) (rows : List Row) : List Row :=
  if rows.all (·.chars.all isBlank) then [{ chars := (tabs n ++ "\tpass").toList }]
  else rows.rdropWhile (·.chars.isEmpty)

namespace RenderStyle

variable (style : RenderStyle)

def heading (s : Stmt) : String := (style.spelled s).headD ""

def headerRow (n : Nat) (s : Stmt) : Row :=
  { chars := (tabs n ++ (trim (style.heading s) ++ ":")).toList, stmt? := some s }

mutual

/-- The rows of a statement where blocks have no delimiter. -/
def stmtRows (n : Nat) : Stmt → List Row
  | s@(.instanceVariable ..) | s@(.localVariable ..) | s@(.act _) | s@(.ret _) => (style.spelled s).flatMap (textRows n)
  | .blank => [{ chars := [] }]
  | .nested block at_ => blockRows (at_.getD n) block
  | s@(.ifThen _ body) | s@(.whileLoop _ body) | s@(.forLoop _ _ _ _ body) | s@(.foreach _ _ body)
  | s@(.method _ body) | s@(.constructor _ _ _ body) | s@(.cls _ body) =>
    style.headerRow n s :: suiteRows n (blockRows (n + 1) body)

def blockRows (n : Nat) : Block → List Row
  | .mk _ stmts => rowsFrom n [] stmts

def rowsFrom (n : Nat) (out : List Row) : List Stmt → List Row
  | [] => out
  | s :: rest =>
    let gap := s.isDeclarationBlock && lacksBlankLine (String.ofList (unlines (chars out)))
    rowsFrom n (out ++ (if gap then [{ chars := [] }] else []) ++ stmtRows n s) rest

end

end RenderStyle

/-! ## Rows are the lines of the text -/

structure IsText (rows : List Row) (text : String) : Prop where
  toList_eq : text.toList = unlines (chars rows)
  onLine : ∀ r ∈ rows, '\n' ∉ r.chars

theorem isText_textRows (n : Nat) (text : String) : IsText (textRows n text) (indentLines n text) where
  toList_eq := by
    unfold indentLines textRows chars
    rw [List.map_map]
    induction lines text with
    | nil => rfl
    | cons line ls ih =>
      rw [List.map_cons, String.join_cons, String.toList_append, ih, List.map_cons, unlines_cons]
      by_cases h : line = "" <;> simp [h]
  onLine r hr := by
    obtain ⟨line, hline, rfl⟩ := List.mem_map.mp hr
    obtain ⟨cs, hcs, rfl⟩ := List.mem_map.mp hline
    have hplain := newline_not_mem_linesFrom (by simp) cs hcs
    by_cases h : (String.ofList cs).isEmpty <;> simp [h, hplain, newline_not_mem_tabs]

namespace IsText

variable {rows rows' : List Row} {text text' : String}

theorem append (h : IsText rows text) (h' : IsText rows' text') : IsText (rows ++ rows') (text ++ text') where
  toList_eq := by simp [chars, h.toList_eq, h'.toList_eq]
  onLine r hr := (List.mem_append.mp hr).elim (h.onLine r) (h'.onLine r)

theorem empty : IsText [] "" := ⟨rfl, by simp⟩

theorem newline : IsText [{ chars := [] }] "\n" := ⟨rfl, by simp⟩

theorem line {r : Row} (hr : r.chars = text.toList) (h : '\n' ∉ text.toList) : IsText [r] (text ++ "\n") where
  toList_eq := by simp [chars, hr]
  onLine r' hr' := by rwa [List.mem_singleton.mp hr', hr]

theorem ofList_eq (h : IsText rows text) : String.ofList (unlines (chars rows)) = text := by
  rw [← h.toList_eq, String.ofList_toList]

theorem isBlankText_eq (h : IsText rows text) : isBlankText text = rows.all (·.chars.all isBlank) := by
  rw [isBlankText, h.toList_eq, unlines, List.all_flatMap, chars, List.all_map]
  refine congrArg (fun p => rows.all p) (funext fun r => ?_)
  simp [isBlank]

/-- The rows are the lines, an empty one behind the last newline apart. -/
theorem splitOn_eq (h : IsText rows text) : text.toList.splitOn '\n' = chars rows ++ [[]] := by
  rw [h.toList_eq]
  refine splitOn_unlines fun l hl => ?_
  obtain ⟨r, hr, rfl⟩ := List.mem_map.mp hl
  exact h.onLine r hr

end IsText

theorem isText_withoutTail {rows : List Row} {text : String} (h : IsText rows text)
    (hne : rows.all (·.chars.all isBlank) = false) :
    IsText (rows.rdropWhile (·.chars.isEmpty)) (Language.withoutTail text ++ "\n") where
  toList_eq := by
    rw [String.toList_append, Language.withoutTail, String.toList_ofList, h.toList_eq]
    replace h := h.onLine
    induction rows using List.reverseRecOn with
    | nil => simp at hne
    | append_singleton rows r ih =>
      have hr := h r (by simp)
      by_cases hempty : r.chars.isEmpty = true
      · have hnil : r.chars = [] := List.isEmpty_iff.mp hempty
        rw [List.rdropWhile_concat_pos _ _ r hempty, ← ih (by simpa [hnil] using hne) fun r hr => h r (by simp [hr])]
        simp [chars, hnil]
      · rw [List.rdropWhile_concat_neg _ _ r hempty, chars, List.map_append, List.map_singleton]
        exact dropTail_unlines_concat (by simpa using hempty) hr _
  onLine r hr := h.onLine r ((List.rdropWhile_prefix _ rows).subset hr)

namespace RenderStyle

variable {style : RenderStyle} {n : Nat}

theorem header_python (hl : style.language = .python) {s : Stmt} (hs : s.body?.isSome)
    (hnest : ∀ block indent, s ≠ .nested block indent) {head : String × String}
    (h : (style.header n s).result = .ok head) : head = ("", style.heading s) := by
  obtain ⟨l, preview⟩ := style
  obtain rfl : l = .python := hl
  cases s with
  | ifThen | whileLoop | forLoop | foreach | method => exact (Except.ok.inj h).symm
  | constructor | cls => cases h
  | nested block indent => exact absurd rfl (hnest block indent)
  | _ => cases hs

theorem isText_block {s : Stmt} (hline : '\n' ∉ (style.heading s).toList) {rows : List Row} {body : String}
    (h : IsText rows body) : IsText (style.headerRow n s :: suiteRows n rows)
      (Language.python.block (style.heading s) body n ++ "\n") := by
  have htrim : '\n' ∉ (trim (style.heading s)).toList := fun hm => hline (mem_of_mem_trim hm)
  have hheader : IsText [style.headerRow n s] (tabs n ++ (trim (style.heading s) ++ ":") ++ "\n") :=
    .line rfl (by simp [htrim, newline_not_mem_tabs])
  have hcolon : ":\n" = ":" ++ "\n" := by decide
  unfold suiteRows
  rw [← h.isBlankText_eq, Language.block]
  by_cases hblank : isBlankText body = true
  · have hpass : IsText [{ chars := (tabs n ++ "\tpass").toList }] (tabs n ++ "\tpass" ++ "\n") :=
      .line rfl (by simp [newline_not_mem_tabs])
    simpa only [hblank, if_true, hcolon, String.append_assoc, List.singleton_append] using hheader.append hpass
  · have hrest := isText_withoutTail h (h.isBlankText_eq ▸ by simpa using hblank)
    simpa only [hblank, if_false, Bool.false_eq_true, hcolon, String.append_assoc, List.singleton_append]
      using hheader.append hrest

/-- A statement with a header, once its body is known to be made of these rows. -/
theorem isText_withBody (hl : style.language = .python) {s : Stmt} (hs : s.body?.isSome)
    (hnest : ∀ block indent, s ≠ .nested block indent) (hline : style.HeaderOnLine s) {rows : List Row}
    {x : Rendered String} (hx : ∀ body, x.result = .ok body → IsText rows body) {text : String}
    (h : (style.header n s >>= fun head => x >>= fun body => pure (style.withBody n head body)).result = .ok text) :
    IsText (style.headerRow n s :: suiteRows n rows) text := by
  rw [Rendered.bind_ok] at h
  obtain ⟨head, hhead, h⟩ := h
  rw [Rendered.bind_ok] at h
  obtain ⟨body, hbody, h⟩ := h
  obtain rfl := Rendered.pure_ok.mp h
  have honLine := style.newline_not_mem_header hline n head hhead
  obtain rfl := header_python hl hs hnest hhead
  have hblock := isText_block (n := n) honLine (hx body hbody)
  rw [withBody, hl]
  simpa using hblock

mutual

theorem isText_stmt (hl : style.language = .python) : ∀ (s : Stmt), style.StmtLevel s → ∀ {n : Nat} {text : String},
    (style.stmt n s).result = .ok text → IsText (style.stmtRows n s) text
  | .instanceVariable visibility var label modifiers, _, n, text, h => by
    obtain ⟨l, preview⟩ := style
    obtain rfl : l = .python := hl
    rw [stmt] at h
    obtain rfl := Except.ok.inj h
    rw [stmtRows]
    simpa [spelled, aboveLine, Language.instanceVariable] using isText_textRows n _
  | .localVariable var isFinal, _, n, text, h => by
    rw [stmt] at h
    obtain rfl := Except.ok.inj h
    rw [stmtRows]
    simpa [spelled] using isText_textRows n _
  | .act a, _, n, text, h => by
    rw [stmt, result_action] at h
    obtain rfl := Except.ok.inj h
    rw [stmtRows]
    simpa [spelled] using isText_textRows n _
  | .ret value, _, n, text, h => by
    rw [stmt] at h
    obtain rfl := Except.ok.inj h
    rw [stmtRows]
    simpa [spelled] using isText_textRows n _
  | .blank, _, n, text, h => by
    rw [stmt] at h
    obtain rfl := Except.ok.inj h
    rw [stmtRows]
    exact .newline
  | .nested block at_, hlevel, n, text, h => by
    rw [stmt] at h
    rw [stmtRows]
    exact isText_blockAt hl block hlevel.2 h
  | .ifThen _ body, hlevel, n, text, h | .whileLoop _ body, hlevel, n, text, h
  | .forLoop _ _ _ _ body, hlevel, n, text, h | .foreach _ _ body, hlevel, n, text, h
  | .method _ body, hlevel, n, text, h | .constructor _ _ _ body, hlevel, n, text, h
  | .cls _ body, hlevel, n, text, h => by
    rw [stmt] at h
    rw [stmtRows]
    exact isText_withBody hl rfl (by simp) hlevel.1 (fun _ hbody => isText_blockAt hl body hlevel.2 hbody) h

theorem isText_blockAt (hl : style.language = .python) : ∀ (b : Block), style.BlockLevel b →
    ∀ {n : Nat} {text : String}, (style.blockAt n b).result = .ok text → IsText (style.blockRows n b) text
  | .mk _ stmts, hlevel, n, text, h => by
    rw [blockAt] at h
    rw [blockRows]
    exact isText_stmtsFrom hl stmts hlevel .empty h

theorem isText_stmtsFrom (hl : style.language = .python) : ∀ (stmts : List Stmt), style.StmtsLevel stmts →
    ∀ {n : Nat} {rows : List Row} {out text : String}, IsText rows out →
      (style.stmtsFrom n out stmts).result = .ok text → IsText (style.rowsFrom n rows stmts) text
  | [], _, n, rows, out, text, hout, h => by
    rw [stmtsFrom, Rendered.pure_ok] at h
    rw [rowsFrom, ← h]
    exact hout
  | s :: rest, hlevel, n, rows, out, text, hout, h => by
    rw [stmtsFrom, Rendered.bind_ok] at h
    obtain ⟨first, hfirst, h⟩ := h
    rw [rowsFrom, hout.ofList_eq]
    -- the rows so far are the text so far, so both leave a line free in the same places
    refine isText_stmtsFrom hl rest hlevel.2 ((hout.append ?_).append (isText_stmt hl s hlevel.1 hfirst)) h
    split
    · exact .newline
    · exact .empty

end

end RenderStyle

/-! ## Each header has its row -/

def Stmt.opensBlock : Stmt → Bool
  | .instanceVariable .. | .localVariable .. | .act _ | .ret _ | .blank | .nested .. => false
  | _ => true

structure Heads (style : RenderStyle) (rows : List Row) (ss : List Stmt) : Prop where
  stmts_eq : rows.filterMap Row.stmt? = ss
  headers : ∀ r ∈ rows, ∀ s, r.stmt? = some s → ∃ m, r = style.headerRow m s

theorem stmt?_textRows {n : Nat} (text : String) : ∀ r ∈ textRows n text, r.stmt? = none := by
  intro r hr
  obtain ⟨line, -, rfl⟩ := List.mem_map.mp hr
  rfl

/-- A body that shows keeps its rows in its block, empty ones at the end apart. -/
theorem suiteRows_cut {n : Nat} {rows : List Row} (h : rows.all (·.chars.all isBlank) = false) :
    ∃ dropped, suiteRows n rows ++ dropped = rows ∧ ∀ r ∈ dropped, r.chars = [] := by
  refine ⟨rows.rtakeWhile (·.chars.isEmpty), ?_, fun r hr => ?_⟩
  · rw [suiteRows, if_neg (by simp [h])]
    exact List.rdropWhile_append_rtakeWhile
  · have hempty := List.mem_rtakeWhile_imp hr
    exact List.isEmpty_iff.mp hempty

namespace Heads

variable {style : RenderStyle} {n : Nat} {rows rows' : List Row} {ss ss' : List Stmt}

theorem of_none (h : ∀ r ∈ rows, r.stmt? = none) : Heads style rows [] where
  stmts_eq := List.filterMap_eq_nil_iff.mpr h
  headers r hr s hs := by
    rw [h r hr] at hs
    cases hs

theorem append (h : Heads style rows ss) (h' : Heads style rows' ss') : Heads style (rows ++ rows') (ss ++ ss') where
  stmts_eq := by rw [List.filterMap_append, h.stmts_eq, h'.stmts_eq]
  headers r hr := (List.mem_append.mp hr).elim (h.headers r) (h'.headers r)

/-- Every header shows. -/
theorem stmt?_of_blank (h : Heads style rows ss) {r : Row} (hr : r ∈ rows) (hblank : r.chars.all isBlank = true) :
    r.stmt? = none := by
  cases hs : r.stmt? with
  | none => rfl
  | some s =>
    obtain ⟨m, rfl⟩ := h.headers r hr s hs
    have hcolon : ':' ∈ (style.headerRow m s).chars := by simp [RenderStyle.headerRow]
    cases List.all_eq_true.mp hblank ':' hcolon

theorem suite (h : Heads style rows ss) : Heads style (suiteRows n rows) ss := by
  cases hshows : rows.all (·.chars.all isBlank) with
  | true =>
    -- `pass` takes the place of rows among which there is no header
    have hnone : Heads style rows [] := of_none fun r hr => h.stmt?_of_blank hr (List.all_eq_true.mp hshows r hr)
    rw [suiteRows, hshows, if_pos rfl, ← h.stmts_eq, hnone.stmts_eq]
    exact of_none (by simp)
  | false =>
    obtain ⟨dropped, hcut, hempty⟩ := suiteRows_cut (n := n) hshows
    generalize suiteRows n rows = kept at hcut ⊢
    subst hcut
    have hnone : Heads style dropped [] :=
      of_none fun r hr => h.stmt?_of_blank (List.mem_append_right _ hr) (by rw [hempty r hr]; rfl)
    refine ⟨?_, fun r hr => h.headers r (List.mem_append_left _ hr)⟩
    rw [← h.stmts_eq, List.filterMap_append, hnone.stmts_eq, List.append_nil]

theorem block (h : Heads style rows ss) (s : Stmt) :
    Heads style (style.headerRow n s :: suiteRows n rows) (s :: ss) where
  stmts_eq := by
    have hhead : (style.headerRow n s).stmt? = some s := rfl
    rw [List.filterMap_cons_some hhead, h.suite.stmts_eq]
  headers := List.forall_mem_cons.mpr ⟨fun s' hs => ⟨n, by rw [Option.some.inj hs]⟩, h.suite.headers⟩

theorem texts (texts : List String) : Heads style (texts.flatMap (textRows n)) [] := by
  refine of_none fun r hr => ?_
  obtain ⟨text, -, hr⟩ := List.mem_flatMap.mp hr
  exact stmt?_textRows text r hr

end Heads

namespace RenderStyle

variable {style : RenderStyle}

mutual

theorem heads_stmt : ∀ (s : Stmt) (n : Nat), Heads style (style.stmtRows n s) (s.preorder.filter Stmt.opensBlock)
  | .instanceVariable .., n | .localVariable .., n | .act _, n | .ret _, n => by
    rw [stmtRows]
    exact .texts _
  | .blank, n => by
    rw [stmtRows]
    exact .of_none (by simp)
  | .nested block at_, n => by
    rw [stmtRows]
    exact heads_blockAt block _
  | .ifThen _ body, n | .whileLoop _ body, n | .forLoop _ _ _ _ body, n | .foreach _ _ body, n | .method _ body, n
  | .constructor _ _ _ body, n | .cls _ body, n => by
    rw [stmtRows]
    exact (heads_blockAt body (n + 1)).block _

theorem heads_blockAt : ∀ (b : Block) (n : Nat), Heads style (style.blockRows n b) (b.preorder.filter Stmt.opensBlock)
  | .mk _ stmts, n => by
    rw [blockRows]
    exact heads_rowsFrom stmts (.of_none (by simp))

theorem heads_rowsFrom : ∀ (stmts : List Stmt) {n : Nat} {rows : List Row} {ss : List Stmt}, Heads style rows ss →
    Heads style (style.rowsFrom n rows stmts) (ss ++ (preorders stmts).filter Stmt.opensBlock)
  | [], n, rows, ss, h => by
    rw [rowsFrom, preorders, List.filter_nil, List.append_nil]
    exact h
  | s :: rest, n, rows, ss, h => by
    have hgap : ∀ gap : Bool, Heads style (if gap then [{ chars := [] }] else []) [] := by
      intro gap
      cases gap <;> exact .of_none (by simp)
    have hfirst : ∀ gap : Bool, Heads style (rows ++ (if gap then [{ chars := [] }] else []) ++ style.stmtRows n s)
        (ss ++ s.preorder.filter Stmt.opensBlock) := fun gap => by
      simpa only [List.append_nil] using (h.append (hgap gap)).append (heads_stmt s n)
    rw [rowsFrom, preorders, List.filter_append, ← List.append_assoc]
    exact heads_rowsFrom rest (hfirst _)

end

end RenderStyle

end Pipewright
