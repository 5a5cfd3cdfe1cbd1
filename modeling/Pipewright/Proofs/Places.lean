import Pipewright.Pass.State
import Pipewright.Proofs.Assembly
import Pipewright.Proofs.Lexemes

/-!
# Places for a line

A line that is written at some place in a program, at any depth, stands in the
text of the program behind the tabs of its place. What stands around it is the
same whatever the line is, unless it is blank: where blocks have no delimiters, a
block of blank lines is spelled otherwise (`Program.assemble_around`).
-/

namespace Pipewright

structure Visible (line : String) : Prop where
  newline : '\n' ∉ line.toList
  shows : ∃ c ∈ line.toList, isBlank c = false

/-- A statement with a body, apart from that body. -/
inductive Enclosure where
  | ifThen (condition : Value)
  | whileLoop (condition : Value)
  | forLoop (var : Variable) (start limit : Value) (step : Option Value)
  | foreach (var : Variable) (iterable : Value)
  | method (signature : MethodSignature)
  | constructor (visibility : Visibility) (className : String) (parameters : List Parameter)
  | cls (signature : ClassSignature)
  | nested (indent : Option Nat)

def Enclosure.stmt : Enclosure → Block → Stmt
  | ifThen condition, body => .ifThen condition body
  | whileLoop condition, body => .whileLoop condition body
  | forLoop var start limit step, body => .forLoop var start limit step body
  | foreach var iterable, body => .foreach var iterable body
  | method signature, body => .method signature body
  | constructor visibility className parameters, body => .constructor visibility className parameters body
  | cls signature, body => .cls signature body
  | nested indent, body => .nested body indent

/-- Where a line is written: as a statement, perhaps in the body of another one. -/
inductive LinePlace where
  | here
  | inside (around : Enclosure) (tabs : Nat) (before : List Stmt) (place : LinePlace) (behind : List Stmt)

def LinePlace.stmt : LinePlace → String → Stmt
  | here, line => .act (.raw line)
  | inside around tabs before place behind, line => around.stmt (.mk tabs (before ++ place.stmt line :: behind))

theorem LinePlace.isDeclarationBlock_stmt (place : LinePlace) (line other : String) :
    (place.stmt line).isDeclarationBlock = (place.stmt other).isDeclarationBlock := by
  cases place with
  | here => rfl
  | inside around tabs before place behind => cases around <;> rfl

/-! ## Frames -/

def Ended (text : String) : Prop := text = "" ∨ ∃ before, text = before ++ "\n"

namespace Ended

variable {a b : String}

theorem empty : Ended "" := .inl rfl

theorem of_newline (before : String) : Ended (before ++ "\n") := .inr ⟨before, rfl⟩

theorem append (ha : Ended a) (hb : Ended b) : Ended (a ++ b) := by
  rcases hb with rfl | ⟨before, rfl⟩
  · rwa [String.append_empty]
  · rw [← String.append_assoc]
    exact of_newline _

theorem indentLines (n : Nat) (text : String) : Ended (indentLines n text) := by
  unfold Pipewright.indentLines
  induction lines text with
  | nil => exact empty
  | cons line rest ih =>
    rw [List.map_cons, String.join_cons]
    refine append ?_ ih
    split
    · exact of_newline ""
    · exact of_newline _

theorem aboveLine (n : Nat) (text : Option String) : Ended (RenderStyle.aboveLine n text) := by
  unfold RenderStyle.aboveLine
  split
  · exact empty
  · split
    · exact empty
    · exact indentLines n _

end Ended

namespace RenderStyle

variable (style : RenderStyle)

theorem ended_withBody {s : Stmt} {n : Nat} {x : Rendered String} {text : String}
    (h : (style.header n s >>= fun head => x >>= fun body => pure (style.withBody n head body)).result = .ok text) :
    Ended text := by
  obtain ⟨head, body, -, rfl⟩ := style.result_withBody h
  exact .of_newline _

mutual

theorem ended_stmt : ∀ (s : Stmt) {n : Nat} {text : String}, (style.stmt n s).result = .ok text → Ended text
  | .instanceVariable visibility var label modifiers, n, text, h => by
    rw [stmt] at h
    obtain rfl := Except.ok.inj h
    exact (Ended.aboveLine _ _).append (.indentLines _ _)
  | .localVariable var isFinal, n, text, h => by
    rw [stmt] at h
    obtain rfl := Except.ok.inj h
    exact .indentLines _ _
  | .act a, n, text, h => by
    rw [stmt, result_action] at h
    obtain rfl := Except.ok.inj h
    exact .indentLines _ _
  | .ret value, n, text, h => by
    rw [stmt] at h
    obtain rfl := Except.ok.inj h
    exact .indentLines _ _
  | .blank, n, text, h => by
    rw [stmt, Rendered.pure_ok] at h
    exact h ▸ Ended.of_newline ""
  | .nested (.mk tabs stmts) at_, n, text, h => by
    rw [stmt, blockAt] at h
    exact ended_stmtsFrom stmts .empty h
  | .ifThen condition body, n, text, h => by rw [stmt] at h; exact style.ended_withBody h
  | .whileLoop condition body, n, text, h => by rw [stmt] at h; exact style.ended_withBody h
  | .forLoop var start limit step body, n, text, h => by rw [stmt] at h; exact style.ended_withBody h
  | .foreach var iterable body, n, text, h => by rw [stmt] at h; exact style.ended_withBody h
  | .method signature body, n, text, h => by rw [stmt] at h; exact style.ended_withBody h
  | .constructor visibility className parameters body, n, text, h => by rw [stmt] at h; exact style.ended_withBody h
  | .cls signature body, n, text, h => by rw [stmt] at h; exact style.ended_withBody h

theorem ended_stmtsFrom : ∀ (stmts : List Stmt) {n : Nat} {out text : String}, Ended out →
    (style.stmtsFrom n out stmts).result = .ok text → Ended text
  | [], n, out, text, hout, h => by
    rw [stmtsFrom, Rendered.pure_ok] at h
    exact h ▸ hout
  | s :: rest, n, out, text, hout, h => by
    rw [stmtsFrom, Rendered.bind_ok] at h
    obtain ⟨first, hfirst, h⟩ := h
    refine ended_stmtsFrom rest ((hout.append ?_).append (ended_stmt s hfirst)) h
    split
    · exact .of_newline ""
    · exact .empty

end

end RenderStyle

structure LineFrame where
  front : String
  ended : Ended front
  indent : Nat
  behind : String

namespace LineFrame

def around (f : LineFrame) (line : String) : String := f.front ++ tabs f.indent ++ line ++ "\n" ++ f.behind

def append (f : LineFrame) (more : String) : LineFrame := { f with behind := f.behind ++ more }

def prepend (f : LineFrame) {before : String} (h : Ended before) : LineFrame :=
  { f with front := before ++ f.front, ended := h.append f.ended }

@[simp] theorem around_append (f : LineFrame) (more line : String) : (f.append more).around line = f.around line ++ more := by
  simp [around, append, String.append_assoc]

@[simp] theorem around_prepend (f : LineFrame) {before : String} (h : Ended before) (line : String) :
    (f.prepend h).around line = before ++ f.around line := by
  simp [around, prepend, String.append_assoc]

end LineFrame

def Fills (x : String → Rendered String) (f : LineFrame) : Prop :=
  ∀ line, Visible line → (x line).result = .ok (f.around line)

/-! ## Lines in a frame -/

namespace Visible

variable {line : String} (h : Visible line)
include h

theorem indentLines (n : Nat) : indentLines n line = tabs n ++ line ++ "\n" := by
  have hne : line.toList ≠ [] := by
    obtain ⟨c, hc, -⟩ := h.shows
    exact List.ne_nil_of_mem hc
  have hempty : line ≠ "" := fun he => hne (by rw [he]; rfl)
  unfold Pipewright.indentLines lines
  rw [linesFrom_of_not_mem h.newline [] (.inr hne)]
  simp [hempty]

theorem isBlankText_around (f : LineFrame) : isBlankText (f.around line) = false := by
  obtain ⟨c, hc, hshows⟩ := h.shows
  rw [isBlankText, List.all_eq_false]
  exact ⟨c, by simp [LineFrame.around, hc], by simp [hshows]⟩

theorem exists_last : ∃ init last, line.toList = init ++ [last] ∧ last ≠ '\n' := by
  obtain ⟨c, hc, -⟩ := h.shows
  obtain ⟨init, last, hsplit⟩ := (List.eq_nil_or_concat line.toList).resolve_left (List.ne_nil_of_mem hc)
  rw [List.concat_eq_append] at hsplit
  refine ⟨init, last, hsplit, ?_⟩
  rintro rfl
  exact h.newline (by simp [hsplit])

/-- A line has no part in an empty line behind it. -/
theorem suffix_around_iff (f : LineFrame) : ['\n', '\n'] <:+ (f.around line).toList ↔
    ['\n', '\n'] <:+ '\n' :: f.behind.toList := by
  obtain ⟨init, last, hlast, hnewline⟩ := h.exists_last
  have hnot : last ∉ ['\n', '\n'].reverse := by simpa using hnewline
  have hsplit : (f.around line).toList.reverse = ('\n' :: f.behind.toList).reverse ++
      last :: (f.front.toList ++ (tabs f.indent).toList ++ init).reverse := by
    simp [LineFrame.around, hlast]
  rw [← List.reverse_prefix, ← List.reverse_prefix, hsplit]
  exact prefix_gap_iff hnot _ _

theorem lacksBlankLine_around (f : LineFrame) : lacksBlankLine (f.around line) =
    !(['\n', '\n'].isSuffixOf ('\n' :: f.behind.toList)) := by
  have hne : (f.around line).isEmpty = false := by
    rw [isEmpty_eq, List.isEmpty_eq_false_iff]
    simp [LineFrame.around]
  have hsame : ['\n', '\n'].isSuffixOf (f.around line).toList = ['\n', '\n'].isSuffixOf ('\n' :: f.behind.toList) := by
    rw [Bool.eq_iff_iff, List.isSuffixOf_iff_suffix, List.isSuffixOf_iff_suffix]
    exact h.suffix_around_iff f
  rw [lacksBlankLine, hne, hsame]
  rfl

theorem withoutTail_around (f : LineFrame) : Language.withoutTail (f.around line) ++ "\n" = f.front ++ tabs f.indent ++
    line ++ "\n" ++ if f.behind.toList.all (· == '\n') then "" else Language.withoutTail f.behind ++ "\n" := by
  obtain ⟨init, last, hlast, hnewline⟩ := h.exists_last
  have hstay : dropTail (· == '\n') (f.front.toList ++ (tabs f.indent).toList ++ line.toList) =
      f.front.toList ++ (tabs f.indent).toList ++ line.toList := by
    rw [hlast, ← List.append_assoc, dropTail_concat, if_neg (by simpa using hnewline)]
  have hchars : (f.around line).toList =
      f.front.toList ++ (tabs f.indent).toList ++ line.toList ++ ('\n' :: f.behind.toList) := by
    simp [LineFrame.around]
  apply String.toList_injective
  rw [Language.withoutTail, hchars, dropTail_append, hstay]
  by_cases hall : f.behind.toList.all (· == '\n')
  · simp [hall]
  · simp only [List.all_cons, beq_self_eq_true, Bool.true_and, hall, if_false, Bool.false_eq_true]
    rw [← List.singleton_append, dropTail_append, if_neg hall]
    simp [Language.withoutTail]

end Visible

namespace LineFrame

/-- Every line in a block stands in the frame of its body and the block around it. -/
theorem exists_block (f : LineFrame) (l : Language) (head : String × String) (n : Nat) :
    ∃ g : LineFrame, ∀ line, Visible line → head.1 ++ l.block head.2 (f.around line) n ++ "\n" = g.around line := by
  have hopen : ∀ mark : String, Ended (head.1 ++ tabs n ++ trim head.2 ++ mark ++ "\n" ++ f.front) := by
    intro mark
    exact (Ended.of_newline _).append f.ended
  cases l with
  | java | kotlin =>
    refine ⟨⟨_, hopen " \x7b", f.indent, f.behind ++ tabs n ++ "\x7d\n"⟩, fun line _ => ?_⟩
    have hbrace : " \x7b\n" = " \x7b" ++ "\n" ∧ "\x7d\n" = "\x7d" ++ "\n" := by decide
    simp only [Language.block, around, hbrace, String.append_assoc]
  | lua =>
    refine ⟨⟨_, hopen "", f.indent, f.behind ++ tabs n ++ "end\n"⟩, fun line _ => ?_⟩
    have hend : "end\n" = "end" ++ "\n" := by decide
    simp only [Language.block, around, hend, String.append_assoc, String.append_empty]
  | python =>
    refine ⟨⟨_, hopen ":", f.indent, if f.behind.toList.all (· == '\n') then "" else
      Language.withoutTail f.behind ++ "\n"⟩, fun line hline => ?_⟩
    have hcolon : ":\n" = ":" ++ "\n" := by decide
    have hbody := hline.withoutTail_around f
    simp only [Language.block, hline.isBlankText_around f, Bool.false_eq_true, if_false, String.append_assoc, hbody]
    simp only [around, hcolon, String.append_assoc]

end LineFrame

/-! ## Statements -/

namespace RenderStyle

variable (style : RenderStyle)

theorem stmtsFrom_append {n : Nat} {ys : List Stmt} {mid text : String} : ∀ {xs : List Stmt} {out : String},
    (style.stmtsFrom n out xs).result = .ok mid → (style.stmtsFrom n mid ys).result = .ok text →
      (style.stmtsFrom n out (xs ++ ys)).result = .ok text
  | [], out, hx, hy => by
    rw [stmtsFrom, Rendered.pure_ok] at hx
    exact hx ▸ hy
  | s :: rest, out, hx, hy => by
    rw [stmtsFrom, Rendered.bind_ok] at hx
    obtain ⟨first, hfirst, hx⟩ := hx
    rw [List.cons_append, stmtsFrom, Rendered.bind_ok]
    exact ⟨first, hfirst, stmtsFrom_append hx hy⟩

/-- What is rendered behind a line goes to the end of its frame. -/
theorem stmtsFrom_fills {n : Nat} {line : String} (hline : Visible line) : ∀ (stmts : List Stmt) (f : LineFrame)
    {text : String}, (style.stmtsFrom n (f.around line) stmts).result = .ok text →
      ∃ g : LineFrame, f.front = g.front ∧ Fills (fun line => style.stmtsFrom n (f.around line) stmts) g
  | [], f, text, h => by
    refine ⟨f, rfl, fun other _ => ?_⟩
    show (style.stmtsFrom n (f.around other) []).result = _
    rw [stmtsFrom, Rendered.pure_ok]
  | s :: rest, f, text, h => by
    rw [stmtsFrom, Rendered.bind_ok] at h
    obtain ⟨first, hfirst, h⟩ := h
    let gap := if s.isDeclarationBlock && lacksBlankLine (f.around line) then "\n" else ""
    have hnext : ∀ other, f.around other ++ gap ++ first = (f.append (gap ++ first)).around other := by
      intro other
      rw [LineFrame.around_append, String.append_assoc]
    change (style.stmtsFrom n (f.around line ++ gap ++ first) rest).result = .ok text at h
    rw [hnext] at h
    obtain ⟨g, hfront, hfills⟩ := stmtsFrom_fills hline rest _ h
    refine ⟨g, hfront, fun other hother => ?_⟩
    show (style.stmtsFrom n (f.around other) (s :: rest)).result = _
    rw [stmtsFrom, Rendered.bind_ok]
    refine ⟨first, hfirst, ?_⟩
    rw [hother.lacksBlankLine_around, ← hline.lacksBlankLine_around]
    change (style.stmtsFrom n (f.around other ++ gap ++ first) rest).result = _
    rw [hnext]
    exact hfills other hother

/-- A line among other statements. -/
theorem stmtsFrom_around {n : Nat} {line : String} (hline : Visible line) {before behind : List Stmt} {place : LinePlace}
    {mid text : String} (hmid : (style.stmtsFrom n "" before).result = .ok mid) {f : LineFrame}
    (hf : Fills (fun line => style.stmt n (place.stmt line)) f)
    (h : (style.stmtsFrom n mid (place.stmt line :: behind)).result = .ok text) : ∃ g : LineFrame,
      (∃ rest, g.front = mid ++ rest) ∧
        Fills (fun line => style.stmtsFrom n "" (before ++ place.stmt line :: behind)) g := by
  let gap := if (place.stmt line).isDeclarationBlock && lacksBlankLine mid then "\n" else ""
  have hgap : Ended gap := by
    unfold gap
    split
    · exact .of_newline ""
    · exact .empty
  have hbefore : Ended (mid ++ gap) := (style.ended_stmtsFrom before .empty hmid).append hgap
  have hstmt : ∀ other, Visible other → ∀ result,
      (style.stmtsFrom n mid (place.stmt other :: behind)).result = .ok result ↔
        (style.stmtsFrom n ((f.prepend hbefore).around other) behind).result = .ok result := by
    intro other hother result
    rw [stmtsFrom, Rendered.bind_ok, place.isDeclarationBlock_stmt other line, LineFrame.around_prepend]
    constructor
    · rintro ⟨first, hfirst, hrest⟩
      obtain rfl := Except.ok.inj ((hf other hother).symm.trans hfirst)
      exact hrest
    · exact fun hrest => ⟨_, hf other hother, hrest⟩
  rw [hstmt line hline] at h
  obtain ⟨g, hfront, hg⟩ := style.stmtsFrom_fills hline behind _ h
  refine ⟨g, ⟨gap ++ f.front, ?_⟩, fun other hother => ?_⟩
  · exact hfront.symm.trans String.append_assoc
  · exact style.stmtsFrom_append hmid ((hstmt other hother _).mpr (hg other hother))

/-- The header of a statement does not depend on its body. -/
theorem stmt_enclosure (around : Enclosure) (n : Nat) : (∃ indent, around = .nested indent) ∨
    ∀ body, style.stmt n (around.stmt body) = (style.header n (around.stmt default) >>= fun head =>
      style.blockAt (n + 1) body >>= fun text => pure (style.withBody n head text)) := by
  cases around with
  | nested indent => exact .inl ⟨indent, rfl⟩
  | _ =>
    refine .inr fun body => ?_
    rw [Enclosure.stmt, stmt]
    rfl

/-- A line at a place has one frame around it, whatever it is. -/
theorem stmt_fills (place : LinePlace) : ∀ {n : Nat} {line text : String}, Visible line →
    (style.stmt n (place.stmt line)).result = .ok text →
      ∃ f : LineFrame, Fills (fun line => style.stmt n (place.stmt line)) f := by
  induction place with
  | here =>
    intro n line text hline h
    refine ⟨⟨"", .empty, n, ""⟩, fun other hother => ?_⟩
    show (style.stmt n (.act (.raw other))).result = _
    rw [stmt, result_action, Language.actionText, hother.indentLines]
    simp [LineFrame.around]
  | inside around tabs before place behind ih =>
    intro n line text hline h
    -- the statements of the body, at any indentation
    have hbody : ∀ {m : Nat} {text : String},
        (style.blockAt m (.mk tabs (before ++ place.stmt line :: behind))).result = .ok text →
          ∃ g : LineFrame, Fills (fun line => style.blockAt m (.mk tabs (before ++ place.stmt line :: behind))) g := by
      intro m text h
      rw [blockAt] at h
      obtain ⟨mid, hmid, hrest⟩ := stmtsFrom_append_ok h
      have hstmt := hrest
      rw [stmtsFrom, Rendered.bind_ok] at hstmt
      obtain ⟨first, hfirst, -⟩ := hstmt
      obtain ⟨f, hf⟩ := ih hline hfirst
      obtain ⟨g, -, hg⟩ := style.stmtsFrom_around hline hmid hf hrest
      refine ⟨g, fun other hother => ?_⟩
      show (style.blockAt m (.mk tabs _)).result = _
      rw [blockAt]
      exact hg other hother
    rw [LinePlace.stmt] at h
    rcases style.stmt_enclosure around n with ⟨indent, rfl⟩ | hstmt
    · rw [Enclosure.stmt, stmt] at h
      obtain ⟨g, hg⟩ := hbody h
      refine ⟨g, fun other hother => ?_⟩
      show (style.stmt n (.nested _ indent)).result = _
      rw [stmt]
      exact hg other hother
    · rw [hstmt, Rendered.bind_ok] at h
      obtain ⟨head, hhead, h⟩ := h
      rw [Rendered.bind_ok] at h
      obtain ⟨body, hrendered, -⟩ := h
      obtain ⟨g, hg⟩ := hbody hrendered
      obtain ⟨f, hf⟩ := g.exists_block style.language head n
      refine ⟨f, fun other hother => ?_⟩
      show (style.stmt n (around.stmt _)).result = _
      rw [hstmt, Rendered.bind_ok]
      refine ⟨head, hhead, ?_⟩
      rw [Rendered.bind_ok]
      refine ⟨_, hg other hother, ?_⟩
      rw [Rendered.pure_ok, withBody, hf other hother]

end RenderStyle

/-! ## Programs -/

/-- Of the scopes that `build` makes of blocks with statements, only what encloses the block differs, which stands
behind `first`. -/
def Surrounds (tabs : Nat) (first : List Stmt) (build : Block → Scope) : Prop :=
  ∃ (front : List Stmt) (around : Enclosure) (rest : List Stmt), ∀ body, body.isEmpty = false →
    (build body).tabs = tabs ∧ (build body).stmts = first ++ front ++ around.stmt body :: rest

theorem Enclosure.isBlank_stmt (around : Enclosure) (body : Block) : (around.stmt body).isBlank = false := by
  cases around <;> rfl

namespace Surrounds

variable {tabs : Nat} {first : List Stmt} {build other : Block → Scope}

theorem enclose {s t : Scope} (h : s.Continues t) (around : Enclosure) :
    Surrounds s.tabs s.stmts fun body => t.push (around.stmt body) := by
  obtain ⟨front, hfront⟩ := h.stmts
  refine ⟨front, around, [], fun body _ => ⟨h.tabs, ?_⟩⟩
  rw [hfront]
  rfl

theorem push (h : Surrounds tabs first build) (stmt : Stmt) : Surrounds tabs first fun body => (build body).push stmt := by
  obtain ⟨front, around, rest, hbuild⟩ := h
  refine ⟨front, around, rest ++ [stmt], fun body hbody => ⟨(hbuild body hbody).1, ?_⟩⟩
  simp [Scope.push, (hbuild body hbody).2]

theorem congr (h : Surrounds tabs first build) (hsame : ∀ body, body.isEmpty = false → build body = other body) :
    Surrounds tabs first other := by
  obtain ⟨front, around, rest, hbuild⟩ := h
  exact ⟨front, around, rest, fun body hbody => hsame body hbody ▸ hbuild body hbody⟩

theorem separate (h : Surrounds tabs first build) : Surrounds tabs first fun body => (build body).separate := by
  have hpushed := h.push .blank
  have hbuild := h
  obtain ⟨front, around, rest, hstmts⟩ := h
  -- whether a separator is due depends on the last statement, which is the enclosure or stands behind it
  have hlast : (∀ body, body.isEmpty = false → ∃ last, (build body).stmts.getLast? = some last ∧ last.isBlank = false) ∨
      ∀ body, body.isEmpty = false → (build body).stmts.getLast? = some .blank := by
    rcases List.eq_nil_or_concat rest with rfl | ⟨init, last, rfl⟩
    · refine .inl fun body hbody => ⟨around.stmt body, ?_, around.isBlank_stmt body⟩
      rw [(hstmts body hbody).2]
      exact List.getLast?_concat
    · have hsome : ∀ body, body.isEmpty = false → (build body).stmts.getLast? = some last := by
        intro body hbody
        rw [(hstmts body hbody).2, List.concat_eq_append, ← List.cons_append, ← List.append_assoc]
        exact List.getLast?_concat
      cases hblank : last.isBlank with
      | false => exact .inl fun body hbody => ⟨last, hsome body hbody, hblank⟩
      | true =>
        refine .inr fun body hbody => ?_
        rw [hsome body hbody]
        cases last <;> first | rfl | cases hblank
  rcases hlast with hshown | hblank
  · refine hpushed.congr fun body hbody => ?_
    obtain ⟨last, hlast, hshows⟩ := hshown body hbody
    unfold Scope.separate
    rw [hlast]
    cases last <;> first | rfl | cases hshows
  · refine hbuild.congr fun body hbody => ?_
    unfold Scope.separate
    rw [hblank body hbody]

theorem cond (c : Bool) (h : Surrounds tabs first build) (h' : Surrounds tabs first other) :
    Surrounds tabs first fun body => if c then build body else other body := by
  cases c with
  | true => exact h
  | false => exact h'

/-- A block with statements is not left out. -/
theorem unless_empty (h : Surrounds tabs first build) :
    Surrounds tabs first fun body => if body.isEmpty then other body else build body :=
  h.congr fun body hbody => by rw [hbody]; rfl

end Surrounds

theorem Scope.Continues.cond {s t u : Scope} (c : Bool) (ht : s.Continues t) (hu : s.Continues u) :
    s.Continues (if c then t else u) := by
  cases c with
  | true => exact ht
  | false => exact hu

namespace Program

variable (p : Program)

def fill (body : Block) : Target → Program
  | .classStart => { p with classStart := body }
  | .classEnd => { p with classEnd := body }
  | .init => { p with init := body }
  | .processFrame => { p with processFrame := body }
  | .viewportTapped => { p with viewportTapped := body }

theorem members_surrounds (l : Language) (target : Target) : Surrounds 1 [] fun body => (p.fill body target).members l := by
  have hnew := Scope.Continues.refl (Scope.new 1)
  have hstart := hnew.cond p.classStart.isEmpty (hnew.nest p.classStart none).separate
  have hinit := fun signature => hstart.cond p.init.isEmpty (hstart.push (.method signature p.init)).separate
  have hframe := fun first signature => (hinit first).push (.method signature p.processFrame)
  have htapped := fun first second third => (hframe first second).cond p.viewportTapped.isEmpty
    ((hframe first second).separate.push (.method third p.viewportTapped))
  -- what comes behind the scope that is filled
  have setUp : ∀ {build} signature, Surrounds 1 [] build → Surrounds 1 [] fun body =>
      if p.init.isEmpty then build body else ((build body).push (.method signature p.init)).separate :=
    fun signature h => h.cond _ (h.push _).separate
  have tapped : ∀ {build} signature, Surrounds 1 [] build → Surrounds 1 [] fun body =>
      if p.viewportTapped.isEmpty then build body
      else (build body).separate.push (.method signature p.viewportTapped) :=
    fun signature h => h.cond _ (h.separate.push _)
  have ended : ∀ {build}, Surrounds 1 [] build → Surrounds 1 [] fun body =>
      if p.classEnd.isEmpty then build body else (build body).nest p.classEnd :=
    fun h => h.cond _ (h.push _)
  cases target with
  | classStart =>
    exact ended (tapped _ ((setUp _ (Surrounds.enclose hnew (.nested none)).separate.unless_empty).push
      (.method _ p.processFrame)))
  | init =>
    exact ended (tapped _ ((Surrounds.enclose hstart (.method _)).separate.unless_empty.push (.method _ p.processFrame)))
  | processFrame => exact ended (tapped _ (Surrounds.enclose (hinit _) (.method _)))
  | viewportTapped => exact ended (Surrounds.enclose (hframe _ _).separate (.method _)).unless_empty
  | classEnd => exact (Surrounds.enclose (htapped _ _ _) (.nested none)).unless_empty

theorem scope_surrounds {target : Target} (h : target ≠ .viewportTapped) :
    Surrounds 0 p.opening.stmts fun body => (p.fill body target).scope .python := by
  have hopening := Scope.Continues.refl p.opening
  have hstart := hopening.cond p.classStart.isEmpty (hopening.nest p.classStart (some 0)).separate
  have hinit := hstart.cond p.init.isEmpty (hstart.nest p.init (some 0)).separate
  have hframe := fun signature => hinit.push (.method signature p.processFrame)
  have setUp : ∀ {build}, Surrounds 0 p.opening.stmts build → Surrounds 0 p.opening.stmts fun body =>
      if p.init.isEmpty then build body else ((build body).nest p.init (some 0)).separate :=
    fun h => h.cond _ (h.push _).separate
  have ended : ∀ {build}, Surrounds 0 p.opening.stmts build → Surrounds 0 p.opening.stmts fun body =>
      if p.classEnd.isEmpty then build body else (build body).nest p.classEnd (some 0) :=
    fun h => h.cond _ (h.push _)
  cases target with
  | classStart =>
    exact ended ((setUp (Surrounds.enclose hopening (.nested (some 0))).separate.unless_empty).push
      (.method _ p.processFrame))
  | init =>
    exact ended ((Surrounds.enclose hstart (.nested (some 0))).separate.unless_empty.push (.method _ p.processFrame))
  | processFrame => exact ended (Surrounds.enclose hinit (.method _))
  | viewportTapped => exact absurd rfl h
  | classEnd => exact (Surrounds.enclose (hframe _) (.nested (some 0))).unless_empty

/-- The program has a place for each of the scopes, but Python has none for taps on the viewport. -/
def Places (l : Language) (target : Target) : Prop := l = .python → target ≠ .viewportTapped

/-- A line at a place of a scope is at a place of the program, behind the import block. -/
theorem exists_place {l : Language} {target : Target} (htarget : Places l target) (tabs : Nat) (before : List Stmt)
    (place : LinePlace) (behind : List Stmt) : ∃ (front : List Stmt) (outer : LinePlace) (rest : List Stmt), ∀ line,
      ((p.fill (.mk tabs (before ++ place.stmt line :: behind)) target).scope l).toBlock =
        .mk 0 (p.opening.stmts ++ front ++ outer.stmt line :: rest) := by
  obtain ⟨front, around, rest, hmembers⟩ := p.members_surrounds l target
  have hfull : ∀ line, (Block.mk tabs (before ++ place.stmt line :: behind)).isEmpty = false := by
    intro line
    simp [Block.isEmpty, Block.stmts]
  let inner := LinePlace.inside around tabs before place behind
  have hblock : ∀ line, ((p.fill (.mk tabs (before ++ place.stmt line :: behind)) target).members l).toBlock =
      .mk 1 ([] ++ front ++ inner.stmt line :: rest) := by
    intro line
    rw [Scope.toBlock, (hmembers _ (hfull line)).1, (hmembers _ (hfull line)).2]
    rfl
  cases l with
  | python =>
    obtain ⟨front, around, rest, hscope⟩ := p.scope_surrounds (htarget rfl)
    refine ⟨front, .inside around tabs before place behind, rest, fun line => ?_⟩
    rw [Scope.toBlock, (hscope _ (hfull line)).1, (hscope _ (hfull line)).2]
    rfl
  | java | kotlin =>
    let parent := if p.preview then Catalog.OpenCv.streamablePipeline else Catalog.OpenCv.pipeline
    let signature : ClassSignature :=
      { visibility := .isPublic, name := validIdentifier p.className, parent := some parent }
    refine ⟨[], .inside (.cls signature) 1 ([] ++ front) inner rest, [], fun line => ?_⟩
    rw [LinePlace.stmt, Enclosure.stmt, ← hblock]
    cases target <;> rfl
  | lua =>
    refine ⟨[], .inside (.nested (some 0)) 1 ([] ++ front) inner rest, [], fun line => ?_⟩
    rw [LinePlace.stmt, Enclosure.stmt, ← hblock]
    cases target <;> rfl

theorem opening_ends {style : RenderStyle} {text : String}
    (h : (style.stmtsFrom 0 "" p.opening.stmts).result = .ok text) : ∃ marker, text = marker ++ "\n" := by
  have hopening : p.opening.stmts = [.act (.raw p.importMarker)] ++ [.blank] := rfl
  rw [hopening] at h
  obtain ⟨mid, -, h⟩ := RenderStyle.stmtsFrom_append_ok h
  rw [RenderStyle.stmtsFrom, Rendered.bind_ok] at h
  obtain ⟨blank, hblank, h⟩ := h
  rw [RenderStyle.stmt, Rendered.pure_ok] at hblank
  rw [RenderStyle.stmtsFrom, Rendered.pure_ok] at h
  exact ⟨_, by rw [← h, ← hblank]⟩

/-- Of the text of a program, only the line at a place changes with what is written there. -/
theorem assemble_around {l : Language} {target : Target} (htarget : Places l target) {tabs : Nat} {before : List Stmt}
    {place : LinePlace} {behind : List Stmt} {line text : String} (hline : Visible line)
    (h : ((p.fill (.mk tabs (before ++ place.stmt line :: behind)) target).assemble l).result = .ok text) :
    ∃ (front : String) (indent : Nat) (rest : String), ∀ other, Visible other →
      ((p.fill (.mk tabs (before ++ place.stmt other :: behind)) target).assemble l).result =
        .ok (front ++ "\n" ++ (Pipewright.tabs indent ++ other) ++ "\n" ++ rest) := by
  obtain ⟨first, outer, last, hscope⟩ := p.exists_place htarget tabs before place behind
  let style : RenderStyle := ⟨l, p.preview⟩
  have hassemble : ∀ other,
      ((p.fill (.mk tabs (before ++ place.stmt other :: behind)) target).assemble l) =
        style.stmtsFrom 0 "" (p.opening.stmts ++ first ++ outer.stmt other :: last) := by
    intro other
    have hpreview : (p.fill (.mk tabs (before ++ place.stmt other :: behind)) target).preview = p.preview := by
      cases target <;> rfl
    rw [assemble, hscope, hpreview, RenderStyle.block, Block.tabs, RenderStyle.blockAt]
  rw [hassemble] at h
  obtain ⟨mid, hmid, hrest⟩ := RenderStyle.stmtsFrom_append_ok h
  have hstmt := hrest
  rw [RenderStyle.stmtsFrom, Rendered.bind_ok] at hstmt
  obtain ⟨text, htext, -⟩ := hstmt
  obtain ⟨f, hf⟩ := style.stmt_fills outer hline htext
  obtain ⟨g, ⟨more, hfront⟩, hg⟩ := style.stmtsFrom_around hline hmid hf hrest
  -- the import block stands in front, so there is at least one whole line
  have hne : g.front ≠ "" := by
    obtain ⟨block, hblock, hmid⟩ := RenderStyle.stmtsFrom_append_ok hmid
    obtain ⟨rest, rfl⟩ := style.stmtsFrom_starts 0 first block mid hmid
    obtain ⟨marker, rfl⟩ := p.opening_ends hblock
    rw [hfront]
    intro hempty
    simp [String.append_eq_empty_iff] at hempty
  obtain ⟨front, hended⟩ := g.ended.resolve_left hne
  refine ⟨front, g.indent, g.behind, fun other hother => ?_⟩
  rw [hassemble, hg other hother, LineFrame.around, hended]
  simp only [String.append_assoc]

end Program

end Pipewright
