import Mathlib.Data.List.TakeWhile
import Pipewright.Text

/-!
# Lexemes

What the four languages have in common when an expression is cut into lexemes: a
run of name characters is a word, a run of operator characters is one operator,
any other character stands alone, blanks only separate. A text can be cut in front
of and behind a character that stands alone, and at a blank; the white space around
it plays no part (`lexemes_trim`).
-/

namespace Pipewright

inductive Lexeme where
  | word (text : String)
  | mark (text : String)
deriving DecidableEq, Repr

/-- Letters, digits, and what lies beyond ASCII without being blank. -/
def isNameChar (c : Char) : Bool := !isBlank c && (isWordChar c || c == '$' || 128 ≤ c.toNat)

def isOperatorChar (c : Char) : Bool := "+-*/%<>=!&|~^".toList.contains c

def isTypeMark (c : Char) : Bool := ".<>,[]?".toList.contains c

theorem isNameChar_of_isOperatorChar {c : Char} (h : isOperatorChar c = true) : isNameChar c = false := by
  have hall : "+-*/%<>=!&|~^".toList.all (fun c => !isNameChar c) = true := by decide
  simpa using List.all_eq_true.mp hall c (List.contains_iff_mem.mp h)

theorem isNameChar_of_isTypeMark {c : Char} (h : isTypeMark c = true) : isNameChar c = false := by
  have hall : ".<>,[]?".toList.all (fun c => !isNameChar c) = true := by decide
  simpa using List.all_eq_true.mp hall c (List.contains_iff_mem.mp h)

namespace Lexeme

def ofRun : List Char → List Lexeme
  | [] => []
  | c :: run =>
    let text := String.ofList (c :: run).reverse
    [if isNameChar c then word text else mark text]

def joins : List Char → Char → Bool
  | [], _ => true
  | d :: _, c => (isNameChar d && isNameChar c) || (isOperatorChar d && isOperatorChar c)

def scan (run : List Char) : List Char → List Lexeme
  | [] => ofRun run
  | c :: cs =>
    if isBlank c then ofRun run ++ scan [] cs
    else if joins run c then scan (c :: run) cs
    else ofRun run ++ scan [c] cs

end Lexeme

def lexemes (text : String) : List Lexeme := Lexeme.scan [] text.toList

example : lexemes "(a1 <= b) && !(c != 20)" =
    [.mark "(", .word "a1", .mark "<=", .word "b", .mark ")", .mark "&&", .mark "!", .mark "(", .word "c", .mark "!=",
      .word "20", .mark ")"] := by
  decide +kernel

namespace Lexeme

/-! ## Where a text can be cut -/

theorem scan_blank {s : Char} (hs : isBlank s = true) (run cs ds : List Char) :
    scan run (cs ++ s :: ds) = scan run cs ++ scan [] ds := by
  induction cs generalizing run with
  | nil => simp [scan, hs]
  | cons c cs ih =>
    rw [List.cons_append, scan, scan]
    split
    · rw [ih, List.append_assoc]
    · split
      · exact ih _
      · rw [ih, List.append_assoc]

structure StandsAlone (s : Char) : Prop where
  name : isNameChar s = false
  operator : isOperatorChar s = false
  blank : isBlank s = false

instance (s : Char) : Decidable (StandsAlone s) :=
  decidable_of_iff (isNameChar s = false ∧ isOperatorChar s = false ∧ isBlank s = false)
    ⟨fun ⟨h, h', h''⟩ => ⟨h, h', h''⟩, fun ⟨h, h', h''⟩ => ⟨h, h', h''⟩⟩

theorem scan_run_alone {s : Char} (hs : StandsAlone s) (ds : List Char) :
    scan [s] ds = mark (String.singleton s) :: scan [] ds := by
  have hrun : ofRun [s] = [mark (String.singleton s)] := by
    rw [ofRun, hs.name, String.singleton_eq_ofList]
    rfl
  cases ds with
  | nil => rw [scan, scan, hrun]; rfl
  | cons d ds =>
    have hjoins : joins [s] d = false := by simp [joins, hs.name, hs.operator]
    rw [scan, scan, hrun, hjoins]
    by_cases hd : isBlank d = true
    · simp [hd, ofRun]
    · simp [hd, joins]

theorem scan_alone {s : Char} (hs : StandsAlone s) (run cs ds : List Char) :
    scan run (cs ++ s :: ds) = scan run cs ++ mark (String.singleton s) :: scan [] ds := by
  induction cs generalizing run with
  | nil =>
    rw [List.nil_append, scan, scan, if_neg (by simp [hs.blank]), ← scan_run_alone hs]
    cases run with
    | nil => rfl
    | cons c run =>
      have hjoins : joins (c :: run) s = false := by simp [joins, hs.name, hs.operator]
      rw [if_neg (by simp [hjoins])]
  | cons c cs ih =>
    rw [List.cons_append, scan, scan]
    split
    · rw [ih, List.append_assoc]
    · split
      · exact ih _
      · rw [ih, List.append_assoc]

theorem isBlank_of_isNameChar {c : Char} (h : isNameChar c = true) : isBlank c = false := by
  unfold isNameChar at h
  simpa using (Bool.and_eq_true_iff.mp h).1

/-- Name characters go on with a run of such. -/
theorem scan_names {w : List Char} (hw : ∀ c ∈ w, isNameChar c = true) (run : List Char)
    (hrun : ∀ c ∈ run, isNameChar c = true) (cs : List Char) : scan run (w ++ cs) = scan (w.reverse ++ run) cs := by
  induction w generalizing run with
  | nil => rfl
  | cons c w ih =>
    obtain ⟨hname, hw⟩ := List.forall_mem_cons.mp hw
    have hjoins : joins run c = true := by
      cases run with
      | nil => rfl
      | cons d run => simp [joins, hname, hrun d]
    rw [List.cons_append, scan, if_neg (by simp [isBlank_of_isNameChar hname]), if_pos hjoins]
    rw [ih hw (c :: run) (List.forall_mem_cons.mpr ⟨hname, hrun⟩)]
    simp

/-- A mark that is no blank ends a run of name characters. -/
theorem scan_mark {c : Char} (hname : isNameChar c = false) (hblank : isBlank c = false) {run : List Char}
    (hrun : ∀ d ∈ run, isNameChar d = true) (cs : List Char) : scan run (c :: cs) = ofRun run ++ scan [c] cs := by
  rw [scan, if_neg (by simp [hblank])]
  cases run with
  | nil => rfl
  | cons d run =>
    have hd := hrun d List.mem_cons_self
    have hoperator : isOperatorChar d = false := by
      cases h : isOperatorChar d with
      | false => rfl
      | true => simp [isNameChar_of_isOperatorChar h] at hd
    rw [if_neg (by simp [joins, hname, hoperator])]

end Lexeme

/-! ## White space around a text -/

theorem dropTail_prefix (p : Char → Bool) (cs : List Char) :
    ∃ tail, cs = dropTail p cs ++ tail ∧ tail.all p = true := by
  refine ⟨(cs.reverse.takeWhile p).reverse, ?_, ?_⟩
  · rw [dropTail, ← List.reverse_append, List.takeWhile_append_dropWhile, List.reverse_reverse]
  · rw [List.all_reverse]
    exact List.all_takeWhile

theorem dropWhile_head? (p : Char → Bool) (cs : List Char) : ∀ c ∈ (cs.dropWhile p).head?, p c = false := by
  intro c hc
  have hstop := List.head?_dropWhile_not p cs
  rwa [Option.mem_def.mp hc] at hstop

theorem dropWhile_eq_self {p : Char → Bool} {cs : List Char} (h : ∀ c ∈ cs.head?, p c = false) :
    cs.dropWhile p = cs := by
  cases cs with
  | nil => rfl
  | cons c cs => exact List.dropWhile_cons_of_neg (by simp [h c rfl])

theorem dropTail_getLast? (p : Char → Bool) (cs : List Char) : ∀ c ∈ (dropTail p cs).getLast?, p c = false := by
  rw [dropTail, List.getLast?_reverse]
  exact dropWhile_head? p cs.reverse

theorem dropTail_append (p : Char → Bool) (xs ys : List Char) :
    dropTail p (xs ++ ys) = if ys.all p then dropTail p xs else xs ++ dropTail p ys := by
  have hall : (ys.reverse.dropWhile p).isEmpty = ys.all p := by
    rw [Bool.eq_iff_iff, List.isEmpty_iff, List.dropWhile_eq_nil_iff, List.all_eq_true]
    simp
  rw [dropTail, List.reverse_append, List.dropWhile_append, hall]
  split
  · rfl
  · simp [dropTail]

theorem dropTail_of_getLast? {p : Char → Bool} {cs : List Char} (h : ∀ c ∈ cs.getLast?, p c = false) :
    dropTail p cs = cs := by
  rw [← List.head?_reverse] at h
  rw [dropTail, dropWhile_eq_self h, List.reverse_reverse]

theorem dropTail_eq_self {p : Char → Bool} {cs : List Char} (h : ∀ c ∈ cs, p c = false) : dropTail p cs = cs :=
  dropTail_of_getLast? fun c hc => h c (List.mem_of_getLast? hc)

/-- A text that neither starts nor ends with white space. -/
theorem trim_of_ends {text : String} (hfirst : ∀ c ∈ text.toList.head?, isBlank c = false)
    (hlast : ∀ c ∈ text.toList.getLast?, isBlank c = false) : trim text = text := by
  rw [trim, dropWhile_eq_self hfirst, dropTail_of_getLast? hlast, String.ofList_toList]

theorem trim_eq_self {text : String} (h : ∀ c ∈ text.toList, isBlank c = false) : trim text = text :=
  trim_of_ends (fun c hc => h c (List.mem_of_mem_head? hc)) fun c hc => h c (List.mem_of_getLast? hc)

theorem trim_cut (text : String) : ∃ front behind : List Char, text.toList = front ++ (trim text).toList ++ behind ∧
    (∀ c ∈ front, isBlank c = true) ∧ (∀ c ∈ behind, isBlank c = true) ∧
    (∀ c ∈ (trim text).toList.head?, isBlank c = false) ∧ ∀ c ∈ (trim text).toList.getLast?, isBlank c = false := by
  have hrest : text.toList = text.toList.takeWhile isBlank ++ text.toList.dropWhile isBlank :=
    List.takeWhile_append_dropWhile.symm
  obtain ⟨behind, hcut, hbehind⟩ := dropTail_prefix isBlank (text.toList.dropWhile isBlank)
  have htrim : (trim text).toList = dropTail isBlank (text.toList.dropWhile isBlank) := String.toList_ofList
  refine ⟨text.toList.takeWhile isBlank, behind, ?_, ?_, List.all_eq_true.mp hbehind, ?_, ?_⟩
  · rw [htrim, List.append_assoc, ← hcut]
    exact hrest
  · exact List.all_eq_true.mp List.all_takeWhile
  · intro c hc
    rw [htrim] at hc
    -- what is left starts where the text behind the white space does
    have hhead : c ∈ (text.toList.dropWhile isBlank).head? := by
      rw [hcut, List.head?_append, Option.mem_def.mp hc]
      rfl
    exact dropWhile_head? isBlank text.toList c hhead
  · rw [htrim]
    exact dropTail_getLast? isBlank _

theorem Lexeme.scan_blanks {front : List Char} (h : ∀ c ∈ front, isBlank c = true) (cs : List Char) :
    scan [] (front ++ cs) = scan [] cs := by
  induction front with
  | nil => rfl
  | cons c front ih =>
    obtain ⟨hc, hfront⟩ := List.forall_mem_cons.mp h
    rw [List.cons_append, scan, if_pos hc, ih hfront]
    rfl

theorem lexemes_trim (text : String) : lexemes (trim text) = lexemes text := by
  obtain ⟨front, behind, htext, hfront, hbehind, -⟩ := trim_cut text
  rw [lexemes, lexemes, htext, List.append_assoc, Lexeme.scan_blanks hfront]
  cases behind with
  | nil => rw [List.append_nil]
  | cons c behind =>
    obtain ⟨hc, hbehind⟩ := List.forall_mem_cons.mp hbehind
    have hrest := Lexeme.scan_blanks hbehind []
    rw [List.append_nil] at hrest
    rw [Lexeme.scan_blank hc, hrest]
    exact (List.append_nil _).symm

/-! ## Signs and parentheses -/

open Lexeme

theorem lexemes_append_blank (a b : String) : lexemes (a ++ " " ++ b) = lexemes a ++ lexemes b := by
  unfold lexemes
  rw [String.toList_append, String.toList_append, List.append_assoc]
  exact scan_blank (by decide) [] a.toList b.toList

/-- A sign of one lexeme between two operands. -/
theorem lexemes_between {sign : String} {t : Lexeme} (hsign : lexemes sign = [t]) (a b : String) :
    lexemes (a ++ " " ++ sign ++ " " ++ b) = lexemes a ++ t :: lexemes b := by
  rw [lexemes_append_blank, lexemes_append_blank, hsign, List.append_assoc, List.singleton_append]

theorem lexemes_append_open (a b : String) : lexemes (a ++ "(" ++ b) = lexemes a ++ .mark "(" :: lexemes b := by
  unfold lexemes
  rw [String.toList_append, String.toList_append, List.append_assoc]
  exact scan_alone (by decide) [] a.toList b.toList

theorem lexemes_append_close (a b : String) : lexemes (a ++ ")" ++ b) = lexemes a ++ .mark ")" :: lexemes b := by
  unfold lexemes
  rw [String.toList_append, String.toList_append, List.append_assoc]
  exact scan_alone (by decide) [] a.toList b.toList

theorem lexemes_call (f body : String) :
    lexemes (f ++ "(" ++ body ++ ")") = lexemes f ++ .mark "(" :: (lexemes body ++ [.mark ")"]) := by
  have hclose := lexemes_append_close body ""
  rw [String.append_empty] at hclose
  rw [String.append_assoc, lexemes_append_open, hclose]
  rfl

theorem lexemes_group (a : String) : lexemes ("(" ++ a ++ ")") = .mark "(" :: lexemes a ++ [.mark ")"] := by
  have hnone := lexemes_call "" a
  rwa [String.empty_append] at hnone

structure IsWord (w : String) : Prop where
  nonempty : w ≠ ""
  chars : w.toList.all isNameChar = true

instance (w : String) : Decidable (IsWord w) :=
  decidable_of_iff (w ≠ "" ∧ w.toList.all isNameChar = true) ⟨fun ⟨h, h'⟩ => ⟨h, h'⟩, fun ⟨h, h'⟩ => ⟨h, h'⟩⟩

theorem IsWord.ofRun_eq {w : String} (hw : IsWord w) : ofRun w.toList.reverse = [.word w] := by
  cases hr : w.toList.reverse with
  | nil => exact absurd (String.toList_eq_nil_iff.mp (List.reverse_eq_nil_iff.mp hr)) hw.nonempty
  | cons c cs =>
    have hc : isNameChar c = true := List.all_eq_true.mp hw.chars c (List.mem_reverse.mp (hr ▸ List.mem_cons_self))
    rw [ofRun, if_pos hc, ← hr, List.reverse_reverse, String.ofList_toList]

theorem IsWord.lexemes_eq {w : String} (hw : IsWord w) : lexemes w = [.word w] := by
  have hscan := scan_names (List.all_eq_true.mp hw.chars) [] (by simp) []
  rw [List.append_nil, List.append_nil] at hscan
  rw [lexemes, hscan, scan, hw.ofRun_eq]

/-- A word with a mark right behind it. -/
theorem IsWord.lexemes_append {w : String} (hw : IsWord w) {c : Char} (hname : isNameChar c = false)
    (hblank : isBlank c = false) (cs : List Char) :
    lexemes (w ++ String.ofList (c :: cs)) = .word w :: scan [c] cs := by
  have hchars := List.all_eq_true.mp hw.chars
  rw [lexemes, String.toList_append, String.toList_ofList, scan_names hchars [] (by simp), List.append_nil,
    scan_mark hname hblank (fun d hd => hchars d (List.mem_reverse.mp hd)), hw.ofRun_eq]
  rfl

end Pipewright
