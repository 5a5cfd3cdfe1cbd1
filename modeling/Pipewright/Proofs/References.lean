import Pipewright.Language.Line
import Pipewright.Proofs.FreshName
import Pipewright.Text

/-!
# The variables that an expression refers to

The text of an expression is read word by word. A word is a variable unless it is
a numeral, a keyword or the name of a type, follows the mark of a member, or is
called. Literals between double quotes have no words. In Python the variable of a
comprehension is its own.
-/

namespace Pipewright

/-! ## Words and marks -/

inductive Token where
  | word (text : String)
  | literal
  | mark (c : Char)
deriving DecidableEq, Repr

/-- Where a reader is: behind the open word `run`, its last character first, or inside a literal. -/
inductive Reading where
  | plain (run : List Char)
  | quoted
  | escaping
deriving DecidableEq, Repr

namespace Reading

def close : Reading → List Token
  | plain (c :: run) => [.word (String.ofList (c :: run).reverse)]
  | _ => []

def step : Reading → Char → List Token × Reading
  | plain run, c =>
    if isWordChar c then ([], plain (c :: run))
    else if c = '"' then ((plain run).close ++ [.literal], quoted)
    else if c = ' ' then ((plain run).close, plain [])
    else ((plain run).close ++ [.mark c], plain [])
  | quoted, c => ([], if c = '"' then plain [] else if c = '\\' then escaping else quoted)
  | escaping, _ => ([], quoted)

def read : Reading → List Char → List Token × Reading
  | r, [] => ([], r)
  | r, c :: cs =>
    let (tokens, r) := r.step c
    let (more, r) := read r cs
    (tokens ++ more, r)

theorem read_append (r : Reading) (cs ds : List Char) :
    r.read (cs ++ ds) = ((r.read cs).1 ++ ((r.read cs).2.read ds).1, ((r.read cs).2.read ds).2) := by
  induction cs generalizing r with
  | nil => simp [read]
  | cons c cs ih => simp [read, ih, List.append_assoc]

theorem read_word {w : List Char} (hw : ∀ c ∈ w, isWordChar c = true) (run : List Char) :
    (plain run).read w = ([], plain (w.reverse ++ run)) := by
  induction w generalizing run with
  | nil => simp [read]
  | cons c w ih =>
    have hc := hw c List.mem_cons_self
    simp [read, step, hc, ih fun d hd => hw d (List.mem_cons_of_mem _ hd)]

theorem read_escaped (cs rest : List Char) : quoted.read (escaped cs ++ rest) = quoted.read rest := by
  fun_induction escaped cs with
  | case1 => rfl
  | case2 cs ih => simpa [read, step] using ih
  | case3 cs ih => simpa [read, step] using ih
  | case4 cs ih => simpa [read, step] using ih
  | case5 c cs h1 h2 h3 ih =>
    have hq : c ≠ '"' := fun h => h1 h
    have hb : c ≠ '\\' := fun h => h2 h
    simpa [read, step, hq, hb] using ih

end Reading

def tokens (text : String) : List Token :=
  let (tokens, r) := (Reading.plain []).read text.toList
  tokens ++ r.close

/-! ## Variables -/

/-- The words of the four languages that stand in expressions without being names. -/
def keywords : List String :=
  ["for", "in", "if", "else", "new", "null", "nil", "None", "true", "false", "True", "False", "and", "or", "not", "is",
    "as", "this", "lambda"]

def typeNames : List String := Catalog.table.map fun entry => entry.2.name

def isNumeral (word : String) : Bool := word.toList.head?.any Char.isDigit

def isCalled : List Token → Bool
  | .mark '(' :: _ => true
  | _ => false

def comprehended : List Token → List String
  | .word "for" :: .word x :: rest => x :: comprehended rest
  | _ :: rest => comprehended rest
  | [] => []

namespace Language

variable (l : Language)

def isMemberMark (c : Char) : Bool := c == '.' || (l == lua && c == ':')

/-- The variables among some tokens; `member` says whether these stand behind the mark of a member. -/
def named : (member : Bool) → List Token → List String
  | _, [] => []
  | _, .literal :: rest => named false rest
  | _, .mark c :: rest => named (l.isMemberMark c) rest
  | member, .word w :: rest =>
    if member || isNumeral w || keywords.contains w || typeNames.contains w || isCalled rest then named false rest
    else w :: named false rest

def references (text : String) : List String :=
  let own := if l = python then comprehended (tokens text) else []
  (l.named false (tokens text)).filter fun x => !own.contains x

end Language

example : Language.java.references "addRectTarget(\"red \" + i, rects1.get(i), Imgproc.RETR_LIST)" =
    ["i", "rects1", "i"] := by
  decide +kernel

/-! ## Reading texts in parts -/

structure IsName (x : String) : Prop where
  nonempty : x ≠ ""
  chars : ∀ c ∈ x.toList, isWordChar c = true

theorem IsName.close {x : String} (hx : IsName x) : (Reading.plain x.toList.reverse).close = [.word x] := by
  cases hr : x.toList.reverse with
  | nil => exact absurd (String.toList_eq_nil_iff.mp (List.reverse_eq_nil_iff.mp hr)) hx.nonempty
  | cons d ds => simp [Reading.close, ← hr]

instance (x : String) : Decidable (IsName x) :=
  decidable_of_iff ((x == "") = false ∧ x.toList.all isWordChar = true)
    ⟨fun h => ⟨by simpa using h.1, by simpa using h.2⟩, fun h => ⟨by simpa using h.nonempty, by simpa using h.chars⟩⟩

def Lexes (cs : List Char) (ts : List Token) : Prop := (Reading.plain []).read cs = (ts, .plain [])

instance (cs : List Char) (ts : List Token) : Decidable (Lexes cs ts) := inferInstanceAs (Decidable (_ = _))

namespace Lexes

variable {cs ds : List Char} {ts us : List Token}

theorem append (h : Lexes cs ts) (h' : Lexes ds us) : Lexes (cs ++ ds) (ts ++ us) := by
  unfold Lexes at *
  rw [Reading.read_append, h, h']

theorem tokens_eq {text : String} (h : Lexes text.toList ts) : tokens text = ts := by
  unfold Lexes at h
  simp [tokens, h, Reading.close]

theorem quote (text : String) : Lexes (quote text).toList [.literal] := by
  have hopen : (Reading.plain []).step '"' = ([.literal], .quoted) := by decide
  have hclose : Reading.quoted.read ['"'] = ([], .plain []) := by decide
  unfold Lexes Pipewright.quote
  rw [String.toList_ofList, List.cons_append, Reading.read, hopen]
  simp only [Reading.read_escaped, hclose, List.append_nil]

/-- A name is read when a mark follows it. -/
theorem name {x : String} (hx : IsName x) (c : Char) (hc : isWordChar c = false ∧ c ≠ '"' ∧ c ≠ ' ') :
    Lexes (x.toList ++ [c]) [.word x, .mark c] := by
  unfold Lexes
  rw [Reading.read_append, Reading.read_word hx.chars]
  simp [Reading.read, Reading.step, hc, hx.close]

/-- A name is read when the text ends. -/
theorem tokens_append {a x : String} (h : Lexes a.toList ts) (hx : IsName x) : tokens (a ++ x) = ts ++ [.word x] := by
  unfold Lexes at h
  simp [tokens, Reading.read_append, h, Reading.read_word hx.chars, hx.close]

end Lexes

theorem IsName.tokens_eq {x : String} (hx : IsName x) : tokens x = [.word x] := by
  simp [tokens, Reading.read_word hx.chars, hx.close]

/-! ## The expressions of nodes -/

theorem cv2_mem_typeNames : "cv2" ∈ typeNames := by decide +kernel

theorem imgproc_mem_typeNames : "Imgproc" ∈ typeNames := by decide +kernel

theorem isName_conversion (source target : ColorSpace) :
    IsName s!"COLOR_{(source.conversionNames target).1}2{(source.conversionNames target).2}" := by
  cases source <;> cases target <;> decide +kernel

namespace Language

variable (l : Language) {x y z : String} (hx : IsName x) (hy : IsName y) (hz : IsName z)

theorem references_subset_named (text : String) : l.references text ⊆ l.named false (tokens text) := by
  unfold references
  exact List.filter_subset_self _

include hx

theorem references_name : l.references x ⊆ [x] := by
  refine List.Subset.trans (l.references_subset_named x) ?_
  rw [hx.tokens_eq]
  simp only [named]
  split
  · simp
  · simp

theorem references_convert {conversion constant : String} (hconstant : IsName constant)
    (hconversion : conversion = "cv2." ++ constant) :
    l.references ("cv2.cvtColor(" ++ x ++ ", " ++ conversion ++ ")") ⊆ [x] := by
  subst hconversion
  have hopen : Lexes "cv2.cvtColor(".toList [.word "cv2", .mark '.', .word "cvtColor", .mark '('] := by decide
  have hmid : Lexes " cv2.".toList [.word "cv2", .mark '.'] := by decide
  have h := ((hopen.append (.name hx ',' (by decide))).append hmid).append (.name hconstant ')' (by decide))
  refine List.Subset.trans (l.references_subset_named _) ?_
  rw [Lexes.tokens_eq (by simpa using h)]
  simp [named, isMemberMark, isCalled, cv2_mem_typeNames]
  split <;> simp

theorem references_inRange (hy : IsName y) (hz : IsName z) :
    l.references ("cv2.inRange(" ++ x ++ ", " ++ y ++ ", " ++ z ++ ")") ⊆ [x, y, z] := by
  have hopen : Lexes "cv2.inRange(".toList [.word "cv2", .mark '.', .word "inRange", .mark '('] := by decide
  have hmid : Lexes " ".toList [] := by decide
  have h := (((hopen.append (.name hx ',' (by decide))).append hmid).append
    ((Lexes.name hy ',' (by decide)).append hmid)).append (.name hz ')' (by decide))
  refine List.Subset.trans (l.references_subset_named _) ?_
  rw [Lexes.tokens_eq (by simpa using h)]
  simp [named, isMemberMark, isCalled, cv2_mem_typeNames]
  split_ifs <;> simp

theorem references_findContours :
    l.references ("cv2.findContours(" ++ x ++ ", cv2.RETR_EXTERNAL, cv2.CHAIN_APPROX_SIMPLE)[0]") ⊆ [x] := by
  have hopen : Lexes "cv2.findContours(".toList [.word "cv2", .mark '.', .word "findContours", .mark '('] := by decide
  have hclose : Lexes " cv2.RETR_EXTERNAL, cv2.CHAIN_APPROX_SIMPLE)[0]".toList
      [.word "cv2", .mark '.', .word "RETR_EXTERNAL", .mark ',', .word "cv2", .mark '.', .word "CHAIN_APPROX_SIMPLE",
        .mark ')', .mark '[', .word "0", .mark ']'] := by decide
  have h := (hopen.append (.name hx ',' (by decide))).append hclose
  have hzero : isNumeral "0" = true := by decide
  refine List.Subset.trans (l.references_subset_named _) ?_
  rw [Lexes.tokens_eq (by simpa using h)]
  simp [named, isMemberMark, isCalled, cv2_mem_typeNames, hzero]
  split <;> simp

theorem references_comprehension :
    python.references ("[cv2.boundingRect(contour) for contour in " ++ x ++ "]") ⊆ [x] := by
  have hopen : Lexes "[cv2.boundingRect(contour) for contour in ".toList
      [.mark '[', .word "cv2", .mark '.', .word "boundingRect", .mark '(', .word "contour", .mark ')', .word "for",
        .word "contour", .word "in"] := by decide
  have h := hopen.append (.name hx ']' (by decide))
  unfold references
  rw [Lexes.tokens_eq (by simpa using h)]
  have hfor : "for" ∈ keywords := by decide
  have hin : "in" ∈ keywords := by decide
  have hcontour : ¬((isNumeral "contour" = true ∨ "contour" ∈ keywords) ∨ "contour" ∈ typeNames) := by decide +kernel
  simp [named, isMemberMark, isCalled, cv2_mem_typeNames, hfor, hin, comprehended, hcontour]
  split
  · simp
  · exact List.filter_subset_self _

theorem references_returned : l.references ("[], " ++ x ++ ", []") ⊆ [x] := by
  have hopen : Lexes "[], ".toList [.mark '[', .mark ']', .mark ','] := by decide
  have hclose : Lexes " []".toList [.mark '[', .mark ']'] := by decide
  have h := (hopen.append (.name hx ',' (by decide))).append hclose
  refine List.Subset.trans (l.references_subset_named _) ?_
  rw [Lexes.tokens_eq (by simpa using h)]
  simp [named, isMemberMark, isCalled]
  split <;> simp

theorem references_labeled (label : String) : l.references (quote label ++ " + " ++ x) ⊆ [x] := by
  have hplus : Lexes " + ".toList [.mark '+'] := by decide
  have h := (Lexes.quote label).append hplus
  refine List.Subset.trans (l.references_subset_named _) ?_
  rw [Lexes.tokens_append (by simpa using h) hx]
  simp [named, isMemberMark, isCalled]
  split <;> simp

theorem references_size : l.references (x ++ ".size()") ⊆ [x] := by
  have hclose : Lexes "size()".toList [.word "size", .mark '(', .mark ')'] := by decide
  have h := (Lexes.name hx '.' (by decide)).append hclose
  refine List.Subset.trans (l.references_subset_named _) ?_
  rw [Lexes.tokens_eq (by simpa using h)]
  simp [named, isMemberMark, isCalled]
  split <;> simp

theorem references_get (hy : IsName y) : l.references (x ++ ".get(" ++ y ++ ")") ⊆ [x, y] := by
  have hmid : Lexes "get(".toList [.word "get", .mark '('] := by decide
  have h := ((Lexes.name hx '.' (by decide)).append hmid).append (.name hy ')' (by decide))
  refine List.Subset.trans (l.references_subset_named _) ?_
  rw [Lexes.tokens_eq (by simpa using h)]
  simp [named, isMemberMark, isCalled]
  split_ifs <;> simp

/-- A call that shows `x`; its last argument and what follows has no variables. -/
theorem references_stream {method ending : String} (hmethod : IsName method) {ts : List Token}
    (hending : Lexes ending.toList ts) (hnone : l.named false ts = []) :
    l.references (method ++ "(0, " ++ x ++ ", " ++ ending) ⊆ [x] := by
  have hopen : Lexes "0, ".toList [.word "0", .mark ','] := by decide
  have hmid : Lexes " ".toList [] := by decide
  have h := (((Lexes.name hmethod '(' (by decide)).append hopen).append ((Lexes.name hx ',' (by decide)).append
    hmid)).append hending
  have hzero : isNumeral "0" = true := by decide
  refine List.Subset.trans (l.references_subset_named _) ?_
  rw [Lexes.tokens_eq (by simpa using h)]
  simp [named, isMemberMark, isCalled, hzero, hnone]
  split <;> simp

omit hx in
theorem references_imgproc {constant : String} (hconstant : IsName constant) :
    l.references ("Imgproc." ++ constant) = [] := by
  have hopen : Lexes "Imgproc.".toList [.word "Imgproc", .mark '.'] := by decide
  refine List.subset_nil.mp (List.Subset.trans (l.references_subset_named _) ?_)
  rw [Lexes.tokens_append hopen hconstant]
  simp [named, isMemberMark, isCalled, imgproc_mem_typeNames]

end Language

end Pipewright
