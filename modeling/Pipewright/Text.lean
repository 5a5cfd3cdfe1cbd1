/-!
# Text

Texts are taken apart as lists of characters. White space is Unicode's property
of that name, not the ASCII class: no-break and ideographic spaces count, the
zero-width space does not. A line ends at a line feed; one carriage return right
before it belongs to the terminator. The last line needs no terminator, and then
a carriage return at its end is text.
-/

namespace Pipewright

/-! ## White space -/

/-- The code points with the property `White_Space`. -/
def isBlank (c : Char) : Bool :=
  let n := c.toNat
  (0x09 ≤ n && n ≤ 0x0D) || n == 0x20 || n == 0x85 || n == 0xA0 || n == 0x1680 ||
    (0x2000 ≤ n && n ≤ 0x200A) || n == 0x2028 || n == 0x2029 || n == 0x202F || n == 0x205F || n == 0x3000

def dropTail (p : Char → Bool) (cs : List Char) : List Char :=
  (cs.reverse.dropWhile p).reverse

def trim (text : String) : String :=
  String.ofList (dropTail isBlank (text.toList.dropWhile isBlank))

def isBlankText (text : String) : Bool :=
  text.toList.all isBlank

/-! ## Words and lines -/

def wordsFrom (isGap : Char → Bool) : (word text : List Char) → List (List Char)
  | [], [] => []
  | word, [] => [word.reverse]
  | word, c :: rest =>
    if isGap c then
      if word.isEmpty then wordsFrom isGap [] rest else word.reverse :: wordsFrom isGap [] rest
    else wordsFrom isGap (c :: word) rest

def words (isGap : Char → Bool) (text : String) : List String :=
  (wordsFrom isGap [] text.toList).map String.ofList

/-- `current` holds the characters of the open line, the last one first. -/
def linesFrom : List Char → List Char → List (List Char)
  | [], [] => []
  | current, [] => [current.reverse]
  | '\r' :: current, '\n' :: rest => current.reverse :: linesFrom [] rest
  | current, '\n' :: rest => current.reverse :: linesFrom [] rest
  | current, c :: rest => linesFrom (c :: current) rest

def lines (text : String) : List String :=
  (linesFrom [] text.toList).map String.ofList

def tabs (count : Nat) : String :=
  String.ofList (List.replicate count '\t')

def indentLines (indent : Nat) (text : String) : String :=
  String.join ((lines text).map fun line => if line.isEmpty then "\n" else tabs indent ++ line ++ "\n")

/-! ## Searching -/

def hasInfix (part : List Char) : List Char → Bool
  | [] => part.isEmpty
  | c :: rest => part.isPrefixOf (c :: rest) || hasInfix part rest

theorem hasInfix_iff {part text : List Char} : hasInfix part text ↔ part <:+: text := by
  induction text with
  | nil => rw [hasInfix, List.isEmpty_iff, List.infix_nil]
  | cons c rest ih => rw [hasInfix, Bool.or_eq_true, List.isPrefixOf_iff_prefix, ih, List.infix_cons_iff]

def after? : (start : List Char) → List Char → Option (List Char)
  | [], rest => some rest
  | _ :: _, [] => none
  | s :: start, c :: rest => if s = c then after? start rest else none

theorem after?_eq_some_iff {start text rest : List Char} : after? start text = some rest ↔ text = start ++ rest := by
  induction start generalizing text with
  | nil => simp [after?, eq_comm]
  | cons s start ih =>
    cases text with
    | nil => simp [after?]
    | cons c text =>
      by_cases h : s = c
      · simp [after?, h, ih]
      · simp [after?, h, Ne.symm h]

/-! ## Identifiers -/

def isWordChar (c : Char) : Bool :=
  c.isAlphanum || c == '_'

/-- The text as a class name: what is no ASCII letter, digit or underscore becomes an underscore, and the result is
repaired where it would be empty or start with a digit. -/
def validIdentifier (name : String) : String :=
  match name.toList.map fun c => if isWordChar c then c else '_' with
  | [] => "Pipeline"
  | c :: rest => String.ofList (if c.isDigit then '_' :: c :: rest else c :: rest)

/-! ## Quoting -/

def escaped : List Char → List Char
  | [] => []
  | '"' :: rest => '\\' :: '"' :: escaped rest
  | '\\' :: rest => '\\' :: '\\' :: escaped rest
  | '\n' :: rest => '\\' :: 'n' :: escaped rest
  | c :: rest => c :: escaped rest

/-- A literal between double quotes: these and a backslash are escaped by a backslash, a line feed is written `\n`. -/
def quote (text : String) : String :=
  String.ofList ('"' :: escaped text.toList ++ ['"'])

end Pipewright
