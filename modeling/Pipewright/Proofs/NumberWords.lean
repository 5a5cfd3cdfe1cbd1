import Pipewright.Proofs.Casts

/-!
# Words that are read as numbers

A conversion writes a literal where the text of its operand is read as a number,
and a cast otherwise. A text that starts with no digit, sign or point is read as a
number if it is one of the words for what is not finite, with or without the
suffix of the type behind it. That is the one way in which a conversion loses an
identifier (`Conversion.identifier_kept_iff`).
-/

namespace Pipewright

def isNumeralStart (c : Char) : Bool := c.isDigit || c == '+' || c == '-' || c == '.'

def StartsNoNumeral (cs : List Char) : Prop := ∀ c ∈ cs.head?, isNumeralStart c = false

/-- How a number that is not finite is printed which these characters spell, in any case. -/
def notFinite? (cs : List Char) : Option String :=
  let word := cs.map Char.toLower
  if word = "inf".toList ∨ word = "infinity".toList then some "inf"
  else if word = "nan".toList then some "NaN"
  else none

/-! ## Readers -/

namespace StartsNoNumeral

variable {cs : List Char} (h : StartsNoNumeral cs)
include h

theorem takeSign_eq : takeSign cs = (false, cs) := by
  unfold takeSign
  split
  · exact absurd (h '-' rfl) (by decide)
  · exact absurd (h '+' rfl) (by decide)
  · rfl

theorem isDigit_eq : ∀ c ∈ cs.head?, c.isDigit = false := by
  intro c hc
  have hstart := h c hc
  simp only [isNumeralStart, Bool.or_eq_false_iff] at hstart
  exact hstart.1.1.1

theorem readInt64_eq : readInt64 cs = none := by
  have hdigits : (cs.isEmpty || !cs.all Char.isDigit) = true := by
    cases cs with
    | nil => rfl
    | cons c cs => simp [h.isDigit_eq c rfl]
  unfold readInt64
  rw [h.takeSign_eq]
  simp only [hdigits, if_true]

/-- The reader of floating-point numbers finds no digits, so it can only find a word. -/
theorem read?_eq {f : BinaryFormat} (hinfinity : decimalLiteral (Binary.infinity false : Binary f).text = "inf")
    (hnan : decimalLiteral (Binary.notANumber : Binary f).text = "NaN") :
    (Binary.read? cs : Option (Binary f)).map (fun x => decimalLiteral x.text) = notFinite? cs := by
  have hwhole : cs.takeWhile Char.isDigit = [] := by
    cases cs with
    | nil => rfl
    | cons c cs => exact List.takeWhile_cons_of_neg (by simp [h.isDigit_eq c rfl])
  have hrest : cs.dropWhile Char.isDigit = cs := dropWhile_eq_self h.isDigit_eq
  have hpoint : ∀ more, cs ≠ '.' :: more := by
    rintro more rfl
    exact absurd (h '.' rfl) (by decide)
  unfold Binary.read? notFinite?
  rw [h.takeSign_eq]
  simp only [hwhole, hrest]
  split
  · exact congrArg some hinfinity
  · split
    · exact congrArg some hnan
    · rfl

theorem dropTail (p : Char → Bool) : StartsNoNumeral (dropTail p cs) := by
  intro c hc
  obtain ⟨tail, hcut, -⟩ := dropTail_prefix p cs
  refine h c ?_
  rw [hcut, List.head?_append, Option.mem_def.mp hc]
  rfl

end StartsNoNumeral

theorem text_infinity : decimalLiteral (Binary.infinity false : Single).text = "inf" ∧
    decimalLiteral (Binary.infinity false : Double).text = "inf" := by
  decide +kernel

theorem text_notANumber : decimalLiteral (Binary.notANumber : Single).text = "NaN" ∧
    decimalLiteral (Binary.notANumber : Double).text = "NaN" := by
  decide +kernel

/-! ## Conversions -/

namespace Language

variable {l : Language} (hl : l ≠ .python) (v : Value)
include hl

theorem intOf_eq : l.intOf v =
    match (numeral [] v).bind readInt64 with
    | some n => l.int n
    | none => l.cast v l.intType := by
  cases l with
  | python => exact absurd rfl hl
  | java | kotlin | lua => rfl

theorem longOf_eq : l.longOf v =
    match (numeral ['l', 'L'] v).bind readInt64 with
    | some n => l.long n
    | none => l.cast v l.longType := by
  cases l with
  | python => exact absurd rfl hl
  | java | kotlin | lua => rfl

theorem floatOf_eq : l.floatOf v =
    match ((numeral ['f', 'F'] v).bind Binary.read?).map fun x : Single => decimalLiteral x.text with
    | some text => .new l.floatType (text ++ "f")
    | none => l.cast v l.floatType := by
  cases l with
  | python => exact absurd rfl hl
  | java | kotlin | lua =>
    unfold floatOf
    cases (numeral ['f', 'F'] v).bind Binary.read? <;> rfl

theorem doubleOf_eq : l.doubleOf v =
    match ((numeral ['d', 'D'] v).bind Binary.read?).map fun x : Double => decimalLiteral x.text with
    | some text => .new l.doubleType text
    | none => l.cast v l.doubleType := by
  cases l with
  | python => exact absurd rfl hl
  | java | kotlin | lua =>
    unfold doubleOf
    cases (numeral ['d', 'D'] v).bind Binary.read? <;> rfl

end Language

namespace Conversion

/-- The literal that a conversion makes of a word for what is not finite, with any letters of the suffix behind it. -/
def misread? (k : Conversion) (word : String) : Option String :=
  let numeral (suffixes : List Char) := Pipewright.dropTail suffixes.contains word.toList
  match k with
  | cast _ | toInt | toLong => none
  | toFloat => (notFinite? (numeral ['f', 'F'])).map (· ++ "f")
  | toDouble => notFinite? (numeral ['d', 'D'])

variable {l : Language}

section
variable {v : Value} (hstart : ∀ word ∈ v.text?.map trim, StartsNoNumeral word.toList)
include hstart

theorem bind_readInt64 (suffixes : List Char) : (Language.numeral suffixes v).bind readInt64 = none := by
  refine Option.bind_eq_none_iff.mpr fun cs hcs => ?_
  obtain ⟨text, htext, rfl⟩ := Option.map_eq_some_iff.mp hcs
  exact ((hstart _ (Option.mem_map_of_mem trim htext)).dropTail _).readInt64_eq

theorem bind_read? {f : BinaryFormat} (hinfinity : decimalLiteral (Binary.infinity false : Binary f).text = "inf")
    (hnan : decimalLiteral (Binary.notANumber : Binary f).text = "NaN") (suffixes : List Char) :
    ((Language.numeral suffixes v).bind Binary.read?).map (fun x : Binary f => decimalLiteral x.text) =
      (v.text?.map trim).bind fun word => notFinite? (Pipewright.dropTail suffixes.contains word.toList) := by
  cases htext : v.text? with
  | none => simp [Language.numeral, htext]
  | some text =>
    have hword := hstart (trim text) (by simp [htext])
    simp only [Language.numeral, htext, Option.map_some, Option.bind_some]
    exact (hword.dropTail _).read?_eq hinfinity hnan

/-- Without a numeral to start with, a text becomes a literal only if it is one of the words. -/
theorem apply_eq (hl : l ≠ .python) (k : Conversion) :
    k.apply l v = match (v.text?.map trim).bind k.misread? with
      | some literal => .new (k.ty l) literal
      | none => l.cast v (k.ty l) := by
  have hnone : (∀ word, k.misread? word = none) → (v.text?.map trim).bind k.misread? = none := fun h =>
    Option.bind_eq_none_iff.mpr fun word _ => h word
  cases k with
  | cast ty =>
    rw [hnone fun _ => rfl]
    rfl
  | toInt =>
    rw [hnone fun _ => rfl, apply, Language.intOf_eq hl, bind_readInt64 hstart]
    rfl
  | toLong =>
    rw [hnone fun _ => rfl, apply, Language.longOf_eq hl, bind_readInt64 hstart]
    rfl
  | toFloat =>
    have hmap : (v.text?.map trim).bind toFloat.misread? = ((v.text?.map trim).bind fun word =>
        notFinite? (Pipewright.dropTail ['f', 'F'].contains word.toList)).map (· ++ "f") :=
      Option.map_bind.symm
    rw [apply, Language.floatOf_eq hl, bind_read? hstart text_infinity.1 text_notANumber.1, hmap]
    cases (v.text?.map trim).bind fun word => notFinite? (Pipewright.dropTail ['f', 'F'].contains word.toList) with
    | none => rfl
    | some word => rfl
  | toDouble =>
    have hsame : toDouble.misread? = fun word => notFinite? (Pipewright.dropTail ['d', 'D'].contains word.toList) := rfl
    rw [apply, Language.doubleOf_eq hl, bind_read? hstart text_infinity.2 text_notANumber.2, hsame, ty]

end

end Conversion

/-! ## Identifiers -/

structure IsIdentifier (w : String) : Prop extends IsWord w where
  first : w.toList.head?.any Char.isDigit = false

instance (w : String) : Decidable (IsIdentifier w) :=
  decidable_of_iff (IsWord w ∧ w.toList.head?.any Char.isDigit = false) ⟨fun ⟨h, h'⟩ => ⟨h, h'⟩, fun h => ⟨h.1, h.2⟩⟩

theorem IsIdentifier.startsNoNumeral {w : String} (h : IsIdentifier w) : StartsNoNumeral w.toList := by
  intro c hc
  have hname : isNameChar c = true := List.all_eq_true.mp h.chars c (List.mem_of_mem_head? hc)
  have hdigit : c.isDigit = false := by
    have hfirst := h.first
    rwa [Option.mem_def.mp hc] at hfirst
  have hmark : ∀ d, isNameChar d = false → (c == d) = false := by
    intro d hd
    refine beq_eq_false_iff_ne.mpr ?_
    rintro rfl
    rw [hname] at hd
    cases hd
  rw [isNumeralStart, hdigit, hmark '+' (by decide), hmark '-' (by decide), hmark '.' (by decide)]
  rfl

/-- A cast leaves all that its operand spells. -/
theorem mem_lexemes_cast {l : Language} {v : Value} {ty : Ty} {t : Lexeme} (h : t ∈ lexemes v.text) :
    t ∈ lexemes (l.cast v ty).text := by
  cases l with
  | java =>
    have htext : (Language.java.cast v ty).text = "((" ++ ty.spelling ++ ") " ++ "(" ++ (v.text ++ ")" ++ ")") := by
      change "((" ++ ty.spelling ++ ") (" ++ v.text ++ "))" = _
      rw [← String.toList_inj]
      simp
    rw [htext, lexemes_append_open, lexemes_append_close]
    simp [h]
  | kotlin =>
    have htext : (Language.kotlin.cast v ty).text = "(" ++ (v.text ++ " " ++ ("as " ++ ty.spelling)) ++ ")" := by
      change "(" ++ v.text ++ " as " ++ ty.spelling ++ ")" = _
      rw [← String.toList_inj]
      simp
    rw [htext, lexemes_group, lexemes_append_blank]
    simp [h]
  | lua | python => exact h

theorem notFinite?_cases {cs : List Char} {word : String} (h : notFinite? cs = some word) :
    word = "inf" ∨ word = "NaN" := by
  simp only [notFinite?] at h
  split at h
  · exact .inl (Option.some.inj h).symm
  · split at h
    · exact .inr (Option.some.inj h).symm
    · cases h

namespace Conversion

variable {l : Language}

theorem isWord_of_misread? {k : Conversion} {w literal : String} (h : k.misread? w = some literal) : IsWord literal := by
  have hwords : ∀ word ∈ ["inf", "NaN"], IsWord word ∧ IsWord (word ++ "f") := by decide
  cases k with
  | cast ty | toInt | toLong => cases h
  | toFloat =>
    obtain ⟨word, hword, rfl⟩ := Option.map_eq_some_iff.mp h
    exact (hwords word (by simpa using notFinite?_cases hword)).2
  | toDouble => exact (hwords literal (by simpa using notFinite?_cases h)).1

/-- A conversion makes a literal only of what starts like a numeral, and of the words for what is not finite. It
casts any other identifier, which so stays in the text. -/
theorem identifier_kept_iff (hl : l ≠ .python) (k : Conversion) (v : Value) :
    ((∀ word ∈ v.text?.map trim, StartsNoNumeral word.toList) →
      k.apply l v = match (v.text?.map trim).bind k.misread? with
        | some literal => .new (k.ty l) literal
        | none => l.cast v (k.ty l)) ∧
    ∀ w, v.text?.map trim = some w → IsIdentifier w →
      (k.misread? w = none → k.apply l v = l.cast v (k.ty l)) ∧
      (.word w ∈ lexemes (k.apply l v).text ↔ ∀ literal ∈ k.misread? w, literal = w) := by
  refine ⟨fun hstart => apply_eq hstart hl k, fun w hw hname => ?_⟩
  have hstart : ∀ word ∈ v.text?.map trim, StartsNoNumeral word.toList := by
    intro word hword
    rw [hw] at hword
    obtain rfl := Option.some.inj hword
    exact hname.startsNoNumeral
  have happly := apply_eq hstart hl k
  rw [hw, Option.bind_some] at happly
  cases hliteral : k.misread? w with
  | none =>
    rw [hliteral] at happly
    obtain ⟨text, htext, rfl⟩ := Option.map_eq_some_iff.mp hw
    have hword : .word (trim text) ∈ lexemes v.text := by
      rw [Value.text, htext, Option.getD_some, ← lexemes_trim, hname.lexemes_eq]
      exact List.mem_singleton.mpr rfl
    rw [happly]
    simp [mem_lexemes_cast hword]
  | some literal =>
    rw [hliteral] at happly
    have hlexemes : lexemes (k.apply l v).text = [.word literal] := by
      rw [happly]
      exact (isWord_of_misread? hliteral).lexemes_eq
    rw [hlexemes]
    simp [eq_comm]

/-- An identifier stays, whatever white space is around it; one is lost that is a word with the suffix of doubles. -/
theorem identifier_kept_iff_nand : Language.java ≠ .python ∧ IsIdentifier "total" ∧ IsIdentifier "nand" ∧
    .word "total" ∈ lexemes (toDouble.apply .java (.raw " total\n")).text ∧
    toDouble.apply .java (.raw "nand") = .new Language.java.doubleType "NaN" ∧
    .word "nand" ∉ lexemes (toDouble.apply .java (.raw "nand")).text := by
  have hjava : Language.java ≠ .python := by decide
  have htotal : IsIdentifier "total" := by decide +kernel
  have hnand : IsIdentifier "nand" := by decide +kernel
  have hmisread : toDouble.misread? "nand" = some "NaN" := by decide +kernel
  have hkept := (identifier_kept_iff hjava toDouble (.raw " total\n")).2 "total" (by decide +kernel) htotal
  have hlost := identifier_kept_iff hjava toDouble (.raw "nand")
  have htrim : (Value.raw "nand").text?.map trim = some "nand" := by decide +kernel
  refine ⟨hjava, htotal, hnand, hkept.2.mpr ?_, ?_, fun hmem => ?_⟩
  · have hnone : toDouble.misread? "total" = none := by decide +kernel
    simp [hnone]
  · have happly := hlost.1 fun word hword => by
      rw [htrim] at hword
      exact Option.some.inj hword ▸ hnand.startsNoNumeral
    rwa [htrim, Option.bind_some, hmisread] at happly
  · have heq := (hlost.2 "nand" htrim hnand).2.mp hmem "NaN" hmisread
    exact absurd heq (by decide)

end Conversion

end Pipewright
