import Pipewright.Proofs.Quotation

/-!
# Templates in literals

In a Kotlin literal a letter, an underscore or an opening brace behind a `$` starts
a template, unless a backslash escapes the `$`: what follows is code. `quote` lets a
`$` stand for itself. So a literal denotes its text exactly if no `$` of the text has
such a character behind it, and else the text behind the first that has becomes code
(`Language.kotlin_string_read`).
-/

namespace Pipewright

/-! ## Reading a Kotlin literal -/

/-- Which characters are letters. One that ends a literal, a line or a run of plain characters is none. -/
structure Letters where
  isLetter : Char → Bool
  not_quote : isLetter '"' = false
  not_backslash : isLetter '\\' = false
  not_newline : isLetter '\n' = false

def Letters.ascii : Letters := ⟨Char.isAlpha, by decide, by decide, by decide⟩

def hexValue? (c : Char) : Option Nat :=
  if c.isDigit then some (c.toNat - '0'.toNat)
  else if 'a' ≤ c ∧ c ≤ 'f' then some (c.toNat - 'a'.toNat + 10)
  else if 'A' ≤ c ∧ c ≤ 'F' then some (c.toNat - 'A'.toNat + 10)
  else none

def codePoint? (digits : List Char) : Option Char := do
  let n ← digits.foldlM (fun n d => (hexValue? d).map (16 * n + ·)) 0
  if n.isValidChar then some (Char.ofNat n) else none

def escape? : List Char → Option (Char × List Char)
  | 't' :: rest => some ('\t', rest)
  | 'b' :: rest => some ('\x08', rest)
  | 'n' :: rest => some ('\n', rest)
  | 'r' :: rest => some ('\r', rest)
  | '\x27' :: rest => some ('\x27', rest)
  | '"' :: rest => some ('"', rest)
  | '\\' :: rest => some ('\\', rest)
  | '$' :: rest => some ('$', rest)
  | 'u' :: a :: b :: c :: d :: rest => (codePoint? [a, b, c, d]).map (·, rest)
  | _ => none

theorem length_lt_of_escape? {cs rest : List Char} {c : Char} (h : escape? cs = some (c, rest)) :
    rest.length < cs.length := by
  unfold escape? at h
  split at h <;> simp_all
  omega

inductive LiteralReading where
  /-- What a literal without templates denotes, and what follows it. -/
  | plain (text rest : List Char)
  /-- What a literal denotes in front of its first template, and what stands behind the `$` of that. -/
  | template (text code : List Char)
  | broken
deriving DecidableEq, Repr

def LiteralReading.cons (c : Char) : LiteralReading → LiteralReading
  | plain text rest => plain (c :: text) rest
  | template text code => template (c :: text) code
  | broken => broken

namespace Letters

variable (L : Letters)

/-- What stands behind a `$` makes a template of it. -/
def opens : List Char → Bool
  | [] => false
  | c :: _ => c == '_' || c == '{' || L.isLetter c

def read (cs : List Char) : LiteralReading :=
  match cs with
  | [] => .broken
  | c :: rest =>
    if c = '"' then .plain [] rest
    else if c = '\\' then
      match h : escape? rest with
      | some (d, more) =>
        have := length_lt_of_escape? h
        (read more).cons d
      | none => .broken
    else if c = '$' ∧ L.opens rest = true then .template [] rest
    else if c = '\n' ∨ c = '\r' then .broken
    else (read rest).cons c
termination_by cs.length
decreasing_by
  · exact Nat.lt_succ_of_lt this
  · exact Nat.lt_succ_self rest.length

def readLiteral (text : String) : LiteralReading :=
  match text.toList with
  | '"' :: cs => L.read cs
  | _ => .broken

theorem read_quote (rest : List Char) : L.read ('"' :: rest) = .plain [] rest := by
  rw [read, if_pos rfl]

theorem read_escape {cs more : List Char} {c : Char} (h : escape? cs = some (c, more)) :
    L.read ('\\' :: cs) = (L.read more).cons c := by
  rw [read, if_neg (by decide), if_pos rfl]
  split
  · rename_i h'
    rw [h] at h'
    cases h'
    rfl
  · rename_i h'
    rw [h] at h'
    cases h'

theorem read_template {rest : List Char} (h : L.opens rest = true) : L.read ('$' :: rest) = .template [] rest := by
  rw [read, if_neg (by decide), if_neg (by decide), if_pos ⟨rfl, h⟩]

theorem read_plain {c : Char} {rest : List Char} (hquote : c ≠ '"') (hbackslash : c ≠ '\\') (hnewline : c ≠ '\n')
    (hreturn : c ≠ '\r') (hopens : ¬(c = '$' ∧ L.opens rest = true)) : L.read (c :: rest) = (L.read rest).cons c := by
  rw [read, if_neg hquote, if_neg hbackslash, if_neg hopens, if_neg (not_or.mpr ⟨hnewline, hreturn⟩)]

/-! ## Texts with a template -/

/-- The first `$` of a text that would start a template stands between these two parts. -/
structure TemplateAt (text front behind : List Char) : Prop where
  whole : text = front ++ '$' :: behind
  opens : L.opens behind = true
  first : ∀ {front' behind'}, text = front' ++ '$' :: behind' → L.opens behind' = true → front <+: front'

def template? : List Char → Option (List Char × List Char)
  | [] => none
  | c :: rest =>
    if c = '$' ∧ L.opens rest = true then some ([], rest)
    else (template? rest).map (Prod.map (c :: ·) id)

variable {L}

theorem TemplateAt.cons {c : Char} {text front behind : List Char} (h : L.TemplateAt text front behind)
    (hc : ¬(c = '$' ∧ L.opens text = true)) : L.TemplateAt (c :: text) (c :: front) behind where
  whole := by rw [h.whole, List.cons_append]
  opens := h.opens
  first {front' behind'} hwhole hopens := by
    cases front' with
    | nil =>
      obtain ⟨rfl, rfl⟩ := List.cons.inj hwhole
      exact absurd ⟨rfl, hopens⟩ hc
    | cons d front' =>
      obtain ⟨rfl, hrest⟩ := List.cons.inj hwhole
      exact List.cons_prefix_cons.mpr ⟨rfl, h.first hrest hopens⟩

theorem templateAt_of_template? : ∀ {text front behind : List Char}, L.template? text = some (front, behind) →
    L.TemplateAt text front behind
  | [], _, _, h => by cases h
  | c :: rest, front, behind, h => by
    unfold template? at h
    split at h
    · rename_i hc
      obtain ⟨rfl, rfl⟩ := by simpa using h
      exact ⟨by rw [hc.1]; rfl, hc.2, fun _ _ => List.nil_prefix⟩
    · rename_i hc
      obtain ⟨⟨front', behind'⟩, hrest, heq⟩ := Option.map_eq_some_iff.mp h
      obtain ⟨rfl, rfl⟩ := Prod.mk.inj heq
      exact (templateAt_of_template? hrest).cons hc

theorem template?_eq_none_iff : ∀ {text : List Char},
    L.template? text = none ↔ ∀ front behind, text = front ++ '$' :: behind → L.opens behind = false
  | [] => by simp [template?]
  | c :: rest => by
    have ih : L.template? rest = none ↔ ∀ front behind, rest = front ++ '$' :: behind → L.opens behind = false :=
      template?_eq_none_iff
    unfold template?
    split
    · rename_i hc
      refine iff_of_false (by simp) fun h => ?_
      have hnot := h [] rest (by rw [hc.1]; rfl)
      rw [hc.2] at hnot
      cases hnot
    · rename_i hc
      rw [Option.map_eq_none_iff, ih]
      constructor
      · intro h front behind hwhole
        cases front with
        | nil =>
          obtain ⟨rfl, rfl⟩ := List.cons.inj hwhole
          simpa using hc
        | cons d front => exact h front behind (List.cons.inj hwhole).2
      · exact fun h front behind hwhole => h (c :: front) behind (by rw [hwhole, List.cons_append])

/-! ## Reading what is quoted -/

variable (L)

theorem opens_escaped (cs rest : List Char) : L.opens (escaped cs ++ '"' :: rest) = L.opens cs := by
  fun_cases escaped cs with
  | case1 => simp [opens, L.not_quote]
  | case2 cs => simp [opens, L.not_quote, L.not_backslash]
  | case3 cs => simp [opens, L.not_backslash]
  | case4 cs => simp [opens, L.not_backslash, L.not_newline]
  | case5 c cs => rfl

def reading (text rest : List Char) : LiteralReading :=
  match L.template? text with
  | none => .plain text rest
  | some (front, behind) => .template front (escaped behind ++ '"' :: rest)

theorem reading_cons {c : Char} {text : List Char} (h : ¬(c = '$' ∧ L.opens text = true)) (rest : List Char) :
    L.reading (c :: text) rest = (L.reading text rest).cons c := by
  unfold reading
  rw [template?, if_neg h]
  cases L.template? text <;> rfl

theorem reading_template {text : List Char} (h : L.opens text = true) (rest : List Char) :
    L.reading ('$' :: text) rest = .template [] (escaped text ++ '"' :: rest) := by
  rw [reading, template?, if_pos ⟨rfl, h⟩]

theorem read_escaped (text rest : List Char) (hreturn : '\r' ∉ text) :
    L.read (escaped text ++ '"' :: rest) = L.reading text rest := by
  fun_induction escaped text with
  | case1 => exact L.read_quote rest
  | case2 text ih | case3 text ih | case4 text ih =>
    have htext : '\r' ∉ text := fun h => hreturn (List.mem_cons_of_mem _ h)
    rw [List.cons_append, List.cons_append, L.read_escape rfl, ih htext, reading_cons _ (by simp)]
  | case5 c text hquote hbackslash hnewline ih =>
    obtain ⟨hc, htext⟩ := not_or.mp (List.mem_cons.not.mp hreturn)
    rw [List.cons_append]
    by_cases hopens : c = '$' ∧ L.opens text = true
    · obtain ⟨rfl, hopens⟩ := hopens
      rw [L.read_template (by rwa [opens_escaped]), reading_template _ hopens]
    · rw [L.read_plain hquote hbackslash hnewline (Ne.symm hc) (by rwa [opens_escaped]), ih htext,
        reading_cons _ hopens]

theorem readLiteral_quote (text rest : String) : L.readLiteral (quote text ++ rest) =
    L.read (escaped text.toList ++ '"' :: rest.toList) := by
  unfold readLiteral
  rw [toList_quote_append]
  rfl

end Letters

/-- A literal of a text without carriage returns denotes it, and ends where it does, exactly if no `$` in the text would
start a template. Else it denotes the text in front of the first that would, and a template begins there, whose code is
what the text has next. The name of a label is such a literal. -/
theorem Language.kotlin_string_read (L : Letters) (text rest : String) (hreturn : '\r' ∉ text.toList) :
    let literal := (Language.kotlin.string text).text
    (L.readLiteral (literal ++ rest) = .plain text.toList rest.toList ↔
      ∀ front behind, text.toList = front ++ '$' :: behind → L.opens behind = false) ∧
    (L.readLiteral (literal ++ rest) = .plain text.toList rest.toList ∨
      ∃ front behind, L.TemplateAt text.toList front behind ∧
        L.readLiteral (literal ++ rest) = .template front (escaped behind ++ '"' :: rest.toList)) ∧
    ∀ (visibility : Visibility) (var : Variable) (modifiers : Modifiers),
      (Language.kotlin.instanceVariable visibility var (some text) modifiers).above =
        some ("@Label(name = " ++ literal ++ ")") := by
  have hread := (L.readLiteral_quote text rest).trans (L.read_escaped text.toList rest.toList hreturn)
  unfold Letters.reading at hread
  refine ⟨?_, ?_, fun visibility var modifiers => rfl⟩
  · change L.readLiteral (quote text ++ rest) = _ ↔ _
    rw [hread, ← L.template?_eq_none_iff]
    cases L.template? text.toList <;> simp
  · change L.readLiteral (quote text ++ rest) = _ ∨ ∃ _ _, _ ∧ L.readLiteral (quote text ++ rest) = _
    cases htemplate : L.template? text.toList with
    | none => exact .inl (by rw [hread, htemplate])
    | some parts =>
      exact .inr ⟨parts.1, parts.2, Letters.templateAt_of_template? htemplate, by rw [hread, htemplate]⟩

/-- An amount behind a `$` is text, a name is code. -/
theorem Language.kotlin_string_read_dollar :
    let read := fun text rest => Letters.ascii.readLiteral ((Language.kotlin.string text).text ++ rest)
    '\r' ∉ "for $5".toList ∧ read "for $5" ")" = .plain "for $5".toList ")".toList ∧
      '\r' ∉ "for $x".toList ∧ read "for $x" ")" ≠ .plain "for $x".toList ")".toList ∧
      read "for $x" ")" = .template "for ".toList "x\")".toList := by
  intro read
  have hamount : '\r' ∉ "for $5".toList := by decide
  have hname : '\r' ∉ "for $x".toList := by decide
  refine ⟨hamount, ?_, hname, ?_, by decide +kernel⟩
  · exact (kotlin_string_read .ascii "for $5" ")" hamount).1.mpr (Letters.template?_eq_none_iff.mp (by decide))
  · rw [ne_eq, (kotlin_string_read .ascii "for $x" ")" hname).1, ← Letters.template?_eq_none_iff]
    decide

end Pipewright
