import Pipewright.Proofs.Places

/-!
# Reading what is quoted

A literal is read from its opening quote to the first quote that no backslash
escapes. What `quote` writes is read back as the text that was quoted, whatever
stands behind it, and it has no line feed: so the text of a label neither ends its
literal nor breaks its line (`quote_read`).
-/

namespace Pipewright

def denoted : Char → Char
  | 'n' => '\n'
  | c => c

/-- Reads behind an opening quote: the text up to the quote that ends it, and what follows that. -/
def readBody : List Char → Option (List Char × List Char)
  | [] => none
  | '"' :: rest => some ([], rest)
  | ['\\'] => none
  | '\\' :: c :: rest => (readBody rest).map (Prod.map (denoted c :: ·) id)
  | c :: rest => (readBody rest).map (Prod.map (c :: ·) id)

def readLiteral? (text : String) : Option (String × String) :=
  match text.toList with
  | '"' :: cs => (readBody cs).map (Prod.map String.ofList String.ofList)
  | _ => none

theorem readBody_plain {c : Char} (hquote : c ≠ '"') (hbackslash : c ≠ '\\') (rest : List Char) :
    readBody (c :: rest) = (readBody rest).map (Prod.map (c :: ·) id) := by
  rw [readBody]
  · exact fun h => absurd h hquote
  · exact fun h => absurd h hbackslash
  · exact fun _ _ h => absurd h hbackslash

theorem readBody_escaped (cs rest : List Char) : readBody (escaped cs ++ '"' :: rest) = some (cs, rest) := by
  fun_induction escaped cs with
  | case1 => rfl
  | case2 cs ih | case3 cs ih | case4 cs ih => simp [readBody, ih, denoted]
  | case5 c cs hquote hbackslash _ ih =>
    rw [List.cons_append, readBody_plain hquote hbackslash, ih]
    rfl

theorem newline_not_mem_escaped (cs : List Char) : '\n' ∉ escaped cs := by
  fun_induction escaped cs with
  | case1 => exact List.not_mem_nil
  | case2 cs ih | case3 cs ih | case4 cs ih => simpa using ih
  | case5 c cs _ _ hnewline ih =>
    rw [List.mem_cons, not_or]
    exact ⟨fun h => hnewline h.symm, ih⟩

theorem toList_quote (text : String) : (quote text).toList = '"' :: (escaped text.toList ++ ['"']) := by
  rw [quote, String.toList_ofList]
  rfl

theorem toList_quote_append (text rest : String) :
    (quote text ++ rest).toList = '"' :: (escaped text.toList ++ '"' :: rest.toList) := by
  simp [String.toList_append, toList_quote]

theorem newline_not_mem_quote (text : String) : '\n' ∉ (quote text).toList := by
  rw [toList_quote]
  simpa using newline_not_mem_escaped text.toList

theorem readLiteral?_quote (text rest : String) : readLiteral? (quote text ++ rest) = some (text, rest) := by
  unfold readLiteral?
  rw [toList_quote_append]
  simp [readBody_escaped]

theorem quote_injective : Function.Injective quote := by
  intro a b h
  have ha := readLiteral?_quote a ""
  rw [h, readLiteral?_quote b ""] at ha
  injection ha with ha
  exact (congrArg Prod.fst ha).symm

/-! ## Labels -/

theorem visible_quoted (front text behind : String) (hfront : '\n' ∉ front.toList) (hbehind : '\n' ∉ behind.toList) :
    Visible (front ++ quote text ++ behind) where
  newline := by
    simp only [String.toList_append, List.mem_append, not_or]
    exact ⟨⟨hfront, newline_not_mem_quote text⟩, hbehind⟩
  shows := ⟨'"', by simp [String.toList_append, toList_quote], by decide⟩

/-- What stands around the literal of a label in the line above the variable of a name. -/
def Language.labelFrame (l : Language) (name : String) : Option (String × String) :=
  match l with
  | java | kotlin => some ("@Label(name = ", ")")
  | lua => some ("label(", ", " ++ quote name ++ ")")
  | python => none

theorem Visible.aboveLine {line : String} (h : Visible line) (indent : Nat) :
    RenderStyle.aboveLine indent (some line) = tabs indent ++ line ++ "\n" := by
  obtain ⟨c, hc, -⟩ := h.shows
  have hempty : line.isEmpty = false := by
    rw [String.isEmpty_eq_false_iff]
    rintro rfl
    cases hc
  unfold RenderStyle.aboveLine
  simp only [hempty, Bool.false_eq_true, if_false]
  exact h.indentLines indent

/-- The line above a labelled variable is one line, in which only the literal depends on the label. -/
theorem aboveLine_label (l : Language) (visibility : Visibility) (var : Variable) (label : String)
    (modifiers : Modifiers) (indent : Nat) :
    let above := RenderStyle.aboveLine indent (l.instanceVariable visibility var (some label) modifiers).above
    match l.labelFrame var.name with
    | some (front, behind) => above = tabs indent ++ (front ++ quote label ++ behind) ++ "\n" ∧
        '\n' ∉ (front ++ quote label ++ behind).toList
    | none => above = "" := by
  have hname : '\n' ∉ (", " ++ quote var.name ++ ")").toList := by
    simp [String.toList_append, newline_not_mem_quote]
  cases l with
  | java | kotlin =>
    have hvisible := visible_quoted "@Label(name = " label ")" (by decide +kernel) (by decide +kernel)
    exact ⟨hvisible.aboveLine indent, hvisible.newline⟩
  | lua =>
    have hline : s!"label({quote label}, {quote var.name})" =
        "label(" ++ quote label ++ (", " ++ quote var.name ++ ")") := by
      rw [← String.append_assoc, ← String.append_assoc]
      rfl
    have hvisible := visible_quoted "label(" label _ (by decide +kernel) hname
    refine ⟨?_, hvisible.newline⟩
    change RenderStyle.aboveLine indent (some s!"label({quote label}, {quote var.name})") = _
    rw [hline]
    exact hvisible.aboveLine indent
  | python => rfl

/-- What is quoted is read back as it was, up to the end of its literal and no further, whatever follows; no line ends in
it. Hence no two texts are quoted alike, and a label stands in its literal on one line. -/
theorem quote_read :
    (∀ text rest, readLiteral? (quote text ++ rest) = some (text, rest)) ∧
    (∀ text, '\n' ∉ (quote text).toList) ∧ Function.Injective quote ∧
    ∀ (l : Language) (visibility : Visibility) (var : Variable) (label : String) (modifiers : Modifiers) (indent : Nat),
      let above := RenderStyle.aboveLine indent (l.instanceVariable visibility var (some label) modifiers).above
      match l.labelFrame var.name with
      | some (front, behind) => above = tabs indent ++ (front ++ quote label ++ behind) ++ "\n" ∧
          '\n' ∉ (front ++ quote label ++ behind).toList
      | none => above = "" :=
  ⟨readLiteral?_quote, newline_not_mem_quote, quote_injective, aboveLine_label⟩

end Pipewright
