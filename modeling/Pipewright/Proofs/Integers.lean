import Pipewright.Declaration
import Pipewright.Proofs.Grouping
import Pipewright.Proofs.Segments

/-!
# Integer expressions

Sums, differences and products of integers and variables: the value that each
language builds from them, and what they are worth. A sign in front of a numeral
belongs to the numeral; that apart, the text is read like any other
(`Language.read`), and what is read is the expression itself.
-/

namespace Pipewright

/-! ## Numerals -/

def natural? (digits : List Char) : Option Nat :=
  if digits.isEmpty || !digits.all Char.isDigit then none else some (Nat.ofDigitChars 10 digits 0)

def integer? (w : String) : Option Int :=
  match w.toList with
  | '-' :: digits => (natural? digits).map fun n => -(n : Int)
  | digits => (natural? digits).map fun n => (n : Int)

theorem natural?_toString (n : Nat) : natural? (toString n).toList = some n := by
  have hall : (Nat.toDigits 10 n).all Char.isDigit = true :=
    List.all_eq_true.mpr fun d hd => Nat.isDigit_of_mem_toDigits (by decide) (by decide) hd
  rw [Marker.toList_toString, natural?]
  simp [hall, Nat.toDigits_ne_nil, Nat.ofDigitChars_ten_toDigits]

theorem toString_negSucc (n : Nat) : toString (Int.negSucc n) = "-" ++ toString (n + 1) := rfl

theorem integer?_natural (n : Nat) : integer? (toString n) = some (n : Int) := by
  have hdigits : ∀ rest, (toString n).toList ≠ '-' :: rest := by
    intro rest h
    have hdash : '-' ∈ (toString n).toList := h ▸ List.mem_cons_self
    have hdash := Marker.isDigit_of_mem hdash
    exact absurd hdash (by decide)
  unfold integer?
  split
  case h_1 rest h => exact absurd h (hdigits rest)
  case h_2 => rw [natural?_toString]; rfl

theorem integer?_toString (n : Int) : integer? (toString n) = some n := by
  cases n with
  | ofNat n => exact integer?_natural n
  | negSucc n =>
    have hlist : (toString (Int.negSucc n)).toList = '-' :: (toString (n + 1)).toList := by
      rw [toString_negSucc, String.toList_append]
      rfl
    unfold integer?
    rw [hlist]
    simp only [natural?_toString]
    rfl

/-! ## Terms -/

inductive Operation where
  | sum | difference | product
deriving DecidableEq, Repr

namespace Operation

def arithmetic : Operation → Arithmetic
  | sum => .sum
  | difference => .difference
  | product => .product

def apply : Operation → Int → Int → Int
  | sum => (· + ·)
  | difference => (· - ·)
  | product => (· * ·)

def ofSign? (sign : Lexeme) : Option Operation :=
  [(Lexeme.mark "+", sum), (.mark "-", difference), (.mark "*", product)].lookup sign

theorem ofSign?_sign (o : Operation) : ofSign? (.mark o.arithmetic.sign) = some o := by
  cases o <;> decide

end Operation

inductive Term (α : Type) where
  | leaf (a : α)
  | combine (o : Operation) (a b : Term α)
deriving DecidableEq, Repr

inductive Atom where
  | integer (n : Int)
  | name (w : String)
deriving DecidableEq, Repr

structure IsVariableName (l : Language) (w : String) : Prop where
  isWord : IsWord w
  strength : l.strength? (.word w) = none
  negation : l.negation? (.word w) = none
  integer : integer? w = none

instance (l : Language) (w : String) : Decidable (IsVariableName l w) :=
  decidable_of_iff (IsWord w ∧ l.strength? (.word w) = none ∧ l.negation? (.word w) = none ∧ integer? w = none)
    ⟨fun ⟨h, h', h'', h'''⟩ => ⟨h, h', h'', h'''⟩, fun ⟨h, h', h'', h'''⟩ => ⟨h, h', h'', h'''⟩⟩

namespace Atom

def text : Atom → String
  | integer n => toString n
  | name w => w

def ofWord (w : String) : Atom :=
  match integer? w with
  | some n => integer n
  | none => name w

/-- What a language reads as this atom: any integer, but not any word. -/
def IsRead (l : Language) : Atom → Prop
  | integer _ => True
  | name w => IsVariableName l w

theorem IsRead.ofWord_text {l : Language} {a : Atom} (h : a.IsRead l) : ofWord a.text = a := by
  unfold ofWord
  cases a with
  | integer n => rw [text, integer?_toString]
  | name w => rw [text, h.integer]

def eval (env : String → Int) : Atom → Int
  | integer n => n
  | name w => env w

end Atom

structure Operand (l : Language) where
  value : Value
  atom : Atom
  text_eq : value.text = atom.text
  isRead : atom.IsRead l

namespace Operand

def integer (l : Language) (n : Int) : Operand l := ⟨l.int n, .integer n, rfl, trivial⟩

def ofVariable {l : Language} (var : Variable) (h : IsVariableName l var.name) : Operand l :=
  ⟨var.reference, .name var.name, rfl, h⟩

end Operand

namespace Term

variable {l : Language}

def eval (env : String → Int) : Term Atom → Int
  | leaf a => a.eval env
  | combine o a b => o.apply (a.eval env) (b.eval env)

def names : Term Atom → List String
  | leaf (.integer _) => []
  | leaf (.name w) => [w]
  | combine _ a b => a.names ++ b.names

def value : Term (Operand l) → Value
  | leaf v => v.value
  | combine o a b => o.arithmetic.combine l a.value b.value

def atoms : Term (Operand l) → Term Atom
  | leaf v => leaf v.atom
  | combine o a b => combine o a.atoms b.atoms

def phrase : Term Atom → Phrase
  | leaf a => .word a.text
  | combine o a b => .binary (.mark o.arithmetic.sign) a.phrase b.phrase

theorem eval_congr {env env' : String → Int} {t : Term Atom} (h : ∀ w ∈ t.names, env w = env' w) :
    t.eval env = t.eval env' := by
  induction t with
  | leaf a =>
    cases a with
    | integer n => rfl
    | name w => exact h w List.mem_cons_self
  | combine o a b iha ihb =>
    obtain ⟨ha, hb⟩ := List.forall_mem_append.mp h
    rw [eval, eval, iha ha, ihb hb]

end Term

def Phrase.term? : Phrase → Option (Term Atom)
  | word w => some (.leaf (.ofWord w))
  | binary sign a b => do return .combine (← Operation.ofSign? sign) (← a.term?) (← b.term?)
  | _ => none

theorem Term.term?_phrase {l : Language} (t : Term (Operand l)) : t.atoms.phrase.term? = some t.atoms := by
  induction t with
  | leaf v =>
    show some (Term.leaf (Atom.ofWord v.atom.text)) = _
    rw [v.isRead.ofWord_text]
    rfl
  | combine o a b iha ihb =>
    show (do return Term.combine (← Operation.ofSign? _) (← a.atoms.phrase.term?) (← b.atoms.phrase.term?)) = _
    rw [o.ofSign?_sign, iha, ihb]
    rfl

/-! ## Signs and names in their places -/

/-- A minus sign in front of some lexemes, which belongs to the numeral that they start with. -/
def Lexeme.signed : List Lexeme → List Lexeme
  | .word w :: rest =>
    if (natural? w.toList).isSome then .word ("-" ++ w) :: rest else .mark "-" :: .word w :: rest
  | rest => .mark "-" :: rest

namespace Language

variable (l : Language)

/-- Lexemes by their places, where an operand is due or has just ended: behind an operand a minus sign is an operator
and a word, unless it is one of the operators, is the name of a function that stands between its arguments. -/
def placed (due : Bool) : List Lexeme → List Lexeme
  | [] => []
  | .mark m :: rest =>
    let behind := placed (m != ")") rest
    if due && m == "-" then Lexeme.signed behind else .mark m :: behind
  | .word w :: rest =>
    if due then .word w :: placed (l.negation? (.word w)).isSome rest
    else (if (l.strength? (.word w)).isSome then .word w else .mark w) :: placed true rest

def term? (ts : List Lexeme) : Option (Term Atom) := (l.read (.wants []) ts).bind Phrase.term?

end Language

namespace Language

variable {l : Language}

theorem placed_close (due : Bool) (rest : List Lexeme) :
    l.placed due (.mark ")" :: rest) = .mark ")" :: l.placed false rest := by
  rw [placed, if_neg (by simp)]
  rfl

/-- Any mark but a closing parenthesis, and but a minus sign where an operand is due, has an operand behind it. -/
theorem placed_mark {due : Bool} {m : String} (hclose : m ≠ ")") (hminus : due = true → m ≠ "-") (rest : List Lexeme) :
    l.placed due (.mark m :: rest) = .mark m :: l.placed true rest := by
  have hsign : (due && m == "-") = false := by cases due <;> simp_all
  have hbehind : (m != ")") = true := by simpa using hclose
  rw [placed, hsign, hbehind]
  rfl

theorem placed_word {w : String} (h : l.negation? (.word w) = none) (rest : List Lexeme) :
    l.placed true (.word w :: rest) = .word w :: l.placed false rest := by
  rw [placed, if_pos rfl, h]
  rfl

theorem placed_infix {w : String} (h : l.strength? (.word w) = none) (rest : List Lexeme) :
    l.placed false (.word w :: rest) = .mark w :: l.placed true rest := by
  rw [placed, if_neg Bool.false_ne_true, h]
  rfl

theorem placed_negative {w : String} (hw : (natural? w.toList).isSome = true) (h : l.negation? (.word w) = none)
    (rest : List Lexeme) :
    l.placed true (.mark "-" :: .word w :: rest) = .word ("-" ++ w) :: l.placed false rest := by
  have hbehind : ("-" != ")") = true := by decide
  rw [placed, hbehind, placed_word h]
  simp [Lexeme.signed, hw]

end Language

/-! ## Terms are read back -/

/-- Where an operand is due, some lexemes take the places `us`, in which there are no marks but those of terms and
comparisons; these are read as the phrase. -/
structure Spells (l : Language) (p r : Nat) (ts us : List Lexeme) (e : Phrase) : Prop where
  placed : ∀ rest, l.placed true (ts ++ rest) = us ++ l.placed false rest
  marks : ∀ m, .mark m ∈ us → m ∈ ["(", ")", "+", "-", "*", "<"]
  reads : ReadsAs l p r us e

namespace Spells

variable {l : Language} {p p' r r' : Nat} {ts ts' us us' : List Lexeme} {e f : Phrase}

theorem mono (h : Spells l p r ts us e) (hp : p' ≤ p) (hr : r' ≤ r) : Spells l p' r' ts us e :=
  ⟨h.placed, h.marks, h.reads.mono hp hr⟩

theorem word {w : String} (hnegation : l.negation? (.word w) = none) (hstrength : l.strength? (.word w) = none) :
    Spells l p r [.word w] [.word w] (.word w) where
  placed rest := Language.placed_word hnegation rest
  marks m hm := by simp at hm
  reads := .word hnegation hstrength

theorem group (h : Spells l 1 0 ts us e) :
    Spells l p r (.mark "(" :: ts ++ [.mark ")"]) (.mark "(" :: us ++ [.mark ")"]) e where
  placed rest := by
    have hopen : ∀ rest, l.placed true (.mark "(" :: rest) = .mark "(" :: l.placed true rest :=
      Language.placed_mark (by decide) (by decide)
    rw [List.cons_append, List.cons_append, List.append_assoc, hopen, h.placed, List.singleton_append,
      Language.placed_close]
    simp
  marks m hm := by
    rcases List.mem_append.mp hm with hm | hm
    · rcases List.mem_cons.mp hm with hm | hm
      · simp_all
      · exact h.marks m hm
    · simp_all
  reads := h.reads.group

/-- Two operands with a mark between them that has some strength. -/
theorem operator {m : String} {q : Nat} (hq : l.strength? (.mark m) = some q)
    (hm : m ∈ ["+", "-", "*", "<"]) (h : Spells l p r ts us e) (h' : Spells l p r ts' us' f) (hp : q < p) (hr : q < r) :
    Spells l q q (ts ++ .mark m :: ts') (us ++ .mark m :: us') (.binary (.mark m) e f) where
  placed rest := by
    have hclose : m ≠ ")" := by rintro rfl; simp at hm
    have hsign : ∀ rest, l.placed false (.mark m :: rest) = .mark m :: l.placed true rest :=
      Language.placed_mark hclose (by simp)
    rw [List.append_assoc, List.cons_append, h.placed, hsign, h'.placed]
    simp
  marks n hn := by
    rcases List.mem_append.mp hn with hn | hn
    · exact h.marks n hn
    · rcases List.mem_cons.mp hn with hn | hn
      · cases hn
        exact List.Sublist.subset (by decide : ["+", "-", "*", "<"].Sublist ["(", ")", "+", "-", "*", "<"]) hm
      · exact h'.marks n hn
  reads := .operator hq (by simp) h.reads h'.reads hp hr

end Spells

namespace Language

/-- No language uses any other word as an operator. -/
theorem word_none (l : Language) {w : String} (hw : w ∉ ["as", "and", "or", "not"]) :
    l.negation? (.word w) = none ∧ l.strength? (.word w) = none := by
  simp only [List.mem_cons, List.not_mem_nil, or_false, not_or] at hw
  obtain ⟨has, hand, hor, hnot⟩ := hw
  constructor
  · cases l <;> simp [negation?, hnot]
  · refine Option.eq_none_iff_forall_ne_some.mpr fun q hq => ?_
    have hentry := mem_operators hq
    cases l <;> simp_all [operators]

end Language

theorem not_operator_of_integer? {w : String} (h : (integer? w).isSome = true) : w ∉ ["as", "and", "or", "not"] := by
  intro hw
  have hnone : ∀ w ∈ ["as", "and", "or", "not"], (integer? w).isSome = false := by decide
  rw [hnone w hw] at h
  cases h

theorem isNameChar_of_isDigit {c : Char} (h : c.isDigit = true) : isNameChar c = true := by
  have hbounds : 48 ≤ c.toNat ∧ c.toNat ≤ 57 := by
    simp only [Char.isDigit, Bool.and_eq_true, decide_eq_true_eq] at h
    exact ⟨UInt32.le_iff_toNat_le.mp h.1, UInt32.le_iff_toNat_le.mp h.2⟩
  have hblank : isBlank c = false := by
    simp only [isBlank, Bool.or_eq_false_iff, Bool.and_eq_false_iff, decide_eq_false_iff_not, beq_eq_false_iff_ne]
    omega
  simp [isNameChar, hblank, isWordChar, Char.isAlphanum, h]

theorem isWord_natural (n : Nat) : IsWord (toString n) where
  nonempty h := by
    have hnil : (toString n).toList = [] := by rw [h]; rfl
    rw [Marker.toList_toString] at hnil
    exact Nat.toDigits_ne_nil hnil
  chars := List.all_eq_true.mpr fun c hc => isNameChar_of_isDigit (Marker.isDigit_of_mem hc)

theorem lexemes_negative {w : String} (hw : IsWord w) : lexemes ("-" ++ w) = [.mark "-", .word w] := by
  have hsign : lexemes ("-" ++ w) = Lexeme.scan ['-'] w.toList := by
    rw [lexemes, String.toList_append]
    rfl
  rw [← hw.lexemes_eq, hsign, lexemes]
  cases hlist : w.toList with
  | nil => exact absurd (String.toList_eq_nil_iff.mp hlist) hw.nonempty
  | cons c cs =>
    have hname : isNameChar c = true := List.all_eq_true.mp hw.chars c (hlist ▸ List.mem_cons_self)
    have hoperator : isOperatorChar c = false := by
      cases h : isOperatorChar c with
      | false => rfl
      | true => simp [isNameChar_of_isOperatorChar h] at hname
    have hdash : isNameChar '-' = false := by decide
    rw [Lexeme.scan, Lexeme.scan, Lexeme.isBlank_of_isNameChar hname]
    simp [Lexeme.joins, hoperator, hdash, Lexeme.ofRun]

theorem Atom.spells {l : Language} {a : Atom} (h : a.IsRead l) (p r : Nat) :
    Spells l p r (lexemes a.text) [.word a.text] (.word a.text) := by
  cases a with
  | name w =>
    rw [text, h.isWord.lexemes_eq]
    exact .word h.negation h.strength
  | integer n =>
    have hoperator : ∀ n : Int, toString n ∉ ["as", "and", "or", "not"] := fun n =>
      not_operator_of_integer? (by rw [integer?_toString]; rfl)
    obtain ⟨hnegation, hstrength⟩ := l.word_none (hoperator n)
    cases n with
    | ofNat n =>
      rw [text, show toString (Int.ofNat n) = toString n from rfl, (isWord_natural n).lexemes_eq]
      exact .word hnegation hstrength
    | negSucc n =>
      have hdigits : (natural? (toString (n + 1)).toList).isSome = true := by rw [natural?_toString]; rfl
      have hplain := (l.word_none (hoperator (n + 1 : Nat))).1
      rw [text, toString_negSucc] at *
      rw [lexemes_negative (isWord_natural (n + 1))]
      exact ⟨fun rest => Language.placed_negative hdigits hplain rest, by simp, .word hnegation hstrength⟩

theorem Operation.spells_combine {l : Language} (o : Operation) {a b : Value} {us us' : List Lexeme} {e f : Phrase}
    (ha : ∀ p r, Spells l p r (lexemes a.operandText) us e) (hb : ∀ p r, Spells l p r (lexemes b.operandText) us' f) :
    Spells l 6 6 (lexemes (o.arithmetic.combine l a b).text) (us ++ .mark o.arithmetic.sign :: us')
      (.binary (.mark o.arithmetic.sign) e f) := by
  have hlt := Nat.lt_succ_self o.arithmetic.strength
  have hsign : o.arithmetic.sign ∈ ["+", "-", "*", "<"] := by cases o <;> decide
  have h := Spells.operator (o.arithmetic.strength?_sign l) hsign (ha _ _) (hb _ _) hlt hlt
  rw [← Arithmetic.lexemes_combine] at h
  exact h.mono o.arithmetic.six_le_strength o.arithmetic.six_le_strength

namespace Term

variable {l : Language}

theorem value_leaf (v : Operand l) : (leaf v).value = v.value := rfl

theorem value_combine (o : Operation) (a b : Term (Operand l)) :
    (combine o a b).value = o.arithmetic.combine l a.value b.value := rfl

/-- Where it stands as an operand the text is read as the term, whatever stands around it. -/
theorem spells_operandText (t : Term (Operand l)) :
    ∃ us, ∀ p r, Spells l p r (lexemes t.value.operandText) us t.atoms.phrase := by
  induction t with
  | leaf v =>
    have hatom : ∀ p r, Spells l p r _ _ (leaf v).atoms.phrase := Atom.spells v.isRead
    unfold Value.operandText
    rw [value_leaf, v.text_eq]
    split
    · rw [lexemes_group]
      exact ⟨_, fun p r => (hatom 1 0).group⟩
    · exact ⟨_, hatom⟩
  | combine o a b iha ihb =>
    obtain ⟨us, ha⟩ := iha
    obtain ⟨us', hb⟩ := ihb
    have htext : (combine o a b).value.operandText = "(" ++ (o.arithmetic.combine l a.value b.value).text ++ ")" :=
      if_pos (o.arithmetic.combine_kind l a.value b.value)
    rw [htext, lexemes_group]
    exact ⟨_, fun p r => ((o.spells_combine ha hb).mono (by decide) (by decide)).group⟩

/-- The text as it is: it may stand next to what binds looser than a sum. -/
theorem spells_text (t : Term (Operand l)) : ∃ us, Spells l 6 6 (lexemes t.value.text) us t.atoms.phrase := by
  cases t with
  | leaf v =>
    rw [value_leaf, v.text_eq]
    exact ⟨_, Atom.spells v.isRead 6 6⟩
  | combine o a b =>
    obtain ⟨us, ha⟩ := a.spells_operandText
    obtain ⟨us', hb⟩ := b.spells_operandText
    exact ⟨_, o.spells_combine ha hb⟩

end Term

namespace Spells

variable {l : Language} {p r : Nat} {ts us : List Lexeme} {t : Term (Operand l)}

theorem read_eq {e : Phrase} (h : Spells l p r ts us e) : l.read (.wants []) us = some e := by
  have hrun := h.reads.run [] [] (fun _ hf => nomatch hf) Language.follows_nil
  rwa [List.append_nil] at hrun

theorem term?_eq (h : Spells l p r ts us t.atoms.phrase) : l.term? us = some t.atoms := by
  rw [Language.term?, h.read_eq]
  exact t.term?_phrase

end Spells

end Pipewright
