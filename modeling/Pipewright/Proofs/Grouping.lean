import Pipewright.Proofs.Phrases

/-!
# The grouping of expressions

Trees of arithmetic, comparisons and logic over names and numerals, and the value
each language builds from them. A result of arithmetic stands in parentheses when
it is an operand, a comparison binds looser than arithmetic, and logic puts its
operands in parentheses itself; so the text is read back as the tree.
-/

namespace Pipewright

/-! ## Operations -/

inductive Arithmetic where
  | sum | difference | product | quotient
deriving DecidableEq, Repr

inductive Comparison where
  | lessThan | lessOrEqual | greaterThan | greaterOrEqual | equals | notEquals
deriving DecidableEq, Repr

inductive Connective where
  | both | either
deriving DecidableEq, Repr

namespace Arithmetic

def sign : Arithmetic → String
  | sum => "+"
  | difference => "-"
  | product => "*"
  | quotient => "/"

def strength : Arithmetic → Nat
  | sum | difference => 6
  | product | quotient => 7

def combine (l : Language) : Arithmetic → Value → Value → Value
  | sum => l.sum
  | difference => l.difference
  | product => l.product
  | quotient => l.quotient

variable (l : Language) (o : Arithmetic) (a b : Value)

theorem combine_text : (o.combine l a b).text = a.operandText ++ " " ++ o.sign ++ " " ++ b.operandText := by
  cases o <;> rfl

theorem combine_kind : (o.combine l a b).kind = .operation := by
  cases o <;> rfl

theorem lexemes_sign : lexemes o.sign = [.mark o.sign] := by
  cases o <;> decide +kernel

theorem lexemes_combine :
    lexemes (o.combine l a b).text = lexemes a.operandText ++ .mark o.sign :: lexemes b.operandText := by
  rw [combine_text, lexemes_between o.lexemes_sign]

theorem sign_inj {o o' : Arithmetic} (h : o.sign = o'.sign) : o = o' := by
  cases o <;> cases o' <;> simp_all [sign]

theorem strength?_sign : l.strength? (.mark o.sign) = some o.strength := by
  cases l <;> cases o <;> decide +kernel

theorem six_le_strength : 6 ≤ o.strength := by
  cases o <;> decide

theorem one_le_strength : 1 ≤ o.strength := Nat.le_trans (by decide) o.six_le_strength

end Arithmetic

namespace Comparison

def sign (l : Language) : Comparison → String
  | lessThan => "<"
  | lessOrEqual => "<="
  | greaterThan => ">"
  | greaterOrEqual => ">="
  | equals => "=="
  | notEquals =>
    match l with
    | .lua => "~="
    | _ => "!="

def combine (l : Language) : Comparison → Value → Value → Value
  | lessThan => l.lessThan
  | lessOrEqual => l.lessOrEqual
  | greaterThan => l.greaterThan
  | greaterOrEqual => l.greaterOrEqual
  | equals => l.equals
  | notEquals => l.notEquals

variable (l : Language) (c : Comparison) (a b : Value)

theorem combine_text : (c.combine l a b).text = a.text ++ " " ++ c.sign l ++ " " ++ b.text := by
  cases c <;> rfl

theorem lexemes_sign : lexemes (c.sign l) = [.mark (c.sign l)] := by
  cases l <;> cases c <;> decide +kernel

theorem lexemes_combine :
    lexemes (c.combine l a b).text = lexemes a.text ++ .mark (c.sign l) :: lexemes b.text := by
  rw [combine_text, lexemes_between (c.lexemes_sign l)]

theorem sign_inj {c c' : Comparison} (h : c.sign l = c'.sign l) : c = c' := by
  cases l <;> cases c <;> cases c' <;> simp_all [sign]

theorem strength?_sign : ∃ q, l.strength? (.mark (c.sign l)) = some q ∧ 4 ≤ q ∧ q < 6 := by
  have hsign : l.strength? (.mark (c.sign l)) = some 4 ∨ l.strength? (.mark (c.sign l)) = some 5 := by
    cases l <;> cases c <;> decide +kernel
  rcases hsign with h | h
  · exact ⟨4, h, by decide, by decide⟩
  · exact ⟨5, h, by decide, by decide⟩

end Comparison

namespace Connective

def sign (l : Language) : Connective → String
  | both => if l.spellsLogic then "and" else "&&"
  | either => if l.spellsLogic then "or" else "||"

def strength : Connective → Nat
  | both => 2
  | either => 1

def lexeme (l : Language) (k : Connective) : Lexeme :=
  if l.spellsLogic then .word (k.sign l) else .mark (k.sign l)

def combine (l : Language) : Connective → Value → Value → Value
  | both => l.both
  | either => l.either

variable (l : Language) (k : Connective) (a b : Value)

theorem combine_text :
    (k.combine l a b).text = "(" ++ a.text ++ ")" ++ " " ++ k.sign l ++ " " ++ ("(" ++ b.text ++ ")") := by
  have htext : (k.combine l a b).text = "(" ++ a.text ++ ") " ++ k.sign l ++ " (" ++ b.text ++ ")" := by
    cases k <;> rfl
  rw [htext, ← String.toList_inj]
  simp

theorem lexemes_sign : lexemes (k.sign l) = [k.lexeme l] := by
  cases l <;> cases k <;> decide +kernel

theorem lexemes_combine : lexemes (k.combine l a b).text =
    lexemes ("(" ++ a.text ++ ")") ++ k.lexeme l :: lexemes ("(" ++ b.text ++ ")") := by
  rw [combine_text, lexemes_between (k.lexemes_sign l)]

theorem lexeme_inj {k k' : Connective} (h : k.lexeme l = k'.lexeme l) : k = k' := by
  cases l <;> cases k <;> cases k' <;> first | rfl | exact absurd h (by decide)

theorem strength?_lexeme : l.strength? (k.lexeme l) = some k.strength := by
  cases l <;> cases k <;> decide +kernel

theorem strength_bounds : 1 ≤ k.strength ∧ k.strength < 3 := by
  cases k <;> decide

theorem lexeme_ne_as : k.lexeme l ≠ .word "as" := by
  cases l <;> cases k <;> decide

end Connective

section
variable {l : Language}

theorem Language.ne_of_strength {t u : Lexeme} {p q : Nat} (ht : l.strength? t = some p) (hu : l.strength? u = some q)
    (hpq : p ≠ q) : t ≠ u := by
  rintro rfl
  exact hpq (Option.some.inj (ht.symm.trans hu))

theorem Arithmetic.ne_comparison (o : Arithmetic) (c : Comparison) : Lexeme.mark o.sign ≠ .mark (c.sign l) := by
  obtain ⟨q, hq, -, hlt⟩ := c.strength?_sign l
  have := o.six_le_strength
  exact Language.ne_of_strength (o.strength?_sign l) hq (by omega)

theorem Arithmetic.ne_connective (o : Arithmetic) (k : Connective) : Lexeme.mark o.sign ≠ k.lexeme l := by
  have := o.six_le_strength
  have := k.strength_bounds
  exact Language.ne_of_strength (o.strength?_sign l) (k.strength?_lexeme l) (by omega)

theorem Comparison.ne_connective (c : Comparison) (k : Connective) : Lexeme.mark (c.sign l) ≠ k.lexeme l := by
  obtain ⟨q, hq, hle, -⟩ := c.strength?_sign l
  have := k.strength_bounds
  exact Language.ne_of_strength hq (k.strength?_lexeme l) (by omega)

end

namespace Language

def negationSign (l : Language) : Lexeme :=
  if l.spellsLogic then .word "not" else .mark "!"

variable (l : Language) (a : Value)

theorem lexemes_negation :
    lexemes (l.negation a).text = l.negationSign :: .mark "(" :: lexemes a.text ++ [.mark ")"] := by
  have htext : (l.negation a).text = (if l.spellsLogic then "not " else "!") ++ "(" ++ (a.text ++ ")") := by
    rw [← String.append_assoc]
    rfl
  have hclose := lexemes_append_close a.text ""
  rw [String.append_empty] at hclose
  rw [htext, lexemes_append_open, hclose]
  cases l <;> rfl

theorem negation?_negationSign : ∃ q, l.negation? l.negationSign = some q ∧ q < 10 := by
  cases l
  case python => exact ⟨3, by decide, by decide⟩
  all_goals exact ⟨9, by decide, by decide⟩

end Language

/-! ## Trees -/

/-- A value of any kind and type whose text is a name or a numeral, and none of the words that are operators. -/
structure Leaf (l : Language) where
  value : Value
  isWord : IsWord value.text
  strength : l.strength? (.word value.text) = none
  negation : l.negation? (.word value.text) = none

def Leaf.raw (l : Language) (w : String)
    (h : IsWord w ∧ l.strength? (.word w) = none ∧ l.negation? (.word w) = none) : Leaf l :=
  ⟨.raw w, h.1, h.2.1, h.2.2⟩

inductive Number (α : Type) where
  | leaf (a : α)
  | combine (o : Arithmetic) (a b : Number α)
deriving DecidableEq, Repr

inductive Truth (α : Type) where
  | compare (c : Comparison) (a b : Number α)
  | connect (k : Connective) (a b : Truth α)
  | negate (a : Truth α)
deriving DecidableEq, Repr

inductive Expression (α : Type) where
  | number (n : Number α)
  | truth (t : Truth α)
deriving DecidableEq, Repr

variable {l : Language}

namespace Number

def value : Number (Leaf l) → Value
  | leaf v => v.value
  | combine o a b => o.combine l a.value b.value

def words : Number (Leaf l) → Number String
  | leaf v => leaf v.value.text
  | combine o a b => combine o a.words b.words

def phrase : Number String → Phrase
  | leaf w => .word w
  | combine o a b => .binary (.mark o.sign) a.phrase b.phrase

end Number

namespace Truth

def value : Truth (Leaf l) → Value
  | compare c a b => c.combine l a.value b.value
  | connect k a b => k.combine l a.value b.value
  | negate a => l.negation a.value

def words : Truth (Leaf l) → Truth String
  | compare c a b => compare c a.words b.words
  | connect k a b => connect k a.words b.words
  | negate a => negate a.words

def phrase (l : Language) : Truth String → Phrase
  | compare c a b => .binary (.mark (c.sign l)) a.phrase b.phrase
  | connect k a b => .binary (k.lexeme l) (a.phrase l) (b.phrase l)
  | negate a => .negation l.negationSign (a.phrase l)

end Truth

namespace Expression

def value : Expression (Leaf l) → Value
  | number n => n.value
  | truth t => t.value

def words : Expression (Leaf l) → Expression String
  | number n => .number n.words
  | truth t => .truth t.words

def phrase (l : Language) : Expression String → Phrase
  | number n => n.phrase
  | truth t => t.phrase l

end Expression

/-! ## Different trees are different phrases -/

theorem Number.phrase_inj {a b : Number String} (h : a.phrase = b.phrase) : a = b := by
  induction a generalizing b with
  | leaf v =>
    cases b with
    | leaf w => exact congrArg leaf (Phrase.word.inj h)
    | combine o c d => cases h
  | combine o a₁ a₂ ih₁ ih₂ =>
    cases b with
    | leaf w => cases h
    | combine o' b₁ b₂ =>
      obtain ⟨hsign, h₁, h₂⟩ := Phrase.binary.inj h
      rw [Arithmetic.sign_inj (Lexeme.mark.inj hsign), ih₁ h₁, ih₂ h₂]

theorem Truth.phrase_inj {a b : Truth String} (h : a.phrase l = b.phrase l) : a = b := by
  induction a generalizing b with
  | compare c a₁ a₂ =>
    cases b with
    | compare c' b₁ b₂ =>
      obtain ⟨hsign, h₁, h₂⟩ := Phrase.binary.inj h
      rw [Comparison.sign_inj l (Lexeme.mark.inj hsign), Number.phrase_inj h₁, Number.phrase_inj h₂]
    | connect k b₁ b₂ => exact absurd (Phrase.binary.inj h).1 (c.ne_connective k)
    | negate b => cases h
  | connect k a₁ a₂ ih₁ ih₂ =>
    cases b with
    | compare c b₁ b₂ => exact absurd (Phrase.binary.inj h).1.symm (c.ne_connective k)
    | connect k' b₁ b₂ =>
      obtain ⟨hsign, h₁, h₂⟩ := Phrase.binary.inj h
      rw [Connective.lexeme_inj l hsign, ih₁ h₁, ih₂ h₂]
    | negate b => cases h
  | negate a ih =>
    cases b with
    | compare c b₁ b₂ => cases h
    | connect k b₁ b₂ => cases h
    | negate b => rw [ih (Phrase.negation.inj h).2]

theorem Number.phrase_ne_truth (n : Number String) (t : Truth String) : n.phrase ≠ t.phrase l := by
  intro h
  cases n with
  | leaf w => cases t <;> cases h
  | combine o a b =>
    cases t with
    | compare c a' b' => exact o.ne_comparison c (Phrase.binary.inj h).1
    | connect k a' b' => exact o.ne_connective k (Phrase.binary.inj h).1
    | negate t => cases h

theorem Expression.phrase_inj {e f : Expression String} (h : e.phrase l = f.phrase l) : e = f := by
  cases e with
  | number n =>
    cases f with
    | number m => rw [Number.phrase_inj h]
    | truth t => exact absurd h (n.phrase_ne_truth t)
  | truth t =>
    cases f with
    | number n => exact absurd h.symm (n.phrase_ne_truth t)
    | truth u => rw [Truth.phrase_inj h]

/-! ## Trees are read back -/

/-- The text of a value is read as a phrase where it stands as an operand, whatever stands around it. -/
def IsOperand (l : Language) (v : Value) (e : Phrase) : Prop :=
  ∀ p r, ReadsAs l p r (lexemes v.operandText) e

/-- Behind a left operand and in front of a right one, an operator keeps what binds tighter than it does. -/
theorem ReadsAs.operator {t : Lexeme} {q p r : Nat} {ts us : List Lexeme} {a b : Phrase} (hq : l.strength? t = some q)
    (has : t ≠ .word "as") (ha : ReadsAs l p r ts a) (hb : ReadsAs l p r us b) (hp : q < p) (hr : q < r) :
    ReadsAs l q q (ts ++ t :: us) (.binary t a b) :=
  (ReadsAs.binary hq has ha (Nat.le_of_lt hp) (.inl hr) hb hp).mono (Nat.le_refl q) (by omega)

theorem ReadsAs.parenthesized {s : String} {p r : Nat} {e : Phrase} (h : ReadsAs l 1 0 (lexemes s) e) :
    ReadsAs l p r (lexemes ("(" ++ s ++ ")")) e := by
  rw [lexemes_group]
  exact h.group

theorem Leaf.reads (v : Leaf l) (p r : Nat) : ReadsAs l p r (lexemes v.value.text) (.word v.value.text) := by
  rw [v.isWord.lexemes_eq]
  exact ReadsAs.word v.negation v.strength

theorem Arithmetic.reads_sign (o : Arithmetic) {ts us : List Lexeme} {e f : Phrase} (ha : ∀ p r, ReadsAs l p r ts e)
    (hb : ∀ p r, ReadsAs l p r us f) :
    ReadsAs l o.strength o.strength (ts ++ .mark o.sign :: us) (.binary (.mark o.sign) e f) := by
  have hlt : o.strength < o.strength + 1 := Nat.lt_succ_self _
  exact ReadsAs.operator (o.strength?_sign l) (by simp) (ha _ _) (hb _ _) hlt hlt

theorem Arithmetic.reads_combine (o : Arithmetic) {a b : Value} {e f : Phrase} (ha : IsOperand l a e)
    (hb : IsOperand l b f) :
    ReadsAs l o.strength o.strength (lexemes (o.combine l a b).text) (.binary (.mark o.sign) e f) := by
  rw [o.lexemes_combine]
  exact o.reads_sign ha hb

theorem Number.isOperand (n : Number (Leaf l)) : IsOperand l n.value n.words.phrase := by
  intro p r
  induction n generalizing p r with
  | leaf v =>
    unfold Value.operandText
    split
    · exact (v.reads 1 0).parenthesized
    · exact v.reads p r
  | combine o a b iha ihb =>
    have htext : (combine o a b).value.operandText = "(" ++ (o.combine l a.value b.value).text ++ ")" :=
      if_pos (o.combine_kind l a.value b.value)
    rw [htext]
    exact ((o.reads_combine iha ihb).mono o.one_le_strength (Nat.zero_le _)).parenthesized

theorem Number.reads (n : Number (Leaf l)) : ReadsAs l 6 6 (lexemes n.value.text) n.words.phrase := by
  cases n with
  | leaf v => exact v.reads 6 6
  | combine o a b => exact (o.reads_combine a.isOperand b.isOperand).mono o.six_le_strength o.six_le_strength

theorem Truth.reads (t : Truth (Leaf l)) : ReadsAs l 1 0 (lexemes t.value.text) (t.words.phrase l) := by
  induction t with
  | compare c a b =>
    obtain ⟨q, hq, hle, hlt⟩ := c.strength?_sign l
    have h := ReadsAs.operator hq (by simp) a.reads b.reads hlt hlt
    have hvalue : (compare c a b).value = c.combine l a.value b.value := rfl
    rw [hvalue, c.lexemes_combine]
    exact h.mono (Nat.le_trans (by decide) hle) (Nat.zero_le q)
  | connect k a b iha ihb =>
    obtain ⟨hone, hlt⟩ := k.strength_bounds
    have h := ReadsAs.operator (k.strength?_lexeme l) (k.lexeme_ne_as l) (iha.parenthesized (p := 3) (r := 3))
      ihb.parenthesized hlt hlt
    have hvalue : (connect k a b).value = k.combine l a.value b.value := rfl
    rw [hvalue, k.lexemes_combine]
    exact h.mono hone (Nat.zero_le _)
  | negate a ih =>
    obtain ⟨q, hq, hlt⟩ := l.negation?_negationSign
    have h := ReadsAs.negation (p := 1) hq (ih.group (p := 10) (r := 0)) hlt
    have hlexemes : lexemes (negate a).value.text = _ := l.lexemes_negation a.value
    rw [hlexemes]
    exact h.mono (Nat.le_refl 1) (Nat.zero_le _)

theorem Expression.reads (e : Expression (Leaf l)) : ReadsAs l 1 0 (lexemes e.value.text) (e.words.phrase l) := by
  cases e with
  | number n => exact n.reads.mono (by decide) (by decide)
  | truth t => exact t.reads

/-- The text of an expression is read back as its tree, and no other tree has that text. -/
theorem grouping_kept (l : Language) (e f : Expression (Leaf l)) :
    l.reading e.value.text = some (e.words.phrase l) ∧ (e.value.text = f.value.text → e.words = f.words) := by
  refine ⟨e.reads.reading_eq, fun htext => ?_⟩
  have he := e.reads.reading_eq
  rw [htext, f.reads.reading_eq] at he
  exact Expression.phrase_inj (Option.some.inj he).symm

example :
    let a : Number (Leaf .java) := .leaf (.raw .java "a" (by decide))
    (Truth.compare .lessThan (.combine .difference a (.combine .difference a a)) a).value.text = "a - (a - a) < a" := by
  decide

end Pipewright
