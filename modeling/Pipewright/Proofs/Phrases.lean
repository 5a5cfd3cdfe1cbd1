import Pipewright.Language.Expr
import Pipewright.Proofs.Lexemes

/-!
# Reading expressions

A reader of expressions for each of the four languages. It goes through the
lexemes from left to right with a stack of open frames; an operator closes the
frames that bind at least as tightly as it does and opens one for its right
operand. `ReadsAs` says that some lexemes are read as one phrase wherever the
operators on both sides bind loosely enough, and comes with one rule for each
form of a phrase.
-/

namespace Pipewright

inductive Phrase where
  | word (w : String)
  | negation (sign : Lexeme) (e : Phrase)
  | binary (sign : Lexeme) (a b : Phrase)
  | cast (ty : List Lexeme) (e : Phrase)
deriving DecidableEq, Repr

namespace Language

variable (l : Language)

/-- The operators between two operands, each with its strength: the one that binds tighter has the greater. -/
def operators : List (Lexeme × Nat) :=
  [(.mark "*", 7), (.mark "/", 7), (.mark "+", 6), (.mark "-", 6), (.mark "<", 5), (.mark "<=", 5), (.mark ">", 5),
    (.mark ">=", 5)] ++
    match l with
    | java => [(.mark "==", 4), (.mark "!=", 4), (.mark "&&", 2), (.mark "||", 1)]
    | kotlin => [(.word "as", 8), (.mark "==", 4), (.mark "!=", 4), (.mark "&&", 2), (.mark "||", 1)]
    | lua => [(.mark "==", 5), (.mark "~=", 5), (.word "and", 2), (.word "or", 1)]
    | python => [(.mark "==", 5), (.mark "!=", 5), (.word "and", 2), (.word "or", 1)]

def strength? (t : Lexeme) : Option Nat := l.operators.lookup t

/-- The strength of a negation: in Python it is looser than a comparison. -/
def negation? (t : Lexeme) : Option Nat :=
  match l with
  | java | kotlin => if t = .mark "!" then some 9 else none
  | lua => if t = .word "not" then some 9 else none
  | python => if t = .word "not" then some 3 else none

/-- Python reads `a < b < c` as a chain, which is not a comparison of a comparison; the reader refuses it. -/
def chains (strength : Nat) : Bool := l = python && strength = 5

end Language

/-! ## The reader -/

namespace Lexeme

def inType : Lexeme → Bool
  | word _ => true
  | mark m => m.toList.all isTypeMark

def isWord : Lexeme → Bool
  | word _ => true
  | mark _ => false

def startsOperand : Lexeme → Bool
  | word _ => true
  | mark m => m == "(" || m == "!"

/-- Whether what starts with lexemes of a type goes on with a closing parenthesis and an operand. -/
def typeThenOperand : List Lexeme → Bool
  | [] => false
  | t :: rest => if t.inType then typeThenOperand rest else t == mark ")" && rest.head?.any startsOperand

end Lexeme

/-- What waits for the phrase behind it. -/
inductive Frame where
  | group
  | negation (sign : Lexeme) (strength : Nat)
  | left (a : Phrase) (sign : Lexeme) (strength : Nat)
  | cast (ty : List Lexeme)
deriving DecidableEq, Repr

namespace Frame

def strength : Frame → Nat
  | group => 0
  | negation _ q | left _ _ q => q
  | cast _ => 9

def fill : Frame → Phrase → Phrase
  | group, e => e
  | negation sign _, e => .negation sign e
  | left a sign _, e => .binary sign a e
  | cast ty, e => .cast ty e

/-- Fills the frames on top that bind at least as tightly as `q`. -/
def close (q : Nat) : List Frame → Phrase → List Frame × Phrase
  | [], e => ([], e)
  | f :: fs, e => if q ≤ f.strength then close q fs (f.fill e) else (f :: fs, e)

end Frame

inductive Reader where
  /-- In front of an operand. -/
  | wants (frames : List Frame)
  /-- Behind an operand. -/
  | holds (frames : List Frame) (e : Phrase)
  /-- Inside the type of a cast that stands in front of its operand. -/
  | names (frames : List Frame) (ty : List Lexeme)
  /-- Inside a type behind `as`. -/
  | casts (frames : List Frame) (e : Phrase) (ty : List Lexeme)
deriving DecidableEq, Repr

def Frame.whole (frames : List Frame) (e : Phrase) : Option Phrase :=
  match close 1 frames e with
  | ([], e) => some e
  | _ => none

def Reader.finish : Reader → Option Phrase
  | holds frames e => Frame.whole frames e
  | casts frames e ty => Frame.whole frames (.cast ty e)
  | _ => none

namespace Language

variable (l : Language)

def castsAhead (ahead : List Lexeme) : Bool :=
  l = java && ahead.head?.any Lexeme.isWord && Lexeme.typeThenOperand ahead

def wanting (frames : List Frame) (t : Lexeme) (ahead : List Lexeme) : Option Reader :=
  match l.negation? t with
  | some q => some (.wants (.negation t q :: frames))
  | none =>
    match t with
    | .word w => if (l.strength? t).isSome then none else some (.holds frames (.word w))
    | .mark m =>
      if m = "(" then some (if l.castsAhead ahead then .names frames [] else .wants (.group :: frames)) else none

def holding (frames : List Frame) (e : Phrase) (t : Lexeme) : Option Reader :=
  if t = .mark ")" then
    match Frame.close 1 frames e with
    | (.group :: frames, e) => some (.holds frames e)
    | _ => none
  else
    match l.strength? t with
    | none => none
    | some q =>
      let (frames, e) := Frame.close (if l.chains q then q + 1 else q) frames e
      if l.chains q && frames.head?.any (·.strength == q) then none
      else some (if t = .word "as" then .casts frames e [] else .wants (.left e t q :: frames))

def step (t : Lexeme) (ahead : List Lexeme) : Reader → Option Reader
  | .wants frames => l.wanting frames t ahead
  | .holds frames e => l.holding frames e t
  | .names frames ty => some (if t = .mark ")" then .wants (.cast ty :: frames) else .names frames (ty ++ [t]))
  | .casts frames e ty => if t.inType then some (.casts frames e (ty ++ [t])) else l.holding frames (.cast ty e) t

def read : Reader → List Lexeme → Option Phrase
  | r, [] => r.finish
  | r, t :: rest => (l.step t rest r).bind fun r => read r rest

def reading (text : String) : Option Phrase := l.read (.wants []) (lexemes text)

end Language

example : Language.java.reading "a - b - c * d < e || f" =
    some (.binary (.mark "||")
      (.binary (.mark "<")
        (.binary (.mark "-") (.binary (.mark "-") (.word "a") (.word "b"))
          (.binary (.mark "*") (.word "c") (.word "d")))
        (.word "e"))
      (.word "f")) := by
  decide +kernel

example :
    Language.lua.reading "not a == b" =
      some (.binary (.mark "==") (.negation (.word "not") (.word "a")) (.word "b")) ∧
    Language.python.reading "not a == b" =
      some (.negation (.word "not") (.binary (.mark "==") (.word "a") (.word "b"))) := by
  decide +kernel

example : Language.java.reading "(List<Rect>) (a) / (b)" =
    some (.binary (.mark "/") (.cast [.word "List", .mark "<", .word "Rect", .mark ">"] (.word "a")) (.word "b")) := by
  decide +kernel

example : Language.kotlin.reading "a + b as Int" =
    some (.binary (.mark "+") (.word "a") (.cast [.word "Int"] (.word "b"))) := by
  decide +kernel

example : Language.python.reading "a < b < c" = none := by decide +kernel

/-! ## Frames -/

namespace Frame

def Loose (q : Nat) (frames : List Frame) : Prop := ∀ f ∈ frames.head?, f.strength < q

variable {p q : Nat} {frames : List Frame}

theorem Loose.mono (h : Loose p frames) (hpq : p ≤ q) : Loose q frames :=
  fun f hf => Nat.lt_of_lt_of_le (h f hf) hpq

theorem loose_cons {f : Frame} (h : f.strength < q) : Loose q (f :: frames) := by
  intro g hg
  cases hg
  exact h

theorem Loose.close_eq (h : Loose q frames) (e : Phrase) : close q frames e = (frames, e) := by
  cases frames with
  | nil => rfl
  | cons f frames => exact if_neg (Nat.not_le.mpr (h f rfl))

theorem close_cons {f : Frame} (h : q ≤ f.strength) (e : Phrase) : close q (f :: frames) e = close q frames (f.fill e) :=
  if_pos h

end Frame

/-! ## Types -/

namespace Lexeme

structure IsType (ts : List Lexeme) : Prop where
  all : ∀ t ∈ ts, t.inType = true
  first : ts.head?.any isWord = true

theorem typeThenOperand_append {ts : List Lexeme} (hts : ∀ t ∈ ts, t.inType = true) (rest : List Lexeme) :
    typeThenOperand (ts ++ rest) = typeThenOperand rest := by
  induction ts with
  | nil => rfl
  | cons t ts ih =>
    obtain ⟨ht, hts⟩ := List.forall_mem_cons.mp hts
    rw [List.cons_append, typeThenOperand, if_pos ht, ih hts]

theorem ne_close_of_inType {t : Lexeme} (h : t.inType = true) : t ≠ .mark ")" := by
  rintro rfl
  exact absurd h (by decide)

end Lexeme

open Pipewright.Frame Lexeme

/-! ## What may stand behind a phrase -/

namespace Language

variable (l : Language)

/-- The operator on top of some lexemes, if there is one, takes the phrase in front of it as its left operand
although that phrase is open for operators that bind tighter than `p`. -/
def Follows (p : Nat) (rest : List Lexeme) : Prop :=
  ∀ t ∈ rest.head?, t = .mark ")" ∨ ∃ q, l.strength? t = some q ∧ (q < p ∨ q = p ∧ l.chains q = false)

variable {l} {p q : Nat} {rest : List Lexeme}

theorem Follows.mono (h : l.Follows p rest) (hpq : p ≤ q) : l.Follows q rest := by
  intro t ht
  rcases h t ht with hclose | ⟨r, hr, hlt | ⟨rfl, hchain⟩⟩
  · exact .inl hclose
  · exact .inr ⟨r, hr, .inl (Nat.lt_of_lt_of_le hlt hpq)⟩
  · rcases Nat.lt_or_eq_of_le hpq with hlt | rfl
    · exact .inr ⟨r, hr, .inl hlt⟩
    · exact .inr ⟨r, hr, .inr ⟨rfl, hchain⟩⟩

theorem follows_nil : l.Follows p [] := fun _ ht => nomatch ht

theorem follows_close : l.Follows p (.mark ")" :: rest) := by
  intro t ht
  cases ht
  exact .inl rfl

theorem follows_sign {t : Lexeme} (hq : l.strength? t = some q) (hp : q < p ∨ q = p ∧ l.chains q = false) :
    l.Follows p (t :: rest) := by
  intro u hu
  cases hu
  exact .inr ⟨q, hq, hp⟩

theorem mem_operators {t : Lexeme} (h : l.strength? t = some q) : (t, q) ∈ l.operators := by
  obtain ⟨front, behind, heq, -⟩ := List.lookup_eq_some_iff.mp h
  rw [heq]
  exact List.mem_append_right _ List.mem_cons_self

theorem one_le_strength {t : Lexeme} (h : l.strength? t = some q) : 1 ≤ q := by
  have hall : ∀ l : Language, ∀ entry ∈ l.operators, 1 ≤ entry.2 := by intro l; cases l <;> decide
  exact hall l _ (mem_operators h)

theorem one_le_negation {t : Lexeme} (h : l.negation? t = some q) : 1 ≤ q := by
  unfold negation? at h
  split at h <;> split at h <;> simp at h <;> omega

theorem ne_close {t : Lexeme} (h : l.strength? t = some q) : t ≠ .mark ")" := by
  have hclose : l.strength? (.mark ")") = none := by cases l <;> decide
  rintro rfl
  rw [hclose] at h
  cases h

theorem negation_ne_close {t : Lexeme} (h : l.negation? t = some q) : t ≠ .mark ")" := by
  have hclose : l.negation? (.mark ")") = none := by cases l <;> decide
  rintro rfl
  rw [hclose] at h
  cases h

theorem wanting_open (frames : List Frame) (ahead : List Lexeme) :
    l.wanting frames (.mark "(") ahead =
      some (if l.castsAhead ahead then .names frames [] else .wants (.group :: frames)) := by
  have hnegation : l.negation? (.mark "(") = none := by cases l <;> decide
  simp [wanting, hnegation]

theorem Follows.not_startsOperand (h : java.Follows p rest) : rest.head?.any startsOperand = false := by
  have hall : ∀ entry ∈ java.operators, entry.1.startsOperand = false := by decide
  cases rest with
  | nil => rfl
  | cons t rest =>
    rcases h t rfl with rfl | ⟨q, hq, -⟩
    · rfl
    · exact hall _ (mem_operators hq)

/-! ## Steps -/

theorem read_cons (r : Reader) (t : Lexeme) (rest : List Lexeme) :
    l.read r (t :: rest) = (l.step t rest r).bind fun r => l.read r rest := rfl

theorem holding_close (frames : List Frame) (e : Phrase) :
    l.holding (.group :: frames) e (.mark ")") = some (.holds frames e) := by
  have hclose : close 1 (.group :: frames) e = (.group :: frames, e) := Loose.close_eq (loose_cons Nat.one_pos) e
  simp [holding, hclose]

/-- A frame that binds at least as tightly as what follows is filled. -/
theorem read_settle {f : Frame} (hf : 1 ≤ f.strength) (frames : List Frame) (e : Phrase)
    (h : l.Follows f.strength rest) : l.read (.holds (f :: frames) e) rest = l.read (.holds frames (f.fill e)) rest := by
  cases rest with
  | nil => simp only [read, Reader.finish, whole, close_cons hf]
  | cons t rest =>
    have hstep : l.holding (f :: frames) e t = l.holding frames (f.fill e) t := by
      rcases h t rfl with rfl | ⟨q, hq, hlt⟩
      · simp [holding, close_cons hf]
      · have hle : (if l.chains q then q + 1 else q) ≤ f.strength := by
          rcases hlt with hlt | ⟨rfl, hchain⟩
          · split
            · exact hlt
            · exact Nat.le_of_lt hlt
          · simp [hchain]
        unfold holding
        rw [if_neg (ne_close hq), if_neg (ne_close hq)]
        simp only [hq, close_cons hle]
    rw [read_cons, read_cons]
    exact congrArg (fun r => r.bind fun r => l.read r rest) hstep

/-- An operator that binds tighter than the frame on top opens a frame for its right operand. -/
theorem holding_sign {t : Lexeme} {frames : List Frame} (hq : l.strength? t = some q) (hloose : Loose q frames)
    (e : Phrase) :
    l.holding frames e t = some (if t = .word "as" then .casts frames e [] else .wants (.left e t q :: frames)) := by
  have hclose : close (if l.chains q then q + 1 else q) frames e = (frames, e) := by
    split
    · exact (hloose.mono (Nat.le_succ q)).close_eq e
    · exact hloose.close_eq e
  have hhead : frames.head?.any (fun f => f.strength == q) = false := by
    cases frames with
    | nil => rfl
    | cons f frames => simpa using Nat.ne_of_lt (hloose f rfl)
  unfold holding
  rw [if_neg (ne_close hq)]
  simp [hq, hclose, hhead]

theorem read_names {ts : List Lexeme} (hts : ∀ t ∈ ts, t.inType = true) (frames : List Frame) (ty rest : List Lexeme) :
    l.read (.names frames ty) (ts ++ .mark ")" :: rest) = l.read (.wants (.cast (ty ++ ts) :: frames)) rest := by
  induction ts generalizing ty with
  | nil => simp [read_cons, step]
  | cons t ts ih =>
    obtain ⟨ht, hts⟩ := List.forall_mem_cons.mp hts
    rw [List.cons_append, read_cons, step, if_neg (ne_close_of_inType ht), Option.bind_some, ih hts, List.append_assoc,
      List.singleton_append]

theorem read_casts {ts : List Lexeme} (hts : ∀ t ∈ ts, t.inType = true) (frames : List Frame) (e : Phrase)
    (ty rest : List Lexeme) :
    l.read (.casts frames e ty) (ts ++ rest) = l.read (.casts frames e (ty ++ ts)) rest := by
  induction ts generalizing ty with
  | nil => simp
  | cons t ts ih =>
    obtain ⟨ht, hts⟩ := List.forall_mem_cons.mp hts
    rw [List.cons_append, read_cons, step, if_pos ht, Option.bind_some, ih hts, List.append_assoc, List.singleton_append]

theorem read_casts_end (frames : List Frame) (e : Phrase) (ty : List Lexeme) (h : l.Follows 0 rest) :
    l.read (.casts frames e ty) rest = l.read (.holds frames (.cast ty e)) rest := by
  cases rest with
  | nil => rfl
  | cons t rest =>
    rcases h t rfl with rfl | ⟨q, hq, hlt⟩
    · rfl
    · have := one_le_strength hq
      omega

end Language

/-! ## The rules -/

/-- Some lexemes are read as a phrase behind frames that bind less tightly than `p`, in front of operators that
bind no tighter than `r`. -/
structure ReadsAs (l : Language) (p r : Nat) (ts : List Lexeme) (e : Phrase) : Prop where
  run : ∀ frames rest, Loose p frames → l.Follows r rest →
    l.read (.wants frames) (ts ++ rest) = l.read (.holds frames e) rest
  skip : ∀ rest, typeThenOperand rest = false → typeThenOperand (ts ++ rest) = false

namespace ReadsAs

variable {l : Language} {p p' r r' q : Nat} {ts us : List Lexeme} {t : Lexeme} {a b e : Phrase}

theorem mono (h : ReadsAs l p r ts e) (hp : p' ≤ p) (hr : r' ≤ r) : ReadsAs l p' r' ts e where
  run frames rest hframes hrest := h.run frames rest (hframes.mono hp) (hrest.mono hr)
  skip := h.skip

theorem reading_eq {text : String} (h : ReadsAs l p r (lexemes text) e) : l.reading text = some e := by
  have hrun := h.run [] [] (fun _ hf => nomatch hf) Language.follows_nil
  rw [List.append_nil] at hrun
  exact hrun

theorem word {w : String} (hnegation : l.negation? (.word w) = none) (hstrength : l.strength? (.word w) = none) :
    ReadsAs l p r [.word w] (.word w) where
  run frames rest _ _ := by
    have hstep : l.wanting frames (.word w) rest = some (.holds frames (.word w)) := by
      simp [Language.wanting, hnegation, hstrength]
    rw [List.singleton_append, Language.read_cons, Language.step, hstep]
    rfl
  skip rest h := h

theorem group (h : ReadsAs l 1 0 ts e) : ReadsAs l p r (.mark "(" :: ts ++ [.mark ")"]) e where
  run frames rest _ hrest := by
    have hcast : l.castsAhead (ts ++ .mark ")" :: rest) = false := by
      cases l with
      | java =>
        have hskip := h.skip (.mark ")" :: rest) (by simp [typeThenOperand, inType, isTypeMark, hrest.not_startsOperand])
        simp [Language.castsAhead, hskip]
      | _ => rfl
    have hinner := h.run (.group :: frames) (.mark ")" :: rest) (loose_cons Nat.one_pos) Language.follows_close
    rw [List.cons_append, List.cons_append, List.append_assoc, List.singleton_append, Language.read_cons,
      Language.step, Language.wanting_open, hcast, Option.bind_some, if_neg Bool.false_ne_true, hinner,
      Language.read_cons, Language.step, Language.holding_close, Option.bind_some]
  skip rest _ := rfl

theorem binary (hq : l.strength? t = some q) (has : t ≠ .word "as") (h : ReadsAs l p r ts a) (hp : q ≤ p)
    (hr : q < r ∨ q = r ∧ l.chains q = false) (h' : ReadsAs l p' r' us b) (hp' : q < p') :
    ReadsAs l q (min q r') (ts ++ t :: us) (.binary t a b) where
  run frames rest hframes hrest := by
    have hleft := h.run frames (t :: (us ++ rest)) (hframes.mono hp) (Language.follows_sign hq hr)
    have hopen : l.holding frames a t = some (.wants (.left a t q :: frames)) := by
      rw [Language.holding_sign hq hframes, if_neg has]
    have hright := h'.run (.left a t q :: frames) rest (loose_cons hp') (hrest.mono (Nat.min_le_right q r'))
    rw [List.append_assoc, List.cons_append, hleft, Language.read_cons, Language.step, hopen, Option.bind_some, hright]
    exact Language.read_settle (Language.one_le_strength hq) frames b (hrest.mono (Nat.min_le_left q r'))
  skip rest hrest := by
    rw [List.append_assoc, List.cons_append]
    apply h.skip
    have ht : (t == .mark ")") = false := by simpa using Language.ne_close hq
    unfold typeThenOperand
    split
    · exact h'.skip rest hrest
    · rw [ht, Bool.false_and]

theorem negation (hq : l.negation? t = some q) (h : ReadsAs l p' r' us b) (hp' : q < p') :
    ReadsAs l p (min q r') (t :: us) (.negation t b) where
  run frames rest hframes hrest := by
    have hopen : l.wanting frames t (us ++ rest) = some (.wants (.negation t q :: frames)) := by
      simp [Language.wanting, hq]
    have hoperand := h.run (.negation t q :: frames) rest (loose_cons hp') (hrest.mono (Nat.min_le_right q r'))
    rw [List.cons_append, Language.read_cons, Language.step, hopen, Option.bind_some, hoperand]
    exact Language.read_settle (Language.one_le_negation hq) frames b (hrest.mono (Nat.min_le_left q r'))
  skip rest hrest := by
    have ht : (t == .mark ")") = false := by simpa using Language.negation_ne_close hq
    rw [List.cons_append]
    unfold typeThenOperand
    split
    · exact h.skip rest hrest
    · rw [ht, Bool.false_and]

theorem castAhead (hts : IsType ts) (hus : us.head?.any startsOperand = true) (h : ReadsAs .java 10 r us e) :
    ReadsAs .java p (min 9 r) (.mark "(" :: ts ++ .mark ")" :: us) (.cast ts e) where
  run frames rest hframes hrest := by
    have hcast : Language.java.castsAhead (ts ++ .mark ")" :: (us ++ rest)) = true := by
      have hahead : typeThenOperand (.mark ")" :: (us ++ rest)) = true := by
        cases us with
        | nil => exact absurd hus Bool.false_ne_true
        | cons u us => exact hus
      have hfirst : (ts ++ .mark ")" :: (us ++ rest)).head?.any isWord = true := by
        cases ts with
        | nil => exact absurd hts.first Bool.false_ne_true
        | cons t ts => exact hts.first
      unfold Language.castsAhead
      rw [hfirst, typeThenOperand_append hts.all, hahead]
      rfl
    have hoperand := h.run (.cast ts :: frames) rest (loose_cons (Nat.lt_succ_self 9)) (hrest.mono (Nat.min_le_right 9 r))
    rw [List.cons_append, List.cons_append, List.append_assoc, List.cons_append, Language.read_cons, Language.step,
      Language.wanting_open, if_pos hcast, Option.bind_some, Language.read_names hts.all, List.nil_append, hoperand]
    have hstrength : 1 ≤ (Frame.cast ts).strength := Nat.le_add_left 1 8
    exact Language.read_settle hstrength frames e (hrest.mono (Nat.min_le_left 9 r))
  skip rest _ := rfl

theorem castBehind (hts : ∀ t ∈ ts, t.inType = true) (h : ReadsAs .kotlin p r us e) (hp : 8 ≤ p) (hr : 8 ≤ r) :
    ReadsAs .kotlin 8 0 (us ++ .word "as" :: ts) (.cast ts e) where
  run frames rest hframes hrest := by
    have has : Language.kotlin.strength? (.word "as") = some 8 := by decide
    have hleft := h.run frames (.word "as" :: (ts ++ rest)) (hframes.mono hp)
      (Language.follows_sign has (by cases Nat.lt_or_eq_of_le hr <;> simp_all [Language.chains]))
    rw [List.append_assoc, List.cons_append, hleft, Language.read_cons, Language.step, Language.holding_sign has hframes,
      if_pos rfl, Option.bind_some, Language.read_casts hts, List.nil_append, Language.read_casts_end frames e ts hrest]
  skip rest hrest := by
    rw [List.append_assoc, List.cons_append]
    apply h.skip
    exact (typeThenOperand_append hts rest).trans hrest

end ReadsAs

end Pipewright
