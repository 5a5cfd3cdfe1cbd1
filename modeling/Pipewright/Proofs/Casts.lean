import Pipewright.Proofs.Grouping

/-!
# Casts as operands

What an operator next to a cast is applied to. A cast is a constant, so its text
stands without further parentheses: Java puts the operand of the cast in
parentheses, Kotlin only the cast, Lua and Python, which do not cast, nothing. So
a cast of arithmetic is an operand of its own in Java, and elsewhere as far as the
strengths of the operators happen to allow.
-/

namespace Pipewright

open Lexeme

/-! ## Types -/

structure IsTypeText (s : String) : Prop where
  chars : s.toList.all (fun c => isNameChar c || isBlank c || isTypeMark c) = true
  first : s.toList.head?.any isNameChar = true

instance (s : String) : Decidable (IsTypeText s) :=
  decidable_of_iff (s.toList.all (fun c => isNameChar c || isBlank c || isTypeMark c) = true ∧
      s.toList.head?.any isNameChar = true)
    ⟨fun ⟨h, h'⟩ => ⟨h, h'⟩, fun ⟨h, h'⟩ => ⟨h, h'⟩⟩

namespace Lexeme

def TypeRun (run : List Char) : Prop :=
  (∀ c ∈ run, isNameChar c = true) ∨ ∀ c ∈ run, isTypeMark c = true

theorem TypeRun.inType {run : List Char} (h : TypeRun run) : ∀ t ∈ ofRun run, t.inType = true := by
  intro t ht
  cases run with
  | nil => cases ht
  | cons c run =>
    by_cases hname : isNameChar c = true
    · rw [ofRun, if_pos hname, List.mem_singleton] at ht
      rw [ht]
      rfl
    · have hmarks : ∀ d ∈ c :: run, isTypeMark d = true := h.resolve_left fun h => hname (h c List.mem_cons_self)
      rw [ofRun, if_neg hname, List.mem_singleton] at ht
      have hall : (String.ofList (c :: run).reverse).toList.all isTypeMark = true := by
        rw [String.toList_ofList]
        exact List.all_eq_true.mpr fun d hd => hmarks d (List.mem_reverse.mp hd)
      rw [ht]
      exact hall

theorem isNameChar_of_joins {c d : Char} {run : List Char} (hc : isNameChar c = true)
    (hjoins : joins (c :: run) d = true) : isNameChar d = true := by
  rcases Bool.or_eq_true_iff.mp hjoins with hnames | hoperators
  · exact (Bool.and_eq_true_iff.mp hnames).2
  · rw [isNameChar_of_isOperatorChar (Bool.and_eq_true_iff.mp hoperators).1] at hc
    cases hc

theorem TypeRun.cons {c : Char} {run : List Char} (hc : isNameChar c = true ∨ isTypeMark c = true)
    (hjoins : joins run c = true) (h : TypeRun run) : TypeRun (c :: run) := by
  cases run with
  | nil => exact hc.imp (fun hc => by simpa using hc) (fun hc => by simpa using hc)
  | cons d run =>
    rcases h with h | h
    · have hname := isNameChar_of_joins (h d List.mem_cons_self) hjoins
      exact .inl (List.forall_mem_cons.mpr ⟨hname, h⟩)
    · have hd := isNameChar_of_isTypeMark (h d List.mem_cons_self)
      have hoperator : isOperatorChar c = true := by
        simp only [joins, hd, Bool.false_and, Bool.false_or] at hjoins
        exact (Bool.and_eq_true_iff.mp hjoins).2
      have hmark : isTypeMark c = true := hc.resolve_left (by simp [isNameChar_of_isOperatorChar hoperator])
      exact .inr (List.forall_mem_cons.mpr ⟨hmark, h⟩)

theorem scan_inType {cs : List Char}
    (hcs : ∀ c ∈ cs, isNameChar c = true ∨ isBlank c = true ∨ isTypeMark c = true) {run : List Char} (hrun : TypeRun run) : ∀ t ∈ scan run cs, t.inType = true := by
  induction cs generalizing run with
  | nil => exact hrun.inType
  | cons c cs ih =>
    obtain ⟨hc, hcs⟩ := List.forall_mem_cons.mp hcs
    have hempty : TypeRun [] := .inl (fun c hc => nomatch hc)
    unfold scan
    by_cases hblank : isBlank c = true
    · rw [if_pos hblank]
      exact List.forall_mem_append.mpr ⟨hrun.inType, ih hcs hempty⟩
    · have hc : isNameChar c = true ∨ isTypeMark c = true := hc.imp_right fun h => h.resolve_left hblank
      rw [if_neg hblank]
      split
      case isTrue hjoins => exact ih hcs (hrun.cons hc hjoins)
      case isFalse => exact List.forall_mem_append.mpr ⟨hrun.inType, ih hcs (hempty.cons hc rfl)⟩

theorem ofRun_first {c : Char} (hc : isNameChar c = true) (run : List Char) (ts : List Lexeme) :
    (ofRun (c :: run) ++ ts).head?.any isWord = true := by
  rw [ofRun, if_pos hc]
  rfl

/-- What begins with a name character begins with a word. -/
theorem scan_first {c : Char} {run : List Char} (hrun : ∀ d ∈ c :: run, isNameChar d = true) (cs : List Char) :
    (scan (c :: run) cs).head?.any isWord = true := by
  have hc := hrun c List.mem_cons_self
  induction cs generalizing c run with
  | nil => simpa [scan] using ofRun_first hc run []
  | cons d cs ih =>
    unfold scan
    split
    · exact ofRun_first hc run _
    · split
      case isTrue hjoins =>
        have hd := isNameChar_of_joins hc hjoins
        exact ih (List.forall_mem_cons.mpr ⟨hd, hrun⟩) hd
      case isFalse => exact ofRun_first hc run _

end Lexeme

theorem IsTypeText.isType {s : String} (h : IsTypeText s) : IsType (lexemes s) where
  all := by
    have hchars : ∀ c ∈ s.toList, isNameChar c = true ∨ isBlank c = true ∨ isTypeMark c = true := by
      simpa [or_assoc] using List.all_eq_true.mp h.chars
    exact scan_inType hchars (.inl fun c hc => nomatch hc)
  first := by
    unfold lexemes
    cases hs : s.toList with
    | nil => exact absurd h.first (by simp [hs])
    | cons c cs =>
      have hc : isNameChar c = true := by simpa [hs] using h.first
      rw [scan, if_neg (by simp [isBlank_of_isNameChar hc])]
      exact scan_first (by simpa using hc) cs

example : IsTypeText "HashMap<String, List<Rect[]>>" ∧ ¬ IsTypeText "a) + (b" := by decide +kernel

/-! ## Conversions -/

inductive Conversion where
  | cast (ty : Ty)
  | toInt | toLong | toFloat | toDouble

namespace Conversion

def ty (l : Language) : Conversion → Ty
  | cast t => t
  | toInt => l.intType
  | toLong => l.longType
  | toFloat => l.floatType
  | toDouble => l.doubleType

def apply (l : Language) (v : Value) : Conversion → Value
  | cast t => l.cast v t
  | toInt => l.intOf v
  | toLong => l.longOf v
  | toFloat => l.floatOf v
  | toDouble => l.doubleOf v

end Conversion

namespace Language

def writesCast : Language → Bool
  | java | kotlin => true
  | lua | python => false

def casting (l : Language) (t : Ty) (e : Phrase) : Phrase :=
  if l.writesCast then .cast (lexemes t.spelling) e else e

/-- Whether a cast has the whole tree as its operand. Where no cast is written, the operator on top of the tree has to
prevail over the one next to the tree. -/
def KeepsCast {α : Type} (l : Language) (prevails : Arithmetic → Prop) (v : Number α) : Prop :=
  match l, v with
  | _, .leaf _ => True
  | java, .combine .. => True
  | kotlin, .combine .. => False
  | lua, .combine o _ _ | python, .combine o _ _ => prevails o

end Language

variable {l : Language}

theorem cast_java {v : Value} {t : Ty} {e : Phrase} (ht : IsTypeText t.spelling)
    (hv : ReadsAs .java 1 0 (lexemes v.text) e) :
    IsOperand .java (Language.java.cast v t) (.cast (lexemes t.spelling) e) := by
  intro p r
  have htext : (Language.java.cast v t).operandText =
      "(" ++ ("(" ++ t.spelling ++ ")" ++ " " ++ ("(" ++ v.text ++ ")")) ++ ")" := by
    change "((" ++ t.spelling ++ ") (" ++ v.text ++ "))" = _
    rw [← String.toList_inj]
    simp
  have hcast : ReadsAs .java 1 0 (lexemes ("(" ++ t.spelling ++ ")" ++ " " ++ ("(" ++ v.text ++ ")")))
      (.cast (lexemes t.spelling) e) := by
    rw [lexemes_append_blank, lexemes_group, lexemes_group, List.append_assoc, List.singleton_append]
    exact (ReadsAs.castAhead ht.isType rfl (hv.group (p := 10) (r := 0))).mono (Nat.le_refl 1) (Nat.zero_le _)
  rw [htext]
  exact hcast.parenthesized

theorem cast_kotlin {v : Value} {t : Ty} {e : Phrase}
    (hv : ReadsAs .kotlin 1 0 (lexemes v.text ++ .word "as" :: lexemes t.spelling) e) :
    IsOperand .kotlin (Language.kotlin.cast v t) e := by
  intro p r
  have htext : (Language.kotlin.cast v t).operandText = "(" ++ (v.text ++ " " ++ "as" ++ " " ++ t.spelling) ++ ")" := by
    change "(" ++ v.text ++ " as " ++ t.spelling ++ ")" = _
    rw [← String.toList_inj]
    simp
  have has : lexemes "as" = [.word "as"] := by decide +kernel
  have hcast : ReadsAs .kotlin 1 0 (lexemes (v.text ++ " " ++ "as" ++ " " ++ t.spelling)) e := by
    rw [lexemes_between has]
    exact hv
  rw [htext]
  exact hcast.parenthesized

theorem cast_bare (hl : l.writesCast = false) (v : Value) (t : Ty) : (l.cast v t).operandText = v.text := by
  cases l with
  | java => cases hl
  | kotlin => cases hl
  | lua => rfl
  | python => rfl

theorem casting_bare (hl : l.writesCast = false) (t : Ty) (e : Phrase) : l.casting t e = e := by
  unfold Language.casting
  simp [hl]

theorem keepsCast_bare {α : Type} {prevails : Arithmetic → Prop} (hl : l.writesCast = false) (o : Arithmetic)
    (a b : Number α) : l.KeepsCast prevails (.combine o a b) ↔ prevails o := by
  cases l with
  | java => cases hl
  | kotlin => cases hl
  | lua => rfl
  | python => rfl

theorem Leaf.cast_isOperand (v : Leaf l) {t : Ty} (ht : l.writesCast = true → IsTypeText t.spelling) :
    IsOperand l (l.cast v.value t) (l.casting t (.word v.value.text)) := by
  cases l with
  | java => exact cast_java (ht rfl) (v.reads 1 0)
  | kotlin =>
    have hcast := ReadsAs.castBehind (ht rfl).isType.all (v.reads 8 8) (Nat.le_refl 8) (Nat.le_refl 8)
    exact cast_kotlin (hcast.mono (by decide) (Nat.le_refl 0))
  | lua =>
    intro p r
    rw [cast_bare rfl]
    exact v.reads p r
  | python =>
    intro p r
    rw [cast_bare rfl]
    exact v.reads p r

/-- Behind arithmetic, `as` takes the last operand. -/
theorem cast_kotlin_combine (o : Arithmetic) {a b : Value} {e f : Phrase} {t : Ty} (ht : IsTypeText t.spelling)
    (ha : IsOperand .kotlin a e) (hb : IsOperand .kotlin b f) :
    IsOperand .kotlin (Language.kotlin.cast (o.combine .kotlin a b) t)
      (.binary (.mark o.sign) e (.cast (lexemes t.spelling) f)) := by
  apply cast_kotlin
  have hlt : o.strength < 8 := by cases o <;> decide
  have hright := ReadsAs.castBehind ht.isType.all (hb 8 8) (Nat.le_refl 8) (Nat.le_refl 8)
  have hcast := ReadsAs.binary (o.strength?_sign .kotlin) (by simp) (ha 8 8) (Nat.le_of_lt hlt) (.inl hlt) hright hlt
  rw [o.lexemes_combine, List.append_assoc, List.cons_append]
  exact hcast.mono o.one_le_strength (Nat.zero_le _)

/-- Either a cast is read as an operand, or its text is that of arithmetic. -/
theorem Number.cast_cases (v : Number (Leaf l)) {t : Ty} (ht : l.writesCast = true → IsTypeText t.spelling) :
    (∃ f, IsOperand l (l.cast v.value t) f ∧
      ∀ prevails, f = l.casting t v.words.phrase ↔ l.KeepsCast prevails v) ∨
    (l.writesCast = false ∧ ∃ o a b, v = .combine o a b) := by
  cases v with
  | leaf v => exact .inl ⟨_, v.cast_isOperand ht, fun prevails => by cases l <;> exact iff_of_true rfl trivial⟩
  | combine o a b =>
    cases l with
    | java =>
      have hread : ReadsAs .java 1 0 _ _ := (combine o a b).reads.mono (by decide) (by decide)
      exact .inl ⟨_, cast_java (ht rfl) hread, fun prevails => iff_of_true rfl trivial⟩
    | kotlin =>
      refine .inl ⟨_, cast_kotlin_combine o (ht rfl) a.isOperand b.isOperand, fun prevails => iff_of_false ?_ id⟩
      intro h
      cases h
    | lua => exact .inr ⟨rfl, o, a, b, rfl⟩
    | python => exact .inr ⟨rfl, o, a, b, rfl⟩

/-! ## Three operands -/

namespace Arithmetic

def triple (o o' : Arithmetic) (a b c : Phrase) : Phrase :=
  if o'.strength ≤ o.strength then .binary (.mark o'.sign) (.binary (.mark o.sign) a b) c
  else .binary (.mark o.sign) a (.binary (.mark o'.sign) b c)

variable (o o' : Arithmetic) {a b c : Phrase} {ts us vs : List Lexeme}

theorem reads_triple (ha : ∀ p r, ReadsAs l p r ts a) (hb : ∀ p r, ReadsAs l p r us b)
    (hc : ∀ p r, ReadsAs l p r vs c) :
    ReadsAs l 1 0 (ts ++ .mark o.sign :: (us ++ .mark o'.sign :: vs)) (triple o o' a b c) := by
  have hq := o.strength?_sign l
  have hq' := o'.strength?_sign l
  unfold triple
  split
  case isTrue hle =>
    have hleft := o.reads_sign ha hb
    have hchain : l.chains o'.strength = false := by cases l <;> cases o' <;> rfl
    have hr : o'.strength < o.strength ∨ o'.strength = o.strength ∧ l.chains o'.strength = false :=
      (Nat.lt_or_eq_of_le hle).imp_right fun h => ⟨h, hchain⟩
    have h := ReadsAs.binary hq' (by simp) hleft hle hr (hc (o'.strength + 1) 0) (Nat.lt_succ_self _)
    rw [List.append_assoc, List.cons_append] at h
    exact h.mono o'.one_le_strength (Nat.zero_le _)
  case isFalse hlt =>
    have hlt := Nat.lt_of_not_le hlt
    have hright := o'.reads_sign hb hc
    exact (ReadsAs.operator hq (by simp) (ha _ _) hright hlt hlt).mono o.one_le_strength (Nat.zero_le _)

theorem triple_eq_left_iff :
    triple o o' a b c = .binary (.mark o'.sign) (.binary (.mark o.sign) a b) c ↔ o'.strength ≤ o.strength := by
  unfold triple
  split
  case isTrue hle => exact iff_of_true rfl hle
  case isFalse hlt =>
    refine iff_of_false ?_ hlt
    intro h
    have hsign := sign_inj (Lexeme.mark.inj (Phrase.binary.inj h).1)
    rw [hsign] at hlt
    exact hlt (Nat.le_refl _)

theorem triple_eq_right_iff :
    triple o o' a b c = .binary (.mark o.sign) a (.binary (.mark o'.sign) b c) ↔ o.strength < o'.strength := by
  unfold triple
  split
  case isTrue hle =>
    refine iff_of_false ?_ (Nat.not_lt.mpr hle)
    intro h
    have hsize := congrArg sizeOf (Phrase.binary.inj h).2.1
    simp only [Phrase.binary.sizeOf_spec] at hsize
    omega
  case isFalse hlt => exact iff_of_true rfl (Nat.lt_of_not_le hlt)

end Arithmetic

/-! ## Casts next to an operator -/

section
variable (o : Arithmetic) (v : Number (Leaf l)) {t : Ty} {x : Value} {e : Phrase}

theorem cast_left_iff (ht : l.writesCast = true → IsTypeText t.spelling) (hx : IsOperand l x e) :
    l.reading (o.combine l (l.cast v.value t) x).text = some (.binary (.mark o.sign) (l.casting t v.words.phrase) e) ↔
      l.KeepsCast (o.strength ≤ ·.strength) v := by
  rcases v.cast_cases ht with ⟨f, hcast, hkeeps⟩ | ⟨hl, o', a, b, rfl⟩
  · rw [(o.reads_combine hcast hx).reading_eq, ← hkeeps]
    simp
  · have hvalue : (Number.combine o' a b).value = o'.combine l a.value b.value := rfl
    have hread := o'.reads_triple o a.isOperand b.isOperand hx
    rw [← List.cons_append, ← List.append_assoc, ← o'.lexemes_combine, ← hvalue, ← cast_bare hl _ t,
      ← o.lexemes_combine] at hread
    have hkeeps : l.KeepsCast (o.strength ≤ ·.strength) (Number.combine o' a b) ↔ o.strength ≤ o'.strength :=
      keepsCast_bare hl o' a b
    have hwhole : l.casting t (Number.combine o' a b).words.phrase =
        .binary (.mark o'.sign) a.words.phrase b.words.phrase := casting_bare hl t _
    rw [hread.reading_eq, hkeeps, hwhole, Option.some.injEq]
    exact o'.triple_eq_left_iff o

theorem cast_right_iff (ht : l.writesCast = true → IsTypeText t.spelling) (hx : IsOperand l x e) :
    l.reading (o.combine l x (l.cast v.value t)).text = some (.binary (.mark o.sign) e (l.casting t v.words.phrase)) ↔
      l.KeepsCast (o.strength < ·.strength) v := by
  rcases v.cast_cases ht with ⟨f, hcast, hkeeps⟩ | ⟨hl, o', a, b, rfl⟩
  · rw [(o.reads_combine hx hcast).reading_eq, ← hkeeps]
    simp
  · have hvalue : (Number.combine o' a b).value = o'.combine l a.value b.value := rfl
    have hread := o.reads_triple o' hx a.isOperand b.isOperand
    rw [← o'.lexemes_combine, ← hvalue, ← cast_bare hl _ t, ← o.lexemes_combine] at hread
    have hkeeps : l.KeepsCast (o.strength < ·.strength) (Number.combine o' a b) ↔ o.strength < o'.strength :=
      keepsCast_bare hl o' a b
    have hwhole : l.casting t (Number.combine o' a b).words.phrase =
        .binary (.mark o'.sign) a.words.phrase b.words.phrase := casting_bare hl t _
    rw [hread.reading_eq, hkeeps, hwhole, Option.some.injEq]
    exact o.triple_eq_right_iff o'

/-- A conversion that falls back to a cast has the whole tree as its operand, in front of an operator and behind it,
exactly in Java, for a leaf, and where Lua and Python need no parentheses. -/
theorem conversion_kept_iff {c : Conversion} (hcast : c.apply l v.value = l.cast v.value (c.ty l))
    (hty : l.writesCast = true → IsTypeText (c.ty l).spelling) (hx : IsOperand l x e) :
    (l.reading (o.combine l (c.apply l v.value) x).text =
        some (.binary (.mark o.sign) (l.casting (c.ty l) v.words.phrase) e) ↔
      l.KeepsCast (o.strength ≤ ·.strength) v) ∧
    (l.reading (o.combine l x (c.apply l v.value)).text =
        some (.binary (.mark o.sign) e (l.casting (c.ty l) v.words.phrase)) ↔
      l.KeepsCast (o.strength < ·.strength) v) := by
  rw [hcast]
  exact ⟨cast_left_iff o v hty hx, cast_right_iff o v hty hx⟩

/-- A product with a cast of `a + b` in Kotlin and with the int of `a + b` in Lua. -/
theorem sum_conversion_not_kept :
    (∃ v : Number (Leaf .kotlin), v.value.text = "a + b" ∧ Language.kotlin.writesCast = true ∧ IsTypeText "Int" ∧
      Language.kotlin.reading
          (Arithmetic.product.combine .kotlin (Conversion.apply .kotlin v.value (.cast (.builtin "Int"))) (.raw "x")).text ≠
        some (.binary (.mark "*") (.cast [.word "Int"] (.binary (.mark "+") (.word "a") (.word "b"))) (.word "x"))) ∧
    ∃ v : Number (Leaf .lua), v.value.text = "a + b" ∧
      Language.lua.reading (Arithmetic.product.combine .lua (Conversion.apply .lua v.value .toInt) (.raw "x")).text ≠
        some (.binary (.mark "*") (.binary (.mark "+") (.word "a") (.word "b")) (.word "x")) := by
  constructor
  · let v : Number (Leaf .kotlin) :=
      .combine .sum (.leaf (.raw .kotlin "a" (by decide))) (.leaf (.raw .kotlin "b" (by decide)))
    have hty : IsTypeText "Int" := by decide
    have hx : IsOperand .kotlin (Value.raw "x") (.word "x") := (Leaf.raw .kotlin "x" (by decide)).reads
    have h := conversion_kept_iff (c := .cast (.builtin "Int")) .product v rfl (fun _ => hty) hx
    exact ⟨v, by decide, rfl, hty, h.1.mp⟩
  · let v : Number (Leaf .lua) :=
      .combine .sum (.leaf (.raw .lua "a" (by decide))) (.leaf (.raw .lua "b" (by decide)))
    have hx : IsOperand .lua (Value.raw "x") (.word "x") := (Leaf.raw .lua "x" (by decide)).reads
    have hnumeral : (Language.numeral [] v.value).bind readInt64 = none := by decide +kernel
    have hcast : Conversion.apply .lua v.value .toInt = Language.lua.cast v.value Language.lua.intType := by
      unfold Conversion.apply Language.intOf
      simp only [hnumeral]
    have h := conversion_kept_iff (c := .toInt) .product v hcast (fun h => nomatch h) hx
    refine ⟨v, by decide, fun hread => ?_⟩
    have hle : 7 ≤ 6 := h.1.mp hread
    exact absurd hle (by decide)

end

end Pipewright
