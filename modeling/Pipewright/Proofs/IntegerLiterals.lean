import Pipewright.Proofs.Integers
import Pipewright.Proofs.NumberWords

/-!
# Integer literals

What the languages read as a literal of an integer, and what is printed for one.
Java and Kotlin mark the longs with a suffix, Lua and Python have no such mark. The
literal of a long is marked in Lua all the same, which is no literal there; apart
from that each number is read back (`Language.integer_literals`).
-/

namespace Pipewright

/-- The number that some digits spell, the first of which is no zero unless it is the only one. -/
def decimal? (digits : List Char) : Option Nat :=
  if digits.head? = some '0' ∧ digits ≠ ['0'] then none else natural? digits

namespace Language

def marksLongs : Language → Bool
  | java | kotlin => true
  | lua | python => false

def magnitude? (l : Language) (body : List Char) : Option (Nat × Bool) :=
  let marked := l.marksLongs && body.getLast? == some 'L'
  (decimal? (if marked then body.dropLast else body)).map fun n => (n, marked)

/-- The integer, of whatever size, that a text is a literal of, with an optional minus sign, and whether it is marked as
a long. -/
def integerLiteral? (l : Language) (text : String) : Option (Int × Bool) :=
  match text.toList with
  | '-' :: body => (l.magnitude? body).map fun (n, marked) => (-(n : Int), marked)
  | body => (l.magnitude? body).map fun (n, marked) => ((n : Int), marked)

end Language

/-! ## Printed numbers -/

theorem head?_toDigits {n : Nat} (h : 0 < n) : (Nat.toDigits 10 n).head? ≠ some '0' := by
  induction n using Nat.strongRecOn with
  | ind n ih =>
    by_cases hn : n < 10
    · rw [Nat.toDigits_of_lt_base hn, List.head?_cons]
      intro hzero
      have := Nat.digitChar_eq_zero.mp (Option.some.inj hzero)
      omega
    · have hle : 10 ≤ n := Nat.le_of_not_lt hn
      have hfront := ih (n / 10) (by omega) (by omega)
      rw [Nat.toDigits_of_base_le (by decide) hle, List.head?_append]
      cases hhead : (Nat.toDigits 10 (n / 10)).head? with
      | none => exact absurd (List.head?_eq_none_iff.mp hhead) Nat.toDigits_ne_nil
      | some c => rwa [hhead] at hfront

theorem decimal?_toString (n : Nat) : decimal? (toString n).toList = some n := by
  have hzero : ¬ ((toString n).toList.head? = some '0' ∧ (toString n).toList ≠ ['0']) := by
    rintro ⟨hhead, hne⟩
    rw [Marker.toList_toString] at hhead hne
    rcases Nat.eq_zero_or_pos n with rfl | hpos
    · exact hne (Nat.toDigits_zero 10)
    · exact head?_toDigits hpos hhead
  rw [decimal?, if_neg hzero, natural?_toString]

theorem exists_digit (n : Nat) : ∃ d ds, (toString n).toList = d :: ds ∧ d.isDigit = true := by
  cases hds : (toString n).toList with
  | nil => exact absurd (String.toList_eq_nil_iff.mp hds) (isWord_natural n).nonempty
  | cons d ds => exact ⟨d, ds, rfl, Marker.isDigit_of_mem (hds ▸ List.mem_cons_self)⟩

/-- A printed integer is the digits of its absolute value, behind a minus sign if it is negative. -/
theorem toList_integer (v : Int) :
    (0 ≤ v ∧ (toString v).toList = (toString v.natAbs).toList) ∨
      (v < 0 ∧ (toString v).toList = '-' :: (toString v.natAbs).toList) := by
  cases v with
  | ofNat n => exact .inl ⟨Int.natCast_nonneg n, rfl⟩
  | negSucc n =>
    refine .inr ⟨Int.negSucc_lt_zero n, ?_⟩
    rw [toString_negSucc, String.toList_append]
    rfl

theorem char_of_mem_integer {v : Int} {c : Char} (h : c ∈ (toString v).toList) : c.isDigit = true ∨ c = '-' := by
  rcases toList_integer v with ⟨-, hv⟩ | ⟨-, hv⟩
  · rw [hv] at h
    exact .inl (Marker.isDigit_of_mem h)
  · rw [hv] at h
    rcases List.mem_cons.mp h with rfl | h
    · exact .inr rfl
    · exact .inl (Marker.isDigit_of_mem h)

/-- Characters that no printed integer has. -/
theorem forall_integer {p : Char → Bool} (hdigits : ∀ c, c.isDigit = true → p c = false) (hminus : p '-' = false)
    {v : Int} : ∀ c ∈ (toString v).toList, p c = false := by
  intro c hc
  rcases char_of_mem_integer hc with h | rfl
  · exact hdigits c h
  · exact hminus

theorem isBlank_of_isDigit {c : Char} (h : c.isDigit = true) : isBlank c = false :=
  Lexeme.isBlank_of_isNameChar (isNameChar_of_isDigit h)

/-- A letter is no digit. -/
theorem ne_of_isDigit {c d : Char} (hd : d.isDigit = false) (h : c.isDigit = true) : c ≠ d := by
  rintro rfl
  rw [hd] at h
  cases h

namespace Language

variable {l : Language}

theorem magnitude?_natural (l : Language) (n : Nat) : l.magnitude? (toString n).toList = some (n, false) := by
  have hmark : (l.marksLongs && (toString n).toList.getLast? == some 'L') = false := by
    rw [Bool.and_eq_false_iff]
    refine .inr (beq_eq_false_iff_ne.mpr fun hlast => ?_)
    exact ne_of_isDigit (d := 'L') (by decide) (Marker.isDigit_of_mem (List.mem_of_getLast? hlast)) rfl
  simp only [magnitude?, hmark, Bool.false_eq_true, if_false, decimal?_toString, Option.map_some]

theorem decimal?_append_suffix (n : Nat) : decimal? ((toString n).toList ++ ['L']) = none := by
  have hdigits : ((toString n).toList ++ ['L']).all Char.isDigit = false := by
    rw [List.all_append]
    exact Bool.and_false _
  unfold decimal?
  split
  · rfl
  · rw [natural?, hdigits, Bool.not_false, Bool.or_true, if_pos rfl]

theorem magnitude?_marked (l : Language) (n : Nat) :
    l.magnitude? ((toString n).toList ++ ['L']) = if l.marksLongs then some (n, true) else none := by
  have hlast : ((toString n).toList ++ ['L']).getLast? == some 'L' := by
    rw [List.getLast?_append]
    rfl
  cases h : l.marksLongs with
  | true => simp only [magnitude?, h, hlast, Bool.and_self, if_true, List.dropLast_concat, decimal?_toString,
      Option.map_some]
  | false => simp only [magnitude?, h, Bool.false_and, Bool.false_eq_true, if_false, decimal?_append_suffix,
      Option.map_none]

/-- A literal is read by its sign and what stands behind that. -/
theorem integerLiteral?_eq (marked : Option Bool) {text : String} {v : Int} {tail : List Char}
    (htext : text.toList = (toString v).toList ++ tail)
    (hbody : l.magnitude? ((toString v.natAbs).toList ++ tail) = marked.map fun m => (v.natAbs, m)) :
    l.integerLiteral? text = marked.map fun m => (v, m) := by
  unfold integerLiteral?
  rw [htext]
  -- no digit is a minus sign, so the sign of the number decides which way it is read
  rcases toList_integer v with ⟨hv, hlist⟩ | ⟨hv, hlist⟩
  · obtain ⟨d, ds, hds, hd⟩ := exists_digit v.natAbs
    rw [hlist]
    split
    case h_1 body heq =>
      rw [hds] at heq
      exact absurd (List.cons.inj heq).1 (ne_of_isDigit (by decide) hd)
    case h_2 =>
      rw [hbody, Option.map_map]
      exact Option.map_congr fun m _ => Prod.ext (Int.natAbs_of_nonneg hv) rfl
  · rw [hlist, List.cons_append]
    simp only [hbody, Option.map_map]
    have hnegative : -(v.natAbs : Int) = v := by omega
    exact Option.map_congr fun m _ => Prod.ext hnegative rfl

theorem integerLiteral?_int (l : Language) (v : Int) : l.integerLiteral? (l.int v).text = some (v, false) :=
  integerLiteral?_eq (some false) (List.append_nil _).symm (by
    rw [List.append_nil]
    exact magnitude?_natural l v.natAbs)

theorem integerLiteral?_marked (l : Language) (v : Int) :
    l.integerLiteral? (toString v ++ "L") = if l.marksLongs then some (v, true) else none := by
  have hbody := magnitude?_marked l v.natAbs
  cases h : l.marksLongs with
  | true =>
    rw [h] at hbody
    exact integerLiteral?_eq (some true) String.toList_append hbody
  | false =>
    rw [h] at hbody
    exact integerLiteral?_eq none String.toList_append hbody

theorem integerLiteral?_long (l : Language) (v : Int) :
    l.integerLiteral? (l.long v).text = if l = .lua then none else some (v, l.marksLongs) := by
  cases l with
  | python => exact integerLiteral?_int .python v
  | java => exact integerLiteral?_marked .java v
  | kotlin => exact integerLiteral?_marked .kotlin v
  | lua => exact integerLiteral?_marked .lua v

/-! ## Numbers that are read back -/

/-- A printed integer is what is left without white space and the suffix. -/
theorem numeral_integer {suffixes : List Char} {v : Int} {value : Value} {mark : String}
    (htext : value.text? = some (toString v ++ mark))
    (hmark : ∀ c ∈ mark.toList, isBlank c = false ∧ suffixes.contains c = true)
    (hdigits : ∀ c, c.isDigit = true → suffixes.contains c = false) (hminus : suffixes.contains '-' = false) :
    numeral suffixes value = some (toString v).toList := by
  have hblank : ∀ c ∈ (toString v ++ mark).toList, isBlank c = false := by
    rw [String.toList_append]
    exact List.forall_mem_append.mpr
      ⟨forall_integer (fun _ => isBlank_of_isDigit) (by decide), fun c hc => (hmark c hc).1⟩
  have htail : mark.toList.all suffixes.contains = true := List.all_eq_true.mpr fun c hc => (hmark c hc).2
  rw [numeral, htext, Option.map_some, trim_eq_self hblank, String.toList_append, dropTail_append, if_pos htail,
    dropTail_eq_self (forall_integer hdigits hminus)]

theorem takeSign_integer (v : Int) :
    takeSign (toString v).toList = (decide (v < 0), (toString v.natAbs).toList) := by
  rcases toList_integer v with ⟨hv, hlist⟩ | ⟨hv, hlist⟩
  · obtain ⟨d, ds, hds, hd⟩ := exists_digit v.natAbs
    rw [hlist, hds, decide_eq_false (by omega)]
    unfold takeSign
    split
    case h_1 heq => exact absurd (List.cons.inj heq).1 (ne_of_isDigit (by decide) hd)
    case h_2 heq => exact absurd (List.cons.inj heq).1 (ne_of_isDigit (by decide) hd)
    case h_3 => rfl
  · rw [hlist, decide_eq_true hv]
    rfl

theorem readInt64_integer {v : Int} (h : -Nat.pow 2 63 ≤ v) (h' : v < Nat.pow 2 63) :
    readInt64 (toString v).toList = some v := by
  obtain ⟨d, ds, hds, -⟩ := exists_digit v.natAbs
  have hall : (toString v.natAbs).toList.all Char.isDigit = true :=
    List.all_eq_true.mpr fun c hc => Marker.isDigit_of_mem hc
  have hread : ((toString v.natAbs).toList.isEmpty || !(toString v.natAbs).toList.all Char.isDigit) = false := by
    rw [hall, hds]
    rfl
  have hvalue : digitsValue (toString v.natAbs).toList = v.natAbs := by
    rw [Marker.toList_toString]
    exact Nat.ofDigitChars_ten_toDigits
  have hsigned : (if decide (v < 0) = true then -(v.natAbs : Int) else (v.natAbs : Int)) = v := by
    split
    case isTrue hv => have hneg := of_decide_eq_true hv; omega
    case isFalse hv => have hpos : ¬ v < 0 := fun hneg => hv (decide_eq_true hneg); omega
  unfold readInt64
  rw [takeSign_integer]
  simp only [hread, hvalue, hsigned, Bool.false_eq_true, if_false]
  exact if_pos ⟨h, h'⟩

theorem text?_long (hl : l ≠ .python) (v : Int) : (l.long v).text? = some (toString v ++ "L") := by
  cases l with
  | python => exact absurd rfl hl
  | java | kotlin | lua => rfl

/-- The literals of integers are read as what they stand for, apart from those of longs in Lua. Beside Python, in which
there are no literals of longs, converting a literal gives the literal of the other type. -/
theorem integer_literals (l : Language) (v : Int) :
    l.integerLiteral? (l.int v).text = some (v, false) ∧
      l.integerLiteral? (l.long v).text = (if l = .lua then none else some (v, l.marksLongs)) ∧
      (l ≠ .python → -Nat.pow 2 63 ≤ v → v < Nat.pow 2 63 →
        l.intOf (l.int v) = l.int v ∧ l.longOf (l.int v) = l.long v ∧ l.longOf (l.long v) = l.long v) := by
  refine ⟨integerLiteral?_int l v, integerLiteral?_long l v, fun hl h h' => ?_⟩
  have hread := readInt64_integer h h'
  have hint : (l.int v).text? = some (toString v ++ "") := by
    rw [String.append_empty]
    rfl
  have hsuffixes : ∀ c, c.isDigit = true → ['l', 'L'].contains c = false := by
    intro c hc
    simp [ne_of_isDigit (d := 'l') (by decide) hc, ne_of_isDigit (d := 'L') (by decide) hc]
  refine ⟨?_, ?_, ?_⟩
  · rw [intOf_eq hl, numeral_integer hint (by simp) (by simp) (by simp), Option.bind_some, hread]
  · rw [longOf_eq hl, numeral_integer hint (by simp) hsuffixes (by decide), Option.bind_some, hread]
  · rw [longOf_eq hl, numeral_integer (text?_long hl v) (by simp [isBlank]) hsuffixes (by decide), Option.bind_some,
      hread]

/-- The least and the greatest number, and what Lua does not read. -/
theorem integer_literals_ends : Language.lua.integerLiteral? (Language.lua.long 3).text = none ∧
    Language.java.longOf (Language.java.int (-9223372036854775808)) =
      .new Language.java.longType "-9223372036854775808L" ∧
    Language.kotlin.intOf (Language.kotlin.int 9223372036854775807) =
      .new Language.kotlin.intType "9223372036854775807" :=
  ⟨(integer_literals .lua 3).2.1,
    ((integer_literals .java (-9223372036854775808)).2.2 (by decide) (by decide) (by decide)).2.1,
    ((integer_literals .kotlin 9223372036854775807).2.2 (by decide) (by decide) (by decide)).1⟩

end Language

end Pipewright
