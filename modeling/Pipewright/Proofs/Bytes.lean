import Pipewright.Marker

/-!
# The bytes of a text

A character below 128 is one byte, and no other character has a byte below 128.
So where the bytes of a text hold those of an ASCII word, the characters of the
text hold the word itself (`exists_word`), whatever bytes stand around it.
-/

namespace Pipewright

def encode (cs : List Char) : List UInt8 := cs.flatMap String.utf8EncodeChar

def bytes (text : String) : List UInt8 := text.toByteArray.data.toList

theorem encode_nil : encode [] = [] := rfl

theorem encode_cons (c : Char) (cs : List Char) : encode (c :: cs) = String.utf8EncodeChar c ++ encode cs :=
  List.flatMap_cons

theorem encode_append (cs ds : List Char) : encode (cs ++ ds) = encode cs ++ encode ds := List.flatMap_append

theorem bytes_eq (text : String) : bytes text = encode text.toList := by
  have h : text.toByteArray = text.toList.utf8Encode := by
    rw [← String.toByteArray_ofList, String.ofList_toList]
  rw [bytes, h, List.utf8Encode]
  simp [encode]

theorem length_bytes (text : String) : (bytes text).length = text.utf8ByteSize := rfl

theorem length_encode (text : String) : (encode text.toList).length = text.utf8ByteSize := by
  rw [← bytes_eq, length_bytes]

/-! ## ASCII characters -/

theorem utf8EncodeChar_ascii {c : Char} (h : c.toNat < 128) : String.utf8EncodeChar c = [UInt8.ofNat c.toNat] := by
  have hc : c.val.toNat ≤ 127 := Nat.le_of_lt_succ h
  unfold String.utf8EncodeChar
  exact if_pos hc

theorem le_of_mem_utf8EncodeChar {c : Char} {b : UInt8} (hc : 128 ≤ c.toNat) (hb : b ∈ String.utf8EncodeChar c) :
    128 ≤ b.toNat := by
  have h : ¬c.val.toNat ≤ 127 := Nat.not_le.mpr hc
  have hlt : c.val.toNat < 1114112 := by
    have := c.valid
    simp only [UInt32.isValidChar, Nat.isValidChar] at this
    omega
  unfold String.utf8EncodeChar at hb
  simp only [h, ↓reduceIte] at hb
  split at hb
  · simp only [List.mem_cons, List.not_mem_nil, or_false] at hb
    rcases hb with rfl | rfl <;> rw [UInt8.toNat_ofNat'] <;> omega
  · split at hb <;> simp only [List.mem_cons, List.not_mem_nil, or_false] at hb
    · rcases hb with rfl | rfl | rfl <;> rw [UInt8.toNat_ofNat'] <;> omega
    · rcases hb with rfl | rfl | rfl | rfl <;> rw [UInt8.toNat_ofNat'] <;> omega

theorem ascii_of_mem {c : Char} {b : UInt8} (hb : b ∈ String.utf8EncodeChar c) (h : b.toNat < 128) : c.toNat < 128 :=
  Nat.lt_of_not_le fun hc => absurd (le_of_mem_utf8EncodeChar hc hb) (Nat.not_le.mpr h)

theorem toNat_ascii {c : Char} (hc : c.toNat < 128) : (UInt8.ofNat c.toNat).toNat = c.toNat := by
  rw [UInt8.toNat_ofNat']
  omega

/-- A byte below 128 is a character of its own. -/
theorem exists_char {cs : List Char} {before after : List UInt8} {a : Char} (ha : a.toNat < 128)
    (h : encode cs = before ++ UInt8.ofNat a.toNat :: after) :
    ∃ cs₁ cs₂, cs = cs₁ ++ a :: cs₂ ∧ encode cs₁ = before ∧ encode cs₂ = after := by
  induction cs generalizing before with
  | nil => simp [encode_nil] at h
  | cons c cs ih =>
    rw [encode_cons] at h
    by_cases hc : c.toNat < 128
    · rw [utf8EncodeChar_ascii hc] at h
      cases before with
      | nil =>
        obtain ⟨hbyte, rfl⟩ := List.cons.inj h
        have hca : c = a := by
          rw [← Char.toNat_inj, ← toNat_ascii hc, ← toNat_ascii ha, hbyte]
        exact ⟨[], cs, by rw [hca]; rfl, rfl, rfl⟩
      | cons b before =>
        obtain ⟨rfl, hcs⟩ := List.cons.inj h
        obtain ⟨cs₁, cs₂, rfl, rfl, rfl⟩ := ih hcs
        exact ⟨c :: cs₁, cs₂, rfl, by rw [encode_cons, utf8EncodeChar_ascii hc]; rfl, rfl⟩
    · -- the byte is none of `c`, so all bytes of `c` come before it
      obtain ⟨more, hbefore, h⟩ | ⟨more, hchar, h⟩ := List.append_eq_append_iff.mp h
      · obtain ⟨cs₁, cs₂, rfl, rfl, rfl⟩ := ih h
        exact ⟨c :: cs₁, cs₂, rfl, by rw [encode_cons, hbefore], rfl⟩
      · cases more with
        | nil =>
          have hcs : encode cs = [] ++ UInt8.ofNat a.toNat :: after := h.symm
          obtain ⟨cs₁, cs₂, rfl, hnil, rfl⟩ := ih hcs
          exact ⟨c :: cs₁, cs₂, rfl, by rw [encode_cons, hnil, hchar]; simp, rfl⟩
        | cons b more =>
          obtain ⟨rfl, -⟩ := List.cons.inj h
          have hbyte : (UInt8.ofNat a.toNat).toNat < 128 := by rwa [toNat_ascii ha]
          exact absurd (ascii_of_mem (hchar ▸ by simp) hbyte) hc

theorem encode_eq_nil {cs : List Char} (h : encode cs = []) : cs = [] := by
  cases cs with
  | nil => rfl
  | cons c cs =>
    rw [encode_cons, List.append_eq_nil_iff] at h
    exact absurd h.1 String.utf8EncodeChar_ne_nil

/-- ASCII characters at the start of some bytes. -/
theorem exists_rest {word cs : List Char} {after : List UInt8} (hword : ∀ c ∈ word, c.toNat < 128)
    (h : encode cs = encode word ++ after) : ∃ rest, cs = word ++ rest ∧ encode rest = after := by
  induction word generalizing cs with
  | nil => exact ⟨cs, rfl, h⟩
  | cons c word ih =>
    obtain ⟨hc, hword⟩ := List.forall_mem_cons.mp hword
    rw [encode_cons, utf8EncodeChar_ascii hc, List.append_assoc, List.singleton_append, ← List.nil_append (_ :: _)] at h
    obtain ⟨cs₁, cs₂, rfl, hnil, hrest⟩ := exists_char hc h
    obtain ⟨rest, rfl, hafter⟩ := ih hword hrest
    exact ⟨rest, by rw [encode_eq_nil hnil]; rfl, hafter⟩

/-- An ASCII word among the bytes of some characters. -/
theorem exists_word {word cs : List Char} {before after : List UInt8} (hne : word ≠ [])
    (hword : ∀ c ∈ word, c.toNat < 128) (h : encode cs = before ++ encode word ++ after) :
    ∃ cs₁ cs₂, cs = cs₁ ++ word ++ cs₂ ∧ encode cs₁ = before ∧ encode cs₂ = after := by
  cases word with
  | nil => exact absurd rfl hne
  | cons c word =>
    obtain ⟨hc, hword⟩ := List.forall_mem_cons.mp hword
    rw [encode_cons, utf8EncodeChar_ascii hc, List.append_assoc] at h
    obtain ⟨cs₁, cs₂, rfl, hbefore, hrest⟩ := exists_char hc h
    obtain ⟨rest, rfl, hafter⟩ := exists_rest hword hrest
    exact ⟨cs₁, rest, by simp, hbefore, hafter⟩

end Pipewright
