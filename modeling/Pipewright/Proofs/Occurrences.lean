import Pipewright.Proofs.Bytes
import Pipewright.Proofs.Jumps
import Mathlib.Data.List.Chain
import Mathlib.Data.List.Pairwise

/-!
# Occurrences of markers

A marker occurs at a byte of a text when its bytes stand there, whatever stands
around them. The scan finds these places and no others, in their order
(`segments_cut`). As `<` is the first character of a marker and nowhere else in
it, no marker begins in front of a `<` and ends behind it; hence a text that
starts with one can be put behind any other without a change to the markers of
either (`markerIds_splice`).
-/

namespace Pipewright

/-! ## The text of a marker -/

namespace Marker

/-- `raw` is a whole marker of `id`, its number perhaps behind zeros. -/
def Spells (raw : String) (id : Nat) : Prop :=
  ∃ digits, raw = String.ofList (opening ++ digits ++ closing) ∧ digits ≠ [] ∧ (∀ d ∈ digits, d.isDigit = true) ∧
    digitsValue digits = id ∧ id < idBound

theorem at?_isSome_iff {cs rest : List Char} {id : Nat} :
    (∃ digits, at? cs = some (id, digits, rest)) ↔ ∃ raw, Spells raw id ∧ cs = raw.toList ++ rest := by
  constructor
  · rintro ⟨digits, h⟩
    obtain ⟨rfl, hd⟩ := at?_eq_some_iff.mp h
    exact ⟨String.ofList (opening ++ digits ++ closing), ⟨digits, rfl, hd⟩, by simp⟩
  · rintro ⟨raw, ⟨digits, rfl, hd⟩, rfl⟩
    exact ⟨digits, at?_eq_some_iff.mpr ⟨by simp, hd⟩⟩

namespace Spells

variable {raw : String} {id : Nat} (h : Spells raw id)

include h

theorem at?_append (rest : List Char) : ∃ digits, at? (raw.toList ++ rest) = some (id, digits, rest) :=
  at?_isSome_iff.mpr ⟨raw, h, rfl⟩

/-- Only the first character of a marker is a `<`. -/
theorem exists_body : ∃ body, raw.toList = '<' :: body ∧ '<' ∉ body := by
  obtain ⟨digits, rfl, -, hd, -⟩ := h
  refine ⟨['@', 'v', 'g', '#'] ++ digits ++ closing, by simp [opening], ?_⟩
  have hdigits : '<' ∉ digits := fun hmem => absurd (hd _ hmem) (by decide)
  simp [hdigits, closing]

theorem ascii : ∀ c ∈ raw.toList, c.toNat < 128 := by
  obtain ⟨digits, rfl, -, hd, -⟩ := h
  have hopening : ∀ c ∈ opening, c.toNat < 128 := by simp [opening]
  have hclosing : ∀ c ∈ closing, c.toNat < 128 := by simp [closing]
  have hdigits : ∀ c ∈ digits, c.toNat < 128 := fun c hc => by
    have hle : c.val ≤ 57 := by
      have := hd c hc
      simp only [Char.isDigit, Bool.and_eq_true, decide_eq_true_eq] at this
      exact this.2
    have : c.toNat ≤ 57 := UInt32.le_iff_toNat_le.mp hle
    omega
  intro c hc
  rw [String.toList_ofList, List.mem_append, List.mem_append] at hc
  rcases hc with (hc | hc) | hc
  · exact hopening c hc
  · exact hdigits c hc
  · exact hclosing c hc

/-- A marker that begins in front of a `<` ends in front of it. -/
theorem ends_before {rest front behind : List Char} (hcs : raw.toList ++ rest = front ++ '<' :: behind)
    (hne : front ≠ []) : ∃ more, front = raw.toList ++ more ∧ rest = more ++ '<' :: behind := by
  obtain ⟨body, hraw, hbody⟩ := h.exists_body
  obtain ⟨more, hfront, hrest⟩ | ⟨more, hfront, hbehind⟩ := List.append_eq_append_iff.mp hcs
  · exact ⟨more, hfront, hrest⟩
  · cases more with
    | nil => exact ⟨[], by simpa using hfront.symm, hbehind.symm⟩
    | cons c more =>
      obtain ⟨rfl, -⟩ := List.cons.inj hbehind
      cases front with
      | nil => exact absurd rfl hne
      | cons d front =>
        rw [hraw] at hfront
        obtain ⟨-, rfl⟩ := List.cons.inj hfront
        exact absurd (by simp) hbody

theorem eq_of_append_eq {raw' : String} {id' : Nat} (h' : Spells raw' id') {rest rest' : List Char}
    (hcs : raw.toList ++ rest = raw'.toList ++ rest') : raw = raw' ∧ id = id' ∧ rest = rest' := by
  obtain ⟨digits, hat⟩ := h.at?_append rest
  obtain ⟨digits', hat'⟩ := h'.at?_append rest'
  rw [hcs, hat'] at hat
  cases hat
  exact ⟨String.toList_injective (List.append_cancel_right hcs), rfl, rfl⟩

end Spells

theorem spells_text {id : Nat} (h : id < idBound) : Spells (text id) id := by
  obtain ⟨-, hd⟩ := at?_eq_some_iff.mp (at?_text h [])
  exact ⟨(toString id).toList, rfl, hd⟩

/-- What stands behind a `<` has no part in a marker in front of it. -/
theorem at?_append_open {front behind : List Char} {id : Nat} {digits rest : List Char} (hne : front ≠ [])
    (h : at? (front ++ '<' :: behind) = some (id, digits, rest)) :
    ∃ more, at? front = some (id, digits, more) ∧ rest = more ++ '<' :: behind := by
  obtain ⟨hcs, hd⟩ := at?_eq_some_iff.mp h
  have hspells : Spells (String.ofList (opening ++ digits ++ closing)) id := ⟨digits, rfl, hd⟩
  obtain ⟨more, hfront, hrest⟩ := hspells.ends_before (by simpa using hcs.symm) hne
  exact ⟨more, at?_eq_some_iff.mpr ⟨by simpa using hfront, hd⟩, hrest⟩

end Marker

/-! ## Splicing -/

namespace Segment

/-- What is read off the markers alone does not depend on the run in front of them. -/
theorem filterMap_scan {α : Type} {f : Segment → Option α} (hf : ∀ t, f (plain t) = none) (run run' cs : List Char) :
    (scan run cs).filterMap f = (scan run' cs).filterMap f := by
  induction run, cs using scan.induct generalizing run' with
  | case1 run => rw [scan_nil, scan_nil, filterMap_ofRun hf, filterMap_ofRun hf]
  | case2 run c rest h ih => rw [scan_plain h, scan_plain h, ih (c :: run')]
  | case3 run c rest id digits after h hlt ih =>
    rw [scan_marker h, scan_marker h, List.filterMap_append, List.filterMap_append, filterMap_ofRun hf,
      filterMap_ofRun hf]

theorem filterMap_id?_scan_append (run cs behind : List Char) :
    (scan run (cs ++ '<' :: behind)).filterMap id? =
      (scan run cs).filterMap id? ++ (scan [] ('<' :: behind)).filterMap id? := by
  induction run, cs using scan.induct with
  | case1 run =>
    rw [scan_nil, filterMap_id?_ofRun, List.nil_append, List.nil_append]
    exact filterMap_scan (fun _ => rfl) run [] _
  | case2 run c rest h ih =>
    have hopen : Marker.at? (c :: (rest ++ '<' :: behind)) = none := by
      refine Option.eq_none_iff_forall_ne_some.mpr fun ⟨id, digits, more⟩ hsome => ?_
      obtain ⟨_, hfront, -⟩ := Marker.at?_append_open (List.cons_ne_nil c rest) hsome
      rw [h] at hfront
      cases hfront
    rw [List.cons_append, scan_plain hopen, scan_plain h, ih]
  | case3 run c rest id digits after h hlt ih =>
    rw [scan_marker (Marker.at?_append h ('<' :: behind)), scan_marker h]
    simp only [List.filterMap_append, List.filterMap_cons, id?, ih]
    simp

end Segment

/-- A marker is found in any text that it is put into, and the markers on both sides stay what they are. -/
theorem markerIds_splice (id : UInt32) (a b : String) :
    markerIds (a ++ Marker.text id.toNat ++ b) = markerIds a ++ [id.toNat] ++ markerIds b := by
  have hid : id.toNat < Marker.idBound := id.toNat_lt
  obtain ⟨body, htext, -⟩ := (Marker.spells_text hid).exists_body
  have hsplit : (a ++ Marker.text id.toNat ++ b).toList = a.toList ++ '<' :: (body ++ b.toList) := by
    rw [String.toList_append, String.toList_append, htext, List.append_assoc, List.cons_append]
  have hmarker := Segment.scan_marker (Marker.at?_text hid b.toList) []
  rw [htext, List.cons_append] at hmarker
  unfold markerIds segments
  rw [hsplit, Segment.filterMap_id?_scan_append, hmarker]
  simp [Segment.filterMap_id?_ofRun, Segment.id?]

/-! ## Places -/

structure Occurrence where
  start : Nat
  id : Nat
  raw : String
deriving DecidableEq, Repr

namespace Occurrence

def stop (m : Occurrence) : Nat := m.start + m.raw.utf8ByteSize

/-- The bytes of the marker stand in a text at its place, whatever stands around them. -/
structure In (m : Occurrence) (text : String) : Prop where
  spells : Marker.Spells m.raw m.id
  place : ∃ before after, bytes text = before ++ bytes m.raw ++ after ∧ before.length = m.start

/-- The same place counted in characters. -/
theorem in_iff {m : Occurrence} {text : String} :
    m.In text ↔ Marker.Spells m.raw m.id ∧
      ∃ front behind, text.toList = front ++ m.raw.toList ++ behind ∧ (encode front).length = m.start := by
  constructor
  · rintro ⟨hspells, before, after, h, hstart⟩
    refine ⟨hspells, ?_⟩
    obtain ⟨body, hraw, -⟩ := hspells.exists_body
    rw [bytes_eq, bytes_eq] at h
    obtain ⟨front, behind, hcs, rfl, -⟩ := exists_word (hraw ▸ List.cons_ne_nil _ _) hspells.ascii h
    exact ⟨front, behind, hcs, hstart⟩
  · rintro ⟨hspells, front, behind, h, hstart⟩
    refine ⟨hspells, encode front, encode behind, ?_, hstart⟩
    rw [bytes_eq, bytes_eq, h, encode_append, encode_append]

end Occurrence

namespace Segment

def occurrences (p : Nat) : List Segment → List Occurrence
  | [] => []
  | plain t :: rest => occurrences (p + t.utf8ByteSize) rest
  | marker id raw :: rest => ⟨p, id, raw⟩ :: occurrences (p + raw.utf8ByteSize) rest

theorem occurrences_ofRun (p : Nat) (run : List Char) (rest : List Segment) :
    occurrences p (ofRun run ++ rest) = occurrences (p + (encode run.reverse).length) rest := by
  unfold ofRun
  by_cases hrun : run = []
  · simp [hrun, encode_nil]
  · have hsize : (String.ofList run.reverse).utf8ByteSize = (encode run.reverse).length := by
      rw [← length_encode, String.toList_ofList]
    simp [hrun, occurrences, hsize]

theorem start_le_of_mem {p : Nat} {m : Occurrence} {pieces : List Segment} (h : m ∈ occurrences p pieces) :
    p ≤ m.start := by
  induction pieces generalizing p with
  | nil => cases h
  | cons s rest ih =>
    cases s with
    | plain t =>
      have := ih h
      omega
    | marker id raw =>
      rcases List.mem_cons.mp h with rfl | h
      · exact Nat.le_refl p
      · have := ih h
        omega

theorem occurrences_ordered (p : Nat) (pieces : List Segment) :
    (occurrences p pieces).Pairwise fun m n => m.stop ≤ n.start := by
  induction pieces generalizing p with
  | nil => exact .nil
  | cons s rest ih =>
    cases s with
    | plain t => exact ih _
    | marker id raw => exact List.pairwise_cons.mpr ⟨fun n hn => start_le_of_mem hn, ih _⟩

/-- The pieces of a text hold its markers at their places. -/
theorem mem_occurrences_scan {m : Occurrence} (p : Nat) (run cs : List Char) :
    m ∈ occurrences p (scan run cs) ↔ Marker.Spells m.raw m.id ∧
      ∃ front behind, cs = front ++ m.raw.toList ++ behind ∧
        m.start = p + (encode run.reverse).length + (encode front).length := by
  induction run, cs using scan.induct generalizing p with
  | case1 run =>
    have hnone : occurrences p (ofRun run) = [] := by simpa [occurrences] using occurrences_ofRun p run []
    rw [scan_nil, hnone]
    refine iff_of_false List.not_mem_nil ?_
    rintro ⟨hspells, front, behind, h, -⟩
    obtain ⟨body, hraw, -⟩ := hspells.exists_body
    simp [hraw] at h
  | case2 run c rest h ih =>
    have hlength : ∀ front, (encode (c :: run).reverse).length + (encode front).length =
        (encode run.reverse).length + (encode (c :: front)).length := by
      intro front
      simp only [List.reverse_cons, encode_append, encode_cons, encode_nil, List.length_append, List.length_nil]
      omega
    rw [scan_plain h, ih]
    refine and_congr_right fun hspells => ?_
    constructor
    · rintro ⟨front, behind, rfl, hstart⟩
      exact ⟨c :: front, behind, rfl, by rw [hstart, Nat.add_assoc, hlength, Nat.add_assoc]⟩
    · rintro ⟨front, behind, hcs, hstart⟩
      cases front with
      | nil =>
        obtain ⟨digits, hat⟩ := hspells.at?_append behind
        rw [List.nil_append] at hcs
        rw [← hcs, h] at hat
        cases hat
      | cons d front =>
        obtain ⟨rfl, rfl⟩ := List.cons.inj hcs
        exact ⟨front, behind, rfl, by rw [hstart, Nat.add_assoc, ← hlength, Nat.add_assoc]⟩
  | case3 run c cs id digits rest h hlt ih =>
    obtain ⟨hcs, hd⟩ := Marker.at?_eq_some_iff.mp h
    have hspelled : Marker.Spells (String.ofList (Marker.opening ++ digits ++ Marker.closing)) id := ⟨digits, rfl, hd⟩
    rw [scan_marker h, occurrences_ofRun, occurrences, List.mem_cons, ih, hcs]
    generalize hraw : String.ofList (Marker.opening ++ digits ++ Marker.closing) = raw at hspelled ⊢
    have htext : Marker.opening ++ digits ++ Marker.closing = raw.toList := by rw [← hraw, String.toList_ofList]
    rw [htext, List.reverse_nil, encode_nil, ← length_encode]
    constructor
    · rintro (rfl | ⟨hspells, front, behind, rfl, hstart⟩)
      · exact ⟨hspelled, [], rest, rfl, rfl⟩
      · refine ⟨hspells, raw.toList ++ front, behind, by simp, ?_⟩
        rw [hstart, encode_append, List.length_append, List.length_nil]
        omega
    · rintro ⟨hspells, front, behind, hsplit, hstart⟩
      by_cases hfront : front = []
      · subst hfront
        obtain ⟨rfl, rfl, -⟩ := hspelled.eq_of_append_eq hspells (by rw [hsplit, List.nil_append])
        rw [encode_nil, List.length_nil, Nat.add_zero] at hstart
        exact .inl (by rw [← hstart])
      · obtain ⟨body, hbody, -⟩ := hspells.exists_body
        have hopen : raw.toList ++ rest = front ++ '<' :: (body ++ behind) := by rw [hsplit, hbody]; simp
        obtain ⟨more, rfl, hrest⟩ := hspelled.ends_before hopen hfront
        refine .inr ⟨hspells, more, behind, by rw [hrest, hbody]; simp, ?_⟩
        rw [hstart, encode_append, List.length_append, List.length_nil]
        omega

/-! ## Runs -/

theorem isChain_scan (run cs : List Char) : (scan run cs).IsChain fun s t => s.id?.isSome ∨ t.id?.isSome := by
  have hrun : ∀ run, (ofRun run).IsChain fun s t => s.id?.isSome ∨ t.id?.isSome := by
    intro run
    unfold ofRun
    split
    · exact .nil
    · exact .singleton _
  fun_induction scan run cs with
  | case1 run => exact hrun run
  | case2 run c rest h ih => exact ih
  | case3 run c rest id digits after h hlt ih =>
    refine List.isChain_append.mpr ⟨hrun run, List.isChain_cons.mpr ⟨fun t _ => .inl rfl, ih⟩, ?_⟩
    intro s _ t ht
    cases ht
    exact .inr rfl

theorem text_ne_empty_of_mem_scan {s : Segment} (run cs : List Char) (h : s ∈ scan run cs) : s.text ≠ "" := by
  have hrun : ∀ run, s ∈ ofRun run → s.text ≠ "" := by
    intro run hs
    unfold ofRun at hs
    by_cases hempty : run = []
    · simp [hempty] at hs
    · simp only [List.isEmpty_iff, hempty, ↓reduceIte, List.mem_singleton] at hs
      subst hs
      simpa [text] using hempty
  fun_induction scan run cs with
  | case1 run => exact hrun run h
  | case2 run c rest hm ih => exact ih h
  | case3 run c rest id digits after hm hlt ih =>
    rcases List.mem_append.mp h with h | h
    · exact hrun run h
    · rcases List.mem_cons.mp h with rfl | h
      · simp [text, Marker.opening]
      · exact ih h

/-- No marker stands in a plain run: the scan would have stopped at it. -/
theorem not_in_of_mem_scan {t : String} {m : Occurrence} (run cs : List Char)
    (hopen : ∀ front more, run.reverse = front ++ more → more ≠ [] → Marker.at? (more ++ cs) = none)
    (h : plain t ∈ scan run cs) : ¬m.In t := by
  have hrun : ∀ run cs, (∀ front more, run.reverse = front ++ more → more ≠ [] → Marker.at? (more ++ cs) = none) →
      plain t ∈ ofRun run → ¬m.In t := by
    intro run cs hopen ht hin
    obtain ⟨hspells, front, behind, hcs, -⟩ := Occurrence.in_iff.mp hin
    obtain ⟨body, hraw, -⟩ := hspells.exists_body
    have hreverse : run.reverse = front ++ (m.raw.toList ++ behind) := by
      rw [← List.append_assoc, ← hcs]
      exact (run_of_mem_ofRun ht).symm
    have hnone := hopen front (m.raw.toList ++ behind) hreverse (by simp [hraw])
    obtain ⟨digits, hat⟩ := hspells.at?_append (behind ++ cs)
    rw [List.append_assoc, hat] at hnone
    cases hnone
  fun_induction scan run cs with
  | case1 run => exact hrun run [] hopen h
  | case2 run c rest hm ih =>
    refine ih (fun front more hsplit hne => ?_) h
    obtain ⟨more, d, rfl⟩ := (List.eq_nil_or_concat more).resolve_left hne
    rw [List.concat_eq_append] at hsplit ⊢
    rw [List.reverse_cons, ← List.append_assoc] at hsplit
    obtain ⟨hfront, rfl⟩ := List.append_singleton_inj.mp hsplit
    rw [List.append_assoc, List.singleton_append]
    by_cases hempty : more = []
    · rw [hempty]; exact hm
    · exact hopen front more hfront hempty
  | case3 run c rest id digits after hm hlt ih =>
    rcases List.mem_append.mp h with h | h
    · exact hrun run _ hopen h
    · rcases List.mem_cons.mp h with h | h
      · cases h
      · exact ih (by simp) h

end Segment

/-! ## The scan -/

/-- Some pieces are a text cut exactly at its markers. -/
structure CutAtMarkers (text : String) (pieces : List Segment) : Prop where
  whole : String.join (pieces.map Segment.text) = text
  filled : ∀ s ∈ pieces, s.text ≠ ""
  apart : pieces.IsChain fun s t => s.id?.isSome ∨ t.id?.isSome
  /-- The markers among the pieces are those of the text, each with its number and at its place. -/
  exact : ∀ m : Occurrence, m ∈ Segment.occurrences 0 pieces ↔ m.In text
  ordered : (Segment.occurrences 0 pieces).Pairwise fun m n => m.stop ≤ n.start
  bare : ∀ t, Segment.plain t ∈ pieces → ∀ m : Occurrence, ¬m.In t
  disjoint : ∀ m n : Occurrence, m.In text → n.In text → m ≠ n → m.stop ≤ n.start ∨ n.stop ≤ m.start

theorem segments_cut (text : String) :
    CutAtMarkers text (segments text) ∧ Segment.pieces text.toList = segments text := by
  have hexact : ∀ m : Occurrence, m ∈ Segment.occurrences 0 (segments text) ↔ m.In text := by
    intro m
    rw [segments, Segment.mem_occurrences_scan, Occurrence.in_iff]
    simp only [List.reverse_nil, encode_nil, List.length_nil, Nat.zero_add, eq_comm]
  have hordered := Segment.occurrences_ordered 0 (segments text)
  refine ⟨⟨join_segments text, fun s => Segment.text_ne_empty_of_mem_scan [] text.toList,
    Segment.isChain_scan [] text.toList, hexact, hordered, ?_, ?_⟩, Segment.pieces_eq text.toList⟩
  · intro t ht m
    exact Segment.not_in_of_mem_scan [] text.toList (by simp) ht
  · intro m n hm hn hne
    have heither : (Segment.occurrences 0 (segments text)).Pairwise
        fun m n => m.stop ≤ n.start ∨ n.stop ≤ m.start := hordered.imp .inl
    have : Std.Symm fun m n : Occurrence => m.stop ≤ n.start ∨ n.stop ≤ m.start := ⟨fun _ _ h => h.symm⟩
    exact heither.forall ((hexact m).mpr hm) ((hexact n).mpr hn) hne

end Pipewright
