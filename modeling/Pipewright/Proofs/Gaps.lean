import Pipewright.Proofs.Occurrences

/-!
# Gaps between markers

A text holds a marker when some spelling of it stands there (`mem_markerIds_iff`).
White space and parentheses stand in no marker, so texts with such a gap between
them keep their markers apart, whatever else they hold (`replaceMarkers_gap`,
`mem_markerIds_gap`). Neither text has to be tidy for that.
-/

namespace Pipewright

/-! ## The markers of a text -/

namespace Segment

theorem map_id_occurrences (p : Nat) (pieces : List Segment) :
    (occurrences p pieces).map Occurrence.id = pieces.filterMap id? := by
  induction pieces generalizing p with
  | nil => rfl
  | cons s rest ih =>
    cases s with
    | plain t => exact ih _
    | marker id raw =>
      rw [occurrences, List.map_cons, ih]
      rfl

end Segment

theorem mem_occurrences_segments {m : Occurrence} {text : String} :
    m ∈ Segment.occurrences 0 (segments text) ↔ m.In text := by
  rw [segments, Segment.mem_occurrences_scan, Occurrence.in_iff]
  simp only [List.reverse_nil, encode_nil, List.length_nil, Nat.zero_add, eq_comm]

theorem mem_markerIds_iff {id : Nat} {text : String} :
    id ∈ markerIds text ↔ ∃ raw, Marker.Spells raw id ∧ raw.toList <:+: text.toList := by
  rw [markerIds, ← Segment.map_id_occurrences 0, List.mem_map]
  constructor
  · rintro ⟨m, hm, rfl⟩
    obtain ⟨hspells, front, behind, htext, -⟩ := Occurrence.in_iff.mp (mem_occurrences_segments.mp hm)
    exact ⟨m.raw, hspells, front, behind, htext.symm⟩
  · rintro ⟨raw, hspells, front, behind, htext⟩
    refine ⟨⟨(encode front).length, id, raw⟩, mem_occurrences_segments.mpr ?_, rfl⟩
    exact Occurrence.in_iff.mpr ⟨hspells, front, behind, htext.symm, rfl⟩

theorem segments_empty : segments "" = [] := Segment.scan_nil []

theorem markerIds_empty : markerIds "" = [] := by
  rw [markerIds, segments_empty]
  rfl

theorem mem_markerIds_mono {a b : String} (h : a.toList <:+: b.toList) {id : Nat} (hid : id ∈ markerIds a) :
    id ∈ markerIds b := by
  obtain ⟨raw, hspells, hraw⟩ := mem_markerIds_iff.mp hid
  exact mem_markerIds_iff.mpr ⟨raw, hspells, hraw.trans h⟩

/-! ## Gaps -/

def Marker.Foreign (c : Char) : Prop := c ∉ opening ++ closing ∧ c.isDigit = false

instance (c : Char) : Decidable (Marker.Foreign c) :=
  inferInstanceAs (Decidable (c ∉ Marker.opening ++ Marker.closing ∧ c.isDigit = false))

def Marker.Gap (text : String) : Prop := ∃ c, text.toList = [c] ∧ Foreign c

theorem prefix_gap_iff {c : Char} {word : List Char} (hc : c ∉ word) (front behind : List Char) :
    word <+: front ++ c :: behind ↔ word <+: front := by
  induction front generalizing word with
  | nil =>
    cases word with
    | nil => simp
    | cons w word =>
      rw [List.nil_append, List.cons_prefix_cons, List.prefix_nil]
      exact iff_of_false (fun h => hc (h.1 ▸ List.mem_cons_self ..)) (List.cons_ne_nil _ _)
  | cons d front ih =>
    cases word with
    | nil => simp
    | cons w word =>
      rw [List.cons_append, List.cons_prefix_cons, List.cons_prefix_cons, ih fun h => hc (List.mem_cons_of_mem _ h)]

theorem infix_gap_iff {c : Char} {word : List Char} (hc : c ∉ word) (front behind : List Char) :
    word <:+: front ++ c :: behind ↔ word <:+: front ∨ word <:+: behind := by
  induction front with
  | nil =>
    rw [List.nil_append, List.infix_cons_iff, ← List.nil_append (c :: behind), prefix_gap_iff hc, List.prefix_nil,
      List.infix_nil]
  | cons d front ih =>
    rw [List.cons_append, List.infix_cons_iff, ih, ← List.cons_append, prefix_gap_iff hc, List.infix_cons_iff, or_assoc]

namespace Marker

theorem gap_blank : Gap " " := ⟨' ', rfl, by decide⟩

theorem gap_opening : Gap "(" := ⟨'(', rfl, by decide⟩

theorem gap_closing : Gap ")" := ⟨')', rfl, by decide⟩

variable {c : Char} (hc : Foreign c)
include hc

theorem Spells.not_mem {raw : String} {id : Nat} (h : Spells raw id) : c ∉ raw.toList := by
  unfold Foreign at hc
  obtain ⟨digits, rfl, -, hd, -⟩ := h
  simp only [List.mem_append, not_or] at hc
  simp only [String.toList_ofList, List.mem_append, not_or]
  exact ⟨⟨hc.1.1, fun h => absurd (hd c h) (by simp [hc.2])⟩, hc.1.2⟩

/-- A marker in front of such a character has ended there. -/
theorem at?_gap (front : List Char) {behind digits rest : List Char} {id : Nat}
    (h : at? (front ++ c :: behind) = some (id, digits, rest)) :
    ∃ more, at? front = some (id, digits, more) ∧ rest = more ++ c :: behind := by
  obtain ⟨heq, hd⟩ := at?_eq_some_iff.mp h
  have hspells : Spells (String.ofList (opening ++ digits ++ closing)) id := ⟨digits, rfl, hd⟩
  have hstart : opening ++ digits ++ closing <+: front := by
    rw [← prefix_gap_iff (by simpa using hspells.not_mem hc) front behind, heq]
    exact List.prefix_append _ _
  obtain ⟨more, rfl⟩ := hstart
  exact ⟨more, at?_eq_some_iff.mpr ⟨rfl, hd⟩, by simpa using heq.symm⟩

theorem at?_gap_eq_none {front : List Char} (h : at? front = none) (behind : List Char) :
    at? (front ++ c :: behind) = none := by
  apply Option.eq_none_iff_forall_ne_some.mpr
  intro found hfound
  obtain ⟨id, digits, rest⟩ := found
  obtain ⟨_, hfront, -⟩ := at?_gap hc front hfound
  rw [h] at hfront
  cases hfront

theorem ne_open : c ≠ '<' := by
  rintro rfl
  exact hc.1 (by decide)

end Marker

namespace Segment

theorem flatMap_replace_scan_gap (f : Nat → Option String) {c : Char} (hc : Marker.Foreign c)
    (run cs behind : List Char) :
    (scan run (cs ++ c :: behind)).flatMap (fun s => (s.replace f).toList) =
      (scan run cs).flatMap (fun s => (s.replace f).toList) ++
        c :: (scan [] behind).flatMap (fun s => (s.replace f).toList) := by
  induction run, cs using scan.induct with
  | case1 run =>
    rw [List.nil_append, scan_plain (Marker.at?_eq_none_of_ne (Marker.ne_open hc) _), scan_nil, flatMap_replace_ofRun,
      flatMap_replace_scan]
    simp
  | case2 run d rest h ih =>
    have hnone := Marker.at?_gap_eq_none hc h behind
    rw [List.cons_append] at hnone ⊢
    rw [scan_plain hnone, scan_plain h, ih]
  | case3 run d rest id digits after h hlt ih =>
    rw [scan_marker (Marker.at?_append h (c :: behind)), scan_marker h]
    simp only [List.flatMap_append, List.flatMap_cons, ih, List.append_assoc]

theorem filterMap_scan_gap {α : Type} {f : Segment → Option α} (hf : ∀ t, f (plain t) = none) {c : Char}
    (hc : Marker.Foreign c) (run cs behind : List Char) :
    (scan run (cs ++ c :: behind)).filterMap f = (scan run cs).filterMap f ++ (scan [] behind).filterMap f := by
  induction run, cs using scan.induct with
  | case1 run =>
    rw [List.nil_append, scan_plain (Marker.at?_eq_none_of_ne (Marker.ne_open hc) _), scan_nil, filterMap_ofRun hf,
      List.nil_append]
    exact filterMap_scan hf _ _ _
  | case2 run d rest h ih =>
    have hnone := Marker.at?_gap_eq_none hc h behind
    rw [List.cons_append] at hnone ⊢
    rw [scan_plain hnone, scan_plain h, ih]
  | case3 run d rest id digits after h hlt ih =>
    rw [scan_marker (Marker.at?_append h (c :: behind)), scan_marker h]
    simp only [List.filterMap_append, List.filterMap_cons, ih]
    cases f _ <;> simp only [List.append_assoc, List.cons_append]

end Segment

theorem toList_replaceMarkers (f : Nat → Option String) (text : String) :
    (replaceMarkers f text).toList = (Segment.scan [] text.toList).flatMap fun s => (s.replace f).toList := by
  rw [replaceMarkers, String.toList_join, List.flatMap_map]
  rfl

/-- Markers on the two sides of a gap are replaced apart. -/
theorem replaceMarkers_gap (f : Nat → Option String) {gap : String} (hgap : Marker.Gap gap) (a b : String) :
    replaceMarkers f (a ++ gap ++ b) = replaceMarkers f a ++ gap ++ replaceMarkers f b := by
  obtain ⟨c, hchars, hc⟩ := hgap
  apply String.toList_injective
  simp only [String.toList_append, toList_replaceMarkers, hchars, List.append_assoc, List.singleton_append]
  exact Segment.flatMap_replace_scan_gap f hc [] a.toList b.toList

/-- What is read off the markers on the two sides of a gap is read off the whole. -/
theorem filterMap_segments_gap {α : Type} {f : Segment → Option α} (hf : ∀ t, f (.plain t) = none) {gap : String}
    (hgap : Marker.Gap gap) (a b : String) :
    (segments (a ++ gap ++ b)).filterMap f = (segments a).filterMap f ++ (segments b).filterMap f := by
  obtain ⟨c, hchars, hc⟩ := hgap
  unfold segments
  rw [String.toList_append, String.toList_append, hchars, List.append_assoc, List.singleton_append]
  exact Segment.filterMap_scan_gap hf hc [] a.toList b.toList

/-- The markers on the two sides of a gap are those of the whole. -/
theorem markerIds_gap {gap : String} (hgap : Marker.Gap gap) (a b : String) :
    markerIds (a ++ gap ++ b) = markerIds a ++ markerIds b := filterMap_segments_gap (fun _ => rfl) hgap a b

theorem mem_markerIds_gap {id : Nat} {gap : String} (hgap : Marker.Gap gap) (a b : String) :
    id ∈ markerIds (a ++ gap ++ b) ↔ id ∈ markerIds a ∨ id ∈ markerIds b := by
  rw [markerIds_gap hgap, List.mem_append]

end Pipewright
