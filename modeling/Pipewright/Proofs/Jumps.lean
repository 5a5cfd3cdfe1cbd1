import Pipewright.Proofs.Segments

/-!
# Scanning by jumps

The pieces of a text can be taken one at a time. A search jumps to the next
opening, passes over it as a whole if no marker starts there, and otherwise stops:
the run in front of the marker is one piece, the marker the next. It skips no
place where a marker could start, so the pieces are those of the scan that tries
every character (`pieces_eq`).
-/

namespace Pipewright

namespace Segment

def nextOpening : List Char → Option (List Char × List Char)
  | [] => none
  | c :: cs =>
    match after? Marker.opening (c :: cs) with
    | some rest => some ([], rest)
    | none => (nextOpening cs).map fun (front, rest) => (c :: front, rest)

theorem eq_of_nextOpening {cs front rest : List Char} (h : nextOpening cs = some (front, rest)) :
    cs = front ++ Marker.opening ++ rest := by
  induction cs generalizing front with
  | nil => cases h
  | cons c cs ih =>
    unfold nextOpening at h
    split at h
    · rename_i tail hafter
      cases h
      exact after?_eq_some_iff.mp hafter
    · obtain ⟨⟨front', rest'⟩, hnext, heq⟩ := Option.map_eq_some_iff.mp h
      cases heq
      rw [ih hnext]
      rfl

theorem length_lt_of_nextOpening {cs front rest : List Char} (h : nextOpening cs = some (front, rest)) :
    rest.length < cs.length := by
  have := congrArg List.length (eq_of_nextOpening h)
  simp [Marker.opening] at this
  omega

/-- The first piece of a text and the rest of it. The search has passed over `passed`, the last character
first. -/
def next (passed cs : List Char) : Segment × List Char :=
  match h : nextOpening cs with
  | none => (plain (String.ofList (passed.reverse ++ cs)), [])
  | some (front, rest) =>
    have := length_lt_of_nextOpening h
    match Marker.at? (Marker.opening ++ rest) with
    | none => next (Marker.opening.reverse ++ front.reverse ++ passed) rest
    | some (id, digits, after) =>
      if passed.isEmpty && front.isEmpty then
        (marker id (String.ofList (Marker.opening ++ digits ++ Marker.closing)), after)
      else (plain (String.ofList (passed.reverse ++ front)), Marker.opening ++ rest)
termination_by cs.length

/-! ## What the search skips -/

theorem scan_opening {rest : List Char} (h : Marker.at? (Marker.opening ++ rest) = none) (run : List Char) :
    scan run (Marker.opening ++ rest) = scan (Marker.opening.reverse ++ run) rest := by
  have hat : ∀ cs, Marker.at? ('@' :: cs) = none := Marker.at?_eq_none_of_ne (by decide)
  have hv : ∀ cs, Marker.at? ('v' :: cs) = none := Marker.at?_eq_none_of_ne (by decide)
  have hg : ∀ cs, Marker.at? ('g' :: cs) = none := Marker.at?_eq_none_of_ne (by decide)
  have hhash : ∀ cs, Marker.at? ('#' :: cs) = none := Marker.at?_eq_none_of_ne (by decide)
  have hopening : Marker.opening = ['<', '@', 'v', 'g', '#'] := by decide
  rw [hopening] at h ⊢
  simp only [List.cons_append, List.nil_append] at h ⊢
  rw [scan_plain h, scan_plain (hat _), scan_plain (hv _), scan_plain (hg _), scan_plain (hhash _)]
  rfl

theorem scan_skip {cs front rest : List Char} (h : nextOpening cs = some (front, rest)) (run : List Char) :
    scan run cs = scan (front.reverse ++ run) (Marker.opening ++ rest) := by
  induction cs generalizing front run with
  | nil => cases h
  | cons c cs ih =>
    unfold nextOpening at h
    split at h
    · rename_i tail hafter
      cases h
      rw [after?_eq_some_iff.mp hafter]
      rfl
    · rename_i hafter
      obtain ⟨⟨front', rest'⟩, hnext, heq⟩ := Option.map_eq_some_iff.mp h
      cases heq
      have hnone : Marker.at? (c :: cs) = none := by simp [Marker.at?, hafter]
      rw [scan_plain hnone, ih hnext]
      simp

theorem scan_bare {cs : List Char} (h : nextOpening cs = none) (run : List Char) :
    scan run cs = ofRun (cs.reverse ++ run) := by
  induction cs generalizing run with
  | nil => rw [scan_nil]; rfl
  | cons c cs ih =>
    unfold nextOpening at h
    split at h
    · cases h
    · rename_i hafter
      have hnone : Marker.at? (c :: cs) = none := by simp [Marker.at?, hafter]
      rw [scan_plain hnone, ih (Option.map_eq_none_iff.mp h)]
      simp

/-! ## Piece by piece -/

theorem ofRun_of_ne_nil {run : List Char} (h : run ≠ []) : ofRun run = [plain (String.ofList run.reverse)] := by
  simp [ofRun, h]

theorem scan_eq_next {passed cs : List Char} (hne : passed ≠ [] ∨ cs ≠ []) :
    scan passed cs = (next passed cs).1 :: scan [] (next passed cs).2 := by
  fun_induction next passed cs with
  | case1 passed cs h =>
    have hrun : cs.reverse ++ passed ≠ [] := by
      intro hnil
      obtain ⟨hcs, hpassed⟩ := List.append_eq_nil_iff.mp hnil
      exact hne.elim (· hpassed) (· (List.reverse_eq_nil_iff.mp hcs))
    rw [scan_bare h, ofRun_of_ne_nil hrun]
    simp [scan_nil, ofRun]
  | case2 passed cs front rest h hlt hat ih =>
    rw [scan_skip h, scan_opening hat, ← List.append_assoc]
    exact ih (.inl (by simp [Marker.opening]))
  | case3 passed cs front rest h hlt id digits after hat hempty =>
    simp only [Bool.and_eq_true, List.isEmpty_iff] at hempty
    obtain ⟨rfl, rfl⟩ := hempty
    rw [scan_skip h, scan_marker hat]
    rfl
  | case4 passed cs front rest h hlt id digits after hat hempty =>
    have hrun : front.reverse ++ passed ≠ [] := by
      intro hnil
      obtain ⟨hfront, rfl⟩ := List.append_eq_nil_iff.mp hnil
      exact hempty (by rw [List.reverse_eq_nil_iff.mp hfront]; rfl)
    rw [scan_skip h, scan_marker hat, scan_marker hat, ofRun_of_ne_nil hrun]
    simp [ofRun]

theorem length_next_lt {passed cs : List Char} (hne : passed ≠ [] ∨ cs ≠ []) :
    (next passed cs).2.length < passed.length + cs.length := by
  fun_induction next passed cs with
  | case1 passed cs h =>
    rcases hne with hne | hne
    · exact Nat.add_pos_left (List.length_pos_iff.mpr hne) _
    · exact Nat.add_pos_right _ (List.length_pos_iff.mpr hne)
  | case2 passed cs front rest h hlt hat ih =>
    have hlength := ih (.inl (by simp [Marker.opening]))
    rw [eq_of_nextOpening h]
    simp only [List.length_append, List.length_reverse] at hlength ⊢
    omega
  | case3 passed cs front rest h hlt id digits after hat hempty =>
    have hlength := Marker.length_lt_of_at? hat
    rw [eq_of_nextOpening h]
    simp only [List.length_append] at hlength ⊢
    omega
  | case4 passed cs front rest h hlt id digits after hat hempty =>
    have hrun : passed.length + front.length ≠ 0 := by
      intro hzero
      obtain ⟨hpassed, hfront⟩ := Nat.add_eq_zero_iff.mp hzero
      exact hempty (by rw [List.length_eq_zero_iff.mp hpassed, List.length_eq_zero_iff.mp hfront]; rfl)
    rw [eq_of_nextOpening h]
    simp only [List.length_append]
    omega

def pieces (cs : List Char) : List Segment :=
  if h : cs = [] then []
  else
    have : (next [] cs).2.length < ([] : List Char).length + cs.length := length_next_lt (.inr h)
    (next [] cs).1 :: pieces (next [] cs).2
termination_by cs.length
decreasing_by simpa using this

theorem pieces_eq (cs : List Char) : pieces cs = scan [] cs := by
  fun_induction pieces cs with
  | case1 => rw [scan_nil]; rfl
  | case2 cs h hlt ih => rw [scan_eq_next (.inr h), ih]

end Segment

end Pipewright
