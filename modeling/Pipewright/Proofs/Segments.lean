import Pipewright.Marker

/-!
# Texts and their markers

`Tidy text` says that every `<` of a text starts a marker, so nothing that is
put next to the text can grow into a marker with a part of it. The ids of tidy
texts therefore add up when the texts are joined (`Tidy.append`), which is what
lets a substituted text be scanned again.
-/

namespace Pipewright

namespace Marker

theorem at?_eq_some_iff {cs digits rest : List Char} {id : Nat} :
    at? cs = some (id, digits, rest) ↔
      cs = opening ++ digits ++ closing ++ rest ∧ digits ≠ [] ∧ (∀ d ∈ digits, d.isDigit = true) ∧
        digitsValue digits = id ∧ id < idBound := by
  constructor
  · intro h
    refine ⟨eq_append_of_at? h, ?_⟩
    unfold at? at h
    cases ho : after? opening cs with
    | none => simp [ho] at h
    | some body =>
      cases hc : after? closing (body.dropWhile Char.isDigit) with
      | none => simp [ho, hc] at h
      | some tail =>
        simp only [ho, hc] at h
        split at h
        · cases h
        · rename_i hd
          simp only [Bool.or_eq_true, List.isEmpty_iff, decide_eq_true_eq, not_or, Nat.not_le] at hd
          obtain ⟨rfl, rfl, rfl⟩ := by simpa using h
          exact ⟨hd.1, List.all_eq_true.mp List.all_takeWhile, rfl, hd.2⟩
  · rintro ⟨rfl, hne, hd, rfl, hlt⟩
    have hstop : (closing ++ rest).takeWhile Char.isDigit = [] ∧
        (closing ++ rest).dropWhile Char.isDigit = closing ++ rest := ⟨rfl, rfl⟩
    have ho : after? opening (opening ++ digits ++ closing ++ rest) = some (digits ++ (closing ++ rest)) :=
      after?_eq_some_iff.mpr (by simp only [List.append_assoc])
    have hc : after? closing (closing ++ rest) = some rest := after?_eq_some_iff.mpr rfl
    unfold at?
    simp only [ho, List.takeWhile_append_of_pos hd, List.dropWhile_append_of_pos hd, hstop, List.append_nil, hc]
    simp [hne, hlt]

theorem at?_append {cs digits rest : List Char} {id : Nat} (h : at? cs = some (id, digits, rest)) (more : List Char) :
    at? (cs ++ more) = some (id, digits, rest ++ more) := by
  obtain ⟨rfl, hd⟩ := at?_eq_some_iff.mp h
  exact at?_eq_some_iff.mpr ⟨by simp only [List.append_assoc], hd⟩

theorem at?_eq_none_of_ne {c : Char} (hc : c ≠ '<') (cs : List Char) : at? (c :: cs) = none := by
  have : after? opening (c :: cs) = none := by simp [opening, after?, Ne.symm hc]
  simp [at?, this]

theorem toList_toString (id : Nat) : (toString id).toList = Nat.toDigits 10 id := by
  rw [Nat.toString_eq_ofList_toDigits, String.toList_ofList]

theorem isDigit_of_mem {id : Nat} {d : Char} (h : d ∈ (toString id).toList) : d.isDigit = true := by
  rw [toList_toString] at h
  exact Nat.isDigit_of_mem_toDigits (by decide) (by decide) h

theorem at?_text {id : Nat} (h : id < idBound) (rest : List Char) :
    at? ((text id).toList ++ rest) = some (id, (toString id).toList, rest) := by
  rw [at?_eq_some_iff, text, String.toList_ofList]
  refine ⟨rfl, ?_, fun d hd => isDigit_of_mem hd, ?_, h⟩
  · rw [toList_toString]; exact Nat.toDigits_ne_nil
  · rw [toList_toString]; exact Nat.ofDigitChars_ten_toDigits

end Marker

namespace Segment

def text : Segment → String
  | plain t => t
  | marker _ raw => raw

def run : Segment → List Char
  | plain t => t.toList
  | marker _ _ => []

/-! ## The scan -/

theorem scan_nil (run : List Char) : scan run [] = ofRun run := by rw [scan]

theorem scan_plain {c : Char} {cs : List Char} (h : Marker.at? (c :: cs) = none) (run : List Char) :
    scan run (c :: cs) = scan (c :: run) cs := by
  rw [scan]; split
  · rfl
  · rename_i h'; rw [h] at h'; cases h'

theorem scan_marker {cs digits rest : List Char} {id : Nat} (h : Marker.at? cs = some (id, digits, rest))
    (run : List Char) :
    scan run cs =
      ofRun run ++ marker id (String.ofList (Marker.opening ++ digits ++ Marker.closing)) :: scan [] rest := by
  cases cs with
  | nil => simp [Marker.at?, Marker.opening, after?] at h
  | cons c cs =>
    rw [scan]; split
    · rename_i h'; rw [h] at h'; cases h'
    · rename_i h'; rw [h] at h'; cases h'; rfl

theorem flatMap_text_ofRun (run : List Char) : (ofRun run).flatMap (·.text.toList) = run.reverse := by
  unfold ofRun
  cases run <;> simp [text]

theorem filterMap_ofRun {α : Type} {f : Segment → Option α} (hf : ∀ t, f (plain t) = none) (run : List Char) :
    (ofRun run).filterMap f = [] := by
  unfold ofRun
  cases run <;> simp [hf]

theorem filterMap_id?_ofRun (run : List Char) : (ofRun run).filterMap id? = [] := filterMap_ofRun (fun _ => rfl) run

theorem run_of_mem_ofRun {run : List Char} {s : Segment} (hs : s ∈ ofRun run) : s.run = run.reverse := by
  unfold ofRun at hs
  split at hs
  · cases hs
  · rw [List.mem_singleton.mp hs]; simp [Segment.run]

theorem mem_run_scan {c : Char} (run cs : List Char) (hc : c ∈ run) : ∃ s ∈ scan run cs, c ∈ s.run := by
  have hopen : ∃ s ∈ ofRun run, c ∈ s.run := by
    have hne : run ≠ [] := List.ne_nil_of_mem hc
    refine ⟨plain (String.ofList run.reverse), by simp [ofRun, hne], ?_⟩
    simpa [Segment.run] using hc
  match cs with
  | [] => rw [scan_nil]; exact hopen
  | d :: cs =>
    cases h : Marker.at? (d :: cs) with
    | none => rw [scan_plain h]; exact mem_run_scan (d :: run) cs (List.mem_cons_of_mem _ hc)
    | some found =>
      obtain ⟨s, hs, hcs⟩ := hopen
      rw [scan_marker h]
      exact ⟨s, List.mem_append_left _ hs, hcs⟩
termination_by cs.length

theorem flatMap_text_scan (run cs : List Char) : (scan run cs).flatMap (·.text.toList) = run.reverse ++ cs := by
  match cs with
  | [] => rw [scan_nil, flatMap_text_ofRun, List.append_nil]
  | c :: cs =>
    cases h : Marker.at? (c :: cs) with
    | none => rw [scan_plain h, flatMap_text_scan (c :: run) cs]; simp
    | some found =>
      obtain ⟨id, digits, rest⟩ := found
      have := Marker.length_lt_of_at? h
      rw [scan_marker h, List.flatMap_append, flatMap_text_ofRun, List.flatMap_cons, flatMap_text_scan [] rest,
        Marker.eq_append_of_at? h]
      simp [text]
termination_by cs.length
decreasing_by
  · exact Nat.lt_succ_self cs.length
  · exact this

theorem at?_of_mem_scan {id : Nat} {raw : String} (run cs : List Char) (h : marker id raw ∈ scan run cs) :
    ∃ digits, Marker.at? raw.toList = some (id, digits, []) := by
  have hrun : ∀ run, marker id raw ∉ ofRun run := fun run hm => by
    unfold ofRun at hm
    split at hm <;> simp at hm
  match cs with
  | [] => rw [scan_nil] at h; exact absurd h (hrun run)
  | c :: cs =>
    cases hm : Marker.at? (c :: cs) with
    | none => rw [scan_plain hm] at h; exact at?_of_mem_scan (c :: run) cs h
    | some found =>
      obtain ⟨id', digits, rest⟩ := found
      have := Marker.length_lt_of_at? hm
      rw [scan_marker hm] at h
      rcases List.mem_cons.mp ((List.mem_append.mp h).resolve_left (hrun run)) with h | h
      · cases h
        obtain ⟨-, hd⟩ := Marker.at?_eq_some_iff.mp hm
        exact ⟨digits, Marker.at?_eq_some_iff.mpr ⟨by simp, hd⟩⟩
      · exact at?_of_mem_scan [] rest h
termination_by cs.length
decreasing_by
  · exact Nat.lt_succ_self cs.length
  · exact this

end Segment

theorem flatMap_text_segments (text : String) : (segments text).flatMap (·.text.toList) = text.toList :=
  Segment.flatMap_text_scan [] text.toList

theorem join_segments (text : String) : String.join ((segments text).map Segment.text) = text := by
  apply String.toList_injective
  rw [String.toList_join, List.flatMap_map, flatMap_text_segments]

/-! ## Tidy texts -/

/-- Every `<` of a text starts one of its markers. -/
def Tidy (text : String) : Prop := ∀ s ∈ segments text, '<' ∉ s.run

instance (text : String) : Decidable (Tidy text) := inferInstanceAs (Decidable (∀ s ∈ segments text, '<' ∉ s.run))

inductive Reads : List Char → List Nat → Prop
  | nil : Reads [] []
  | plain {c cs ids} : c ≠ '<' → Reads cs ids → Reads (c :: cs) ids
  | marker {cs id digits rest ids} : Marker.at? cs = some (id, digits, rest) → Reads rest ids → Reads cs (id :: ids)

namespace Reads

theorem append {cs ds : List Char} {is js : List Nat} (h : Reads cs is) (h' : Reads ds js) :
    Reads (cs ++ ds) (is ++ js) := by
  induction h with
  | nil => exact h'
  | plain hc _ ih => exact .plain hc ih
  | marker hm _ ih => exact .marker (Marker.at?_append hm _) ih

theorem of_not_mem {cs : List Char} (h : '<' ∉ cs) : Reads cs [] := by
  induction cs with
  | nil => exact .nil
  | cons c cs ih =>
    rw [List.mem_cons, not_or] at h
    exact .plain (Ne.symm h.1) (ih h.2)

theorem scan {cs : List Char} {ids : List Nat} (h : Reads cs ids) : ∀ run : List Char, '<' ∉ run →
    (∀ s ∈ Segment.scan run cs, '<' ∉ s.run) ∧ (Segment.scan run cs).filterMap Segment.id? = ids := by
  induction h with
  | nil =>
    intro run hrun
    rw [Segment.scan_nil]
    refine ⟨fun s hs => ?_, Segment.filterMap_id?_ofRun run⟩
    rw [Segment.run_of_mem_ofRun hs]; simpa using hrun
  | plain hc _ ih =>
    intro run hrun
    rw [Segment.scan_plain (Marker.at?_eq_none_of_ne hc _)]
    exact ih _ (by simp [hrun, Ne.symm hc])
  | marker hm _ ih =>
    intro run hrun
    obtain ⟨hplain, hids⟩ := ih [] (by simp)
    rw [Segment.scan_marker hm]
    constructor
    · intro s hs
      rcases List.mem_append.mp hs with hs | hs
      · rw [Segment.run_of_mem_ofRun hs]; simpa using hrun
      · rcases List.mem_cons.mp hs with rfl | hs
        · simp [Segment.run]
        · exact hplain s hs
    · rw [List.filterMap_append, Segment.filterMap_id?_ofRun, List.nil_append, List.filterMap_cons, hids]
      rfl

theorem of_scan (run cs : List Char) (h : ∀ s ∈ Segment.scan run cs, '<' ∉ s.run) :
    Reads cs ((Segment.scan run cs).filterMap Segment.id?) := by
  match cs with
  | [] =>
    rw [Segment.scan_nil, Segment.filterMap_id?_ofRun]
    exact .nil
  | c :: cs =>
    cases hm : Marker.at? (c :: cs) with
    | none =>
      rw [Segment.scan_plain hm] at h ⊢
      obtain ⟨s, hs, hc⟩ := Segment.mem_run_scan (c :: run) cs (List.mem_cons_self ..)
      exact .plain (fun e => h s hs (e ▸ hc)) (of_scan (c :: run) cs h)
    | some found =>
      obtain ⟨id, digits, rest⟩ := found
      have := Marker.length_lt_of_at? hm
      rw [Segment.scan_marker hm] at h ⊢
      rw [List.filterMap_append, Segment.filterMap_id?_ofRun, List.nil_append, List.filterMap_cons]
      exact .marker hm (of_scan [] rest fun s hs => h s (by simp [hs]))
termination_by cs.length
decreasing_by
  · exact Nat.lt_succ_self cs.length
  · exact this

end Reads

theorem Reads.markerIds_eq {text : String} {ids : List Nat} (h : Reads text.toList ids) :
    Tidy text ∧ markerIds text = ids :=
  h.scan [] (by simp)

theorem Tidy.reads {text : String} (h : Tidy text) : Reads text.toList (markerIds text) :=
  Reads.of_scan [] text.toList h

theorem tidy_append {a b : String} (ha : Tidy a) (hb : Tidy b) :
    Tidy (a ++ b) ∧ markerIds (a ++ b) = markerIds a ++ markerIds b := by
  apply Reads.markerIds_eq
  rw [String.toList_append]
  exact ha.reads.append hb.reads

theorem tidy_join {pieces : List String} (h : ∀ t ∈ pieces, Tidy t) :
    Tidy (String.join pieces) ∧ markerIds (String.join pieces) = pieces.flatMap markerIds := by
  induction pieces with
  | nil => exact Reads.markerIds_eq .nil
  | cons t pieces ih =>
    obtain ⟨htidy, hids⟩ := ih fun u hu => h u (List.mem_cons_of_mem _ hu)
    rw [String.join_cons, List.flatMap_cons, ← hids]
    exact tidy_append (h t (List.mem_cons_self ..)) htidy

/-- A piece of a tidy text is tidy, and its ids are its own. -/
theorem Tidy.segment {text : String} (h : Tidy text) {s : Segment} (hs : s ∈ segments text) :
    Tidy s.text ∧ markerIds s.text = s.id?.toList := by
  cases s with
  | plain t => exact Reads.markerIds_eq (Reads.of_not_mem (h _ hs))
  | marker id raw =>
    obtain ⟨digits, hm⟩ := Segment.at?_of_mem_scan [] text.toList hs
    exact Reads.markerIds_eq (.marker hm .nil)

/-! ## Texts with their markers replaced -/

def Segment.replace (f : Nat → Option String) : Segment → String
  | plain t => t
  | marker id raw => (f id).getD raw

def replaceMarkers (f : Nat → Option String) (text : String) : String :=
  String.join ((segments text).map (Segment.replace f))

section
variable (f : Nat → Option String)

theorem Segment.flatMap_replace_ofRun (run : List Char) :
    (ofRun run).flatMap (fun s => (s.replace f).toList) = run.reverse := by
  unfold ofRun
  cases run <;> simp [replace]

theorem Segment.flatMap_replace_scan (run cs : List Char) :
    (scan run cs).flatMap (fun s => (s.replace f).toList) =
      run.reverse ++ (scan [] cs).flatMap (fun s => (s.replace f).toList) := by
  match cs with
  | [] => rw [scan_nil, scan_nil, flatMap_replace_ofRun, flatMap_replace_ofRun]; simp
  | c :: cs =>
    cases h : Marker.at? (c :: cs) with
    | none =>
      rw [scan_plain h, scan_plain h, flatMap_replace_scan (c :: run) cs, flatMap_replace_scan [c] cs]
      simp
    | some found =>
      rw [scan_marker h, scan_marker h, List.flatMap_append, List.flatMap_append, flatMap_replace_ofRun,
        flatMap_replace_ofRun]
      rfl
termination_by cs.length

theorem Reads.flatMap_replace_append {cs : List Char} {ids : List Nat} (h : Reads cs ids) (ds : List Char) :
    (Segment.scan [] (cs ++ ds)).flatMap (fun s => (s.replace f).toList) =
      (Segment.scan [] cs).flatMap (fun s => (s.replace f).toList) ++
        (Segment.scan [] ds).flatMap (fun s => (s.replace f).toList) := by
  induction h with
  | nil => rw [Segment.scan_nil]; rfl
  | @plain c cs _ hc _ ih =>
    have hnone := Marker.at?_eq_none_of_ne hc
    rw [List.cons_append, Segment.scan_plain (hnone _), Segment.scan_plain (hnone _),
      Segment.flatMap_replace_scan f [c], Segment.flatMap_replace_scan f [c] cs, ih, List.append_assoc]
  | marker hm _ ih =>
    rw [Segment.scan_marker (Marker.at?_append hm ds), Segment.scan_marker hm, List.flatMap_append,
      List.flatMap_append, List.flatMap_cons, List.flatMap_cons, ih]
    simp only [List.append_assoc]

theorem Tidy.replaceMarkers_append {a : String} (ha : Tidy a) (b : String) :
    replaceMarkers f (a ++ b) = replaceMarkers f a ++ replaceMarkers f b := by
  have hlist : ∀ text, (replaceMarkers f text).toList =
      (Segment.scan [] text.toList).flatMap fun s => (s.replace f).toList := fun text => by
    rw [replaceMarkers, String.toList_join, List.flatMap_map]; rfl
  apply String.toList_injective
  rw [String.toList_append, hlist, hlist, hlist, String.toList_append]
  exact ha.reads.flatMap_replace_append f b.toList

theorem replaceMarkers_congr {g : Nat → Option String} {text : String} (h : ∀ k ∈ markerIds text, f k = g k) :
    replaceMarkers f text = replaceMarkers g text := by
  refine congrArg String.join (List.map_congr_left fun s hs => ?_)
  cases s with
  | plain t => rfl
  | marker id raw => rw [Segment.replace, Segment.replace, h id (List.mem_filterMap.mpr ⟨_, hs, rfl⟩)]

theorem replaceMarkers_none (text : String) : replaceMarkers (fun _ => none) text = text := by
  refine Eq.trans (congrArg String.join (List.map_congr_left fun s _ => ?_)) (join_segments text)
  cases s <;> rfl

end

end Pipewright
