import Pipewright.Proofs.LeftMarkers
import Pipewright.Proofs.Outputs
import Pipewright.Proofs.Quotation

/-!
# Markers in literals

A marker holds no character that is escaped in a literal, and quotes stand in no
marker. So a literal has the markers of its text, no more and no fewer
(`markerIds_quote`). A text without markers keeps its literal whatever is resolved
around it, and nothing around it can tell which text it is; a text with a marker
loses its literal to the placeholder of that id (`Language.string_kept_iff`).
-/

namespace Pipewright

/-! ## The markers of a literal -/

theorem markerIds_foreign {c : Char} (hc : Marker.Foreign c) (front behind : List Char) :
    markerIds (String.ofList (front ++ c :: behind)) =
      markerIds (String.ofList front) ++ markerIds (String.ofList behind) := by
  simp only [markerIds, segments, String.toList_ofList]
  exact Segment.filterMap_scan_gap (fun _ => rfl) hc [] front behind

theorem markerIds_foreign_cons {c : Char} (hc : Marker.Foreign c) (behind : List Char) :
    markerIds (String.ofList (c :: behind)) = markerIds (String.ofList behind) := by
  have hfront : markerIds (String.ofList []) = [] := markerIds_empty
  rw [← List.nil_append (c :: behind), markerIds_foreign hc, hfront, List.nil_append]

/-- Neither a character that is escaped nor its escape has a part in a marker. -/
theorem markerIds_escape {c d : Char} (hc : Marker.Foreign c) (hd : Marker.Foreign d) {cs : List Char}
    (ih : ∀ front, markerIds (String.ofList (front ++ escaped cs)) = markerIds (String.ofList (front ++ cs)))
    (front : List Char) : markerIds (String.ofList (front ++ '\\' :: d :: escaped cs)) =
      markerIds (String.ofList (front ++ c :: cs)) := by
  have hcs : markerIds (String.ofList (escaped cs)) = markerIds (String.ofList cs) := ih []
  rw [markerIds_foreign (by decide), markerIds_foreign_cons hd, markerIds_foreign hc, hcs]

theorem markerIds_escaped (cs : List Char) : ∀ front : List Char,
    markerIds (String.ofList (front ++ escaped cs)) = markerIds (String.ofList (front ++ cs)) := by
  fun_induction escaped cs with
  | case1 => exact fun front => rfl
  | case2 cs ih | case3 cs ih | case4 cs ih => exact markerIds_escape (by decide) (by decide) ih
  | case5 c cs _ _ _ ih =>
    -- a marker may reach over `c`, which therefore stays in front
    intro front
    have hfront := ih (front ++ [c])
    rwa [List.append_assoc, List.append_assoc, List.singleton_append, List.singleton_append] at hfront

theorem foreign_quote : Marker.Foreign '"' := by decide

theorem markerIds_body (text : String) : markerIds (String.ofList (escaped text.toList)) = markerIds text := by
  have hbody := markerIds_escaped text.toList []
  rwa [List.nil_append, List.nil_append, String.ofList_toList] at hbody

theorem markerIds_quote (text : String) : markerIds (quote text) = markerIds text := by
  have hend : markerIds (String.ofList []) = [] := markerIds_empty
  rw [← String.ofList_toList (s := quote text), toList_quote, markerIds_foreign_cons foreign_quote,
    markerIds_foreign foreign_quote, hend, List.append_nil, markerIds_body]

theorem exists_in_iff {text : String} : (∃ m : Occurrence, m.In text) ↔ markerIds text ≠ [] :=
  (Marker.listed_markerIds text).ne_nil_iff.symm

theorem not_in_iff {text : String} : (∀ m : Occurrence, ¬m.In text) ↔ markerIds text = [] := by
  rw [← not_exists, exists_in_iff, not_not]

/-! ## Around a plain part -/

variable {σ : Type}

namespace Registry

variable (reg : Registry σ) (tier : Tier)

/-- What becomes of the texts around a plain part is the same for all of these. -/
theorem sweepParts_plain (front behind : String) (p : Progress σ) : ∃ front' behind' changed q,
    ∀ part, markerIds part = [] →
      reg.sweepParts tier [front, part, behind] p = ([front', part, behind'], changed, q) := by
  let first := reg.sweep tier front p
  let last := reg.sweep tier behind first.progress
  refine ⟨first.text, last.text, first.changed || last.changed, last.progress, fun part hpart => ?_⟩
  have hmiddle := reg.sweep_plain tier hpart first.progress
  simp only [sweepParts, first, last, hmiddle.text, hmiddle.changed, hmiddle.progress, Bool.false_or, Bool.or_false]

theorem sweepsParts_plain (count : Nat) : ∀ (front behind : String) (p : Progress σ), ∃ front' behind' q,
    ∀ part, markerIds part = [] →
      reg.sweepsParts tier count [front, part, behind] p = ([front', part, behind'], q) := by
  induction count with
  | zero => exact fun front behind p => ⟨front, behind, p, fun _ _ => rfl⟩
  | succ count ih =>
    intro front behind p
    obtain ⟨front', behind', changed, q, hsweep⟩ := reg.sweepParts_plain tier front behind p
    cases changed with
    | false =>
      refine ⟨front', behind', q, fun part hpart => ?_⟩
      rw [sweepsParts, hsweep part hpart]
      rfl
    | true =>
      obtain ⟨front'', behind'', r, hrest⟩ := ih front' behind' q
      refine ⟨front'', behind'', r, fun part hpart => ?_⟩
      rw [sweepsParts, hsweep part hpart]
      exact hrest part hpart

theorem resolveParts_plain (front behind : String) (imports : ImportScope) (outside : σ) : ∃ front' behind' q,
    ∀ part, markerIds part = [] →
      reg.resolveParts [front, part, behind] imports outside = ([front', part, behind'], q) := by
  obtain ⟨front', behind', q, hnormal⟩ := reg.sweepsParts_plain .normal maxSweeps front behind { imports, outside }
  obtain ⟨front'', behind'', r, hlast⟩ := reg.sweepsParts_plain .last maxSweeps front' behind' q
  refine ⟨front'', behind'', r, fun part hpart => ?_⟩
  unfold resolveParts
  rw [hnormal part hpart]
  exact hlast part hpart

/-- Nothing that is resolved around a literal without markers changes it or depends on it. -/
theorem resolveText_quote (front behind : String) (imports : ImportScope) (outside : σ) : ∃ front' behind' q,
    ∀ text, markerIds text = [] → reg.resolveText (front ++ quote text ++ behind) imports outside =
      ⟨front' ++ quote text ++ behind', q⟩ := by
  have hgap : Marker.Gap "\"" := ⟨'"', rfl, foreign_quote⟩
  have hthree : ∀ front text behind, front ++ quote text ++ behind =
      "\"".intercalate [front, String.ofList (escaped text.toList), behind] := by
    intro front text behind
    apply String.toList_injective
    simp [String.toList_append, toList_quote]
  obtain ⟨front', behind', q, hparts⟩ := reg.resolveParts_plain front behind imports outside
  refine ⟨front', behind', q, fun text htext => ?_⟩
  have hbody := (markerIds_body text).trans htext
  rw [hthree, resolveText_intercalate _ hgap, hparts _ hbody, hthree]

end Registry

/-! ## A registry that blanks every marker -/

theorem markerIds_join_replace {gap : String} (hgap : Marker.Gap gap) : ∀ pieces : List Segment,
    (pieces.IsChain fun s t => s.id?.isSome ∨ t.id?.isSome) → (∀ t, Segment.plain t ∈ pieces → markerIds t = []) →
    markerIds (String.join (pieces.map (Segment.replace fun _ => some gap))) = []
  | [], _, _ => markerIds_empty
  | .marker id raw :: rest, hapart, hbare => by
    have hrest := markerIds_join_replace hgap rest hapart.tail fun t ht => hbare t (List.mem_cons_of_mem _ ht)
    rw [List.map_cons, String.join_cons, ← String.empty_append (s := Segment.replace _ _)]
    change markerIds ("" ++ gap ++ _) = []
    rw [markerIds_gap hgap, markerIds_empty, hrest, List.append_nil]
  | [.plain t], _, hbare => by
    rw [List.map_singleton, String.join_cons, String.join_nil, String.append_empty]
    exact hbare t (List.mem_cons_self ..)
  | .plain t :: .plain u :: rest, hapart, _ => by
    rcases hapart.rel with h | h <;> cases h
  | .plain t :: .marker id raw :: rest, hapart, hbare => by
    have hrest := markerIds_join_replace hgap rest hapart.tail.tail fun t ht =>
      hbare t (List.mem_cons_of_mem _ (List.mem_cons_of_mem _ ht))
    rw [List.map_cons, List.map_cons, String.join_cons, String.join_cons, ← String.append_assoc]
    change markerIds (t ++ gap ++ _) = []
    rw [markerIds_gap hgap, hbare t (List.mem_cons_self ..), hrest, List.append_nil]

theorem markerIds_replaceMarkers {gap : String} (hgap : Marker.Gap gap) (text : String) :
    markerIds (replaceMarkers (fun _ => some gap) text) = [] := by
  have hcut := (segments_cut text).1
  exact markerIds_join_replace hgap _ hcut.apart fun t ht => not_in_iff.mp (hcut.bare t ht)

def Registry.blanks (n : Nat) : Registry Unit := ⟨Array.replicate n ⟨.normal, .give (some (.text " "))⟩⟩

theorem Registry.finds_blanks {n id : Nat} (hid : id < n) (hbound : id < Marker.idBound) :
    (blanks n).Finds (fun _ => True) id (.text " ") where
  normal := by simp [tier?, entry?, blanks, hid]
  bound := hbound
  answer p _ := by
    refine ⟨p, ?_, rfl, trivial⟩
    rw [resolve]
    simp [blanks, size, hid, Recipe.run]

theorem lt_idBound_of_mem_markerIds {id : Nat} {text : String} (h : id ∈ markerIds text) : id < Marker.idBound := by
  obtain ⟨_, ⟨_, -, -, -, -, hbound⟩, -⟩ := mem_markerIds_iff.mp h
  exact hbound

theorem Registry.markerIds_resolveText_blanks {n : Nat} {text : String} (h : ∀ id ∈ markerIds text, id < n) :
    markerIds ((blanks n).resolveText text .empty ()).text = [] := by
  have hblank : markerIds " " = [] := markerIds_of_isBlankText (by decide)
  have hplain := markerIds_replaceMarkers Marker.gap_blank text
  have hfinds : ∀ id ∈ markerIds text, (blanks n).Finds (fun _ => True) id (.text " ") ∧
      markerIds (Resolved.text " ").toText = [] := fun id hid =>
    ⟨finds_blanks (h id hid) (lt_idBound_of_mem_markerIds hid), hblank⟩
  rw [resolveText_of_finds hfinds hplain .empty trivial]
  exact hplain

/-! ## Literals that stay -/

/-- Wherever the text stands in a program, it stands there when the program is resolved. -/
def Kept (text : String) : Prop :=
  ∀ {σ : Type} (reg : Registry σ) (front behind : String) (imports : ImportScope) (outside : σ), ∃ front' behind',
    (reg.resolveText (front ++ text ++ behind) imports outside).text = front' ++ text ++ behind'

theorem Kept.markerIds_eq {text : String} (h : Kept text) : markerIds text = [] := by
  obtain ⟨front, behind, hkept⟩ := h (.blanks Marker.idBound) "" "" .empty ()
  rw [String.empty_append, String.append_empty] at hkept
  have hnone : markerIds ((Registry.blanks Marker.idBound).resolveText text .empty ()).text = [] :=
    Registry.markerIds_resolveText_blanks fun _ => lt_idBound_of_mem_markerIds
  rw [hkept] at hnone
  refine List.eq_nil_iff_forall_not_mem.mpr fun id hid => ?_
  have hleft := mem_markerIds_mono (infix_append front text behind) hid
  rw [hnone] at hleft
  cases hleft

theorem kept_quote_iff {text : String} : Kept (quote text) ↔ ∀ m : Occurrence, ¬m.In text := by
  rw [not_in_iff]
  constructor
  · exact fun h => markerIds_quote text ▸ h.markerIds_eq
  · intro h _ reg front behind imports outside
    obtain ⟨front', behind', q, hkept⟩ := reg.resolveText_quote front behind imports outside
    exact ⟨front', behind', by rw [hkept text h]⟩

theorem trim_quote (front text behind : String) : ∃ front' behind',
    trim (front ++ quote text ++ behind) = front' ++ quote text ++ behind' := by
  have hquote : isBlank '"' = false := by decide
  have hfront : (front ++ quote text ++ behind).toList.dropWhile isBlank =
      front.toList.dropWhile isBlank ++ (quote text).toList ++ behind.toList := by
    rw [String.toList_append, String.toList_append, List.append_assoc, List.append_assoc, List.dropWhile_append,
      toList_quote, List.cons_append, List.dropWhile_cons_of_neg (by simp [hquote])]
    split <;> simp_all
  have hlast : ∀ cs, ∃ tail, dropTail isBlank (cs ++ (quote text).toList ++ behind.toList) =
      cs ++ (quote text).toList ++ tail := by
    intro cs
    have hclosed : dropTail isBlank (cs ++ (quote text).toList) = cs ++ (quote text).toList := by
      rw [toList_quote, ← List.cons_append, ← List.append_assoc, dropTail_concat, hquote]
      rfl
    rw [dropTail_append, hclosed]
    split
    · exact ⟨[], (List.append_nil _).symm⟩
    · exact ⟨_, rfl⟩
  obtain ⟨tail, htail⟩ := hlast (front.toList.dropWhile isBlank)
  refine ⟨String.ofList (front.toList.dropWhile isBlank), String.ofList tail, ?_⟩
  apply String.toList_injective
  rw [trim, hfront, htail]
  simp

theorem Pass.finish_quote {p : Pass σ} {front text behind : String} (htext : markerIds text = [])
    (hprogram : (p.program.assemble p.language).result = .ok (front ++ quote text ++ behind)) :
    ∃ b front' behind', p.finish.1 = .ok b ∧ b.source = front' ++ quote text ++ behind' := by
  obtain ⟨before, after, _, hkept⟩ := p.work.registry.resolveText_quote front behind
    (p.work.imports.registerAll (p.program.assemble p.language).uses) p.surroundings
  obtain ⟨front', behind', htrim⟩ := trim_quote before text after
  simp only [finish, hprogram, hkept text htext]
  refine ⟨_, front', behind' ++ "\n", rfl, ?_⟩
  rw [htrim, String.append_assoc]

/-- A literal has the markers of its text. It stands wherever it is written, whatever the placeholders are, exactly if
its text has no marker; then neither it nor what is resolved around it depends on the other, and the source of a
finished pass has it. -/
theorem Language.string_kept_iff (l : Language) :
    (∀ text, (∃ ids, Marker.Listed ids text ∧ Marker.Listed ids (l.string text).text) ∧
      (Kept (l.string text).text ↔ ∀ m : Occurrence, ¬m.In text)) ∧
    (∀ {σ : Type} (reg : Registry σ) (front behind : String) (imports : ImportScope) (outside : σ),
      ∃ front' behind' q, ∀ text, (∀ m : Occurrence, ¬m.In text) →
        reg.resolveText (front ++ (l.string text).text ++ behind) imports outside =
          ⟨front' ++ (l.string text).text ++ behind', q⟩) ∧
    ∀ {σ : Type} (p : Pass σ) (front text behind : String), (∀ m : Occurrence, ¬m.In text) →
      (p.program.assemble p.language).result = .ok (front ++ (l.string text).text ++ behind) →
        ∃ b front' behind', p.finish.1 = .ok b ∧ b.source = front' ++ (l.string text).text ++ behind' := by
  refine ⟨fun text => ⟨⟨markerIds text, Marker.listed_markerIds text, ?_⟩, kept_quote_iff⟩, ?_, ?_⟩
  · exact markerIds_quote text ▸ Marker.listed_markerIds (quote text)
  · intro σ reg front behind imports outside
    obtain ⟨front', behind', q, hkept⟩ := reg.resolveText_quote front behind imports outside
    exact ⟨front', behind', q, fun text htext => hkept text (not_in_iff.mp htext)⟩
  · intro σ p front text behind htext hprogram
    exact Pass.finish_quote (not_in_iff.mp htext) hprogram

/-- The text of a placeholder gets into a literal that names it. -/
theorem string_kept_sample :
    let reg : Registry Unit := ⟨#[⟨.normal, .give (some (.text "leaked"))⟩]⟩
    let literal := fun text => (Language.java.string text).text
    (reg.resolveText ("use(" ++ literal "<@vg#0#@>" ++ ");") .empty ()).text = "use(\"leaked\");" ∧
      ¬Kept (literal "<@vg#0#@>") ∧ Kept (literal "<@vg#zero#@>") := by
  intro reg literal
  have hkept := fun text => ((Language.string_kept_iff .java).1 text).2.trans not_in_iff
  refine ⟨?_, ?_, ?_⟩
  · have hfinds : reg.Finds (fun _ => True) 0 (.text "leaked") :=
      ⟨rfl, by decide, fun p _ => ⟨p, by rw [Registry.resolve]; rfl, rfl, trivial⟩⟩
    have hids : markerIds ("use(" ++ literal "<@vg#0#@>" ++ ");") = [0] := by decide +kernel
    have hall : ∀ id ∈ markerIds ("use(" ++ literal "<@vg#0#@>" ++ ");"),
        reg.Finds (fun _ => True) id (.text "leaked") ∧ markerIds (Resolved.text "leaked").toText = [] := by
      intro id hid
      rw [hids] at hid
      obtain rfl := List.mem_singleton.mp hid
      exact ⟨hfinds, by decide +kernel⟩
    rw [Registry.resolveText_of_finds hall (by decide +kernel) .empty trivial]
    decide +kernel
  · rw [hkept]
    decide +kernel
  · rw [hkept]
    decide +kernel

end Pipewright
