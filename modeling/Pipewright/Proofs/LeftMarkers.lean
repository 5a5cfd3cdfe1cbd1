import Pipewright.Command
import Pipewright.Proofs.Lexemes
import Pipewright.Proofs.Spelling

/-!
# Markers that are left

A build names the markers that no placeholder was found for. They are taken from
the resolved text, while the source is that text without the white space around
it, ended by one newline. As no marker holds white space, both have the same
markers, so the list and the exit status say what stands in the source
(`Pass.finish_names_markers`).
-/

namespace Pipewright

/-! ## Texts without the white space around them -/

/-- White space at an end of a text holds no part of a marker. -/
theorem markerIds_blank_append {front : List Char} (h : ∀ c ∈ front, isBlank c = true) (cs : List Char) :
    markerIds (String.ofList (front ++ cs)) = markerIds (String.ofList cs) := by
  induction front with
  | nil => rfl
  | cons c front ih =>
    obtain ⟨hc, hfront⟩ := List.forall_mem_cons.mp h
    have hgap : Marker.Gap (String.singleton c) := ⟨c, by simp, Marker.foreign_of_isBlank hc⟩
    have hsplit : String.ofList (c :: front ++ cs) = "" ++ String.singleton c ++ String.ofList (front ++ cs) := by
      apply String.toList_injective
      simp
    rw [hsplit, markerIds_gap hgap, markerIds_empty, List.nil_append, ih hfront]

theorem markerIds_append_blank {behind : List Char} (h : ∀ c ∈ behind, isBlank c = true) (cs : List Char) :
    markerIds (String.ofList (cs ++ behind)) = markerIds (String.ofList cs) := by
  cases behind with
  | nil => rw [List.append_nil]
  | cons c behind =>
    obtain ⟨hc, hbehind⟩ := List.forall_mem_cons.mp h
    have hgap : Marker.Gap (String.singleton c) := ⟨c, by simp, Marker.foreign_of_isBlank hc⟩
    have hsplit : String.ofList (cs ++ c :: behind) =
        String.ofList cs ++ String.singleton c ++ String.ofList (behind ++ []) := by
      apply String.toList_injective
      simp
    rw [hsplit, markerIds_gap hgap, markerIds_blank_append hbehind, String.ofList_nil, markerIds_empty, List.append_nil]

/-- The text starts with no white space, and one newline ends it, with no white space in front of that. Where nothing
stands in front of the newline, the newline is all. -/
def SourceForm (source : String) : Prop :=
  ∃ body : String, source = body ++ "\n" ∧ (∀ c ∈ body.toList.head?, isBlank c = false) ∧
    ∀ c ∈ body.toList.getLast?, isBlank c = false

theorem sourceForm_trim (text : String) : SourceForm (trim text ++ "\n") := by
  obtain ⟨_, _, -, -, -, hhead, hlast⟩ := trim_cut text
  exact ⟨trim text, rfl, hhead, hlast⟩

theorem markerIds_source (text : String) : markerIds (trim text ++ "\n") = markerIds text := by
  obtain ⟨front, behind, htext, hfront, hbehind, -⟩ := trim_cut text
  have hsource : trim text ++ "\n" = String.ofList ((trim text).toList ++ ['\n']) := by
    apply String.toList_injective
    simp
  have hbreak : ∀ c ∈ ['\n'], isBlank c = true := by simp [isBlank]
  calc markerIds (trim text ++ "\n")
      = markerIds (String.ofList (trim text).toList) := by
        rw [hsource]
        exact markerIds_append_blank hbreak _
    _ = markerIds (String.ofList (front ++ (trim text).toList ++ behind)) := by
        rw [markerIds_append_blank hbehind, markerIds_blank_append hfront]
    _ = markerIds text := by rw [← htext, String.ofList_toList]

/-! ## The markers of a source -/

/-- The ids of the markers of a text: one for each place at which a marker stands, in the order of the places. -/
def Marker.Listed (ids : List Nat) (text : String) : Prop :=
  ∃ ms : List Occurrence, (∀ m, m ∈ ms ↔ m.In text) ∧ (ms.Pairwise fun m n => m.stop ≤ n.start) ∧
    ids = ms.map Occurrence.id

theorem Marker.listed_markerIds (text : String) : Marker.Listed (markerIds text) text :=
  ⟨Segment.occurrences 0 (segments text), fun _ => mem_occurrences_segments, Segment.occurrences_ordered 0 _,
    (Segment.map_id_occurrences 0 _).symm⟩

theorem Marker.Listed.ne_nil_iff {ids : List Nat} {text : String} (h : Marker.Listed ids text) :
    ids ≠ [] ↔ ∃ m : Occurrence, m.In text := by
  obtain ⟨ms, hms, -, rfl⟩ := h
  rw [ne_eq, List.map_eq_nil_iff]
  constructor
  · intro hne
    obtain ⟨m, hm⟩ := List.exists_mem_of_ne_nil ms hne
    exact ⟨m, (hms m).mp hm⟩
  · rintro ⟨m, hm⟩ hnil
    exact absurd ((hms m).mpr hm) (by simp [hnil])

structure Build.Truthful (b : Build) : Prop where
  form : SourceForm b.source
  listed : Marker.Listed b.unresolved b.source
  status : Command.exitStatus (some b) = 2 ↔ ∃ m : Occurrence, m.In b.source

theorem Command.exitStatus_eq_two_iff (b : Build) : exitStatus (some b) = 2 ↔ b.unresolved ≠ [] := by
  unfold exitStatus Build.hasUnresolved
  by_cases h : b.unresolved = [] <;> simp [h]

theorem Pass.truthful_of_finish {σ : Type} {p p' : Pass σ} {b : Build} (h : p.finish = (.ok b, p')) : b.Truthful := by
  have hlisted : SourceForm b.source ∧ b.unresolved = markerIds b.source := by
    unfold finish at h
    cases ha : (p.program.assemble p.language).result with
    | error e => simp [ha] at h
    | ok text =>
      simp only [ha, Prod.mk.injEq, Except.ok.injEq] at h
      obtain ⟨rfl, -⟩ := h
      exact ⟨sourceForm_trim _, (markerIds_source _).symm⟩
  have hmarkers : Marker.Listed b.unresolved b.source := hlisted.2 ▸ Marker.listed_markerIds b.source
  exact ⟨hlisted.1, hmarkers, (Command.exitStatus_eq_two_iff b).trans hmarkers.ne_nil_iff⟩

theorem Graph.truthful_of_build {σ : Type} {graph : Graph σ} {options : BuildOptions} {order : List Nat} {outside : σ}
    {b : Build} (h : (graph.build options order outside).1 = .ok b) : b.Truthful := by
  unfold Graph.build Graph.run at h
  cases hrun : graph.generateProgram order (Pass.new options outside) with
  | mk outcome p =>
    rw [hrun] at h
    cases outcome with
    | error e => simp at h
    | ok u =>
      simp only at h
      cases hfinish : p.finish with
      | mk result p' =>
        rw [hfinish] at h
        cases result with
        | error e => simp at h
        | ok c =>
          obtain rfl : c = b := by simpa using h
          exact Pass.truthful_of_finish hfinish

/-! ## Runs of the command -/

def Run.text : Run → String
  | exit outcome => outcome.stdout
  | write _ _ content _ => content

/-- The status of a run whose write, if it comes to one, succeeds. -/
def Run.status : Run → Nat
  | exit outcome => outcome.status
  | write _ _ _ k => (k none).status

theorem Command.generate_ok {r : Request} {b : Build} (h : Nodes.buildDemo r.options = .ok b) :
    (generate r).text = b.source ∧ (generate r).status = exitStatus (some b) := by
  unfold generate
  rw [h]
  cases r.output <;> exact ⟨rfl, rfl⟩

/-- A pass that finishes reports the markers of its source, which has no white space around it but the newline that ends
it; and the command's status is two exactly when a marker stands in what it writes. -/
theorem Pass.finish_names_markers {σ : Type} :
    (∀ (p p' : Pass σ) (b : Build), p.finish = (.ok b, p') → b.Truthful) ∧
    ∀ r : Command.Request, match Nodes.buildDemo r.options with
      | .ok b => (Command.generate r).text = b.source ∧
          ((Command.generate r).status = 2 ↔ ∃ m : Occurrence, m.In (Command.generate r).text)
      | .error _ => (Command.generate r).status = 1 := by
  refine ⟨fun p p' b h => truthful_of_finish h, fun r => ?_⟩
  cases h : Nodes.buildDemo r.options with
  | ok b =>
    obtain ⟨htext, hstatus⟩ := Command.generate_ok h
    rw [htext, hstatus]
    exact ⟨rfl, (Graph.truthful_of_build h).status⟩
  | error e =>
    unfold Command.generate
    rw [h]
    rfl

def untied : Pass Unit :=
  let start := Pass.new { language? := some .python } ()
  { start with work := { start.work with classEnd := (Scope.new 1).write " <@vg#7#@> <@vg#007#@> " } }

theorem finish_untied : ∃ b, untied.finish = (.ok b, untied.finish.2) ∧ b.Truthful ∧ b.unresolved = [7, 7] := by
  have hleft : untied.finish.1.toOption.map Build.unresolved = some [7, 7] := by decide +kernel
  cases h : untied.finish.1 with
  | error e => rw [h] at hleft; cases hleft
  | ok b =>
    rw [h] at hleft
    have hfinish : untied.finish = (.ok b, untied.finish.2) := Prod.ext h rfl
    exact ⟨b, hfinish, Pass.finish_names_markers.1 _ _ b hfinish, Option.some.inj hleft⟩

end Pipewright
