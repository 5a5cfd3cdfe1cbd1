import Pipewright.Proofs.Constants

/-!
# Reported cycles

Where every placeholder always gives the same, what a sweep reports depends on the
swept text alone: each marker reports the cycles on the ways from it
(`Constants.cyclesFrom`), in every sweep anew. Two sweeps are made where the first
one substitutes something, so a text reports its cycles twice as soon as some
marker beside them is substituted (`Constants.cycles_append`).
-/

namespace Pipewright

variable {σ : Type}

/-- The markers of a tidy text in which markers gave way to tidy texts. -/
theorem Tidy.markerIds_replaceMarkers {f : Nat → Option String} {text : String} (ht : Tidy text)
    (h : ∀ id ∈ markerIds text, ∀ u, f id = some u → Tidy u) :
    markerIds (replaceMarkers f text) = (markerIds text).flatMap fun id => ((f id).map markerIds).getD [id] := by
  have hpiece : ∀ s ∈ segments text, Tidy (s.replace f) ∧
      markerIds (s.replace f) = s.id?.toList.flatMap fun id => ((f id).map markerIds).getD [id] := by
    intro s hs
    obtain ⟨htidy, hids⟩ := ht.segment hs
    cases s with
    | plain t => exact ⟨htidy, hids⟩
    | marker id raw =>
      cases hf : f id with
      | none => simpa [Segment.replace, Segment.text, Segment.id?, hf] using And.intro htidy hids
      | some u => simpa [Segment.replace, Segment.id?, hf] using h id (List.mem_filterMap.mpr ⟨_, hs, rfl⟩) u hf
  have htexts : ∀ t ∈ (segments text).map (Segment.replace f), Tidy t := fun t hmem => by
    obtain ⟨s, hs, rfl⟩ := List.mem_map.mp hmem
    exact (hpiece s hs).1
  rw [replaceMarkers, (tidy_join htexts).2, markerIds, List.filterMap_eq_flatMap_toList, List.flatMap_map,
    List.flatMap_assoc]
  exact List.flatMap_congr fun s hs => (hpiece s hs).2

theorem sweepSegments_cycles {expand : Nat → Progress σ → Option String × Progress σ} {f : Nat → List Cycle}
    {I : Progress σ → Prop} (h : ∀ id p, I p → (expand id p).2.cycles = p.cycles ++ f id ∧ I (expand id p).2) :
    ∀ segs p, I p →
      (sweepSegments expand segs p).progress.cycles = p.cycles ++ (segs.filterMap Segment.id?).flatMap f
  | [], p, _ => (List.append_nil _).symm
  | .plain t :: rest, p, hp => sweepSegments_cycles h rest p hp
  | .marker id raw :: rest, p, hp => by
    obtain ⟨hcycles, hi⟩ := h id p hp
    rw [sweepSegments_progress, sweepSegments_cycles h rest _ hi, hcycles, List.append_assoc]
    rfl

namespace Constants

variable {reg : Registry σ} (c : Constants reg) (tier : Tier)

/-- The cycles on the ways from an id with `stack` in flight, one for each way that comes back to what is in flight. -/
def cyclesFrom (stack : List Nat) (id : Nat) : List Cycle :=
  if _hid : reg.tier? id = some tier then
    if _hs : id ∈ stack then [⟨id, stack⟩]
    else
      match c.given id with
      | none => []
      | some r => (markerIds r.toText).flatMap (cyclesFrom (id :: stack))
  else []
termination_by remaining reg.ids stack
decreasing_by
  exact remaining_enter_lt (List.mem_range.2 ((reg.tier?_eq_some_iff).mp _hid).1) (by simpa using _hs)

def meetings (text : String) : List Cycle := (markerIds text).flatMap (c.cyclesFrom tier [])

def Changes (text : String) : Prop := ∃ id ∈ markerIds text, (c.outcome tier id).isSome = true

instance (text : String) : Decidable (c.Changes tier text) :=
  inferInstanceAs (Decidable (∃ id ∈ markerIds text, (c.outcome tier id).isSome = true))

/-- The texts that are swept, of which there are at most `count`. -/
def rounds : (count : Nat) → String → List String
  | 0, _ => []
  | count + 1, text => text :: if c.Changes tier text then rounds count (c.substitute tier text) else []

variable {c tier}

/-! ## One attempt -/

section
variable {stack : List Nat} {id : Nat}

theorem cyclesFrom_closed (h : reg.tier? id ≠ some tier) : c.cyclesFrom tier stack id = [] := by
  rw [cyclesFrom, dif_neg h]

theorem cyclesFrom_inFlight (h : reg.tier? id = some tier) (hs : id ∈ stack) :
    c.cyclesFrom tier stack id = [⟨id, stack⟩] := by
  rw [cyclesFrom, dif_pos h, dif_pos hs]

theorem cyclesFrom_without (h : c.given id = none) (hs : id ∉ stack) : c.cyclesFrom tier stack id = [] := by
  by_cases ht : reg.tier? id = some tier
  · rw [cyclesFrom, dif_pos ht, dif_neg hs, h]
  · exact cyclesFrom_closed ht

theorem cyclesFrom_given (h : reg.tier? id = some tier) (hs : id ∉ stack) {r : Resolved} (hr : c.given id = some r) :
    c.cyclesFrom tier stack id = (markerIds r.toText).flatMap (c.cyclesFrom tier (id :: stack)) := by
  rw [cyclesFrom, dif_pos h, dif_neg hs, hr]

end

theorem inner_cycles {stack : List Nat} {id : Nat} {r : Resolved} {p : Progress σ} (hp : p.waiting = [])
    (hstep : ∀ k (p : Progress σ), p.waiting = [] →
      (reg.expand tier (id :: stack) k p).2.cycles = p.cycles ++ c.cyclesFrom tier (id :: stack) k) :
    (reg.inner tier stack id r p).progress.cycles =
      p.cycles ++ (markerIds r.toText).flatMap (c.cyclesFrom tier (id :: stack)) :=
  sweepSegments_cycles (I := fun q => q.waiting = [])
    (fun k q hq => ⟨hstep k q hq, ((c.keeps_calm tier).expand (id :: stack) trivial k q).waiting ▸ hq⟩)
    (segments r.toText) (p.registerAll r.imports) hp

/-- Whatever comes of an attempt, it reports the cycles on the ways from its marker. -/
theorem expand_cycles (stack : List Nat) : ∀ (id : Nat) (p : Progress σ), p.waiting = [] →
    (reg.expand tier stack id p).2.cycles = p.cycles ++ c.cyclesFrom tier stack id := by
  induction stack using reg.descent with
  | step stack ih =>
    intro id p hp
    have hclosed : (∀ h : id < reg.size, reg.entries[id].tier ≠ tier) → c.cyclesFrom tier stack id = [] := fun h =>
      cyclesFrom_closed fun ht => by
        obtain ⟨hid, ht⟩ := (reg.tier?_eq_some_iff).mp ht
        exact h hid ht
    -- the cycles stay in the report whether or not the attempt is undone because of them
    have hinner : ∀ (h : id < reg.size) {r q}, reg.entries[id].tier = tier → id ∉ stack →
        reg.call tier stack h p = (some r, q) →
        (reg.inner tier stack id r q).progress.cycles = p.cycles ++ c.cyclesFrom tier stack id := by
      intro h r q ht hs hc
      obtain ⟨hgiven, hcycles, hw⟩ := c.call_eq tier stack h p
      rw [hc] at hgiven hcycles hw
      rw [inner_cycles (hw.trans hp) (ih id h hs), hcycles,
        cyclesFrom_given ((reg.tier?_eq_some_iff).mpr ⟨h, ht⟩) hs hgiven.symm]
    generalize he : reg.expand tier stack id p = o
    cases he ▸ reg.attempts tier stack id p with
    | unknown h => rw [hclosed fun hid => absurd hid h, List.append_nil]
    | closed h ho => rw [hclosed fun _ ht => ho (.inl ht), List.append_nil]
    | cycle h ho hs =>
      rw [cyclesFrom_inFlight ((reg.tier?_eq_some_iff).mpr ⟨h, tier_of_isOpen hp ho⟩) hs]
      rfl
    | without h ho hs hc =>
      obtain ⟨hgiven, hcycles, -⟩ := c.call_eq tier stack h p
      rw [hc] at hgiven hcycles
      rw [cyclesFrom_without hgiven.symm hs, List.append_nil]
      exact hcycles
    | undone h ho hs hc _ => exact hinner h (tier_of_isOpen hp ho) hs hc
    | done h ho hs hc _ => exact hinner h (tier_of_isOpen hp ho) hs hc

theorem cyclesFrom_of_settled {id : Nat} (h : c.Settled tier id) (outside : σ) : c.cyclesFrom tier [] id = [] := by
  have hcycles := (expand_of_settled [] h (by simp) (p := { imports := .empty, outside }) rfl).2
  rw [expand_cycles [] id _ rfl] at hcycles
  simpa using hcycles

/-! ## Sweeps -/

theorem sweep_cycles (c : Constants reg) (tier : Tier) (text : String) {p : Progress σ} (hp : p.waiting = []) :
    (reg.sweep tier text p).progress.cycles = p.cycles ++ c.meetings tier text :=
  sweepSegments_cycles (I := fun q => q.waiting = [])
    (fun k q hq => ⟨expand_cycles [] k q hq, ((c.keeps_calm tier).expand [] trivial k q).waiting ▸ hq⟩)
    (segments text) p hp

theorem changed_iff (c : Constants reg) (tier : Tier) (text : String) {p : Progress σ} (hp : p.waiting = []) :
    (reg.sweep tier text p).changed = true ↔ c.Changes tier text := by
  rw [(c.sweep_eq tier text hp).2.1, List.any_eq_true]
  constructor
  · rintro ⟨s, hs, hsome⟩
    cases s with
    | plain t => cases hsome
    | marker id raw => exact ⟨id, List.mem_filterMap.mpr ⟨_, hs, rfl⟩, hsome⟩
  · rintro ⟨id, hid, hsome⟩
    obtain ⟨s, hs, hs'⟩ := List.mem_filterMap.mp hid
    exact ⟨s, hs, by rw [hs', Option.bind_some, hsome]⟩

/-- Every round reports what its text meets. -/
theorem sweeps_cycles (c : Constants reg) (tier : Tier) (count : Nat) (text : String) {p : Progress σ}
    (hp : p.waiting = []) : (reg.sweeps tier count text p).2.cycles =
      p.cycles ++ (c.rounds tier count text).flatMap (c.meetings tier) := by
  induction count generalizing text p with
  | zero => exact (List.append_nil _).symm
  | succ count ih =>
    obtain ⟨htext, -, hw⟩ := c.sweep_eq tier text hp
    have hcycles := c.sweep_cycles tier text hp
    rw [Registry.sweeps_succ, rounds]
    by_cases hchanges : c.Changes tier text
    · rw [if_pos ((c.changed_iff tier text hp).mpr hchanges), if_pos hchanges, htext, ih _ hw, hcycles,
        List.flatMap_cons, List.append_assoc]
    · rw [if_neg (mt (c.changed_iff tier text hp).mp hchanges), if_neg hchanges, hcycles]
      simp

theorem waiting_sweeps (c : Constants reg) (tier : Tier) (count : Nat) (text : String) {p : Progress σ}
    (hp : p.waiting = []) : (reg.sweeps tier count text p).2.waiting = [] :=
  ((c.keeps_calm tier).sweeps trivial count text p).waiting ▸ hp

/-! ## Registries of one tier -/

section
variable (htier : ∀ id t, reg.tier? id = some t → t = tier)
include htier

theorem outcome_other {other : Tier} (hother : other ≠ tier) (id : Nat) : c.outcome other id = none :=
  outcome_eq_none (if_neg fun ht => hother (htier id other ht))

theorem meetings_other {other : Tier} (hother : other ≠ tier) (text : String) : c.meetings other text = [] :=
  List.flatMap_eq_nil_iff.mpr fun id _ => cyclesFrom_closed fun ht => hother (htier id other ht)

theorem substitute_other {other : Tier} (hother : other ≠ tier) (text : String) : c.substitute other text = text :=
  substitute_eq_self fun id _ => outcome_other htier hother id

theorem sweeps_other (c : Constants reg) {other : Tier} (hother : other ≠ tier) (count : Nat) (text : String)
    {p : Progress σ} (hp : p.waiting = []) :
    (reg.sweeps other count text p).1 = text ∧ (reg.sweeps other count text p).2.cycles = p.cycles := by
  constructor
  · cases count with
    | zero => rfl
    | succ count =>
      have hchanges : ¬ c.Changes other text := by
        rintro ⟨id, -, hsome⟩
        rw [outcome_other htier hother] at hsome
        cases hsome
      rw [Registry.sweeps_succ, if_neg (mt (c.changed_iff other text hp).mp hchanges), (c.sweep_eq other text hp).1]
      exact substitute_other htier hother text
  · have hnone : (c.rounds other count text).flatMap (c.meetings other) = [] :=
      List.flatMap_eq_nil_iff.mpr fun text _ => meetings_other htier hother text
    rw [c.sweeps_cycles other count text hp, hnone, List.append_nil]

theorem resolveText_cycles (text : String) (imports : ImportScope) (outside : σ) :
    (reg.resolveText text imports outside).progress.cycles =
      (c.rounds tier Registry.maxSweeps text).flatMap (c.meetings tier) := by
  have hstart : ({ imports, outside } : Progress σ).waiting = [] := rfl
  have hmid := c.waiting_sweeps .normal Registry.maxSweeps text hstart
  rw [Registry.resolveText_eq]
  cases tier with
  | normal =>
    have hother : Tier.last ≠ .normal := by decide
    have hlast := sweeps_other htier c hother Registry.maxSweeps (reg.normalTier text imports outside).1 hmid
    exact hlast.2.trans (c.sweeps_cycles .normal Registry.maxSweeps text hstart)
  | last =>
    have hother : Tier.normal ≠ .last := by decide
    obtain ⟨htext, hcycles⟩ := sweeps_other htier c hother Registry.maxSweeps text hstart
    have hlast := c.sweeps_cycles .last Registry.maxSweeps (reg.normalTier text imports outside).1 hmid
    refine hlast.trans ?_
    unfold Registry.normalTier
    rw [htext, hcycles]
    rfl

end

/-! ## Tidy texts -/

/-- From what is left of an outcome no cycle can be reached. -/
theorem settled_left (hc : c.AllTidy) (id : Nat) (u : String) (h : c.outcome tier id = some u) :
    ∀ k ∈ markerIds u, c.Settled tier k := by
  intro k hk
  obtain ⟨hs, behind, ht, rfl⟩ := outcome_eq_some_iff.mp h
  rw [substitute, ← replaceMarkers, (hc tier id behind ht).markerIds_replaceMarkers fun j _ v hv =>
    (outcome_left hc j v hv).1] at hk
  obtain ⟨j, hj, hk⟩ := List.mem_flatMap.mp hk
  have hholds : c.Holds tier id j := ⟨behind, ht, hj⟩
  -- a marker that stays is one of the text behind, any other is left of the outcome of one of those
  cases hout : c.outcome tier j with
  | none =>
    rw [hout] at hk
    obtain rfl := List.mem_singleton.mp hk
    exact hs.of_holds hholds
  | some v =>
    rw [hout] at hk
    have := card_reachable_lt hs hholds
    exact settled_left hc j v hout k hk
termination_by (c.reachable tier id).card

theorem meetings_substitute (hc : c.AllTidy) {text : String} (ht : Tidy text) (outside : σ) :
    c.meetings tier (c.substitute tier text) = c.meetings tier text := by
  rw [meetings, substitute, ← replaceMarkers, ht.markerIds_replaceMarkers fun j _ v hv => (outcome_left hc j v hv).1,
    List.flatMap_assoc]
  refine List.flatMap_congr fun id _ => ?_
  cases hout : c.outcome tier id with
  | none => exact List.append_nil _
  | some u =>
    have hs : c.Settled tier id := (outcome_eq_some_iff.mp hout).1
    rw [cyclesFrom_of_settled hs outside]
    exact List.flatMap_eq_nil_iff.mpr fun k hk => cyclesFrom_of_settled (settled_left hc id u hout k hk) outside

theorem rounds_eq (hc : c.AllTidy) {text : String} (ht : Tidy text) (count : Nat) :
    c.rounds tier (count + 2) text =
      if c.Changes tier text then [text, c.substitute tier text] else [text] := by
  -- what the first sweep leaves has no outcome, so the second one is the last
  have hrest : ¬ c.Changes tier (c.substitute tier text) := by
    rintro ⟨k, hk, hsome⟩
    rw [(c.substitute_left tier ht fun id _ => outcome_left hc id).2 k hk] at hsome
    cases hsome
  rw [rounds, rounds, if_neg hrest]
  split <;> rfl

theorem changes_append {a b : String} (ha : Tidy a) (hb : Tidy b) :
    c.Changes tier (a ++ b) ↔ c.Changes tier a ∨ c.Changes tier b := by
  unfold Changes
  rw [(tidy_append ha hb).2]
  simp only [List.mem_append, or_and_right, exists_or]

theorem meetings_append {a b : String} (ha : Tidy a) (hb : Tidy b) :
    c.meetings tier (a ++ b) = c.meetings tier a ++ c.meetings tier b := by
  rw [meetings, (tidy_append ha hb).2, List.flatMap_append]
  rfl

section
variable (htier : ∀ id t, reg.tier? id = some t → t = tier) (hc : c.AllTidy)
include htier hc

/-- A tidy text reports what it meets, and once more if something of it is substituted. -/
theorem resolveText_cycles_tidy {text : String} (ht : Tidy text) (imports : ImportScope) (outside : σ) :
    (reg.resolveText text imports outside).progress.cycles =
      if c.Changes tier text then c.meetings tier text ++ c.meetings tier text else c.meetings tier text := by
  rw [resolveText_cycles htier, Registry.maxSweeps, rounds_eq hc ht]
  split
  · simp [meetings_substitute hc ht outside]
  · simp

/-- Where all markers of a text are substituted, there is a change unless there is no marker. -/
theorem changes_iff_of_complete {text : String} (ht : Tidy text) {imports : ImportScope} {outside : σ}
    (h : (reg.resolveText text imports outside).unresolved = []) : c.Changes tier text ↔ markerIds text ≠ [] := by
  constructor
  · rintro ⟨id, hid, -⟩
    exact List.ne_nil_of_mem hid
  · intro hne
    by_contra hchanges
    have hself : ∀ t, c.substitute t text = text := by
      intro t
      by_cases hother : t = tier
      · subst hother
        refine substitute_eq_self fun id hid => ?_
        exact Option.not_isSome_iff_eq_none.mp fun hsome => hchanges ⟨id, hid, hsome⟩
      · exact substitute_other htier hother text
    rw [(resolveText_eq_substitute hc ht imports outside).2, hself, hself] at h
    exact hne h

end

/-- The cycles that resolution reports are those that each swept text meets. Behind a text, one that resolves without
a cycle leaves the report as it is if it has no markers or something else is substituted anyway; otherwise one more
sweep reports all cycles again. -/
theorem cycles_append (c : Constants reg) (htier : ∀ id t, reg.tier? id = some t → t = tier) (imports : ImportScope)
    (outside : σ) :
    (∀ text, (reg.resolveText text imports outside).progress.cycles =
      (c.rounds tier Registry.maxSweeps text).flatMap (c.meetings tier)) ∧
    (c.AllTidy → ∀ a b, Tidy a → Tidy b → (reg.resolveText b imports outside).unresolved = [] →
      (reg.resolveText b imports outside).progress.cycles = [] →
      (reg.resolveText (a ++ b) imports outside).progress.cycles =
        if c.Changes tier a ∨ markerIds b = [] then (reg.resolveText a imports outside).progress.cycles
        else (reg.resolveText a imports outside).progress.cycles ++
          (reg.resolveText a imports outside).progress.cycles) := by
  refine ⟨fun text => resolveText_cycles htier text imports outside, fun hc a b ha hb hcomplete hcycles => ?_⟩
  have hb' := changes_iff_of_complete htier hc hb hcomplete
  have hmeets : c.meetings tier b = [] := by
    rw [resolveText_cycles_tidy htier hc hb] at hcycles
    split at hcycles
    · exact (List.append_eq_nil_iff.mp hcycles).1
    · exact hcycles
  have hboth : c.meetings tier (a ++ b) = c.meetings tier a := by
    rw [meetings_append ha hb, hmeets, List.append_nil]
  have hchanges : c.Changes tier (a ++ b) ↔ c.Changes tier a ∨ markerIds b ≠ [] := by
    rw [changes_append ha hb, hb']
  rw [resolveText_cycles_tidy htier hc (tidy_append ha hb).1, resolveText_cycles_tidy htier hc ha, hboth]
  by_cases hchange : c.Changes tier a
  · simp [hchanges, hchange]
  · by_cases hnone : markerIds b = [] <;> simp [hchanges, hchange, hnone]

def loopTable : List (Tier × Option Resolved) :=
  [(.normal, some (.text "<@vg#1#@>")), (.normal, some (.text "<@vg#0#@>")), (.normal, some (.text "b"))]

def loop : Registry Unit := .ofTable loopTable

def ofLoop : Constants loop := .ofTable loopTable

/-- The plain text next to the cycle makes it be reported twice. -/
theorem cycles_append_loop : (∀ id t, loop.tier? id = some t → t = .normal) ∧ ofLoop.AllTidy ∧
    Tidy "<@vg#0#@>" ∧ Tidy " <@vg#2#@>" ∧ (loop.resolveText " <@vg#2#@>" .empty ()).unresolved = [] ∧
    (loop.resolveText " <@vg#2#@>" .empty ()).progress.cycles = [] ∧
    (loop.resolveText "<@vg#0#@>" .empty ()).progress.cycles = [⟨0, [1, 0]⟩] ∧
    (loop.resolveText ("<@vg#0#@>" ++ " <@vg#2#@>") .empty ()).progress.cycles = [⟨0, [1, 0]⟩, ⟨0, [1, 0]⟩] := by
  have htier : ∀ id t, loop.tier? id = some t → t = .normal := by
    intro id t ht
    rcases id with _ | _ | _ | id <;> cases ht <;> rfl
  have hc : ofLoop.AllTidy := allTidy_ofTable (by decide +kernel)
  have ha : Tidy "<@vg#0#@>" := by decide +kernel
  have hb : Tidy " <@vg#2#@>" := by decide +kernel
  have hcomplete : (loop.resolveText " <@vg#2#@>" .empty ()).unresolved = [] := by decide +kernel
  have hnone : (loop.resolveText " <@vg#2#@>" .empty ()).progress.cycles = [] := by decide +kernel
  have hone : (loop.resolveText "<@vg#0#@>" .empty ()).progress.cycles = [⟨0, [1, 0]⟩] := by decide +kernel
  have hchanges : ¬ (ofLoop.Changes .normal "<@vg#0#@>" ∨ markerIds " <@vg#2#@>" = []) := by
    have hids : markerIds "<@vg#0#@>" = [0] ∧ markerIds " <@vg#2#@>" = [2] := by decide +kernel
    have hloop : ¬ ofLoop.Settled .normal 0 := by decide +kernel
    rw [Changes, hids.1, hids.2]
    simp [outcome_eq, hloop]
  have happend := (cycles_append ofLoop htier .empty ()).2 hc _ _ ha hb hcomplete hnone
  rw [if_neg hchanges, hone] at happend
  exact ⟨htier, hc, ha, hb, hcomplete, hnone, hone, happend⟩

end Constants

end Pipewright
