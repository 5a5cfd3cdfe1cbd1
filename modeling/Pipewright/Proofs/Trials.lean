import Pipewright.Proofs.Plans
import Pipewright.Proofs.Replacements

/-!
# What comes of an attempt

Where recipes go by plans, an attempt to expand a marker depends on the tier, on
what waits and on what is in flight (`Planned.trial`). Only what is in flight
makes it meet a cycle, so an attempt without one comes to the same with fewer in
flight (`Planned.trial_of_subset`). That is why one sweep settles a tier: what it
leaves, at whatever depth, is `Dead` and the next sweep leaves it too.
-/

namespace Pipewright

variable {σ : Type}

structure Trial where
  text : Option String := none
  trace : Trace := {}

namespace Trial

/-- A failed attempt: its id waits if something was asked for too early. -/
def failed (id : Nat) (t : Trace) : Trial :=
  { trace := { t with waits := if 0 < t.requests then id :: t.waits else t.waits } }

def swept (id : Nat) (text : String) (trial : Nat → Trial) : Trial :=
  let trace := Trace.total (fun k => (trial k).trace) (markerIds text)
  if trace.cycles = 0 then ⟨some (replaceMarkers (fun k => (trial k).text) text), trace⟩ else failed id trace

theorem failed_leads {t : Trace} {p q : Progress σ} (h : t.Leads p q) (id : Nat) :
    (failed id t).trace.Leads p (q.giveUp p.mark id) := by
  refine ⟨h.cycles, h.deferred, fun k => ?_⟩
  have hd : p.mark.deferred < q.deferred ↔ 0 < t.requests := by
    have := h.deferred
    change p.deferred < q.deferred ↔ 0 < t.requests
    omega
  rw [Progress.mem_waiting_giveUp, h.waiting, hd, failed]
  by_cases ht : 0 < t.requests
  · simp only [ht, true_and, if_true, List.mem_cons]
    rw [or_assoc, or_comm (a := k ∈ t.waits)]
  · simp only [ht, false_and, or_false, if_false]

theorem cycles_of_isSome {id : Nat} {text : String} {trial : Nat → Trial} (h : (swept id text trial).text.isSome) :
    ∀ k ∈ markerIds text, (trial k).trace.cycles = 0 := by
  rw [swept] at h
  split at h
  · rename_i hc; exact Trace.total_cycles_eq_zero.mp hc
  · cases h

theorem swept_cycles {id : Nat} {text : String} {trial : Nat → Trial} :
    (swept id text trial).trace.cycles = (Trace.total (fun k => (trial k).trace) (markerIds text)).cycles := by
  rw [swept]
  split <;> rfl

theorem swept_cycles_eq_zero {id : Nat} {text : String} {trial : Nat → Trial} :
    (swept id text trial).trace.cycles = 0 ↔ ∀ k ∈ markerIds text, (trial k).trace.cycles = 0 := by
  rw [swept_cycles, Trace.total_cycles_eq_zero]

theorem swept_congr (id : Nat) {text : String} {f g : Nat → Trial} (h : ∀ k ∈ markerIds text, f k = g k) :
    swept id text f = swept id text g := by
  rw [swept, swept, Trace.total_congr fun k hk => congrArg trace (h k hk),
    replaceMarkers_congr _ fun k hk => congrArg Trial.text (h k hk)]

/-- What an attempt at `p` shows; its very text only if `exact` holds. -/
structure Shows (t : Trial) (exact : Prop) (ok : σ → Prop) (p : Progress σ) (o : Option String × Progress σ) :
    Prop where
  isSome : o.1.isSome = t.text.isSome
  text : exact → o.1 = t.text
  leads : t.trace.Leads p o.2
  outside : ok o.2.outside

end Trial

structure Progress.Ready (ok : σ → Prop) (tier : Tier) (w : List Nat) (p : Progress σ) : Prop where
  outside : ok p.outside
  waiting : tier = .last → ∀ k, k ∈ p.waiting ↔ k ∈ w

def Registry.Opens (reg : Registry σ) (tier : Tier) (w : List Nat) (id : Nat) : Prop :=
  id < reg.size ∧ (reg.tier? id = some tier ∨ tier = .last ∧ id ∈ w)

instance (reg : Registry σ) (tier : Tier) (w : List Nat) (id : Nat) : Decidable (reg.Opens tier w id) :=
  inferInstanceAs (Decidable (_ ∧ _))

theorem Progress.ready_normal {ok : σ → Prop} {p : Progress σ} (hok : ok p.outside) (w : List Nat) :
    p.Ready ok .normal w :=
  ⟨hok, fun ht => Tier.noConfusion ht⟩

namespace Progress.Ready

variable {reg : Registry σ} {ok : σ → Prop} {tier : Tier} {w : List Nat} {p q : Progress σ} {id : Nat}

theorem isOpen_iff (hp : p.Ready ok tier w) (h : id < reg.size) : reg.IsOpen tier h p ↔ reg.Opens tier w id := by
  have ht : reg.entries[id].tier = tier ↔ reg.tier? id = some tier := by
    rw [reg.tier?_eq_some_iff]
    exact ⟨fun ht => ⟨h, ht⟩, fun ⟨_, ht⟩ => ht⟩
  have hw : (tier = .last ∧ id ∈ p.waiting) ↔ (tier = .last ∧ id ∈ w) :=
    and_congr_right fun hl => hp.waiting hl id
  rw [Registry.IsOpen, Registry.Opens, ht, hw]
  exact ⟨fun ho => ⟨h, ho⟩, And.right⟩

theorem of_nil (hp : p.Ready ok tier w) (hl : ({} : Trace).Leads p q) (hok : ok q.outside) : q.Ready ok tier w := by
  refine ⟨hok, fun ht k => ?_⟩
  rw [hl.waiting, hp.waiting ht]
  simp

theorem expand (hp : p.Ready ok tier w) (stack : List Nat) (hok : ok (reg.expand tier stack id p).2.outside) :
    (reg.expand tier stack id p).2.Ready ok tier w := by
  refine ⟨hok, fun ht k => ?_⟩
  subst ht
  rw [← (reg.keeps_calm_last.expand stack trivial id p).waiting]
  exact hp.waiting rfl k

end Progress.Ready

section
variable {ok : σ → Prop} {tier : Tier} {w : List Nat} {expand : Nat → Progress σ → Option String × Progress σ}

theorem sweepSegments_leads {trial : Nat → Trial} {exact : Prop} : ∀ segs : List Segment,
    (∀ id ∈ segs.filterMap Segment.id?, ∀ p, p.Ready ok tier w →
      (trial id).Shows exact ok p (expand id p) ∧ (expand id p).2.Ready ok tier w) → ∀ p, p.Ready ok tier w →
        (Trace.total (fun k => (trial k).trace) (segs.filterMap Segment.id?)).Leads p
          (sweepSegments expand segs p).progress ∧ (sweepSegments expand segs p).progress.Ready ok tier w
  | [], _, p, hp => ⟨.refl p, hp⟩
  | .plain _ :: rest, h, p, hp => sweepSegments_leads rest h p hp
  | .marker id raw :: rest, h, p, hp => by
    obtain ⟨hs, hready⟩ := h id (List.mem_cons_self ..) p hp
    rw [sweepSegments_progress]
    obtain ⟨hrest, hready⟩ := sweepSegments_leads rest (fun k hk => h k (List.mem_cons_of_mem _ hk)) _ hready
    exact ⟨hs.leads.append hrest, hready⟩

end

namespace Planned

variable {reg : Registry σ} {ok : σ → Prop} (c : Planned reg ok) (tier : Tier) (w : List Nat)

def trial (stack : List Nat) (id : Nat) : Trial :=
  if _ho : reg.Opens tier w id then
    if _hs : stack.contains id then { trace := { cycles := 1 } }
    else
      match c.comes tier stack id with
      | .value r => .swept id r.toText fun k => trial (id :: stack) k
      | missing => .failed id missing.trace
  else {}
termination_by remaining reg.ids stack
decreasing_by exact remaining_enter_lt (List.mem_range.2 _ho.1) (by simpa using _hs)

variable {c tier w}

theorem trial_closed {stack : List Nat} {id : Nat} (h : ¬ reg.Opens tier w id) : c.trial tier w stack id = {} := by
  rw [trial, dif_neg h]

theorem trial_cycle {stack : List Nat} {id : Nat} (h : reg.Opens tier w id) (hs : id ∈ stack) :
    c.trial tier w stack id = { trace := { cycles := 1 } } := by
  rw [trial, dif_pos h, dif_pos (by simpa using hs)]

theorem trial_value {stack : List Nat} {id : Nat} (h : reg.Opens tier w id) (hs : id ∉ stack) {r : Resolved}
    (hc : c.comes tier stack id = .value r) :
    c.trial tier w stack id = .swept id r.toText (c.trial tier w (id :: stack)) := by
  rw [trial, dif_pos h, dif_neg (by simpa using hs), hc]

theorem trial_missing {stack : List Nat} {id : Nat} (h : reg.Opens tier w id) (hs : id ∉ stack)
    (hc : (c.comes tier stack id).value? = none) :
    c.trial tier w stack id = .failed id (c.comes tier stack id).trace := by
  rw [trial, dif_pos h, dif_neg (by simpa using hs)]
  cases hf : c.comes tier stack id with
  | value r => rw [hf] at hc; cases hc
  | absent => rfl
  | looped => rfl
  | early => rfl

theorem expand_shows (stack : List Nat) : ∀ id p, p.Ready ok tier w →
    (c.trial tier w stack id).Shows c.Whole ok p (reg.expand tier stack id p) := by
  induction stack using reg.descent with
  | step stack ih =>
    intro id p hp
    -- what was given is swept with `id` in flight
    have hinner : ∀ (h : id < reg.size) {r v q}, id ∉ stack → markerIds v.toText = markerIds r.toText →
        (c.Whole → v = r) → ({} : Trace).Leads p q → q.Ready ok tier w →
          (Trace.total (fun k => (c.trial tier w (id :: stack) k).trace) (markerIds v.toText)).Leads p
            (reg.inner tier stack id r q).progress ∧ ok (reg.inner tier stack id r q).progress.outside ∧
          (c.Whole → (reg.inner tier stack id r q).text =
            replaceMarkers (fun k => (c.trial tier w (id :: stack) k).text) v.toText) := by
      intro h r v q hs hids hexact hl hq
      have hstep : ∀ k, ∀ p : Progress σ, p.Ready ok tier w →
          (c.trial tier w (id :: stack) k).Shows c.Whole ok p (reg.expand tier (id :: stack) k p) ∧
            (reg.expand tier (id :: stack) k p).2.Ready ok tier w := fun k p hp =>
        have hk := ih id h hs k p hp
        ⟨hk, hp.expand (id :: stack) hk.outside⟩
      have hr : (q.registerAll r.imports).Ready ok tier w := hq.of_nil (.registerAll q r.imports) hq.outside
      obtain ⟨hleads, hready⟩ := sweepSegments_leads (segments r.toText) (fun k _ => hstep k) _ hr
      refine ⟨?_, hready.outside, fun hw => ?_⟩
      · rw [hids]
        exact hl.after_nil ((Trace.Leads.registerAll q r.imports).after_nil hleads)
      · rw [hexact hw]
        obtain ⟨hpieces, -⟩ := sweepSegments_eq (segments r.toText)
          (fun k _ p hp => ⟨(hstep k p hp).1.text hw, (hstep k p hp).2⟩) _ hr
        exact congrArg String.join hpieces
    generalize he : reg.expand tier stack id p = o
    cases he ▸ reg.attempts tier stack id p with
    | unknown hn =>
      rw [trial_closed fun ho => hn ho.1]
      exact ⟨rfl, fun _ => rfl, .refl p, hp.outside⟩
    | closed h hn =>
      rw [trial_closed fun ho => hn ((hp.isOpen_iff h).mpr ho)]
      exact ⟨rfl, fun _ => rfl, .refl p, hp.outside⟩
    | cycle h ho hs =>
      rw [trial_cycle ((hp.isOpen_iff h).mp ho) hs]
      exact ⟨rfl, fun _ => rfl, .recordCycle p id stack, hp.outside⟩
    | without h ho hs hc =>
      obtain ⟨hv, hl, hok⟩ := of_call_none (c := c) h hp.outside hc
      rw [trial_missing ((hp.isOpen_iff h).mp ho) hs hv]
      exact ⟨rfl, fun _ => rfl, Trial.failed_leads hl id, hok⟩
    | undone h ho hs hc hn =>
      obtain ⟨v, hv, hids, hexact, hl, hok⟩ := of_call_some (c := c) h hp.outside hc
      obtain ⟨hleads, hok, -⟩ := hinner h hs hids (fun hw => hexact (hw h)) hl (hp.of_nil hl hok)
      rw [hleads.cycles] at hn
      rw [trial_value ((hp.isOpen_iff h).mp ho) hs hv, Trial.swept, if_neg (by omega)]
      exact ⟨rfl, fun _ => rfl, Trial.failed_leads hleads id, hok⟩
    | done h ho hs hc hn =>
      obtain ⟨v, hv, hids, hexact, hl, hok⟩ := of_call_some (c := c) h hp.outside hc
      obtain ⟨hleads, hok, htext⟩ := hinner h hs hids (fun hw => hexact (hw h)) hl (hp.of_nil hl hok)
      rw [hleads.cycles] at hn
      rw [trial_value ((hp.isOpen_iff h).mp ho) hs hv, Trial.swept, if_pos (by omega)]
      exact ⟨rfl, fun hw => congrArg some (htext hw), hleads, hok⟩

/-! ## Fewer in flight -/

theorem trial_of_subset (stack : List Nat) : ∀ {stack' : List Nat}, stack' ⊆ stack → ∀ id,
    (c.trial tier w stack id).trace.cycles = 0 → c.trial tier w stack' id = c.trial tier w stack id := by
  induction stack using reg.descent with
  | step stack ih =>
    intro stack' hsub id hc
    by_cases ho : reg.Opens tier w id
    · by_cases hs : id ∈ stack
      · rw [trial_cycle ho hs] at hc; cases hc
      · have hs' : id ∉ stack' := fun hm => hs (hsub hm)
        cases hv : (c.comes tier stack id).value? with
        | none =>
          rw [trial_missing ho hs hv] at hc
          have hcomes : c.comes tier stack' id = c.comes tier stack id := comes_of_subset hsub id hc
          rw [trial_missing ho hs hv, trial_missing ho hs' (by rw [hcomes, hv]), hcomes]
        | some r =>
          have hfound := Found.eq_value hv
          have hcomes : c.comes tier stack' id = .value r :=
            (comes_of_subset hsub id (by rw [hfound]; rfl)).trans hfound
          rw [trial_value ho hs hfound] at hc ⊢
          have hinner : ∀ k ∈ markerIds r.toText,
              c.trial tier w (id :: stack') k = c.trial tier w (id :: stack) k := fun k hk =>
            ih id ho.1 hs (List.cons_subset_cons id hsub) k (Trial.swept_cycles_eq_zero.mp hc k hk)
          rw [trial_value ho hs' hcomes]
          exact Trial.swept_congr id hinner
    · rw [trial_closed ho, trial_closed ho]

/-! ## What a sweep leaves -/

/-- Nothing comes of a marker of `id` that stands in the text itself. -/
def Dead (c : Planned reg ok) (tier : Tier) (w : List Nat) (id : Nat) : Prop := (c.trial tier w [] id).text = none

theorem dead_of_calm {stack : List Nat} {id : Nat} (hn : (c.trial tier w stack id).text = none)
    (hc : (c.trial tier w stack id).trace.cycles = 0) : c.Dead tier w id := by
  have h := trial_of_subset stack (List.nil_subset stack) id hc
  rw [Dead, h, hn]

end Planned

namespace Registry

/-- The id stands in a text that a placeholder gives which is expanded while the ids of `w` wait. -/
def Brings (reg : Registry σ) (ok : σ → Prop) (tier : Tier) (w : List Nat) (id : Nat) : Prop :=
  ∃ a r, reg.Opens tier w a ∧ reg.Gives ok tier a r ∧ id ∈ markerIds r.toText

end Registry

namespace Planned

variable {reg : Registry σ} {ok : σ → Prop} {c : Planned reg ok} {tier : Tier} {w : List Nat}

theorem expand_none_iff {stack : List Nat} {id : Nat} {p : Progress σ} (hp : p.Ready ok tier w) :
    (reg.expand tier stack id p).1 = none ↔ (c.trial tier w stack id).text = none := by
  rw [← Option.not_isSome_iff_eq_none, ← Option.not_isSome_iff_eq_none, (c.expand_shows stack id p hp).isSome]

theorem ready_expand (c : Planned reg ok) (stack : List Nat) (id : Nat) {p : Progress σ} (hp : p.Ready ok tier w) :
    (reg.expand tier stack id p).2.Ready ok tier w :=
  hp.expand stack (c.expand_shows stack id p hp).outside

theorem visits_ready (c : Planned reg ok) (stack : List Nat) {text : String} {p : Progress σ}
    (hp : p.Ready ok tier w) : ∀ v ∈ visits (reg.expand tier stack) (segments text) p,
      v.1 ∈ markerIds text ∧ v.2.Ready ok tier w :=
  visits_keeps (segments text) (fun k _ _ hp => c.ready_expand stack k hp) p hp

theorem sweep_leads (c : Planned reg ok) (text : String) {p : Progress σ} (hp : p.Ready ok tier w) :
    (Trace.total (fun k => (c.trial tier w [] k).trace) (markerIds text)).Leads p (reg.sweep tier text p).progress ∧
      (reg.sweep tier text p).progress.Ready ok tier w :=
  sweepSegments_leads (segments text) (fun k _ p hp => ⟨c.expand_shows [] k p hp, c.ready_expand [] k hp⟩) p hp

theorem sweep_dead {text : String} (h : ∀ k ∈ markerIds text, c.Dead tier w k) {p : Progress σ}
    (hp : p.Ready ok tier w) : (reg.sweep tier text p).text = text ∧ (reg.sweep tier text p).changed = false := by
  have hstep : ∀ k ∈ markerIds text, ∀ p, p.Ready ok tier w →
      (reg.expand tier [] k p).1 = none ∧ (reg.expand tier [] k p).2.Ready ok tier w := by
    intro k hk p hp
    exact ⟨(expand_none_iff hp).mpr (h k hk), c.ready_expand [] k hp⟩
  obtain ⟨hpieces, hchanged, -⟩ := sweepSegments_eq (f := fun _ => none) (segments text) hstep p hp
  constructor
  · exact (congrArg String.join hpieces).trans (replaceMarkers_none text)
  · rw [Registry.sweep, hchanged, List.any_eq_false]
    intro s _
    cases s <;> simp [Segment.id?]

theorem sweeps_dead {text : String} (h : ∀ k ∈ markerIds text, c.Dead tier w k) (count : Nat) {p : Progress σ}
    (hp : p.Ready ok tier w) : (reg.sweeps tier count text p).1 = text := by
  cases count with
  | zero => rfl
  | succ count =>
    obtain ⟨htext, hchanged⟩ := sweep_dead h hp
    rw [Registry.sweeps_succ, if_neg (by rw [hchanged]; exact Bool.false_ne_true)]
    exact htext

theorem sweeps_ready (c : Planned reg ok) (count : Nat) : ∀ (text : String) {p : Progress σ}, p.Ready ok tier w →
    (reg.sweeps tier count text p).2.Ready ok tier w := by
  induction count with
  | zero => exact fun _ _ hp => hp
  | succ count ih =>
    intro text p hp
    have hready := (c.sweep_leads text hp).2
    rw [Registry.sweeps_succ]
    split
    · exact ih _ hready
    · exact hready

variable (htidy : ∀ {a r}, reg.Gives ok tier a r → Tidy r.toText)
include htidy

/-- What is left in the text of an attempt failed deeper down without a cycle, so it fails anywhere. -/
theorem expand_left (c : Planned reg ok) (stack : List Nat) : ∀ id p text, p.Ready ok tier w →
    (reg.expand tier stack id p).1 = some text →
      Tidy text ∧ ∀ k ∈ markerIds text, c.Dead tier w k ∧ reg.Brings ok tier w k := by
  induction stack using reg.descent with
  | step stack ih =>
    intro id p text hp hsome
    have hshows := c.expand_shows stack id p hp
    generalize he : reg.expand tier stack id p = o at hsome hshows
    cases he ▸ reg.attempts tier stack id p with
    | unknown _ => cases hsome
    | closed _ _ => cases hsome
    | cycle _ _ _ => cases hsome
    | without _ _ _ _ => cases hsome
    | undone _ _ _ _ _ => cases hsome
    | @done h r q ho hs hc _ =>
      obtain rfl : (reg.inner tier stack id r q).text = text := Option.some.inj hsome
      have ho := (hp.isOpen_iff h).mp ho
      obtain ⟨v, hv, hids, -, hl, hok⟩ := of_call_some (c := c) h hp.outside hc
      have hgives : reg.Gives ok tier id r := ⟨h, stack, p, hp.outside, by rw [hc]⟩
      have hsucc := hshows.isSome
      rw [trial_value ho hs hv] at hsucc
      have hq : (q.registerAll r.imports).Ready ok tier w :=
        (hp.of_nil hl hok).of_nil (.registerAll q r.imports) hok
      refine sweepSegments_left (htidy hgives) _ (fun v hv hn => ?_) fun v hv t ht =>
        ih id h hs v.1 v.2 t (c.visits_ready (id :: stack) hq v hv).2 ht
      obtain ⟨hk, hp⟩ := c.visits_ready (id :: stack) hq v hv
      have hcalm := Trial.cycles_of_isSome hsucc.symm v.1 (hids ▸ hk)
      exact ⟨dead_of_calm ((expand_none_iff hp).mp hn) hcalm, id, r, ho, hgives, hk⟩

theorem sweep_left (c : Planned reg ok) {text : String} (ht : Tidy text) {p : Progress σ} (hp : p.Ready ok tier w) :
    Tidy (reg.sweep tier text p).text ∧ ∀ k ∈ markerIds (reg.sweep tier text p).text,
      c.Dead tier w k ∧ (k ∈ markerIds text ∨ reg.Brings ok tier w k) := by
  refine sweepSegments_left ht p (fun v hv hn => ?_) fun v hv t hsome => ?_
  · obtain ⟨hk, hp⟩ := c.visits_ready [] hp v hv
    exact ⟨(expand_none_iff hp).mp hn, .inl hk⟩
  · obtain ⟨htidy, hleft⟩ := c.expand_left htidy [] v.1 v.2 t (c.visits_ready [] hp v hv).2 hsome
    exact ⟨htidy, fun k hk => ⟨(hleft k hk).1, .inr (hleft k hk).2⟩⟩

/-- A tier is settled by its first sweep. -/
theorem sweeps_eq_sweep (c : Planned reg ok) {text : String} (ht : Tidy text) (count : Nat) {p : Progress σ}
    (hp : p.Ready ok tier w) : (reg.sweeps tier (count + 1) text p).1 = (reg.sweep tier text p).text := by
  obtain ⟨-, hleft⟩ := c.sweep_left htidy ht hp
  rw [Registry.sweeps_succ]
  split
  · exact sweeps_dead (fun k hk => (hleft k hk).1) count (c.sweep_leads text hp).2
  · rfl

end Planned

end Pipewright
