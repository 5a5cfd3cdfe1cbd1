import Pipewright.Proofs.Trials

/-!
# How far a marker depends on the rest of its text

Where no recipe reads what is imported, each tier substitutes a marker by a text
of its own, so the tiers go through two texts next to each other as through each
of them alone. All that the texts share is what waits for the last tier: what
gave up in one text is retried wherever it stands. Two texts are therefore
resolved apart as far as the last tier puts no marker into them that waits in only
one (`Planned.resolveText_append`).
-/

namespace Pipewright

variable {σ : Type} {reg : Registry σ} {ok : σ → Prop}

namespace Trial

theorem mem_failed_waits {id k : Nat} {t : Trace} :
    k ∈ (failed id t).trace.waits ↔ k ∈ t.waits ∨ 0 < t.requests ∧ k = id := by
  rw [failed]
  by_cases ht : 0 < t.requests
  · simp only [ht, if_true, true_and, List.mem_cons]
    exact or_comm
  · simp only [ht, if_false, false_and, or_false]

theorem swept_requests (id : Nat) (text : String) (trial : Nat → Trial) :
    (swept id text trial).trace.requests = (Trace.total (fun k => (trial k).trace) (markerIds text)).requests := by
  rw [swept]
  split <;> rfl

theorem mem_swept_waits {id k : Nat} {text : String} {trial : Nat → Trial}
    (h : k ∈ (swept id text trial).trace.waits) : (∃ j ∈ markerIds text, k ∈ (trial j).trace.waits) ∨
      0 < (swept id text trial).trace.requests ∧ k = id := by
  rw [swept_requests]
  rw [swept] at h
  split at h
  · exact .inl (Trace.mem_total_waits.mp h)
  · exact (mem_failed_waits.mp h).imp_left Trace.mem_total_waits.mp

end Trial

namespace Planned

variable {c : Planned reg ok} {tier : Tier} {w : List Nat}

/-! ## What waits -/

theorem requests_of_subset (stack : List Nat) : ∀ {stack' : List Nat}, stack' ⊆ stack → ∀ id,
    0 < (c.trial tier w stack id).trace.requests → 0 < (c.trial tier w stack' id).trace.requests := by
  induction stack using reg.descent with
  | step stack ih =>
    intro stack' hsub id hpos
    by_cases ho : reg.Opens tier w id
    · by_cases hs : id ∈ stack
      · rw [trial_cycle ho hs] at hpos; cases hpos
      · have hs' : id ∉ stack' := fun hm => hs (hsub hm)
        -- a request leaves no room for a cycle, so fewer in flight find the same
        have hcomes : (c.comes tier stack id).trace.cycles = 0 →
            c.comes tier stack' id = c.comes tier stack id := comes_of_subset hsub id
        cases hf : c.comes tier stack id with
        | value r =>
          rw [hf] at hcomes
          rw [trial_value ho hs hf, Trial.swept_requests, Trace.total_requests_pos] at hpos
          obtain ⟨k, hk, hpos⟩ := hpos
          rw [trial_value ho hs' (hcomes rfl), Trial.swept_requests, Trace.total_requests_pos]
          exact ⟨k, hk, ih id ho.1 hs (List.cons_subset_cons id hsub) k hpos⟩
        | early =>
          rw [hf] at hcomes
          rw [trial_missing ho hs' (by rw [hcomes rfl]; rfl), hcomes rfl]
          exact Nat.one_pos
        | absent => rw [trial_missing ho hs (by rw [hf]; rfl), hf] at hpos; cases hpos
        | looped => rw [trial_missing ho hs (by rw [hf]; rfl), hf] at hpos; cases hpos
    · rw [trial_closed ho] at hpos; cases hpos

theorem requests_of_waits (stack : List Nat) : ∀ id k, k ∈ (c.trial tier w stack id).trace.waits →
    ∃ stack, 0 < (c.trial tier w stack k).trace.requests := by
  induction stack using reg.descent with
  | step stack ih =>
    intro id k hk
    by_cases ho : reg.Opens tier w id
    · by_cases hs : id ∈ stack
      · rw [trial_cycle ho hs] at hk; cases hk
      · cases hv : (c.comes tier stack id).value? with
        | none =>
          have htrial := trial_missing ho hs hv
          rw [htrial, Trial.mem_failed_waits] at hk
          rcases hk with hk | ⟨hpos, rfl⟩
          · rw [Found.waits_eq_nil] at hk; cases hk
          · exact ⟨stack, by rw [htrial]; exact hpos⟩
        | some r =>
          have htrial := trial_value ho hs (Found.eq_value hv)
          rw [htrial] at hk
          rcases Trial.mem_swept_waits hk with ⟨j, -, hk⟩ | ⟨hpos, rfl⟩
          · exact ih id ho.1 hs j k hk
          · exact ⟨stack, by rw [htrial]; exact hpos⟩
    · rw [trial_closed ho] at hk; cases hk

theorem waits_of_dead {id : Nat} (hd : c.Dead tier w id) (hpos : 0 < (c.trial tier w [] id).trace.requests) :
    id ∈ (c.trial tier w [] id).trace.waits := by
  have hs : id ∉ ([] : List Nat) := List.not_mem_nil
  by_cases ho : reg.Opens tier w id
  · cases hv : (c.comes tier [] id).value? with
    | none =>
      rw [trial_missing ho hs hv] at hpos ⊢
      exact Trial.mem_failed_waits.mpr (.inr ⟨hpos, rfl⟩)
    | some r =>
      rw [Dead, trial_value ho hs (Found.eq_value hv)] at hd
      rw [trial_value ho hs (Found.eq_value hv)] at hpos ⊢
      rw [Trial.swept_requests] at hpos
      rw [Trial.swept] at hd ⊢
      split at hd
      · cases hd
      · rename_i hc
        rw [if_neg hc]
        exact Trial.mem_failed_waits.mpr (.inr ⟨hpos, rfl⟩)
  · rw [trial_closed ho] at hpos; cases hpos

/-! ## What a tier makes of a text -/

/-- The text with each marker replaced that a tier substitutes while the ids of `w` wait. -/
def settle (c : Planned reg ok) (tier : Tier) (w : List Nat) (text : String) : String :=
  replaceMarkers (fun k => (c.trial tier w [] k).text) text

def AwaitsIn (c : Planned reg ok) (tier : Tier) (w : List Nat) (text : String) (k : Nat) : Prop :=
  ∃ j ∈ markerIds text, k ∈ (c.trial tier w [] j).trace.waits

theorem normalTier_ready (c : Planned reg ok) (text : String) (imports : ImportScope) {outside : σ}
    (hok : ok outside) :
    (reg.normalTier text imports outside).2.Ready ok .last (reg.normalTier text imports outside).2.waiting := by
  have hstart : Progress.Ready ok .normal [] { imports, outside } := Progress.ready_normal hok []
  exact ⟨(c.sweeps_ready Registry.maxSweeps text hstart).outside, fun _ _ => Iff.rfl⟩

theorem settle_append {a : String} (ha : Tidy a) (b : String) :
    c.settle tier w (a ++ b) = c.settle tier w a ++ c.settle tier w b :=
  ha.replaceMarkers_append _ b

theorem awaitsIn_append {a b : String} (ha : Tidy a) (hb : Tidy b) {k : Nat} :
    c.AwaitsIn tier w (a ++ b) k ↔ c.AwaitsIn tier w a k ∨ c.AwaitsIn tier w b k := by
  unfold AwaitsIn
  rw [(tidy_append ha hb).2]
  simp only [List.mem_append, or_and_right, exists_or]

section
variable (hwhole : c.Whole)
include hwhole

theorem sweep_eq (text : String) {p : Progress σ} (hp : p.Ready ok tier w) :
    (reg.sweep tier text p).text = c.settle tier w text := by
  obtain ⟨hpieces, -⟩ := sweepSegments_eq (I := Progress.Ready ok tier w) (segments text)
    (fun k _ p hp => ⟨(c.expand_shows [] k p hp).text hwhole, c.ready_expand [] k hp⟩) p hp
  exact congrArg String.join hpieces

variable (htidy : ∀ {tier a r}, reg.Gives ok tier a r → Tidy r.toText)
include htidy

theorem settle_left {text : String} (ht : Tidy text) {p : Progress σ} (hp : p.Ready ok tier w) :
    Tidy (c.settle tier w text) ∧ ∀ k ∈ markerIds (c.settle tier w text), c.Dead tier w k := by
  obtain ⟨htidy', hleft⟩ := c.sweep_left htidy ht hp
  rw [sweep_eq hwhole text hp] at htidy' hleft
  exact ⟨htidy', fun k hk => (hleft k hk).1⟩

theorem sweeps_eq {text : String} (ht : Tidy text) (count : Nat) {p : Progress σ} (hp : p.Ready ok tier w) :
    (reg.sweeps tier (count + 1) text p).1 = c.settle tier w text :=
  (c.sweeps_eq_sweep htidy ht count hp).trans (sweep_eq hwhole text hp)

/-- Two sweeps come to rest, and both leave ids that wait. -/
theorem mem_waiting_sweeps {text : String} (ht : Tidy text) (count : Nat) {p : Progress σ} (hp : p.Ready ok tier w)
    (k : Nat) : k ∈ (reg.sweeps tier (count + 2) text p).2.waiting ↔
      k ∈ p.waiting ∨ c.AwaitsIn tier w text k ∨ c.AwaitsIn tier w (c.settle tier w text) k := by
  obtain ⟨hfirst, hready⟩ := c.sweep_leads text hp
  have htext := sweep_eq hwhole text hp
  have hw : k ∈ (reg.sweep tier text p).progress.waiting ↔ k ∈ p.waiting ∨ c.AwaitsIn tier w text k := by
    rw [hfirst.waiting, Trace.mem_total_waits, AwaitsIn]
  rw [Registry.sweeps_succ]
  split
  · obtain ⟨hsecond, -⟩ := c.sweep_leads (c.settle tier w text) hready
    obtain ⟨-, hrest⟩ := sweep_dead (settle_left hwhole htidy ht hp).2 hready
    rw [htext, Registry.sweeps_succ, if_neg (by rw [hrest]; exact Bool.false_ne_true), hsecond.waiting,
      Trace.mem_total_waits, hw, or_assoc]
    rfl
  · rename_i hchanged
    obtain ⟨hpieces, -⟩ := sweepSegments_unchanged (I := fun _ => True) (fun _ _ _ _ => trivial) (segments text) p
      trivial (Bool.eq_false_iff.mpr hchanged)
    have hsame : c.settle tier w text = text := by
      rw [← htext, Registry.sweep, Sweep.text, hpieces, join_segments]
    rw [hw, hsame, or_self]

/-! ## The normal tier -/

variable {text : String} (ht : Tidy text) (imports : ImportScope) {outside : σ} (hok : ok outside)
include ht hok

theorem normalTier_eq : (reg.normalTier text imports outside).1 = c.settle .normal [] text :=
  sweeps_eq hwhole htidy ht 63 (Progress.ready_normal hok [])

theorem mem_normalTier_waiting (k : Nat) : k ∈ (reg.normalTier text imports outside).2.waiting ↔
    c.AwaitsIn .normal [] text k ∨ c.AwaitsIn .normal [] (c.settle .normal [] text) k := by
  have hstart : Progress.Ready ok .normal [] { imports, outside } := Progress.ready_normal hok []
  exact (mem_waiting_sweeps hwhole htidy ht 62 hstart k).trans (or_iff_right List.not_mem_nil)

/-- A marker that the normal tier leaves waits if it waits in any text. -/
theorem waiting_of_left {k : Nat} (hk : k ∈ markerIds (reg.normalTier text imports outside).1)
    (hwaits : ∃ j stack, k ∈ (c.trial .normal [] stack j).trace.waits) :
    k ∈ (reg.normalTier text imports outside).2.waiting := by
  have hstart : Progress.Ready ok .normal [] { imports, outside } := Progress.ready_normal hok []
  obtain ⟨j, stack, hj⟩ := hwaits
  obtain ⟨stack, hpos⟩ := requests_of_waits stack j k hj
  rw [normalTier_eq hwhole htidy ht imports hok] at hk
  have hdead := (settle_left hwhole htidy ht hstart).2 k hk
  have hwaits := waits_of_dead hdead (requests_of_subset stack (List.nil_subset stack) k hpos)
  exact (mem_normalTier_waiting hwhole htidy ht imports hok k).mpr (.inr ⟨k, hk, hwaits⟩)

theorem normalTier_tidy : Tidy (reg.normalTier text imports outside).1 := by
  have hstart : Progress.Ready ok .normal [] { imports, outside } := Progress.ready_normal hok []
  rw [normalTier_eq hwhole htidy ht imports hok]
  exact (settle_left hwhole htidy ht hstart).1

theorem resolveText_eq_settle (hw : ∀ k, k ∈ (reg.normalTier text imports outside).2.waiting ↔ k ∈ w) :
    (reg.resolveText text imports outside).text = c.settle .last w (reg.normalTier text imports outside).1 := by
  have hready := c.normalTier_ready text imports hok
  exact sweeps_eq hwhole htidy (normalTier_tidy hwhole htidy ht imports hok) 63 ⟨hready.outside, fun _ => hw⟩

end

/-! ## What waits elsewhere -/

theorem text_of_cycles {stack : List Nat} {id : Nat} (hc : (c.trial tier w stack id).trace.cycles ≠ 0) :
    (c.trial tier w stack id).text = none := by
  by_cases ho : reg.Opens tier w id
  · by_cases hs : id ∈ stack
    · rw [trial_cycle ho hs]
    · cases hv : (c.comes tier stack id).value? with
      | none => rw [trial_missing ho hs hv]; rfl
      | some r =>
        rw [trial_value ho hs (Found.eq_value hv), Trial.swept_cycles] at hc
        rw [trial_value ho hs (Found.eq_value hv), Trial.swept, if_neg hc]
        rfl
  · rw [trial_closed ho]

theorem call_of_comes (hwhole : c.Whole) {stack : List Nat} {id : Nat} (h : id < reg.size) {r : Resolved}
    (hc : c.comes tier stack id = .value r) {p : Progress σ} (hp : p.Ready ok tier w) :
    ∃ q, reg.call tier stack h p = (some r, q) ∧ q.Ready ok tier w := by
  obtain ⟨plan, hplan⟩ := Option.ne_none_iff_exists'.mp (hwhole h)
  have hs : (c.comes tier stack id).Shows ok p (reg.call tier stack h p) := call_shows h hplan p hp.outside
  rw [hc] at hs
  exact ⟨(reg.call tier stack h p).2, Prod.ext hs.value rfl, hp.of_nil hs.leads hs.outside⟩

section
variable {w' : List Nat} (hgrow : w ⊆ w')
include hgrow

/-- The more waits, the more is opened, and the more cycles are met. -/
theorem cycles_of_grown (stack : List Nat) : ∀ id, (c.trial tier w' stack id).trace.cycles = 0 →
    (c.trial tier w stack id).trace.cycles = 0 := by
  induction stack using reg.descent with
  | step stack ih =>
    intro id hc
    by_cases ho : reg.Opens tier w id
    · have ho' : reg.Opens tier w' id := ⟨ho.1, ho.2.imp_right fun hw => ⟨hw.1, hgrow hw.2⟩⟩
      by_cases hs : id ∈ stack
      · rw [trial_cycle ho' hs] at hc; cases hc
      · cases hv : (c.comes tier stack id).value? with
        | none =>
          rw [trial_missing ho' hs hv] at hc
          rw [trial_missing ho hs hv]
          exact hc
        | some r =>
          rw [trial_value ho' hs (Found.eq_value hv)] at hc
          rw [trial_value ho hs (Found.eq_value hv), Trial.swept_cycles_eq_zero]
          exact fun k hk => ih id ho.1 hs k (Trial.swept_cycles_eq_zero.mp hc k hk)
    · rw [trial_closed ho]

variable (hwhole : c.Whole)
include hwhole

/-- Attempts without a cycle come to the same if each marker that they put into the text waits on both sides or on
neither. -/
theorem trial_of_grown (stack : List Nat) : ∀ {text : String} {p : Progress σ}, p.Ready ok .last w →
    (∀ k ∈ markerIds text, k ∈ w' → k ∈ w) →
    (∀ a r, reg.Replaces .last stack text p a r → ∀ k ∈ markerIds r.toText, k ∈ w' → k ∈ w) →
    ∀ k ∈ markerIds text, (c.trial .last w stack k).trace.cycles = 0 →
      c.trial .last w stack k = c.trial .last w' stack k := by
  induction stack using reg.descent with
  | step stack ih =>
    intro text p hp hmeets hputs k hk hc
    have hopens : reg.Opens .last w k ↔ reg.Opens .last w' k := by
      rw [Registry.Opens, Registry.Opens]
      exact and_congr_right fun _ => or_congr_right (and_congr_right fun _ => ⟨fun h => hgrow h, hmeets k hk⟩)
    by_cases ho : reg.Opens .last w k
    · have ho' := hopens.mp ho
      by_cases hs : k ∈ stack
      · rw [trial_cycle ho hs] at hc; cases hc
      · cases hv : (c.comes .last stack k).value? with
        | none => rw [trial_missing ho hs hv, trial_missing ho' hs hv]
        | some r =>
          have hcomes := Found.eq_value hv
          have htrial := trial_value ho hs hcomes
          rw [htrial] at hc
          rw [htrial, trial_value ho' hs hcomes]
          -- the attempt succeeds, so what stands for `r` is put into the text
          obtain ⟨start, hvisit⟩ : ∃ start, (k, start) ∈ visits (reg.expand .last stack) (segments text) p :=
            mem_visits (segments text) p hk
          obtain ⟨-, hstart⟩ := c.visits_ready stack hp _ hvisit
          obtain ⟨q, hcall, hq⟩ := call_of_comes hwhole ho.1 hcomes hstart
          have hfills : reg.Fills .last stack text p k r q := by
            refine ⟨ho.1, start, hvisit, hcall, fun hn => ?_⟩
            rw [expand_none_iff hstart, htrial, Trial.swept, if_pos (Trial.swept_cycles ▸ hc)] at hn
            cases hn
          exact Trial.swept_congr k fun j hj =>
            ih k ho.1 hs (hq.of_nil (.registerAll q r.imports) hq.outside) (hputs k r (.here hfills))
              (fun a v hr => hputs a v (.inside hfills hr)) j hj (Trial.swept_cycles_eq_zero.mp hc j hj)
    · rw [trial_closed ho, trial_closed (mt hopens.mpr ho)]

/-- The last tier does the same with a text if more waits, as long as it puts nothing of that into the text. -/
theorem settle_of_grown {text : String} {p : Progress σ} (hp : p.Ready ok .last w)
    (hmeets : ∀ k ∈ markerIds text, k ∈ w' → k ∈ w)
    (hputs : ∀ a r, reg.Replaces .last [] text p a r → ∀ k ∈ markerIds r.toText, k ∈ w' → k ∈ w) :
    c.settle .last w text = c.settle .last w' text := by
  apply replaceMarkers_congr
  intro k hk
  by_cases hc : (c.trial .last w [] k).trace.cycles = 0
  · rw [trial_of_grown hgrow hwhole [] hp hmeets hputs k hk hc]
  · rw [text_of_cycles hc, text_of_cycles (mt (cycles_of_grown hgrow [] k) hc)]

end

/-! ## Two texts -/

section
variable (hwhole : c.Whole) (htidy : ∀ {tier a r}, reg.Gives ok tier a r → Tidy r.toText) {a b : String} (ha : Tidy a)
  (hb : Tidy b) (i ia ib : ImportScope) {o oa ob : σ} (ho : ok o) (hoa : ok oa) (hob : ok ob)
include hwhole htidy ha hb hoa hob

/-- A marker that is left of a text and waits in another one waits in its own too. -/
theorem waiting_of_both : ∀ k ∈ markerIds (reg.normalTier a ia oa).1, k ∈ (reg.normalTier b ib ob).2.waiting →
    k ∈ (reg.normalTier a ia oa).2.waiting := by
  intro k hk hw
  apply waiting_of_left hwhole htidy ha ia hoa hk
  rcases (mem_normalTier_waiting hwhole htidy hb ib hob k).mp hw with ⟨j, -, hj⟩ | ⟨j, -, hj⟩
  · exact ⟨j, [], hj⟩
  · exact ⟨j, [], hj⟩

/-- A text comes out the same if what waits in another one waits too, as long as the last tier puts nothing of that
into it. -/
theorem resolveText_beside
    (hw : ∀ k, k ∈ w ↔ k ∈ (reg.normalTier a ia oa).2.waiting ∨ k ∈ (reg.normalTier b ib ob).2.waiting)
    (hputs : ∀ x r, reg.ReplacesLate a ia oa x r → ∀ k ∈ markerIds r.toText,
      k ∈ (reg.normalTier b ib ob).2.waiting → k ∈ (reg.normalTier a ia oa).2.waiting) :
    (reg.resolveText a ia oa).text = c.settle .last w (reg.normalTier a ia oa).1 := by
  have hmeets := waiting_of_both hwhole htidy ha hb ia ib hoa hob
  rw [resolveText_eq_settle hwhole htidy ha ia hoa fun _ => Iff.rfl]
  apply settle_of_grown (fun k hk => (hw k).mpr (.inl hk)) hwhole (c.normalTier_ready a ia hoa)
  · intro k hk hkw
    exact ((hw k).mp hkw).elim (fun h => h) (hmeets k hk)
  · intro x r hr k hk hkw
    exact ((hw k).mp hkw).elim (fun h => h) (hputs x r (.first hr) k hk)

include ho

theorem normalTier_append : (reg.normalTier (a ++ b) i o).1 = (reg.normalTier a ia oa).1 ++ (reg.normalTier b ib ob).1 ∧
    ∀ k, k ∈ (reg.normalTier (a ++ b) i o).2.waiting ↔
      k ∈ (reg.normalTier a ia oa).2.waiting ∨ k ∈ (reg.normalTier b ib ob).2.waiting := by
  have hab := (tidy_append ha hb).1
  have hsettled := normalTier_tidy hwhole htidy ha ia hoa
  have hsettled' := normalTier_tidy hwhole htidy hb ib hob
  rw [normalTier_eq hwhole htidy ha ia hoa] at hsettled ⊢
  rw [normalTier_eq hwhole htidy hb ib hob] at hsettled' ⊢
  rw [normalTier_eq hwhole htidy hab i ho, settle_append ha b]
  refine ⟨rfl, fun k => ?_⟩
  rw [mem_normalTier_waiting hwhole htidy hab i ho, mem_normalTier_waiting hwhole htidy ha ia hoa,
    mem_normalTier_waiting hwhole htidy hb ib hob, settle_append ha b, awaitsIn_append ha hb,
    awaitsIn_append hsettled hsettled']
  exact or_or_or_comm

end

/-- The last tier goes through two texts next to each other as through each of them alone, if what gave up in
either is retried in both. They are resolved apart if each marker that the last tier puts into either of them waits
in both or in neither. -/
theorem resolveText_append (c : Planned reg ok) (hwhole : c.Whole)
    (htidy : ∀ {tier a r}, reg.Gives ok tier a r → Tidy r.toText) {a b : String} (ha : Tidy a) (hb : Tidy b)
    (i ia ib : ImportScope) {o oa ob : σ} (ho : ok o) (hoa : ok oa) (hob : ok ob) :
    (∀ p : Progress σ, ok p.outside →
      (∀ k, k ∈ p.waiting ↔
        k ∈ (reg.normalTier a ia oa).2.waiting ∨ k ∈ (reg.normalTier b ib ob).2.waiting) →
      (reg.resolveText (a ++ b) i o).text =
        (reg.sweeps .last Registry.maxSweeps (reg.normalTier a ia oa).1 p).1 ++
          (reg.sweeps .last Registry.maxSweeps (reg.normalTier b ib ob).1 p).1) ∧
    ((∀ x r, (reg.ReplacesLate a ia oa x r ∨ reg.ReplacesLate b ib ob x r) → ∀ k ∈ markerIds r.toText,
        (k ∈ (reg.normalTier a ia oa).2.waiting ↔ k ∈ (reg.normalTier b ib ob).2.waiting)) →
      (reg.resolveText (a ++ b) i o).text =
        (reg.resolveText a ia oa).text ++ (reg.resolveText b ib ob).text) := by
  obtain ⟨htext, hwaiting⟩ := normalTier_append hwhole htidy ha hb i ia ib ho hoa hob
  have hta := normalTier_tidy hwhole htidy ha ia hoa
  have htb := normalTier_tidy hwhole htidy hb ib hob
  have hboth := resolveText_eq_settle hwhole htidy (tidy_append ha hb).1 i ho
    fun k => (hwaiting k).trans List.mem_append.symm
  rw [hboth, htext, settle_append hta]
  refine ⟨fun p hok hp => ?_, fun hputs => ?_⟩
  · have hready : p.Ready ok .last
        ((reg.normalTier a ia oa).2.waiting ++ (reg.normalTier b ib ob).2.waiting) :=
      ⟨hok, fun _ k => (hp k).trans List.mem_append.symm⟩
    rw [← sweeps_eq hwhole htidy hta 63 hready, ← sweeps_eq hwhole htidy htb 63 hready]
    rfl
  · have hfirst := resolveText_beside hwhole htidy ha hb ia ib hoa hob (fun _ => List.mem_append)
      fun x r hr k hk => (hputs x r (.inl hr) k hk).mpr
    have hsecond := resolveText_beside hwhole htidy hb ha ib ia hob hoa (fun _ => List.mem_append.trans or_comm)
      fun x r hr k hk => (hputs x r (.inr hr) k hk).mp
    rw [hfirst, hsecond]

end Planned

namespace Registry

def retrying (held : String) : Registry Unit :=
  ⟨#[⟨.last, .give (some (.text "v"))⟩,
    ⟨.normal, .needing (.later ⟨0, .last⟩) fun v => .give (some (.text ("x" ++ v.toText)))⟩,
    ⟨.last, .give (some (.text held))⟩]⟩

namespace retrying

variable {held : String}

def plan? (held : String) : Nat → Option Plan
  | 0 => some (.give (some (.text "v")))
  | 1 => some (.need (.later ⟨0, .last⟩) fun v => .give (some (.text ("x" ++ v.toText))))
  | 2 => some (.give (some (.text held)))
  | _ => none

theorem cases_lt {a : Nat} (h : a < (retrying held).size) : a = 0 ∨ a = 1 ∨ a = 2 := by
  have : a < 3 := h
  omega

theorem plan?_ne_none {a : Nat} (h : a < (retrying held).size) : plan? held a ≠ none := by
  rcases cases_lt h with rfl | rfl | rfl
  · exact Option.some_ne_none _
  · exact Option.some_ne_none _
  · exact Option.some_ne_none _

def planned (held : String) : Planned (retrying held) fun _ => True where
  plan? := plan? held
  follows {id} h {plan} hp := by
    rcases cases_lt h with rfl | rfl | rfl
    · exact (Option.some.inj hp).symm
    · obtain rfl := Option.some.inj hp
      exact Recipe.follows_needing fun v => rfl
    · exact (Option.some.inj hp).symm
  reads h hp := absurd hp (plan?_ne_none h)
  asks {id} h {plan} hp := by
    rcases cases_lt h with rfl | rfl | rfl
    · obtain rfl := Option.some.inj hp; trivial
    · obtain rfl := Option.some.inj hp
      exact ⟨fun d _ hd => plan?_ne_none hd, fun v => trivial⟩
    · obtain rfl := Option.some.inj hp; trivial

theorem whole : (planned held).Whole := plan?_ne_none

theorem of_gives {ok : Unit → Prop} {tier : Tier} {a : Nat} {r : Resolved} (h : (retrying held).Gives ok tier a r) :
    a = 0 ∧ r = .text "v" ∨ a = 1 ∧ r = .text "xv" ∨ a = 2 ∧ r = .text held := by
  obtain ⟨ha, stack, p, -, hr⟩ := h
  rcases cases_lt ha with rfl | rfl | rfl
  · exact .inl ⟨rfl, (Option.some.inj hr).symm⟩
  · change (Recipe.run _ _ (Recipe.needing _ _) p).1 = some r at hr
    simp only [Recipe.needing, Recipe.run] at hr
    rcases (retrying held).resolve_eq_call tier (1 :: stack) 0 .last p with hf | ⟨h0, hf⟩
    · simp only [hf] at hr; cases hr
    · have hv : ((retrying held).call tier (1 :: stack) h0 p).1 = some (.text "v") := rfl
      simp only [hf, hv] at hr
      exact .inr (.inl ⟨rfl, (Option.some.inj hr).symm⟩)
  · exact .inr (.inr ⟨rfl, (Option.some.inj hr).symm⟩)

theorem tidy (hheld : Tidy held) {ok : Unit → Prop} {tier : Tier} {a : Nat} {r : Resolved}
    (h : (retrying held).Gives ok tier a r) : Tidy r.toText := by
  rcases of_gives h with ⟨-, rfl⟩ | ⟨-, rfl⟩ | ⟨-, rfl⟩
  · decide +kernel
  · decide +kernel
  · exact hheld

theorem markerIds_of_gives {ok : Unit → Prop} {tier : Tier} {a : Nat} {r : Resolved} (ha : a ≠ 2)
    (h : (retrying held).Gives ok tier a r) : markerIds r.toText = [] := by
  rcases of_gives h with ⟨-, rfl⟩ | ⟨-, rfl⟩ | ⟨rfl, -⟩
  · decide +kernel
  · decide +kernel
  · exact absurd rfl ha

end retrying

end Registry

namespace Planned

open Registry

/-- A third placeholder holds a marker that waits in one of the texts only, but the last tier does not come to it. -/
theorem resolveText_append_retrying :
    have reg := retrying "<@vg#1#@>"
    have p : Progress Unit := { imports := .empty, waiting := [1], outside := () }
    (reg.resolveText ("<@vg#1#@>" ++ "<@vg#0#@>") .empty ()).text =
        (reg.sweeps .last maxSweeps (reg.normalTier "<@vg#1#@>" .empty ()).1 p).1 ++
          (reg.sweeps .last maxSweeps (reg.normalTier "<@vg#0#@>" .empty ()).1 p).1 ∧
      (reg.resolveText ("<@vg#1#@>" ++ "<@vg#0#@>") .empty ()).text =
        (reg.resolveText "<@vg#1#@>" .empty ()).text ++ (reg.resolveText "<@vg#0#@>" .empty ()).text ∧
      (reg.resolveText ("<@vg#1#@>" ++ "<@vg#0#@>") .empty ()).text = "xvv" := by
  intro reg p
  have hheld : Tidy "<@vg#1#@>" := by decide +kernel
  have hfirst : (reg.normalTier "<@vg#1#@>" .empty ()).2.waiting = [1] := by decide +kernel
  have hsecond : (reg.normalTier "<@vg#0#@>" .empty ()).2.waiting = [] := by decide +kernel
  -- what the last tier puts into a text without a marker of the third placeholder holds no marker
  have hputs : ∀ {text : String} {x r}, Tidy (reg.normalTier text .empty ()).1 →
      (∀ k ∈ markerIds (reg.normalTier text .empty ()).1, k ≠ 2) → reg.ReplacesLate text .empty () x r →
        markerIds r.toText = [] := by
    intro text x r ht hids hr
    have hclosed : ∀ {a r}, a ≠ 2 → reg.Gives (fun _ => True) .last a r → ∀ k ∈ markerIds r.toText, k ≠ 2 := by
      intro a r ha hg k hk
      rw [retrying.markerIds_of_gives ha hg] at hk
      cases hk
    obtain ⟨hx, hg⟩ := hr.gives (retrying.planned _).confined (retrying.tidy hheld) hclosed ht trivial hids
    exact retrying.markerIds_of_gives hx hg
  obtain ⟨hboth, happend⟩ := (retrying.planned "<@vg#1#@>").resolveText_append retrying.whole (retrying.tidy hheld)
    (show Tidy "<@vg#1#@>" by decide +kernel) (show Tidy "<@vg#0#@>" by decide +kernel) .empty .empty .empty
    trivial trivial trivial
  refine ⟨hboth p trivial fun k => ?_, happend fun x r hr k hk => ?_, by decide +kernel⟩
  · rw [hfirst, hsecond]
    simp [p]
  · rcases hr with hr | hr
    · rw [hputs (by decide +kernel) (by decide +kernel) hr] at hk; cases hk
    · rw [hputs (by decide +kernel) (by decide +kernel) hr] at hk; cases hk

/-- Resolving apart fails where the last tier puts a marker into one text that waits in the other. -/
theorem not_resolveText_append :
    (retrying.planned "<@vg#1#@>").Whole ∧
      (∀ tier a r, (retrying "<@vg#1#@>").Gives (fun _ => True) tier a r → Tidy r.toText) ∧
      Tidy "<@vg#1#@>" ∧ Tidy "<@vg#2#@>" ∧
      ((retrying "<@vg#1#@>").resolveText ("<@vg#1#@>" ++ "<@vg#2#@>") .empty ()).text ≠
        ((retrying "<@vg#1#@>").resolveText "<@vg#1#@>" .empty ()).text ++
          ((retrying "<@vg#1#@>").resolveText "<@vg#2#@>" .empty ()).text := by
  have htidy : Tidy "<@vg#1#@>" := by decide +kernel
  exact ⟨retrying.whole, fun _ _ _ hg => retrying.tidy htidy hg, htidy, by decide +kernel, by decide +kernel⟩

end Planned

end Pipewright
