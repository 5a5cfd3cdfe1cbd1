import Mathlib.Data.Finset.Card
import Mathlib.Logic.Relation
import Pipewright.Proofs.Attempts
import Pipewright.Proofs.Segments

/-!
# Constant placeholders

Where every placeholder always gives the same, resolution has a meaning of its
own: `Constants.substitute` replaces each marker by the substituted text behind
it, except where a cycle can be reached. Expansion with its stack and its count
of cycles computes just that (`Constants.expand_eq`), one sweep of a tier reaches
the fixed point, and the two tiers are two substitutions
(`Constants.resolveText_eq_substitute`).
-/

namespace Pipewright

open Relation

variable {σ : Type}

def Recipe.Always (result : Option Resolved) : Recipe σ → Prop
  | give found => found = result
  | look k => ∀ v, (k v).Always result
  | register _ k => ∀ isNew, (k isNew).Always result
  | ask _ _ => False
  | load k => ∀ s, (k s).Always result
  | store _ next => next.Always result

theorem Recipe.run_always {view : Progress σ → View} {answer : Resolvable → Progress σ → Option Resolved × Progress σ}
    {result : Option Resolved} (recipe : Recipe σ) (h : recipe.Always result) (p : Progress σ) :
    (recipe.run view answer p).1 = result ∧ (recipe.run view answer p).2.cycles = p.cycles ∧
      (recipe.run view answer p).2.deferred = p.deferred ∧ (recipe.run view answer p).2.waiting = p.waiting := by
  induction recipe generalizing p with
  | give found => exact ⟨h, rfl, rfl, rfl⟩
  | look k ih => exact ih _ (h _) p
  | register ty k ih => exact ih _ (h _) (p.registerAll [ty])
  | ask r k ih => exact h.elim
  | load k ih => exact ih _ (h _) p
  | store s next ih => exact ih h { p with outside := s }

structure Constants (reg : Registry σ) where
  given : Nat → Option Resolved
  always : ∀ {id} (h : id < reg.size), reg.entries[id].recipe.Always (given id)

namespace Constants

variable {reg : Registry σ} (c : Constants reg) (tier : Tier)

/-- The text behind the markers of an id that is registered in a tier and gives something. -/
def text? (id : Nat) : Option String :=
  if reg.tier? id = some tier then (c.given id).map Resolved.toText else none

def Holds (a b : Nat) : Prop := ∃ text, c.text? tier a = some text ∧ b ∈ markerIds text

/-- No cycle can be reached from an id. -/
def Settled (id : Nat) : Prop := ∀ k, ReflTransGen (c.Holds tier) id k → ¬ TransGen (c.Holds tier) k k

open Classical in
noncomputable def reachable (id : Nat) : Finset Nat :=
  (Finset.range reg.size).filter fun k => ReflTransGen (c.Holds tier) id k

variable {c tier}

theorem text?_eq_some_iff {id : Nat} {text : String} :
    c.text? tier id = some text ↔
      ∃ (h : id < reg.size) (r : Resolved), reg.entries[id].tier = tier ∧ c.given id = some r ∧ r.toText = text := by
  unfold text?
  constructor
  · intro h
    split at h
    · rename_i ht
      obtain ⟨hid, ht⟩ := (reg.tier?_eq_some_iff).mp ht
      obtain ⟨r, hr, rfl⟩ := Option.map_eq_some_iff.mp h
      exact ⟨hid, r, ht, hr, rfl⟩
    · cases h
  · rintro ⟨hid, r, ht, hr, rfl⟩
    rw [if_pos ((reg.tier?_eq_some_iff).mpr ⟨hid, ht⟩), hr]
    rfl

theorem text?_eq {id : Nat} (h : id < reg.size) (ht : reg.entries[id].tier = tier) :
    c.text? tier id = (c.given id).map Resolved.toText := by
  rw [text?, if_pos ((reg.tier?_eq_some_iff).mpr ⟨h, ht⟩)]

theorem Settled.of_holds {a b : Nat} (ha : c.Settled tier a) (h : c.Holds tier a b) : c.Settled tier b :=
  fun k hk => ha k (hk.head h)

theorem Settled.not_reaches {a b : Nat} (ha : c.Settled tier a) (h : c.Holds tier a b) :
    ¬ ReflTransGen (c.Holds tier) b a :=
  fun hba => ha a .refl (TransGen.head' h hba)

theorem card_reachable_lt {a b : Nat} (ha : c.Settled tier a) (h : c.Holds tier a b) :
    (c.reachable tier b).card < (c.reachable tier a).card := by
  classical
  obtain ⟨hid, _⟩ := text?_eq_some_iff.mp h.choose_spec.1
  apply Finset.card_lt_card
  rw [Finset.ssubset_iff_of_subset]
  · refine ⟨a, ?_, ?_⟩
    · simp [reachable, hid, ReflTransGen.refl]
    · simp [reachable, ha.not_reaches h]
  · intro k hk
    simp only [reachable, Finset.mem_filter] at hk ⊢
    exact ⟨hk.1, hk.2.head h⟩

/-! ## Deciding whether a cycle can be reached -/

def endsWithin (c : Constants reg) (tier : Tier) : Nat → Nat → Bool
  | 0, id => (c.text? tier id).isNone
  | n + 1, id =>
    match c.text? tier id with
    | none => true
    | some text => (markerIds text).all (endsWithin c tier n)

theorem endsWithin_of_holds {n a b : Nat} (ha : c.endsWithin tier n a = true) (h : c.Holds tier a b) :
    ∃ m, n = m + 1 ∧ c.endsWithin tier m b = true := by
  obtain ⟨text, ht, hb⟩ := h
  cases n with
  | zero => rw [endsWithin, ht] at ha; cases ha
  | succ m =>
    simp only [endsWithin, ht, List.all_eq_true] at ha
    exact ⟨m, rfl, ha b hb⟩

theorem endsWithin_of_reaches {n a b : Nat} (ha : c.endsWithin tier n a = true)
    (h : ReflTransGen (c.Holds tier) a b) : ∃ m ≤ n, c.endsWithin tier m b = true := by
  induction h with
  | refl => exact ⟨n, Nat.le_refl n, ha⟩
  | tail _ h ih =>
    obtain ⟨m, hm, hb⟩ := ih
    obtain ⟨m', rfl, hc⟩ := endsWithin_of_holds hb h
    exact ⟨m', by omega, hc⟩

theorem not_cycle_of_endsWithin {n : Nat} :
    ∀ {k}, c.endsWithin tier n k = true → ¬ TransGen (c.Holds tier) k k := by
  induction n using Nat.strongRecOn with
  | ind n ih =>
    intro k hk hcycle
    obtain ⟨b, hb, hback⟩ := TransGen.head'_iff.mp hcycle
    obtain ⟨m, rfl, hm⟩ := endsWithin_of_holds hk hb
    obtain ⟨m', hm', hk'⟩ := endsWithin_of_reaches hm hback
    exact ih m' (by omega) hk' hcycle

theorem endsWithin_of_settled {n : Nat} : ∀ {id}, c.Settled tier id → (c.reachable tier id).card ≤ n →
    c.endsWithin tier n id = true := by
  induction n with
  | zero =>
    intro id _ hn
    cases ht : c.text? tier id with
    | none => simp [endsWithin, ht]
    | some text =>
      obtain ⟨hid, _⟩ := text?_eq_some_iff.mp ht
      have hmem : id ∈ c.reachable tier id := by simp [reachable, hid, ReflTransGen.refl]
      rw [Finset.card_eq_zero.mp (Nat.le_zero.mp hn)] at hmem
      cases hmem
  | succ n ih =>
    intro id hs hn
    cases ht : c.text? tier id with
    | none => simp [endsWithin, ht]
    | some text =>
      simp only [endsWithin, ht, List.all_eq_true]
      intro b hb
      have hlt := card_reachable_lt hs ⟨text, ht, hb⟩
      exact ih (hs.of_holds ⟨text, ht, hb⟩) (by omega)

theorem endsWithin_size_iff {id : Nat} : c.endsWithin tier reg.size id = true ↔ c.Settled tier id := by
  constructor
  · intro h k hk
    obtain ⟨m, _, hm⟩ := endsWithin_of_reaches h hk
    exact not_cycle_of_endsWithin hm
  · intro h
    refine endsWithin_of_settled h ?_
    classical
    calc (c.reachable tier id).card ≤ (Finset.range reg.size).card := Finset.card_le_card (Finset.filter_subset _ _)
      _ = reg.size := Finset.card_range _

instance (id : Nat) : Decidable (c.Settled tier id) := decidable_of_iff _ endsWithin_size_iff

/-! ## Substitution -/

variable (c tier)

/-- What the marker of an id gives way to: the text behind it with its own markers replaced, where no
cycle can be reached. -/
def outcome (id : Nat) : Option String :=
  match ht : c.text? tier id with
  | none => none
  | some text =>
    if hs : c.Settled tier id then
      some (String.join ((segments text).attach.map fun s =>
        match hk : s.1 with
        | .plain t => t
        | .marker k raw =>
          have := card_reachable_lt hs ⟨text, ht, List.mem_filterMap.mpr ⟨s.1, s.2, by rw [hk]; rfl⟩⟩
          (outcome k).getD raw))
    else none
termination_by (c.reachable tier id).card

def substitute (text : String) : String := String.join ((segments text).map (Segment.replace (c.outcome tier)))

variable {c tier}

theorem outcome_eq (id : Nat) :
    c.outcome tier id = if c.Settled tier id then (c.text? tier id).map (c.substitute tier) else none := by
  rw [outcome]
  split
  · rename_i ht
    rw [ht, Option.map_none, ite_self]
  · rename_i text ht
    have hmap : (c.text? tier id).map (c.substitute tier) = some (c.substitute tier text) := by rw [ht]; rfl
    by_cases hs : c.Settled tier id
    · rw [dif_pos hs, if_pos hs]
      refine Eq.trans (congrArg (fun pieces => some (String.join pieces)) ?_) hmap.symm
      calc _ = (segments text).attach.map (fun s => Segment.replace (c.outcome tier) s.1) :=
            List.map_congr_left fun ⟨s, _⟩ _ => by cases s <;> rfl
        _ = (segments text).map (Segment.replace (c.outcome tier)) := List.attach_map_val
    · rw [dif_neg hs, if_neg hs]

theorem outcome_eq_none {id : Nat} (h : c.text? tier id = none) : c.outcome tier id = none := by
  rw [outcome_eq, h, Option.map_none, ite_self]

theorem outcome_eq_some_iff {id : Nat} {text : String} :
    c.outcome tier id = some text ↔
      c.Settled tier id ∧ ∃ behind, c.text? tier id = some behind ∧ c.substitute tier behind = text := by
  rw [outcome_eq]
  split <;> simp [*]

/-! ## Expansion -/

theorem keeps_calm (c : Constants reg) (tier : Tier) :
    reg.Keeps tier (fun _ => True) (fun _ => False) (fun _ => True) Progress.Calm where
  enter _ _ _ := trivial
  refl := .refl
  trans := .trans
  early ha := ha.elim
  cycle p id stack _ _ := .recordCycle p id stack
  value _ _ := ⟨Nat.le_refl _, rfl, rfl⟩
  giveUp id h := h.giveUp id
  asked _ ha := ha.elim
  swept _ _ := trivial
  called h _ _ _ _ _ p := by
    obtain ⟨-, hc, hd, hw⟩ := Recipe.run_always _ (c.always h) p
    exact ⟨by rw [hc], hd.symm, hw.symm⟩

theorem call_eq (c : Constants reg) (tier : Tier) (stack : List Nat) {id : Nat} (h : id < reg.size) (p : Progress σ) :
    (reg.call tier stack h p).1 = c.given id ∧ (reg.call tier stack h p).2.cycles = p.cycles ∧
      (reg.call tier stack h p).2.waiting = p.waiting :=
  have hrun := Recipe.run_always _ (c.always h) p
  ⟨hrun.1, hrun.2.1, hrun.2.2.2⟩

theorem tier_of_isOpen {id : Nat} {h : id < reg.size} {p : Progress σ} (hp : p.waiting = [])
    (ho : reg.IsOpen tier h p) : reg.entries[id].tier = tier :=
  ho.resolve_right fun hw => by simp [hp] at hw

theorem inner_of_settled (stack : List Nat) (id : Nat) (r : Resolved) {p : Progress σ} (hp : p.waiting = [])
    (hstep : ∀ k ∈ markerIds r.toText, ∀ p : Progress σ, p.waiting = [] →
      (reg.expand tier (id :: stack) k p).1 = c.outcome tier k ∧
        (reg.expand tier (id :: stack) k p).2.cycles = p.cycles) :
    (reg.inner tier stack id r p).text = c.substitute tier r.toText ∧
      (reg.inner tier stack id r p).progress.cycles = p.cycles := by
  have hsweep := sweepSegments_eq (I := fun q => q.waiting = [] ∧ q.cycles = p.cycles) (segments r.toText)
    (fun k hk q hq => by
      obtain ⟨hf, hc⟩ := hstep k hk q hq.1
      have hw := ((c.keeps_calm tier).expand (id :: stack) trivial k q).waiting
      exact ⟨hf, hw ▸ hq.1, hc.trans hq.2⟩)
    (p.registerAll r.imports) ⟨hp, rfl⟩
  exact ⟨congrArg String.join hsweep.1, hsweep.2.2.2⟩

/-- Below a marker from which no cycle can be reached, expansion comes to the outcome and meets no cycle. -/
theorem expand_of_settled (stack : List Nat) : ∀ {id : Nat} {p : Progress σ}, c.Settled tier id →
    (∀ k ∈ stack, ¬ ReflTransGen (c.Holds tier) id k) → p.waiting = [] →
    (reg.expand tier stack id p).1 = c.outcome tier id ∧ (reg.expand tier stack id p).2.cycles = p.cycles := by
  induction stack using reg.descent with
  | step stack ih =>
    intro id p hs hstack hp
    -- what the recipe gives is swept with `id` in flight, which none of its markers leads back to
    have hinner : ∀ (h : id < reg.size) {r q}, reg.entries[id].tier = tier → id ∉ stack →
        reg.call tier stack h p = (some r, q) →
        c.outcome tier id = some (reg.inner tier stack id r q).text ∧
          (reg.inner tier stack id r q).progress.cycles = p.cycles := by
      intro h r q ht hm hc
      obtain ⟨hgiven, hcycles, hw⟩ := c.call_eq tier stack h p
      rw [hc] at hgiven hcycles hw
      have htext : c.text? tier id = some r.toText := by rw [text?_eq h ht, ← hgiven]; rfl
      obtain ⟨htexts, hinner⟩ := c.inner_of_settled stack id r (hw.trans hp) fun k hk p hp =>
        have hid : c.Holds tier id k := ⟨r.toText, htext, hk⟩
        ih id h hm (hs.of_holds hid) (fun j hj => by
          rcases List.mem_cons.mp hj with rfl | hj
          · exact hs.not_reaches hid
          · exact fun hkj => hstack j hj (hkj.head hid)) hp
      rw [outcome_eq, if_pos hs, htext, htexts]
      exact ⟨rfl, hinner.trans hcycles⟩
    generalize he : reg.expand tier stack id p = o
    cases he ▸ reg.attempts tier stack id p with
    | unknown h =>
      refine ⟨(outcome_eq_none (Option.eq_none_iff_forall_ne_some.mpr fun text ht => ?_)).symm, rfl⟩
      exact h (text?_eq_some_iff.mp ht).choose
    | closed h hclosed =>
      refine ⟨(outcome_eq_none (Option.eq_none_iff_forall_ne_some.mpr fun text ht => ?_)).symm, rfl⟩
      obtain ⟨_, _, ht, _⟩ := text?_eq_some_iff.mp ht
      exact hclosed (.inl ht)
    | cycle _ _ hm => exact absurd .refl (hstack id hm)
    | without h ho hm hc =>
      obtain ⟨hgiven, hcycles, -⟩ := c.call_eq tier stack h p
      rw [hc] at hgiven hcycles
      refine ⟨(outcome_eq_none ?_).symm, hcycles⟩
      rw [text?_eq h (tier_of_isOpen hp ho), ← hgiven]; rfl
    | undone h ho hm hc hl =>
      exact absurd (congrArg List.length (hinner h (tier_of_isOpen hp ho) hm hc).2) hl
    | done h ho hm hc hl =>
      obtain ⟨hout, hcycles⟩ := hinner h (tier_of_isOpen hp ho) hm hc
      exact ⟨hout.symm, hcycles⟩

theorem exists_unsettled {id : Nat} (h : ¬ c.Settled tier id) : ∃ b, c.Holds tier id b ∧ ¬ c.Settled tier b := by
  unfold Settled at h
  simp only [not_forall, not_not] at h
  obtain ⟨k, hk, hcycle⟩ := h
  rcases hk.cases_head with rfl | ⟨b, hb, hbk⟩
  · obtain ⟨b, hb, hback⟩ := TransGen.head'_iff.mp hcycle
    exact ⟨b, hb, fun hs => hs id hback hcycle⟩
  · exact ⟨b, hb, fun hs => hs k hbk hcycle⟩

theorem lt_cycles_inner (c : Constants reg) {stack : List Nat} {id k : Nat} {r : Resolved} {p : Progress σ}
    (hp : p.waiting = []) (hk : k ∈ markerIds r.toText) (hstep : ∀ p : Progress σ, p.waiting = [] →
      p.cycles.length < (reg.expand tier (id :: stack) k p).2.cycles.length) :
    p.cycles.length < (reg.inner tier stack id r p).progress.cycles.length := by
  have hcalm := sweepSegments_keeps (c.keeps_calm tier).refl (c.keeps_calm tier).trans
    ((c.keeps_calm tier).expand (id :: stack) trivial)
  obtain ⟨s, hs, hid⟩ := List.mem_filterMap.mp hk
  obtain ⟨xs, ys, hsplit⟩ := List.append_of_mem hs
  obtain ⟨t⟩ | ⟨k', raw⟩ := s
  · cases hid
  cases hid
  unfold Registry.inner
  rw [hsplit, sweepSegments_append, sweepSegments_progress]
  have hxs := hcalm xs (p.registerAll r.imports)
  calc p.cycles.length ≤ _ := hxs.cycles
    _ < _ := hstep _ (hxs.waiting ▸ hp)
    _ ≤ _ := (hcalm ys _).cycles

/-- An attempt on a marker that leads into a cycle comes to nothing and records a cycle. -/
theorem expand_of_unsettled (stack : List Nat) : ∀ {id : Nat} {p : Progress σ}, ¬ c.Settled tier id →
    p.waiting = [] → (reg.expand tier stack id p).1 = none ∧
      p.cycles.length < (reg.expand tier stack id p).2.cycles.length := by
  induction stack using reg.descent with
  | step stack ih =>
    intro id p hs hp
    obtain ⟨b, ⟨text, ht, hb⟩, hbs⟩ := exists_unsettled hs
    obtain ⟨hid, r, htier, hgiven, rfl⟩ := text?_eq_some_iff.mp ht
    have hinner : ∀ {r' q}, id ∉ stack → reg.call tier stack hid p = (some r', q) →
        p.cycles.length < (reg.inner tier stack id r' q).progress.cycles.length := by
      intro r' q hm hc
      obtain ⟨hr, hcycles, hw⟩ := c.call_eq tier stack hid p
      rw [hc] at hr hcycles hw
      obtain rfl : r = r' := Option.some.inj (hgiven.symm.trans hr.symm)
      rw [← hcycles]
      exact c.lt_cycles_inner (hw.trans hp) hb fun p hp => (ih id hid hm hbs hp).2
    generalize he : reg.expand tier stack id p = o
    cases he ▸ reg.attempts tier stack id p with
    | unknown h => exact absurd hid h
    | closed h hclosed => exact absurd (.inl htier) hclosed
    | cycle _ _ _ => exact ⟨rfl, by simp [Progress.recordCycle]⟩
    | without h ho hm hc =>
      obtain ⟨hr, -⟩ := c.call_eq tier stack hid p
      rw [hc, hgiven] at hr
      cases hr
    | undone h ho hm hc hl => exact ⟨rfl, hinner hm hc⟩
    | done h ho hm hc hl => exact absurd hl.symm (Nat.ne_of_lt (hinner hm hc))

/-- At top level an attempt comes to the outcome, whatever came before it. -/
theorem expand_eq (id : Nat) {p : Progress σ} (hp : p.waiting = []) :
    (reg.expand tier [] id p).1 = c.outcome tier id := by
  by_cases hs : c.Settled tier id
  · exact (expand_of_settled [] hs (by simp) hp).1
  · rw [(expand_of_unsettled [] hs hp).1, outcome_eq, if_neg hs]

/-! ## Sweeps -/

theorem sweep_eq (c : Constants reg) (tier : Tier) (text : String) {p : Progress σ} (hp : p.waiting = []) :
    (reg.sweep tier text p).text = c.substitute tier text ∧
      (reg.sweep tier text p).changed = (segments text).any (fun s => (s.id?.bind (c.outcome tier)).isSome) ∧
      (reg.sweep tier text p).progress.waiting = [] := by
  obtain ⟨ht, hc, hw⟩ := sweepSegments_eq (I := fun q => q.waiting = []) (segments text)
    (fun k _ q hq => ⟨c.expand_eq k hq, ((c.keeps_calm tier).expand [] trivial k q).waiting ▸ hq⟩) p hp
  exact ⟨congrArg String.join ht, hc, hw⟩

def AllTidy (c : Constants reg) : Prop := ∀ tier id text, c.text? tier id = some text → Tidy text

/-- What is left of a tidy text has no outcome. -/
theorem substitute_left (c : Constants reg) (tier : Tier) {text : String} (ht : Tidy text)
    (h : ∀ id ∈ markerIds text, ∀ u, c.outcome tier id = some u →
      Tidy u ∧ ∀ k ∈ markerIds u, c.outcome tier k = none) :
    Tidy (c.substitute tier text) ∧ ∀ k ∈ markerIds (c.substitute tier text), c.outcome tier k = none := by
  have hpiece : ∀ s ∈ segments text, Tidy (s.replace (c.outcome tier)) ∧
      ∀ k ∈ markerIds (s.replace (c.outcome tier)), c.outcome tier k = none := by
    intro s hs
    obtain ⟨htidy, hids⟩ := ht.segment hs
    cases s with
    | plain t => exact ⟨htidy, fun k hk => by rw [Segment.replace, show markerIds t = [] from hids] at hk; cases hk⟩
    | marker id raw =>
      cases ho : c.outcome tier id with
      | none =>
        rw [Segment.replace, ho, Option.getD_none]
        refine ⟨htidy, fun k hk => ?_⟩
        rw [show markerIds raw = [id] from hids, List.mem_singleton] at hk
        rw [hk, ho]
      | some u =>
        rw [Segment.replace, ho, Option.getD_some]
        exact h id (List.mem_filterMap.mpr ⟨_, hs, rfl⟩) u ho
  have htexts : ∀ t ∈ (segments text).map (Segment.replace (c.outcome tier)), Tidy t := fun t hmem => by
    obtain ⟨s, hs, rfl⟩ := List.mem_map.mp hmem
    exact (hpiece s hs).1
  obtain ⟨htidy, hids⟩ := tidy_join htexts
  refine ⟨htidy, fun k hk => ?_⟩
  rw [substitute, hids, List.mem_flatMap] at hk
  obtain ⟨t, hmem, hk⟩ := hk
  obtain ⟨s, hs, rfl⟩ := List.mem_map.mp hmem
  exact (hpiece s hs).2 k hk

theorem outcome_left (hc : c.AllTidy) (id : Nat) (u : String) (h : c.outcome tier id = some u) :
    Tidy u ∧ ∀ k ∈ markerIds u, c.outcome tier k = none := by
  obtain ⟨hs, behind, ht, rfl⟩ := outcome_eq_some_iff.mp h
  refine c.substitute_left tier (hc tier id behind ht) fun k hk u hu => ?_
  have := card_reachable_lt hs ⟨behind, ht, hk⟩
  exact outcome_left hc k u hu
termination_by (c.reachable tier id).card

theorem substitute_eq_self {text : String} (h : ∀ k ∈ markerIds text, c.outcome tier k = none) :
    c.substitute tier text = text :=
  calc c.substitute tier text = replaceMarkers (fun _ => none) text := replaceMarkers_congr _ h
    _ = text := replaceMarkers_none text

/-- Two sweeps of a tier come to rest: the first substitutes, the second changes nothing. -/
theorem sweeps_eq (hc : c.AllTidy) (tier : Tier) {text : String} (ht : Tidy text) (count : Nat) {p : Progress σ}
    (hp : p.waiting = []) :
    (reg.sweeps tier (count + 2) text p).1 = c.substitute tier text ∧
      (reg.sweeps tier (count + 2) text p).2.waiting = [] := by
  obtain ⟨htext, -, hw⟩ := c.sweep_eq tier text hp
  obtain ⟨-, hleft⟩ := c.substitute_left tier ht fun id _ => outcome_left hc id
  obtain ⟨htext', hchanged, hw'⟩ := c.sweep_eq tier (c.substitute tier text) hw
  have hrest : (reg.sweep tier (c.substitute tier text) (reg.sweep tier text p).progress).changed = false := by
    rw [hchanged, List.any_eq_false]
    intro s hs
    cases s with
    | plain t => simp [Segment.id?]
    | marker id raw => simp [Segment.id?, hleft id (List.mem_filterMap.mpr ⟨_, hs, rfl⟩)]
  rw [Registry.sweeps_succ]
  split
  · rw [htext, Registry.sweeps_succ, hrest]
    exact ⟨htext'.trans (substitute_eq_self hleft), hw'⟩
  · exact ⟨htext, hw⟩

end Constants

/-! ## Registries from tables -/

def Registry.ofTable (table : List (Tier × Option Resolved)) : Registry σ :=
  ⟨(table.map fun row => ⟨row.1, .give row.2⟩).toArray⟩

def Constants.ofTable (table : List (Tier × Option Resolved)) : Constants (Registry.ofTable table : Registry σ) where
  given id := table[id]?.bind Prod.snd
  always {id} h := by
    have hid : id < table.length := by simpa [Registry.size, Registry.ofTable] using h
    simp [Registry.ofTable, Recipe.Always, hid]

theorem Constants.allTidy_ofTable {table : List (Tier × Option Resolved)}
    (h : ∀ r ∈ table.filterMap Prod.snd, Tidy r.toText) :
    (ofTable table : Constants (Registry.ofTable table : Registry σ)).AllTidy := by
  intro tier id text ht
  obtain ⟨_, r, _, hr, rfl⟩ := text?_eq_some_iff.mp ht
  obtain ⟨row, hrow, hr⟩ := Option.bind_eq_some_iff.mp hr
  exact h r (List.mem_filterMap.mpr ⟨row, List.mem_of_getElem? hrow, hr⟩)

def Constants.sampleTable : List (Tier × Option Resolved) :=
  [(.normal, some (.text "a <@vg#1#@>")), (.normal, some (.text "<@vg#0#@>")),
    (.normal, some (.text "b<@vg#3#@>")), (.last, some (.value (.raw "c"))), (.normal, none)]

def Constants.sample : Registry Unit := .ofTable sampleTable

def Constants.ofSample : Constants sample := .ofTable sampleTable

/-! ## Both tiers -/

namespace Constants

variable {reg : Registry σ} {c : Constants reg}

/-- Resolution substitutes the normal tier and then the last one, and reports the markers that this leaves. -/
theorem resolveText_eq_substitute (hc : c.AllTidy) {text : String} (ht : Tidy text) (imports : ImportScope)
    (outside : σ) :
    (reg.resolveText text imports outside).text = c.substitute .last (c.substitute .normal text) ∧
      (reg.resolveText text imports outside).unresolved =
        markerIds (c.substitute .last (c.substitute .normal text)) := by
  obtain ⟨hnormal, hw⟩ := sweeps_eq hc .normal ht 62 (p := { imports, outside }) rfl
  obtain ⟨htidy, -⟩ := c.substitute_left .normal ht fun id _ => outcome_left hc id
  obtain ⟨hlast, -⟩ := sweeps_eq hc .last htidy 62 hw
  have htext : (reg.resolveText text imports outside).text = c.substitute .last (c.substitute .normal text) := by
    rw [← hlast, ← hnormal]
    rfl
  exact ⟨htext, congrArg markerIds htext⟩

theorem resolveText_eq_substitute_sample :
    ofSample.AllTidy ∧ Tidy "<@vg#2#@> <@vg#00#@> <@vg#4#@>" ∧
      (sample.resolveText "<@vg#2#@> <@vg#00#@> <@vg#4#@>" .empty ()).text =
        ofSample.substitute .last (ofSample.substitute .normal "<@vg#2#@> <@vg#00#@> <@vg#4#@>") ∧
      (sample.resolveText "<@vg#2#@> <@vg#00#@> <@vg#4#@>" .empty ()).unresolved =
        markerIds (ofSample.substitute .last (ofSample.substitute .normal "<@vg#2#@> <@vg#00#@> <@vg#4#@>")) := by
  have hc : ofSample.AllTidy := allTidy_ofTable (by decide +kernel)
  have ht : Tidy "<@vg#2#@> <@vg#00#@> <@vg#4#@>" := by decide +kernel
  exact ⟨hc, ht, resolveText_eq_substitute hc ht .empty ()⟩

example : (sample.resolveText "<@vg#2#@> <@vg#00#@> <@vg#4#@>" .empty ()).text = "bc <@vg#00#@> <@vg#4#@>" := by
  decide +kernel

end Constants

end Pipewright
