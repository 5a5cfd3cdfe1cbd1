import Mathlib.Logic.Relation
import Pipewright.Proofs.Replacements

/-!
# Complete registries

A registry is complete if every recipe gives a value once it gets what it asks
for and nothing depends on itself. Then no attempt meets a cycle, and one fails
only in the normal tier, for want of a placeholder of the last one. What is
retried in the last tier puts normal markers into the text too late: those stay,
and no others (`Complete.resolveText_leaves`).
-/

namespace Pipewright

open Relation

variable {σ : Type}

namespace Recipe

variable (view : Progress σ → View) (answer : Resolvable → Progress σ → Option Resolved × Progress σ)

def asked : Recipe σ → Progress σ → List Placeholder
  | give _, _ => []
  | look k, p => (k (view p)).asked p
  | register ty k, p => (k (p.imports.lacks ty)).asked (p.registerAll [ty])
  | ask r k, p => r.placeholder?.toList ++ (k (answer r p).1).asked (answer r p).2
  | load k, p => (k p.outside).asked p
  | store s next, p => next.asked { p with outside := s }

def Satisfied : Recipe σ → Progress σ → Prop
  | give _, _ => True
  | look k, p => (k (view p)).Satisfied p
  | register ty k, p => (k (p.imports.lacks ty)).Satisfied (p.registerAll [ty])
  | ask r k, p => (answer r p).1 ≠ none ∧ (k (answer r p).1).Satisfied (answer r p).2
  | load k, p => (k p.outside).Satisfied p
  | store s next, p => next.Satisfied { p with outside := s }

end Recipe

namespace Registry

variable (reg : Registry σ) (ok : σ → Prop)

def AsksFor (a b : Nat) : Prop :=
  ∃ (h : a < reg.size) (tier : Tier) (stack : List Nat) (p : Progress σ), ok p.outside ∧
    ∃ d ∈ reg.entries[a].recipe.asked (reg.view tier (a :: stack)) (reg.resolve tier (a :: stack)) p, d.id = b

def DependsOn (a b : Nat) : Prop :=
  reg.AsksFor ok a b ∨ ∃ tier r, reg.Gives ok tier a r ∧ b ∈ markerIds r.toText

/-- A chain of requests leads from `a` to a placeholder of the last tier. -/
def Rests (a : Nat) : Prop := ∃ b, reg.tier? b = some .last ∧ ReflTransGen (reg.AsksFor ok) a b

/-- Every recipe gives a value once it gets what it asks for, nothing depends on itself or on what is not
registered, and the last tier brings no normal marker into the text. -/
structure Complete : Prop where
  tiered : reg.WellTiered ok
  yields : ∀ {id} (h : id < reg.size) tier stack (p : Progress σ), ok p.outside →
    reg.entries[id].recipe.Satisfied (reg.view tier (id :: stack)) (reg.resolve tier (id :: stack)) p →
    (reg.call tier stack h p).1 ≠ none
  registered : ∀ {a b}, reg.DependsOn ok a b → b < reg.size
  acyclic : ∀ a, ¬ TransGen (reg.DependsOn ok) a a
  separate : ∀ {a r}, reg.tier? a = some .last → reg.Gives ok .last a r →
    ∀ id ∈ markerIds r.toText, reg.tier? id ≠ some .normal

/-- What can be left of a marker that a tier has attempted. -/
def Stays : Tier → Nat → Progress σ → Prop
  | .normal, id, p => reg.tier? id = some .last ∨ id ∈ p.waiting
  | .last, id, p => reg.tier? id = some .normal ∧ id ∉ p.waiting

structure Sound (p : Progress σ) : Prop where
  outside : ok p.outside
  waiting : ∀ id ∈ p.waiting, reg.tier? id = some .normal ∧ reg.Rests ok id

structure Advances (tier : Tier) (p q : Progress σ) : Prop where
  sound : reg.Sound ok q
  cycles : q.cycles = p.cycles
  waiting : p.waiting ⊆ q.waiting
  last : tier = .last → q.waiting = p.waiting

variable {reg ok}

namespace Advances

variable {tier : Tier} {p q r : Progress σ} {id : Nat}

theorem trans (h : reg.Advances ok tier p q) (h' : reg.Advances ok tier q r) : reg.Advances ok tier p r :=
  ⟨h'.sound, h'.cycles.trans h.cycles, List.Subset.trans h.waiting h'.waiting,
    fun ht => (h'.last ht).trans (h.last ht)⟩

theorem stays (h : reg.Advances ok tier p q) (hs : reg.Stays tier id p) : reg.Stays tier id q := by
  cases tier with
  | normal => exact hs.imp_right fun hw => h.waiting hw
  | last => exact ⟨hs.1, (h.last rfl).symm ▸ hs.2⟩

end Advances

theorem Sound.advances {tier : Tier} {p : Progress σ} (h : reg.Sound ok p) : reg.Advances ok tier p p :=
  ⟨h, rfl, List.Subset.refl _, fun _ => rfl⟩

theorem Stays.lt_size {tier : Tier} {id : Nat} {p : Progress σ} (h : reg.Stays tier id p) (hp : reg.Sound ok p) :
    id < reg.size := by
  have hlt : ∀ {t}, reg.tier? id = some t → id < reg.size := fun ht => ((reg.tier?_eq_some_iff).mp ht).1
  cases tier with
  | normal =>
    rcases h with hl | hw
    · exact hlt hl
    · exact hlt (hp.waiting id hw).1
  | last => exact hlt h.1

/-! ## Asking -/

structure Quiet (ok : σ → Prop) (p q : Progress σ) : Prop where
  outside : ok q.outside
  cycles : q.cycles = p.cycles
  waiting : q.waiting = p.waiting
  deferred : p.deferred ≤ q.deferred

theorem Quiet.refl {p : Progress σ} (h : ok p.outside) : Quiet ok p p :=
  ⟨h, rfl, rfl, Nat.le_refl _⟩

theorem Quiet.trans {p q r : Progress σ} (h : Quiet ok p q) (h' : Quiet ok q r) : Quiet ok p r :=
  ⟨h'.outside, h'.cycles.trans h.cycles, h'.waiting.trans h.waiting, Nat.le_trans h.deferred h'.deferred⟩

/-- What asking for `id` can lead to: nothing comes of it only if a placeholder of the last tier was asked for
too early. -/
structure Answered (reg : Registry σ) (ok : σ → Prop) (tier : Tier) (id : Nat) (p : Progress σ)
    (o : Option Resolved × Progress σ) : Prop where
  quiet : Quiet ok p o.2
  early : o.1 = none → tier = .normal ∧ p.deferred < o.2.deferred ∧ reg.Rests ok id

section
variable (view : Progress σ → View) (answer : Resolvable → Progress σ → Option Resolved × Progress σ) (tier : Tier)
  {A : Resolvable → Prop} (hnow : ∀ v q, answer (.now v) q = (some v, q))
include hnow

/-- A run that does not get all it asks for has asked for something too early. -/
theorem run_quiet (recipe : Recipe σ) (p : Progress σ) (hw : recipe.Within A ok) (hp : ok p.outside)
    (hlater : ∀ d ∈ recipe.asked view answer p, A (.later d) → ∀ q, ok q.outside →
      reg.Answered ok tier d.id q (answer (.later d) q)) :
    Quiet ok p (recipe.run view answer p).2 ∧ (recipe.Satisfied view answer p ∨
      tier = .normal ∧ p.deferred < (recipe.run view answer p).2.deferred ∧
        ∃ d ∈ recipe.asked view answer p, reg.Rests ok d.id) := by
  induction recipe generalizing p with
  | give result => exact ⟨.refl hp, .inl trivial⟩
  | look k ih => exact ih _ p (hw _) hp hlater
  | register ty k ih =>
    obtain ⟨hq, hsat⟩ := ih _ (p.registerAll [ty]) (hw _) hp hlater
    exact ⟨{ hq with }, hsat⟩
  | load k ih => exact ih _ p (hw _ hp) hp hlater
  | store s next ih =>
    obtain ⟨hq, hsat⟩ := ih { p with outside := s } hw.2 hw.1 hlater
    exact ⟨{ hq with }, hsat⟩
  | ask r k ih =>
    have hanswer : Quiet ok p (answer r p).2 ∧ ((answer r p).1 ≠ none ∨
        tier = .normal ∧ p.deferred < (answer r p).2.deferred ∧ ∃ d ∈ r.placeholder?.toList, reg.Rests ok d.id) := by
      cases r with
      | now v => rw [hnow]; exact ⟨.refl hp, .inl (by simp)⟩
      | later d =>
        have h := hlater d (List.mem_append_left _ (by simp [Resolvable.placeholder?])) hw.1 p hp
        refine ⟨h.quiet, ?_⟩
        by_cases hn : (answer (.later d) p).1 = none
        · obtain ⟨ht, hd, hr⟩ := h.early hn
          exact .inr ⟨ht, hd, d, by simp [Resolvable.placeholder?], hr⟩
        · exact .inl hn
    obtain ⟨hq, hfound⟩ := hanswer
    obtain ⟨hrest, hsat⟩ := ih _ (answer r p).2 (hw.2 _) hq.outside
      fun d hd => hlater d (List.mem_append_right _ hd)
    refine ⟨hq.trans hrest, ?_⟩
    rcases hfound with hfound | ⟨ht, hd, d, hmem, hr⟩
    · rcases hsat with hsat | ⟨ht, hd, d, hmem, hr⟩
      · exact .inl ⟨hfound, hsat⟩
      · exact .inr ⟨ht, Nat.lt_of_le_of_lt hq.deferred hd, d, List.mem_append_right _ hmem, hr⟩
    · exact .inr ⟨ht, Nat.lt_of_lt_of_le hd hrest.deferred, d, List.mem_append_left _ hmem, hr⟩

end

namespace Complete

variable (c : reg.Complete ok)
include c

theorem not_mem_stack {stack : List Nat} {id : Nat} (hs : ∀ k ∈ stack, TransGen (reg.DependsOn ok) k id) :
    id ∉ stack :=
  fun hm => c.acyclic id (hs id hm)

omit c in
theorem chain_cons {stack : List Nat} {a b : Nat} (hs : ∀ k ∈ stack, TransGen (reg.DependsOn ok) k a)
    (h : reg.DependsOn ok a b) : ∀ k ∈ a :: stack, TransGen (reg.DependsOn ok) k b := by
  intro k hk
  rcases List.mem_cons.mp hk with rfl | hk
  · exact .single h
  · exact (hs k hk).tail h

theorem call_answered {tier : Tier} {stack : List Nat} {id : Nat} (h : id < reg.size)
    (hs : ∀ k ∈ stack, TransGen (reg.DependsOn ok) k id)
    (ih : ∀ d : Placeholder, reg.Knows (.later d) → (∀ k ∈ id :: stack, TransGen (reg.DependsOn ok) k d.id) →
      ∀ q : Progress σ, ok q.outside →
        reg.Answered ok tier d.id q (reg.resolve tier (id :: stack) (.later d) q))
    (p : Progress σ) (hp : ok p.outside) : reg.Answered ok tier id p (reg.call tier stack h p) := by
  have hasks : ∀ d ∈ reg.entries[id].recipe.asked (reg.view tier (id :: stack)) (reg.resolve tier (id :: stack)) p,
      reg.AsksFor ok id d.id := fun d hd => ⟨h, tier, stack, p, hp, d, hd, rfl⟩
  obtain ⟨hq, hsat⟩ := run_quiet (reg.view tier (id :: stack)) (reg.resolve tier (id :: stack)) tier
    (fun v q => by rw [resolve]) _ p (c.tiered.within h) hp
    fun d hd hk => ih d hk (chain_cons hs (.inl (hasks d hd)))
  refine ⟨hq, fun hnone => ?_⟩
  rcases hsat with hsat | ⟨ht, hd, d, hmem, b, hb, hchain⟩
  · exact absurd hnone (c.yields h tier stack p hp hsat)
  · exact ⟨ht, hd, b, hb, hchain.head (hasks d hmem)⟩

theorem resolve_answered (tier : Tier) (stack : List Nat) : ∀ d : Placeholder, reg.Knows (.later d) →
    (∀ k ∈ stack, TransGen (reg.DependsOn ok) k d.id) → ∀ p : Progress σ, ok p.outside →
      reg.Answered ok tier d.id p (reg.resolve tier stack (.later d) p) := by
  induction stack using reg.descent with
  | step stack ih =>
    intro d hknown hs p hp
    obtain ⟨id, own⟩ := d
    have hlt : id < reg.size := ((reg.tier?_eq_some_iff).mp hknown).1
    generalize he : reg.resolve tier stack (.later ⟨id, own⟩) p = o
    cases he ▸ reg.answers tier stack id own p with
    | early ho ht =>
      subst ho
      exact ⟨⟨hp, rfl, rfl, Nat.le_succ _⟩, fun _ => ⟨ht, Nat.lt_succ_self _, id, hknown, .refl⟩⟩
    | cycle _ hm => exact absurd hm (c.not_mem_stack hs)
    | unknown hn => exact absurd hlt hn
    | called h _ hm => exact c.call_answered h hs (ih id h hm) p hp

theorem answered (tier : Tier) {stack : List Nat} {id : Nat} (h : id < reg.size)
    (hs : ∀ k ∈ stack, TransGen (reg.DependsOn ok) k id) (p : Progress σ) (hp : ok p.outside) :
    reg.Answered ok tier id p (reg.call tier stack h p) :=
  c.call_answered h hs (c.resolve_answered tier (id :: stack)) p hp

end Complete

/-! ## Expanding -/

def Cleared (reg : Registry σ) (tier : Tier) (text : String) (q : Progress σ) : Prop :=
  Tidy text ∧ ∀ k ∈ markerIds text, reg.Stays tier k q

def Leaves (reg : Registry σ) (tier : Tier) (id : Nat) : Option String × Progress σ → Prop
  | (some text, q) => reg.Cleared tier text q
  | (none, q) => reg.Stays tier id q

section
variable {expand : Nat → Progress σ → Option String × Progress σ} {tier : Tier}

theorem sweepSegments_advances : ∀ segs : List Segment,
    (∀ id ∈ segs.filterMap Segment.id?, ∀ p, reg.Sound ok p → reg.Advances ok tier p (expand id p).2) →
    ∀ p, reg.Sound ok p → reg.Advances ok tier p (sweepSegments expand segs p).progress ∧
      ∀ v ∈ visits expand segs p, v.1 ∈ segs.filterMap Segment.id? ∧ reg.Sound ok v.2 ∧
        reg.Advances ok tier (expand v.1 v.2).2 (sweepSegments expand segs p).progress
  | [], _, p, hp => ⟨hp.advances, fun v hv => by cases hv⟩
  | .plain _ :: rest, h, p, hp => sweepSegments_advances rest h p hp
  | .marker id raw :: rest, h, p, hp => by
    have hfirst := h id (List.mem_cons_self ..) p hp
    obtain ⟨hadv, hvisit⟩ := sweepSegments_advances rest (fun k hk => h k (List.mem_cons_of_mem _ hk))
      (expand id p).2 hfirst.sound
    rw [sweepSegments_progress]
    refine ⟨hfirst.trans hadv, fun v hv => ?_⟩
    rcases List.mem_cons.mp hv with rfl | hv
    · exact ⟨List.mem_cons_self .., hp, hadv⟩
    · obtain ⟨hid, hrest⟩ := hvisit v hv
      exact ⟨List.mem_cons_of_mem _ hid, hrest⟩

/-- What stays of a marker after its attempt stays of it to the end of the sweep. -/
theorem sweepSegments_cleared {text : String} (htidy : Tidy text)
    (hexp : ∀ id ∈ markerIds text, ∀ p, reg.Sound ok p →
      reg.Advances ok tier p (expand id p).2 ∧ reg.Leaves tier id (expand id p))
    (p : Progress σ) (hp : reg.Sound ok p) :
    reg.Advances ok tier p (sweepSegments expand (segments text) p).progress ∧
      reg.Cleared tier (sweepSegments expand (segments text) p).text
        (sweepSegments expand (segments text) p).progress := by
  obtain ⟨hadv, hvisit⟩ := sweepSegments_advances (segments text) (fun id hid p hp => (hexp id hid p hp).1) p hp
  refine ⟨hadv, sweepSegments_left htidy p (fun v hv hn => ?_) fun v hv t hsome => ?_⟩
  · obtain ⟨hid, hsound, hrest⟩ := hvisit v hv
    have hleaves := (hexp v.1 hid v.2 hsound).2
    rw [show expand v.1 v.2 = (none, (expand v.1 v.2).2) from Prod.ext hn rfl] at hleaves
    exact hrest.stays hleaves
  · obtain ⟨hid, hsound, hrest⟩ := hvisit v hv
    have hleaves := (hexp v.1 hid v.2 hsound).2
    rw [show expand v.1 v.2 = (some t, (expand v.1 v.2).2) from Prod.ext hsome rfl] at hleaves
    exact ⟨hleaves.1, fun k hk => hrest.stays (hleaves.2 k hk)⟩

end

theorem stays_of_closed {tier : Tier} {id : Nat} {p : Progress σ} (h : id < reg.size) (hn : ¬ reg.IsOpen tier h p) :
    reg.Stays tier id p := by
  have ht : reg.tier? id = some reg.entries[id].tier := (reg.tier?_eq_some_iff).mpr ⟨h, rfl⟩
  have hother : reg.entries[id].tier ≠ tier := fun he => hn (.inl he)
  cases tier with
  | normal =>
    cases he : reg.entries[id].tier with
    | normal => exact absurd he hother
    | last => exact .inl (he ▸ ht)
  | last =>
    have hw : id ∉ p.waiting := fun hw => hn (.inr ⟨rfl, hw⟩)
    cases he : reg.entries[id].tier with
    | normal => exact ⟨he ▸ ht, hw⟩
    | last => exact absurd he hother

theorem Answered.giveUp {id : Nat} {p q : Progress σ} (ha : reg.Answered ok .normal id p (none, q))
    (hp : reg.Sound ok p) (ht : reg.tier? id = some .normal) :
    reg.Advances ok .normal p (q.giveUp p.mark id) ∧ reg.Stays .normal id (q.giveUp p.mark id) := by
  obtain ⟨-, hd, hr⟩ := ha.early rfl
  refine ⟨⟨⟨ha.quiet.outside, fun k hk => ?_⟩, ha.quiet.cycles, fun k hk => ?_, fun hl => Tier.noConfusion hl⟩, ?_⟩
  · rcases Progress.mem_waiting_giveUp.mp hk with hk | ⟨_, rfl⟩
    · exact hp.waiting k (ha.quiet.waiting ▸ hk)
    · exact ⟨ht, hr⟩
  · exact Progress.mem_waiting_giveUp.mpr (.inl (ha.quiet.waiting.symm ▸ hk))
  · exact .inr (Progress.mem_waiting_giveUp.mpr (.inr ⟨hd, rfl⟩))

namespace Complete

variable (c : reg.Complete ok)
include c

variable (htidy : ∀ {tier a r}, reg.Gives ok tier a r → Tidy r.toText)
include htidy

/-- A registered marker is substituted or may stay. -/
theorem expand_leaves (tier : Tier) (stack : List Nat) : ∀ id, id < reg.size →
    (∀ k ∈ stack, TransGen (reg.DependsOn ok) k id) → ∀ p, reg.Sound ok p →
      reg.Advances ok tier p (reg.expand tier stack id p).2 ∧ reg.Leaves tier id (reg.expand tier stack id p) := by
  induction stack using reg.descent with
  | step stack ih =>
    intro id hlt hs p hp
    -- what is given is swept with `id` in flight, and `id` depends on each marker in it
    have hinner : ∀ (h : id < reg.size) {r q}, reg.IsOpen tier h p → id ∉ stack →
        reg.call tier stack h p = (some r, q) →
          reg.Advances ok tier p (reg.inner tier stack id r q).progress ∧
            reg.Cleared tier (reg.inner tier stack id r q).text (reg.inner tier stack id r q).progress := by
      intro h r q ho hm hc
      have hq : Quiet ok p q := by
        have := (c.answered tier h hs p hp.outside).quiet
        rwa [hc] at this
      have hg : reg.Gives ok tier id r := ⟨h, stack, p, hp.outside, by rw [hc]⟩
      have hdep : ∀ k ∈ markerIds r.toText, reg.DependsOn ok id k := fun k hk => .inr ⟨tier, r, hg, hk⟩
      have hadv : reg.Advances ok tier p (q.registerAll r.imports) :=
        ⟨⟨hq.outside, fun k hk => hp.waiting k (hq.waiting ▸ hk)⟩, hq.cycles, fun k hk => hq.waiting.symm ▸ hk,
          fun _ => hq.waiting⟩
      obtain ⟨hrest, hclear⟩ := sweepSegments_cleared (htidy hg)
        (fun k hk => ih id h hm k (c.registered (hdep k hk)) (chain_cons hs (hdep k hk)))
        (q.registerAll r.imports) hadv.sound
      exact ⟨hadv.trans hrest, hclear⟩
    generalize he : reg.expand tier stack id p = o
    cases he ▸ reg.attempts tier stack id p with
    | unknown hn => exact absurd hlt hn
    | closed h hn => exact ⟨hp.advances, stays_of_closed h hn⟩
    | cycle h ho hm => exact absurd hm (c.not_mem_stack hs)
    | @without h q ho hm hc =>
      have ha : reg.Answered ok tier id p (none, q) := hc ▸ c.answered tier h hs p hp.outside
      obtain ⟨rfl, -⟩ := ha.early rfl
      exact ha.giveUp hp ((reg.tier?_eq_some_iff).mpr ⟨h, ho.resolve_right fun hw => Tier.noConfusion hw.1⟩)
    | undone h ho hm hc hl => exact absurd (congrArg List.length (hinner h ho hm hc).1.cycles) hl
    | done h ho hm hc hl => exact hinner h ho hm hc

/-! ## The two tiers -/

theorem sweep_cleared (tier : Tier) {text : String} (ht : Tidy text) (hlt : ∀ id ∈ markerIds text, id < reg.size)
    (p : Progress σ) (hp : reg.Sound ok p) :
    reg.Advances ok tier p (reg.sweep tier text p).progress ∧
      reg.Cleared tier (reg.sweep tier text p).text (reg.sweep tier text p).progress :=
  sweepSegments_cleared ht (fun id hid => c.expand_leaves htidy tier [] id (hlt id hid) (by simp)) p hp

theorem sweeps_cleared (tier : Tier) (count : Nat) : ∀ {text : String}, Tidy text →
    (∀ id ∈ markerIds text, id < reg.size) → ∀ p, reg.Sound ok p →
      reg.Advances ok tier p (reg.sweeps tier (count + 1) text p).2 ∧
        reg.Cleared tier (reg.sweeps tier (count + 1) text p).1 (reg.sweeps tier (count + 1) text p).2 := by
  induction count with
  | zero =>
    intro text ht hlt p hp
    have h := c.sweep_cleared htidy tier ht hlt p hp
    rw [sweeps_succ]
    split
    · exact h
    · exact h
  | succ count ih =>
    intro text ht hlt p hp
    obtain ⟨hadv, hclear⟩ := c.sweep_cleared htidy tier ht hlt p hp
    rw [sweeps_succ]
    split
    · obtain ⟨hrest, hclear⟩ := ih hclear.1 (fun id hid => (hclear.2 id hid).lt_size hadv.sound) _ hadv.sound
      exact ⟨hadv.trans hrest, hclear⟩
    · exact ⟨hadv, hclear⟩

section
variable {text : String} (ht : Tidy text) (hlt : ∀ id ∈ markerIds text, id < reg.size) (imports : ImportScope)
  {outside : σ} (hok : ok outside)
include ht hlt hok

theorem normalTier_cleared : reg.Sound ok (reg.normalTier text imports outside).2 ∧
    reg.Cleared .normal (reg.normalTier text imports outside).1 (reg.normalTier text imports outside).2 := by
  have hstart : reg.Sound ok { imports, outside } := ⟨hok, fun id hid => by cases hid⟩
  obtain ⟨hadv, hclear⟩ := c.sweeps_cleared htidy .normal 63 ht hlt _ hstart
  exact ⟨hadv.sound, hclear⟩

theorem resolveText_cleared :
    (reg.resolveText text imports outside).progress.waiting = (reg.normalTier text imports outside).2.waiting ∧
      reg.Cleared .last (reg.resolveText text imports outside).text
        (reg.resolveText text imports outside).progress := by
  obtain ⟨hsound, hclear⟩ := c.normalTier_cleared htidy ht hlt imports hok
  obtain ⟨hadv, hclear⟩ := c.sweeps_cleared htidy .last 63 hclear.1 (fun id hid => (hclear.2 id hid).lt_size hsound) _
    hsound
  exact ⟨hadv.last rfl, hclear⟩

end

/-- A complete registry leaves only normal markers. The last tier put each of them into the text, which held it no
longer when the tier began, with what took the place of a normal marker that waited. None is left if nothing that
took such a place holds a normal marker. -/
theorem resolveText_leaves {text : String} (ht : Tidy text) (hlt : ∀ id ∈ markerIds text, id < reg.size)
    (imports : ImportScope) {outside : σ} (hok : ok outside) :
    (∀ id ∈ (reg.resolveText text imports outside).unresolved, reg.tier? id = some .normal ∧
      id ∉ (reg.resolveText text imports outside).progress.waiting ∧
      id ∉ markerIds (reg.normalTier text imports outside).1 ∧
      ∃ a r, reg.ReplacesLate text imports outside a r ∧ id ∈ markerIds r.toText ∧ reg.tier? a = some .normal ∧
        a ∈ (reg.normalTier text imports outside).2.waiting ∧ reg.Rests ok a) ∧
    ((∀ a r, reg.ReplacesLate text imports outside a r → reg.tier? a = some .normal →
        ∀ id ∈ markerIds r.toText, reg.tier? id ≠ some .normal) →
      (reg.resolveText text imports outside).unresolved = []) := by
  have hconf := c.tiered.confined
  obtain ⟨hsound, htidy', hmid⟩ := c.normalTier_cleared htidy ht hlt imports hok
  obtain ⟨hwaiting, -, hleft⟩ := c.resolveText_cleared htidy ht hlt imports hok
  have hlate : ∀ id ∈ (reg.resolveText text imports outside).unresolved, reg.tier? id = some .normal ∧
      id ∉ (reg.resolveText text imports outside).progress.waiting ∧
      id ∉ markerIds (reg.normalTier text imports outside).1 ∧
      ∃ a r, reg.ReplacesLate text imports outside a r ∧ id ∈ markerIds r.toText ∧ reg.tier? a = some .normal ∧
        a ∈ (reg.normalTier text imports outside).2.waiting ∧ reg.Rests ok a := by
    intro id hid
    obtain ⟨hn, hw⟩ := hleft id hid
    -- what the normal tier leaves is of the last one or waits for it
    have hnew : id ∉ markerIds (reg.normalTier text imports outside).1 := by
      intro hm
      rcases hmid id hm with hl | hw'
      · rw [hn] at hl; cases hl
      · exact hw (hwaiting ▸ hw')
    refine ⟨hn, hw, hnew, ?_⟩
    rcases sweeps_origin hconf htidy maxSweeps _ htidy' hsound.outside id hid with hm | ⟨a, r, hr, hm⟩
    · exact absurd hm hnew
    · obtain ⟨-, hg⟩ := hr.gives hconf htidy (M := fun _ => True) (fun _ _ _ _ => trivial) htidy' hsound.outside
        fun _ _ => trivial
      rcases hr.opens with hl | hwaits
      · exact absurd hn (c.separate hl hg id hm)
      · exact ⟨a, r, hr, hm, (hsound.waiting a hwaits).1, hwaits, (hsound.waiting a hwaits).2⟩
  refine ⟨hlate, fun hnone => List.eq_nil_iff_forall_not_mem.mpr fun id hid => ?_⟩
  obtain ⟨hn, -, -, a, r, hr, hm, ha, -⟩ := hlate id hid
  exact hnone a r hr ha id hm hn

end Complete

theorem acyclic_of_lt (h : ∀ {a b}, reg.DependsOn ok a b → b < a) (a : Nat) : ¬ TransGen (reg.DependsOn ok) a a := by
  have hlt : ∀ {b}, TransGen (reg.DependsOn ok) a b → b < a := by
    intro b hb
    induction hb with
    | single hb => exact h hb
    | tail _ hc ih => exact Nat.lt_trans (h hc) ih
  exact fun hc => Nat.lt_irrefl a (hlt hc)

/-! ## A marker that comes late -/

def lateMarker : Registry Unit :=
  ⟨#[⟨.last, .give (some (.text "v"))⟩, ⟨.normal, .give (some (.text "m"))⟩,
    ⟨.normal, .needing (.later ⟨0, .last⟩) fun v => .give (some (.text (Marker.text 1 ++ v.toText)))⟩]⟩

namespace lateMarker

theorem cases_lt {a : Nat} (h : a < lateMarker.size) : a = 0 ∨ a = 1 ∨ a = 2 := by
  have : a < 3 := h
  omega

theorem resolve_first (tier : Tier) (stack : List Nat) (p : Progress Unit) :
    (lateMarker.resolve tier stack (.later ⟨0, .last⟩) p).1 = none ∨
      (lateMarker.resolve tier stack (.later ⟨0, .last⟩) p).1 = some (.text "v") := by
  refine (lateMarker.resolve_eq_call tier stack 0 .last p).imp_right fun ⟨h, hc⟩ => ?_
  rw [hc]
  rfl

theorem of_asksFor {ok : Unit → Prop} {a b : Nat} (h : lateMarker.AsksFor ok a b) : a = 2 ∧ b = 0 := by
  obtain ⟨ha, tier, stack, p, -, d, hd, rfl⟩ := h
  rcases cases_lt ha with rfl | rfl | rfl
  · cases hd
  · cases hd
  · rcases List.mem_append.mp hd with hd | hd
    · rw [List.mem_singleton.mp hd]
      exact ⟨rfl, rfl⟩
    · cases hf : (lateMarker.resolve tier (2 :: stack) (.later ⟨0, .last⟩) p).1 with
      | none => simp only [hf] at hd; cases hd
      | some v => simp only [hf] at hd; cases hd

theorem of_gives {ok : Unit → Prop} {tier : Tier} {a : Nat} {r : Resolved} (h : lateMarker.Gives ok tier a r) :
    a = 0 ∧ r = .text "v" ∨ a = 1 ∧ r = .text "m" ∨ a = 2 ∧ r = .text (Marker.text 1 ++ "v") := by
  obtain ⟨ha, stack, p, -, hr⟩ := h
  rcases cases_lt ha with rfl | rfl | rfl
  · exact .inl ⟨rfl, (Option.some.inj hr).symm⟩
  · exact .inr (.inl ⟨rfl, (Option.some.inj hr).symm⟩)
  · refine .inr (.inr ⟨rfl, ?_⟩)
    change (Recipe.run _ _ (Recipe.needing _ _) p).1 = some r at hr
    simp only [Recipe.needing, Recipe.run] at hr
    rcases resolve_first tier (2 :: stack) p with hf | hf
    · simp only [hf] at hr; cases hr
    · simp only [hf] at hr; exact (Option.some.inj hr).symm

theorem tidy {ok : Unit → Prop} {tier : Tier} {a : Nat} {r : Resolved} (h : lateMarker.Gives ok tier a r) :
    Tidy r.toText := by
  rcases of_gives h with ⟨-, rfl⟩ | ⟨-, rfl⟩ | ⟨-, rfl⟩ <;> decide +kernel

theorem of_dependsOn {ok : Unit → Prop} {a b : Nat} (h : lateMarker.DependsOn ok a b) :
    a = 2 ∧ (b = 0 ∨ b = 1) := by
  rcases h with h | ⟨tier, r, hg, hb⟩
  · exact (of_asksFor h).imp_right .inl
  · have hv : markerIds "v" = [] := by decide +kernel
    have hm : markerIds "m" = [] := by decide +kernel
    have hl : markerIds (Marker.text 1 ++ "v") = [1] := by decide +kernel
    rcases of_gives hg with ⟨rfl, rfl⟩ | ⟨rfl, rfl⟩ | ⟨rfl, rfl⟩
    · rw [Resolved.toText, hv] at hb; cases hb
    · rw [Resolved.toText, hm] at hb; cases hb
    · rw [Resolved.toText, hl] at hb; exact ⟨rfl, .inr (List.mem_singleton.mp hb)⟩

theorem complete : lateMarker.Complete fun _ => True where
  tiered.within {id} h := by
    rcases cases_lt h with rfl | rfl | rfl
    · trivial
    · trivial
    · refine ⟨rfl, fun found => ?_⟩
      cases found <;> trivial
  yields {id} h tier stack p _ hs := by
    rcases cases_lt h with rfl | rfl | rfl
    · exact Option.some_ne_none _
    · exact Option.some_ne_none _
    · obtain ⟨hf, -⟩ := hs
      change (Recipe.run _ _ (Recipe.needing _ _) p).1 ≠ none
      simp only [Recipe.needing, Recipe.run]
      rcases resolve_first tier (2 :: stack) p with hn | hv
      · exact absurd hn hf
      · simp only [hv]; exact Option.some_ne_none _
  registered h := by
    obtain ⟨-, rfl | rfl⟩ := of_dependsOn h <;> decide
  acyclic := acyclic_of_lt fun h => by
    obtain ⟨rfl, rfl | rfl⟩ := of_dependsOn h <;> decide
  separate {a r} ht hg id hid := by
    obtain ⟨rfl, -⟩ := of_dependsOn (.inr ⟨.last, r, hg, hid⟩)
    cases ht

end lateMarker

/-- The first marker is substituted, and the second one brings it back in the last tier. -/
theorem Complete.resolveText_leaves_late :
    have text := "<@vg#1#@><@vg#2#@>"
    (lateMarker.resolveText text .empty ()).unresolved = [1] ∧
    (∀ id ∈ (lateMarker.resolveText text .empty ()).unresolved, lateMarker.tier? id = some .normal ∧
      id ∉ (lateMarker.resolveText text .empty ()).progress.waiting ∧
      id ∉ markerIds (lateMarker.normalTier text .empty ()).1 ∧
      ∃ a r, lateMarker.ReplacesLate text .empty () a r ∧ id ∈ markerIds r.toText ∧
        lateMarker.tier? a = some .normal ∧ a ∈ (lateMarker.normalTier text .empty ()).2.waiting ∧
          lateMarker.Rests (fun _ => True) a) ∧
    ((∀ a r, lateMarker.ReplacesLate text .empty () a r → lateMarker.tier? a = some .normal →
        ∀ id ∈ markerIds r.toText, lateMarker.tier? id ≠ some .normal) →
      (lateMarker.resolveText text .empty ()).unresolved = []) :=
  ⟨by decide +kernel,
    lateMarker.complete.resolveText_leaves lateMarker.tidy (by decide +kernel) (by decide +kernel) .empty trivial⟩

/-- A placeholder whose text and what follows its marker make up another marker. -/
def splitMarker : Registry Unit := ⟨#[⟨.normal, .give (some (.text "<@vg#9"))⟩]⟩

namespace splitMarker

theorem eq_zero {a : Nat} (h : a < splitMarker.size) : a = 0 := Nat.lt_one_iff.mp h

theorem not_dependsOn {ok : Unit → Prop} {a b : Nat} : ¬ splitMarker.DependsOn ok a b := by
  have hids : markerIds "<@vg#9" = [] := by decide +kernel
  rintro (⟨h, tier, stack, p, -, d, hd, -⟩ | ⟨tier, r, ⟨h, stack, p, -, hr⟩, hb⟩)
  · obtain rfl := eq_zero h
    cases hd
  · obtain rfl := eq_zero h
    cases hr
    rw [Resolved.toText, hids] at hb
    cases hb

theorem complete : splitMarker.Complete fun _ => True where
  tiered.within {id} h := by obtain rfl := eq_zero h; trivial
  yields {id} h tier stack p _ _ := by obtain rfl := eq_zero h; exact Option.some_ne_none _
  registered h := absurd h not_dependsOn
  acyclic := acyclic_of_lt fun h => absurd h not_dependsOn
  separate _ hg id hid := absurd (.inr ⟨.last, _, hg, hid⟩) not_dependsOn

end splitMarker

/-- Completeness alone does not clear a text: a marker can come too late, or come about next to its neighbours. -/
theorem Complete.not_always_resolved :
    (lateMarker.Complete (fun _ => True) ∧ (∀ tier a r, lateMarker.Gives (fun _ => True) tier a r → Tidy r.toText) ∧
      Tidy "<@vg#2#@>" ∧ (∀ id ∈ markerIds "<@vg#2#@>", id < lateMarker.size) ∧
        (lateMarker.resolveText "<@vg#2#@>" .empty ()).unresolved = [1]) ∧
    splitMarker.Complete (fun _ => True) ∧ Tidy "<@vg#0#@>#@>" ∧
      (∀ id ∈ markerIds "<@vg#0#@>#@>", id < splitMarker.size) ∧
        (splitMarker.resolveText "<@vg#0#@>#@>" .empty ()).unresolved = [9] :=
  ⟨⟨lateMarker.complete, fun _ _ _ hg => lateMarker.tidy hg, by decide +kernel, by decide +kernel,
    by decide +kernel⟩, splitMarker.complete, by decide +kernel, by decide +kernel, by decide +kernel⟩

end Registry

end Pipewright
