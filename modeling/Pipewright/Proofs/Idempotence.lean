import Pipewright.Catalog
import Pipewright.Proofs.Trials

/-!
# Resolving a resolved text

If no normal placeholder asks for one of the last tier, nothing ever waits, so
what a tier can do with a marker is the same in every resolution. What is left in
the end is dead in both tiers: the last tier brings no normal marker into the
text, and what it leaves from the normal tier was dead there already. A second
resolution therefore finds nothing to substitute, whatever is imported by then
(`Planned.resolveText_idempotent`).
-/

namespace Pipewright

variable {σ : Type} {reg : Registry σ} {ok : σ → Prop}

namespace Planned

def Apart (c : Planned reg ok) : Prop :=
  ∀ {id} (h : id < reg.size) {plan}, reg.entries[id].tier = .normal → c.plan? id = some plan →
    plan.Needs fun d => d.tier = .normal ∧ reg.tier? d.id ≠ some .last

variable {c : Planned reg ok}

theorem Apart.keeps_calm (ha : c.Apart) : reg.Keeps .normal (fun _ => True)
    (fun r => ∀ d, r = .later d → d.tier = .normal ∧ reg.tier? d.id ≠ some .last)
    (fun id => reg.tier? id ≠ some .last) (fun p q => ok p.outside → ok q.outside ∧ p.Calm q) where
  refl p hp := ⟨hp, .refl p⟩
  trans h h' hp := by
    obtain ⟨hq, hcalm⟩ := h hp
    obtain ⟨hr, hcalm'⟩ := h' hq
    exact ⟨hr, hcalm.trans hcalm'⟩
  enter _ _ _ := trivial
  early hr _ _ _ := Tier.noConfusion (hr _ rfl).1
  cycle p id stack _ _ hp := ⟨hp, .recordCycle p id stack⟩
  value _ _ hp := ⟨hp, Nat.le_refl _, rfl, rfl⟩
  giveUp id h hp := ⟨(h hp).1, (h hp).2.giveUp id⟩
  asked _ hr _ := (hr _ rfl).2
  swept h hn hl := by
    obtain ⟨_, ht⟩ := (reg.tier?_eq_some_iff).mp hl
    rw [hn rfl] at ht
    cases ht
  called {id} h _ _ _ hl hanswer p hp := by
    have htier : reg.entries[id].tier ≠ .last := fun ht => hl ((reg.tier?_eq_some_iff).mpr ⟨h, ht⟩)
    cases hplan : c.plan? id with
    | none => exact absurd (c.reads h hplan).1 htier
    | some plan =>
      have hneeds := ha h (by cases ht : reg.entries[id].tier with
        | normal => rfl
        | last => exact absurd ht htier) hplan
      exact Recipe.Follows.run_calm hanswer (c.follows h hplan) hneeds p hp

/-- Nothing waits for the last tier when it begins. -/
theorem Apart.normalTier_ready (ha : c.Apart) (text : String) (imports : ImportScope) {outside : σ}
    (hok : ok outside) : (reg.normalTier text imports outside).2.Ready ok .last [] := by
  obtain ⟨hok, hcalm⟩ := ha.keeps_calm.sweeps trivial Registry.maxSweeps text { imports, outside } hok
  have hw : (reg.normalTier text imports outside).2.waiting = [] := hcalm.waiting.symm
  refine ⟨hok, fun _ k => ?_⟩
  rw [hw]

theorem Apart.resolveText_dead (ha : c.Apart) {text : String} (hnormal : ∀ k ∈ markerIds text, c.Dead .normal [] k)
    (hlast : ∀ k ∈ markerIds text, c.Dead .last [] k) (imports : ImportScope) {outside : σ} (hok : ok outside) :
    (reg.resolveText text imports outside).text = text := by
  have hstart : Progress.Ready ok .normal [] { imports, outside } := Progress.ready_normal hok []
  have hmid : (reg.normalTier text imports outside).1 = text := sweeps_dead hnormal Registry.maxSweeps hstart
  have hready := ha.normalTier_ready text imports hok
  calc (reg.resolveText text imports outside).text
    _ = (reg.sweeps .last Registry.maxSweeps (reg.normalTier text imports outside).1
          (reg.normalTier text imports outside).2).1 := rfl
    _ = (reg.sweeps .last Registry.maxSweeps text (reg.normalTier text imports outside).2).1 := by rw [hmid]
    _ = text := sweeps_dead hlast Registry.maxSweeps hready

theorem dead_of_tier {id : Nat} (h : reg.tier? id ≠ some .normal) : c.Dead .normal [] id := by
  have hclosed : ¬ reg.Opens .normal [] id := by
    rintro ⟨-, ht | ⟨ht, -⟩⟩
    · exact h ht
    · cases ht
  rw [Dead, trial_closed hclosed]

/-- What is left of a text is dead in both tiers. -/
theorem Apart.resolveText_left (ha : c.Apart) (htidy : ∀ {tier a r}, reg.Gives ok tier a r → Tidy r.toText)
    (hseparate : ∀ {a r}, reg.tier? a = some .last → reg.Gives ok .last a r →
      ∀ k ∈ markerIds r.toText, reg.tier? k ≠ some .normal)
    {text : String} (ht : Tidy text) (imports : ImportScope) {outside : σ} (hok : ok outside) :
    ∀ k ∈ markerIds (reg.resolveText text imports outside).text, c.Dead .normal [] k ∧ c.Dead .last [] k := by
  have hstart : Progress.Ready ok .normal [] { imports, outside } := Progress.ready_normal hok []
  have hready := ha.normalTier_ready text imports hok
  have hmid : (reg.normalTier text imports outside).1 = (reg.sweep .normal text { imports, outside }).text :=
    c.sweeps_eq_sweep htidy ht 63 hstart
  obtain ⟨htidy', hnormal⟩ := c.sweep_left htidy ht hstart
  rw [← hmid] at htidy' hnormal
  have hend : (reg.resolveText text imports outside).text =
      (reg.sweep .last (reg.normalTier text imports outside).1 (reg.normalTier text imports outside).2).text :=
    c.sweeps_eq_sweep htidy htidy' 63 hready
  obtain ⟨-, hlast⟩ := c.sweep_left htidy htidy' hready
  rw [hend]
  intro k hk
  obtain ⟨hdead, hk | ⟨a, r, ⟨-, ha | ⟨-, ha⟩⟩, hgives, hk⟩⟩ := hlast k hk
  · exact ⟨(hnormal k hk).1, hdead⟩
  · exact ⟨dead_of_tier (hseparate ha hgives k hk), hdead⟩
  · cases ha

/-- A second resolution changes nothing, with any imports and in any outside state. -/
theorem resolveText_idempotent (c : Planned reg ok) (ha : c.Apart)
    (htidy : ∀ {tier a r}, reg.Gives ok tier a r → Tidy r.toText)
    (hseparate : ∀ {a r}, reg.tier? a = some .last → reg.Gives ok .last a r →
      ∀ k ∈ markerIds r.toText, reg.tier? k ≠ some .normal)
    {text : String} (ht : Tidy text) (imports : ImportScope) {outside : σ} (hok : ok outside) :
    ok (reg.resolveText text imports outside).progress.outside ∧
      ∀ imports' outside', ok outside' →
        (reg.resolveText (reg.resolveText text imports outside).text imports' outside').text =
            (reg.resolveText text imports outside).text ∧
          (reg.resolveText (reg.resolveText text imports outside).text imports' outside').unresolved =
            (reg.resolveText text imports outside).unresolved := by
  have hleft := ha.resolveText_left htidy hseparate ht imports hok
  constructor
  · exact (c.sweeps_ready Registry.maxSweeps _ (ha.normalTier_ready text imports hok)).outside
  · intro imports' outside' hok'
    have htext := ha.resolveText_dead (fun k hk => (hleft k hk).1) (fun k hk => (hleft k hk).2) imports' hok'
    exact ⟨htext, congrArg markerIds htext⟩

end Planned

namespace Registry

def countedImports : Registry Unit :=
  ⟨#[⟨.normal, .give (some (.text "a <@vg#1#@>"))⟩,
    ⟨.normal, .needing (.later ⟨0, .normal⟩) fun v => .give (some (.text ("b " ++ v.toText)))⟩,
    ⟨.last, .look fun v => .give (some (.text (toString v.imports.size)))⟩,
    ⟨.normal, .ofProbe fun s => (none, s)⟩,
    ⟨.normal, .give (some (.value (.new Catalog.OpenCv.rect "c <@vg#2#@> <@vg#3#@>")))⟩,
    ⟨.normal, .load fun s => .store s (.ask (.later ⟨4, .normal⟩) .give)⟩]⟩

namespace countedImports

def plan? : Nat → Option Plan
  | 0 => some (.give (some (.text "a <@vg#1#@>")))
  | 1 => some (.need (.later ⟨0, .normal⟩) fun v => .give (some (.text ("b " ++ v.toText))))
  | 2 => none
  | 4 => some (.give (some (.value (.new Catalog.OpenCv.rect "c <@vg#2#@> <@vg#3#@>"))))
  | 5 => some (.need (.later ⟨4, .normal⟩) fun v => .give (some v))
  | _ => some (.give none)

theorem cases_lt {a : Nat} (h : a < countedImports.size) : a = 0 ∨ a = 1 ∨ a = 2 ∨ a = 3 ∨ a = 4 ∨ a = 5 := by
  have : a < 6 := h
  omega

theorem tidy_toString (n : Nat) : Tidy (toString n) ∧ markerIds (toString n) = [] :=
  Reads.markerIds_eq (Reads.of_not_mem fun h => absurd (Marker.isDigit_of_mem h) (by decide))

def planned : Planned countedImports fun _ => True where
  plan? := plan?
  follows {id} h {plan} hp := by
    rcases cases_lt h with rfl | rfl | rfl | rfl | rfl | rfl
    · exact (Option.some.inj hp).symm
    · obtain rfl := Option.some.inj hp
      exact Recipe.follows_needing fun v => rfl
    · cases hp
    · obtain rfl := Option.some.inj hp
      exact Recipe.follows_ofProbe fun _ _ => ⟨rfl, trivial⟩
    · exact (Option.some.inj hp).symm
    · obtain rfl := Option.some.inj hp
      exact Recipe.follows_ofSupplier (fun s => (some (.later ⟨4, .normal⟩), s)) fun _ _ => ⟨rfl, trivial⟩
  reads {id} h hp := by
    rcases cases_lt h with rfl | rfl | rfl | rfl | rfl | rfl
    · cases hp
    · cases hp
    · exact ⟨rfl, fun v => ⟨_, rfl, (tidy_toString v.imports.size).2⟩⟩
    · cases hp
    · cases hp
    · cases hp
  asks {id} h {plan} hp := by
    rcases cases_lt h with rfl | rfl | rfl | rfl | rfl | rfl
    · obtain rfl := Option.some.inj hp; trivial
    · obtain rfl := Option.some.inj hp
      refine ⟨fun d hd _ => ?_, fun v => trivial⟩
      cases hd
      exact Option.some_ne_none _
    · cases hp
    · obtain rfl := Option.some.inj hp; trivial
    · obtain rfl := Option.some.inj hp; trivial
    · obtain rfl := Option.some.inj hp
      refine ⟨fun d hd _ => ?_, fun v => trivial⟩
      cases hd
      exact Option.some_ne_none _

theorem apart : planned.Apart := by
  intro id h plan _ hp
  rcases cases_lt h with rfl | rfl | rfl | rfl | rfl | rfl
  · obtain rfl := Option.some.inj hp; trivial
  · obtain rfl := Option.some.inj hp
    refine ⟨fun d hd => ?_, fun v => trivial⟩
    cases hd
    exact ⟨rfl, by decide⟩
  · cases hp
  · obtain rfl := Option.some.inj hp; trivial
  · obtain rfl := Option.some.inj hp; trivial
  · obtain rfl := Option.some.inj hp
    refine ⟨fun d hd => ?_, fun v => trivial⟩
    cases hd
    exact ⟨rfl, by decide⟩

theorem tidy {ok : Unit → Prop} {tier : Tier} {a : Nat} {r : Resolved} (h : countedImports.Gives ok tier a r) :
    Tidy r.toText := by
  obtain ⟨ha, stack, p, -, hr⟩ := h
  rcases cases_lt ha with rfl | rfl | rfl | rfl | rfl | rfl
  · obtain rfl := (Option.some.inj hr).symm
    decide +kernel
  · change (Recipe.run _ _ (Recipe.needing _ _) p).1 = some r at hr
    simp only [Recipe.needing, Recipe.run] at hr
    rcases countedImports.resolve_eq_call tier (1 :: stack) 0 .normal p with hf | ⟨h0, hf⟩
    · simp only [hf] at hr; cases hr
    · have hv : (countedImports.call tier (1 :: stack) h0 p).1 = some (.text "a <@vg#1#@>") := rfl
      simp only [hf, hv] at hr
      obtain rfl := (Option.some.inj hr).symm
      decide +kernel
  · obtain rfl := (Option.some.inj hr).symm
    exact (tidy_toString _).1
  · cases hr
  · obtain rfl := (Option.some.inj hr).symm
    decide +kernel
  · change (Recipe.run _ _ (.load fun s => .store s (.ask _ .give)) p).1 = some r at hr
    simp only [Recipe.run] at hr
    rcases countedImports.resolve_eq_call tier (5 :: stack) 4 .normal { p with outside := p.outside } with hf | ⟨h4, hf⟩
    · simp only [hf] at hr; cases hr
    · have hv : (countedImports.call tier (5 :: stack) h4 p).1 =
          some (.value (.new Catalog.OpenCv.rect "c <@vg#2#@> <@vg#3#@>")) := rfl
      simp only [hf, hv] at hr
      obtain rfl := (Option.some.inj hr).symm
      decide +kernel

theorem separate {ok : Unit → Prop} {a : Nat} {r : Resolved} (ht : countedImports.tier? a = some .last)
    (h : countedImports.Gives ok .last a r) : ∀ k ∈ markerIds r.toText, countedImports.tier? k ≠ some .normal := by
  obtain ⟨ha, stack, p, -, hr⟩ := h
  rcases cases_lt ha with rfl | rfl | rfl | rfl | rfl | rfl
  · cases ht
  · cases ht
  · obtain rfl := (Option.some.inj hr).symm
    intro k hk
    rw [Resolved.toText, (tidy_toString _).2] at hk
    cases hk
  · cases ht
  · cases ht
  · cases ht

end countedImports

end Registry

/-- The count stands in the text, so it is not taken anew when more is imported. -/
theorem Planned.resolveText_idempotent_countedImports :
    have once := Registry.countedImports.resolveText "<@vg#0#@> <@vg#5#@>" .empty ()
    once.text = "<@vg#0#@> c 1 <@vg#3#@>" ∧ once.progress.imports.size = 1 ∧
      (Registry.countedImports.resolveText once.text once.progress.imports once.progress.outside).text = once.text ∧
      (Registry.countedImports.resolveText once.text once.progress.imports once.progress.outside).unresolved =
        once.unresolved := by
  intro once
  have htidy : Tidy "<@vg#0#@> <@vg#5#@>" := by decide +kernel
  obtain ⟨hok, hagain⟩ := Registry.countedImports.planned.resolveText_idempotent Registry.countedImports.apart
    Registry.countedImports.tidy Registry.countedImports.separate htidy .empty trivial
  exact ⟨by decide +kernel, by decide +kernel, hagain once.progress.imports once.progress.outside hok⟩

end Pipewright
