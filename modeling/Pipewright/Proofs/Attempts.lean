import Pipewright.Placeholder.Resolution
import Pipewright.Proofs.ImportScope
import Pipewright.Proofs.Segments

/-!
# What one attempt can do

`Registry.Answers` and `Registry.Attempts` list the ways in which asking for a
value and expanding a marker can end; later proofs go through these cases and
never unfold the two functions. A relation between the progress before and
after that the single steps keep is kept by whole resolutions (`Keeps`); the
first use of that is that resolution only adds to its progress (`Grows`).
-/

namespace Pipewright

variable {σ : Type}

/-- The recipe asks only for what `A` admits and keeps the outside state in `ok`. -/
def Recipe.Within (A : Resolvable → Prop) (ok : σ → Prop) : Recipe σ → Prop
  | give _ => True
  | look k => ∀ v, (k v).Within A ok
  | register _ k => ∀ isNew, (k isNew).Within A ok
  | ask r k => A r ∧ ∀ found, (k found).Within A ok
  | load k => ∀ s, ok s → (k s).Within A ok
  | store s next => ok s ∧ next.Within A ok

theorem Recipe.Within.mono {A B : Resolvable → Prop} {ok : σ → Prop} (hAB : ∀ r, A r → B r) {recipe : Recipe σ}
    (h : recipe.Within A ok) : recipe.Within B ok := by
  induction recipe with
  | give _ => trivial
  | look k ih => exact fun v => ih v (h v)
  | register _ k ih => exact fun isNew => ih isNew (h isNew)
  | ask r k ih => exact ⟨hAB r h.1, fun found => ih found (h.2 found)⟩
  | load k ih => exact fun s hs => ih s (h s hs)
  | store s next ih => exact ⟨h.1, ih h.2⟩

namespace Registry

variable (reg : Registry σ)

def Knows : Resolvable → Prop
  | .now _ => True
  | .later d => reg.tier? d.id = some d.tier

structure WellTiered (ok : σ → Prop) : Prop where
  within : ∀ {id} (h : id < reg.size), reg.entries[id].recipe.Within reg.Knows ok

theorem tier?_eq_some_iff {id : Nat} {tier : Tier} :
    reg.tier? id = some tier ↔ ∃ h : id < reg.size, reg.entries[id].tier = tier := by
  constructor
  · intro ht
    obtain ⟨e, he, rfl⟩ := Option.map_eq_some_iff.mp ht
    obtain ⟨h, rfl⟩ := Array.getElem?_eq_some_iff.mp he
    exact ⟨h, rfl⟩
  · rintro ⟨h, rfl⟩
    rw [tier?, entry?, Array.getElem?_eq_getElem h]
    rfl

theorem entry?_of_prefix {reg reg' : Registry σ} (h : reg.entries.toList <+: reg'.entries.toList) {id : Nat}
    {entry : Entry σ} (hentry : reg.entry? id = some entry) : reg'.entry? id = some entry := by
  unfold entry? at hentry ⊢
  rw [← Array.getElem?_toList] at hentry ⊢
  obtain ⟨more, hmore⟩ := h
  rw [← hmore, List.getElem?_append_left (List.getElem?_eq_some_iff.mp hentry).1, hentry]

def call (tier : Tier) (stack : List Nat) {id : Nat} (h : id < reg.size) (p : Progress σ) :
    Option Resolved × Progress σ :=
  reg.entries[id].recipe.run (reg.view tier (id :: stack)) (reg.resolve tier (id :: stack)) p

def Gives (ok : σ → Prop) (tier : Tier) (a : Nat) (r : Resolved) : Prop :=
  ∃ (h : a < reg.size) (stack : List Nat) (p : Progress σ), ok p.outside ∧ (reg.call tier stack h p).1 = some r

def inner (tier : Tier) (stack : List Nat) (id : Nat) (r : Resolved) (p : Progress σ) : Sweep σ :=
  sweepSegments (reg.expand tier (id :: stack)) (segments r.toText) (p.registerAll r.imports)

/-- A marker of `id` is expanded in a tier: it belongs there, or it waited for the last tier. -/
def IsOpen (tier : Tier) {id : Nat} (h : id < reg.size) (p : Progress σ) : Prop :=
  reg.entries[id].tier = tier ∨ tier = .last ∧ id ∈ p.waiting

/-- Induction on the placeholders that are left to enter. -/
theorem descent {motive : List Nat → Prop}
    (step : ∀ stack, (∀ id, id < reg.size → id ∉ stack → motive (id :: stack)) → motive stack)
    (stack : List Nat) : motive stack :=
  step stack fun id _hid _hs => descent step (id :: stack)
termination_by remaining reg.ids stack
decreasing_by exact remaining_enter_lt (List.mem_range.2 _hid) (by simpa using _hs)

inductive Answers (tier : Tier) (stack : List Nat) (id : Nat) (own : Tier) (p : Progress σ) :
    Option Resolved × Progress σ → Prop
  | early : own = .last → tier = .normal → Answers tier stack id own p (none, { p with deferred := p.deferred + 1 })
  | cycle : (own = .last → tier = .last) → id ∈ stack → Answers tier stack id own p (none, p.recordCycle id stack)
  | unknown : ¬ id < reg.size → Answers tier stack id own p (none, p)
  | called (h : id < reg.size) : (own = .last → tier = .last) → id ∉ stack →
      Answers tier stack id own p (reg.call tier stack h p)

theorem answers (tier : Tier) (stack : List Nat) (id : Nat) (own : Tier) (p : Progress σ) :
    reg.Answers tier stack id own p (reg.resolve tier stack (.later ⟨id, own⟩) p) := by
  rw [resolve]
  split
  · rename_i h; exact .early h.1 h.2
  · rename_i h
    have hown : own = .last → tier = .last := fun ho => by
      cases tier with
      | normal => exact absurd ⟨ho, rfl⟩ h
      | last => rfl
    split
    · rename_i hs; exact .cycle hown (by simpa using hs)
    · rename_i hs
      split
      · rename_i hid; exact .called hid hown (by simpa using hs)
      · rename_i hid; exact .unknown hid

/-- Nothing comes of asking for a placeholder, or what comes of a call. -/
theorem resolve_eq_call (tier : Tier) (stack : List Nat) (id : Nat) (own : Tier) (p : Progress σ) :
    (reg.resolve tier stack (.later ⟨id, own⟩) p).1 = none ∨
      ∃ h : id < reg.size, reg.resolve tier stack (.later ⟨id, own⟩) p = reg.call tier stack h p := by
  generalize he : reg.resolve tier stack (.later ⟨id, own⟩) p = o
  cases he ▸ reg.answers tier stack id own p with
  | early _ _ => exact .inl rfl
  | cycle _ _ => exact .inl rfl
  | unknown _ => exact .inl rfl
  | called h _ _ => exact .inr ⟨h, rfl⟩

inductive Attempts (tier : Tier) (stack : List Nat) (id : Nat) (p : Progress σ) : Option String × Progress σ → Prop
  | unknown : ¬ id < reg.size → Attempts tier stack id p (none, p)
  | closed (h : id < reg.size) : ¬ reg.IsOpen tier h p → Attempts tier stack id p (none, p)
  | cycle (h : id < reg.size) : reg.IsOpen tier h p → id ∈ stack →
      Attempts tier stack id p (none, p.recordCycle id stack)
  | without (h : id < reg.size) {q : Progress σ} : reg.IsOpen tier h p → id ∉ stack →
      reg.call tier stack h p = (none, q) → Attempts tier stack id p (none, q.giveUp p.mark id)
  | undone (h : id < reg.size) {r : Resolved} {q : Progress σ} : reg.IsOpen tier h p → id ∉ stack →
      reg.call tier stack h p = (some r, q) →
      (reg.inner tier stack id r q).progress.cycles.length ≠ p.cycles.length →
      Attempts tier stack id p (none, (reg.inner tier stack id r q).progress.giveUp p.mark id)
  | done (h : id < reg.size) {r : Resolved} {q : Progress σ} : reg.IsOpen tier h p → id ∉ stack →
      reg.call tier stack h p = (some r, q) →
      (reg.inner tier stack id r q).progress.cycles.length = p.cycles.length →
      Attempts tier stack id p (some (reg.inner tier stack id r q).text, (reg.inner tier stack id r q).progress)

theorem attempts (tier : Tier) (stack : List Nat) (id : Nat) (p : Progress σ) :
    reg.Attempts tier stack id p (reg.expand tier stack id p) := by
  rw [expand]
  split
  · rename_i hid
    simp only
    split
    · rename_i h
      refine .closed hid fun ho => ?_
      rcases ho with ho | ⟨ht, hw⟩
      · exact h.1 ho
      · exact h.2 ⟨ht, by simpa using hw⟩
    · rename_i h
      have ho : reg.IsOpen tier hid p := by
        by_cases he : reg.entries[id].tier = tier
        · exact .inl he
        · refine .inr ⟨?_, ?_⟩
          · exact Classical.byContradiction fun ht => h ⟨he, fun hw => ht hw.1⟩
          · exact Classical.byContradiction fun ht => h ⟨he, fun hw => ht (by simpa using hw.2)⟩
      split
      · rename_i hs; exact .cycle hid ho (by simpa using hs)
      · rename_i hs
        have hs : id ∉ stack := by simpa using hs
        split
        · rename_i q hc; exact .without hid ho hs hc
        · rename_i r q hc
          split
          · rename_i hl; exact .done hid ho hs hc hl
          · rename_i hl; exact .undone hid ho hs hc hl
  · rename_i hid; exact .unknown hid

theorem Attempts.expand_eq {reg : Registry σ} {tier : Tier} {stack : List Nat} {id : Nat} {p : Progress σ}
    {o : Option String × Progress σ} (ha : reg.Attempts tier stack id p o) : reg.expand tier stack id p = o := by
  have hopen : ∀ {h : id < reg.size}, reg.IsOpen tier h p →
      ¬ (reg.entries[id].tier ≠ tier ∧ ¬(tier = .last ∧ p.waiting.contains id)) := by
    intro h ho hc
    rcases ho with ho | ⟨ht, hw⟩
    · exact hc.1 ho
    · exact hc.2 ⟨ht, by simpa using hw⟩
  rw [expand]
  cases ha with
  | unknown h => rw [dif_neg h]
  | closed h ho =>
    rw [dif_pos h]
    refine if_pos ⟨fun ht => ho (.inl ht), fun hw => ho (.inr ⟨hw.1, by simpa using hw.2⟩)⟩
  | cycle h ho hs =>
    rw [dif_pos h]
    simp only [if_neg (hopen ho), dif_pos (show stack.contains id by simpa using hs)]
  | without h ho hs hc =>
    rw [call] at hc
    rw [dif_pos h]
    simp only [if_neg (hopen ho), dif_neg (show ¬ stack.contains id by simpa using hs), hc]
  | undone h ho hs hc hl =>
    rw [call] at hc
    rw [dif_pos h]
    simp only [if_neg (hopen ho), dif_neg (show ¬ stack.contains id by simpa using hs), hc]
    exact if_neg hl
  | done h ho hs hc hl =>
    rw [call] at hc
    rw [dif_pos h]
    simp only [if_neg (hopen ho), dif_neg (show ¬ stack.contains id by simpa using hs), hc]
    exact if_pos hl

end Registry

/-! ## Sweeps -/

section
variable (expand : Nat → Progress σ → Option String × Progress σ)

theorem sweepSegments_plain (text : String) (rest : List Segment) (p : Progress σ) :
    sweepSegments expand (.plain text :: rest) p =
      { sweepSegments expand rest p with pieces := text :: (sweepSegments expand rest p).pieces } := rfl

variable {expand}

theorem sweepSegments_some {id : Nat} {raw text : String} {p q : Progress σ} (h : expand id p = (some text, q))
    (rest : List Segment) :
    sweepSegments expand (.marker id raw :: rest) p =
      ⟨text :: (sweepSegments expand rest q).pieces, true, (sweepSegments expand rest q).progress⟩ := by
  rw [sweepSegments, h]

theorem sweepSegments_none {id : Nat} {p q : Progress σ} (h : expand id p = (none, q)) (raw : String)
    (rest : List Segment) :
    sweepSegments expand (.marker id raw :: rest) p =
      { sweepSegments expand rest q with pieces := raw :: (sweepSegments expand rest q).pieces } := by
  rw [sweepSegments, h]

theorem sweepSegments_progress (id : Nat) (raw : String) (rest : List Segment) (p : Progress σ) :
    (sweepSegments expand (.marker id raw :: rest) p).progress =
      (sweepSegments expand rest (expand id p).2).progress := by
  cases h : expand id p with
  | mk found q =>
    cases found with
    | none => rw [sweepSegments_none h]
    | some text => rw [sweepSegments_some h]

theorem sweepSegments_append (xs ys : List Segment) (p : Progress σ) :
    sweepSegments expand (xs ++ ys) p =
      ⟨(sweepSegments expand xs p).pieces ++ (sweepSegments expand ys (sweepSegments expand xs p).progress).pieces,
        (sweepSegments expand xs p).changed || (sweepSegments expand ys (sweepSegments expand xs p).progress).changed,
        (sweepSegments expand ys (sweepSegments expand xs p).progress).progress⟩ := by
  induction xs generalizing p with
  | nil => simp [sweepSegments]
  | cons s xs ih =>
    cases s with
    | plain t => simp [sweepSegments_plain, ih]
    | marker id raw =>
      cases h : expand id p with
      | mk found q =>
        cases found with
        | none => simp [sweepSegments_none h, ih]
        | some text => simp [sweepSegments_some h, ih]

end

/-- A sweep whose attempts do not depend on the progress, as long as it stays in `I`. -/
theorem sweepSegments_eq {expand : Nat → Progress σ → Option String × Progress σ} {f : Nat → Option String}
    {I : Progress σ → Prop} : ∀ segs : List Segment,
    (∀ id ∈ segs.filterMap Segment.id?, ∀ p, I p → (expand id p).1 = f id ∧ I (expand id p).2) → ∀ p, I p →
      (sweepSegments expand segs p).pieces = segs.map (Segment.replace f) ∧
      (sweepSegments expand segs p).changed = segs.any (fun s => (s.id?.bind f).isSome) ∧
      I (sweepSegments expand segs p).progress
  | [], _, p, hp => ⟨rfl, rfl, hp⟩
  | .plain t :: rest, h, p, hp => by
    obtain ⟨ht, hc, hi⟩ := sweepSegments_eq rest h p hp
    rw [sweepSegments_plain, List.map_cons, List.any_cons, ht, hc]
    exact ⟨rfl, rfl, hi⟩
  | .marker id raw :: rest, h, p, hp => by
    obtain ⟨hf, hi⟩ := h id (List.mem_cons_self ..) p hp
    obtain ⟨ht, hc, hi⟩ := sweepSegments_eq rest (fun k hk => h k (List.mem_cons_of_mem _ hk)) _ hi
    cases he : expand id p with
    | mk found q =>
      rw [he] at hf ht hc hi
      cases found with
      | none =>
        rw [sweepSegments_none he, List.map_cons, List.any_cons, ht, hc]
        exact ⟨by simp [Segment.replace, ← hf], by simp [Segment.id?, ← hf], hi⟩
      | some text =>
        rw [sweepSegments_some he, List.map_cons, List.any_cons, ht]
        exact ⟨by simp [Segment.replace, ← hf], by simp [Segment.id?, ← hf], hi⟩

/-- A sweep without a substitution writes each piece as it was and keeps what each failed attempt keeps. -/
theorem sweepSegments_unchanged {expand : Nat → Progress σ → Option String × Progress σ} {I : Progress σ → Prop}
    (h : ∀ id p, I p → (expand id p).1 = none → I (expand id p).2) : ∀ segs p, I p →
    (sweepSegments expand segs p).changed = false →
      (sweepSegments expand segs p).pieces = segs.map Segment.text ∧ I (sweepSegments expand segs p).progress
  | [], p, hp, _ => ⟨rfl, hp⟩
  | .plain t :: rest, p, hp, hc => by
    rw [sweepSegments_plain] at hc ⊢
    obtain ⟨ht, hi⟩ := sweepSegments_unchanged h rest p hp hc
    exact ⟨by rw [ht]; rfl, hi⟩
  | .marker id raw :: rest, p, hp, hc => by
    cases he : expand id p with
    | mk found q =>
      cases found with
      | none =>
        rw [sweepSegments_none he] at hc ⊢
        have hq := h id p hp (by rw [he])
        rw [he] at hq
        obtain ⟨ht, hi⟩ := sweepSegments_unchanged h rest q hq hc
        exact ⟨by rw [ht]; rfl, hi⟩
      | some text =>
        rw [sweepSegments_some he] at hc
        cases hc

theorem Registry.sweeps_succ (reg : Registry σ) (tier : Tier) (count : Nat) (text : String) (p : Progress σ) :
    reg.sweeps tier (count + 1) text p =
      if (reg.sweep tier text p).changed then
        reg.sweeps tier count (reg.sweep tier text p).text (reg.sweep tier text p).progress
      else ((reg.sweep tier text p).text, (reg.sweep tier text p).progress) := rfl

/-- The text and the progress when the last tier begins. -/
def Registry.normalTier (reg : Registry σ) (text : String) (imports : ImportScope) (outside : σ) :
    String × Progress σ :=
  reg.sweeps .normal maxSweeps text { imports, outside }

theorem Registry.resolveText_eq (reg : Registry σ) (text : String) (imports : ImportScope) (outside : σ) :
    reg.resolveText text imports outside =
      have mid := reg.normalTier text imports outside
      ⟨(reg.sweeps .last maxSweeps mid.1 mid.2).1, (reg.sweeps .last maxSweeps mid.1 mid.2).2⟩ :=
  rfl

/-! ## What every step keeps -/

section
variable {R : Progress σ → Progress σ → Prop} (refl : ∀ p, R p p) (trans : ∀ {p q r}, R p q → R q r → R p r)
include refl trans

theorem sweepSegments_keeps {expand : Nat → Progress σ → Option String × Progress σ}
    (h : ∀ id p, R p (expand id p).2) : ∀ segs p, R p (sweepSegments expand segs p).progress
  | [], p => refl p
  | .plain _ :: rest, p => sweepSegments_keeps h rest p
  | .marker id raw :: rest, p => by
    rw [sweepSegments_progress]
    exact trans (h id p) (sweepSegments_keeps h rest _)

theorem Registry.sweeps_keeps {reg : Registry σ} {tier : Tier} (h : ∀ text p, R p (reg.sweep tier text p).progress)
    (count : Nat) (text : String) (p : Progress σ) : R p (reg.sweeps tier count text p).2 := by
  induction count generalizing text p with
  | zero => exact refl p
  | succ count ih =>
    rw [sweeps_succ]
    split
    · exact trans (h text p) (ih _ _)
    · exact h text p

end

namespace Registry

/-- The single steps of a resolution in a tier keep `R`, as long as what is in flight satisfies `P`. Recipes that
only ask for what `A` admits are called, those of the ids in `G`. -/
structure Keeps (reg : Registry σ) (tier : Tier) (P : List Nat → Prop) (A : Resolvable → Prop) (G : Nat → Prop)
    (R : Progress σ → Progress σ → Prop) : Prop where
  refl : ∀ p, R p p
  trans : ∀ {p q r}, R p q → R q r → R p r
  enter : ∀ {id stack}, P stack → id < reg.size → id ∉ stack → P (id :: stack)
  early : ∀ {id}, A (.later ⟨id, .last⟩) → tier = .normal →
    ∀ p : Progress σ, R p { p with deferred := p.deferred + 1 }
  cycle : ∀ (p : Progress σ) id stack, P stack → id ∈ stack → R p (p.recordCycle id stack)
  value : ∀ (p : Progress σ) types, R p (p.registerAll types)
  giveUp : ∀ {p q : Progress σ} id, R p q → R p (q.giveUp p.mark id)
  asked : ∀ {id own}, id < reg.size → A (.later ⟨id, own⟩) → (own = .last → tier = .last) → G id
  swept : ∀ {id} (h : id < reg.size), (tier = .normal → reg.entries[id].tier = .normal) → G id
  called : ∀ {id} (h : id < reg.size) stack answer, P (id :: stack) → G id →
    (∀ r, A r → ∀ p, R p (answer r p).2) → ∀ p,
      R p (reg.entries[id].recipe.run (reg.view tier (id :: stack)) answer p).2

theorem IsOpen.tier_eq {reg : Registry σ} {tier : Tier} {id : Nat} {h : id < reg.size} {p : Progress σ}
    (ho : reg.IsOpen tier h p) (ht : tier = .normal) : reg.entries[id].tier = .normal := by
  subst ht
  exact ho.resolve_right fun hw => Tier.noConfusion hw.1

namespace Keeps

variable {reg : Registry σ} {tier : Tier} {P : List Nat → Prop} {A : Resolvable → Prop} {G : Nat → Prop}
  {R : Progress σ → Progress σ → Prop} (k : reg.Keeps tier P A G R)
include k

theorem resolve (stack : List Nat) : P stack → ∀ r, A r → ∀ p, R p (reg.resolve tier stack r p).2 := by
  induction stack using reg.descent with
  | step stack ih =>
    intro hP r hr p
    cases r with
    | now value => rw [Registry.resolve]; exact k.refl p
    | later placeholder =>
      obtain ⟨id, own⟩ := placeholder
      generalize he : reg.resolve tier stack (.later ⟨id, own⟩) p = o
      cases he ▸ reg.answers tier stack id own p with
      | early ho ht => exact k.early (ho ▸ hr) ht p
      | cycle _ hs => exact k.cycle p id stack hP hs
      | unknown _ => exact k.refl p
      | called h hown hs =>
        have hP := k.enter hP h hs
        exact k.called h stack _ hP (k.asked h hr hown) (ih id h hs hP) p

/-- A call from a marker that is open. -/
theorem call {stack : List Nat} (hP : P stack) {id : Nat} (h : id < reg.size) {p : Progress σ}
    (ho : reg.IsOpen tier h p) (hs : id ∉ stack) : R p (reg.call tier stack h p).2 := by
  have hP := k.enter hP h hs
  exact k.called h stack _ hP (k.swept h ho.tier_eq) (k.resolve (id :: stack) hP) p

theorem inner {stack : List Nat} (hP : P stack) {id : Nat} (h : id < reg.size) {p q : Progress σ} {r : Resolved}
    (ho : reg.IsOpen tier h p) (hs : id ∉ stack) (hc : reg.call tier stack h p = (some r, q))
    (hexp : ∀ j p, R p (reg.expand tier (id :: stack) j p).2) :
    R p (reg.inner tier stack id r q).progress := by
  have hq := k.call hP h ho hs
  rw [hc] at hq
  exact k.trans hq (k.trans (k.value q r.imports) (sweepSegments_keeps k.refl k.trans hexp _ _))

theorem expand (stack : List Nat) : P stack → ∀ id p, R p (reg.expand tier stack id p).2 := by
  induction stack using reg.descent with
  | step stack ih =>
    intro hP id p
    have hexp : ∀ h : id < reg.size, id ∉ stack → ∀ j p, R p (reg.expand tier (id :: stack) j p).2 := fun h hs =>
      ih id h hs (k.enter hP h hs)
    generalize he : reg.expand tier stack id p = o
    cases he ▸ reg.attempts tier stack id p with
    | unknown _ => exact k.refl p
    | closed _ _ => exact k.refl p
    | cycle _ _ hs => exact k.cycle p id stack hP hs
    | without h ho hs hc =>
      have hq := k.call hP h ho hs
      rw [hc] at hq
      exact k.giveUp id hq
    | undone h ho hs hc _ => exact k.giveUp id (k.inner hP h ho hs hc (hexp h hs))
    | done h ho hs hc _ => exact k.inner hP h ho hs hc (hexp h hs)

theorem sweeps (hP : P []) (count : Nat) (text : String) (p : Progress σ) :
    R p (reg.sweeps tier count text p).2 :=
  sweeps_keeps k.refl k.trans (fun _ _ => sweepSegments_keeps k.refl k.trans (k.expand [] hP) _ _) count text p

end Keeps

end Registry

/-! ## Growth -/

theorem Progress.mem_waiting_giveUp {q : Progress σ} {start : Mark} {id k : Nat} :
    k ∈ (q.giveUp start id).waiting ↔ k ∈ q.waiting ∨ start.deferred < q.deferred ∧ k = id := by
  unfold giveUp
  by_cases hd : start.deferred < q.deferred <;> by_cases hm : id ∈ q.waiting <;> simp [hd, hm]
  · exact fun e => e ▸ hm
  · exact or_comm

structure Progress.Grows (p q : Progress σ) : Prop where
  imports : p.imports.types <+: q.imports.types
  cycles : p.cycles <+: q.cycles
  deferred : p.deferred ≤ q.deferred
  waiting : p.waiting ⊆ q.waiting

namespace Progress.Grows

variable {p q r : Progress σ}

theorem refl (p : Progress σ) : Grows p p :=
  ⟨List.prefix_refl _, List.prefix_refl _, Nat.le_refl _, List.Subset.refl _⟩

theorem trans (h : Grows p q) (h' : Grows q r) : Grows p r :=
  ⟨h.imports.trans h'.imports, h.cycles.trans h'.cycles, Nat.le_trans h.deferred h'.deferred,
    List.Subset.trans h.waiting h'.waiting⟩

theorem registerAll (p : Progress σ) (types : List Ty) : Grows p (p.registerAll types) :=
  { refl p with imports := p.imports.prefix_registerAll types }

theorem imports_giveUp (h : Grows p q) (id : Nat) : (q.giveUp p.mark id).imports = p.imports :=
  ImportScope.truncate_of_prefix h.imports

theorem giveUp (h : Grows p q) (id : Nat) : Grows p (q.giveUp p.mark id) where
  imports := ⟨[], by rw [h.imports_giveUp id, List.append_nil]⟩
  cycles := h.cycles
  deferred := h.deferred
  waiting := fun _ hk => mem_waiting_giveUp.mpr (.inl (h.waiting hk))

end Progress.Grows

theorem Recipe.run_keeps {R : Progress σ → Progress σ → Prop} {view : Progress σ → View}
    {answer : Resolvable → Progress σ → Option Resolved × Progress σ} (refl : ∀ p, R p p)
    (trans : ∀ {p q r}, R p q → R q r → R p r) (register : ∀ (p : Progress σ) types, R p (p.registerAll types))
    (store : ∀ (p : Progress σ) s, R p { p with outside := s }) (ask : ∀ r p, R p (answer r p).2)
    (recipe : Recipe σ) (p : Progress σ) : R p (recipe.run view answer p).2 := by
  induction recipe generalizing p with
  | give _ => exact refl p
  | look k ih => exact ih _ p
  | register ty k ih => exact trans (register p [ty]) (ih _ _)
  | ask r k ih => exact trans (ask r p) (ih _ _)
  | load k ih => exact ih _ p
  | store s next ih => exact trans (store p s) (ih _)

theorem Registry.keeps_grows (reg : Registry σ) (tier : Tier) :
    reg.Keeps tier (fun _ => True) (fun _ => True) (fun _ => True) Progress.Grows where
  refl := .refl
  trans := .trans
  enter _ _ _ := trivial
  early _ _ p := { Progress.Grows.refl p with deferred := Nat.le_succ _ }
  cycle p _ _ _ _ := { Progress.Grows.refl p with cycles := List.prefix_append _ _ }
  value := .registerAll
  giveUp id h := h.giveUp id
  asked _ _ _ := trivial
  swept _ _ := trivial
  called _ _ _ _ _ hanswer p :=
    Recipe.run_keeps .refl .trans .registerAll (fun p _ => { Progress.Grows.refl p with })
      (fun r => hanswer r trivial) _ p

/-! ## Nothing asked for too early -/

structure Progress.Calm (p q : Progress σ) : Prop where
  cycles : p.cycles.length ≤ q.cycles.length
  deferred : p.deferred = q.deferred
  waiting : p.waiting = q.waiting

namespace Progress.Calm

variable {p q r : Progress σ}

theorem refl (p : Progress σ) : Calm p p := ⟨Nat.le_refl _, rfl, rfl⟩

theorem trans (h : Calm p q) (h' : Calm q r) : Calm p r :=
  ⟨Nat.le_trans h.cycles h'.cycles, h.deferred.trans h'.deferred, h.waiting.trans h'.waiting⟩

theorem recordCycle (p : Progress σ) (id : Nat) (stack : List Nat) : Calm p (p.recordCycle id stack) :=
  ⟨by simp [Progress.recordCycle], rfl, rfl⟩

theorem giveUp (h : Calm p q) (id : Nat) : Calm p (q.giveUp p.mark id) := by
  refine ⟨h.cycles, h.deferred, ?_⟩
  simp [Progress.giveUp, Progress.mark, h.deferred, h.waiting]

end Progress.Calm

/-- In the last tier nothing is too early. -/
theorem Registry.keeps_calm_last (reg : Registry σ) :
    reg.Keeps .last (fun _ => True) (fun _ => True) (fun _ => True) Progress.Calm where
  refl := .refl
  trans := .trans
  enter _ _ _ := trivial
  early _ ht := Tier.noConfusion ht
  cycle p id stack _ _ := .recordCycle p id stack
  value _ _ := ⟨Nat.le_refl _, rfl, rfl⟩
  giveUp id h := h.giveUp id
  asked _ _ _ := trivial
  swept _ _ := trivial
  called _ _ _ _ _ hanswer p :=
    Recipe.run_keeps .refl .trans (fun _ _ => ⟨Nat.le_refl _, rfl, rfl⟩) (fun _ _ => ⟨Nat.le_refl _, rfl, rfl⟩)
      (fun r => hanswer r trivial) _ p

/-! ## What recipes keep -/

theorem Recipe.Within.outside {A : Resolvable → Prop} {ok : σ → Prop} {view : Progress σ → View}
    {answer : Resolvable → Progress σ → Option Resolved × Progress σ} {recipe : Recipe σ} (h : recipe.Within A ok)
    (hanswer : ∀ r, A r → ∀ p, ok p.outside → ok (answer r p).2.outside) :
    ∀ p, ok p.outside → ok (recipe.run view answer p).2.outside := by
  induction recipe with
  | give _ => exact fun p hp => hp
  | look k ih => exact fun p hp => ih _ (h _) p hp
  | register ty k ih => exact fun p hp => ih _ (h _) _ hp
  | ask r k ih => exact fun p hp => ih _ (h.2 _) _ (hanswer r h.1 p hp)
  | load k ih => exact fun p hp => ih _ (h _ hp) p hp
  | store s next ih => exact fun p _ => ih h.2 { p with outside := s } h.1

namespace Registry

variable {reg : Registry σ} {ok : σ → Prop} {tier : Tier}

def Confined (reg : Registry σ) (ok : σ → Prop) : Prop :=
  ∀ id (h : id < reg.size), reg.entries[id].recipe.Within (fun _ => True) ok

theorem Confined.empty : (empty : Registry σ).Confined ok := fun _ h => absurd h (Nat.not_lt_zero _)

theorem WellTiered.confined (h : reg.WellTiered ok) : reg.Confined ok :=
  fun _ hid => (h.within hid).mono fun _ _ => trivial

theorem Confined.register (h : reg.Confined ok) (own : Tier) {recipe : Recipe σ}
    (hrecipe : recipe.Within (fun _ => True) ok) : (reg.register own recipe).2.Confined ok := by
  intro id hid
  simp only [Registry.register, Array.getElem_push]
  split
  · exact h _ _
  · exact hrecipe

theorem Confined.keeps (h : reg.Confined ok) (tier : Tier) :
    reg.Keeps tier (fun _ => True) (fun _ => True) (fun _ => True) fun p q => ok p.outside → ok q.outside where
  refl _ hp := hp
  trans h h' hp := h' (h hp)
  enter _ _ _ := trivial
  early _ _ _ hp := hp
  cycle _ _ _ _ _ hp := hp
  value _ _ hp := hp
  giveUp _ h hp := h hp
  asked _ _ _ := trivial
  swept _ _ := trivial
  called hid _ _ _ _ hanswer := (h _ hid).outside fun r _ p hp => hanswer r trivial p hp

theorem Confined.call (h : reg.Confined ok) (tier : Tier) (stack : List Nat) {id : Nat} (hid : id < reg.size) :
    ∀ p, ok p.outside → ok (reg.call tier stack hid p).2.outside :=
  (h id hid).outside fun r _ p => (h.keeps tier).resolve _ trivial r trivial p

theorem Confined.expand (h : reg.Confined ok) (tier : Tier) (stack : List Nat) (id : Nat) (p : Progress σ) :
    ok p.outside → ok (reg.expand tier stack id p).2.outside :=
  (h.keeps tier).expand stack trivial id p

theorem Confined.sweep (h : reg.Confined ok) (tier : Tier) (text : String) (p : Progress σ) (hp : ok p.outside) :
    ok (reg.sweep tier text p).progress.outside := by
  let R := fun p q : Progress σ => ok p.outside → ok q.outside
  have hkeeps : reg.Keeps tier (fun _ => True) (fun _ => True) (fun _ => True) R := h.keeps tier
  have hswept : R p (reg.sweep tier text p).progress :=
    sweepSegments_keeps hkeeps.refl hkeeps.trans (hkeeps.expand [] trivial) (segments text) p
  exact hswept hp

end Registry

end Pipewright
