import Pipewright.Proofs.Lockstep
import Pipewright.Proofs.Parts

/-!
# Placeholders that stand for others

A placeholder may stand for a value that will be known as another placeholder, its
target. It belongs to the normal tier, so with a target of the last tier it gives up
at first, waits, and is tried again when the target is. All the same a text with its
marker is resolved to the one that the marker of the target gives
(`Registry.resolveText_link`).
-/

namespace Pipewright

variable {σ : Type}

theorem Recipe.blind_ofSupplier (supplier : σ → Option Resolvable × σ) : (Recipe.ofSupplier supplier).Blind := by
  intro s
  cases hs : (supplier s).1 with
  | none =>
    simp only [hs]
    trivial
  | some r =>
    simp only [hs]
    exact fun found => trivial

theorem Recipe.within_ofSupplier {supplier : σ → Option Resolvable × σ} {ok : σ → Prop} {r : Resolvable}
    (h : ∀ s, ok s → supplier s = (some r, s)) : (Recipe.ofSupplier supplier).Within (fun _ => True) ok := by
  intro s hs
  simp only [h s hs]
  exact ⟨hs, trivial, fun found => trivial⟩

namespace Registry

theorem ofSupplier_none (reg : Registry σ) {supplier : σ → Option Resolvable × σ} {s : σ}
    (h : (supplier s).1 = none) : reg.ofSupplier supplier s =
      (.later ⟨reg.size, .normal⟩, (reg.register .normal (.ofSupplier supplier)).2, (supplier s).2) := by
  unfold ofSupplier
  split
  · rename_i r s' hs
    rw [hs] at h
    cases h
  · rename_i s' hs
    rw [hs]
    rfl

/-- `ofSupplier` has made `link` of a supplier that had nothing then. While the outside state is in `ok`, which all
recipes see to, the supplier has the placeholder `target`. -/
structure StandsFor (reg : Registry σ) (ok : σ → Prop) (supplier : σ → Option Resolvable × σ)
    (link target : Placeholder) : Prop where
  confined : reg.Confined ok
  registered : reg.tier? target.id = some target.tier
  made : ∃ (old new : Registry σ) (before after : σ), (supplier before).1 = none ∧
    old.ofSupplier supplier before = (.later link, new, after) ∧ new.entries.toList <+: reg.entries.toList
  supplies : ∀ s, ok s → supplier s = (some (.later target), s)

structure Links (reg : Registry σ) (ok : σ → Prop) (supplier : σ → Option Resolvable × σ)
    (link target : Placeholder) : Prop extends StandsFor reg ok supplier link target where
  blind : ∀ {id} (h : id < reg.size), reg.entries[id].recipe.Blind
  ne : target.id ≠ link.id

/-- In one of at most `count` sweeps in its tier, the target gives something at its marker between `a` and `b`. None
of the sweeps before leaves it waiting for the last tier. -/
inductive Yields (reg : Registry σ) (target : Placeholder) : (count : Nat) → (a b : String) → Progress σ → Prop
  | now {count : Nat} {a b : String} {p : Progress σ} :
      (reg.resolve target.tier [] (.later target) (reg.sweep target.tier a p).progress).1.isSome →
      Yields reg target (count + 1) a b p
  | later {count : Nat} {a b a' b' : String} {p p' : Progress σ} :
      reg.sweepParts target.tier [a, Marker.text target.id, b] p = ([a', Marker.text target.id, b'], true, p') →
      (target.tier = .normal → target.id ∉ p'.waiting) → Yields reg target count a' b' p' →
      Yields reg target (count + 1) a b p

structure Beside (link target : Placeholder) (tier : Tier) (stack stack' : List Nat) : Prop where
  others : ∀ id ∈ stack', id ∈ stack ∨ id = link.id
  byLink : link.id ∈ stack' → link.id ∈ stack ∨ target.id ∈ stack ∧ ¬(target.tier = .last ∧ tier = .normal)

def Mute (reg : Registry σ) (ok : σ → Prop) (id : Nat) : Prop :=
  ∀ {tier a r}, reg.Gives ok tier a r → id ∉ markerIds r.toText

def Hidden (link target : Placeholder) (id : Nat) : Prop := target.tier = .last ∧ id = link.id

namespace StandsFor

variable {reg : Registry σ} {ok : σ → Prop} {supplier : σ → Option Resolvable × σ} {link target : Placeholder}
  (c : reg.StandsFor ok supplier link target)
include c

theorem entry : reg.entry? link.id = some ⟨.normal, .ofSupplier supplier⟩ := by
  obtain ⟨old, new, before, after, hnone, hmade, hkept⟩ := c.made
  rw [old.ofSupplier_none hnone] at hmade
  simp only [Prod.mk.injEq, Resolvable.later.injEq] at hmade
  obtain ⟨rfl, rfl, -⟩ := hmade
  exact entry?_of_prefix hkept Array.getElem?_push_size

theorem exists_entry : ∃ h : link.id < reg.size, reg.entries[link.id].tier = .normal ∧
    ∀ tier stack p, ok p.outside → reg.call tier stack h p =
      reg.resolve tier (link.id :: stack) (.later target) p := by
  obtain ⟨h, hlink⟩ := Array.getElem?_eq_some_iff.mp c.entry
  refine ⟨h, by rw [hlink], fun tier stack p hp => ?_⟩
  show reg.entries[link.id].recipe.run _ _ p = _
  rw [hlink]
  simp only [Recipe.ofSupplier, Recipe.run, c.supplies p.outside hp]

theorem target_lt : target.id < reg.size := (reg.tier?_eq_some_iff.mp c.registered).1

/-- In the first run, the link leads into a cycle when the target is in flight. -/
theorem cycles_of_call {tier : Tier} {stack : List Nat} (hstack : target.id ∈ stack)
    (htier : ¬(target.tier = .last ∧ tier = .normal)) (h : link.id < reg.size) {p : Progress σ} (hp : ok p.outside) :
    (reg.call tier stack h p).2.cycles ≠ [] := by
  obtain ⟨_, -, hcall⟩ := c.exists_entry
  rw [hcall tier stack p hp, reg.resolve_cycle p htier (List.mem_cons_of_mem _ hstack)]
  simp [Progress.recordCycle]

/-- The link has no text but that of its target. -/
theorem mute (h : ∀ {tier id r}, id ≠ link.id → reg.Gives ok tier id r → link.id ∉ markerIds r.toText)
    (hne : target.id ≠ link.id) : reg.Mute ok link.id := by
  intro tier id r hgives
  by_cases hid : id = link.id
  · subst hid
    obtain ⟨hlink, stack, p, hp, hr⟩ := hgives
    obtain ⟨_, -, hcall⟩ := c.exists_entry
    rw [hcall tier stack p hp] at hr
    rcases reg.resolve_eq_call tier (link.id :: stack) target.id target.tier p with hnone | ⟨htarget, htarget'⟩
    · rw [hnone] at hr
      cases hr
    · exact h hne ⟨htarget, link.id :: stack, p, hp, htarget' ▸ hr⟩
  · exact h hid hgives

end StandsFor

namespace Links

variable {reg : Registry σ} {ok : σ → Prop} {supplier : σ → Option Resolvable × σ} {link target : Placeholder}
  (c : reg.Links ok supplier link target)
include c

theorem inStep (hmute : target.tier = .last → reg.Mute ok link.id) (tier : Tier) :
    reg.InStep ok tier (Hidden link target) (Beside link target tier) where
  confined := c.confined
  blind := c.blind
  enter {stack stack' id} h := by
    constructor
    · intro k hk
      rcases List.mem_cons.mp hk with rfl | hk
      · exact .inl (List.mem_cons_self ..)
      · exact (h.others k hk).imp_left (List.mem_cons_of_mem _)
    · intro hk
      rcases List.mem_cons.mp hk with hlink | hk
      · exact .inl (hlink ▸ List.mem_cons_self ..)
      · exact (h.byLink hk).imp (List.mem_cons_of_mem _) (And.imp_left (List.mem_cons_of_mem _))
  free {stack stack' id} h hs hs' := by
    obtain rfl := (h.others id hs').resolve_left hs
    obtain ⟨htarget, htier⟩ := (h.byLink hs').resolve_left hs
    exact ⟨c.exists_entry.1, fun p hp => c.cycles_of_call htarget htier _ hp⟩
  shown := by
    intro stack id h p q r hp hc k hk hhidden
    obtain ⟨hlast, rfl⟩ := hhidden
    exact hmute hlast ⟨h, stack, p, hp, by rw [hc]⟩ hk

end Links

/-! ## The first attempt -/

theorem not_early (tier : Tier) : ¬(tier = .last ∧ tier = .normal) := by
  rintro ⟨hlast, hnormal⟩
  rw [hlast] at hnormal
  cases hnormal

namespace Links

variable {reg : Registry σ} {ok : σ → Prop} {supplier : σ → Option Resolvable × σ} {link target : Placeholder}
  (c : reg.Links ok supplier link target) {more : Nat} {p q : Progress σ}
include c

/-- In the normal tier nothing comes of a target of the last tier. -/
theorem expand_target_early (hlast : target.tier = .last) (p : Progress σ) :
    reg.expand .normal [] target.id p = (none, p) := by
  obtain ⟨htarget, hown⟩ := reg.tier?_eq_some_iff.mp c.registered
  have hclosed : ¬ reg.IsOpen .normal htarget p := by
    rintro (h | h)
    · rw [hown, hlast] at h
      cases h
    · cases h.1
  exact (Attempts.closed htarget hclosed : reg.Attempts .normal [] target.id p _).expand_eq

/-- Nor does anything come of its link, which begins to wait. -/
theorem expand_link_early (hlast : target.tier = .last) (hq : ok q.outside) :
    reg.expand .normal [] link.id q =
      (none, Progress.giveUp { q with deferred := q.deferred + 1 } q.mark link.id) := by
  obtain ⟨hlink, htier, hcall⟩ := c.exists_entry
  have hearly : reg.call .normal [] hlink q = (none, { q with deferred := q.deferred + 1 }) := by
    rw [hcall .normal [] q hq]
    exact reg.resolve_early q ⟨hlast, rfl⟩
  have hattempt : reg.Attempts .normal [] link.id q _ := .without hlink (.inl htier) List.not_mem_nil hearly
  exact hattempt.expand_eq

omit c in
theorem alike_waiting (hlast : target.tier = .last) (hlike : p.Alike (Hidden link target) more q) :
    p.Alike (Hidden link target) (more + 1)
      (Progress.giveUp { q with deferred := q.deferred + 1 } q.mark link.id) where
  imports := by
    have hkept : q.imports.truncate q.imports.size = q.imports :=
      ImportScope.truncate_of_prefix (List.prefix_refl _)
    exact hkept.trans hlike.imports
  cycles := hlike.cycles
  outside := hlike.outside
  deferred := congrArg (· + 1) hlike.deferred
  waiting := by
    intro k hk
    have hne : k ≠ link.id := fun h => hk ⟨hlast, h⟩
    rw [Progress.mem_waiting_giveUp, ← hlike.waiting k hk]
    simp [hne]

/-- In its own tier, the target comes to something where its recipe gives something. -/
theorem isSome_own (hyields : (reg.resolve target.tier [] (.later target) p).1.isSome)
    (hcycles : (reg.expand target.tier [] target.id p).2.cycles = []) :
    (reg.expand target.tier [] target.id p).1.isSome := by
  obtain ⟨htarget, hown⟩ := reg.tier?_eq_some_iff.mp c.registered
  rw [reg.resolve_called p (not_early target.tier) List.not_mem_nil htarget] at hyields
  exact reg.isSome_expand htarget (.inl hown) List.not_mem_nil hyields hcycles

omit c in
/-- In the last tier nothing is put off, and in the normal tier what is put off is left waiting. -/
theorem not_put_off {htarget : target.id < reg.size} {p' : Progress σ} (ho : reg.IsOpen target.tier htarget p)
    (hcall : reg.call target.tier [] htarget p = (none, p'))
    (hkept : target.tier = .normal → target.id ∉ (p'.giveUp p.mark target.id).waiting) :
    ¬ p.deferred < p'.deferred := by
  intro hlate
  cases ht : target.tier with
  | normal => exact hkept ht (Progress.mem_waiting_giveUp.mpr (.inr ⟨hlate, rfl⟩))
  | last =>
    rw [ht] at ho hcall
    have hcalm := reg.keeps_calm_last.call trivial htarget ho List.not_mem_nil
    rw [hcall] at hcalm
    exact Nat.lt_irrefl _ (hcalm.deferred ▸ hlate)

/-- In the tier of the target, the link gives what the target gives. -/
theorem call_own (hmute : target.tier = .last → reg.Mute ok link.id) (hlike : p.Alike (Hidden link target) more q)
    (hp : ok p.outside) (htarget : target.id < reg.size) (hlink : link.id < reg.size) :
    Matches (Hidden link target) more (reg.call target.tier [] htarget p) (reg.call target.tier [] hlink q) := by
  obtain ⟨_, -, hcall⟩ := c.exists_entry
  have hentered : Beside link target target.tier [target.id] [target.id, link.id] := by
    constructor
    · intro id hid
      simpa using hid
    · exact fun _ => .inr ⟨List.mem_singleton.mpr rfl, not_early target.tier⟩
  rw [hcall target.tier [] q (hlike.outside ▸ hp),
    reg.resolve_called q (not_early target.tier) (by simpa using c.ne) htarget]
  have k := c.inStep hmute target.tier
  exact k.call_of_resolve htarget (k.resolve _ hentered) hlike hp

/-- What comes of the target comes of the link too. -/
theorem expand_own (hmute : target.tier = .last → reg.Mute ok link.id) (hlike : p.Alike (Hidden link target) more q)
    (hp : ok p.outside) (hwaits : target.tier = .last → link.id ∈ q.waiting)
    (hkept : (reg.resolve target.tier [] (.later target) p).1 = none → target.tier = .normal →
      target.id ∉ (reg.expand target.tier [] target.id p).2.waiting)
    (hcycles : (reg.expand target.tier [] target.id p).2.cycles = []) :
    (reg.expand target.tier [] link.id q).1 = (reg.expand target.tier [] target.id p).1 ∧
      (reg.expand target.tier [] target.id p).2.Alike (Hidden link target) more
        (reg.expand target.tier [] link.id q).2 := by
  obtain ⟨htarget, hown⟩ := reg.tier?_eq_some_iff.mp c.registered
  obtain ⟨hlink, htier, -⟩ := c.exists_entry
  have hopen' : reg.IsOpen target.tier hlink q := by
    cases ht : target.tier with
    | normal => exact .inl (htier.trans rfl)
    | last => exact .inr ⟨rfl, hwaits ht⟩
  have hinside : Beside link target target.tier [target.id] [link.id] := by
    constructor
    · exact fun id hid => .inr (List.mem_singleton.mp hid)
    · exact fun _ => .inr ⟨List.mem_singleton.mpr rfl, not_early target.tier⟩
  have hmatch := c.call_own hmute hlike hp htarget hlink
  have k := c.inStep hmute target.tier
  rw [reg.resolve_called p (not_early target.tier) List.not_mem_nil htarget] at hkept
  generalize he : reg.expand target.tier [] target.id p = o at hcycles hkept
  cases he ▸ reg.attempts target.tier [] target.id p with
  | unknown h => exact absurd htarget h
  | closed _ ho => exact absurd (.inl hown) ho
  | cycle _ _ hs => cases hs
  | @without _ p' ho _ hc =>
    obtain ⟨q', hc', hlike'⟩ := (hc ▸ hmatch).exists_eq (show p'.cycles = [] from hcycles)
    have hlate := not_put_off ho hc (hkept (by rw [hc]))
    have hwithout : reg.Attempts target.tier [] link.id q _ := .without hlink hopen' List.not_mem_nil hc'
    rw [hwithout.expand_eq]
    exact ⟨rfl, hlike.giveUp hlike' (absurd · hlate)⟩
  | undone h ho hs hc hl => exact absurd (reg.cycles_inner h ho hs hc hcycles) hl
  | @done _ r p' _ _ hc hl =>
    have hp' : p'.cycles = [] := (reg.grows_inner target.tier [] target.id r p').no_cycles hcycles
    obtain ⟨q', hc', hlike'⟩ := (hc ▸ hmatch).exists_eq hp'
    obtain ⟨htext, hend⟩ := k.inner_of_expand htarget hp hc (k.expand _ hinside) hlike' hcycles
    have hdone : reg.Attempts target.tier [] link.id q _ :=
      .done hlink hopen' List.not_mem_nil hc' (by rw [hend.cycles, hl, hlike.cycles])
    rw [hdone.expand_eq]
    exact ⟨congrArg some htext, hend⟩

end Links

/-! ## Sweeps of a text around the marker -/

theorem not_mem_markerIds_around {id : Nat} {a between b : String} (h : id ∉ markerIds (a ++ between ++ b)) :
    id ∉ markerIds a ∧ id ∉ markerIds b := by
  constructor
  · intro ha
    exact h (mem_markerIds_mono ⟨[], between.toList ++ b.toList, by simp⟩ ha)
  · intro hb
    exact h (mem_markerIds_mono ⟨a.toList ++ between.toList, [], by simp⟩ hb)

theorem Beside.nil (link target : Placeholder) (tier : Tier) : Beside link target tier [] [] :=
  ⟨fun _ h => .inl h, fun h => .inl h⟩

namespace Links

variable {reg : Registry σ} {ok : σ → Prop} {supplier : σ → Option Resolvable × σ} {link target : Placeholder}
  (c : reg.Links ok supplier link target) (hsize : reg.size ≤ Marker.idBound)
  (hmute : target.tier = .last → reg.Mute ok link.id)
include c hsize hmute

omit c hsize hmute in
theorem shown_of_not_mem {text : String} (h : target.tier = .last → link.id ∉ markerIds text) :
    ∀ id ∈ markerIds text, ¬ Hidden link target id := by
  rintro id hid ⟨hlast, rfl⟩
  exact h hlast hid

/-- Around the marker of a target that is too early, the texts stay alike. -/
theorem sweep_early (hlast : target.tier = .last) {more : Nat} {p q : Progress σ} {a b : String}
    (hlike : p.Alike (Hidden link target) more q) (hp : ok p.outside)
    (hshown : link.id ∉ markerIds (a ++ Marker.text target.id ++ b))
    (hcycles : (reg.sweep .normal (a ++ Marker.text target.id ++ b) p).progress.cycles = []) :
    ∃ a' b' changed p' q', reg.sweepParts .normal [a, Marker.text target.id, b] p =
        ([a', Marker.text target.id, b'], changed, p') ∧
      (reg.sweep .normal (a ++ Marker.text link.id ++ b) q).Comes (a' ++ Marker.text link.id ++ b') changed q' ∧
      p'.Alike (Hidden link target) (more + 1) q' ∧ link.id ∈ q'.waiting := by
  have k := c.inStep hmute .normal
  have htarget : target.id < Marker.idBound := Nat.lt_of_lt_of_le c.target_lt hsize
  have hlink : link.id < Marker.idBound := Nat.lt_of_lt_of_le c.exists_entry.1 hsize
  obtain ⟨ha, hb⟩ := not_mem_markerIds_around hshown
  have hq : ok q.outside := hlike.outside ▸ hp
  have hlate := c.expand_link_early hlast (c.confined.sweep .normal a q hq)
  obtain ⟨a', b', changed, p', q', hparts, hcomes', -, hlike', hgrows⟩ :=
    k.around (.nil link target .normal) htarget hlink (shown_of_not_mem fun _ => ha) (shown_of_not_mem fun _ => hb)
      hlike hp (c.expand_target_early hlast _) hlate (fun hmid => ⟨rfl, alike_waiting hlast hmid⟩) hcycles
  refine ⟨a', b', changed, p', q', hparts, hcomes', hlike', hgrows.waiting ?_⟩
  exact Progress.mem_waiting_giveUp.mpr (.inr ⟨Nat.lt_succ_self _, rfl⟩)

theorem sweeps_early (hlast : target.tier = .last) (count : Nat) : ∀ {a b : String} {more : Nat} {p q : Progress σ},
    p.Alike (Hidden link target) more q → ok p.outside →
    (∀ t ∈ reg.sweepTexts .normal count (a ++ Marker.text target.id ++ b) p, link.id ∉ markerIds t) →
    (reg.sweeps .normal count (a ++ Marker.text target.id ++ b) p).2.cycles = [] →
    ∃ a' b' more' p' q', reg.sweepsParts .normal count [a, Marker.text target.id, b] p =
        ([a', Marker.text target.id, b'], p') ∧
      reg.sweeps .normal count (a ++ Marker.text target.id ++ b) p = (a' ++ Marker.text target.id ++ b', p') ∧
      reg.sweeps .normal count (a ++ Marker.text link.id ++ b) q = (a' ++ Marker.text link.id ++ b', q') ∧
      p'.Alike (Hidden link target) more' q' ∧ ok p'.outside ∧
      (0 < count ∨ link.id ∈ q.waiting → link.id ∈ q'.waiting) := by
  induction count with
  | zero =>
    intro a b more p q hlike hp _ _
    exact ⟨a, b, more, p, q, rfl, rfl, rfl, hlike, hp, fun h => h.resolve_left (Nat.lt_irrefl 0)⟩
  | succ count ih =>
    intro a b more p q hlike hp hshown hcycles
    have hfirst := (reg.sweep_grows .normal count _ p).no_cycles hcycles
    obtain ⟨a', b', changed, p', q', hparts, hcomes', hlike', hwaits⟩ :=
      c.sweep_early hsize hmute hlast hlike hp (hshown _ (List.mem_cons_self ..)) hfirst
    have hcomes := sweep_of_parts (Nat.lt_of_lt_of_le c.target_lt hsize) hparts
    have hp' : ok p'.outside := by
      have := c.confined.sweep .normal (a ++ Marker.text target.id ++ b) p hp
      rwa [hcomes.progress] at this
    rw [sweeps_of_comes hcomes] at hcycles ⊢
    rw [sweeps_of_comes hcomes', sweepsParts, hparts]
    cases changed with
    | false => exact ⟨a', b', _, p', q', rfl, rfl, rfl, hlike', hp', fun _ => hwaits⟩
    | true =>
      have hnext := fun t ht => hshown t (mem_sweepTexts_of_comes hcomes ht)
      obtain ⟨a'', b'', more', p'', q'', hparts', hruns, hruns', hlike'', hp'', hstill⟩ := ih hlike' hp' hnext hcycles
      exact ⟨a'', b'', more', p'', q'', hparts', hruns, hruns', hlike'', hp'', fun _ => hstill (.inr hwaits)⟩

theorem sweep_own {more : Nat} {p q : Progress σ} {a b : String} (hlike : p.Alike (Hidden link target) more q)
    (hp : ok p.outside) (hwaits : target.tier = .last → link.id ∈ q.waiting)
    (hshown : target.tier = .last → link.id ∉ markerIds (a ++ Marker.text target.id ++ b))
    (hkept : (reg.resolve target.tier [] (.later target) (reg.sweep target.tier a p).progress).1 = none →
      target.tier = .normal →
        target.id ∉ (reg.sweep target.tier (a ++ Marker.text target.id ++ b) p).progress.waiting)
    (hcycles : (reg.sweep target.tier (a ++ Marker.text target.id ++ b) p).progress.cycles = []) :
    ∃ (found : Option String) (a' b' : String) (changed : Bool) (p' q' : Progress σ),
      reg.sweepParts target.tier [a, Marker.text target.id, b] p =
        ([a', found.getD (Marker.text target.id), b'], changed, p') ∧
      (reg.sweep target.tier (a ++ Marker.text link.id ++ b) q).Comes
        (a' ++ found.getD (Marker.text link.id) ++ b') changed q' ∧
      (found.isSome → changed) ∧
      ((reg.resolve target.tier [] (.later target) (reg.sweep target.tier a p).progress).1.isSome → found.isSome) ∧
      p'.Alike (Hidden link target) more q' ∧ (target.tier = .last → link.id ∈ q'.waiting) := by
  have k := c.inStep hmute target.tier
  have htarget : target.id < Marker.idBound := Nat.lt_of_lt_of_le c.target_lt hsize
  have hlink : link.id < Marker.idBound := Nat.lt_of_lt_of_le c.exists_entry.1 hsize
  have hgrows := reg.grows_around target.tier htarget a b p
  have hexpand := hgrows.no_cycles hcycles
  have hsides := fun hlast => not_mem_markerIds_around (hshown hlast)
  have hmid : target.tier = .last → link.id ∈ (reg.sweep target.tier a q).progress.waiting := fun hlast =>
    (reg.grows_sweep target.tier a q).waiting (hwaits hlast)
  obtain ⟨a', b', changed, p', q', hparts, hcomes', hchanged, hlike', -⟩ :=
    k.around (.nil link target target.tier) htarget hlink (shown_of_not_mem fun hlast => (hsides hlast).1)
      (shown_of_not_mem fun hlast => (hsides hlast).2) hlike hp rfl rfl
      (fun hmiddle => c.expand_own hmute hmiddle (c.confined.sweep _ a p hp) hmid
        (fun hnone hnormal hwaiting => hkept hnone hnormal (hgrows.waiting hwaiting)) hexpand) hcycles
  refine ⟨_, a', b', changed, p', q', hparts, hcomes', hchanged, fun hsome => c.isSome_own hsome hexpand,
    hlike', fun hlast => ?_⟩
  exact hcomes'.progress ▸ (reg.grows_sweep target.tier _ q).waiting (hwaits hlast)

omit hsize in
/-- Once the texts are the same, they stay so. -/
theorem sweeps_after {tier : Tier} {count more : Nat} {p p' q q' : Progress σ} {x y text : String}
    (hcomes : (reg.sweep tier x p).Comes text true p') (hcomes' : (reg.sweep tier y q).Comes text true q')
    (hlike : p'.Alike (Hidden link target) more q') (hp : ok p.outside)
    (hshown : target.tier = .last → ∀ t ∈ reg.sweepTexts tier (count + 1) x p, link.id ∉ markerIds t)
    (hcycles : (reg.sweeps tier (count + 1) x p).2.cycles = []) :
    (reg.sweeps tier (count + 1) y q).1 = (reg.sweeps tier (count + 1) x p).1 ∧
      (reg.sweeps tier (count + 1) x p).2.Alike (Hidden link target) more (reg.sweeps tier (count + 1) y q).2 := by
  have hp' : ok p'.outside := hcomes.progress ▸ c.confined.sweep tier x p hp
  rw [sweeps_of_comes hcomes, if_pos rfl] at hcycles ⊢
  rw [sweeps_of_comes hcomes', if_pos rfl]
  refine (c.inStep hmute tier).sweeps (.nil link target tier) count hlike hp' (fun t ht => ?_) hcycles
  exact shown_of_not_mem fun hlast => hshown hlast t (mem_sweepTexts_of_comes hcomes ht)

/-- In the tier of the target, the texts become the same with the sweep in which the target gives something. -/
theorem sweeps_own {count : Nat} {a b : String} {p : Progress σ} (hyields : reg.Yields target count a b p) :
    ∀ {more : Nat} {q : Progress σ}, p.Alike (Hidden link target) more q → ok p.outside →
      (target.tier = .last → link.id ∈ q.waiting) →
      (target.tier = .last →
        ∀ t ∈ reg.sweepTexts target.tier count (a ++ Marker.text target.id ++ b) p, link.id ∉ markerIds t) →
      (reg.sweeps target.tier count (a ++ Marker.text target.id ++ b) p).2.cycles = [] →
      (reg.sweeps target.tier count (a ++ Marker.text link.id ++ b) q).1 =
          (reg.sweeps target.tier count (a ++ Marker.text target.id ++ b) p).1 ∧
        (reg.sweeps target.tier count (a ++ Marker.text target.id ++ b) p).2.Alike (Hidden link target) more
          (reg.sweeps target.tier count (a ++ Marker.text link.id ++ b) q).2 := by
  have htarget : target.id < Marker.idBound := Nat.lt_of_lt_of_le c.target_lt hsize
  induction hyields with
  | @now count a b p hsome =>
    intro more q hlike hp hwaits hshown hcycles
    have hfirst := (reg.sweep_grows target.tier count _ p).no_cycles hcycles
    obtain ⟨found, a', b', changed, p', q', hparts, hcomes', hchanged, hfound, hlike', -⟩ :=
      c.sweep_own hsize hmute hlike hp hwaits (fun hlast => hshown hlast _ (List.mem_cons_self ..))
        (fun hnone => absurd hnone (Option.ne_none_iff_isSome.mpr hsome)) hfirst
    obtain ⟨text, rfl⟩ := Option.isSome_iff_exists.mp (hfound hsome)
    obtain rfl : changed = true := hchanged rfl
    exact c.sweeps_after hmute (sweep_of_parts htarget hparts) hcomes' hlike' hp hshown hcycles
  | @later count a b a' b' p p' hparts hkept _ ih =>
    intro more q hlike hp hwaits hshown hcycles
    have hcomes := sweep_of_parts htarget hparts
    have hfirst := (reg.sweep_grows target.tier count _ p).no_cycles hcycles
    obtain ⟨found, a'', b'', changed, p'', q', hparts', hcomes', -, -, hlike', hwaits'⟩ :=
      c.sweep_own hsize hmute hlike hp hwaits (fun hlast => hshown hlast _ (List.mem_cons_self ..))
        (fun _ => hcomes.progress ▸ hkept) hfirst
    rw [hparts] at hparts'
    simp only [Prod.mk.injEq, List.cons.injEq, and_true] at hparts'
    obtain ⟨⟨rfl, hmarker, rfl⟩, rfl, rfl⟩ := hparts'
    cases found with
    | some text =>
      obtain rfl : Marker.text target.id = text := hmarker
      exact c.sweeps_after hmute hcomes hcomes' hlike' hp hshown hcycles
    | none =>
      have hp' : ok p'.outside := hcomes.progress ▸ c.confined.sweep target.tier _ p hp
      rw [sweeps_of_comes hcomes, if_pos rfl] at hcycles ⊢
      rw [sweeps_of_comes hcomes', if_pos rfl]
      exact ih hlike' hp' hwaits' (fun hlast t ht => hshown hlast t (mem_sweepTexts_of_comes hcomes ht)) hcycles

end Links

/-! ## Resolution -/

def resolutionTexts (reg : Registry σ) (text : String) (imports : ImportScope) (outside : σ) : List String :=
  let mid := reg.normalTier text imports outside
  reg.sweepTexts .normal maxSweeps text { imports, outside } ++ reg.sweepTexts .last maxSweeps mid.1 mid.2

inductive YieldsInTier (reg : Registry σ) (target : Placeholder) (a b : String) (imports : ImportScope) (outside : σ) :
    Prop
  | normal : target.tier = .normal → reg.Yields target maxSweeps a b { imports, outside } →
      YieldsInTier reg target a b imports outside
  | last {a' b' : String} {p : Progress σ} : target.tier = .last →
      reg.sweepsParts .normal maxSweeps [a, Marker.text target.id, b] { imports, outside } =
        ([a', Marker.text target.id, b'], p) →
      reg.Yields target maxSweeps a' b' p → YieldsInTier reg target a b imports outside

theorem no_cycles_normalTier (reg : Registry σ) {text : String} {imports : ImportScope} {outside : σ}
    (h : (reg.resolveText text imports outside).progress.cycles = []) :
    (reg.normalTier text imports outside).2.cycles = [] :=
  ((reg.keeps_grows .last).sweeps trivial maxSweeps _ _).no_cycles h

theorem Links.resolveText {reg : Registry σ} {ok : σ → Prop} {supplier : σ → Option Resolvable × σ}
    {link target : Placeholder} (c : reg.Links ok supplier link target) (hsize : reg.size ≤ Marker.idBound)
    (hmute : target.tier = .last → reg.Mute ok link.id) {a b : String} {imports : ImportScope} {outside : σ}
    (houtside : ok outside) (hshown : target.tier = .last →
      ∀ t ∈ reg.resolutionTexts (a ++ Marker.text target.id ++ b) imports outside, link.id ∉ markerIds t)
    (hyields : reg.YieldsInTier target a b imports outside)
    (hcycles : (reg.resolveText (a ++ Marker.text target.id ++ b) imports outside).progress.cycles = []) :
    (reg.resolveText (a ++ Marker.text link.id ++ b) imports outside).text =
        (reg.resolveText (a ++ Marker.text target.id ++ b) imports outside).text ∧
      ∃ more, (reg.resolveText (a ++ Marker.text target.id ++ b) imports outside).progress.Alike
        (Hidden link target) more (reg.resolveText (a ++ Marker.text link.id ++ b) imports outside).progress := by
  let start : Progress σ := { imports, outside }
  have hmid := reg.no_cycles_normalTier hcycles
  obtain ⟨id, own⟩ := target
  rw [resolveText_eq] at hcycles
  rw [resolveText_eq, resolveText_eq]
  cases hyields with
  | normal hown hyields =>
    obtain rfl : own = .normal := hown
    have hearly : ∀ {P : Prop}, Tier.normal = Tier.last → P := nofun
    have k := c.inStep hmute .last
    have hok : ok (reg.normalTier (a ++ Marker.text id ++ b) imports outside).2.outside :=
      (c.confined.keeps .normal).sweeps trivial maxSweeps _ start houtside
    obtain ⟨htext, hlike⟩ : (reg.normalTier (a ++ Marker.text link.id ++ b) imports outside).1 =
          (reg.normalTier (a ++ Marker.text id ++ b) imports outside).1 ∧
        (reg.normalTier (a ++ Marker.text id ++ b) imports outside).2.Alike _ 0
          (reg.normalTier (a ++ Marker.text link.id ++ b) imports outside).2 :=
      c.sweeps_own hsize hmute hyields (.refl _ start) houtside hearly hearly hmid
    obtain ⟨hsame, hend⟩ := k.sweeps (.nil _ _ _) maxSweeps hlike hok (fun _ _ => shown_of_not_mem hearly) hcycles
    simp only [htext]
    exact ⟨hsame, 0, hend⟩
  | @last a' b' p hown hparts hyields =>
    obtain rfl : own = .last := hown
    have htexts := fun t ht => hshown rfl t (List.mem_append_left _ ht)
    obtain ⟨a'', b'', more, p', q, hparts', hfirst, hsecond, hlike, hp, hwaits⟩ :=
      c.sweeps_early hsize hmute rfl maxSweeps (.refl _ start) houtside htexts hmid
    rw [hparts] at hparts'
    simp only [Prod.mk.injEq, List.cons.injEq, true_and, and_true] at hparts'
    obtain ⟨⟨rfl, rfl⟩, rfl⟩ := hparts'
    have hnormal : reg.normalTier (a ++ Marker.text id ++ b) imports outside = (a' ++ Marker.text id ++ b', p) := hfirst
    have hnormal' : reg.normalTier (a ++ Marker.text link.id ++ b) imports outside =
      (a' ++ Marker.text link.id ++ b', q) := hsecond
    have hlast : ∀ t ∈ reg.sweepTexts .last maxSweeps (a' ++ Marker.text id ++ b') p, link.id ∉ markerIds t := by
      intro t ht
      refine hshown rfl t (List.mem_append_right _ ?_)
      rwa [hnormal]
    simp only [hnormal, hnormal'] at hcycles ⊢
    obtain ⟨htext, hend⟩ :=
      c.sweeps_own hsize hmute hyields hlike hp (fun _ => hwaits (.inl (by decide))) (fun _ => hlast) hcycles
    exact ⟨htext, more, hend⟩

/-- A text with the marker of a placeholder that stands for another one is resolved as if it had the marker of that
one, if the recipes do not look at what is in flight and the other one gives something in its tier. Where that is the
last tier, nothing that the resolution comes by may mention the marker of the first. -/
theorem resolveText_link {reg : Registry σ} {ok : σ → Prop} {supplier : σ → Option Resolvable × σ}
    {link target : Placeholder} (hstands : reg.StandsFor ok supplier link target)
    (hblind : ∀ {id} (h : id < reg.size), reg.entries[id].recipe.Blind) (hsize : reg.size ≤ Marker.idBound)
    {a b : String} {imports : ImportScope} {outside : σ} (houtside : ok outside)
    (hmute : target.tier = .last → reg.Mute ok link.id ∧
      ∀ t ∈ reg.resolutionTexts (a ++ (Resolvable.later target).toText ++ b) imports outside, link.id ∉ markerIds t)
    (hyields : reg.YieldsInTier target a b imports outside)
    (hcycles : (reg.resolveText (a ++ (Resolvable.later target).toText ++ b) imports outside).progress.cycles = []) :
    let direct := reg.resolveText (a ++ (Resolvable.later target).toText ++ b) imports outside
    let linked := reg.resolveText (a ++ (Resolvable.later link).toText ++ b) imports outside
    linked.text = direct.text ∧ linked.unresolved.length = direct.unresolved.length ∧
      linked.progress.imports = direct.progress.imports ∧ linked.progress.cycles = [] := by
  intro direct linked
  by_cases hne : target.id = link.id
  · have hsame : linked = direct := by
      simp only [linked, direct, Resolvable.toText, hne]
    rw [hsame]
    exact ⟨rfl, rfl, rfl, hcycles⟩
  · have c : reg.Links ok supplier link target := ⟨hstands, hblind, hne⟩
    obtain ⟨htext, more, hlike⟩ := c.resolveText hsize (fun hlast => (hmute hlast).1) houtside
      (fun hlast => (hmute hlast).2) hyields hcycles
    refine ⟨htext, ?_, hlike.imports, hlike.cycles.trans hcycles⟩
    rw [Resolution.unresolved, Resolution.unresolved, show linked.text = direct.text from htext]

def choice (target : Placeholder) : Bool → Option Resolvable × Bool :=
  fun chosen => (if chosen then some (.later target) else none, chosen)

theorem choice_true (target : Placeholder) : ∀ s, s = true → choice target s = (some (.later target), s) := by
  rintro _ rfl
  rfl

/-- A word, a link, its target, which gives something as soon as there is an import, and that import. -/
def standIn : Registry Bool :=
  ⟨#[⟨.normal, .give (some (.text "n"))⟩, ⟨.normal, .ofSupplier (choice ⟨2, .last⟩)⟩,
    ⟨.last, .look fun v => .give <|
      if v.imports.size = 0 then none else some (.value (.new Catalog.OpenCv.mat "f(<@vg#3#@>)"))⟩,
    ⟨.last, .give (some (.value (.new Catalog.OpenCv.rect "r")))⟩]⟩

namespace standIn

theorem cases_lt {id : Nat} (h : id < standIn.size) : id = 0 ∨ id = 1 ∨ id = 2 ∨ id = 3 := by
  have : id < 4 := h
  omega

theorem standsFor : standIn.StandsFor (· = true) (choice ⟨2, .last⟩) ⟨1, .normal⟩ ⟨2, .last⟩ where
  confined id h := by
    rcases cases_lt h with rfl | rfl | rfl | rfl
    · trivial
    · exact Recipe.within_ofSupplier (choice_true _)
    · exact fun v => trivial
    · trivial
  registered := rfl
  made := ⟨⟨#[standIn.entries[0]]⟩, _, false, _, rfl, ofSupplier_none _ rfl, [_, _], rfl⟩
  supplies := choice_true _

theorem blind {id : Nat} (h : id < standIn.size) : standIn.entries[id].recipe.Blind := by
  rcases cases_lt h with rfl | rfl | rfl | rfl
  · trivial
  · exact Recipe.blind_ofSupplier _
  · exact ⟨fun v stack => rfl, fun v => trivial⟩
  · trivial

theorem mute : standIn.Mute (· = true) 1 := by
  refine standsFor.mute (fun {tier id r} hne hgives => ?_) (by decide)
  obtain ⟨h, stack, p, -, hr⟩ := hgives
  rcases cases_lt h with rfl | rfl | rfl | rfl
  · cases hr
    decide +kernel
  · exact absurd rfl hne
  · change (if p.imports.size = 0 then _ else _) = _ at hr
    split at hr
    · cases hr
    · cases hr
      decide +kernel
  · cases hr
    decide +kernel

/-- The target gives something in the second sweep of the last tier. -/
theorem yieldsInTier : standIn.YieldsInTier ⟨2, .last⟩ "<@vg#0#@> " " <@vg#3#@> <@vg#2#@>" .empty true := by
  let early := standIn.sweepsParts .normal maxSweeps ["<@vg#0#@> ", Marker.text 2, " <@vg#3#@> <@vg#2#@>"]
    { imports := .empty, outside := true }
  let first := standIn.sweepParts .last ["n ", Marker.text 2, " <@vg#3#@> <@vg#2#@>"] early.2
  have hearly : early = (["n ", Marker.text 2, " <@vg#3#@> <@vg#2#@>"], early.2) := Prod.ext (by decide +kernel) rfl
  have hfirst : first = (["n ", Marker.text 2, " r f(r)"], true, first.2.2) :=
    Prod.ext (by decide +kernel) (Prod.ext (by decide +kernel) rfl)
  exact .last rfl hearly (.later hfirst nofun (.now (by decide +kernel)))

end standIn

theorem resolveText_link_standIn :
    (standIn.StandsFor (· = true) (choice ⟨2, .last⟩) ⟨1, .normal⟩ ⟨2, .last⟩ ∧
      standIn.YieldsInTier ⟨2, .last⟩ "<@vg#0#@> " " <@vg#3#@> <@vg#2#@>" .empty true ∧
      (standIn.resolveText "<@vg#0#@> <@vg#2#@> <@vg#3#@> <@vg#2#@>" .empty true).text = "n f(r) r f(r)") ∧
    let direct := standIn.resolveText ("<@vg#0#@> " ++ Marker.text 2 ++ " <@vg#3#@> <@vg#2#@>") .empty true
    let linked := standIn.resolveText ("<@vg#0#@> " ++ Marker.text 1 ++ " <@vg#3#@> <@vg#2#@>") .empty true
    linked.text = direct.text ∧ linked.unresolved.length = direct.unresolved.length ∧
      linked.progress.imports = direct.progress.imports ∧ linked.progress.cycles = [] :=
  ⟨⟨standIn.standsFor, standIn.yieldsInTier, by decide +kernel⟩,
    resolveText_link standIn.standsFor standIn.blind (by decide) rfl (fun _ => ⟨standIn.mute, by decide +kernel⟩)
      standIn.yieldsInTier (by decide +kernel)⟩

/-! ## Where a link shows -/

def nested : Registry Bool :=
  ⟨#[⟨.normal, .look fun v => .give (some (.text (if v.inFlight.length = 1 then "alone" else "inside")))⟩,
    ⟨.normal, .ofSupplier (choice ⟨0, .normal⟩)⟩]⟩

namespace nested

theorem cases_lt {id : Nat} (h : id < nested.size) : id = 0 ∨ id = 1 := by
  have : id < 2 := h
  omega

theorem standsFor : nested.StandsFor (· = true) (choice ⟨0, .normal⟩) ⟨1, .normal⟩ ⟨0, .normal⟩ where
  confined id h := by
    rcases cases_lt h with rfl | rfl
    · exact fun v => trivial
    · exact Recipe.within_ofSupplier (choice_true _)
  registered := rfl
  made := ⟨⟨#[nested.entries[0]]⟩, _, false, _, rfl, ofSupplier_none _ rfl, [], rfl⟩
  supplies := choice_true _

theorem mute : nested.Mute (· = true) 1 := by
  refine standsFor.mute (fun {tier id r} hne hgives => ?_) (by decide)
  obtain ⟨h, stack, p, -, hr⟩ := hgives
  rcases cases_lt h with rfl | rfl
  · change some (Resolved.text (if (0 :: stack).length = 1 then "alone" else "inside")) = some r at hr
    cases hr
    split <;> decide +kernel
  · exact absurd rfl hne

end nested

def blankLate : Registry Bool :=
  ⟨#[⟨.last, .give (some (.text ""))⟩, ⟨.normal, .ofSupplier (choice ⟨0, .last⟩)⟩]⟩

namespace blankLate

theorem cases_lt {id : Nat} (h : id < blankLate.size) : id = 0 ∨ id = 1 := by
  have : id < 2 := h
  omega

theorem standsFor : blankLate.StandsFor (· = true) (choice ⟨0, .last⟩) ⟨1, .normal⟩ ⟨0, .last⟩ where
  confined id h := by
    rcases cases_lt h with rfl | rfl
    · trivial
    · exact Recipe.within_ofSupplier (choice_true _)
  registered := rfl
  made := ⟨⟨#[blankLate.entries[0]]⟩, _, false, _, rfl, ofSupplier_none _ rfl, [], rfl⟩
  supplies := choice_true _

theorem mute : blankLate.Mute (· = true) 1 := by
  refine standsFor.mute (fun {tier id r} hne hgives => ?_) (by decide)
  obtain ⟨h, stack, p, -, hr⟩ := hgives
  rcases cases_lt h with rfl | rfl
  · cases hr
    decide +kernel
  · exact absurd rfl hne

end blankLate

/-- A placeholder that asks too early as long as there is no import, what it asks for, a link to it, and an import. -/
def patient : Registry Bool :=
  ⟨#[⟨.last, .give (some (.text "<@vg#1#@>"))⟩,
    ⟨.normal, .look fun v =>
      if v.imports.size = 0 then .ask (.later ⟨0, .last⟩) fun _ => .give none else .give (some (.text "v"))⟩,
    ⟨.normal, .ofSupplier (choice ⟨1, .normal⟩)⟩,
    ⟨.normal, .give (some (.value (.new Catalog.OpenCv.rect "r")))⟩]⟩

namespace patient

theorem cases_lt {id : Nat} (h : id < patient.size) : id = 0 ∨ id = 1 ∨ id = 2 ∨ id = 3 := by
  have : id < 4 := h
  omega

theorem standsFor : patient.StandsFor (· = true) (choice ⟨1, .normal⟩) ⟨2, .normal⟩ ⟨1, .normal⟩ where
  confined id h := by
    rcases cases_lt h with rfl | rfl | rfl | rfl
    · trivial
    · intro v
      show Recipe.Within _ _ (if v.imports.size = 0 then _ else _)
      split
      · exact ⟨trivial, fun found => trivial⟩
      · trivial
    · exact Recipe.within_ofSupplier (choice_true _)
    · trivial
  registered := rfl
  made := ⟨⟨#[patient.entries[0], patient.entries[1]]⟩, _, false, _, rfl, ofSupplier_none _ rfl, [_], rfl⟩
  supplies := choice_true _

theorem mute : patient.Mute (· = true) 2 := by
  refine standsFor.mute (fun {tier id r} hne hgives => ?_) (by decide)
  obtain ⟨h, stack, p, -, hr⟩ := hgives
  rcases cases_lt h with rfl | rfl | rfl | rfl
  · cases hr
    decide +kernel
  · change (Recipe.run _ _ (if p.imports.size = 0 then _ else _) p).1 = some r at hr
    split at hr
    · cases hr
    · cases hr
      decide +kernel
  · exact absurd rfl hne
  · cases hr
    decide +kernel

end patient

/-- A link shows where a recipe sees what is in flight, where its marker comes about in the text, and where its target
was left waiting before it gave something. -/
theorem resolveText_link_shows :
    ((nested.StandsFor (· = true) (choice ⟨0, .normal⟩) ⟨1, .normal⟩ ⟨0, .normal⟩ ∧ nested.Mute (· = true) 1 ∧
        (nested.resolveText "<@vg#0#@>" .empty true).progress.cycles = [] ∧
        (nested.resolveText "<@vg#1#@>" .empty true).progress.cycles = []) ∧
      (nested.resolveText "<@vg#0#@>" .empty true).text = "alone" ∧
        (nested.resolveText "<@vg#1#@>" .empty true).text = "inside") ∧
    ((blankLate.StandsFor (· = true) (choice ⟨0, .last⟩) ⟨1, .normal⟩ ⟨0, .last⟩ ∧ blankLate.Mute (· = true) 1 ∧
        markerIds "<@vg#1" = [] ∧ markerIds "#@>" = [] ∧
        (blankLate.resolveText ("<@vg#1" ++ Marker.text 0 ++ "#@>") .empty true).progress.cycles = [] ∧
        (blankLate.resolveText ("<@vg#1" ++ Marker.text 1 ++ "#@>") .empty true).progress.cycles = []) ∧
      (blankLate.resolveText ("<@vg#1" ++ Marker.text 0 ++ "#@>") .empty true).text = "<@vg#1#@>" ∧
        (blankLate.resolveText ("<@vg#1" ++ Marker.text 1 ++ "#@>") .empty true).text = "") ∧
    (patient.StandsFor (· = true) (choice ⟨1, .normal⟩) ⟨2, .normal⟩ ⟨1, .normal⟩ ∧ patient.Mute (· = true) 2 ∧
        (patient.normalTier "<@vg#1#@> <@vg#3#@> <@vg#0#@>" .empty true).1 = "v r <@vg#0#@>" ∧
        (patient.resolveText "<@vg#1#@> <@vg#3#@> <@vg#0#@>" .empty true).progress.cycles = [] ∧
        (patient.resolveText "<@vg#2#@> <@vg#3#@> <@vg#0#@>" .empty true).progress.cycles = []) ∧
      (patient.resolveText "<@vg#1#@> <@vg#3#@> <@vg#0#@>" .empty true).text = "v r v" ∧
        (patient.resolveText "<@vg#2#@> <@vg#3#@> <@vg#0#@>" .empty true).text = "v r <@vg#1#@>" := by
  refine ⟨⟨⟨nested.standsFor, nested.mute, ?_⟩, ?_⟩, ⟨⟨blankLate.standsFor, blankLate.mute, ?_⟩, ?_⟩,
    ⟨patient.standsFor, patient.mute, ?_⟩, ?_⟩ <;> decide +kernel

end Registry

end Pipewright
