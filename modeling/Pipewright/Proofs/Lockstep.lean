import Pipewright.Proofs.Parts

/-!
# Runs in step

Two runs over one registry that differ in what is in flight. Recipes that do not
look at that can tell the runs apart only by a cycle, so as long as the first run
meets none they get the same answers (`Registry.InStep.expand`), and the texts of
both are the same sweep by sweep (`Registry.InStep.sweeps`).
-/

namespace Pipewright

variable {σ α : Type}

def Recipe.Blind : Recipe σ → Prop
  | give _ => True
  | look k => (∀ v stack, k { v with inFlight := stack } = k v) ∧ ∀ v, (k v).Blind
  | register _ k => ∀ isNew, (k isNew).Blind
  | ask _ k => ∀ found, (k found).Blind
  | load k => ∀ s, (k s).Blind
  | store _ next => next.Blind

/-! ## Progress of two runs -/

/-- The second run has asked for something too early `more` times more often, and they may differ in which `hidden`
placeholders wait. Recipes see nothing of that. -/
structure Progress.Alike (hidden : Nat → Prop) (more : Nat) (p q : Progress σ) : Prop where
  imports : q.imports = p.imports
  cycles : q.cycles = p.cycles
  outside : q.outside = p.outside
  deferred : q.deferred = p.deferred + more
  waiting : ∀ k, ¬ hidden k → (k ∈ q.waiting ↔ k ∈ p.waiting)

def Matches (hidden : Nat → Prop) (more : Nat) (o o' : α × Progress σ) : Prop :=
  o.2.cycles = [] → o'.1 = o.1 ∧ o.2.Alike hidden more o'.2

section
variable {hidden : Nat → Prop} {more : Nat} {p q : Progress σ}

namespace Progress

theorem Grows.no_cycles (h : p.Grows q) (hq : q.cycles = []) : p.cycles = [] :=
  List.prefix_nil.mp (hq ▸ h.cycles)

namespace Alike

theorem refl (hidden : Nat → Prop) (p : Progress σ) : p.Alike hidden 0 p := ⟨rfl, rfl, rfl, rfl, fun _ _ => .rfl⟩

theorem registerAll (h : p.Alike hidden more q) (types : List Ty) :
    (p.registerAll types).Alike hidden more (q.registerAll types) where
  imports := by rw [Progress.registerAll, Progress.registerAll, h.imports]
  cycles := h.cycles
  outside := h.outside
  deferred := h.deferred
  waiting := h.waiting

theorem store (h : p.Alike hidden more q) (s : σ) :
    Progress.Alike hidden more { p with outside := s } { q with outside := s } where
  imports := h.imports
  cycles := h.cycles
  outside := rfl
  deferred := h.deferred
  waiting := h.waiting

theorem early (h : p.Alike hidden more q) :
    Progress.Alike hidden more { p with deferred := p.deferred + 1 } { q with deferred := q.deferred + 1 } where
  imports := h.imports
  cycles := h.cycles
  outside := h.outside
  deferred := by
    have := h.deferred
    show q.deferred + 1 = p.deferred + 1 + more
    omega
  waiting := h.waiting

theorem giveUp {p₀ q₀ : Progress σ} (h₀ : p₀.Alike hidden more q₀) (h : p.Alike hidden more q) {id id' : Nat}
    (hid : p₀.deferred < p.deferred → id' = id) : (p.giveUp p₀.mark id).Alike hidden more (q.giveUp q₀.mark id') where
  imports := by
    show q.imports.truncate q₀.imports.size = p.imports.truncate p₀.imports.size
    rw [h.imports, h₀.imports]
  cycles := h.cycles
  outside := h.outside
  deferred := h.deferred
  waiting := by
    intro k hk
    have hlate : q₀.mark.deferred < q.deferred ↔ p₀.mark.deferred < p.deferred := by
      rw [h.deferred, mark, h₀.deferred]
      exact Nat.add_lt_add_iff_right
    rw [mem_waiting_giveUp, mem_waiting_giveUp, h.waiting k hk, hlate]
    exact or_congr_right (and_congr_right fun hd => by rw [hid hd])

end Alike

end Progress

theorem Matches.exists_eq {a : α} {o : α × Progress σ} (h : Matches hidden more (a, p) o) (hp : p.cycles = []) :
    ∃ q, o = (a, q) ∧ p.Alike hidden more q := by
  obtain ⟨hsame, hlike⟩ := h hp
  exact ⟨o.2, Prod.ext hsame rfl, hlike⟩

/-! ## Recipes -/

theorem Recipe.run_matches {ok : σ → Prop} {view view' : Progress σ → View}
    {answer answer' : Resolvable → Progress σ → Option Resolved × Progress σ}
    (hview : ∀ p q, p.Alike hidden more q → ∃ stack, view' q = { view p with inFlight := stack })
    (hanswer : ∀ r p q, p.Alike hidden more q → ok p.outside → Matches hidden more (answer r p) (answer' r q))
    (hgrows : ∀ r (p : Progress σ), p.Grows (answer r p).2) (hok : ∀ r p, ok p.outside → ok (answer r p).2.outside)
    {recipe : Recipe σ} (hblind : recipe.Blind) (hwithin : recipe.Within (fun _ => True) ok) :
    ∀ {p q}, p.Alike hidden more q → ok p.outside →
      Matches hidden more (recipe.run view answer p) (recipe.run view' answer' q) := by
  induction recipe with
  | give result => exact fun h _ _ => ⟨rfl, h⟩
  | look k ih =>
    intro p q h hp
    obtain ⟨stack, hsame⟩ := hview p q h
    show Matches hidden more ((k (view p)).run view answer p) ((k (view' q)).run view' answer' q)
    rw [hsame, hblind.1 (view p) stack]
    exact ih _ (hblind.2 _) (hwithin _) h hp
  | register ty k ih =>
    intro p q h hp
    show Matches hidden more ((k (p.imports.lacks ty)).run view answer (p.registerAll [ty]))
      ((k (q.imports.lacks ty)).run view' answer' (q.registerAll [ty]))
    rw [h.imports]
    exact ih _ (hblind _) (hwithin _) (h.registerAll [ty]) hp
  | ask r k ih =>
    intro p q h hp hcycles
    have hrest : (answer r p).2.Grows ((k (answer r p).1).run view answer (answer r p).2).2 :=
      run_keeps .refl .trans .registerAll (fun p _ => { Progress.Grows.refl p with }) hgrows _ _
    obtain ⟨hfound, hlike⟩ := hanswer r p q h hp (hrest.no_cycles hcycles)
    have hsecond : (ask r k).run view' answer' q = (k (answer r p).1).run view' answer' (answer' r q).2 := by
      rw [← hfound]
      rfl
    rw [hsecond]
    exact ih _ (hblind _) (hwithin.2 _) hlike (hok r p hp) hcycles
  | load k ih =>
    intro p q h hp
    show Matches hidden more ((k p.outside).run view answer p) ((k q.outside).run view' answer' q)
    rw [h.outside]
    exact ih _ (hblind _) (hwithin _ hp) h hp
  | store s next ih =>
    intro p q h hp
    exact ih hblind hwithin.2 (h.store s) hwithin.1

/-! ## Sweeps -/

theorem sweepSegments_matches {ok : σ → Prop} {expand expand' : Nat → Progress σ → Option String × Progress σ}
    (hgrows : ∀ id (p : Progress σ), p.Grows (expand id p).2)
    (hok : ∀ id p, ok p.outside → ok (expand id p).2.outside) :
    ∀ segs : List Segment, (∀ id ∈ segs.filterMap Segment.id?, ∀ p q, p.Alike hidden more q → ok p.outside →
      Matches hidden more (expand id p) (expand' id q)) → ∀ {p q}, p.Alike hidden more q → ok p.outside →
      (sweepSegments expand segs p).progress.cycles = [] →
      (sweepSegments expand' segs q).pieces = (sweepSegments expand segs p).pieces ∧
        (sweepSegments expand' segs q).changed = (sweepSegments expand segs p).changed ∧
        (sweepSegments expand segs p).progress.Alike hidden more (sweepSegments expand' segs q).progress
  | [], _, p, q, h, _, _ => ⟨rfl, rfl, h⟩
  | .plain text :: rest, hmatch, p, q, h, hp, hcycles => by
    obtain ⟨hpieces, hchanged, hlike⟩ := sweepSegments_matches hgrows hok rest hmatch h hp hcycles
    rw [sweepSegments_plain, sweepSegments_plain]
    exact ⟨by simp only [hpieces], hchanged, hlike⟩
  | .marker id raw :: rest, hmatch, p, q, h, hp, hcycles => by
    have hrest : (expand id p).2.Grows (sweepSegments expand rest (expand id p).2).progress :=
      sweepSegments_keeps .refl .trans hgrows rest _
    rw [sweepSegments_progress] at hcycles
    obtain ⟨hfound, hlike⟩ := hmatch id (List.mem_cons_self ..) p q h hp (hrest.no_cycles hcycles)
    obtain ⟨hpieces, hchanged, hlike⟩ := sweepSegments_matches hgrows hok rest
      (fun k hk => hmatch k (List.mem_cons_of_mem _ hk)) hlike (hok id p hp) hcycles
    cases he : expand id p with
    | mk found p' =>
      cases he' : expand' id q with
      | mk found' q' =>
        rw [he, he'] at hfound hpieces hchanged hlike
        obtain rfl : found' = found := hfound
        cases found' with
        | none =>
          rw [sweepSegments_none he, sweepSegments_none he']
          exact ⟨by simp only [hpieces], hchanged, hlike⟩
        | some text =>
          rw [sweepSegments_some he, sweepSegments_some he']
          exact ⟨by simp only [hpieces], rfl, hlike⟩

end

/-! ## Resolution -/

namespace Registry

section
variable (reg : Registry σ) {tier : Tier} {stack : List Nat} {id : Nat} {own : Tier} (p : Progress σ)

theorem resolve_early (h : own = .last ∧ tier = .normal) :
    reg.resolve tier stack (.later ⟨id, own⟩) p = (none, { p with deferred := p.deferred + 1 }) := by
  rw [resolve, if_pos h]

variable (hown : ¬(own = .last ∧ tier = .normal))
include hown

theorem resolve_cycle (hs : id ∈ stack) :
    reg.resolve tier stack (.later ⟨id, own⟩) p = (none, p.recordCycle id stack) := by
  rw [resolve, if_neg hown, dif_pos (by simpa using hs)]

theorem resolve_unknown (hs : id ∉ stack) (h : ¬ id < reg.size) :
    reg.resolve tier stack (.later ⟨id, own⟩) p = (none, p) := by
  rw [resolve, if_neg hown, dif_neg (by simpa using hs), dif_neg h]

theorem resolve_called (hs : id ∉ stack) (h : id < reg.size) :
    reg.resolve tier stack (.later ⟨id, own⟩) p = reg.call tier stack h p := by
  rw [resolve, if_neg hown, dif_neg (by simpa using hs), dif_pos h]
  rfl

end

theorem grows_inner (reg : Registry σ) (tier : Tier) (stack : List Nat) (id : Nat) (r : Resolved) (p : Progress σ) :
    p.Grows (reg.inner tier stack id r p).progress :=
  (Progress.Grows.registerAll p r.imports).trans
    (sweepSegments_keeps .refl .trans ((reg.keeps_grows tier).expand _ trivial) _ _)

/-- Without a cycle, no attempt is undone. -/
theorem cycles_inner (reg : Registry σ) {tier : Tier} {stack : List Nat} {id : Nat} {p q : Progress σ} {r : Resolved}
    (h : id < reg.size) (ho : reg.IsOpen tier h p) (hs : id ∉ stack) (hc : reg.call tier stack h p = (some r, q))
    (hend : (reg.inner tier stack id r q).progress.cycles = []) :
    (reg.inner tier stack id r q).progress.cycles.length = p.cycles.length := by
  have hgrows := (reg.keeps_grows tier).inner trivial h ho hs hc ((reg.keeps_grows tier).expand _ trivial)
  rw [hend, hgrows.no_cycles hend]

theorem isSome_expand (reg : Registry σ) {tier : Tier} {stack : List Nat} {id : Nat} {p : Progress σ} (h : id < reg.size)
    (ho : reg.IsOpen tier h p) (hs : id ∉ stack) (hsome : (reg.call tier stack h p).1.isSome)
    (hcycles : (reg.expand tier stack id p).2.cycles = []) : (reg.expand tier stack id p).1.isSome := by
  generalize he : reg.expand tier stack id p = o at hcycles ⊢
  cases he ▸ reg.attempts tier stack id p with
  | unknown h' => exact absurd h h'
  | closed _ ho' => exact absurd ho ho'
  | cycle _ _ hs' => exact absurd hs' hs
  | without _ _ _ hc =>
    rw [hc] at hsome
    cases hsome
  | undone _ _ _ hc hl => exact absurd (reg.cycles_inner h ho hs hc hcycles) hl
  | done _ _ _ _ _ => rfl

theorem grows_sweep (reg : Registry σ) (tier : Tier) (text : String) (p : Progress σ) :
    p.Grows (reg.sweep tier text p).progress :=
  sweepSegments_keeps .refl .trans ((reg.keeps_grows tier).expand [] trivial) _ _

theorem sweep_grows (reg : Registry σ) (tier : Tier) (count : Nat) (text : String) (p : Progress σ) :
    (reg.sweep tier text p).progress.Grows (reg.sweeps tier (count + 1) text p).2 := by
  rw [sweeps_succ]
  split
  · exact (reg.keeps_grows tier).sweeps trivial count _ _
  · exact .refl _

theorem grows_around (reg : Registry σ) (tier : Tier) {id : Nat} (hid : id < Marker.idBound) (a b : String)
    (p : Progress σ) : (reg.expand tier [] id (reg.sweep tier a p).progress).2.Grows
      (reg.sweep tier (a ++ Marker.text id ++ b) p).progress := by
  have hcomes := sweep_around hid (reg.sweep tier a p).comes rfl (reg.sweep tier b _).comes
  rw [hcomes.progress]
  exact reg.grows_sweep tier b _

def sweepTexts (reg : Registry σ) (tier : Tier) : (count : Nat) → String → Progress σ → List String
  | 0, _, _ => []
  | count + 1, text, p =>
    let s := reg.sweep tier text p
    text :: if s.changed then sweepTexts reg tier count s.text s.progress else []

theorem mem_sweepTexts_of_comes {reg : Registry σ} {tier : Tier} {text text' next : String} {p q : Progress σ}
    {count : Nat} (h : (reg.sweep tier text p).Comes text' true q) (hnext : next ∈ reg.sweepTexts tier count text' q) :
    next ∈ reg.sweepTexts tier (count + 1) text p := by
  rw [sweepTexts, h.text, h.changed, h.progress, if_pos rfl]
  exact List.mem_cons_of_mem _ hnext

/-- What two runs in a tier have to keep to so that they stay in step, where `beside` says what is in flight in both:
what is not in flight in the first is not in the second either, unless a call of it in the first leads to a cycle. -/
structure InStep (reg : Registry σ) (ok : σ → Prop) (tier : Tier) (hidden : Nat → Prop)
    (beside : List Nat → List Nat → Prop) : Prop where
  confined : reg.Confined ok
  blind : ∀ {id} (h : id < reg.size), reg.entries[id].recipe.Blind
  enter : ∀ {stack stack' id}, beside stack stack' → beside (id :: stack) (id :: stack')
  free : ∀ {stack stack' id}, beside stack stack' → id ∉ stack → id ∈ stack' →
    ∃ h : id < reg.size, ∀ p, ok p.outside → (reg.call tier stack h p).2.cycles ≠ []
  shown : ∀ {stack id} (h : id < reg.size) {p q : Progress σ} {r : Resolved}, ok p.outside →
    reg.call tier stack h p = (some r, q) → ∀ k ∈ markerIds r.toText, ¬ hidden k

namespace InStep

variable {reg : Registry σ} {ok : σ → Prop} {tier : Tier} {hidden : Nat → Prop} {beside : List Nat → List Nat → Prop}
  (k : reg.InStep ok tier hidden beside) {more : Nat}
include k

/-- A call, if what it asks for is answered in step. -/
theorem call_of_resolve {stack stack' : List Nat} {id : Nat} (h : id < reg.size)
    (hresolve : ∀ r p q, p.Alike hidden more q → ok p.outside →
      Matches hidden more (reg.resolve tier (id :: stack) r p) (reg.resolve tier stack' r q))
    {p q : Progress σ} (hlike : p.Alike hidden more q) (hp : ok p.outside) :
    Matches hidden more (reg.call tier stack h p)
      (reg.entries[id].recipe.run (reg.view tier stack') (reg.resolve tier stack') q) := by
  refine Recipe.run_matches ?_ hresolve ?_ ?_ (k.blind h) (k.confined id h) hlike hp
  · intro p q hlike
    refine ⟨stack', ?_⟩
    simp only [view, hlike.imports, hlike.cycles]
  · exact fun r p => (reg.keeps_grows tier).resolve _ trivial r trivial p
  · exact fun r p => (k.confined.keeps tier).resolve _ trivial r trivial p

theorem resolve (stack : List Nat) : ∀ {stack'}, beside stack stack' → ∀ r p q, p.Alike hidden more q →
    ok p.outside → Matches hidden more (reg.resolve tier stack r p) (reg.resolve tier stack' r q) := by
  induction stack using reg.descent with
  | step stack ih =>
    intro stack' hbeside r p q hlike hp
    cases r with
    | now value =>
      intro hcycles
      rw [Registry.resolve] at hcycles ⊢
      rw [Registry.resolve]
      exact ⟨rfl, hlike⟩
    | later placeholder =>
      obtain ⟨id, own⟩ := placeholder
      intro hcycles
      by_cases hown : own = .last ∧ tier = .normal
      · rw [reg.resolve_early p hown, reg.resolve_early q hown]
        exact ⟨rfl, hlike.early⟩
      by_cases hs : id ∈ stack
      · rw [reg.resolve_cycle p hown hs] at hcycles
        simp [Progress.recordCycle] at hcycles
      have hs' : id ∉ stack' := by
        intro hs'
        obtain ⟨h, hcycle⟩ := k.free hbeside hs hs'
        rw [reg.resolve_called p hown hs h] at hcycles
        exact hcycle p hp hcycles
      by_cases h : id < reg.size
      · rw [reg.resolve_called p hown hs h] at hcycles ⊢
        rw [reg.resolve_called q hown hs' h]
        exact k.call_of_resolve h (ih id h hs (k.enter hbeside)) hlike hp hcycles
      · rw [reg.resolve_unknown p hown hs h, reg.resolve_unknown q hown hs' h]
        exact ⟨rfl, hlike⟩

theorem call {stack stack' : List Nat} (hbeside : beside stack stack') {id : Nat} (h : id < reg.size)
    {p q : Progress σ} (hlike : p.Alike hidden more q) (hp : ok p.outside) :
    Matches hidden more (reg.call tier stack h p) (reg.call tier stack' h q) :=
  k.call_of_resolve h (k.resolve _ (k.enter hbeside)) hlike hp

/-- The sweep over what a recipe gave, if the markers in it are expanded in step. -/
theorem inner_of_expand {stack stack' : List Nat} {id id' : Nat} (h : id < reg.size) {p₀ : Progress σ}
    (hp₀ : ok p₀.outside) {r : Resolved} {p q : Progress σ} (hcall : reg.call tier stack h p₀ = (some r, p))
    (hexpand : ∀ j, ¬ hidden j → ∀ p q, p.Alike hidden more q → ok p.outside →
      Matches hidden more (reg.expand tier (id :: stack) j p) (reg.expand tier (id' :: stack') j q))
    (hlike : p.Alike hidden more q) (hcycles : (reg.inner tier stack id r p).progress.cycles = []) :
    (reg.inner tier stack' id' r q).text = (reg.inner tier stack id r p).text ∧
      (reg.inner tier stack id r p).progress.Alike hidden more (reg.inner tier stack' id' r q).progress := by
  have hp : ok p.outside := by
    have := k.confined.call tier stack h p₀ hp₀
    rwa [hcall] at this
  have hmatch := sweepSegments_matches (fun j p => (reg.keeps_grows tier).expand _ trivial j p)
    (k.confined.expand tier _) (segments r.toText)
    (fun j hj => hexpand j (k.shown h hp₀ hcall j hj)) (hlike.registerAll r.imports) hp hcycles
  exact ⟨congrArg String.join hmatch.1, hmatch.2.2⟩

/-- A marker of a placeholder that is not hidden is expanded in step. -/
theorem expand (stack : List Nat) : ∀ {stack'}, beside stack stack' → ∀ id, ¬ hidden id → ∀ p q,
    p.Alike hidden more q → ok p.outside →
      Matches hidden more (reg.expand tier stack id p) (reg.expand tier stack' id q) := by
  induction stack using reg.descent with
  | step stack ih =>
    intro stack' hbeside id hid p q hlike hp hcycles
    have hopen : ∀ h : id < reg.size, reg.IsOpen tier h q ↔ reg.IsOpen tier h p := fun h =>
      or_congr_right (and_congr_right fun _ => hlike.waiting id hid)
    generalize he : reg.expand tier stack id p = o at hcycles
    have hattempt := he ▸ reg.attempts tier stack id p
    -- what is not in flight in the first run is not in the second, as the first meets no cycle
    have hfree : id ∉ stack → (∀ h : id < reg.size, (reg.call tier stack h p).2.cycles = []) → id ∉ stack' := by
      intro hs hcalls hs'
      obtain ⟨h, hcycle⟩ := k.free hbeside hs hs'
      exact hcycle p hp (hcalls h)
    cases hattempt with
    | unknown h =>
      have hsecond : reg.Attempts tier stack' id q (none, q) := .unknown h
      rw [hsecond.expand_eq]
      exact ⟨rfl, hlike⟩
    | closed h ho =>
      have hsecond : reg.Attempts tier stack' id q (none, q) := .closed h fun ho' => ho ((hopen h).mp ho')
      rw [hsecond.expand_eq]
      exact ⟨rfl, hlike⟩
    | cycle _ _ _ => simp [Progress.recordCycle] at hcycles
    | @without h p' ho hs hc =>
      have hp' : p'.cycles = [] := hcycles
      have hs' := hfree hs fun _ => by rw [hc]; exact hp'
      obtain ⟨q', hc', hlike'⟩ := (hc ▸ k.call hbeside h hlike hp).exists_eq hp'
      have hsecond : reg.Attempts tier stack' id q _ := .without h ((hopen h).mpr ho) hs' hc'
      rw [hsecond.expand_eq]
      exact ⟨rfl, hlike.giveUp hlike' fun _ => rfl⟩
    | undone h ho hs hc hl => exact absurd (reg.cycles_inner h ho hs hc hcycles) hl
    | @done h r p' ho hs hc hl =>
      have hp' : p'.cycles = [] := (reg.grows_inner tier stack id r p').no_cycles hcycles
      have hs' := hfree hs fun _ => by rw [hc]; exact hp'
      obtain ⟨q', hc', hlike'⟩ := (hc ▸ k.call hbeside h hlike hp).exists_eq hp'
      obtain ⟨htext, hend⟩ := k.inner_of_expand h hp hc (ih id h hs (k.enter hbeside)) hlike' hcycles
      have hsecond : reg.Attempts tier stack' id q _ :=
        .done h ((hopen h).mpr ho) hs' hc' (by rw [hend.cycles, hl, hlike.cycles])
      rw [hsecond.expand_eq]
      exact ⟨congrArg some htext, hend⟩

section
variable (hnil : beside [] [])
include hnil

theorem sweep {text : String} (htext : ∀ id ∈ markerIds text, ¬ hidden id) {p q : Progress σ}
    (hlike : p.Alike hidden more q) (hp : ok p.outside) (hcycles : (reg.sweep tier text p).progress.cycles = []) :
    (reg.sweep tier text q).text = (reg.sweep tier text p).text ∧
      (reg.sweep tier text q).changed = (reg.sweep tier text p).changed ∧
      (reg.sweep tier text p).progress.Alike hidden more (reg.sweep tier text q).progress := by
  have hmatch := sweepSegments_matches (fun id p => (reg.keeps_grows tier).expand [] trivial id p)
    (k.confined.expand tier []) (segments text) (fun id hid => k.expand [] hnil id (htext id hid)) hlike hp hcycles
  exact ⟨congrArg String.join hmatch.1, hmatch.2⟩

/-- Two texts that differ in a marker, if what comes of those two is in step. -/
theorem around {id id' : Nat} (hid : id < Marker.idBound) (hid' : id' < Marker.idBound) {a b : String}
    (ha : ∀ k ∈ markerIds a, ¬ hidden k) (hb : ∀ k ∈ markerIds b, ¬ hidden k) {p q : Progress σ}
    (hlike : p.Alike hidden more q) (hp : ok p.outside) {e e' : Option String × Progress σ} {more' : Nat}
    (he : reg.expand tier [] id (reg.sweep tier a p).progress = e)
    (he' : reg.expand tier [] id' (reg.sweep tier a q).progress = e')
    (hexpand : (reg.sweep tier a p).progress.Alike hidden more (reg.sweep tier a q).progress →
      e'.1 = e.1 ∧ e.2.Alike hidden more' e'.2)
    (hcycles : (reg.sweep tier (a ++ Marker.text id ++ b) p).progress.cycles = []) :
    ∃ a' b' changed p' q',
      reg.sweepParts tier [a, Marker.text id, b] p = ([a', e.1.getD (Marker.text id), b'], changed, p') ∧
      (reg.sweep tier (a ++ Marker.text id' ++ b) q).Comes (a' ++ e.1.getD (Marker.text id') ++ b') changed q' ∧
      (e.1.isSome → changed) ∧ p'.Alike hidden more' q' ∧ e'.2.Grows q' := by
  let s := reg.sweep tier a p
  let t := reg.sweep tier b e.2
  have hcomes := sweep_around hid s.comes he t.comes
  have hparts := reg.sweepParts_around tier hid s.comes he t.comes
  have hend : t.progress.cycles = [] := by rwa [hcomes.progress] at hcycles
  have hmid : s.progress.cycles = [] := by
    have hgrows := (reg.keeps_grows tier).expand [] trivial id s.progress
    exact hgrows.no_cycles ((reg.grows_around tier hid a b p).no_cycles hcycles)
  have hok : ok e.2.outside := he ▸ k.confined.expand tier [] id s.progress (k.confined.sweep tier a p hp)
  obtain ⟨htext, hchanged, hlike₁⟩ := k.sweep hnil ha hlike hp hmid
  obtain ⟨hsame, hlike₂⟩ := hexpand hlike₁
  obtain ⟨htext', hchanged', hlike₃⟩ := k.sweep hnil hb hlike₂ hok hend
  have hcomes' := sweep_around hid' ⟨htext, hchanged, rfl⟩ he' ⟨htext', hchanged', rfl⟩
  rw [hsame] at hcomes'
  refine ⟨_, _, _, _, _, hparts, hcomes', fun hsome => ?_, hlike₃, reg.grows_sweep tier b e'.2⟩
  simp [hsome]

theorem sweeps (count : Nat) : ∀ {text : String} {p q : Progress σ}, p.Alike hidden more q → ok p.outside →
    (∀ t ∈ reg.sweepTexts tier count text p, ∀ id ∈ markerIds t, ¬ hidden id) →
    (reg.sweeps tier count text p).2.cycles = [] →
      (reg.sweeps tier count text q).1 = (reg.sweeps tier count text p).1 ∧
        (reg.sweeps tier count text p).2.Alike hidden more (reg.sweeps tier count text q).2 := by
  induction count with
  | zero => exact fun hlike _ _ _ => ⟨rfl, hlike⟩
  | succ count ih =>
    intro text p q hlike hp htexts hcycles
    have hgrows := reg.sweep_grows tier count text p
    have hshown : ∀ id ∈ markerIds text, ¬ hidden id := htexts text (List.mem_cons_self ..)
    obtain ⟨htext, hchanged, hlike'⟩ := k.sweep hnil hshown hlike hp (hgrows.no_cycles hcycles)
    rw [sweeps_succ] at hcycles
    rw [sweeps_succ, sweeps_succ, hchanged, htext]
    cases hc : (reg.sweep tier text p).changed with
    | false => exact ⟨rfl, hlike'⟩
    | true =>
      rw [hc] at hcycles
      have hnext := fun t ht => htexts t (mem_sweepTexts_of_comes ⟨rfl, hc, rfl⟩ ht)
      exact ih hlike' (k.confined.sweep tier text p hp) hnext hcycles

end

end InStep

end Registry

end Pipewright
