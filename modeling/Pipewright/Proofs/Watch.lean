import Pipewright.Proofs.Attempts

/-!
# Watched recipes

The recipes of a watched registry write down what they see: a sighting when they
are called, and one at each look. The sightings stand beside the outside state,
so the resolution itself is the same (`Registry.resolveText_watched`), and what
holds of all sightings holds of all calls.
-/

namespace Pipewright

variable {σ : Type}

structure Sighting where
  id : Nat
  view : View

structure Watch (σ : Type) where
  outside : σ
  seen : List Sighting := []

namespace Progress

def unwatched (p : Progress (Watch σ)) : Progress σ :=
  { imports := p.imports, cycles := p.cycles, deferred := p.deferred, waiting := p.waiting,
    outside := p.outside.outside }

@[simp] theorem unwatched_imports (p : Progress (Watch σ)) : p.unwatched.imports = p.imports := rfl
@[simp] theorem unwatched_cycles (p : Progress (Watch σ)) : p.unwatched.cycles = p.cycles := rfl
@[simp] theorem unwatched_waiting (p : Progress (Watch σ)) : p.unwatched.waiting = p.waiting := rfl
@[simp] theorem unwatched_mark (p : Progress (Watch σ)) : p.unwatched.mark = p.mark := rfl

end Progress

def unwatch {α : Type} (o : α × Progress (Watch σ)) : α × Progress σ := (o.1, o.2.unwatched)

/-! ## Watching -/

/-- The recipe of `id`, which writes down what it sees at each look. -/
def Recipe.watched (id : Nat) : Recipe σ → Recipe (Watch σ)
  | give result => give result
  | look k => look fun v => load fun w => store { w with seen := w.seen ++ [⟨id, v⟩] } ((k v).watched id)
  | register ty k => register ty fun isNew => (k isNew).watched id
  | ask r k => ask r fun found => (k found).watched id
  | load k => load fun w => (k w.outside).watched id
  | store s next => load fun w => store { w with outside := s } (next.watched id)

def Entry.watched (id : Nat) (e : Entry σ) : Entry (Watch σ) :=
  ⟨e.tier, (Recipe.look fun _ => e.recipe).watched id⟩

namespace Registry

variable (reg : Registry σ)

def watched : Registry (Watch σ) := ⟨reg.entries.mapIdx Entry.watched⟩

@[simp] theorem size_watched : reg.watched.size = reg.size := by simp [watched, size]

theorem getElem_watched {id : Nat} (h : id < reg.size) (h' : id < reg.watched.size) :
    reg.watched.entries[id] = reg.entries[id].watched id :=
  Array.getElem_mapIdx ..

theorem tier?_watched (id : Nat) : reg.watched.tier? id = reg.tier? id := by
  simp only [tier?, entry?, watched, Array.getElem?_mapIdx, Option.map_map]
  rfl

end Registry

def Registry.earlySightings (reg : Registry σ) (text : String) (imports : ImportScope) (outside : σ) : List Sighting :=
  (reg.watched.normalTier text imports { outside }).2.outside.seen

def Registry.sightings (reg : Registry σ) (text : String) (imports : ImportScope) (outside : σ) : List Sighting :=
  (reg.watched.resolveText text imports { outside }).progress.outside.seen

/-! ## The same resolution -/

section
variable {view : Progress (Watch σ) → View} {view' : Progress σ → View}
  {answer : Resolvable → Progress (Watch σ) → Option Resolved × Progress (Watch σ)}
  {answer' : Resolvable → Progress σ → Option Resolved × Progress σ}
  (hview : ∀ p, view p = view' p.unwatched)
  (hanswer : ∀ r p, unwatch (answer r p) = answer' r p.unwatched)
include hview hanswer

theorem Recipe.run_watched (id : Nat) (recipe : Recipe σ) (p : Progress (Watch σ)) :
    unwatch ((recipe.watched id).run view answer p) = recipe.run view' answer' p.unwatched := by
  induction recipe generalizing p with
  | give _ => rfl
  | look k ih =>
    rw [run, ← hview p]
    exact ih (view p) { p with outside := { p.outside with seen := p.outside.seen ++ [⟨id, view p⟩] } }
  | register ty k ih => exact ih _ (p.registerAll [ty])
  | ask r k ih =>
    rw [run, ← hanswer r p]
    exact ih (answer r p).1 (answer r p).2
  | load k ih => exact ih _ p
  | store s next ih => exact ih { p with outside := { p.outside with outside := s } }

end

namespace Registry

variable (reg : Registry σ)

theorem call_watched (tier : Tier) (stack : List Nat) {id : Nat} (h : id < reg.size) (h' : id < reg.watched.size)
    (hanswer : ∀ r p, unwatch (reg.watched.resolve tier (id :: stack) r p) =
      reg.resolve tier (id :: stack) r p.unwatched) (p : Progress (Watch σ)) :
    unwatch (reg.watched.call tier stack h' p) = reg.call tier stack h p.unwatched := by
  have hview : ∀ p : Progress (Watch σ), reg.watched.view tier (id :: stack) p =
      reg.view tier (id :: stack) p.unwatched := fun p => by simp [view]
  rw [call, getElem_watched reg h]
  exact Recipe.run_watched hview hanswer id (.look fun _ => reg.entries[id].recipe) p

theorem resolve_watched (tier : Tier) (stack : List Nat) : ∀ r p,
    unwatch (reg.watched.resolve tier stack r p) = reg.resolve tier stack r p.unwatched := by
  induction stack using reg.descent with
  | step stack ih =>
    intro r p
    cases r with
    | now value => rw [resolve, resolve]; rfl
    | later d =>
      obtain ⟨id, own⟩ := d
      rw [resolve, resolve]
      by_cases hearly : own = .last ∧ tier = .normal
      · rw [if_pos hearly, if_pos hearly]; rfl
      · rw [if_neg hearly, if_neg hearly]
        by_cases hs : stack.contains id
        · rw [dif_pos hs, dif_pos hs]; rfl
        · rw [dif_neg hs, dif_neg hs]
          by_cases h : id < reg.size
          · have h' : id < reg.watched.size := by simpa using h
            rw [dif_pos h, dif_pos h']
            exact reg.call_watched tier stack h h' (ih id h (by simpa using hs)) p
          · have h' : ¬ id < reg.watched.size := by simpa using h
            rw [dif_neg h, dif_neg h']; rfl

theorem sweepSegments_watched {expand : Nat → Progress (Watch σ) → Option String × Progress (Watch σ)}
    {expand' : Nat → Progress σ → Option String × Progress σ}
    (h : ∀ id p, unwatch (expand id p) = expand' id p.unwatched) : ∀ segs p,
    (sweepSegments expand segs p).pieces = (sweepSegments expand' segs p.unwatched).pieces ∧
      (sweepSegments expand segs p).changed = (sweepSegments expand' segs p.unwatched).changed ∧
      (sweepSegments expand segs p).progress.unwatched = (sweepSegments expand' segs p.unwatched).progress
  | [], p => ⟨rfl, rfl, rfl⟩
  | .plain text :: rest, p => by
    obtain ⟨ht, hc, hp⟩ := sweepSegments_watched h rest p
    rw [sweepSegments_plain, sweepSegments_plain]
    exact ⟨congrArg (text :: ·) ht, hc, hp⟩
  | .marker id raw :: rest, p => by
    have he := h id p
    cases hx : expand id p with
    | mk found q =>
      rw [hx] at he
      obtain ⟨ht, hc, hp⟩ := sweepSegments_watched h rest q
      cases found with
      | none =>
        rw [sweepSegments_none hx, sweepSegments_none he.symm]
        exact ⟨congrArg (raw :: ·) ht, hc, hp⟩
      | some text =>
        rw [sweepSegments_some hx, sweepSegments_some he.symm]
        exact ⟨congrArg (text :: ·) ht, rfl, hp⟩

theorem expand_watched (tier : Tier) (stack : List Nat) : ∀ id p,
    unwatch (reg.watched.expand tier stack id p) = reg.expand tier stack id p.unwatched := by
  induction stack using reg.descent with
  | step stack ih =>
    intro id p
    have hlt : ∀ {k}, k < reg.watched.size ↔ k < reg.size := by simp
    have hopen : ∀ (h : id < reg.size) (h' : id < reg.watched.size),
        reg.watched.IsOpen tier h' p ↔ reg.IsOpen tier h p.unwatched := fun h h' => by
      unfold IsOpen
      rw [getElem_watched reg h]
      rfl
    have hcall := fun (h : id < reg.size) h' => reg.call_watched tier stack h h' (reg.resolve_watched tier (id :: stack)) p
    have hinner : ∀ h : id < reg.size, id ∉ stack → ∀ (r : Resolved) (q : Progress (Watch σ)),
        (reg.watched.inner tier stack id r q).text = (reg.inner tier stack id r q.unwatched).text ∧
          (reg.watched.inner tier stack id r q).progress.unwatched =
            (reg.inner tier stack id r q.unwatched).progress := fun h hs r q =>
      have hsweep := sweepSegments_watched (ih id h hs) (segments r.toText) (q.registerAll r.imports)
      ⟨congrArg String.join hsweep.1, hsweep.2.2⟩
    -- guards, calls and sweeps agree, so both attempts end in the same way
    generalize he : reg.watched.expand tier stack id p = o
    refine (Attempts.expand_eq ?_).symm
    cases he ▸ reg.watched.attempts tier stack id p with
    | unknown h => exact .unknown fun h' => h (hlt.mpr h')
    | closed h ho => exact .closed (hlt.mp h) fun ho' => ho ((hopen _ h).mpr ho')
    | cycle h ho hs => exact .cycle (hlt.mp h) ((hopen _ h).mp ho) hs
    | without h ho hs hc =>
      exact .without (hlt.mp h) ((hopen _ h).mp ho) hs (by rw [← hcall (hlt.mp h) h, hc]; rfl)
    | @undone h r q ho hs hc hl =>
      obtain ⟨-, hp⟩ := hinner (hlt.mp h) hs r q
      have hdone := Attempts.undone (hlt.mp h) ((hopen _ h).mp ho) hs (by rw [← hcall (hlt.mp h) h, hc]; rfl)
        (by rw [← hp]; exact hl)
      rw [← hp] at hdone
      exact hdone
    | @done h r q ho hs hc hl =>
      obtain ⟨ht, hp⟩ := hinner (hlt.mp h) hs r q
      have hdone := Attempts.done (hlt.mp h) ((hopen _ h).mp ho) hs (by rw [← hcall (hlt.mp h) h, hc]; rfl)
        (by rw [← hp]; exact hl)
      rw [← hp, ← ht] at hdone
      exact hdone

theorem sweep_watched (tier : Tier) (text : String) (p : Progress (Watch σ)) :
    (reg.watched.sweep tier text p).text = (reg.sweep tier text p.unwatched).text ∧
      (reg.watched.sweep tier text p).changed = (reg.sweep tier text p.unwatched).changed ∧
      (reg.watched.sweep tier text p).progress.unwatched = (reg.sweep tier text p.unwatched).progress :=
  have hsweep := sweepSegments_watched (reg.expand_watched tier []) (segments text) p
  ⟨congrArg String.join hsweep.1, hsweep.2⟩

theorem sweeps_watched (tier : Tier) (count : Nat) : ∀ text p,
    unwatch (reg.watched.sweeps tier count text p) = reg.sweeps tier count text p.unwatched := by
  induction count with
  | zero => exact fun text p => rfl
  | succ count ih =>
    intro text p
    obtain ⟨ht, hc, hp⟩ := reg.sweep_watched tier text p
    rw [sweeps_succ, sweeps_succ, ← hc, ← ht, ← hp]
    split
    · exact ih _ _
    · rfl

theorem normalTier_watched (text : String) (imports : ImportScope) (outside : σ) :
    unwatch (reg.watched.normalTier text imports { outside }) = reg.normalTier text imports outside :=
  reg.sweeps_watched .normal maxSweeps text { imports, outside := { outside } }

/-- Watching changes nothing. -/
theorem resolveText_watched (text : String) (imports : ImportScope) (outside : σ) :
    (reg.watched.resolveText text imports { outside }).text = (reg.resolveText text imports outside).text ∧
      (reg.watched.resolveText text imports { outside }).progress.unwatched =
        (reg.resolveText text imports outside).progress := by
  have hlast := reg.sweeps_watched .last maxSweeps (reg.watched.normalTier text imports { outside }).1
    (reg.watched.normalTier text imports { outside }).2
  rw [resolveText_eq, resolveText_eq, ← reg.normalTier_watched]
  exact ⟨congrArg Prod.fst hlast, congrArg Prod.snd hlast⟩

end Registry

end Pipewright
