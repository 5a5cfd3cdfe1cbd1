import Pipewright.Catalog
import Pipewright.Proofs.Watch

/-!
# The last tier sees the finished normal tier

A placeholder of the last tier is entered neither by its marker nor by request
while the normal tier is swept, and in the last tier imports are taken back only
to where an attempt began. So whatever is called there sees all imports of the
normal tier, and these first (`WellTiered.sees_normalTier`).
-/

namespace Pipewright

variable {σ : Type}

/-! ## Registries that ask for their own placeholders -/

theorem Recipe.within_needing {A : Resolvable → Prop} {ok : σ → Prop} {r : Resolvable} (hr : A r)
    {k : Resolved → Recipe σ} (hk : ∀ v, (k v).Within A ok) : (Recipe.needing r k).Within A ok := by
  refine ⟨hr, fun found => ?_⟩
  cases found with
  | none => trivial
  | some v => exact hk v

namespace Registry

variable {reg : Registry σ} {ok : σ → Prop}

theorem knows_register (tier : Tier) (recipe : Recipe σ) :
    (reg.register tier recipe).2.Knows (.later (reg.register tier recipe).1) := by
  simp [Knows, register, tier?, entry?, size]

theorem Knows.register {r : Resolvable} (h : reg.Knows r) (tier : Tier) (recipe : Recipe σ) :
    (reg.register tier recipe).2.Knows r := by
  cases r with
  | now _ => trivial
  | later d =>
    obtain ⟨hd, ht⟩ := (reg.tier?_eq_some_iff).mp h
    refine ((reg.register tier recipe).2.tier?_eq_some_iff).mpr ⟨?_, ?_⟩
    · exact Nat.lt_of_lt_of_le hd (by simp [Registry.register, size])
    · rw [← ht]
      exact congrArg Entry.tier (Array.getElem_push_lt hd)

theorem wellTiered_empty (ok : σ → Prop) : empty.WellTiered ok :=
  ⟨fun h => absurd h (Nat.not_lt_zero _)⟩

/-- A registry stays well tiered as long as each recipe asks for what is registered before it. -/
theorem WellTiered.register (hw : reg.WellTiered ok) (tier : Tier) {recipe : Recipe σ}
    (h : recipe.Within reg.Knows ok) : (reg.register tier recipe).2.WellTiered ok := by
  refine ⟨fun {id} hid => ?_⟩
  have hmono : ∀ r, reg.Knows r → (reg.register tier recipe).2.Knows r := fun r hr => hr.register tier recipe
  by_cases hlt : id < reg.size
  · have he : (reg.register tier recipe).2.entries[id] = reg.entries[id] := Array.getElem_push_lt hlt
    rw [he]
    exact (hw.within hlt).mono hmono
  · have hsize : (reg.register tier recipe).2.size = reg.size + 1 := by simp [Registry.register, size]
    obtain rfl : id = reg.size := by omega
    have he : (reg.register tier recipe).2.entries[reg.size] = ⟨tier, recipe⟩ := Array.getElem_push_eq
    rw [he]
    exact h.mono hmono

theorem WellTiered.dependent (hw : reg.WellTiered ok) {r : Resolvable} (hr : reg.Knows r) {f : Resolved → Recipe σ}
    (hf : ∀ v, (f v).Within reg.Knows ok) : (reg.dependent r f).2.WellTiered ok :=
  hw.register .normal (Recipe.within_needing hr hf)

theorem WellTiered.dependent2 (hw : reg.WellTiered ok) {a b : Resolvable} (ha : reg.Knows a) (hb : reg.Knows b)
    {f : Resolved → Resolved → Recipe σ} (hf : ∀ v w, (f v w).Within reg.Knows ok) :
    (reg.dependent2 a b f).2.WellTiered ok :=
  hw.register .normal (Recipe.within_needing ha fun v => Recipe.within_needing hb (hf v))

/-! ## What is seen -/

/-- What was seen from `p` to `q`: in the normal tier no placeholder of the last one, and always the imports `base`
first. -/
structure Sees (reg : Registry σ) (ok : σ → Prop) (tier : Tier) (base : List Ty) (p q : Progress (Watch σ)) :
    Prop where
  outside : ok q.outside.outside
  imports : p.imports.types <+: q.imports.types
  seen : ∀ s ∈ q.outside.seen, s ∈ p.outside.seen ∨
    (tier = .normal → reg.tier? s.id = some .normal) ∧ base <+: s.view.imports.types

def SeesFrom (reg : Registry σ) (ok : σ → Prop) (tier : Tier) (base : List Ty) (p q : Progress (Watch σ)) : Prop :=
  ok p.outside.outside → base <+: p.imports.types → reg.Sees ok tier base p q

namespace SeesFrom

variable {tier : Tier} {base : List Ty} {p q r : Progress (Watch σ)}

theorem of_same (himports : p.imports.types <+: q.imports.types) (hout : q.outside = p.outside) :
    reg.SeesFrom ok tier base p q :=
  fun hok _ => ⟨hout ▸ hok, himports, fun _ hs => .inl (hout ▸ hs)⟩

theorem trans (h : reg.SeesFrom ok tier base p q) (h' : reg.SeesFrom ok tier base q r) :
    reg.SeesFrom ok tier base p r := by
  intro hok hbase
  have hq := h hok hbase
  have hr := h' hq.outside (hbase.trans hq.imports)
  refine ⟨hr.outside, hq.imports.trans hr.imports, fun s hs => ?_⟩
  rcases hr.seen s hs with hs | hs
  · exact hq.seen s hs
  · exact .inr hs

theorem giveUp (h : reg.SeesFrom ok tier base p q) (id : Nat) : reg.SeesFrom ok tier base p (q.giveUp p.mark id) := by
  intro hok hbase
  have hq := h hok hbase
  have himports : (q.giveUp p.mark id).imports = p.imports := ImportScope.truncate_of_prefix hq.imports
  exact ⟨hq.outside, ⟨[], by rw [himports, List.append_nil]⟩, hq.seen⟩

theorem run {answer : Resolvable → Progress (Watch σ) → Option Resolved × Progress (Watch σ)} {id : Nat}
    (hid : tier = .normal → reg.tier? id = some .normal) (stack : List Nat)
    (hanswer : ∀ r, reg.Knows r → ∀ p, reg.SeesFrom ok tier base p (answer r p).2) (recipe : Recipe σ)
    (hw : recipe.Within reg.Knows ok) (p : Progress (Watch σ)) :
    reg.SeesFrom ok tier base p ((recipe.watched id).run (reg.watched.view tier stack) answer p).2 := by
  induction recipe generalizing p with
  | give _ => exact of_same (List.prefix_refl _) rfl
  | look k ih =>
    let seen := p.outside.seen ++ [⟨id, reg.watched.view tier stack p⟩]
    refine trans (q := { p with outside := { p.outside with seen } })
      (fun hok hbase => ⟨hok, List.prefix_refl _, fun s hs => ?_⟩) (ih _ (hw _) _)
    rcases List.mem_append.mp hs with hs | hs
    · exact .inl hs
    · rw [List.mem_singleton.mp hs]
      exact .inr ⟨hid, hbase⟩
  | register ty k ih =>
    exact trans (q := p.registerAll [ty]) (of_same (p.imports.prefix_registerAll [ty]) rfl) (ih _ (hw _) _)
  | ask r k ih => exact trans (q := (answer r p).2) (hanswer r hw.1 p) (ih _ (hw.2 _) _)
  | load k ih => exact fun hok => ih _ (hw _ hok) p hok
  | store s next ih =>
    refine trans (q := { p with outside := { p.outside with outside := s } }) (fun _ _ => ?_) (ih hw.2 _)
    exact ⟨hw.1, List.prefix_refl _, fun _ hs => .inl hs⟩

end SeesFrom

theorem WellTiered.keeps_sees (hw : reg.WellTiered ok) (tier : Tier) (base : List Ty) :
    reg.watched.Keeps tier (fun _ => True) reg.Knows (fun id => tier = .normal → reg.tier? id = some .normal)
      (reg.SeesFrom ok tier base) where
  refl _ := .of_same (List.prefix_refl _) rfl
  trans := .trans
  enter _ _ _ := trivial
  early _ _ _ := .of_same (List.prefix_refl _) rfl
  cycle _ _ _ _ _ := .of_same (List.prefix_refl _) rfl
  value p types := .of_same (p.imports.prefix_registerAll types) rfl
  giveUp id h := h.giveUp id
  asked {id own} _ hknown hown ht := by
    cases own with
    | normal => exact hknown
    | last => exact absurd (ht.symm.trans (hown rfl)) (by decide)
  swept {id} h hopen ht := by
    rw [← reg.tier?_watched]
    exact (reg.watched.tier?_eq_some_iff).mpr ⟨h, hopen ht⟩
  called {id} h stack answer _ hid hanswer p := by
    have h' : id < reg.size := by simpa using h
    rw [getElem_watched reg h']
    exact SeesFrom.run hid (id :: stack) hanswer (.look fun _ => reg.entries[id].recipe) (fun _ => hw.within h') p

/-- No placeholder of the last tier is called before the normal tier has ended, and whatever such a call sees of the
imports starts with those of that moment. The watched resolution is the plain one. -/
theorem WellTiered.sees_normalTier (hw : reg.WellTiered ok) (text : String) (imports : ImportScope) {outside : σ}
    (hok : ok outside) :
    (∀ s ∈ reg.earlySightings text imports outside, reg.tier? s.id ≠ some .last) ∧
      (∀ s ∈ reg.sightings text imports outside, reg.tier? s.id = some .last →
        (reg.normalTier text imports outside).2.imports.types <+: s.view.imports.types) ∧
      unwatch (reg.watched.normalTier text imports { outside }) = reg.normalTier text imports outside ∧
      (reg.watched.resolveText text imports { outside }).text = (reg.resolveText text imports outside).text ∧
      (reg.watched.resolveText text imports { outside }).progress.unwatched =
        (reg.resolveText text imports outside).progress := by
  have hwatched := reg.normalTier_watched text imports outside
  let mid := reg.watched.normalTier text imports { outside }
  have hnormal := (hw.keeps_sees .normal []).sweeps trivial maxSweeps text { imports, outside := { outside } } hok
    List.nil_prefix
  have hearly : ∀ s ∈ reg.earlySightings text imports outside, reg.tier? s.id ≠ some .last := by
    intro s hs hl
    rcases hnormal.seen s hs with hs | ⟨hn, -⟩
    · cases hs
    · rw [hn rfl] at hl; cases hl
  have hlast := (hw.keeps_sees .last mid.2.imports.types).sweeps trivial maxSweeps mid.1 mid.2 hnormal.outside
    (List.prefix_refl _)
  refine ⟨hearly, fun s hs hl => ?_, hwatched, reg.resolveText_watched text imports outside⟩
  rw [← hwatched]
  rcases hlast.seen s hs with hs | ⟨-, hbase⟩
  · exact absurd hl (hearly s hs)
  · exact hbase

def importCount : Registry Unit :=
  let (count, reg) := empty.register .last (.look fun v => .give (some (.text (toString v.imports.size))))
  let (_, reg) := reg.dependent (.later count) fun n => .give (some (.text ("count=" ++ n.toText)))
  (reg.register .normal (.give (some (.value (.new Catalog.OpenCv.rect "r"))))).2

theorem importCount_sees_normalTier :
    (∀ s ∈ importCount.earlySightings "<@vg#1#@> <@vg#2#@> <@vg#0#@>" .empty (), importCount.tier? s.id ≠ some .last) ∧
      (∀ s ∈ importCount.sightings "<@vg#1#@> <@vg#2#@> <@vg#0#@>" .empty (), importCount.tier? s.id = some .last →
        (importCount.normalTier "<@vg#1#@> <@vg#2#@> <@vg#0#@>" .empty ()).2.imports.types <+: s.view.imports.types) ∧
      unwatch (importCount.watched.normalTier "<@vg#1#@> <@vg#2#@> <@vg#0#@>" .empty { outside := () }) =
        importCount.normalTier "<@vg#1#@> <@vg#2#@> <@vg#0#@>" .empty () ∧
      (importCount.watched.resolveText "<@vg#1#@> <@vg#2#@> <@vg#0#@>" .empty { outside := () }).text =
        (importCount.resolveText "<@vg#1#@> <@vg#2#@> <@vg#0#@>" .empty ()).text ∧
      (importCount.watched.resolveText "<@vg#1#@> <@vg#2#@> <@vg#0#@>" .empty { outside := () }).progress.unwatched =
        (importCount.resolveText "<@vg#1#@> <@vg#2#@> <@vg#0#@>" .empty ()).progress := by
  have hw : importCount.WellTiered fun _ => True := by
    refine WellTiered.register (WellTiered.dependent (WellTiered.register (wellTiered_empty _) .last ?_) ?_ ?_)
      .normal ?_
    · exact fun _ => trivial
    · exact knows_register .last _
    · exact fun _ => trivial
    · trivial
  exact hw.sees_normalTier "<@vg#1#@> <@vg#2#@> <@vg#0#@>" .empty trivial

example : (importCount.sightings "<@vg#1#@> <@vg#2#@> <@vg#0#@>" .empty ()).map
    (fun s => (s.id, s.view.imports.size)) = [(1, 0), (2, 0), (1, 1), (1, 1), (0, 1), (0, 1), (0, 1), (0, 1)] := by
  decide +kernel

end Registry

end Pipewright
