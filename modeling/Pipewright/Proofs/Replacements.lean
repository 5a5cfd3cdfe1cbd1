import Pipewright.Proofs.Attempts

/-!
# Replacements

A sweep comes to each marker of its text with the progress it has made by then
(`visits`). If the attempt there succeeds, what the placeholder gave takes the
place of the marker, and the markers in it are replaced in turn
(`Registry.Replaces`). So a marker that a tier leaves stood in the text before,
or in what took the place of another marker (`Registry.sweeps_origin`).
-/

namespace Pipewright

variable {σ : Type}

/-! ## One sweep -/

section
variable (expand : Nat → Progress σ → Option String × Progress σ)

def visits : List Segment → Progress σ → List (Nat × Progress σ)
  | [], _ => []
  | .plain _ :: rest, p => visits rest p
  | .marker id _ :: rest, p => (id, p) :: visits rest (expand id p).2

variable {expand}

theorem mem_visits {id : Nat} : ∀ (segs : List Segment) (p : Progress σ), id ∈ segs.filterMap Segment.id? →
    ∃ q, (id, q) ∈ visits expand segs p
  | .plain _ :: rest, p, hid => mem_visits rest p hid
  | .marker k _ :: rest, p, hid => by
    rcases List.mem_cons.mp hid with rfl | hid
    · exact ⟨p, List.mem_cons_self ..⟩
    · obtain ⟨q, hq⟩ := mem_visits rest (expand k p).2 hid
      exact ⟨q, List.mem_cons_of_mem _ hq⟩

theorem visits_keeps {I : Progress σ → Prop} : ∀ segs : List Segment,
    (∀ id ∈ segs.filterMap Segment.id?, ∀ p, I p → I (expand id p).2) → ∀ p, I p →
      ∀ v ∈ visits expand segs p, v.1 ∈ segs.filterMap Segment.id? ∧ I v.2
  | [], _, _, _, _, hv => by cases hv
  | .plain _ :: rest, h, p, hp, v, hv => visits_keeps rest h p hp v hv
  | .marker k _ :: rest, h, p, hp, v, hv => by
    rcases List.mem_cons.mp hv with rfl | hv
    · exact ⟨List.mem_cons_self .., hp⟩
    · have hrest := visits_keeps rest (fun id hid => h id (List.mem_cons_of_mem _ hid)) (expand k p).2
        (h k (List.mem_cons_self ..) p hp) v hv
      exact ⟨List.mem_cons_of_mem _ hrest.1, hrest.2⟩

/-- A piece of a sweep is a piece of the text that stays, or a text that an attempt gave. -/
theorem mem_pieces {t : String} : ∀ (segs : List Segment) (p : Progress σ),
    t ∈ (sweepSegments expand segs p).pieces →
      (∃ s ∈ segs, s.text = t ∧ ∀ id, s.id? = some id → ∃ q, (id, q) ∈ visits expand segs p ∧ (expand id q).1 = none) ∨
        ∃ v ∈ visits expand segs p, (expand v.1 v.2).1 = some t
  | [], _, ht => by cases ht
  | .plain u :: rest, p, ht => by
    rw [sweepSegments_plain] at ht
    rcases List.mem_cons.mp ht with rfl | ht
    · exact .inl ⟨.plain t, List.mem_cons_self .., rfl, fun id hid => by cases hid⟩
    · rcases mem_pieces rest p ht with ⟨s, hs, hstays⟩ | hgiven
      · exact .inl ⟨s, List.mem_cons_of_mem _ hs, hstays⟩
      · exact .inr hgiven
  | .marker id raw :: rest, p, ht => by
    have hlater : t ∈ (sweepSegments expand rest (expand id p).2).pieces →
        (∃ s ∈ Segment.marker id raw :: rest, s.text = t ∧ ∀ k, s.id? = some k →
          ∃ q, (k, q) ∈ visits expand (.marker id raw :: rest) p ∧ (expand k q).1 = none) ∨
            ∃ v ∈ visits expand (.marker id raw :: rest) p, (expand v.1 v.2).1 = some t := by
      intro ht
      rcases mem_pieces rest (expand id p).2 ht with ⟨s, hs, htext, hstays⟩ | ⟨v, hv, hgiven⟩
      · refine .inl ⟨s, List.mem_cons_of_mem _ hs, htext, fun k hk => ?_⟩
        obtain ⟨q, hq, hn⟩ := hstays k hk
        exact ⟨q, List.mem_cons_of_mem _ hq, hn⟩
      · exact .inr ⟨v, List.mem_cons_of_mem _ hv, hgiven⟩
    cases he : expand id p with
    | mk found q =>
      rw [he] at hlater
      cases found with
      | none =>
        rw [sweepSegments_none he] at ht
        rcases List.mem_cons.mp ht with rfl | ht
        · refine .inl ⟨.marker id t, List.mem_cons_self .., rfl, fun k hk => ?_⟩
          obtain rfl := Option.some.inj hk
          exact ⟨p, List.mem_cons_self .., by rw [he]⟩
        · exact hlater ht
      | some u =>
        rw [sweepSegments_some he] at ht
        rcases List.mem_cons.mp ht with rfl | ht
        · exact .inr ⟨(id, p), List.mem_cons_self .., by rw [he]⟩
        · exact hlater ht

/-- A sweep leaves markers of which `Q` holds if its failed attempts and the texts it writes do so. -/
theorem sweepSegments_left {Q : Nat → Prop} {text : String} (htidy : Tidy text) (p : Progress σ)
    (hnone : ∀ v ∈ visits expand (segments text) p, (expand v.1 v.2).1 = none → Q v.1)
    (hsome : ∀ v ∈ visits expand (segments text) p, ∀ t, (expand v.1 v.2).1 = some t →
      Tidy t ∧ ∀ k ∈ markerIds t, Q k) :
    Tidy (sweepSegments expand (segments text) p).text ∧
      ∀ k ∈ markerIds (sweepSegments expand (segments text) p).text, Q k := by
  have hpieces : ∀ t ∈ (sweepSegments expand (segments text) p).pieces, Tidy t ∧ ∀ k ∈ markerIds t, Q k := by
    intro t ht
    rcases mem_pieces (segments text) p ht with ⟨s, hs, rfl, hstays⟩ | ⟨v, hv, hgiven⟩
    · obtain ⟨hst, hids⟩ := htidy.segment hs
      refine ⟨hst, fun k hk => ?_⟩
      rw [hids, Option.mem_toList] at hk
      obtain ⟨q, hq, hn⟩ := hstays k hk
      exact hnone (k, q) hq hn
    · exact hsome v hv t hgiven
  obtain ⟨hjoin, hids⟩ := tidy_join fun t ht => (hpieces t ht).1
  refine ⟨hjoin, fun k hk => ?_⟩
  rw [Sweep.text, hids, List.mem_flatMap] at hk
  obtain ⟨t, ht, hk⟩ := hk
  exact (hpieces t ht).2 k hk

end

namespace Registry

variable (reg : Registry σ) (tier : Tier)

/-! ## What takes the place of a marker -/

/-- A sweep of the text puts what stands for `r` in the place of a marker of `id`; `q` is the progress once the
recipe gave it. -/
def Fills (stack : List Nat) (text : String) (p : Progress σ) (id : Nat) (r : Resolved) (q : Progress σ) : Prop :=
  ∃ (h : id < reg.size) (start : Progress σ), (id, start) ∈ visits (reg.expand tier stack) (segments text) p ∧
    reg.call tier stack h start = (some r, q) ∧ (reg.expand tier stack id start).1 ≠ none

/-- A sweep puts what stands for a value in the place of a marker, in the text or at any depth of what it puts
there. -/
inductive Replaces : List Nat → String → Progress σ → Nat → Resolved → Prop
  | here {stack text p id r q} : reg.Fills tier stack text p id r q → Replaces stack text p id r
  | inside {stack text p id r q a v} : reg.Fills tier stack text p id r q →
      Replaces (id :: stack) r.toText (q.registerAll r.imports) a v → Replaces stack text p a v

/-- One of at most `count` sweeps, each over what the one before left, does so. -/
inductive ReplacesIn : Nat → String → Progress σ → Nat → Resolved → Prop
  | first {count text p a r} : reg.Replaces tier [] text p a r → ReplacesIn (count + 1) text p a r
  | later {count text p a r} : (reg.sweep tier text p).changed = true →
      ReplacesIn count (reg.sweep tier text p).text (reg.sweep tier text p).progress a r →
      ReplacesIn (count + 1) text p a r

/-- The last tier does so when the text is resolved. -/
def ReplacesLate (text : String) (imports : ImportScope) (outside : σ) (a : Nat) (r : Resolved) : Prop :=
  reg.ReplacesIn .last maxSweeps (reg.normalTier text imports outside).1 (reg.normalTier text imports outside).2 a r

variable {reg tier} {ok : σ → Prop}

theorem isOpen_of_expand {stack : List Nat} {id : Nat} (h : id < reg.size) {p : Progress σ}
    (hn : (reg.expand tier stack id p).1 ≠ none) : reg.IsOpen tier h p ∧ id ∉ stack := by
  generalize he : reg.expand tier stack id p = o at hn
  cases he ▸ reg.attempts tier stack id p with
  | unknown _ => exact absurd rfl hn
  | closed _ _ => exact absurd rfl hn
  | cycle _ _ _ => exact absurd rfl hn
  | without _ _ _ _ => exact absurd rfl hn
  | undone _ _ _ _ _ => exact absurd rfl hn
  | done _ ho hs _ _ => exact ⟨ho, hs⟩

/-- What is put into a text waits for the last tier or belongs there. -/
theorem Replaces.opens {stack : List Nat} {text : String} {p : Progress σ} {a : Nat} {r : Resolved}
    (h : reg.Replaces .last stack text p a r) : reg.tier? a = some .last ∨ a ∈ p.waiting := by
  have hvisit : ∀ {stack : List Nat} {text : String} {p : Progress σ}, ∀ v ∈ visits (reg.expand .last stack)
      (segments text) p, v.2.waiting = p.waiting := fun {stack text p} v hv =>
    (visits_keeps (I := fun q => q.waiting = p.waiting) (segments text)
      (fun id _ q hq => (reg.keeps_calm_last.expand stack trivial id q).waiting ▸ hq) p rfl v hv).2
  induction h with
  | here hf =>
    obtain ⟨h, start, hv, -, hn⟩ := hf
    rcases (isOpen_of_expand h hn).1 with ht | ⟨-, hw⟩
    · exact .inl ((reg.tier?_eq_some_iff).mpr ⟨h, ht⟩)
    · exact .inr (hvisit _ hv ▸ hw)
  | @inside stack text p id r q a v hf _ ih =>
    obtain ⟨h, start, hv, hc, hn⟩ := hf
    obtain ⟨ho, hs⟩ := isOpen_of_expand h hn
    have hcalm : start.Calm (reg.call .last stack h start).2 := reg.keeps_calm_last.call trivial h ho hs
    have hq : start.waiting = q.waiting := by rw [hcalm.waiting, hc]
    exact ih.imp_right fun hw => (hq.symm.trans (hvisit _ hv)) ▸ hw

theorem ReplacesIn.opens {count : Nat} {text : String} {p : Progress σ} {a : Nat} {r : Resolved}
    (h : reg.ReplacesIn .last count text p a r) : reg.tier? a = some .last ∨ a ∈ p.waiting := by
  induction h with
  | first h => exact h.opens
  | @later count text p a r _ _ ih =>
    have hswept : p.Calm (reg.sweep .last text p).progress :=
      sweepSegments_keeps .refl .trans (reg.keeps_calm_last.expand [] trivial) (segments text) p
    exact hswept.waiting ▸ ih

section
variable (hconf : reg.Confined ok)
include hconf

theorem visits_outside {stack : List Nat} {text : String} {p : Progress σ} (hp : ok p.outside) :
    ∀ v ∈ visits (reg.expand tier stack) (segments text) p, v.1 ∈ markerIds text ∧ ok v.2.outside :=
  visits_keeps (I := fun q => ok q.outside) (segments text) (fun id _ q hq => hconf.expand tier stack id q hq) p hp

theorem Fills.gives {stack : List Nat} {text : String} {p q : Progress σ} {id : Nat} {r : Resolved}
    (h : reg.Fills tier stack text p id r q) (hp : ok p.outside) :
    id ∈ markerIds text ∧ reg.Gives ok tier id r ∧ ok q.outside := by
  obtain ⟨h, start, hv, hc, -⟩ := h
  obtain ⟨hid, hstart⟩ := visits_outside hconf hp _ hv
  have hq := hconf.call tier stack h start hstart
  rw [hc] at hq
  exact ⟨hid, ⟨h, stack, start, hstart, by rw [hc]⟩, hq⟩

variable {M : Nat → Prop}
  (hclosed : ∀ {a r}, M a → reg.Gives ok tier a r → ∀ k ∈ markerIds r.toText, M k)
include hclosed

/-- Only markers are replaced that stand in the text or in what such markers stand for. -/
theorem Replaces.gives {stack : List Nat} {text : String} {p : Progress σ} {a : Nat} {r : Resolved}
    (h : reg.Replaces tier stack text p a r) (hp : ok p.outside) (hm : ∀ k ∈ markerIds text, M k) :
    M a ∧ reg.Gives ok tier a r := by
  induction h with
  | here hf =>
    obtain ⟨hid, hg, -⟩ := hf.gives hconf hp
    exact ⟨hm _ hid, hg⟩
  | inside hf _ ih =>
    obtain ⟨hid, hg, hq⟩ := hf.gives hconf hp
    exact ih hq (hclosed (hm _ hid) hg)

end

/-! ## Where a marker comes from -/

section
variable (hconf : reg.Confined ok) (htidy : ∀ {a r}, reg.Gives ok tier a r → Tidy r.toText)
include hconf htidy

theorem sweepSegments_origin (stack : List Nat) : ∀ {text : String} (p : Progress σ), Tidy text → ok p.outside →
    Tidy (sweepSegments (reg.expand tier stack) (segments text) p).text ∧
      ∀ k ∈ markerIds (sweepSegments (reg.expand tier stack) (segments text) p).text,
        k ∈ markerIds text ∨ ∃ a r, reg.Replaces tier stack text p a r ∧ k ∈ markerIds r.toText := by
  induction stack using reg.descent with
  | step stack ih =>
    intro text p ht hp
    refine sweepSegments_left ht p (fun v hv _ => .inl (visits_outside hconf hp v hv).1) fun ⟨id, start⟩ hv t hsome => ?_
    have hfills : ∀ (h : id < reg.size) {r q}, reg.call tier stack h start = (some r, q) →
        reg.Fills tier stack text p id r q := fun h r q hc =>
      ⟨h, start, hv, hc, fun hn => by rw [hn] at hsome; cases hsome⟩
    generalize he : reg.expand tier stack id start = o at hsome
    cases he ▸ reg.attempts tier stack id start with
    | unknown _ => cases hsome
    | closed _ _ => cases hsome
    | cycle _ _ _ => cases hsome
    | without _ _ _ _ => cases hsome
    | undone _ _ _ _ _ => cases hsome
    | @done h r q _ hs hc _ =>
      obtain rfl : (reg.inner tier stack id r q).text = t := Option.some.inj hsome
      obtain ⟨-, hg, hq⟩ := (hfills h hc).gives hconf hp
      obtain ⟨htidy, horigin⟩ := ih id h hs (q.registerAll r.imports) (htidy hg) hq
      refine ⟨htidy, fun k hk => .inr ?_⟩
      rcases horigin k hk with hk | ⟨a, v, hreplaces, hk⟩
      · exact ⟨id, r, .here (hfills h hc), hk⟩
      · exact ⟨a, v, .inside (hfills h hc) hreplaces, hk⟩

theorem sweeps_origin (count : Nat) : ∀ {text : String} (p : Progress σ), Tidy text → ok p.outside →
    ∀ k ∈ markerIds (reg.sweeps tier count text p).1,
      k ∈ markerIds text ∨ ∃ a r, reg.ReplacesIn tier count text p a r ∧ k ∈ markerIds r.toText := by
  induction count with
  | zero => exact fun _ _ _ k hk => .inl hk
  | succ count ih =>
    intro text p ht hp k hk
    obtain ⟨hswept, horigin⟩ := sweepSegments_origin hconf htidy [] p ht hp
    have hfirst : k ∈ markerIds (reg.sweep tier text p).text →
        k ∈ markerIds text ∨ ∃ a r, reg.ReplacesIn tier (count + 1) text p a r ∧ k ∈ markerIds r.toText := by
      intro hk
      rcases horigin k hk with hk | ⟨a, r, hreplaces, hk⟩
      · exact .inl hk
      · exact .inr ⟨a, r, .first hreplaces, hk⟩
    rw [sweeps_succ] at hk
    split at hk
    · rename_i hchanged
      rcases ih _ hswept (hconf.sweep tier text p hp) k hk with hk | ⟨a, r, hreplaces, hk⟩
      · exact hfirst hk
      · exact .inr ⟨a, r, .later hchanged hreplaces, hk⟩
    · exact hfirst hk

theorem ReplacesIn.gives {M : Nat → Prop}
    (hclosed : ∀ {a r}, M a → reg.Gives ok tier a r → ∀ k ∈ markerIds r.toText, M k) {count : Nat} {text : String}
    {p : Progress σ} {a : Nat} {r : Resolved} (h : reg.ReplacesIn tier count text p a r) (ht : Tidy text)
    (hp : ok p.outside) (hm : ∀ k ∈ markerIds text, M k) : M a ∧ reg.Gives ok tier a r := by
  induction h with
  | first h => exact h.gives hconf hclosed hp hm
  | @later count text p a r _ _ ih =>
    obtain ⟨hswept, horigin⟩ := sweepSegments_origin hconf htidy [] p ht hp
    refine ih hswept (hconf.sweep tier text p hp) fun k hk => ?_
    rcases horigin k hk with hk | ⟨a, r, hreplaces, hk⟩
    · exact hm k hk
    · obtain ⟨ha, hg⟩ := hreplaces.gives hconf hclosed hp hm
      exact hclosed ha hg k hk

end

end Registry

end Pipewright
