import Mathlib.Data.List.Perm.Subperm
import Pipewright.Proofs.Watch

/-!
# The placeholders in flight

A descent may go as deep as it likes and keeps what is in flight on one stack:
an id is pushed when its placeholder is entered and popped when it is left. Such
a descent of a given depth need not come to an end, nor leave the stack as it
was. `Registry.resolution_ends` says that it does both as soon as the depth
exceeds the number of ids not in flight, and that no id is ever in flight twice.
-/

namespace Pipewright

variable {σ : Type}

/-- The progress with the stack of what is in flight, the innermost on top. -/
structure Flight (σ : Type) where
  progress : Progress σ
  stack : List Nat

namespace Flight

def enter (f : Flight σ) (id : Nat) : Flight σ := { f with stack := id :: f.stack }

def leave (f : Flight σ) : Flight σ := { f with stack := f.stack.tail }

def update (f : Flight σ) (change : Progress σ → Progress σ) : Flight σ := { f with progress := change f.progress }

end Flight

/-! ## Descents of a given depth -/

def Recipe.fly (view : Flight σ → View) (answer : Resolvable → Flight σ → Option (Option Resolved × Flight σ)) :
    Recipe σ → Flight σ → Option (Option Resolved × Flight σ)
  | give result, f => some (result, f)
  | look k, f => (k (view f)).fly view answer f
  | register ty k, f => (k (f.progress.imports.lacks ty)).fly view answer (f.update (·.registerAll [ty]))
  | ask r k, f =>
    match answer r f with
    | none => none
    | some (found, f) => (k found).fly view answer f
  | load k, f => (k f.progress.outside).fly view answer f
  | store s next, f => next.fly view answer (f.update fun p => { p with outside := s })

def sweepFlight (expand : Nat → Flight σ → Option (Option String × Flight σ)) :
    List Segment → Flight σ → Option (Sweep σ × List Nat)
  | [], f => some (⟨[], false, f.progress⟩, f.stack)
  | .plain text :: rest, f =>
    (sweepFlight expand rest f).map fun (s, stack) => ({ s with pieces := text :: s.pieces }, stack)
  | .marker id raw :: rest, f =>
    match expand id f with
    | none => none
    | some (found, f) => (sweepFlight expand rest f).map fun (s, stack) =>
        ({ s with pieces := found.getD raw :: s.pieces, changed := found.isSome || s.changed }, stack)

namespace Registry

variable (reg : Registry σ)

def viewIn (tier : Tier) (f : Flight σ) : View := reg.view tier f.stack f.progress

def resolveWithin (tier : Tier) : (depth : Nat) → Resolvable → Flight σ → Option (Option Resolved × Flight σ)
  | 0, _, _ => none
  | _ + 1, .now value, f => some (some value, f)
  | depth + 1, .later ⟨id, own⟩, f =>
    if own = .last ∧ tier = .normal then some (none, f.update fun p => { p with deferred := p.deferred + 1 })
    else if f.stack.contains id then some (none, f.update (·.recordCycle id f.stack))
    else match reg.entry? id with
      | none => some (none, f)
      | some entry =>
        (entry.recipe.fly (reg.viewIn tier) (resolveWithin tier depth) (f.enter id)).map fun (found, f) =>
          (found, f.leave)

def expandWithin (tier : Tier) : (depth : Nat) → (id : Nat) → Flight σ → Option (Option String × Flight σ)
  | 0, _, _ => none
  | depth + 1, id, f =>
    match reg.entry? id with
    | none => some (none, f)
    | some entry =>
      if entry.tier ≠ tier ∧ ¬(tier = .last ∧ f.progress.waiting.contains id) then some (none, f)
      else if f.stack.contains id then some (none, f.update (·.recordCycle id f.stack))
      else
        let start := f.progress.mark
        match entry.recipe.fly (reg.viewIn tier) (reg.resolveWithin tier depth) (f.enter id) with
        | none => none
        | some (none, f) => some (none, f.leave.update (·.giveUp start id))
        | some (some result, f) =>
          match sweepFlight (expandWithin tier depth) (segments result.toText)
              (f.update (·.registerAll result.imports)) with
          | none => none
          | some (s, stack) =>
            let f := Flight.leave ⟨s.progress, stack⟩
            if s.progress.cycles.length = start.cycles then some (some s.text, f)
            else some (none, f.update (·.giveUp start id))

def sweepWithin (tier : Tier) (depth : Nat) (text : String) (f : Flight σ) : Option (Sweep σ × List Nat) :=
  sweepFlight (reg.expandWithin tier depth) (segments text) f

def sweepsWithin (tier : Tier) (depth : Nat) : (count : Nat) → String → Flight σ → Option (String × Flight σ)
  | 0, text, f => some (text, f)
  | count + 1, text, f =>
    match reg.sweepWithin tier depth text f with
    | none => none
    | some (s, stack) =>
      if s.changed then sweepsWithin tier depth count s.text ⟨s.progress, stack⟩
      else some (s.text, ⟨s.progress, stack⟩)

/-- Resolves a text with descents of a given depth, with nothing in flight at the start; also what is in flight at
the end. -/
def resolveTextWithin (depth : Nat) (text : String) (imports : ImportScope) (outside : σ) :
    Option (Resolution σ × List Nat) :=
  match reg.sweepsWithin .normal depth maxSweeps text ⟨{ imports, outside }, []⟩ with
  | none => none
  | some (text, f) =>
    (reg.sweepsWithin .last depth maxSweeps text f).map fun (text, f) => (⟨text, f.progress⟩, f.stack)

end Registry

/-! ## Enough depth -/

theorem Recipe.fly_eq {view : Flight σ → View} {view' : Progress σ → View}
    {answer : Resolvable → Flight σ → Option (Option Resolved × Flight σ)}
    {answer' : Resolvable → Progress σ → Option Resolved × Progress σ} {stack : List Nat}
    (hview : ∀ p, view ⟨p, stack⟩ = view' p)
    (hanswer : ∀ r p, answer r ⟨p, stack⟩ = some ((answer' r p).1, ⟨(answer' r p).2, stack⟩)) (recipe : Recipe σ)
    (p : Progress σ) : recipe.fly view answer ⟨p, stack⟩ =
      some ((recipe.run view' answer' p).1, ⟨(recipe.run view' answer' p).2, stack⟩) := by
  induction recipe generalizing p with
  | give result => rfl
  | look k ih => rw [fly, hview]; exact ih _ p
  | register ty k ih => exact ih _ (p.registerAll [ty])
  | ask r k ih => rw [fly, hanswer]; exact ih _ (answer' r p).2
  | load k ih => exact ih _ p
  | store s next ih => exact ih { p with outside := s }

theorem sweepFlight_eq {expand : Nat → Flight σ → Option (Option String × Flight σ)}
    {expand' : Nat → Progress σ → Option String × Progress σ} {stack : List Nat}
    (h : ∀ id p, expand id ⟨p, stack⟩ = some ((expand' id p).1, ⟨(expand' id p).2, stack⟩)) :
    ∀ segs p, sweepFlight expand segs ⟨p, stack⟩ = some (sweepSegments expand' segs p, stack)
  | [], p => rfl
  | .plain text :: rest, p => by
    rw [sweepFlight, sweepFlight_eq h rest p]
    rfl
  | .marker id raw :: rest, p => by
    rw [sweepFlight, h]
    cases he : expand' id p with
    | mk found q =>
      simp only [sweepFlight_eq h rest q, Option.map_some]
      cases found with
      | none => rw [sweepSegments_none he]; rfl
      | some text => rw [sweepSegments_some he]; rfl

namespace Registry

variable (reg : Registry σ)

theorem entry?_eq_some {id : Nat} (h : id < reg.size) : reg.entry? id = some reg.entries[id] :=
  Array.getElem?_eq_getElem h

theorem entry?_eq_none {id : Nat} (h : ¬ id < reg.size) : reg.entry? id = none :=
  Array.getElem?_eq_none (Nat.not_lt.mp h)

theorem remaining_lt {stack : List Nat} {id depth : Nat} (h : id < reg.size) (hs : ¬ stack.contains id)
    (hd : remaining reg.ids stack < depth + 1) : remaining reg.ids (id :: stack) < depth := by
  have := remaining_enter_lt (List.mem_range.2 h) (by simpa using hs)
  exact Nat.lt_of_lt_of_le this (Nat.le_of_lt_succ hd)

theorem fly_eq_call (tier : Tier) {depth : Nat} {stack : List Nat} {id : Nat} (h : id < reg.size)
    (hanswer : ∀ r (p : Progress σ), reg.resolveWithin tier depth r ⟨p, id :: stack⟩ =
      some ((reg.resolve tier (id :: stack) r p).1, ⟨(reg.resolve tier (id :: stack) r p).2, id :: stack⟩))
    (p : Progress σ) :
    reg.entries[id].recipe.fly (reg.viewIn tier) (reg.resolveWithin tier depth) ⟨p, id :: stack⟩ =
      some ((reg.call tier stack h p).1, ⟨(reg.call tier stack h p).2, id :: stack⟩) :=
  Recipe.fly_eq (fun _ => rfl) hanswer _ p

theorem resolveWithin_eq (tier : Tier) (depth : Nat) : ∀ {stack : List Nat}, remaining reg.ids stack < depth →
    ∀ r (p : Progress σ), reg.resolveWithin tier depth r ⟨p, stack⟩ =
      some ((reg.resolve tier stack r p).1, ⟨(reg.resolve tier stack r p).2, stack⟩) := by
  induction depth with
  | zero => intro stack hd; exact absurd hd (Nat.not_lt_zero _)
  | succ depth ih =>
    intro stack hd r p
    cases r with
    | now value => rw [resolve]; rfl
    | later d =>
      obtain ⟨id, own⟩ := d
      rw [resolveWithin, resolve]
      by_cases hearly : own = .last ∧ tier = .normal
      · rw [if_pos hearly, if_pos hearly]; rfl
      · rw [if_neg hearly, if_neg hearly]
        by_cases hs : stack.contains id
        · rw [if_pos hs, dif_pos hs]; rfl
        · rw [if_neg hs, dif_neg hs]
          by_cases h : id < reg.size
          · rw [dif_pos h, entry?_eq_some reg h]
            simp only [Flight.enter]
            rw [reg.fly_eq_call tier h (ih (reg.remaining_lt h hs hd))]
            rfl
          · rw [dif_neg h, entry?_eq_none reg h]

theorem expandWithin_eq (tier : Tier) (depth : Nat) : ∀ {stack : List Nat}, remaining reg.ids stack < depth →
    ∀ id (p : Progress σ), reg.expandWithin tier depth id ⟨p, stack⟩ =
      some ((reg.expand tier stack id p).1, ⟨(reg.expand tier stack id p).2, stack⟩) := by
  induction depth with
  | zero => intro stack hd; exact absurd hd (Nat.not_lt_zero _)
  | succ depth ih =>
    intro stack hd id p
    rw [expandWithin, expand]
    by_cases h : id < reg.size
    · rw [dif_pos h, entry?_eq_some reg h]
      simp only
      by_cases hclosed : reg.entries[id].tier ≠ tier ∧ ¬(tier = .last ∧ p.waiting.contains id)
      · rw [if_pos hclosed, if_pos hclosed]
      · rw [if_neg hclosed, if_neg hclosed]
        by_cases hs : stack.contains id
        · rw [if_pos hs, dif_pos hs]; rfl
        · rw [if_neg hs, dif_neg hs]
          have hd := reg.remaining_lt h hs hd
          simp only [Flight.enter]
          rw [reg.fly_eq_call tier h (reg.resolveWithin_eq tier depth hd), call]
          cases reg.entries[id].recipe.run (reg.view tier (id :: stack)) (reg.resolve tier (id :: stack)) p with
          | mk found q =>
            cases found with
            | none => rfl
            | some result =>
              simp only [Flight.update]
              rw [sweepFlight_eq (ih hd)]
              simp only [Flight.leave, List.tail_cons]
              split
              · rfl
              · rfl
    · rw [dif_neg h, entry?_eq_none reg h]

theorem sweepWithin_eq (tier : Tier) {depth : Nat} {stack : List Nat} (hd : remaining reg.ids stack < depth)
    (text : String) (p : Progress σ) : reg.sweepWithin tier depth text ⟨p, stack⟩ =
      some (sweepSegments (reg.expand tier stack) (segments text) p, stack) :=
  sweepFlight_eq (reg.expandWithin_eq tier depth hd) (segments text) p

theorem sweepsWithin_eq (tier : Tier) {depth : Nat} (hd : remaining reg.ids [] < depth) (count : Nat) :
    ∀ text (p : Progress σ), reg.sweepsWithin tier depth count text ⟨p, []⟩ =
      some ((reg.sweeps tier count text p).1, ⟨(reg.sweeps tier count text p).2, []⟩) := by
  induction count with
  | zero => intro text p; rfl
  | succ count ih =>
    intro text p
    have hsweep : reg.sweepWithin tier depth text ⟨p, []⟩ = some (reg.sweep tier text p, []) :=
      reg.sweepWithin_eq tier hd text p
    rw [sweepsWithin, hsweep, sweeps_succ]
    by_cases hc : (reg.sweep tier text p).changed
    · simp only [hc, if_true]
      exact ih _ _
    · simp only [hc, if_false, Bool.false_eq_true]

theorem remaining_nil : remaining reg.ids [] = reg.size := by
  simp [remaining, ids]

theorem resolveTextWithin_eq {depth : Nat} (hd : reg.size < depth) (text : String) (imports : ImportScope)
    (outside : σ) :
    reg.resolveTextWithin depth text imports outside = some (reg.resolveText text imports outside, []) := by
  rw [← remaining_nil] at hd
  rw [resolveTextWithin, sweepsWithin_eq reg .normal hd]
  simp only
  rw [sweepsWithin_eq reg .last hd]
  rfl

/-! ## What is in flight -/

structure Distinct (stack : List Nat) : Prop where
  nodup : stack.Nodup
  lt_size : ∀ id ∈ stack, id < reg.size

theorem Distinct.length_le {stack : List Nat} (h : reg.Distinct stack) : stack.length ≤ reg.size := by
  have hsub : stack ⊆ List.range reg.size := fun id hid => List.mem_range.mpr (h.lt_size id hid)
  simpa using (List.subperm_of_subset h.nodup hsub).length_le

structure Watched (p q : Progress (Watch σ)) : Prop where
  seen : ∀ s ∈ q.outside.seen, s ∈ p.outside.seen ∨ reg.Distinct s.view.inFlight ∧ s.view.inFlight.head? = some s.id
  cycles : ∀ c ∈ q.cycles, c ∈ p.cycles ∨ reg.Distinct c.stack ∧ c.id ∈ c.stack

namespace Watched

variable {reg} {p q r : Progress (Watch σ)}

theorem of_same (hseen : q.outside.seen = p.outside.seen) (hcycles : q.cycles = p.cycles) : reg.Watched p q :=
  ⟨fun _ hs => .inl (hseen ▸ hs), fun _ hc => .inl (hcycles ▸ hc)⟩

theorem trans (h : reg.Watched p q) (h' : reg.Watched q r) : reg.Watched p r := by
  constructor
  · intro s hs
    rcases h'.seen s hs with hs | hs
    · exact h.seen s hs
    · exact .inr hs
  · intro c hc
    rcases h'.cycles c hc with hc | hc
    · exact h.cycles c hc
    · exact .inr hc

theorem run {answer : Resolvable → Progress (Watch σ) → Option Resolved × Progress (Watch σ)} {tier : Tier}
    {id : Nat} {stack : List Nat} (hstack : reg.Distinct (id :: stack))
    (hanswer : ∀ r p, reg.Watched p (answer r p).2) (recipe : Recipe σ) (p : Progress (Watch σ)) :
    reg.Watched p ((recipe.watched id).run (reg.watched.view tier (id :: stack)) answer p).2 := by
  induction recipe generalizing p with
  | give _ => exact of_same rfl rfl
  | look k ih =>
    let view := reg.watched.view tier (id :: stack) p
    refine trans (q := { p with outside := { p.outside with seen := p.outside.seen ++ [⟨id, view⟩] } }) ?_ (ih _ _)
    refine ⟨fun s hs => ?_, fun c hc => .inl hc⟩
    rcases List.mem_append.mp hs with hs | hs
    · exact .inl hs
    · rw [List.mem_singleton.mp hs]
      exact .inr ⟨hstack, rfl⟩
  | register ty k ih => exact trans (q := p.registerAll [ty]) (of_same rfl rfl) (ih _ _)
  | ask r k ih => exact trans (hanswer r p) (ih _ _)
  | load k ih => exact ih _ p
  | store s next ih =>
    exact trans (q := { p with outside := { p.outside with outside := s } }) (of_same rfl rfl) (ih _)

end Watched

theorem keeps_watched (tier : Tier) :
    reg.watched.Keeps tier reg.Distinct (fun _ => True) (fun _ => True) reg.Watched where
  refl _ := .of_same rfl rfl
  trans := .trans
  enter {id stack} h hid hs := by
    refine ⟨List.nodup_cons.mpr ⟨hs, h.nodup⟩, fun k hk => ?_⟩
    rcases List.mem_cons.mp hk with rfl | hk
    · simpa using hid
    · exact h.lt_size k hk
  early _ _ _ := .of_same rfl rfl
  cycle p id stack h hid := by
    refine ⟨fun _ hs => .inl hs, fun c hc => ?_⟩
    rcases List.mem_append.mp hc with hc | hc
    · exact .inl hc
    · rw [List.mem_singleton.mp hc]
      exact .inr ⟨h, hid⟩
  value _ _ := .of_same rfl rfl
  giveUp _ h := ⟨h.seen, h.cycles⟩
  asked _ _ _ := trivial
  swept _ _ := trivial
  called {id} h stack answer hstack _ hanswer p := by
    have h' : id < reg.size := by simpa using h
    rw [getElem_watched reg h']
    exact Watched.run hstack (fun r => hanswer r trivial) (.look fun _ => reg.entries[id].recipe) p

theorem resolveText_watches (text : String) (imports : ImportScope) (outside : σ) :
    reg.Watched { imports, outside := { outside } } (reg.watched.resolveText text imports { outside }).progress := by
  have hempty : reg.Distinct [] := ⟨List.nodup_nil, by simp⟩
  have hnormal := (reg.keeps_watched .normal).sweeps hempty maxSweeps text { imports, outside := { outside } }
  exact hnormal.trans ((reg.keeps_watched .last).sweeps hempty maxSweeps _ _)

/-- A descent that is deeper than there are ids not in flight comes to an end: asking for a value, expanding a marker
and sweeping a text all answer, as resolution does, and leave the stack as they found it. Whenever a recipe runs, its
placeholder is on top of a stack of distinct ids of the registry, and each cycle was met on such a stack. The watched
resolution is the plain one. -/
theorem resolution_ends (text : String) (imports : ImportScope) (outside : σ) :
    (∀ tier depth stack (p : Progress σ), remaining reg.ids stack < depth →
      (∀ r, reg.resolveWithin tier depth r ⟨p, stack⟩ =
        some ((reg.resolve tier stack r p).1, ⟨(reg.resolve tier stack r p).2, stack⟩)) ∧
      (∀ id, reg.expandWithin tier depth id ⟨p, stack⟩ =
        some ((reg.expand tier stack id p).1, ⟨(reg.expand tier stack id p).2, stack⟩)) ∧
      ∀ text, reg.sweepWithin tier depth text ⟨p, stack⟩ =
        some (sweepSegments (reg.expand tier stack) (segments text) p, stack)) ∧
    (∀ depth, reg.size < depth →
      reg.resolveTextWithin depth text imports outside = some (reg.resolveText text imports outside, []) ∧
      reg.watched.resolveTextWithin depth text imports { outside } =
        some (reg.watched.resolveText text imports { outside }, [])) ∧
    (∀ s ∈ reg.sightings text imports outside, s.view.inFlight.Nodup ∧ s.view.inFlight.length ≤ reg.size ∧
      s.view.inFlight.head? = some s.id) ∧
    (∀ c ∈ (reg.resolveText text imports outside).progress.cycles, c.stack.Nodup ∧ c.id ∈ c.stack) ∧
    (reg.watched.resolveText text imports { outside }).text = (reg.resolveText text imports outside).text ∧
    (reg.watched.resolveText text imports { outside }).progress.unwatched =
      (reg.resolveText text imports outside).progress := by
  have hwatch := reg.resolveText_watches text imports outside
  obtain ⟨htext, hprogress⟩ := reg.resolveText_watched text imports outside
  refine ⟨fun tier depth stack p hd => ⟨fun r => ?_, fun id => ?_, fun text => ?_⟩, fun depth hd => ⟨?_, ?_⟩,
    fun s hs => ?_, fun c hc => ?_, htext, hprogress⟩
  · exact reg.resolveWithin_eq tier depth hd r p
  · exact reg.expandWithin_eq tier depth hd id p
  · exact reg.sweepWithin_eq tier hd text p
  · exact reg.resolveTextWithin_eq hd text imports outside
  · exact reg.watched.resolveTextWithin_eq (by simpa using hd) text imports { outside }
  · rcases hwatch.seen s hs with hs | ⟨hstack, htop⟩
    · cases hs
    · exact ⟨hstack.nodup, hstack.length_le, htop⟩
  · rw [← hprogress, Progress.unwatched_cycles] at hc
    rcases hwatch.cycles c hc with hc | ⟨hstack, hmem⟩
    · cases hc
    · exact ⟨hstack.nodup, hmem⟩

def knot : Registry Unit :=
  ⟨#[⟨.normal, .give (some (.text "<@vg#1#@>"))⟩,
    ⟨.normal, .needing (.later ⟨0, .normal⟩) fun v => .give (some v)⟩,
    ⟨.normal, .needing (.later ⟨2, .normal⟩) fun v => .give (some v)⟩]⟩

theorem resolution_ends_knot :
    have p : Progress Unit := { imports := .empty, outside := () }
    remaining knot.ids [] < 4 ∧ knot.size < 4 ∧
      knot.expandWithin .normal 4 0 ⟨p, []⟩ =
        some ((knot.expand .normal [] 0 p).1, ⟨(knot.expand .normal [] 0 p).2, []⟩) ∧
      knot.resolveTextWithin 4 "<@vg#0#@> <@vg#2#@>" .empty () =
        some (knot.resolveText "<@vg#0#@> <@vg#2#@>" .empty (), []) ∧
      ∀ c ∈ (knot.resolveText "<@vg#0#@> <@vg#2#@>" .empty ()).progress.cycles, c.stack.Nodup ∧ c.id ∈ c.stack := by
  intro p
  have hd : remaining knot.ids [] < 4 := by decide
  have hsize : knot.size < 4 := by decide
  obtain ⟨hdescent, hresolve, -, hcycles, -⟩ := knot.resolution_ends "<@vg#0#@> <@vg#2#@>" .empty ()
  exact ⟨hd, hsize, (hdescent .normal 4 [] p hd).2.1 0, (hresolve 4 hsize).1, hcycles⟩

example : (knot.resolveText "<@vg#0#@> <@vg#2#@>" .empty ()).progress.cycles = [⟨0, [1, 0]⟩, ⟨2, [2]⟩] := by
  decide +kernel

end Registry

end Pipewright
