import Pipewright.Catalog
import Pipewright.Proofs.Attempts
import Pipewright.Proofs.Segments

/-!
# Attempts that come to nothing

While a marker is expanded, imports are registered by requests, by values and by
the markers inside that succeed on their own. All of that only extends the scope,
and an attempt that fails cuts it back to its length at the start, so nothing of
it is left (`Registry.imports_of_failed`).
-/

namespace Pipewright

variable {σ : Type}

namespace Registry

variable (reg : Registry σ) (tier : Tier)

theorem keeps_extends : reg.Keeps tier (fun _ => True) (fun _ => True) (fun _ => True)
    (fun p q : Progress σ => p.imports.Extends q.imports) where
  refl _ := .refl _
  trans := .trans
  enter _ _ _ := trivial
  early _ _ _ := .refl _
  cycle _ _ _ _ _ := .refl _
  value p types := .registerAll p.imports types
  giveUp {p q} id h := by
    have himports : (q.giveUp p.mark id).imports = p.imports := ImportScope.truncate_of_prefix h.isPrefix
    rw [himports]
    exact .refl _
  asked _ _ _ := trivial
  swept _ _ := trivial
  called _ _ _ _ _ hanswer p :=
    Recipe.run_keeps (R := fun p q => p.imports.Extends q.imports) (fun _ => .refl _) .trans
      (fun p types => .registerAll p.imports types) (fun _ _ => .refl _) (fun r => hanswer r trivial) _ p

theorem imports_expand_none (stack : List Nat) (id : Nat) (p : Progress σ)
    (h : (reg.expand tier stack id p).1 = none) : (reg.expand tier stack id p).2.imports = p.imports := by
  have k := reg.keeps_extends tier
  generalize he : reg.expand tier stack id p = o at h
  cases he ▸ reg.attempts tier stack id p with
  | unknown _ => rfl
  | closed _ _ => rfl
  | cycle _ _ _ => rfl
  | without hid ho hs hc =>
    have hq := k.call trivial hid ho hs
    rw [hc] at hq
    exact ImportScope.truncate_of_prefix hq.isPrefix
  | undone hid ho hs hc _ =>
    have hq := k.inner trivial hid ho hs hc (k.expand _ trivial)
    exact ImportScope.truncate_of_prefix hq.isPrefix
  | done _ _ _ _ _ => cases h

/-- In any tier and whatever is in flight, an attempt only adds new types, each once, at the end, and a marker that is
left as it is leaves the imports as they were; a sweep that changes nothing gives back its text and the imports.
Cutting the list back to its old length also takes each forgotten type, and no other, from the members. -/
theorem imports_of_failed (stack : List Nat) (p : Progress σ) :
    (∀ id, p.imports.Extends (reg.expand tier stack id p).2.imports ∧
      ((reg.expand tier stack id p).1 = none → (reg.expand tier stack id p).2.imports = p.imports)) ∧
    (∀ text, (sweepSegments (reg.expand tier stack) (segments text) p).changed = false →
      (sweepSegments (reg.expand tier stack) (segments text) p).text = text ∧
        (sweepSegments (reg.expand tier stack) (segments text) p).progress.imports = p.imports) ∧
    ∀ (q : Progress σ) (id : Nat), p.imports.Extends q.imports → (q.giveUp p.mark id).imports = p.imports ∧
      ∀ ty, p.imports.contains ty =
        (q.imports.contains ty && !(q.imports.types.drop p.imports.size).contains ty.importTarget) := by
  refine ⟨fun id => ⟨?_, reg.imports_expand_none tier stack id p⟩, fun text hc => ?_, fun q id hq => ⟨?_, ?_⟩⟩
  · exact (reg.keeps_extends tier).expand stack trivial id p
  · obtain ⟨ht, hi⟩ := sweepSegments_unchanged (I := fun q => q.imports = p.imports)
      (fun id q hq hn => (reg.imports_expand_none tier stack id q hn).trans hq) (segments text) p rfl hc
    refine ⟨?_, hi⟩
    rw [Sweep.text, ht, join_segments]
  · exact ImportScope.truncate_of_prefix hq.isPrefix
  · exact hq.contains_eq

def importingLoop : Registry Unit :=
  ⟨#[⟨.normal, .give (some (.value (.new Catalog.OpenCv.rect "use(<@vg#1#@>)")))⟩,
    ⟨.normal, .give (some (.text "<@vg#0#@>"))⟩,
    ⟨.normal, .register Catalog.OpenCv.rect fun _ => .needing (.later ⟨3, .normal⟩) fun v => .give (some v)⟩,
    ⟨.normal, .give none⟩]⟩

theorem imports_of_failed_loop :
    have p : Progress Unit := { imports := ⟨[Catalog.OpenCv.mat]⟩, outside := () }
    (importingLoop.expand .normal [] 0 p).1 = none ∧ (importingLoop.expand .normal [] 0 p).2.imports = p.imports ∧
      (importingLoop.expand .normal [] 2 p).1 = none ∧ (importingLoop.expand .normal [] 2 p).2.imports = p.imports ∧
      (importingLoop.sweep .normal "a <@vg#0#@> <@vg#2#@>" p).changed = false ∧
      (importingLoop.sweep .normal "a <@vg#0#@> <@vg#2#@>" p).text = "a <@vg#0#@> <@vg#2#@>" ∧
      (importingLoop.sweep .normal "a <@vg#0#@> <@vg#2#@>" p).progress.imports = p.imports := by
  intro p
  obtain ⟨hexpand, hsweep, -⟩ := importingLoop.imports_of_failed .normal [] p
  have h0 : (importingLoop.expand .normal [] 0 p).1 = none := by decide +kernel
  have h2 : (importingLoop.expand .normal [] 2 p).1 = none := by decide +kernel
  have hc : (importingLoop.sweep .normal "a <@vg#0#@> <@vg#2#@>" p).changed = false := by decide +kernel
  obtain ⟨ht, hi⟩ := hsweep "a <@vg#0#@> <@vg#2#@>" hc
  exact ⟨h0, (hexpand 0).2 h0, h2, (hexpand 2).2 h2, hc, ht, hi⟩

end Registry

end Pipewright
