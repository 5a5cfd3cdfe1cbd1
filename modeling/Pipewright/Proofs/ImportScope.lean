import Pipewright.ImportScope

/-!
# Growth and rollback of the imports

Registering only ever appends, so forgetting what came after a point gives back
the scope of that point (`truncate_of_prefix`). What it appends is new each time,
so what is forgotten was no member at that point (`Extends`).
-/

namespace Pipewright

namespace ImportScope

theorem ext {s t : ImportScope} (h : s.types = t.types) : s = t := by
  cases s; cases t; cases h; rfl

theorem prefix_register (s : ImportScope) (t : Ty) : s.types <+: (s.register t).types := by
  unfold register
  split
  · exact List.prefix_append _ _
  · exact List.prefix_refl _

theorem prefix_registerAll (s : ImportScope) (types : List Ty) : s.types <+: (s.registerAll types).types := by
  induction types generalizing s with
  | nil => exact List.prefix_refl _
  | cons t types ih => exact (s.prefix_register t).trans (ih (s.register t))

theorem truncate_of_prefix {s t : ImportScope} (h : s.types <+: t.types) : t.truncate s.size = s :=
  ext (List.prefix_iff_eq_take.mp h).symm

theorem contains_of_prefix {s t : ImportScope} {u : Ty} (h : s.types <+: t.types) (hu : s.contains u = true) :
    t.contains u = true := by
  obtain ⟨more, hmore⟩ := h
  unfold contains at hu ⊢
  rw [← hmore, List.contains_append, hu, Bool.true_or]

theorem contains_register (s : ImportScope) (t u : Ty) : (s.register t).contains u = true ↔
    s.contains u = true ∨ t.shouldImport = true ∧ (t.importTarget == u.importTarget) = true := by
  unfold register
  split
  · rename_i hlacks
    rw [lacks, Bool.and_eq_true] at hlacks
    simp only [contains, List.contains_append, Bool.or_eq_true, hlacks.1, true_and]
    refine or_congr_right ?_
    rw [List.contains_eq_any_beq, List.any_cons, List.any_nil, Bool.or_false]
    exact ⟨BEq.symm, BEq.symm⟩
  · rename_i hhas
    refine (or_iff_left_of_imp ?_).symm
    rintro ⟨hneeds, htarget⟩
    have hstored : s.contains t = true := by simpa [lacks, hneeds] using hhas
    simp only [contains, List.contains_eq_any_beq, List.any_eq_true] at hstored ⊢
    obtain ⟨x, hx, hxt⟩ := hstored
    exact ⟨x, hx, BEq.trans (BEq.symm htarget) hxt⟩

/-- What is a member after some types were registered was one before or is imported for one of them. -/
theorem contains_registerAll (s : ImportScope) (types : List Ty) (u : Ty) : (s.registerAll types).contains u = true ↔
    s.contains u = true ∨ ∃ t ∈ types, t.shouldImport = true ∧ (t.importTarget == u.importTarget) = true := by
  induction types generalizing s with
  | nil => simp [registerAll]
  | cons t types ih =>
    change ((s.register t).registerAll types).contains u = true ↔ _
    rw [ih, contains_register, or_assoc]
    simp only [List.mem_cons, exists_eq_or_imp]

/-- `t` lists what `s` lists and then types that `s` lacks, each once. -/
def Extends (s t : ImportScope) : Prop :=
  ∃ new, t.types = s.types ++ new ∧ new.Pairwise (fun a b => (b == a) = false) ∧
    ∀ u ∈ new, s.types.contains u = false

namespace Extends

variable {s t u : ImportScope}

theorem refl (s : ImportScope) : s.Extends s := ⟨[], by simp⟩

theorem isPrefix (h : s.Extends t) : s.types <+: t.types := by
  obtain ⟨new, hnew, -⟩ := h
  exact ⟨new, hnew.symm⟩

theorem trans (h : s.Extends t) (h' : t.Extends u) : s.Extends u := by
  obtain ⟨new, ht, honce, hlacks⟩ := h
  obtain ⟨new', hu, honce', hlacks'⟩ := h'
  simp only [ht, List.contains_append, Bool.or_eq_false_iff] at hlacks'
  refine ⟨new ++ new', by rw [hu, ht, List.append_assoc], ?_, ?_⟩
  · rw [List.pairwise_append]
    refine ⟨honce, honce', fun a ha b hb => ?_⟩
    have hb := (hlacks' b hb).2
    rw [List.contains_eq_any_beq, List.any_eq_false] at hb
    simpa using hb a ha
  · intro b hb
    rcases List.mem_append.mp hb with hb | hb
    · exact hlacks b hb
    · exact (hlacks' b hb).1

theorem register (s : ImportScope) (ty : Ty) : s.Extends (s.register ty) := by
  unfold ImportScope.register
  split
  · rename_i hl
    refine ⟨[ty.importTarget], rfl, by simp, ?_⟩
    simp only [lacks, contains, Bool.and_eq_true, Bool.not_eq_true'] at hl
    simpa using hl.2
  · exact refl s

theorem registerAll (s : ImportScope) (types : List Ty) : s.Extends (s.registerAll types) := by
  induction types generalizing s with
  | nil => exact refl s
  | cons ty types ih => exact (register s ty).trans (ih (s.register ty))

/-- Forgetting the new types one by one gives back the members as well as the list. -/
theorem contains_eq (h : s.Extends t) (ty : Ty) :
    s.contains ty = (t.contains ty && !(t.types.drop s.size).contains ty.importTarget) := by
  obtain ⟨new, ht, -, hlacks⟩ := h
  have hdrop : t.types.drop s.size = new := by rw [ht, size, List.drop_left]
  have hnew : s.types.contains ty.importTarget = true → new.contains ty.importTarget = false := by
    intro hs
    rw [List.contains_eq_any_beq, List.any_eq_true] at hs
    obtain ⟨a, ha, hta⟩ := hs
    rw [List.contains_eq_any_beq, List.any_eq_false]
    intro b hb htb
    have hba : (b == a) = true := BEq.trans (BEq.symm htb) hta
    have := hlacks b hb
    rw [List.contains_eq_any_beq, List.any_eq_false] at this
    exact this a ha hba
  unfold contains
  rw [hdrop, ht, List.contains_append]
  cases hs : s.types.contains ty.importTarget with
  | true => rw [hnew hs]; rfl
  | false => cases new.contains ty.importTarget <;> rfl

end Extends

end ImportScope

end Pipewright
