import Pipewright.Pass.Code
import Pipewright.Proofs.FreshName

/-!
# The search for a free name

The candidates are tried one after the other, so the name that is found is the
first free one. The search ends after at most one round more than there are taken
names. Names that were handed out are never handed out again, whatever is declared
at the start of the class in between.
-/

namespace Pipewright

def nextFree (taken : String → Bool) (name : String) : Nat → String → Nat → Option String
  | 0, _, _ => none
  | rounds + 1, candidate, count =>
    if taken candidate then nextFree taken name rounds (numbered name count) (count + 1) else some candidate

variable {taken : List String} {name : String}

/-- From the number `count` on, the search stops at the first free number. -/
theorem nextFree_numbered {k : Nat} (hfree : numbered name k ∉ taken) :
    ∀ rounds count, count ≤ k → k < count + rounds → (∀ j, count ≤ j → j < k → numbered name j ∈ taken) →
      nextFree taken.contains name rounds (numbered name count) (count + 1) = some (numbered name k) := by
  intro rounds
  induction rounds with
  | zero =>
    intro count hle hlt
    omega
  | succ rounds ih =>
    intro count hle hlt htaken
    simp only [nextFree]
    rcases Nat.eq_or_lt_of_le hle with rfl | hless
    · rw [if_neg (by simpa using hfree)]
    · rw [if_pos (by simpa using htaken count (Nat.le_refl _) hless)]
      apply ih (count + 1) hless (by omega)
      intro j hj
      exact htaken j (by omega)

/-- One round more than there are taken names is enough, and further rounds change nothing. -/
theorem nextFree_eq (taken : List String) (name : String) (more : Nat) :
    nextFree taken.contains name (taken.length + 1 + more) name 1 = some (freshName taken name) := by
  rw [show taken.length + 1 + more = taken.length + more + 1 by omega]
  simp only [nextFree]
  by_cases h : name ∈ taken
  · obtain ⟨k, hpos, hle, hname, hfree, hfirst⟩ := freshName_of_mem h
    rw [if_pos (by simpa using h), hname]
    exact nextFree_numbered hfree _ 1 hpos (by omega) hfirst
  · rw [if_neg (by simpa using h), freshName_of_not_mem h]

/-! ## Handing out names -/

variable {σ : Type}

structure Workspace.Grants (w : Workspace σ) (granted : List Variable) (w' : Workspace σ) : Prop where
  names : w'.names = w.names ++ granted.map (·.name)
  nodup : (granted.map (·.name)).Nodup
  fresh : ∀ v ∈ granted, v.name ∉ w.names

theorem Workspace.Grants.trans {w w' w'' : Workspace σ} {first second : List Variable} (h : w.Grants first w')
    (h' : w'.Grants second w'') : w.Grants (first ++ second) w'' := by
  have hnew : ∀ v ∈ second, v.name ∉ w.names ∧ v.name ∉ first.map (·.name) := by
    intro v hv
    have := h'.fresh v hv
    rw [h.names, List.mem_append, not_or] at this
    exact this
  constructor
  · rw [h'.names, h.names, List.map_append, List.append_assoc]
  · rw [List.map_append]
    apply List.nodup_append'.mpr ⟨h.nodup, h'.nodup, ?_⟩
    intro x hfirst hsecond
    obtain ⟨v, hv, rfl⟩ := List.mem_map.mp hsecond
    exact (hnew v hv).2 hfirst
  · intro v hv
    rcases List.mem_append.mp hv with hv | hv
    · exact h.fresh v hv
    · exact (hnew v hv).1

inductive NameStep where
  | request (name : String) (initial : Value)
  | declare (build : Scope → Scope)

namespace NameStep

def code : NameStep → Gen σ (List Variable)
  | request name initial => do return [← Gen.uniqueVariable name initial]
  | declare build => do
    Gen.inTarget .classStart (Gen.append build)
    return []

def codes : List NameStep → Gen σ (List Variable)
  | [] => return []
  | step :: rest => do
    let first ← step.code
    return first ++ (← codes rest)

variable (generate : Nat → Target → Pass σ → Except GenError Unit × Pass σ) (target : Target)

theorem run_code (step : NameStep) (p : Pass σ) : ∃ granted w, p.work.Grants granted w ∧
    ∀ k, (step.code target k).run generate p = (k (.ok granted)).run generate { p with work := w } := by
  cases step with
  | request name initial =>
    refine ⟨[⟨p.work.uniqueName name, initial⟩], p.work.reserve (p.work.uniqueName name), ?_, fun _ => rfl⟩
    have hfresh := freshName_not_mem (p.work.names ++ p.work.classStart.declared) name
    rw [List.mem_append, not_or] at hfresh
    exact ⟨rfl, List.nodup_singleton _, by simpa [Workspace.uniqueName] using hfresh.1⟩
  | declare build =>
    refine ⟨[], p.work.modifyScope build .classStart, ?_, fun _ => rfl⟩
    exact ⟨by simp [Workspace.modifyScope], List.nodup_nil, by simp⟩

theorem run_codes (steps : List NameStep) : ∀ p : Pass σ, ∃ granted w, p.work.Grants granted w ∧
    ∀ k, (codes steps target k).run generate p = (k (.ok granted)).run generate { p with work := w } := by
  induction steps with
  | nil =>
    intro p
    exact ⟨[], p.work, ⟨by simp, List.nodup_nil, by simp⟩, fun _ => rfl⟩
  | cons step rest ih =>
    intro p
    obtain ⟨first, w, hfirst, hrun⟩ := run_code generate target step p
    obtain ⟨others, w', hothers, hrest⟩ := ih { p with work := w }
    refine ⟨first ++ others, w', hfirst.trans hothers, fun k => ?_⟩
    have hstep : (codes (step :: rest) target k).run generate p =
        ((codes rest >>= fun others => pure (first ++ others)) target k).run generate { p with work := w } := hrun _
    exact hstep.trans (hrest _)

end NameStep

/-- Names are searched for in the order of their numbers, and always found; those of a pass stay distinct. -/
theorem names_first_free_and_distinct (generate : Nat → Target → Pass σ → Except GenError Unit × Pass σ)
    (target : Target) (p : Pass σ) :
    (∀ (s : Scope) (name : String), FirstFree (fun x => s.declares x = false) name (s.tryName name) ∧
      ∀ more, nextFree s.declares name (s.declared.length + 1 + more) name 1 = some (s.tryName name)) ∧
    (∀ (name : String) (initial : Value), ∃ fresh,
      FirstFree (fun x => x ∉ p.work.names ∧ p.work.classStart.declares x = false) name fresh ∧
      (∀ more, nextFree (fun x => p.work.names.contains x || p.work.classStart.declares x) name
        (p.work.names.length + p.work.classStart.declared.length + 1 + more) name 1 = some fresh) ∧
      ∀ k, (Gen.uniqueVariable name initial target k).run generate p =
        (k (.ok ⟨fresh, initial⟩)).run generate { p with work := p.work.reserve fresh }) ∧
    ∀ steps : List NameStep, ∃ granted w,
      (granted.map (·.name)).Nodup ∧ (∀ v ∈ granted, v.name ∉ p.work.names) ∧
      w.names = p.work.names ++ granted.map (·.name) ∧
      ∀ k, (NameStep.codes steps target k).run generate p = (k (.ok granted)).run generate { p with work := w } := by
  refine ⟨fun s name => ⟨?_, nextFree_eq s.declared name⟩, fun name initial => ?_, fun steps => ?_⟩
  · have hfirst := firstFree_freshName s.declared name
    simpa [Scope.declares, Scope.tryName] using hfirst
  · let taken := p.work.names ++ p.work.classStart.declared
    refine ⟨freshName taken name, ?_, fun more => ?_, fun _ => rfl⟩
    · have hfirst := firstFree_freshName taken name
      simpa [taken, Scope.declares] using hfirst
    · have hsearch := nextFree_eq taken name more
      have hboth : taken.contains = fun x => p.work.names.contains x || p.work.classStart.declares x := by
        funext x
        simp [taken, Scope.declares]
      rwa [hboth, List.length_append] at hsearch
  · obtain ⟨granted, w, hgrants, hrun⟩ := NameStep.run_codes generate target steps p
    exact ⟨granted, w, hgrants.nodup, hgrants.fresh, hgrants.names, hrun⟩

end Pipewright
