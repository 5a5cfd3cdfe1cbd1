import Pipewright.Pass.Build

/-!
# Outcomes of steps

A step of node code that asks for no other node comes to an outcome and a
workspace, whatever is to be done then. Such steps compose.
-/

namespace Pipewright

variable {σ α β : Type}

def Gen.Ends (x : Gen σ α) (generate : Nat → Target → Pass σ → Except GenError Unit × Pass σ) (target : Target)
    (p : Pass σ) (outcome : Except GenError α) (w : Workspace σ) : Prop :=
  ∀ k, (x target k).run generate p = (k outcome).run generate { p with work := w }

theorem Workspace.scope_modifyScope (w : Workspace σ) (build : Scope → Scope) (target other : Target) :
    (w.modifyScope build target).scope other = if other = target then build (w.scope other) else w.scope other := by
  cases target <;> cases other <;> rfl

theorem Workspace.addFlag_of_new {w : Workspace σ} {flag : String} (h : w.hasFlag flag = false) :
    w.addFlag flag = { w with flags := w.flags ++ [flag] } := by
  unfold addFlag
  rw [h]
  rfl

theorem Workspace.addFlag_of_has {w : Workspace σ} {flag : String} (h : w.hasFlag flag = true) : w.addFlag flag = w := by
  unfold addFlag
  rw [if_pos h]

namespace Gen

variable {generate : Nat → Target → Pass σ → Except GenError Unit × Pass σ} {target : Target} {p : Pass σ}
  {x : Gen σ α} {f : α → Gen σ β} {w w' : Workspace σ}

theorem ends_pure (a : α) : (pure a : Gen σ α).Ends generate target p (.ok a) p.work := fun _ => rfl

theorem Ends.bind {a : α} {outcome : Except GenError β} (h : x.Ends generate target p (.ok a) w)
    (h' : (f a).Ends generate target { p with work := w } outcome w') :
    (x >>= f).Ends generate target p outcome w' := by
  intro k
  have hrest : ((f a) target k).run generate { p with work := w } = (k outcome).run generate { p with work := w' } :=
    h' k
  exact (h _).trans hrest

/-- What follows on an error is not reached. -/
theorem Ends.bind_error {e : GenError} (h : x.Ends generate target p (.error e) w) :
    (x >>= f).Ends generate target p (.error e) w :=
  fun _ => h _

theorem Ends.attempt {outcome : Except GenError α} (h : x.Ends generate target p outcome w) :
    x.attempt.Ends generate target p (.ok outcome) w :=
  fun _ => h _

theorem ends_uniqueVariable (name : String) (initial : Value) : (uniqueVariable name initial).Ends generate target p
    (.ok ⟨p.work.uniqueName name, initial⟩) (p.work.reserve (p.work.uniqueName name)) :=
  fun _ => rfl

theorem ends_requireFeature (node : NodeRef) (feature : Feature) :
    (requireFeature node feature).Ends generate target p (if p.language.supports feature then .ok ()
      else .error (.language (some node) (.unsupported p.language feature))) p.work := by
  intro k
  change ((if p.language.supports feature then pure PUnit.unit
    else throw (.language (some node) (.unsupported p.language feature)) : Gen σ Unit) target k).run generate p = _
  split <;> rfl

theorem ends_addFlag (flag : String) :
    (addFlag flag).Ends generate target p (.ok (!p.work.hasFlag flag)) (p.work.addFlag flag) :=
  fun _ => rfl

theorem Ends.exec {graph : Graph σ} {x : Gen σ Unit} {outcome : Except GenError Unit}
    (h : x.Ends (graph.generate []) target p outcome w) :
    graph.exec target x p = (outcome, { p with work := w }) := by
  rw [Graph.exec, h]
  cases outcome <;> rfl

end Gen

end Pipewright
