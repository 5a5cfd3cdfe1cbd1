import Mathlib.Data.List.Basic
import Pipewright.Proofs.Live

/-!
# Steady graphs

The code of a steady node only appends statements and requests other nodes, and
it passes errors on. Where such code succeeds, no node that it asked for has
failed (`Graph.generateWithin_clean`).
-/

namespace Pipewright

variable {σ : Type}

/-! ## Code that passes errors on and appends -/

def Code.Propagates : Code σ → Prop
  | done _ => True
  | look k => ∀ p, (k p).Propagates
  | update _ next => next.Propagates
  | .generate _ _ k => (∀ e, ∃ e', k (.error e) = .done (.error e')) ∧ (k (.ok ())).Propagates

def Workspace.Appends (w w' : Workspace σ) : Prop :=
  ∀ target, (w.scope target).stmts <+: (w'.scope target).stmts

theorem Workspace.Appends.refl (w : Workspace σ) : w.Appends w := fun _ => List.prefix_refl _

theorem Workspace.Appends.trans {w w' w'' : Workspace σ} (h : w.Appends w') (h' : w'.Appends w'') : w.Appends w'' :=
  fun target => (h target).trans (h' target)

structure Gen.Steady {α : Type} (x : Gen σ α) : Prop where
  obeys : ∀ target k p, (∀ outcome p, (k outcome).Obeys Workspace.Appends p) →
    (x target k).Obeys Workspace.Appends p
  propagates : ∀ target k, (∀ e, ∃ e', k (.error e) = .done (.error e')) → (∀ a, (k (.ok a)).Propagates) →
    (x target k).Propagates

namespace Gen.Steady

variable {α β : Type}

theorem result (outcome : Except GenError α) : (Gen.result outcome : Gen σ α).Steady where
  obeys _ _ p hk := hk outcome p
  propagates _ k hk hok := by
    cases outcome with
    | ok a => exact hok a
    | error e =>
      obtain ⟨e', he⟩ := hk e
      rw [Gen.result, he]
      trivial

theorem pure (a : α) : (Pure.pure a : Gen σ α).Steady := result (.ok a)

theorem bind {x : Gen σ α} {f : α → Gen σ β} (hx : x.Steady) (hf : ∀ a, (f a).Steady) : (x >>= f).Steady where
  obeys target k p hk := by
    refine hx.obeys target _ p fun outcome p => ?_
    cases outcome with
    | ok a => exact (hf a).obeys target k p hk
    | error e => exact hk (.error e) p
  propagates target k hk hok := by
    refine hx.propagates target _ (fun e => ?_) fun a => ?_
    · exact hk e
    · exact (hf a).propagates target k hk hok

theorem pass : (Gen.pass : Gen σ (Pass σ)).Steady where
  obeys _ _ p hk := hk (.ok p) p
  propagates _ _ _ hok := fun p => hok p

theorem generate (source : Source) : (Gen.generate source : Gen σ Unit).Steady where
  obeys _ _ _ hk := hk
  propagates _ _ hk hok := ⟨hk, hok ()⟩

theorem append {build : Scope → Scope} (hbuild : ∀ s : Scope, s.stmts <+: (build s).stmts) :
    (Gen.append build : Gen σ Unit).Steady where
  obeys target k p hk := by
    refine ⟨fun other => ?_, hk _ _⟩
    cases target <;> cases other <;> first | exact hbuild _ | exact List.prefix_refl _
  propagates _ _ _ hok := fun _ => hok ()

theorem outputOf (source : Source) (output : String) : (Gen.outputOf source output : Gen σ GenValue).Steady := by
  unfold Gen.outputOf
  refine (generate source).bind fun _ => pass.bind fun p => ?_
  cases p.session? source.ref.id with
  | none => exact result _
  | some session => exact result _

end Gen.Steady

structure Graph.Steady (graph : Graph σ) : Prop where
  obeys : graph.Obeys Workspace.Appends
  propagates : ∀ node ∈ graph, ∀ target, (node.code target .done).Propagates

theorem Graph.Steady.of_code {graph : Graph σ} (h : ∀ node ∈ graph, node.code.Steady) : graph.Steady where
  obeys node hnode target p := (h node hnode).obeys target .done p fun _ _ => trivial
  propagates node hnode target := (h node hnode).propagates target .done (fun e => ⟨e, rfl⟩) fun _ => trivial
/-! ## No errors -/

def Live.Clean (s : Live σ) : Prop := ∀ id, .failed id ∉ s.events

theorem Code.runWithin_clean {generate : Nat → Target → Live σ → Option (Except GenError Unit × Live σ)}
    (hgen : ∀ position target s t, generate position target s = some (.ok (), t) → s.Clean → t.Clean)
    {code : Code σ} (hcode : code.Propagates) {s t : Live σ} {session : Session}
    (hrun : code.runWithin generate s = some (.ok session, t)) (hs : s.Clean) : t.Clean := by
  induction code generalizing s with
  | done _ =>
    simp only [runWithin, Option.some.injEq, Prod.mk.injEq] at hrun
    exact hrun.2 ▸ hs
  | look k ih => exact ih s.pass (hcode s.pass) hrun hs
  | update w next ih => exact ih hcode hrun hs
  | generate position target k ih =>
    cases hanswer : generate position target s with
    | none => simp [runWithin, hanswer] at hrun
    | some out =>
      obtain ⟨answer, u⟩ := out
      simp only [runWithin, hanswer] at hrun
      cases answer with
      | error e =>
        obtain ⟨e', he⟩ := hcode.1 e
        simp [he, runWithin] at hrun
      | ok _ => exact ih _ hcode.2 hrun (hgen position target s u hanswer hs)

namespace Graph

variable {graph : Graph σ} {depth position : Nat} {node : Node σ} {target : Target} {s t : Live σ}

theorem generateWithin_clean (hsteady : graph.Steady)
    (hrun : graph.generateWithin depth position target s = some (.ok (), t)) (hs : s.Clean) : t.Clean := by
  induction depth generalizing position target s t with
  | zero => simp [generateWithin] at hrun
  | succ depth ih =>
    cases hnode : graph[position]? with
    | none =>
      simp only [generateWithin_none hnode, Option.some.injEq, Prod.mk.injEq, true_and] at hrun
      exact hrun ▸ hs
    | some node =>
      have hrequest : (s.note (.requested node.ref.id)).Clean := fun id => by simpa using hs id
      rcases node.request_cases s.pass s.busy with h | h | h
      · simp only [generateWithin_defers hnode h, Option.some.injEq, Prod.mk.injEq, true_and] at hrun
        exact hrun ▸ hrequest
      · simp only [generateWithin_skips hnode h, Option.some.injEq, Prod.mk.injEq, true_and] at hrun
        exact hrun ▸ hrequest
      · obtain ⟨result, u, hcode, hfinish⟩ := generateWithin_finish hnode h hrun
        cases result with
        | error e => simp [Live.finish] at hfinish
        | ok session =>
          have hentered : ((s.note (.requested node.ref.id)).enter node.ref.id).Clean :=
            fun id => by simpa using hs id
          have hu := Code.runWithin_clean (fun position target s t => ih)
            (hsteady.propagates node (Array.mem_of_getElem? hnode) target) hcode hentered
          obtain rfl := congrArg Prod.snd hfinish
          intro id
          simpa [Live.finish] using hu id

end Graph

end Pipewright
