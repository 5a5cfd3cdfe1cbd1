import Pipewright.Proofs.Assembly
import Pipewright.Proofs.GuardedFeatures

/-!
# Clearing the targets of a frame

Where frames add targets, they should clear those of the frame before. The one call
that clears them is written by the first node that enables targets, into the scope
which that node happens to write to: so a frame clears its targets before it adds
any just where that scope is the one that processes a frame (`frame_clears_first`).
-/

namespace Pipewright

variable {σ : Type}

def Stmt.addsTarget : Stmt → Bool
  | .act (.call callee _) => callee == "addRectTarget" || callee == "addRotRectTarget"
  | _ => false

def Stmt.clearsTargets : Stmt → Bool
  | .act (.call callee args) => callee == "clearTargets" && args.isEmpty
  | _ => false

/-- In document order, bodies included, the targets are cleared before one is added. -/
def ClearsFirst (stmts : List Stmt) : Prop :=
  ∃ before clear behind, preorders stmts = before ++ clear :: behind ∧ clear.clearsTargets = true ∧
    ∀ s ∈ before, s.addsTarget = false

theorem clearsFirst_append {before : List Stmt} (h : ∀ s ∈ preorders before, s.addsTarget = false) (behind : List Stmt) :
    ClearsFirst (before ++ Targets.clearCall :: behind) := by
  refine ⟨preorders before, Targets.clearCall, preorders behind, ?_, rfl, h⟩
  rw [RenderStyle.preorders_append]
  rfl

theorem not_clearsFirst {stmts : List Stmt} (h : ∀ s ∈ preorders stmts, s.clearsTargets = false) :
    ¬ ClearsFirst stmts := by
  rintro ⟨before, clear, behind, hstmts, hclear, -⟩
  have hnone := h clear (by rw [hstmts]; simp)
  rw [hnone] at hclear
  cases hclear

/-- Apart from nodes that enable targets, the steps write these statements into the scope that processes a frame. -/
def TargetStep.Write (steps : List (TargetStep σ)) (stmts : List Stmt) : Prop :=
  ∀ p : Pass σ, (others steps p).work.processFrame.stmts = p.work.processFrame.stmts ++ stmts

/-- The call that clears the targets stands in the frame between what was written there before and after the first
node that enables targets, if that is where this node writes; otherwise it does not stand there. -/
theorem TargetStep.run_frame {graph : Graph σ} {p : Pass σ} {before behind : List (TargetStep σ)} {node : NodeRef}
    {first : Target} {early late : List Stmt} (hsupports : p.language.supports .classes = true)
    (hnew : p.work.hasFlag Targets.flag = false) (hbefore : nodes before = []) (hearly : Write before early)
    (hlate : Write behind late) :
    (run graph (before ++ enable node first :: behind) p).2.work.processFrame.stmts =
      p.work.processFrame.stmts ++ early ++ (if first = .processFrame then [Targets.clearCall] else []) ++ late := by
  rw [run_first graph hsupports hnew hbefore, hlate]
  obtain ⟨gap, methods, -, -, hscopes⟩ :=
    (Targets.install_installed p.language first ((others_keeps before p).hasFlag.trans hnew)).scopes
  have hframe := hscopes .processFrame
  simp only [List.append_nil, eq_comm (a := Target.processFrame)] at hframe
  change (Targets.install p.language first (others before p).work).processFrame.stmts = _ at hframe
  change (Targets.install p.language first (others before p).work).processFrame.stmts ++ late = _
  rw [hframe]
  change (others before p).work.processFrame.stmts ++ _ ++ _ = _
  rw [hearly]

/-- Where no target is added before a node enables targets, a frame clears the targets before it adds any if the first
node that enables them does so from the scope that processes a frame, and only then, unless nodes clear them
themselves. -/
theorem frame_clears_first (graph : Graph σ) {p : Pass σ} {before behind : List (TargetStep σ)} (node : NodeRef)
    (first : Target) {early late : List Stmt} (hsupports : p.language.supports .classes = true)
    (hnew : p.work.hasFlag Targets.flag = false) (hbefore : TargetStep.nodes before = [])
    (hearly : TargetStep.Write before early) (hlate : TargetStep.Write behind late)
    (hadds : ∀ s ∈ preorders (p.work.processFrame.stmts ++ early), s.addsTarget = false) :
    let frame := (TargetStep.run graph (before ++ .enable node first :: behind) p).2.work.processFrame.stmts
    (first = .processFrame → ClearsFirst frame) ∧
    ((∀ s ∈ preorders (p.work.processFrame.stmts ++ early ++ late), s.clearsTargets = false) →
      (ClearsFirst frame ↔ first = .processFrame)) := by
  intro frame
  have hframe : frame = _ := TargetStep.run_frame hsupports hnew hbefore hearly hlate
  have hclears : first = .processFrame → ClearsFirst frame := by
    intro hfirst
    rw [hframe, if_pos hfirst, List.append_assoc (_ ++ early)]
    exact clearsFirst_append hadds late
  refine ⟨hclears, fun hnone => ⟨fun h => ?_, hclears⟩⟩
  -- elsewhere the call is not part of the frame, and nothing else there clears
  by_contra hother
  rw [hframe, if_neg hother, List.append_nil] at h
  exact not_clearsFirst hnone h

def Targets.addBall : TargetStep Unit :=
  .other (fun p => { p with work := p.work.modifyScope (addRect (.raw "label") (.raw "rect")) .processFrame })
    fun _ => ⟨rfl, rfl⟩

/-- One node enables targets while the frame or the set-up is written, and a target is added to the frame. -/
theorem frame_clears_first_ball :
    let frame (first : Target) := (TargetStep.run #[] [.enable ⟨1, "Rects"⟩ first, Targets.addBall]
      (Pass.new {} ())).2.work.processFrame.stmts
    ClearsFirst (frame .processFrame) ∧ ¬ ClearsFirst (frame .init) := by
  intro frame
  have hearly : TargetStep.Write ([] : List (TargetStep Unit)) [] := fun p => (List.append_nil _).symm
  have hlate : TargetStep.Write [Targets.addBall] [.act (.call "addRectTarget" [.raw "label", .raw "rect"])] :=
    fun p => rfl
  have hiff : ∀ first, ClearsFirst (frame first) ↔ first = .processFrame := by
    intro first
    obtain ⟨-, hiff⟩ := frame_clears_first #[] (p := Pass.new {} ()) ⟨1, "Rects"⟩ first rfl rfl rfl hearly hlate
      (fun _ hs => nomatch hs)
    refine hiff fun s hs => ?_
    obtain rfl := List.mem_singleton.mp hs
    decide
  exact ⟨(hiff .processFrame).mpr rfl, fun h => nomatch (hiff .init).mp h⟩

end Pipewright
