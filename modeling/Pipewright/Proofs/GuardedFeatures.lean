import Pipewright.Pass.Targets
import Pipewright.Proofs.Outcomes
import Pipewright.Proofs.Scoping

/-!
# Guarded features

Targets and the preview need features of the language, which are checked before
anything is changed, so a failed call leaves the pass as it was. The target maps
belong to the whole pass: the first node that enables targets installs them, and
the same call of any other node changes nothing (`guarded_features`).
-/

namespace Pipewright

variable {σ : Type}

/-! ## Targets -/

namespace Targets

def clearCall : Stmt := .act (.call "clearTargets" [])

def fields (l : Language) : List Stmt :=
  [(rects l).map, (rotatedRects l).map].map fun map => .instanceVariable .isPrivate map none {}

def declareMaps (l : Language) (s : Scope) : Scope :=
  s.group fun s => (s.instanceVariable .isPrivate (rects l).map).instanceVariable .isPrivate (rotatedRects l).map

def install (l : Language) (target : Target) (w : Workspace σ) : Workspace σ :=
  let w := (w.addFlag flag).modifyScope (·.call "clearTargets" []) target
  (w.modifyScope (declareMaps l) .classStart).modifyScope (accessors l) .classEnd

def methodNames : List String :=
  ["clearTargets", "addRectTarget", "addRotRectTarget", "getRectTarget", "getRectTargets", "getRotRectTarget",
    "getRotRectTargets"]

end Targets

def Stmt.methodName? : Stmt → Option String
  | .method signature _ => some signature.name
  | _ => none

/-- From `w` to `w'` the targets are installed: the flag, one call in the scope of the node, the maps at the start of
the class unless their names are taken there, and seven methods at its end. Nothing else is different. -/
structure Targets.Installed (l : Language) (target : Target) (w w' : Workspace σ) : Prop where
  flags : w'.flags = w.flags ++ [flag]
  scopes : ∃ gap methods, (gap = [] ∨ gap = [.blank]) ∧ methods.map Stmt.methodName? = methodNames.map some ∧
    ∀ t, (w'.scope t).stmts = (w.scope t).stmts ++ (if t = target then [clearCall] else []) ++
      match t with
      | .classStart => gap ++ (fields l).filter fun s => s.names.all (!w.classStart.declares ·)
      | .classEnd => methods
      | _ => []
  names : w'.names = w.names
  registry : w'.registry = w.registry
  imports : w'.imports = w.imports
  outside : w'.outside = w.outside

def Scope.AddsMethods (s t : Scope) (names : List String) : Prop :=
  ∃ methods, methods.map Stmt.methodName? = names.map some ∧ t.stmts = s.stmts ++ methods

theorem Scope.AddsMethods.method {s t : Scope} {names : List String} (h : s.AddsMethods t names)
    (signature : MethodSignature) (build : Scope → Scope) :
    s.AddsMethods (t.method signature build) (names ++ [signature.name]) := by
  obtain ⟨methods, hnames, hstmts⟩ := h
  refine ⟨methods ++ [.method signature (build t.child).toBlock], by simp [hnames, Stmt.methodName?], ?_⟩
  rw [← List.append_assoc, ← hstmts]
  rfl

/-- The scope itself if the name of the variable is taken. -/
theorem Scope.instanceVariable_cases (s : Scope) (visibility : Visibility) (var : Variable) (label : Option String)
    (modifiers : Modifiers) : (s.instanceVariable visibility var label modifiers).stmts =
      s.stmts ++ [.instanceVariable visibility var label modifiers].filter (·.names.all (!s.declares ·)) ∧
    (s.instanceVariable visibility var label modifiers).declares =
      fun name => s.declares name || name == var.name := by
  have hnames : (Stmt.instanceVariable visibility var label modifiers).names = [var.name] := rfl
  unfold Scope.instanceVariable Scope.declare
  cases h : s.declares var.name with
  | true =>
    refine ⟨by simp [hnames, h], funext fun name => ?_⟩
    by_cases hname : name = var.name
    · simpa [hname, Scope.declares] using h
    · simp [hname, Scope.declares]
  | false =>
    refine ⟨by simp [hnames, h, Scope.push], funext fun name => ?_⟩
    rw [Bool.eq_iff_iff]
    simp [Scope.declares, Scope.push]

namespace Targets

theorem accessors_adds (l : Language) (s : Scope) : s.AddsMethods (accessors l s) methodNames := by
  have hadding : ∀ {t names} k, s.AddsMethods t names → s.AddsMethods (adding l k t) (names ++ ["add" ++ k.name]) :=
    fun _ h => h.method _ _
  have hgetting : ∀ {t names} k, s.AddsMethods t names → s.AddsMethods (getting l k t) (names ++ ["get" ++ k.name]) :=
    fun _ h => h.method _ _
  have hall : ∀ {t names} k, s.AddsMethods t names →
      s.AddsMethods (gettingAll l k t) (names ++ ["get" ++ k.name ++ "s"]) := fun _ h => h.method _ _
  have hnone : s.AddsMethods s [] := ⟨[], rfl, (List.append_nil _).symm⟩
  have hclearing : s.AddsMethods (clearing l s) ["clearTargets"] := hnone.method _ _
  exact hall (rotatedRects l) (hgetting (rotatedRects l) (hall (rects l) (hgetting (rects l)
    (hadding (rotatedRects l) (hadding (rects l) hclearing)))))

theorem declareMaps_stmts (l : Language) (s : Scope) : ∃ gap, (gap = [] ∨ gap = [.blank]) ∧
    (declareMaps l s).stmts = s.stmts ++ (gap ++ (fields l).filter (·.names.all (!s.declares ·))) := by
  obtain ⟨gap, hadds, hgap⟩ := Scope.Adds.beginGroup s
  have hsame : s.beginGroup.declares = s.declares := by
    unfold Scope.declares
    rw [hadds.declared, declaredNames_gap hgap, List.append_nil]
  obtain ⟨hfirst, hdeclares⟩ := s.beginGroup.instanceVariable_cases .isPrivate (rects l).map none {}
  obtain ⟨hsecond, -⟩ := (s.beginGroup.instanceVariable .isPrivate (rects l).map none {}).instanceVariable_cases
    .isPrivate (rotatedRects l).map none {}
  refine ⟨gap, hgap, ?_⟩
  -- the second map has a name of its own, so the first is not in its way
  have hown : ((rotatedRects l).map.name == (rects l).map.name) = false := by
    change ("rotRectTargets" == "rectTargets") = false
    decide
  have hfields : fields l = [.instanceVariable .isPrivate (rects l).map none {}] ++
      [.instanceVariable .isPrivate (rotatedRects l).map none {}] := rfl
  change ((s.beginGroup.instanceVariable .isPrivate (rects l).map none {}).instanceVariable .isPrivate
    (rotatedRects l).map none {}).stmts = _
  rw [hsecond, hfirst, hdeclares, hsame, hadds.stmts, hfields, List.filter_append, List.append_assoc, List.append_assoc]
  congr 3
  exact List.filter_congr fun stmt hstmt => by
    obtain rfl := List.mem_singleton.mp hstmt
    simp [Stmt.names, Stmt.declared?, hown]

theorem install_installed (l : Language) (target : Target) {w : Workspace σ} (h : w.hasFlag flag = false) :
    Installed l target w (install l target w) := by
  have hflag := Workspace.addFlag_of_new h
  let called : Workspace σ := (w.addFlag flag).modifyScope (·.call "clearTargets" []) target
  have hcalled : ∀ t, (called.scope t).stmts = (w.scope t).stmts ++ (if t = target then [clearCall] else []) ∧
      (called.scope t).declares = (w.scope t).declares := by
    intro t
    have hscope : (w.addFlag flag).scope t = w.scope t := by rw [hflag]; cases t <;> rfl
    unfold called
    rw [Workspace.scope_modifyScope, hscope]
    split
    · exact ⟨rfl, rfl⟩
    · exact ⟨(List.append_nil _).symm, rfl⟩
  -- the maps and the methods go into two other scopes, or behind the call if the node writes to one of these
  obtain ⟨gap, hgap, hmaps⟩ := declareMaps_stmts l (called.scope .classStart)
  obtain ⟨methods, hnames, hmethods⟩ := accessors_adds l (called.scope .classEnd)
  have hother : ∀ t, t ≠ .classStart → t ≠ .classEnd → (install l target w).scope t = called.scope t := by
    intro t hstart hend
    unfold install
    rw [Workspace.scope_modifyScope, if_neg hend, Workspace.scope_modifyScope, if_neg hstart]
  have hfields : ∀ {α : Type} (f : Workspace σ → α), (∀ v build t, f (Workspace.modifyScope v build t) = f v) →
      f (install l target w) = f (w.addFlag flag) := by
    intro α f hf
    unfold install
    rw [hf, hf, hf]
  constructor
  · rw [hfields Workspace.flags (fun _ _ t => by cases t <;> rfl), hflag]
  · refine ⟨gap, methods, hgap, hnames, fun t => ?_⟩
    cases t with
    | classStart =>
      have hscope : (install l target w).scope .classStart = declareMaps l (called.scope .classStart) := rfl
      rw [hscope, hmaps, (hcalled .classStart).1, (hcalled .classStart).2]
      rfl
    | classEnd =>
      have hscope : (install l target w).scope .classEnd = accessors l (called.scope .classEnd) := rfl
      rw [hscope, hmethods, (hcalled .classEnd).1]
    | init | processFrame | viewportTapped =>
      rw [hother _ (by decide) (by decide), (hcalled _).1, List.append_nil]
  · rw [hfields Workspace.names (fun _ _ t => by cases t <;> rfl), hflag]
  · rw [hfields Workspace.registry (fun _ _ t => by cases t <;> rfl), hflag]
  · rw [hfields Workspace.imports (fun _ _ t => by cases t <;> rfl), hflag]
  · rw [hfields Workspace.outside (fun _ _ t => by cases t <;> rfl), hflag]

end Targets

/-! ## Calls -/

section
variable (generate : Nat → Target → Pass σ → Except GenError Unit × Pass σ) (target : Target) (p : Pass σ)
  (node : NodeRef)

def GenError.lacking (l : Language) (feature : Feature) : GenError := .language (some node) (.unsupported l feature)

theorem ends_enableTargets : (Gen.enableTargets node).Ends generate target p
    (if p.language.supports .classes then .ok () else .error (GenError.lacking node p.language .classes))
    (if p.language.supports .classes && !p.work.hasFlag Targets.flag then Targets.install p.language target p.work
      else p.work) := by
  have hguard : (Gen.requireFeature node .classes).Ends generate target p _ _ := Gen.ends_requireFeature node .classes
  cases hsupports : p.language.supports .classes with
  | false =>
    rw [hsupports] at hguard
    exact hguard.bind_error
  | true =>
    rw [hsupports] at hguard
    refine hguard.bind ((Gen.ends_addFlag Targets.flag).bind ?_)
    cases hflag : p.work.hasFlag Targets.flag with
    | false => exact fun _ => rfl
    | true =>
      rw [Workspace.addFlag_of_has hflag]
      exact fun _ => rfl

def Language.toRgb (l : Language) (color : ColorSpace) : Value :=
  if color = .rgb then .absent else l.colorConversion color .rgb

def Workspace.stream (l : Language) (id : Int) (mat : Value) (color : ColorSpace) (target : Target) (w : Workspace σ) :
    Workspace σ :=
  let first := w.registry.register .normal (.give (some (.value (l.toRgb color))))
  let second := first.2.register .normal (Gen.streamRecipe l id mat first.1)
  { w with registry := second.2 }.modifyScope (·.write (Marker.text second.1.id)) target

theorem ends_streamMat (id : Int) (mat : Value) (color : ColorSpace) :
    (Gen.streamMat node id mat color).Ends generate target p
      (if p.preview && !p.language.supports .streamFrame then .error (GenError.lacking node p.language .streamFrame)
        else .ok ())
      (if p.preview && p.language.supports .streamFrame then p.work.stream p.language id mat color target
        else p.work) := by
  have hguard : (Gen.requireFeature node .streamFrame).Ends generate target p _ _ :=
    Gen.ends_requireFeature node .streamFrame
  have hpass : (Gen.pass : Gen σ (Pass σ)).Ends generate target p (.ok p) p.work := fun _ => rfl
  refine hpass.bind ?_
  change (if p.preview then _ else pure () : Gen σ Unit).Ends generate target p _ _
  by_cases hpreview : p.preview = true
  · by_cases hsupports : p.language.supports .streamFrame = true
    · simp only [hpreview, hsupports, if_true, Bool.not_true, Bool.and_false, Bool.and_self, Bool.false_eq_true,
        if_false] at hguard ⊢
      refine hguard.bind ?_
      exact fun _ => rfl
    · simp only [hpreview, hsupports, if_true, Bool.not_false, Bool.and_false, Bool.and_self, Bool.false_eq_true,
        if_false] at hguard ⊢
      exact hguard.bind_error
  · simp only [hpreview, Bool.false_and, Bool.false_eq_true, if_false]
    exact Gen.ends_pure ()

end

/-! ## Histories -/

structure Targets.Keeps (p q : Pass σ) : Prop where
  language : q.language = p.language
  flags : q.work.flags.count flag = p.work.flags.count flag

theorem Targets.Keeps.hasFlag {p q : Pass σ} (h : Keeps p q) : q.work.hasFlag flag = p.work.hasFlag flag := by
  rw [Bool.eq_iff_iff, Workspace.hasFlag, Workspace.hasFlag, List.contains_iff_mem, List.contains_iff_mem,
    ← List.count_pos_iff, ← List.count_pos_iff, h.flags]

/-- A node enables targets, or something else happens to the pass that does not install their flag. -/
inductive TargetStep (σ : Type) where
  | enable (node : NodeRef) (target : Target)
  | other (change : Pass σ → Pass σ) (keeps : ∀ p, Targets.Keeps p (change p))

namespace TargetStep

def nodes : List (TargetStep σ) → List NodeRef
  | [] => []
  | enable node _ :: rest => node :: nodes rest
  | other _ _ :: rest => nodes rest

def others : List (TargetStep σ) → Pass σ → Pass σ
  | [], p => p
  | enable _ _ :: rest, p => others rest p
  | other change _ :: rest, p => others rest (change p)

def run (graph : Graph σ) : List (TargetStep σ) → Pass σ → List (Except GenError Unit) × Pass σ
  | [], p => ([], p)
  | enable node target :: rest, p =>
    let (outcome, p) := graph.exec target (Gen.enableTargets node) p
    let (outcomes, p) := run graph rest p
    (outcome :: outcomes, p)
  | other change _ :: rest, p => run graph rest (change p)

variable (graph : Graph σ)

theorem others_keeps (steps : List (TargetStep σ)) : ∀ p : Pass σ, Targets.Keeps p (others steps p) := by
  induction steps with
  | nil => exact fun p => ⟨rfl, rfl⟩
  | cons step rest ih =>
    intro p
    cases step with
    | enable node target => exact ih p
    | other change keeps =>
      have hrest := ih (change p)
      exact ⟨hrest.language.trans (keeps p).language, hrest.flags.trans (keeps p).flags⟩

theorem run_unsupported (steps : List (TargetStep σ)) : ∀ {p : Pass σ}, p.language.supports .classes = false →
    run graph steps p = ((nodes steps).map fun node => .error (.lacking node p.language .classes), others steps p) := by
  induction steps with
  | nil => exact fun _ => rfl
  | cons step rest ih =>
    intro p h
    cases step with
    | enable node target =>
      have hfirst := (ends_enableTargets (graph.generate []) target p node).exec
      simp only [h, Bool.false_eq_true, if_false, Bool.false_and] at hfirst
      simp only [run, hfirst, ih h]
      rfl
    | other change keeps =>
      have hlanguage := (keeps p).language
      rw [run, ih (hlanguage ▸ h), hlanguage]
      rfl

/-- Once the flag is there, enabling targets succeeds and changes nothing. -/
theorem run_installed (steps : List (TargetStep σ)) : ∀ {p : Pass σ}, p.language.supports .classes = true →
    p.work.hasFlag Targets.flag = true →
      run graph steps p = ((nodes steps).map fun _ => .ok (), others steps p) := by
  induction steps with
  | nil => exact fun _ _ => rfl
  | cons step rest ih =>
    intro p h hflag
    cases step with
    | enable node target =>
      have hfirst := (ends_enableTargets (graph.generate []) target p node).exec
      simp only [h, hflag, if_true, Bool.not_true, Bool.and_false, Bool.false_eq_true, if_false] at hfirst
      simp only [run, hfirst, ih h hflag]
      rfl
    | other change keeps =>
      rw [run, ih ((keeps p).language ▸ h) ((keeps p).hasFlag.trans hflag)]
      rfl

/-- Up to the first node that enables targets, only the other steps count. -/
theorem run_append_of_nodes_nil {before : List (TargetStep σ)} (h : nodes before = []) (rest : List (TargetStep σ)) :
    ∀ p : Pass σ, run graph (before ++ rest) p = run graph rest (others before p) := by
  induction before with
  | nil => exact fun p => rfl
  | cons step before ih =>
    intro p
    cases step with
    | enable node target => cases h
    | other change keeps => exact ih h (change p)

theorem nodes_append (xs ys : List (TargetStep σ)) : nodes (xs ++ ys) = nodes xs ++ nodes ys := by
  induction xs with
  | nil => rfl
  | cons step rest ih => cases step <;> simp [nodes, ih]

/-- The first node that enables targets installs them; all others only get to know that they are there. -/
theorem run_first {p : Pass σ} (hsupports : p.language.supports .classes = true)
    (hnew : p.work.hasFlag Targets.flag = false) {before : List (TargetStep σ)} (hbefore : nodes before = [])
    (node : NodeRef) (target : Target) (behind : List (TargetStep σ)) :
    let q := others before p
    run graph (before ++ enable node target :: behind) p =
      ((nodes (before ++ enable node target :: behind)).map fun _ => .ok (),
        others behind { q with work := Targets.install p.language target q.work }) := by
  intro q
  have hkeeps : Targets.Keeps p q := others_keeps before p
  have hq : q.language.supports .classes = true := hkeeps.language ▸ hsupports
  have hqnew : q.work.hasFlag Targets.flag = false := hkeeps.hasFlag.trans hnew
  have hfirst : graph.exec target (Gen.enableTargets node) q =
      (.ok (), { q with work := Targets.install p.language target q.work }) := by
    have hexec := (ends_enableTargets (graph.generate []) target q node).exec
    rw [hq, hqnew, if_pos rfl, if_pos (by rfl)] at hexec
    rw [hexec, ← hkeeps.language]
  have hflag : (Targets.install p.language target q.work).hasFlag Targets.flag = true := by
    rw [Workspace.hasFlag, (Targets.install_installed p.language target hqnew).flags]
    simp
  have hrest := run_installed graph behind (p := { q with work := Targets.install p.language target q.work }) hq hflag
  rw [run_append_of_nodes_nil graph hbefore, nodes_append, hbefore, run, hfirst]
  simp only [hrest]
  rfl

end TargetStep

/-- Enabling targets and showing an image fail just where the language lacks the feature, and then the pass is as it was
before, as it is where there is no preview to show an image in. In a history that starts without the flag and in which
nothing else installs it, the first node that enables targets installs them all, and every other node succeeds without
a change; if the language has no classes, all of them fail and only the other steps count. -/
theorem guarded_features (graph : Graph σ) (generate : Nat → Target → Pass σ → Except GenError Unit × Pass σ)
    (target : Target) (p : Pass σ) :
    (∀ node, ∃ outcome w, (Gen.enableTargets node).Ends generate target p outcome w ∧
      ((∃ e, outcome = .error e) ↔ p.language.supports .classes = false) ∧
      ∀ e, outcome = .error e → e = .lacking node p.language .classes ∧ w = p.work) ∧
    (∀ node id mat color, ∃ outcome w, (Gen.streamMat node id mat color).Ends generate target p outcome w ∧
      ((∃ e, outcome = .error e) ↔ p.preview = true ∧ p.language.supports .streamFrame = false) ∧
      (∀ e, outcome = .error e → e = .lacking node p.language .streamFrame ∧ w = p.work) ∧
      (p.preview = false → outcome = .ok () ∧ w = p.work)) ∧
    (p.work.hasFlag Targets.flag = false →
      (p.language.supports .classes = false → ∀ steps : List (TargetStep σ), TargetStep.run graph steps p =
        ((TargetStep.nodes steps).map fun node => .error (.lacking node p.language .classes),
          TargetStep.others steps p)) ∧
      (p.language.supports .classes = true → ∀ (before : List (TargetStep σ)) (node : NodeRef) (first : Target)
        (behind : List (TargetStep σ)), TargetStep.nodes before = [] →
        let q := TargetStep.others before p
        let steps := before ++ .enable node first :: behind
        ∃ w, Targets.Installed p.language first q.work w ∧
          TargetStep.run graph steps p =
            ((TargetStep.nodes steps).map fun _ => .ok (), TargetStep.others behind { q with work := w }) ∧
          (TargetStep.run graph steps p).2.work.flags.count Targets.flag = 1)) := by
  refine ⟨fun node => ?_, fun node id mat color => ?_, fun hnew => ⟨fun hsupports steps => ?_, ?_⟩⟩
  · refine ⟨_, _, ends_enableTargets generate target p node, ?_, ?_⟩
    · cases p.language.supports .classes <;> simp
    · intro e he
      cases hsupports : p.language.supports .classes with
      | true => simp [hsupports] at he
      | false =>
        simp only [hsupports, Bool.false_eq_true, if_false, Except.error.injEq] at he
        exact ⟨he.symm, by simp⟩
  · refine ⟨_, _, ends_streamMat generate target p node id mat color, ?_, ?_, ?_⟩
    · cases p.preview <;> cases p.language.supports .streamFrame <;> simp
    · intro e he
      cases hsupports : p.language.supports .streamFrame with
      | true => simp [hsupports] at he
      | false =>
        refine ⟨?_, by simp⟩
        split at he
        · exact (Except.error.inj he).symm
        · cases he
    · intro hpreview
      simp [hpreview]
  · exact TargetStep.run_unsupported graph steps hsupports
  · intro hsupports before node first behind hbefore q steps
    have hqnew : q.work.hasFlag Targets.flag = false := (TargetStep.others_keeps before p).hasFlag.trans hnew
    have hinstalled := Targets.install_installed p.language first hqnew
    have hrun := TargetStep.run_first graph hsupports hnew hbefore node first behind
    refine ⟨_, hinstalled, hrun, ?_⟩
    have hnone : q.work.flags.count Targets.flag = 0 := by
      rw [List.count_eq_zero]
      simpa [Workspace.hasFlag] using hqnew
    rw [hrun, (TargetStep.others_keeps behind _).flags]
    change (Targets.install p.language first q.work).flags.count Targets.flag = 1
    rw [hinstalled.flags, List.count_append, hnone]
    rfl

end Pipewright
