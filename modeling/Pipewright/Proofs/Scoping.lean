import Pipewright.Proofs.References
import Pipewright.Scope.Builder

/-!
# Variables in scope

A statement is in scope if each variable that it refers to is known: declared
before it, the variable of a loop around it, or known from outside. What raw
text mentions is given by a relation, for raw text may hold markers.
-/

namespace Pipewright

/-! ## Statements in scope -/

def Stmt.names (s : Stmt) : List String := (s.declared?.map Variable.name).toList

def declaredNames (stmts : List Stmt) : List String := stmts.flatMap Stmt.names

@[simp] theorem declaredNames_nil : declaredNames [] = [] := rfl

@[simp] theorem declaredNames_cons (s : Stmt) (stmts : List Stmt) :
    declaredNames (s :: stmts) = s.names ++ declaredNames stmts := rfl

@[simp] theorem declaredNames_append (a b : List Stmt) :
    declaredNames (a ++ b) = declaredNames a ++ declaredNames b := by
  simp [declaredNames]

theorem declaredNames_gap {gap : List Stmt} (h : gap = [] ∨ gap = [.blank]) : declaredNames gap = [] := by
  rcases h with rfl | rfl <;> rfl

section
variable (l : Language) (mentions : String → String → Prop)

def Covers (known : List String) (values : List Value) : Prop := ∀ v ∈ values, l.references v.text ⊆ known

def Action.Scoped (known : List String) : Action → Prop
  | .assign target value | .assignInstance target value => target.name ∈ known ∧ Covers l known [value]
  | .setElement target index value => target.name ∈ known ∧ Covers l known [index, value]
  | .staticCall _ _ args | .call _ args => Covers l known args
  | .methodCall callee _ args => Covers l known (callee :: args)
  | .enumeration .. | .comment _ => True
  | .raw text => ∀ name, mentions text name → name ∈ known

mutual

def StmtScoped (known : List String) : Stmt → Prop
  | .instanceVariable _ var _ _ | .localVariable var _ => Covers l known [var.initial]
  | .act action => action.Scoped l mentions known
  | .ret value => Covers l known value.toList
  | .ifThen condition body | .whileLoop condition body => Covers l known [condition] ∧ BlockScoped known body
  | .forLoop var start limit step body => Covers l known [start] ∧
      Covers l (var.name :: known) (limit :: step.toList) ∧ BlockScoped (var.name :: known) body
  | .foreach var iterable body => Covers l known [iterable] ∧ BlockScoped (var.name :: known) body
  | .method signature body => BlockScoped (signature.parameters.map (·.name) ++ known) body
  | .constructor _ _ parameters body => BlockScoped (parameters.map (·.name) ++ known) body
  | .cls _ body | .nested body _ => BlockScoped known body
  | .blank => True

def BlockScoped (known : List String) : Block → Prop
  | .mk _ stmts => StmtsScoped known stmts

/-- Each statement also knows what those before it declare. -/
def StmtsScoped (known : List String) : List Stmt → Prop
  | [] => True
  | s :: rest => StmtScoped known s ∧ StmtsScoped (known ++ s.names) rest

end

end

section
variable {l : Language} {mentions mentions' : String → String → Prop} {known known' : List String}

theorem Covers.mono {values : List Value} (hknown : known ⊆ known') (h : Covers l known values) :
    Covers l known' values :=
  fun v hv => List.Subset.trans (h v hv) hknown

theorem covers_cons {v : Value} {values : List Value} :
    Covers l known (v :: values) ↔ l.references v.text ⊆ known ∧ Covers l known values := by
  simp [Covers]

@[simp] theorem covers_nil : Covers l known [] := by
  simp [Covers]

theorem stmtsScoped_append (a b : List Stmt) : StmtsScoped l mentions known (a ++ b) ↔
    StmtsScoped l mentions known a ∧ StmtsScoped l mentions (known ++ declaredNames a) b := by
  induction a generalizing known with
  | nil => simp [StmtsScoped]
  | cons s a ih => simp [StmtsScoped, ih, and_assoc]

structure Looser (mentions mentions' : String → String → Prop) (known known' : List String) : Prop where
  known : known ⊆ known'
  mentions : ∀ text name, mentions' text name → mentions text name ∨ name ∈ known'

namespace Looser

variable (h : Looser mentions mentions' known known')
include h

theorem behind (names : List String) : Looser mentions mentions' (names ++ known) (names ++ known') where
  known := List.append_subset.mpr
    ⟨List.subset_append_left _ _, List.subset_append_of_subset_right _ h.known⟩
  mentions text name hm := (h.mentions text name hm).imp_right (List.mem_append_right _)

theorem before (names : List String) : Looser mentions mentions' (known ++ names) (known' ++ names) where
  known := List.append_subset.mpr
    ⟨List.subset_append_of_subset_left _ h.known, List.subset_append_right _ _⟩
  mentions text name hm := (h.mentions text name hm).imp_right (List.mem_append_left _)

theorem action {action : Action} (hscoped : action.Scoped l mentions known) : action.Scoped l mentions' known' := by
  cases action with
  | assign _ _ | assignInstance _ _ | setElement _ _ _ => exact ⟨h.known hscoped.1, hscoped.2.mono h.known⟩
  | staticCall _ _ _ | call _ _ | methodCall _ _ _ => exact Covers.mono h.known hscoped
  | enumeration _ _ | comment _ => trivial
  | raw text =>
    intro name hname
    rcases h.mentions text name hname with hold | hin
    · exact h.known (hscoped name hold)
    · exact hin

end Looser

mutual

theorem Looser.stmt {known known' : List String} (h : Looser mentions mentions' known known') :
    ∀ {s : Stmt}, StmtScoped l mentions known s → StmtScoped l mentions' known' s
  | .instanceVariable _ _ _ _, hs | .localVariable _ _, hs | .ret _, hs => Covers.mono h.known hs
  | .act _, hs => h.action hs
  | .ifThen _ _, hs | .whileLoop _ _, hs => ⟨hs.1.mono h.known, h.block hs.2⟩
  | .forLoop var _ _ _ _, hs =>
    ⟨hs.1.mono h.known, hs.2.1.mono (h.behind [var.name]).known, (h.behind [var.name]).block hs.2.2⟩
  | .foreach var _ _, hs => ⟨hs.1.mono h.known, (h.behind [var.name]).block hs.2⟩
  | .method _ _, hs | .constructor _ _ _ _, hs => (h.behind _).block hs
  | .cls _ _, hs | .nested _ _, hs => h.block hs
  | .blank, _ => trivial

theorem Looser.block {known known' : List String} (h : Looser mentions mentions' known known') :
    ∀ {b : Block}, BlockScoped l mentions known b → BlockScoped l mentions' known' b
  | .mk _ _, hs => h.stmts hs

theorem Looser.stmts {known known' : List String} (h : Looser mentions mentions' known known') :
    ∀ {stmts : List Stmt}, StmtsScoped l mentions known stmts → StmtsScoped l mentions' known' stmts
  | [], _ => trivial
  | s :: _, hs => ⟨h.stmt hs.1, (h.before s.names).stmts hs.2⟩

end

end

/-! ## Scopes under construction -/

structure Scope.Adds (s t : Scope) (added : List Stmt) : Prop where
  stmts : t.stmts = s.stmts ++ added
  declared : t.declared = s.declared ++ declaredNames added
  dropped : t.dropped = s.dropped
  hooks : t.hooks = s.hooks

namespace Scope.Adds

variable {s t u : Scope} {a b : List Stmt}

theorem refl (s : Scope) : Adds s s [] := ⟨by simp, by simp, rfl, rfl⟩

theorem trans (h : Adds s t a) (h' : Adds t u b) : Adds s u (a ++ b) where
  stmts := by rw [h'.stmts, h.stmts, List.append_assoc]
  declared := by rw [h'.declared, h.declared, declaredNames_append, List.append_assoc]
  dropped := h'.dropped.trans h.dropped
  hooks := h'.hooks.trans h.hooks

theorem push (s : Scope) {stmt : Stmt} (h : stmt.declared? = none) : Adds s (s.push stmt) [stmt] where
  stmts := rfl
  declared := by simp [Scope.push, Stmt.names, h]
  dropped := rfl
  hooks := rfl

theorem enclose (s : Scope) {build : Scope → Scope} {stmt : Block → Stmt} (h : (build s.child).dropped = [])
    (hstmt : ∀ body, (stmt body).declared? = none) :
    Adds s (s.enclose build stmt) [stmt (build s.child).toBlock] where
  stmts := rfl
  declared := by simp [Scope.enclose, Scope.push, Stmt.names, hstmt]
  dropped := by simp [Scope.enclose, Scope.push, h]
  hooks := rfl

theorem declare {name : String} {stmt : Stmt} (h : name ∉ s.declared) (hname : stmt.names = [name]) :
    Adds s (s.declare name stmt) [stmt] := by
  have hnew : s.declares name = false := by simpa [Scope.declares] using h
  unfold Scope.declare
  rw [hnew]
  exact ⟨rfl, by simp [Scope.push, hname], rfl, rfl⟩

theorem instanceVariable (visibility : Visibility) {var : Variable} (h : var.name ∉ s.declared)
    (label : Option String) (modifiers : Modifiers) : Adds s (s.instanceVariable visibility var label modifiers)
      [.instanceVariable visibility var label modifiers] :=
  declare h rfl

theorem localVariable {var : Variable} (h : var.name ∉ s.declared) (isFinal : Bool) :
    Adds s (s.localVariable var isFinal) [.localVariable var isFinal] :=
  declare h rfl

theorem separate (s : Scope) : ∃ gap, Adds s s.separate gap ∧ (gap = [] ∨ gap = [.blank]) := by
  unfold Scope.separate
  split
  · exact ⟨[], refl s, .inl rfl⟩
  · exact ⟨[], refl s, .inl rfl⟩
  · exact ⟨[.blank], push s rfl, .inr rfl⟩

theorem beginGroup (s : Scope) : ∃ gap, Adds s s.beginGroup gap ∧ (gap = [] ∨ gap = [.blank]) := by
  unfold Scope.beginGroup
  by_cases h : 0 < s.groups
  · obtain ⟨gap, hadds, hgap⟩ := separate s
    simp only [h, if_true]
    exact ⟨gap, ⟨hadds.stmts, hadds.declared, hadds.dropped, hadds.hooks⟩, hgap⟩
  · simp only [h, if_false]
    exact ⟨[], ⟨by simp, by simp, rfl, rfl⟩, .inl rfl⟩

/-- A return is only a statement while no work is registered for it. -/
theorem ret (hhooks : s.hooks = []) (value : Option Value) : Adds s (s.ret value) [.ret value] := by
  unfold Scope.ret
  rw [hhooks]
  exact push s rfl

end Scope.Adds

end Pipewright
