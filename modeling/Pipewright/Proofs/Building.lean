import Mathlib.Data.List.Chain
import Pipewright.Proofs.Places
import Pipewright.Proofs.Scoping

/-!
# Scopes under construction

What the builder keeps to, whatever it is called with: the declared names are those
of the statements, each once; separators neither come first nor double; statements
are only appended; a body is one level deeper than what is around it. One call keeps
to this (`Scope.Sound.grow`), hence so does every sequence of calls
(`Calls.run_grows`), where bodies and the work before a return are such sequences
themselves. What a hook does is therefore a condition on the hook (`Hook.Lawful`)
that the scope carries along until a return runs it.
-/

namespace Pipewright

/-! ## Sequences of calls -/

namespace Enclosure

def isBuilt : Enclosure → Bool
  | nested _ => false
  | _ => true

def isAround : Enclosure → Bool
  | method _ | cls _ | nested _ => true
  | _ => false

end Enclosure

/-- Calls of the builder on one scope, one after the other. The work before a return does not itself return. -/
inductive Calls : (returns : Bool) → Type
  | done {r : Bool} : Calls r
  | instanceVariable {r : Bool} (visibility : Visibility) (var : Variable) (label : Option String)
      (modifiers : Modifiers) (next : Calls r) : Calls r
  | localVariable {r : Bool} (var : Variable) (isFinal : Bool) (next : Calls r) : Calls r
  | act {r : Bool} (action : Action) (next : Calls r) : Calls r
  | separate {r : Bool} (next : Calls r) : Calls r
  | group {r : Bool} (inner next : Calls r) : Calls r
  | build {r : Bool} (around : Enclosure) (h : around.isBuilt = true) (body : Calls true) (next : Calls r) : Calls r
  /-- A body or a nested scope that was built apart, on a level of its own. -/
  | splice {r : Bool} (around : Enclosure) (h : around.isAround = true) (tabs : Nat) (body : Calls true)
      (next : Calls r) : Calls r
  | beforeReturning {r : Bool} (hook : Calls false) (next : Calls r) : Calls r
  | ret (value : Option Value) (next : Calls true) : Calls true

def Draft.toScope (draft : Draft) : Scope := { toDraft := draft }

def Hook.ofChange (change : Scope → Scope) : Hook := .mk fun draft =>
  ((change draft.toScope).toDraft, (change draft.toScope).hooks)

namespace Calls

def run {r : Bool} : Calls r → Scope → Scope
  | done, s => s
  | instanceVariable visibility var label modifiers next, s =>
    next.run (s.instanceVariable visibility var label modifiers)
  | localVariable var isFinal next, s => next.run (s.localVariable var isFinal)
  | act action next, s => next.run (s.act action)
  | separate next, s => next.run s.separate
  | group inner next, s => next.run (s.group inner.run)
  | build around _ body next, s => next.run (s.enclose body.run around.stmt)
  | splice around _ tabs body next, s => next.run (s.push (around.stmt (body.run (.new tabs)).toBlock))
  | beforeReturning hook next, s => next.run (s.beforeReturning (.ofChange hook.run))
  | ret value next, s => next.run (s.ret value)

def make (calls : Calls true) (tabs : Nat) : Scope := calls.run (.new tabs)

end Calls

namespace Scope

def behind (s : Scope) (front : List Hook) : Scope := { s with hooks := front ++ s.hooks }

theorem declare_behind (s : Scope) (front : List Hook) (name : String) (stmt : Stmt) :
    (s.behind front).declare name stmt = (s.declare name stmt).behind front := by
  unfold declare
  have hsame : (s.behind front).declares name = s.declares name := rfl
  rw [hsame]
  split <;> rfl

theorem separate_behind (s : Scope) (front : List Hook) : (s.behind front).separate = s.separate.behind front := by
  unfold separate
  have hsame : (s.behind front).stmts = s.stmts := rfl
  rw [hsame]
  split <;> rfl

theorem beginGroup_behind (s : Scope) (front : List Hook) :
    (s.behind front).beginGroup = s.beginGroup.behind front := by
  unfold beginGroup
  have hsame : (s.behind front).groups = s.groups := rfl
  rw [hsame, separate_behind]
  split <;> rfl

end Scope

theorem Calls.run_behind : ∀ (calls : Calls false) (s : Scope) (front : List Hook),
    calls.run (s.behind front) = (calls.run s).behind front
  | done, s, front => rfl
  | instanceVariable _ var _ _ next, s, front | localVariable var _ next, s, front => by
    have hdeclare := s.declare_behind front var.name
    rw [run, run, ← next.run_behind]
    exact congrArg next.run (hdeclare _)
  | act _ next, s, front | build _ _ _ next, s, front | splice _ _ _ _ next, s, front => by
    rw [run, run, ← next.run_behind]
    rfl
  | separate next, s, front => by rw [run, run, s.separate_behind, next.run_behind]
  | group inner next, s, front => by
    rw [run, run, Scope.group, Scope.group, s.beginGroup_behind, inner.run_behind, next.run_behind]
  | beforeReturning hook next, s, front => by
    rw [run, run, ← next.run_behind]
    exact congrArg next.run (by simp [Scope.beforeReturning, Scope.behind])

/-- Calls that do not return can be left to a hook: it does to the scope what they do. -/
theorem Calls.runHook_ofChange (calls : Calls false) (s : Scope) : s.runHook (.ofChange calls.run) = calls.run s := by
  have hself : s.toDraft.toScope.behind s.hooks = s := by simp [Scope.behind, Draft.toScope]
  have h := calls.run_behind s.toDraft.toScope s.hooks
  rw [hself] at h
  rw [h]
  rfl

/-! ## Sound scopes -/

def Stmt.isBuilt : Stmt → Bool
  | .ifThen .. | .whileLoop .. | .forLoop .. | .foreach .. | .constructor .. => true
  | _ => false

def Block.Made (b : Block) : Prop := ∃ calls : Calls true, b = (calls.make b.tabs).toBlock

namespace Scope

structure Sound (s : Scope) : Prop where
  declares_iff : ∀ name, s.declares name = true ↔ ∃ stmt ∈ s.stmts, ∃ var, stmt.declared? = some var ∧ var.name = name
  once : (declaredNames s.stmts).Nodup
  first : ∀ stmt ∈ s.stmts.head?, stmt.isBlank = false
  spaced : s.stmts.IsChain fun a b => a.isBlank = false ∨ b.isBlank = false
  bodies : ∀ stmt ∈ s.stmts, ∀ b, stmt.body? = some b → b.Made ∧ (stmt.isBuilt = true → b.tabs = s.tabs + 1)

structure Gains (s t : Scope) (stmt : Stmt) : Prop where
  tabs : t.tabs = s.tabs
  stmts : t.stmts = s.stmts ++ [stmt]
  declared : t.declared = s.declared ++ stmt.names
  hooks : t.hooks = s.hooks

theorem mem_declaredNames_iff {stmts : List Stmt} {name : String} :
    name ∈ declaredNames stmts ↔ ∃ stmt ∈ stmts, ∃ var, stmt.declared? = some var ∧ var.name = name := by
  simp [declaredNames, Stmt.names]

namespace Sound

theorem new (tabs : Nat) : (new tabs).Sound where
  declares_iff name := by simp [declares, Scope.new]
  once := List.nodup_nil
  first := by simp [Scope.new]
  spaced := .nil
  bodies := by simp [Scope.new]

variable {s t : Scope} {stmt : Stmt}

theorem mem_declared_iff (h : s.Sound) (name : String) : name ∈ s.declared ↔ name ∈ declaredNames s.stmts := by
  rw [mem_declaredNames_iff, ← h.declares_iff, declares, List.contains_iff_mem]

/-- A statement is appended: it declares nothing that is declared, is no separator that would come first or double one,
and its body is made by calls. -/
theorem grow (h : s.Sound) (hgains : s.Gains t stmt) (hnew : ∀ name ∈ stmt.names, name ∉ s.declared)
    (hblank : stmt.isBlank = true → ∃ last ∈ s.stmts.getLast?, last.isBlank = false)
    (hbody : ∀ b, stmt.body? = some b → b.Made ∧ (stmt.isBuilt = true → b.tabs = s.tabs + 1)) : t.Sound where
  declares_iff name := by
    rw [← mem_declaredNames_iff, declares, List.contains_iff_mem, hgains.declared, hgains.stmts, declaredNames_append,
      List.mem_append, List.mem_append, h.mem_declared_iff]
    simp
  once := by
    rw [hgains.stmts, declaredNames_append]
    have hone : (declaredNames [stmt]).Nodup := by cases hs : stmt.declared? <;> simp [Stmt.names, hs]
    refine List.nodup_append.mpr ⟨h.once, hone, fun a ha b hb hab => ?_⟩
    have hb : b ∈ stmt.names := by simpa using hb
    exact hnew b hb ((h.mem_declared_iff b).mpr (hab ▸ ha))
  first := by
    rw [hgains.stmts]
    intro first hfirst
    cases hs : s.stmts with
    | cons head rest =>
      rw [hs] at hfirst
      exact h.first first (by rwa [hs])
    | nil =>
      obtain rfl : stmt = first := by simpa [hs] using hfirst
      by_contra hisBlank
      obtain ⟨last, hlast, -⟩ := hblank (by simpa using hisBlank)
      simp [hs] at hlast
  spaced := by
    rw [hgains.stmts, List.isChain_append]
    refine ⟨h.spaced, .singleton _, fun last hlast next hnext => ?_⟩
    obtain rfl : stmt = next := by simpa using hnext
    by_cases hisBlank : stmt.isBlank = true
    · obtain ⟨last', hlast', hshows⟩ := hblank hisBlank
      obtain rfl : last = last' := Option.mem_unique hlast hlast'
      exact .inl hshows
    · exact .inr (by simpa using hisBlank)
  bodies := by
    rw [hgains.stmts, hgains.tabs]
    intro other hother
    rcases List.mem_append.mp hother with hother | hother
    · exact h.bodies other hother
    · rw [List.mem_singleton.mp hother]
      exact hbody

end Sound

/-! ## One call -/

theorem gains_push (s : Scope) {stmt : Stmt} (h : stmt.declared? = none) : s.Gains (s.push stmt) stmt :=
  ⟨rfl, rfl, by simp [push, Stmt.names, h], rfl⟩

theorem gains_enclose (s : Scope) (build : Scope → Scope) {stmt : Block → Stmt}
    (h : ∀ b, (stmt b).declared? = none) :
    s.Gains (s.enclose build stmt) (stmt (build s.child).toBlock) :=
  ⟨rfl, rfl, by simp [enclose, push, Stmt.names, h], rfl⟩

theorem gains_declare {s : Scope} {name : String} {stmt : Stmt} (h : s.declares name = false)
    (hname : stmt.names = [name]) : s.Gains (s.declare name stmt) stmt := by
  unfold declare
  rw [h]
  exact ⟨rfl, rfl, by simp [push, hname], rfl⟩

end Scope

inductive Hook.Lawful : Hook → Prop
  | intro {run : Draft → Draft × List Hook}
      (keeps : ∀ s : Scope, s.Sound → (s.runHook (.mk run)).Sound ∧ s.Continues (s.runHook (.mk run)))
      (adds : ∀ s : Scope, s.Sound → ∀ h ∈ (run s.toDraft).2, Lawful h) : Lawful (.mk run)

structure Scope.Ready (s : Scope) : Prop where
  sound : s.Sound
  hooks : ∀ h ∈ s.hooks, h.Lawful

structure Scope.Grows (s t : Scope) : Prop where
  continues : s.Continues t
  ready : t.Ready

namespace Scope.Grows

variable {s t u : Scope}

theorem trans (h : s.Grows t) (h' : t.Grows u) : s.Grows u := ⟨h.continues.trans h'.continues, h'.ready⟩

theorem refl (h : s.Ready) : s.Grows s := ⟨.refl s, h⟩

theorem gains (h : s.Ready) {stmt : Stmt} (hgains : s.Gains t stmt) (hsound : t.Sound) : s.Grows t where
  continues := ⟨hgains.tabs, hgains.stmts ▸ List.prefix_append _ _⟩
  ready := ⟨hsound, hgains.hooks ▸ h.hooks⟩

/-- A statement that is neither a declaration nor a separator. -/
theorem append (h : s.Ready) {stmt : Stmt} (hgains : s.Gains t stmt) (hdeclared : stmt.declared? = none)
    (hblank : stmt.isBlank = false)
    (hbody : ∀ b, stmt.body? = some b → b.Made ∧ (stmt.isBuilt = true → b.tabs = s.tabs + 1)) : s.Grows t :=
  gains h hgains <| h.sound.grow hgains (by simp [Stmt.names, hdeclared]) (by simp [hblank]) hbody

theorem push (h : s.Ready) {stmt : Stmt} (hdeclared : stmt.declared? = none) (hblank : stmt.isBlank = false)
    (hbody : stmt.body? = none) : s.Grows (s.push stmt) :=
  append h (s.gains_push hdeclared) hdeclared hblank (by simp [hbody])

/-- What is counted or warned about plays no part. -/
theorem same (h : s.Grows t) (htabs : u.tabs = t.tabs) (hstmts : u.stmts = t.stmts)
    (hdeclared : u.declared = t.declared) (hhooks : ∀ hook ∈ u.hooks, hook ∈ t.hooks ∨ hook.Lawful) : s.Grows u where
  continues := ⟨htabs.trans h.continues.tabs, hstmts ▸ h.continues.stmts⟩
  ready := by
    obtain ⟨⟨hdeclares, honce, hfirst, hspaced, hbodies⟩, hooks⟩ := h.ready
    unfold Scope.declares at hdeclares
    rw [← hdeclared, ← hstmts] at hdeclares
    rw [← hstmts] at honce hfirst hspaced hbodies
    rw [← htabs] at hbodies
    exact ⟨⟨hdeclares, honce, hfirst, hspaced, hbodies⟩, fun hook hhook => (hhooks hook hhook).elim (hooks hook) id⟩

/-- A second declaration of a name only leaves a warning behind. -/
theorem declare (h : s.Ready) {var : Variable} {stmt : Stmt} (hdeclared : stmt.declared? = some var)
    (hblank : stmt.isBlank = false) (hbody : stmt.body? = none) : s.Grows (s.declare var.name stmt) := by
  have hnames : stmt.names = [var.name] := by simp [Stmt.names, hdeclared]
  cases hdeclares : s.declares var.name with
  | true =>
    unfold Scope.declare
    rw [if_pos hdeclares]
    exact (refl h).same rfl rfl rfl fun _ => .inl
  | false =>
    have hnew : ∀ name ∈ stmt.names, name ∉ s.declared := by simpa [hnames, Scope.declares] using hdeclares
    have hgains := Scope.gains_declare hdeclares hnames
    exact gains h hgains (h.sound.grow hgains hnew (by simp [hblank]) (by simp [hbody]))

theorem separate (h : s.Ready) : s.Grows s.separate := by
  unfold Scope.separate
  split
  case h_1 => exact refl h
  case h_2 => exact refl h
  case h_3 last hshows hlast =>
    have hlastShows : last.isBlank = false := by
      cases last <;> first | rfl | exact absurd rfl hshows
    have hgains : s.Gains (s.push .blank) .blank := s.gains_push rfl
    exact gains h hgains <| h.sound.grow hgains (by simp [Stmt.names, Stmt.declared?])
      (fun _ => ⟨last, hlast, hlastShows⟩) (by simp [Stmt.body?])

theorem beginGroup (h : s.Ready) : s.Grows s.beginGroup := by
  unfold Scope.beginGroup
  split
  · exact (separate h).same rfl rfl rfl fun _ => .inl
  · exact (refl h).same rfl rfl rfl fun _ => .inl

theorem beforeReturning (h : s.Ready) {hook : Hook} (hhook : hook.Lawful) : s.Grows (s.beforeReturning hook) := by
  refine (refl h).same rfl rfl rfl fun other hother => ?_
  rcases List.mem_append.mp hother with hother | hother
  · exact .inl hother
  · exact .inr (List.mem_singleton.mp hother ▸ hhook)

theorem runHook (h : s.Ready) {hook : Hook} (hhook : hook.Lawful) : s.Grows (s.runHook hook) := by
  cases hhook with
  | @intro run keeps adds =>
    obtain ⟨hsound, hcontinues⟩ := keeps s h.sound
    refine ⟨hcontinues, hsound, fun other hother => ?_⟩
    rcases List.mem_append.mp hother with hother | hother
    · exact h.hooks other hother
    · exact adds s h.sound other hother

theorem runHooks {hooks : List Hook} (hlawful : ∀ hook ∈ hooks, hook.Lawful) (h : s.Ready) :
    s.Grows (hooks.foldl Scope.runHook s) := by
  induction hooks generalizing s with
  | nil => exact refl h
  | cons hook hooks ih =>
    obtain ⟨hhook, hlawful⟩ := List.forall_mem_cons.mp hlawful
    have hfirst := runHook h hhook
    exact hfirst.trans (ih hlawful hfirst.ready)

theorem ret (h : s.Ready) (value : Option Value) : s.Grows (s.ret value) := by
  have hhooks := runHooks h.hooks h
  exact hhooks.trans (push hhooks.ready rfl rfl rfl)

end Scope.Grows

namespace Enclosure

theorem declared?_stmt (around : Enclosure) (b : Block) : (around.stmt b).declared? = none := by
  cases around <;> rfl

theorem of_body? (around : Enclosure) {body : Block} {tabs : Nat} (hmade : body.Made)
    (htabs : (around.stmt body).isBuilt = true → body.tabs = tabs) :
    ∀ b, (around.stmt body).body? = some b → b.Made ∧ ((around.stmt body).isBuilt = true → b.tabs = tabs) := by
  intro b hb
  have hsame : (around.stmt body).body? = some body := by cases around <;> rfl
  obtain rfl : body = b := Option.some.inj (hsame.symm.trans hb)
  exact ⟨hmade, htabs⟩

theorem not_isBuilt_stmt {around : Enclosure} (h : around.isAround = true) (b : Block) :
    (around.stmt b).isBuilt ≠ true := by
  cases around <;> simp_all [isAround, stmt, Stmt.isBuilt]

end Enclosure

/-! ## Sequences of calls -/

theorem Scope.ready_new (tabs : Nat) : (Scope.new tabs).Ready := ⟨.new tabs, by simp [Scope.new]⟩

/-- Where calls only append to a scope and keep it sound, a hook may make them. -/
theorem Hook.lawful_ofChange {calls : Calls false} (h : ∀ {s : Scope}, s.Ready → s.Grows (calls.run s)) :
    (Hook.ofChange calls.run).Lawful := by
  -- what hooks a scope has does not matter to calls that do not return
  have hbare : ∀ s : Scope, s.Sound → s.toDraft.toScope.Grows (calls.run s.toDraft.toScope) := fun s hs =>
    h ⟨⟨hs.declares_iff, hs.once, hs.first, hs.spaced, hs.bodies⟩, by simp [Draft.toScope]⟩
  refine .intro (fun s hs => ?_) fun s hs => (hbare s hs).ready.hooks
  obtain ⟨⟨htabs, hstmts⟩, hsound, -⟩ := hbare s hs
  exact ⟨⟨hsound.declares_iff, hsound.once, hsound.first, hsound.spaced, hsound.bodies⟩, htabs, hstmts⟩

namespace Calls

theorem made_toBlock {calls : Calls true} {tabs : Nat} (h : (Scope.new tabs).Grows (calls.make tabs)) :
    (calls.make tabs).toBlock.Made ∧ (calls.make tabs).toBlock.tabs = tabs := by
  have htabs : (calls.make tabs).toBlock.tabs = tabs := h.continues.tabs
  exact ⟨⟨calls, by rw [htabs]⟩, htabs⟩

/-- Whatever is called, a scope is only appended to and stays sound. -/
theorem run_grows {r : Bool} (calls : Calls r) {s : Scope} (h : s.Ready) : s.Grows (calls.run s) := by
  induction calls generalizing s with
  | done => exact .refl h
  | instanceVariable visibility var label modifiers next ih =>
    have hfirst : s.Grows (s.declare var.name (.instanceVariable visibility var label modifiers)) :=
      Scope.Grows.declare h rfl rfl rfl
    exact hfirst.trans (ih hfirst.ready)
  | localVariable var isFinal next ih =>
    have hfirst : s.Grows (s.declare var.name (.localVariable var isFinal)) := Scope.Grows.declare h rfl rfl rfl
    exact hfirst.trans (ih hfirst.ready)
  | act action next ih =>
    have hfirst : s.Grows (s.push (.act action)) := Scope.Grows.push h rfl rfl rfl
    exact hfirst.trans (ih hfirst.ready)
  | separate next ih =>
    have hfirst := Scope.Grows.separate h
    exact hfirst.trans (ih hfirst.ready)
  | group inner next ihInner ih =>
    have hbegin := Scope.Grows.beginGroup h
    have hfirst := hbegin.trans (ihInner hbegin.ready)
    exact hfirst.trans (ih hfirst.ready)
  | build around hbuilt body next ihBody ih =>
    obtain ⟨hmade, htabs⟩ := made_toBlock (ihBody (Scope.ready_new (s.tabs + 1)))
    have hfirst := Scope.Grows.append h (s.gains_enclose body.run around.declared?_stmt) (around.declared?_stmt _)
      (around.isBlank_stmt _) (around.of_body? hmade fun _ => htabs)
    exact hfirst.trans (ih hfirst.ready)
  | splice around haround tabs body next ihBody ih =>
    obtain ⟨hmade, -⟩ := made_toBlock (ihBody (Scope.ready_new tabs))
    have helsewhere : ∀ b, (around.stmt b).isBuilt ≠ true := Enclosure.not_isBuilt_stmt haround
    have hfirst := Scope.Grows.append h (s.gains_push (around.declared?_stmt _)) (around.declared?_stmt _)
      (around.isBlank_stmt _) (around.of_body? hmade fun hbuilt => absurd hbuilt (helsewhere _))
    exact hfirst.trans (ih hfirst.ready)
  | beforeReturning hook next ihHook ih =>
    have hfirst := Scope.Grows.beforeReturning h (Hook.lawful_ofChange ihHook)
    exact hfirst.trans (ih hfirst.ready)
  | ret value next ih =>
    have hfirst := Scope.Grows.ret h value
    exact hfirst.trans (ih hfirst.ready)

end Calls

/-! ## Bodies at any depth -/

inductive Block.Within : Block → Block → Prop
  | self (b : Block) : Within b b
  | deeper {b inner outer : Block} {stmt : Stmt} (hstmt : stmt ∈ outer.stmts) (hbody : stmt.body? = some inner) :
      Within b inner → Within b outer

namespace Block

variable {b outer : Block}

theorem Made.within (h : outer.Made) (hb : b.Within outer) : b.Made := by
  induction hb with
  | self => exact h
  | @deeper inner outer stmt hstmt hbody _ ih =>
    obtain ⟨calls, hcalls⟩ := h
    rw [hcalls] at hstmt
    have hsound := (calls.run_grows (Scope.ready_new outer.tabs)).ready.sound
    exact ih (hsound.bodies stmt hstmt inner hbody).1

end Block

/-- What the builder keeps to: the scope is sound, later calls append to it, the calls of a hook do to it what they
do elsewhere, each body in it at any depth is a sound scope, and a body that is built by a function is one level
deeper. -/
theorem Calls.make_sound {r : Bool} (first : Calls true) (next : Calls r) (tabs : Nat) :
    (first.make tabs).Sound ∧ (first.make tabs).tabs = tabs ∧
      (first.make tabs).stmts <+: (next.run (first.make tabs)).stmts ∧
      (∀ hook : Calls false, (first.make tabs).runHook (.ofChange hook.run) = hook.run (first.make tabs)) ∧
      (∀ b : Block, b.Within (first.make tabs).toBlock →
        ∃ calls : Calls true, b = (calls.make b.tabs).toBlock ∧ (calls.make b.tabs).Sound) ∧
      ∀ (around : Enclosure) (h : around.isBuilt = true) (body : Calls true), ∃ b : Block, b.tabs = tabs + 1 ∧
        b = (body.make (tabs + 1)).toBlock ∧
        ((build around h body (done : Calls true)).run (first.make tabs)).stmts =
          (first.make tabs).stmts ++ [around.stmt b] := by
  have hfirst := first.run_grows (Scope.ready_new tabs)
  have htabs : (first.make tabs).tabs = tabs := hfirst.continues.tabs
  refine ⟨hfirst.ready.sound, htabs, (next.run_grows hfirst.ready).continues.stmts,
    fun hook => hook.runHook_ofChange _, fun b hb => ?_, fun around h body => ?_⟩
  · obtain ⟨calls, hcalls⟩ := Block.Made.within ⟨first, by rw [(made_toBlock hfirst).2]⟩ hb
    exact ⟨calls, hcalls, (calls.run_grows (Scope.ready_new b.tabs)).ready.sound⟩
  · obtain ⟨-, hbody⟩ := made_toBlock (body.run_grows (Scope.ready_new (tabs + 1)))
    have hchild : body.make (tabs + 1) = body.run (first.make tabs).child := by rw [Scope.child, htabs]; rfl
    exact ⟨_, hbody, rfl, by rw [hchild]; rfl⟩

/-- A loop that counts before it returns, in a method: the name in its body is another one, the second declaration of
the same name is dropped, and so is the separator that would come first. -/
def Calls.counting : Calls true :=
  let loop := build (.whileLoop (.raw "waiting()")) rfl (localVariable (.typed .empty "n") false done) done
  let hook := group (act (.call "count" []) done) done
  separate <| localVariable (.typed .empty "n") false <| localVariable (.typed .empty "n") true <|
    beforeReturning hook <| group loop <| group (ret none done) done

theorem Calls.make_sound_counting : Enclosure.isBuilt (.whileLoop (.raw "waiting()")) = true ∧
    (counting.make 2).Sound ∧ (counting.make 2).stmts.length = 5 ∧ declaredNames (counting.make 2).stmts = ["n"] ∧
    ∃ b : Block, b.Within (counting.make 2).toBlock ∧ b.tabs = 3 ∧
      ∃ calls : Calls true, b = (calls.make 3).toBlock ∧ (calls.make 3).Sound := by
  obtain ⟨hsound, -, -, -, hwithin, -⟩ := counting.make_sound (done : Calls true) 2
  have hinside : Block.Within (.mk 3 [.localVariable (.typed .empty "n") false]) (counting.make 2).toBlock :=
    .deeper (List.mem_cons_of_mem _ (List.mem_cons_self ..)) rfl (.self _)
  exact ⟨rfl, hsound, rfl, rfl, _, hinside, rfl, hwithin _ hinside⟩

end Pipewright
