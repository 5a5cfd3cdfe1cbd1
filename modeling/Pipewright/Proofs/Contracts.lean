import Pipewright.Pass.Build
import Pipewright.Proofs.Live

/-!
# Contracts of node code

What holds when the code of a node has come to a result, given what holds when a
request of it has been answered without error. Contracts compose along the steps
of the code, and what the code of every node keeps, generation keeps
(`Graph.Keeps.generateProgram`).
-/

namespace Pipewright

variable {σ : Type}

/-- From `p` on the code comes to a result with `post`, or to an error. A request that is answered without error
takes the pass to where `rely` allows. -/
def Code.Ensures (rely : Target → Pass σ → Pass σ → Prop) (post : Session → Pass σ → Prop) : Code σ → Pass σ → Prop
  | done (.ok session), p => post session p
  | done (.error _), _ => True
  | look k, p => (k p).Ensures rely post p
  | update w next, p => next.Ensures rely post { p with work := w }
  | .generate _ target k, p =>
    (∀ q, rely target p q → (k (.ok ())).Ensures rely post q) ∧ ∀ e q, (k (.error e)).Ensures rely post q

theorem Code.Ensures.run {rely : Target → Pass σ → Pass σ → Prop} {post : Session → Pass σ → Prop}
    {generate : Nat → Target → Pass σ → Except GenError Unit × Pass σ}
    (hgen : ∀ position target p q, generate position target p = (.ok (), q) → rely target p q) {code : Code σ}
    {p q : Pass σ} {session : Session} (h : code.Ensures rely post p)
    (hrun : code.run generate p = (.ok session, q)) : post session q := by
  induction code generalizing p with
  | done result =>
    simp only [Code.run, Prod.mk.injEq] at hrun
    obtain ⟨rfl, rfl⟩ := hrun
    exact h
  | look k ih => exact ih p h hrun
  | update w next ih => exact ih h hrun
  | generate position target k ih =>
    cases hanswer : generate position target p with
    | mk answer r =>
      simp only [Code.run, hanswer] at hrun
      cases answer with
      | ok _ => exact ih _ (h.1 r (hgen position target p r hanswer)) hrun
      | error e => exact ih _ (h.2 e r) hrun

/-! ## Steps -/

def Gen.Ensures {α : Type} (rely : Target → Pass σ → Pass σ → Prop) (target : Target) (p : Pass σ) (x : Gen σ α)
    (post : α → Pass σ → Prop) : Prop :=
  ∀ (k : Except GenError α → Code σ) (goal : Session → Pass σ → Prop),
    (∀ a q, post a q → (k (.ok a)).Ensures rely goal q) → (∀ e q, (k (.error e)).Ensures rely goal q) →
    (x target k).Ensures rely goal p

namespace Gen

section
variable {α β : Type} {rely : Target → Pass σ → Pass σ → Prop} {target : Target} {p : Pass σ}

theorem Ensures.code {x : Gen σ Session} {post : Session → Pass σ → Prop} (h : x.Ensures rely target p post) :
    (x target .done).Ensures rely post p :=
  h .done post (fun _ _ ha => ha) fun _ _ => trivial

theorem ensures_result {outcome : Except GenError α} {post : α → Pass σ → Prop}
    (h : ∀ a, outcome = .ok a → post a p) : (result outcome : Gen σ α).Ensures rely target p post := by
  intro k goal hok herror
  cases outcome with
  | ok a => exact hok a p (h a rfl)
  | error e => exact herror e p

theorem ensures_pure {a : α} {post : α → Pass σ → Prop} (h : post a p) :
    (pure a : Gen σ α).Ensures rely target p post :=
  ensures_result fun _ ha => Except.ok.inj ha ▸ h

theorem ensures_lift {outcome : Except GenError α} {post : α → Pass σ → Prop}
    (h : ∀ a, outcome = .ok a → post a p) : (liftM outcome : Gen σ α).Ensures rely target p post :=
  ensures_result h

theorem ensures_throw (e : GenError) (post : α → Pass σ → Prop) :
    (throw e : Gen σ α).Ensures rely target p post := by
  have h : (result (.error e) : Gen σ α).Ensures rely target p post := ensures_result fun _ ha => by cases ha
  exact h

theorem ensures_bind {x : Gen σ α} {f : α → Gen σ β} {post : β → Pass σ → Prop}
    (h : x.Ensures rely target p fun a q => (f a).Ensures rely target q post) :
    (x >>= f).Ensures rely target p post := by
  intro k goal hok herror
  refine h _ goal (fun a q ha => ?_) herror
  exact ha k goal hok herror

theorem Ensures.imp {x : Gen σ α} {post post' : α → Pass σ → Prop} (h : x.Ensures rely target p post)
    (himp : ∀ a q, post a q → post' a q) : x.Ensures rely target p post' :=
  fun k goal hok herror => h k goal (fun a q ha => hok a q (himp a q ha)) herror

/-- A step that is only taken under a condition. -/
theorem ensures_when {c : Bool} {x : Gen σ Unit} {f : Unit → Gen σ β} {post : β → Pass σ → Prop}
    (inv : Pass σ → Prop) (hp : inv p) (hx : x.Ensures rely target p fun _ q => inv q)
    (hf : ∀ q, inv q → (f ()).Ensures rely target q post) :
    (if c then x >>= f else f ()).Ensures rely target p post := by
  cases c with
  | true => exact ensures_bind (hx.imp fun _ q hq => hf q hq)
  | false => exact hf p hp

theorem ensures_pass {post : Pass σ → Pass σ → Prop} (h : post p p) :
    (pass : Gen σ (Pass σ)).Ensures rely target p post :=
  fun _ _ hok _ => hok p p h

theorem ensures_language {post : Language → Pass σ → Prop} (h : post p.language p) :
    (language : Gen σ Language).Ensures rely target p post :=
  ensures_bind (ensures_pass (ensures_pure h))

theorem ensures_modify {f : Workspace σ → Workspace σ} {post : Unit → Pass σ → Prop}
    (h : post () { p with work := f p.work }) : (modify f).Ensures rely target p post :=
  fun _ _ hok _ => hok () _ h

theorem ensures_append {build : Scope → Scope} {post : Unit → Pass σ → Prop}
    (h : post () { p with work := p.work.modifyScope build target }) : (append build).Ensures rely target p post :=
  ensures_modify h

theorem ensures_inTarget {x : Gen σ α} {other : Target} {post : α → Pass σ → Prop}
    (h : x.Ensures rely other p post) : (inTarget other x).Ensures rely target p post :=
  h

theorem ensures_group {build : Scope → Scope} {post : Unit → Pass σ → Prop}
    (h : post () { p with work := p.work.modifyScope (·.group build) .classStart }) :
    (group build).Ensures rely target p post :=
  ensures_inTarget (ensures_append h)

theorem ensures_uniqueVariable {name : String} {initial : Value} {post : Variable → Pass σ → Prop}
    (h : post ⟨p.work.uniqueName name, initial⟩ { p with work := p.work.reserve (p.work.uniqueName name) }) :
    (uniqueVariable name initial).Ensures rely target p post :=
  ensures_bind (ensures_pass (ensures_bind (ensures_modify (ensures_pure h))))

theorem ensures_addFlag {flag : String} {post : Bool → Pass σ → Prop}
    (h : post (!p.work.hasFlag flag) { p with work := p.work.addFlag flag }) :
    (addFlag flag).Ensures rely target p post :=
  ensures_bind (ensures_pass (ensures_bind (ensures_modify (ensures_pure h))))

theorem ensures_requireFeature {node : NodeRef} {feature : Feature} {post : Unit → Pass σ → Prop}
    (h : p.language.supports feature = true → post () p) :
    (requireFeature node feature).Ensures rely target p post := by
  refine ensures_bind (ensures_language ?_)
  by_cases hs : p.language.supports feature
  · simp only [hs, if_true]
    exact ensures_pure (h hs)
  · simp only [hs, Bool.false_eq_true, if_false]
    exact ensures_throw _ _

theorem ensures_register {tier : Tier} {recipe : Recipe (Surroundings σ)} {post : Placeholder → Pass σ → Prop}
    (h : post (p.work.registry.register tier recipe).1
      { p with work := { p.work with registry := (p.work.registry.register tier recipe).2 } }) :
    (register tier recipe).Ensures rely target p post :=
  ensures_bind (ensures_pass (ensures_bind (ensures_modify (ensures_pure h))))

theorem ensures_generate {source : Source} {post : Unit → Pass σ → Prop} (h : ∀ q, rely target p q → post () q) :
    (generate source).Ensures rely target p post :=
  fun _ _ hok herror => ⟨fun q hq => hok () q (h q hq), herror⟩

theorem ensures_outputOf {source : Source} {output : String} {post : GenValue → Pass σ → Prop}
    (h : ∀ q session value, rely target p q → q.session? source.ref.id = some session →
      source.read session output = .ok value → post value q) :
    (outputOf source output).Ensures rely target p post := by
  refine ensures_bind (ensures_generate fun q hq => ensures_bind (ensures_pass ?_))
  cases hsession : q.session? source.ref.id with
  | none => exact ensures_throw _ _
  | some session => exact ensures_lift fun value hvalue => h q session value hq hsession hvalue

theorem ensures_forLanguage {node : NodeRef} {supported : List Language} {code : Language → Gen σ α}
    {post : α → Pass σ → Prop} (h : p.language ∈ supported → (code p.language).Ensures rely target p post) :
    (forLanguage node supported code).Ensures rely target p post := by
  refine ensures_bind (ensures_language ?_)
  by_cases hl : p.language ∈ supported
  · simp only [List.contains_iff_mem.mpr hl, if_true]
    exact h hl
  · simp only [List.contains_eq_mem, hl, decide_false, Bool.false_eq_true, if_false]
    exact ensures_throw _ _

end

end Gen

/-! ## What generation keeps -/

def Graph.relying (inv : Pass σ → Prop) (target : Target) (p q : Pass σ) : Prop :=
  target = .processFrame → inv p → inv q

structure Graph.Keeps (graph : Graph σ) (inv : Pass σ → Prop) : Prop where
  aside : ∀ (p : Pass σ) stage ending, inv p → inv { p with stage, ending }
  node : ∀ node ∈ graph, ∀ p, inv p →
    node.code.Ensures (relying inv) .processFrame p fun session q => inv (q.store node.ref.id session)

namespace Graph.Keeps

variable {graph : Graph σ} {inv : Pass σ → Prop} (h : graph.Keeps inv)
include h

theorem defer {p : Pass σ} (hp : inv p) (d : Deferred) : inv (p.defer d) := by
  unfold Pass.defer
  split
  · exact hp
  · exact h.aside p p.stage _ hp

/-- The induction is on how many nodes are not at work. -/
theorem generate (running : List Nat) {position : Nat} {target : Target} {p q : Pass σ}
    (hrun : graph.generate running position target p = (.ok (), q)) : relying inv target p q := by
  induction hd : remaining graph.ids running using Nat.strongRecOn generalizing running position target p q with
  | _ depth ih =>
    rintro rfl hp
    cases hnode : graph[position]? with
    | none =>
      rw [generate_none hnode] at hrun
      cases hrun
      exact hp
    | some node =>
      rcases node.request_cases p running with hcase | hcase | hcase
      · rw [generate_defers hnode hcase] at hrun
        cases hrun
        exact h.defer hp _
      · rw [generate_skips hnode hcase] at hrun
        cases hrun
        exact hp
      · rw [generate_enters hnode hcase] at hrun
        have hnext : remaining graph.ids (node.ref.id :: running) < depth :=
          graph.remaining_lt hnode hcase.idle (hd ▸ Nat.lt_succ_self _)
        have hgen : ∀ position target p q, graph.generate (node.ref.id :: running) position target p = (.ok (), q) →
            relying inv target p q :=
          fun position target p q hrun => ih _ hnext _ hrun rfl
        cases hcode : (node.code .processFrame .done).run (graph.generate (node.ref.id :: running)) p with
        | mk result r =>
          cases result with
          | error e => simp [hcode] at hrun
          | ok session =>
            simp only [hcode, Prod.mk.injEq, true_and] at hrun
            exact hrun ▸ (h.node node (Array.mem_of_getElem? hnode) p hp).code.run hgen hcode

theorem generateAll {order : List Nat} {p q : Pass σ} (hp : inv p) (hrun : graph.generateAll order p = (.ok (), q)) :
    inv q := by
  induction order generalizing p with
  | nil =>
    cases hrun
    exact hp
  | cons position rest ih =>
    rw [Graph.generateAll] at hrun
    cases hfirst : graph.generate [] position .processFrame p with
    | mk answer r =>
      cases answer with
      | error e => simp [hfirst] at hrun
      | ok _ =>
        simp only [hfirst] at hrun
        exact ih (h.generate [] hfirst rfl hp) hrun

theorem generateProgram {order : List Nat} {p q : Pass σ} (hp : inv p)
    (hrun : graph.generateProgram order p = (.ok (), q)) : inv q := by
  unfold Graph.generateProgram at hrun
  cases hfirst : graph.generateAll order { p with stage := .initialGen } with
  | mk answer r =>
    cases answer with
    | error e => simp [hfirst] at hrun
    | ok _ =>
      simp only [hfirst] at hrun
      exact h.generateAll (h.aside r .endGen [] (h.generateAll (h.aside p .initialGen p.ending hp) hfirst)) hrun

end Graph.Keeps

end Pipewright
