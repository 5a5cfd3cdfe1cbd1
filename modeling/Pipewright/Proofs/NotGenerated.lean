import Pipewright.Pass.Build
import Pipewright.Proofs.Generations

/-!
# Outputs that are not there yet

Reading an output fails on its own account, and not because the code of the node
failed, exactly when the node has no session and either is deferred or is at work
further up.
-/

namespace Pipewright

variable {σ : Type}

/-! ## States of a pass -/

/-- A state that a pass comes to before it is finished, between two calls or inside the code of a node. -/
inductive Graph.Reaches (graph : Graph σ) : Live σ → Prop
  | new (options : BuildOptions) (outside : σ) : graph.Reaches { pass := Pass.new options outside }
  | initialStage {s : Live σ} : graph.Reaches s → s.busy = [] →
      graph.Reaches (s.update fun p => { p with stage := .initialGen })
  | endStage {s : Live σ} : graph.Reaches s → s.busy = [] →
      graph.Reaches (s.update fun p => { p with stage := .endGen, ending := [] })
  | work {s : Live σ} (w : Workspace σ) : graph.Reaches s → graph.Reaches (s.update fun p => { p with work := w })
  | enter {s : Live σ} {position : Nat} {node : Node σ} : graph.Reaches s → graph[position]? = some node →
      node.Enters s.pass s.busy → graph.Reaches ((s.note (.requested node.ref.id)).enter node.ref.id)
  | answer {s t : Live σ} {depth position : Nat} {target : Target} {result : Except GenError Unit} :
      graph.Reaches s → graph.generateWithin depth position target s = some (result, t) → graph.Reaches t

namespace Graph.Reaches

variable {graph : Graph σ} {s t : Live σ}

theorem orderly (h : graph.Reaches s) : Orderly s := by
  induction h with
  | new options outside => exact .start rfl
  | initialStage _ _ ih => exact ih.update _ rfl
  | endStage _ _ ih => exact ih.update _ rfl
  | work w _ ih => exact ih.update _ rfl
  | enter _ hnode henters ih =>
    exact (ih.request _).enter ((Pass.session?_eq_none_iff _ _).mp henters.new) henters.idle
  | answer _ hrun ih => exact ih.moves (generateWithin_moves obeys_any hrun).2

/-- Code that a reached state runs ends in one. -/
theorem runWithin {depth : Nat} {code : Code σ} {result : Except GenError Session} (h : graph.Reaches s)
    (hrun : code.runWithin (graph.generateWithin depth) s = some (result, t)) : graph.Reaches t := by
  induction code generalizing s with
  | done _ =>
    simp only [Code.runWithin, Option.some.injEq, Prod.mk.injEq] at hrun
    exact hrun.2 ▸ h
  | look k ih => exact ih s.pass h hrun
  | update w next ih => exact ih (h.work w) hrun
  | generate position target k ih =>
    cases hanswer : graph.generateWithin depth position target s with
    | none => simp [Code.runWithin, hanswer] at hrun
    | some out =>
      obtain ⟨answer, s'⟩ := out
      simp only [Code.runWithin, hanswer] at hrun
      exact ih answer (h.answer hanswer) hrun

/-- A request of a reached state leads to one, with the nodes at work as they were. -/
theorem generate (h : graph.Reaches s) (position : Nat) (target : Target) :
    ∃ t, graph.Reaches t ∧ t.busy = s.busy ∧ t.pass = (graph.generate s.busy position target s.pass).2 := by
  obtain ⟨log, hrun⟩ := generateWithin_returns (Nat.lt_succ_self graph.size) position target s
  exact ⟨_, h.answer hrun, rfl, rfl⟩

theorem generateAll (order : List Nat) : ∀ {s : Live σ}, graph.Reaches s → s.busy = [] →
    ∃ t, graph.Reaches t ∧ t.busy = [] ∧ t.pass = (graph.generateAll order s.pass).2 := by
  induction order with
  | nil =>
    intro s h hbusy
    exact ⟨s, h, hbusy, rfl⟩
  | cons position rest ih =>
    intro s h hbusy
    obtain ⟨t, ht, htbusy, hpass⟩ := h.generate position .processFrame
    rw [hbusy] at htbusy hpass
    simp only [Graph.generateAll]
    cases hanswer : graph.generate [] position .processFrame s.pass with
    | mk answer p =>
      rw [hanswer] at hpass
      cases answer with
      | error e => exact ⟨t, ht, htbusy, hpass⟩
      | ok _ =>
        subst hpass
        exact ih ht htbusy

/-- The driver of a build stays within the reached states, up to the end of its last stage. -/
theorem generateProgram (h : graph.Reaches s) (hbusy : s.busy = []) (order : List Nat) :
    ∃ t, graph.Reaches t ∧ t.busy = [] ∧ t.pass = (graph.generateProgram order s.pass).2 := by
  obtain ⟨t, ht, htbusy, hpass⟩ := (h.initialStage hbusy).generateAll order hbusy
  simp only [Live.update_pass] at hpass
  simp only [Graph.generateProgram]
  cases hfirst : graph.generateAll order { s.pass with stage := .initialGen } with
  | mk answer p =>
    rw [hfirst] at hpass
    cases answer with
    | error e => exact ⟨t, ht, htbusy, hpass⟩
    | ok _ =>
      subst hpass
      exact (ht.endStage htbusy).generateAll (t.pass.ending.map (·.position)) htbusy

end Graph.Reaches

/-! ## Reading an output -/

inductive OutputReading where
  | missing
  /-- The code of the node has failed. -/
  | passed (e : GenError)
  | found (result : Except GenError GenValue)

def OutputReading.outcome (ref : NodeRef) : OutputReading → Except GenError GenValue
  | missing => .error (.notGenerated ref)
  | passed e => .error e
  | found result => result

/-- The reading of an output when the request for its node was answered and has left a pass behind. -/
def Source.reading (source : Source) (output : String) (answer : Except GenError Unit) (p : Pass σ) : OutputReading :=
  match answer with
  | .error e => .passed e
  | .ok () =>
    match p.session? source.ref.id with
    | none => .missing
    | some session => .found (source.read session output)

theorem Code.run_generate (generate : Nat → Target → Pass σ → Except GenError Unit × Pass σ) (position : Nat)
    (target : Target) (k : Except GenError Unit → Code σ) (p : Pass σ) :
    (Code.generate position target k).run generate p =
      (k (generate position target p).1).run generate (generate position target p).2 := rfl

namespace Gen

def readOutput (source : Source) (output : String) : Gen σ OutputReading := do
  let answer ← (generate source).attempt
  return source.reading output answer (← pass)

variable (generate : Nat → Target → Pass σ → Except GenError Unit × Pass σ) (source : Source) (output : String)
  (target : Target) (p : Pass σ)

theorem run_readOutput (k : Except GenError OutputReading → Code σ) :
    (readOutput source output target k).run generate p =
      (k (.ok (source.reading output (generate source.position target p).1
        (generate source.position target p).2))).run generate (generate source.position target p).2 := rfl

theorem run_outputOf (k : Except GenError GenValue → Code σ) : (outputOf source output target k).run generate p =
    (k ((source.reading output (generate source.position target p).1
      (generate source.position target p).2).outcome source.ref)).run generate (generate source.position target p).2 := by
  refine (Code.run_generate generate source.position target _ p).trans ?_
  cases (generate source.position target p).1 with
  | error e => rfl
  | ok _ =>
    show Code.run generate (.look _) _ = _
    simp only [Code.run, Source.reading]
    cases (generate source.position target p).2.session? source.ref.id with
    | none => rfl
    | some session =>
      dsimp only
      cases source.read session output <;> rfl

end Gen

/-! ## Answers and sessions -/

namespace Graph

variable {graph : Graph σ} {position : Nat} {node : Node σ}

/-- An error is that of the code of the node itself. -/
theorem generate_error_iff (hnode : graph[position]? = some node) (running : List Nat) (target : Target) (p : Pass σ)
    (e : GenError) : (graph.generate running position target p).1 = .error e ↔ node.Enters p running ∧
      ((node.code target .done).run (graph.generate (node.ref.id :: running)) p).1 = .error e := by
  rcases node.request_cases p running with h | h | h
  · rw [generate_defers hnode h]
    exact ⟨nofun, fun he => absurd h he.1.due⟩
  · rw [generate_skips hnode h]
    refine ⟨nofun, fun he => ?_⟩
    rcases h.2 with hsession | hrunning
    · simp [he.1.new] at hsession
    · exact absurd hrunning he.1.idle
  · rw [generate_enters hnode h]
    rcases (node.code target .done).run (graph.generate (node.ref.id :: running)) p with ⟨_ | _, q⟩ <;> simp [h]

/-- No error and yet no session: there was none, and the node is not to be generated now. -/
theorem generate_missing_iff (hnode : graph[position]? = some node) (running : List Nat) (target : Target) (p : Pass σ) :
    (graph.generate running position target p).1 = .ok () ∧
        (graph.generate running position target p).2.session? node.ref.id = none ↔
      p.session? node.ref.id = none ∧ (node.Defers p ∨ node.ref.id ∈ running) := by
  rcases node.request_cases p running with h | h | h
  · simp [generate_defers hnode h, Pass.session?, h]
  · rw [generate_skips hnode h]
    constructor
    · rintro ⟨-, hnone⟩
      refine ⟨hnone, .inr ?_⟩
      rcases h.2 with hsession | hrunning
      · simp [hnone] at hsession
      · exact hrunning
    · exact fun hnone => ⟨rfl, hnone.1⟩
  · rw [generate_enters hnode h]
    have hnot : ¬ (node.Defers p ∨ node.ref.id ∈ running) := by
      rintro (hdefers | hrunning)
      · exact h.due hdefers
      · exact h.idle hrunning
    rcases (node.code target .done).run (graph.generate (node.ref.id :: running)) p with ⟨_ | session, q⟩
    · simp [hnot]
    · simp [hnot, Pass.session?]

end Graph

namespace Source

variable {source : Source} {output : String} {answer : Except GenError Unit} {p : Pass σ}

theorem reading_eq_passed_iff {e : GenError} : source.reading output answer p = .passed e ↔ answer = .error e := by
  cases answer with
  | error e' => simp [reading]
  | ok _ => cases hsession : p.session? source.ref.id <;> simp [reading, hsession]

theorem reading_eq_missing_iff : source.reading output answer p = .missing ↔
    answer = .ok () ∧ p.session? source.ref.id = none := by
  cases answer with
  | error e' => simp [reading]
  | ok _ => cases hsession : p.session? source.ref.id <;> simp [reading, hsession]

theorem reading_eq_found {result : Except GenError GenValue} (h : source.reading output answer p = .found result) :
    ∃ session, p.session? source.ref.id = some session ∧ result = source.read session output := by
  cases answer with
  | error e' => simp [reading] at h
  | ok _ =>
    cases hsession : p.session? source.ref.id with
    | none => simp [reading, hsession] at h
    | some session => exact ⟨session, rfl, by simpa [reading, hsession] using h.symm⟩

end Source

namespace Graph

/-- A call for an output fails on its own account exactly when the node has no session and is deferred or at work;
else it passes on the error of the node's code, or returns what is read from the session. -/
theorem outputOf_not_generated_iff {graph : Graph σ} {s : Live σ} (hs : graph.Reaches s) {source : Source}
    {node : Node σ} (hnode : graph[source.position]? = some node) (href : node.ref = source.ref) (target : Target)
    (output : String) : ∃ reading t, graph.Reaches t ∧ t.busy = s.busy ∧
      (∀ k, (Gen.readOutput source output target k).run (graph.generate s.busy) s.pass =
        (k (.ok reading)).run (graph.generate s.busy) t.pass) ∧
      (∀ k, (Gen.outputOf source output target k).run (graph.generate s.busy) s.pass =
        (k (reading.outcome source.ref)).run (graph.generate s.busy) t.pass) ∧
      (reading = .missing ↔ s.pass.session? source.ref.id = none ∧
        (node.atEnd = true ∧ s.pass.stage ≠ .endGen ∨ Event.Running s.events source.ref.id)) ∧
      (∀ e, reading = .passed e ↔ node.Enters s.pass s.busy ∧
        ((node.code target .done).run (graph.generate (source.ref.id :: s.busy)) s.pass).1 = .error e) ∧
      ∀ result, reading = .found result →
        ∃ session, t.pass.session? source.ref.id = some session ∧ result = source.read session output := by
  obtain ⟨t, ht, hbusy, hpass⟩ := hs.generate source.position target
  refine ⟨source.reading output (graph.generate s.busy source.position target s.pass).1 t.pass, t, ht, hbusy, ?_⟩
  rw [hpass]
  refine ⟨fun k => Gen.run_readOutput _ source output target s.pass k,
    fun k => Gen.run_outputOf _ source output target s.pass k, ?_, fun e => ?_, fun result h => ?_⟩
  · rw [Source.reading_eq_missing_iff, hs.orderly.running_iff, ← href]
    exact generate_missing_iff hnode s.busy target s.pass
  · rw [Source.reading_eq_passed_iff, generate_error_iff hnode, href]
  · exact Source.reading_eq_found h

end Graph

namespace Nodes

/-- Inside the code of the first node, its own output is missing; that of the third passes on an error that only looks
the same. -/
theorem outputOf_carousel : ∃ s : Live Unit, carousel.Reaches s ∧ Event.Running s.events 7 ∧
    (∃ t : Live Unit, ∀ k, (Gen.readOutput (carouselSource 0) "" .init k).run (carousel.generate s.busy) s.pass =
      (k (.ok .missing)).run (carousel.generate s.busy) t.pass) ∧
    ∃ t : Live Unit, ∀ k, (Gen.readOutput (carouselSource 2) "" .init k).run (carousel.generate s.busy) s.pass =
      (k (.ok (.passed (.notGenerated (carouselRef 2))))).run (carousel.generate s.busy) t.pass := by
  let new : Live Unit := { pass := Pass.new {} () }
  let s := (new.note (.requested 7)).enter 7
  have hat : ∀ i (hi : i < 3), carousel[(carouselSource i).position]? = some carousel[i] := fun i hi =>
    Array.getElem?_eq_getElem hi
  have hs : carousel.Reaches s :=
    (Graph.Reaches.new {} ()).enter (hat 0 (by decide)) ⟨fun h => Bool.noConfusion h.1, rfl, List.not_mem_nil⟩
  have hrunning : Event.Running s.events 7 := by decide
  refine ⟨s, hs, hrunning, ?_, ?_⟩
  · have href : carousel[0].ref = (carouselSource 0).ref := rfl
    obtain ⟨reading, t, -, -, hrun, -, hmissing, -⟩ :=
      Graph.outputOf_not_generated_iff hs (hat 0 (by decide)) href .init ""
    obtain rfl := hmissing.mpr ⟨rfl, .inr hrunning⟩
    exact ⟨t, hrun⟩
  · have href : carousel[2].ref = (carouselSource 2).ref := rfl
    obtain ⟨reading, t, -, -, hrun, -, -, hpassed, -⟩ :=
      Graph.outputOf_not_generated_iff hs (hat 2 (by decide)) href .init ""
    have henters : (carousel[2] : Node Unit).Enters s.pass s.busy :=
      ⟨fun h => Bool.noConfusion h.1, rfl, by decide⟩
    obtain rfl := (hpassed (.notGenerated (carouselRef 2))).mpr ⟨henters, rfl⟩
    exact ⟨t, hrun⟩

end Nodes

end Pipewright
