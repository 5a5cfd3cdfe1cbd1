import Pipewright.Pass.Build
import Pipewright.Proofs.Queue
import Pipewright.Proofs.Steady

/-!
# The two stages of generation

The first stage requests the listed nodes and queues the deferred ones that come
up; the end stage takes the queue and requests each node in it. In a steady graph
nothing is lost on the way: each node that was asked for has a session in the end,
and the end stage serves the queue in its order (`Graph.stages`).
-/

namespace Pipewright

variable {σ : Type}

/-! ## Stages of a given depth -/

namespace Graph

variable (graph : Graph σ)

def generateAllWithin (depth : Nat) : List Nat → Live σ → Option (Except GenError Unit × Live σ)
  | [], s => some (.ok (), s)
  | position :: rest, s =>
    match graph.generateWithin depth position .processFrame s with
    | none => none
    | some (.error e, s) => some (.error e, s)
    | some (.ok (), s) => generateAllWithin depth rest s

def firstStage (depth : Nat) (order : List Nat) (p : Pass σ) : Option (Except GenError Unit × Live σ) :=
  graph.generateAllWithin depth order { pass := { p with stage := .initialGen } }

def endStage (depth : Nat) (s : Live σ) : Option (Except GenError Unit × Live σ) :=
  graph.generateAllWithin depth (s.pass.ending.map (·.position))
    (s.update fun p => { p with stage := .endGen, ending := [] })

variable {graph} {depth : Nat}

theorem generateAllWithin_ends (hdepth : graph.size < depth) (order : List Nat) (s : Live σ) (hs : s.busy = []) :
    s.Ends (graph.generateAllWithin depth order s) (graph.generateAll order s.pass) := by
  induction order generalizing s with
  | nil => exact ⟨[], by simp [generateAllWithin, generateAll]⟩
  | cons position rest ih =>
    obtain ⟨log, hrun⟩ := generateWithin_returns hdepth position .processFrame s
    rw [hs] at hrun
    rw [generateAllWithin, generateAll, hrun]
    cases hgen : graph.generate [] position .processFrame s.pass with
    | mk answer p =>
      cases answer with
      | error e => exact ⟨log, by simp [hs]⟩
      | ok _ => exact (ih ⟨p, [], s.events ++ log⟩ rfl).of_append hs.symm rfl

/-- Generation of a program that succeeds is a first stage and an end stage that do. -/
theorem generateProgram_stages (hdepth : graph.size < depth) {order : List Nat} {p : Pass σ}
    (hok : (graph.generateProgram order p).1 = .ok ()) :
    ∃ s t, graph.firstStage depth order p = some (.ok (), s) ∧
      s.pass = (graph.generateAll order { p with stage := .initialGen }).2 ∧
      graph.endStage depth s = some (.ok (), t) ∧ t.pass = (graph.generateProgram order p).2 := by
  obtain ⟨log, hfirst⟩ := generateAllWithin_ends hdepth order { pass := { p with stage := .initialGen } } rfl
  unfold generateProgram at hok ⊢
  cases hall : graph.generateAll order { p with stage := .initialGen } with
  | mk answer q =>
    rw [hall] at hok hfirst
    cases answer with
    | error e => cases hok
    | ok _ =>
      have hend := generateAllWithin_ends hdepth (q.ending.map (·.position))
        { pass := { q with stage := .endGen, ending := [] }, events := log } rfl
      obtain ⟨more, hend⟩ := hend
      simp only at hok
      rw [hok] at hend
      exact ⟨_, _, hfirst, rfl, hend, rfl⟩

end Graph
/-! ## Runs of the stages -/

namespace Graph

variable {graph : Graph σ} {allowed : Workspace σ → Workspace σ → Prop} {base : List Nat} {depth position : Nat}
  {node : Node σ} {target : Target} {s t : Live σ} {answer : Except GenError Unit}

theorem Moves.stage (h : graph.Moves allowed base s t) : t.pass.stage = s.pass.stage := by
  refine h.preserve (fun t => t.pass.stage = s.pass.stage) (fun u v hmove hu => ?_) rfl
  cases hmove with
  | defer _ _ => simpa using hu
  | _ => exact hu

theorem Moves.events (h : graph.Moves allowed base s t) : s.events <+: t.events := by
  refine h.preserve (fun t => s.events <+: t.events) (fun u v hmove hu => hu.trans ?_) (List.prefix_refl _)
  cases hmove with
  | work _ => exact List.prefix_refl _
  | enter _ _ _ => exact (List.prefix_append _ _).trans (List.prefix_append _ _)
  | _ => exact List.prefix_append _ _

theorem Moves.appends (h : graph.Moves Workspace.Appends base s t) : s.pass.work.Appends t.pass.work := by
  refine h.preserve (fun t => s.pass.work.Appends t.pass.work) (fun u v hmove hu => ?_) (.refl _)
  cases hmove with
  | work hw => exact hu.trans hw
  | defer _ _ => simpa using hu
  | _ => exact hu

theorem generateWithin_requests (hsteady : graph.Steady) (hnode : graph[position]? = some node)
    (hrun : graph.generateWithin depth position target s = some (answer, t)) : .requested node.ref.id ∈ t.events := by
  cases depth with
  | zero => simp [generateWithin] at hrun
  | succ depth =>
    rcases node.request_cases s.pass s.busy with h | h | h
    · simp only [generateWithin_defers hnode h, Option.some.injEq, Prod.mk.injEq] at hrun
      obtain ⟨-, rfl⟩ := hrun
      simp
    · simp only [generateWithin_skips hnode h, Option.some.injEq, Prod.mk.injEq] at hrun
      obtain ⟨-, rfl⟩ := hrun
      simp
    · obtain ⟨result, u, hu, hmoves, hfinish⟩ :=
        generateWithin_inside hsteady.obeys (generateWithin_moves hsteady.obeys) hnode h hrun
      obtain rfl : (u.finish node.ref.id result).2 = t := congrArg Prod.snd hfinish
      have hlast : graph.Move Workspace.Appends s.busy u (u.finish node.ref.id result).2 :=
        finish_move result hu (List.suffix_refl _)
      exact (hmoves.events.trans (Moves.single hlast).events).subset (by simp)

/-- A due node that is not at work has a session when its request has been answered without error. -/
theorem generateWithin_stores (hnode : graph[position]? = some node) (hdue : ¬ node.Defers s.pass)
    (hidle : node.ref.id ∉ s.busy) (hrun : graph.generateWithin depth position target s = some (.ok (), t)) :
    node.ref.id ∈ t.pass.sessions.map Prod.fst := by
  cases depth with
  | zero => simp [generateWithin] at hrun
  | succ depth =>
    rcases node.request_cases s.pass s.busy with h | h | h
    · exact absurd h hdue
    · simp only [generateWithin_skips hnode h, Option.some.injEq, Prod.mk.injEq, true_and] at hrun
      subst hrun
      exact (s.pass.session?_isSome_iff _).mp (h.2.resolve_right hidle)
    · obtain ⟨result, u, -, hfinish⟩ := generateWithin_finish hnode h hrun
      cases result with
      | error e => simp [Live.finish] at hfinish
      | ok session =>
        obtain rfl := congrArg Prod.snd hfinish
        simp [Live.finish]

theorem generateAllWithin_cons {rest : List Nat}
    (hrun : graph.generateAllWithin depth (position :: rest) s = some (.ok (), t)) :
    ∃ u, graph.generateWithin depth position .processFrame s = some (.ok (), u) ∧
      graph.generateAllWithin depth rest u = some (.ok (), t) := by
  rw [generateAllWithin] at hrun
  cases hfirst : graph.generateWithin depth position .processFrame s with
  | none => simp [hfirst] at hrun
  | some out =>
    obtain ⟨first, u⟩ := out
    cases first with
    | error e => simp [hfirst] at hrun
    | ok _ => exact ⟨u, rfl, by simpa [hfirst] using hrun⟩

theorem generateAllWithin_moves (hobeys : graph.Obeys allowed) {order : List Nat} (hs : s.busy = [])
    (hrun : graph.generateAllWithin depth order s = some (.ok (), t)) : t.busy = [] ∧ graph.Moves allowed [] s t := by
  induction order generalizing s with
  | nil =>
    simp only [generateAllWithin, Option.some.injEq, Prod.mk.injEq, true_and] at hrun
    exact hrun ▸ ⟨hs, .refl⟩
  | cons position rest ih =>
    obtain ⟨u, hfirst, hrest⟩ := generateAllWithin_cons hrun
    obtain ⟨hu, hmoves⟩ := generateWithin_moves hobeys hfirst
    rw [hs] at hu hmoves
    obtain ⟨ht, hmore⟩ := ih hu hrest
    exact ⟨ht, hmoves.trans hmore⟩

theorem generateAllWithin_clean (hsteady : graph.Steady) {order : List Nat}
    (hrun : graph.generateAllWithin depth order s = some (.ok (), t)) (hs : s.Clean) : t.Clean := by
  induction order generalizing s with
  | nil =>
    simp only [generateAllWithin, Option.some.injEq, Prod.mk.injEq, true_and] at hrun
    exact hrun ▸ hs
  | cons position rest ih =>
    obtain ⟨u, hfirst, hrest⟩ := generateAllWithin_cons hrun
    exact ih hrest (generateWithin_clean hsteady hfirst hs)

theorem generateAllWithin_requests (hsteady : graph.Steady) {order : List Nat} (hs : s.busy = [])
    (hrun : graph.generateAllWithin depth order s = some (.ok (), t)) :
    ∀ position ∈ order, ∀ node, graph[position]? = some node → .requested node.ref.id ∈ t.events := by
  induction order generalizing s with
  | nil => simp
  | cons first rest ih =>
    obtain ⟨u, hfirst, hrest⟩ := generateAllWithin_cons hrun
    have hu := (generateWithin_moves hsteady.obeys hfirst).1.trans hs
    intro position hposition node hnode
    rcases List.mem_cons.mp hposition with rfl | hposition
    · have hmoves := (generateAllWithin_moves hsteady.obeys hu hrest).2
      exact hmoves.events.subset (generateWithin_requests hsteady hnode hfirst)
    · exact ih hu hrest position hposition node hnode

end Graph

/-! ## Serving the queue -/

theorem pairwise_served {served rest : List Deferred} {d : Deferred}
    (hids : ((served ++ d :: rest).map (·.id)).Nodup) :
    (served ++ d :: rest).Pairwise fun a b => b.id = d.id → a ∈ served := by
  rw [List.map_append, List.map_cons] at hids
  have hrest : ∀ b ∈ rest, b.id ≠ d.id := by
    intro b hb heq
    exact (List.nodup_cons.mp (List.nodup_append.mp hids).2.1).1 (heq ▸ List.mem_map_of_mem hb)
  rw [List.pairwise_append]
  refine ⟨List.pairwise_of_forall_mem_list fun a ha b _ _ => ha, ?_, fun a ha b _ _ => ha⟩
  refine List.pairwise_cons.mpr ⟨fun b hb heq => absurd heq (hrest b hb), ?_⟩
  exact List.pairwise_of_forall_mem_list fun a _ b hb heq => absurd heq (hrest b hb)

section
variable {graph : Graph σ} {depth : Nat} {s t : Live σ} {answer : Except GenError Unit}
  {rest : List Deferred} (hsteady : graph.Steady)
include hsteady

/-- The next of the queued nodes is requested when those before it have succeeded. -/
theorem Event.Served.request {served : List Deferred} {d : Deferred} {node : Node σ} {target : Target}
    (hids : ((served ++ d :: rest).map (·.id)).Nodup) (hnode : graph[d.position]? = some node)
    (hid : node.ref.id = d.id) (hs : Orderly s) (hserved : ∀ e ∈ served, .succeeded e.id ∈ s.events)
    (hrun : graph.generateWithin depth d.position target s = some (answer, t))
    (h : Served (served ++ d :: rest) s.events) : Served (served ++ d :: rest) t.events := by
  cases depth with
  | zero => simp [Graph.generateWithin] at hrun
  | succ depth =>
    rcases node.request_cases s.pass s.busy with hnext | hnext | hnext
    · simp only [Graph.generateWithin_defers hnode hnext, Option.some.injEq, Prod.mk.injEq] at hrun
      obtain ⟨-, rfl⟩ := hrun
      exact h.note_other (by simp)
    · simp only [Graph.generateWithin_skips hnode hnext, Option.some.injEq, Prod.mk.injEq] at hrun
      obtain ⟨-, rfl⟩ := hrun
      exact h.note_other (by simp)
    · obtain ⟨result, u, hu, hmoves, hfinish⟩ :=
        Graph.generateWithin_inside hsteady.obeys (Graph.generateWithin_moves hsteady.obeys) hnode hnext hrun
      obtain rfl : (u.finish node.ref.id result).2 = t := congrArg Prod.snd hfinish
      have henter : graph.Move Workspace.Appends s.busy s ((s.note (.requested node.ref.id)).enter node.ref.id) :=
        .enter hnode hnext (List.suffix_refl _)
      have hentered : Served (served ++ d :: rest) ((s.note (.requested node.ref.id)).enter node.ref.id).events := by
        refine (h.note_other (by simp)).note ((pairwise_served hids).imp fun {a b} hab heq => .inl ?_)
        have hb : b.id = d.id := by
          rw [← hid]
          simpa using heq.symm
        exact List.mem_append_left _ (hserved a (hab hb))
      have hinner := hmoves.preserve (fun v => Orderly v ∧ Served (served ++ d :: rest) v.events)
        (fun v w hmove hv => ⟨hv.1.move hmove, hv.2.move hmove (by simp) hv.1⟩) ⟨hs.move henter, hentered⟩
      cases result with
      | error e => exact hinner.2.note_other (by simp)
      | ok session => exact hinner.2.note_other (by simp)

/-- The whole queue is served. -/
theorem Graph.generateAllWithin_serves (served : List Deferred) (hids : ((served ++ rest).map (·.id)).Nodup)
    (hvalid : ∀ d ∈ rest, ∃ node, graph[d.position]? = some node ∧ node.ref.id = d.id) (hs : Orderly s)
    (hstage : s.pass.stage = .endGen) (hbusy : s.busy = [])
    (hserved : ∀ e ∈ served, .succeeded e.id ∈ s.events) (h : Event.Served (served ++ rest) s.events)
    (hrun : graph.generateAllWithin depth (rest.map (·.position)) s = some (.ok (), t)) :
    Orderly t ∧ Event.Served (served ++ rest) t.events ∧ ∀ e ∈ served ++ rest, .succeeded e.id ∈ t.events := by
  induction rest generalizing served s with
  | nil =>
    simp only [List.map_nil, generateAllWithin, Option.some.injEq, Prod.mk.injEq, true_and] at hrun
    subst hrun
    exact ⟨hs, h, by simpa using hserved⟩
  | cons d rest ih =>
    obtain ⟨node, hnode, hid⟩ := hvalid d List.mem_cons_self
    obtain ⟨u, hfirst, hrest⟩ := generateAllWithin_cons hrun
    obtain ⟨hu, hmoves⟩ := generateWithin_moves hsteady.obeys hfirst
    have horderly := hs.moves hmoves
    have hsucceeded : .succeeded d.id ∈ u.events := by
      rw [horderly.succeeded_iff, ← hid]
      exact generateWithin_stores hnode (fun hd => hd.2 hstage) (by simp [hbusy]) hfirst
    have hnext : ∀ e ∈ served ++ [d], .succeeded e.id ∈ u.events := by
      intro e he
      rcases List.mem_append.mp he with he | he
      · exact hmoves.events.subset (hserved e he)
      · rwa [List.mem_singleton.mp he]
    have hsplit : served ++ d :: rest = served ++ [d] ++ rest := by simp
    have hgrown := h.request hsteady hids hnode hid hs hserved hfirst
    rw [hsplit] at hids hgrown ⊢
    exact ih (served ++ [d]) hids (fun e he => hvalid e (List.mem_cons_of_mem _ he)) horderly
      (hmoves.stage.trans hstage) (hu.trans hbusy) hnext hgrown hrest

end

/-! ## Both stages -/

theorem Event.count_succeeded (events : List Event) (id : Nat) :
    events.count (.succeeded id) = (events.filterMap succeeded?).count id := by
  induction events with
  | nil => rfl
  | cons e events ih =>
    cases e with
    | succeeded other => simp [List.count_cons, ih]
    | _ => simp [List.filterMap_cons, ih]

theorem Orderly.entered_once {s : Live σ} (h : Orderly s) (hclean : s.Clean) (hbusy : s.busy = []) {id : Nat}
    (hid : .succeeded id ∈ s.events) : s.events.count (.entered id) = 1 := by
  have hfailed := List.count_eq_zero.mpr (hclean id)
  have hkeys := List.count_eq_one_of_mem h.keys_nodup ((h.succeeded_iff id).mp hid)
  rw [h.stored, List.count_reverse, ← Event.count_succeeded] at hkeys
  rw [h.balance, hfailed, hkeys, hbusy, List.count_nil]

/-- What two stages of generation have come to, with `s` between them and `t` at the end. -/
structure Graph.Staged (graph : Graph σ) (order : List Nat) (s t : Live σ) : Prop where
  events : s.events <+: t.events
  listed : ∀ position ∈ order, ∀ node, graph[position]? = some node →
    (t.pass.sessions.map Prod.fst).count node.ref.id = 1
  requested : ∀ id, .requested id ∈ s.events → (t.pass.session? id).isSome
  /-- Deferred nodes wait for all that are listed. -/
  waits : ∀ node ∈ graph, node.atEnd = true → ∀ before, before ++ [.entered node.ref.id] <+: t.events →
    ∀ position ∈ order, ∀ other, graph[position]? = some other → .requested other.ref.id ∈ before
  /-- The queue is what the first stage has requested of the deferred nodes. -/
  queue : ∀ node ∈ graph, node.atEnd = true →
    (node.ref.id ∈ s.pass.ending.map (·.id) ↔ .requested node.ref.id ∈ s.events)
  /-- It is in the order of the first requests. -/
  order : s.pass.ending.Pairwise fun d e => s.events.idxOf (.requested d.id) < s.events.idxOf (.requested e.id)
  served : Event.Served s.pass.ending t.events
  once : ∀ d ∈ s.pass.ending, t.events.count (.entered d.id) = 1 ∧ .succeeded d.id ∈ t.events
  appends : s.pass.work.Appends t.pass.work

namespace Graph

variable {graph : Graph σ} {depth : Nat} {s t : Live σ}

theorem firstStage_queued (hids : graph.ids.Nodup) (hsteady : graph.Steady) {order : List Nat} {p : Pass σ}
    (hsessions : p.sessions = []) (hending : p.ending = [])
    (hrun : graph.firstStage depth order p = some (.ok (), s)) :
    s.busy = [] ∧ Orderly s ∧ s.Clean ∧ s.Accounted ∧ Queued graph s := by
  obtain ⟨hbusy, hmoves⟩ := generateAllWithin_moves hsteady.obeys rfl hrun
  have horderly : Orderly { pass := { p with stage := .initialGen } } := .start hsessions
  refine ⟨hbusy, horderly.moves hmoves, generateAllWithin_clean hsteady hrun fun id => by simp, ?_, ?_⟩
  · exact hmoves.preserve Live.Accounted (fun _ _ hmove h => h.move hmove) fun id h => by simp at h
  · exact hmoves.preserve (Queued graph) (fun _ _ hmove h => h.move hids hmove) (.start p hending)

/-- Generation in two stages. The nodes have distinct ids, only append and pass errors on, and generation succeeds. -/
theorem stages (hdepth : graph.size < depth) (hids : graph.ids.Nodup) (hsteady : graph.Steady) (order : List Nat)
    (options : BuildOptions) (outside : σ)
    (hok : (graph.generateProgram order (Pass.new options outside)).1 = .ok ()) :
    ∃ s t, graph.firstStage depth order (Pass.new options outside) = some (.ok (), s) ∧
      s.pass = (graph.generateAll order { Pass.new options outside with stage := .initialGen }).2 ∧
      graph.endStage depth s = some (.ok (), t) ∧
      t.pass = (graph.generateProgram order (Pass.new options outside)).2 ∧ graph.Staged order s t := by
  obtain ⟨s, t, hfirst, hmiddle, hend, hpass⟩ := generateProgram_stages hdepth hok
  obtain ⟨hbusy, horderly, hclean, haccounted, hqueued⟩ := firstStage_queued hids hsteady rfl rfl hfirst
  let between := s.update fun p => { p with stage := .endGen, ending := [] }
  have hstart : Orderly between := horderly.update _ rfl
  have hstartBusy : between.busy = [] := hbusy
  have hvalid : ∀ d ∈ s.pass.ending, ∃ node, graph[d.position]? = some node ∧ node.ref.id = d.id := by
    intro d hd
    obtain ⟨node, hnode, hid, -⟩ := hqueued.valid d hd
    exact ⟨node, hnode, hid⟩
  have hrun : graph.generateAllWithin depth (s.pass.ending.map (·.position)) between = some (.ok (), t) := hend
  obtain ⟨ht, hserved, hsucceeded⟩ := generateAllWithin_serves hsteady [] hqueued.nodup hvalid hstart rfl
    hbusy (by simp) (.start fun _ hd => hqueued.not_entered hd) hrun
  obtain ⟨hbusy', hmoves⟩ := generateAllWithin_moves hsteady.obeys hstartBusy hrun
  have hevents : s.events <+: t.events := hmoves.events
  have hrequests := generateAllWithin_requests hsteady rfl hfirst
  -- nothing is at work after the first stage, nothing has failed, and what was queued has succeeded since
  have hstored : ∀ id, .requested id ∈ s.events → id ∈ t.pass.sessions.map Prod.fst := by
    intro id hid
    cases haccounted id hid with
    | stored h => exact (hmoves.sessions.map Prod.fst).subset h
    | busy h => simp [hbusy] at h
    | queued h =>
      obtain ⟨d, hd, rfl⟩ := List.mem_map.mp h
      exact (ht.succeeded_iff d.id).mp (hsucceeded d hd)
    | failed h => exact absurd h (hclean id)
  have hclean' := generateAllWithin_clean hsteady hrun hclean
  refine ⟨s, t, hfirst, hmiddle, hend, hpass, {
    events := hevents
    listed := fun position hposition node hnode =>
      List.count_eq_one_of_mem ht.keys_nodup (hstored _ (hrequests position hposition node hnode))
    requested := fun id hid => (t.pass.session?_isSome_iff id).mpr (hstored id hid)
    waits := fun node hnode hlate _ hentered position hposition other hother =>
      (hqueued.prefix_of_entered hnode hlate hevents hentered).subset (hrequests position hposition other hother)
    queue := fun node hnode hlate => hqueued.mem_ending_iff hnode hlate
    order := hqueued.order
    served := hserved
    once := fun d hd => ⟨ht.entered_once hclean' hbusy' (hsucceeded d hd), hsucceeded d hd⟩
    appends := hmoves.appends }⟩

end Graph

namespace Nodes

def relayRef (position : Nat) : NodeRef := ⟨position + 7, "Relay"⟩

def relaySource (position : Nat) : Source := .ofMat position (relayRef position)

/-- The first and the third node ask for each other and for the second; the second reads the fourth. The second and
the fourth are deferred. -/
def relay : Graph Unit :=
  #[{ ref := relayRef 0
      code := do
        Gen.append (·.comment "first")
        Gen.generate (relaySource 1)
        Gen.generate (relaySource 2)
        return .nothing },
    { ref := relayRef 1
      atEnd := true
      code := do
        let _ ← Gen.outputOf (relaySource 3) "output"
        Gen.append (·.comment "second")
        return .nothing },
    { ref := relayRef 2
      code := do
        Gen.generate (relaySource 0)
        Gen.generate (relaySource 1)
        Gen.append (·.comment "third")
        return .nothing },
    { ref := relayRef 3
      atEnd := true
      code := do
        Gen.append (·.comment "fourth")
        return .mat (.mask (.raw "mask")) }]

theorem relay_steady : relay.Steady := by
  refine .of_code fun node hnode => ?_
  have happend : ∀ text, (Gen.append (·.comment text) : Gen Unit Unit).Steady :=
    fun text => .append fun s => List.prefix_append _ _
  simp only [relay, List.mem_toArray, List.mem_cons, List.not_mem_nil, or_false] at hnode
  rcases hnode with rfl | rfl | rfl | rfl
  · exact (happend _).bind fun _ => (Gen.Steady.generate _).bind fun _ => (Gen.Steady.generate _).bind fun _ => .pure _
  · exact (Gen.Steady.outputOf _ _).bind fun _ => (happend _).bind fun _ => .pure _
  · exact (Gen.Steady.generate _).bind fun _ => (Gen.Steady.generate _).bind fun _ => (happend _).bind fun _ => .pure _
  · exact (happend _).bind fun _ => .pure _

theorem stages_relay : relay.size < 5 ∧ relay.ids.Nodup ∧ relay.Steady ∧
    (relay.generateProgram [0, 3] (Pass.new {} ())).1 = .ok () ∧
    ∃ s t, relay.firstStage 5 [0, 3] (Pass.new {} ()) = some (.ok (), s) ∧
      s.pass = (relay.generateAll [0, 3] { Pass.new {} () with stage := .initialGen }).2 ∧
      relay.endStage 5 s = some (.ok (), t) ∧ t.pass = (relay.generateProgram [0, 3] (Pass.new {} ())).2 ∧
      relay.Staged [0, 3] s t := by
  have hdepth : relay.size < 5 := by decide
  have hids : relay.ids.Nodup := by decide
  have hok : (relay.generateProgram [0, 3] (Pass.new {} ())).1 = .ok () := by decide +kernel
  exact ⟨hdepth, hids, relay_steady, hok, Graph.stages hdepth hids relay_steady [0, 3] {} () hok⟩

example : ((relay.firstStage 5 [0, 3] (Pass.new {} ())).bind fun (_, s) => relay.endStage 5 s).map (·.2.events) =
    some [.requested 7, .entered 7, .requested 8, .requested 9, .entered 9, .requested 7, .requested 8, .succeeded 9,
      .succeeded 7, .requested 10, .requested 8, .entered 8, .requested 10, .entered 10, .succeeded 10, .succeeded 8,
      .requested 10] := by
  decide +kernel

end Nodes

end Pipewright
