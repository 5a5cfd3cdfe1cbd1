import Pipewright.Proofs.Generations

/-!
# The queue of deferred nodes

In the first stage the queue is what has been requested of the deferred nodes, in
the order of the first requests (`Queued`), and no requested node is forgotten
(`Live.Accounted`). A queue is served in its order if each node is entered when
those before it have succeeded, or else for a node at work (`Event.Served`).
-/

namespace Pipewright

variable {σ : Type}

/-! ## The queue of the first stage -/

/-- In a graph with distinct ids, an id names one node. -/
theorem Graph.eq_of_id {graph : Graph σ} (hids : graph.ids.Nodup) {node other : Node σ} (hnode : node ∈ graph)
    (hother : other ∈ graph) (h : node.ref.id = other.ref.id) : node = other :=
  List.inj_on_of_nodup_map hids (Array.mem_toList_iff.mpr hnode) (Array.mem_toList_iff.mpr hother) h

/-- The queue is what has been requested of the deferred nodes, in the order of the first requests, and none of them
has been entered. -/
structure Queued (graph : Graph σ) (s : Live σ) : Prop where
  stage : s.pass.stage = .initialGen
  valid : ∀ d ∈ s.pass.ending, ∃ node, graph[d.position]? = some node ∧ node.ref.id = d.id ∧ node.atEnd = true
  requested : ∀ d ∈ s.pass.ending, .requested d.id ∈ s.events
  queued : ∀ node ∈ graph, node.atEnd = true → .requested node.ref.id ∈ s.events →
    node.ref.id ∈ s.pass.ending.map (·.id)
  order : s.pass.ending.Pairwise fun d e => s.events.idxOf (.requested d.id) < s.events.idxOf (.requested e.id)
  idle : ∀ node ∈ graph, node.atEnd = true → .entered node.ref.id ∉ s.events

namespace Queued

variable {graph : Graph σ} {s t : Live σ}

theorem start (p : Pass σ) (h : p.ending = []) : Queued graph { pass := { p with stage := .initialGen } } where
  stage := rfl
  valid := by simp [h]
  requested := by simp [h]
  queued := by simp
  order := by simp [h]
  idle := by simp

/-- What has been requested keeps its place when more happens. -/
theorem order_append (h : Queued graph s) (more : List Event) : s.pass.ending.Pairwise fun d e =>
    (s.events ++ more).idxOf (.requested d.id) < (s.events ++ more).idxOf (.requested e.id) := by
  refine h.order.imp_of_mem fun {d e} hd he hlt => ?_
  rwa [List.idxOf_append_of_mem (h.requested d hd), List.idxOf_append_of_mem (h.requested e he)]

/-- Events in which no deferred node is entered, and only queued ones are requested. -/
theorem extend (h : Queued graph s) (hstage : t.pass.stage = s.pass.stage) (hending : t.pass.ending = s.pass.ending)
    (more : List Event) (hevents : t.events = s.events ++ more)
    (hmore : ∀ node ∈ graph, node.atEnd = true →
      (.requested node.ref.id ∈ more → node.ref.id ∈ s.pass.ending.map (·.id)) ∧ .entered node.ref.id ∉ more) :
    Queued graph t where
  stage := hstage.trans h.stage
  valid := by
    rw [hending]
    exact h.valid
  requested d hd := by
    rw [hevents]
    exact List.mem_append_left _ (h.requested d (hending ▸ hd))
  queued node hnode hend hreq := by
    rw [hevents, List.mem_append] at hreq
    rw [hending]
    exact hreq.elim (h.queued node hnode hend) (hmore node hnode hend).1
  order := by
    rw [hending, hevents]
    exact h.order_append more
  idle node hnode hend := by
    rw [hevents, List.mem_append, not_or]
    exact ⟨h.idle node hnode hend, (hmore node hnode hend).2⟩

/-- The first request of a deferred node queues it. -/
theorem enqueue (h : Queued graph s) {position : Nat} {node : Node σ} (hnode : graph[position]? = some node)
    (hend : node.atEnd = true) (hnew : node.ref.id ∉ s.pass.ending.map (·.id)) :
    Queued graph ((s.note (.requested node.ref.id)).update (·.defer ⟨position, node.ref.id⟩)) := by
  have hfirst : .requested node.ref.id ∉ s.events :=
    fun hreq => hnew (h.queued node (Array.mem_of_getElem? hnode) hend hreq)
  have hending : ((s.note (.requested node.ref.id)).update (·.defer ⟨position, node.ref.id⟩)).pass.ending =
      s.pass.ending ++ [⟨position, node.ref.id⟩] := by
    rw [Live.update_pass, Live.note_pass, Pass.defer, if_neg (by simpa using hnew)]
  refine {
    stage := (s.pass.defer_stage _).trans h.stage
    valid := ?_
    requested := ?_
    queued := ?_
    order := ?_
    idle := by simpa using h.idle }
  · rw [hending]
    intro d hd
    rcases List.mem_append.mp hd with hd | hd
    · exact h.valid d hd
    · obtain rfl := List.mem_singleton.mp hd
      exact ⟨node, hnode, rfl, hend⟩
  · rw [hending]
    intro d hd
    rcases List.mem_append.mp hd with hd | hd
    · exact List.mem_append_left _ (h.requested d hd)
    · obtain rfl := List.mem_singleton.mp hd
      simp
  · rw [hending]
    intro other hother hlast hreq
    rw [List.map_append, List.mem_append]
    rcases List.mem_append.mp hreq with hreq | hreq
    · exact .inl (h.queued other hother hlast hreq)
    · exact .inr (by simpa using hreq)
  · rw [hending, List.pairwise_append]
    refine ⟨h.order_append _, List.pairwise_singleton _ _, fun d hd e he => ?_⟩
    obtain rfl := List.mem_singleton.mp he
    have hlt := List.idxOf_lt_length_of_mem (h.requested d hd)
    simpa [List.idxOf_append_of_mem (h.requested d hd), List.idxOf_append_of_notMem hfirst] using hlt

theorem defer (h : Queued graph s) {position : Nat} {node : Node σ} (hnode : graph[position]? = some node)
    (hend : node.atEnd = true) :
    Queued graph ((s.note (.requested node.ref.id)).update (·.defer ⟨position, node.ref.id⟩)) := by
  by_cases hin : node.ref.id ∈ s.pass.ending.map (·.id)
  · have hsame : s.pass.defer ⟨position, node.ref.id⟩ = s.pass := by
      rw [Pass.defer, if_pos (by simpa using hin)]
    refine h.extend (s.pass.defer_stage _) (congrArg Pass.ending hsame) [.requested node.ref.id] rfl
      fun other _ _ => ⟨fun hreq => ?_, by simp⟩
    obtain heq : other.ref.id = node.ref.id := by simpa using hreq
    exact heq ▸ hin
  · exact h.enqueue hnode hend hin

theorem move {allowed : Workspace σ → Workspace σ → Prop} {base : List Nat} (h : Queued graph s)
    (hids : graph.ids.Nodup) (hmove : graph.Move allowed base s t) : Queued graph t := by
  have hordinary : ∀ {node : Node σ}, ¬ node.Defers s.pass → node.atEnd = false := by
    intro node hdue
    simpa [Node.Defers, h.stage] using hdue
  have hother : ∀ {position : Nat} {node : Node σ}, graph[position]? = some node → node.atEnd = false →
      ∀ other ∈ graph, other.atEnd = true → other.ref.id ≠ node.ref.id := by
    intro position node hnode hnow other hmem hend heq
    obtain rfl := Graph.eq_of_id hids hmem (Array.mem_of_getElem? hnode) heq
    simp [hend] at hnow
  cases hmove with
  | work _ => exact h.extend rfl rfl [] (by simp) (by simp)
  | defer hnode hdefers => exact h.defer hnode hdefers.1
  | @skip _ node hnode hskips =>
    refine h.extend rfl rfl [.requested node.ref.id] rfl fun other hmem hend => ?_
    have hne := hother hnode (hordinary hskips.1) other hmem hend
    simp [hne]
  | @enter _ node hnode henters _ =>
    refine h.extend rfl rfl [.requested node.ref.id, .entered node.ref.id] (by simp) fun other hmem hend => ?_
    have hne := hother hnode (hordinary henters.due) other hmem hend
    simp [hne]
  | @fail id _ _ _ => exact h.extend rfl rfl [.failed id] rfl (by simp)
  | @succeed id _ session _ _ => exact h.extend rfl rfl [.succeeded id] rfl (by simp)

theorem nodup (h : Queued graph s) : (s.pass.ending.map (·.id)).Nodup := by
  refine List.pairwise_map.mpr (h.order.imp fun hlt heq => ?_)
  rw [heq] at hlt
  exact Nat.lt_irrefl _ hlt

theorem not_entered (h : Queued graph s) {d : Deferred} (hd : d ∈ s.pass.ending) : .entered d.id ∉ s.events := by
  obtain ⟨node, hnode, hid, hend⟩ := h.valid d hd
  exact hid ▸ h.idle node (Array.mem_of_getElem? hnode) hend

theorem mem_ending_iff (h : Queued graph s) {node : Node σ} (hnode : node ∈ graph) (hend : node.atEnd = true) :
    node.ref.id ∈ s.pass.ending.map (·.id) ↔ .requested node.ref.id ∈ s.events := by
  refine ⟨fun hin => ?_, h.queued node hnode hend⟩
  obtain ⟨d, hd, hid⟩ := List.mem_map.mp hin
  exact hid ▸ h.requested d hd

/-- A deferred node is entered after all that has happened. -/
theorem prefix_of_entered (h : Queued graph s) {node : Node σ} (hnode : node ∈ graph) (hend : node.atEnd = true)
    {before events : List Event} (hevents : s.events <+: events)
    (hentered : before ++ [.entered node.ref.id] <+: events) : s.events <+: before := by
  have hidle := h.idle node hnode hend
  rcases List.prefix_or_prefix_of_prefix hevents hentered with hinside | hinside
  · rcases List.prefix_concat_iff.mp hinside with heq | hbefore
    · exact absurd (heq ▸ by simp) hidle
    · exact hbefore
  · exact absurd (hinside.subset (by simp)) hidle

end Queued

theorem Pass.mem_defer (p : Pass σ) (d : Deferred) : d.id ∈ (p.defer d).ending.map (·.id) := by
  unfold defer
  split
  · rename_i h
    simpa using h
  · simp

theorem Pass.mem_defer_of_mem {p : Pass σ} {id : Nat} (h : id ∈ p.ending.map (·.id)) (d : Deferred) :
    id ∈ (p.defer d).ending.map (·.id) := by
  unfold defer
  split
  · exact h
  · simp only [List.map_append, List.mem_append]
    exact .inl h

inductive Live.Accounts (s : Live σ) (id : Nat) : Prop
  | stored : id ∈ s.pass.sessions.map Prod.fst → s.Accounts id
  | busy : id ∈ s.busy → s.Accounts id
  | queued : id ∈ s.pass.ending.map (·.id) → s.Accounts id
  | failed : .failed id ∈ s.events → s.Accounts id

def Live.Accounted (s : Live σ) : Prop := ∀ id, .requested id ∈ s.events → s.Accounts id

theorem Graph.Move.accounts {graph : Graph σ} {allowed : Workspace σ → Workspace σ → Prop} {base : List Nat}
    {s t : Live σ} (hmove : graph.Move allowed base s t) {id : Nat} (h : s.Accounts id) : t.Accounts id := by
  cases h with
  | stored h =>
    refine .stored ?_
    cases hmove with
    | defer _ _ => simpa using h
    | succeed _ _ _ => exact List.mem_cons_of_mem _ h
    | _ => exact h
  | queued h =>
    refine .queued ?_
    cases hmove with
    | defer _ _ => exact Pass.mem_defer_of_mem h _
    | _ => exact h
  | failed h =>
    refine .failed ?_
    cases hmove with
    | work _ | defer _ _ | skip _ _ | enter _ _ _ | fail _ _ | succeed _ _ _ => simp [h]
  | busy h =>
    cases hmove with
    | work _ | defer _ _ | skip _ _ => exact .busy h
    | enter _ _ _ => exact .busy (List.mem_cons_of_mem _ h)
    | @fail other rest hbusy _ =>
      by_cases heq : id = other
      · exact .failed (by simp [heq])
      · exact .busy ((List.mem_erase_of_ne heq).mpr h)
    | @succeed other rest session hbusy _ =>
      by_cases heq : id = other
      · exact .stored (by simp [heq])
      · exact .busy ((List.mem_erase_of_ne heq).mpr h)

theorem Live.Accounted.move {graph : Graph σ} {allowed : Workspace σ → Workspace σ → Prop} {base : List Nat}
    {s t : Live σ} (h : s.Accounted) (hmove : graph.Move allowed base s t) : t.Accounted := by
  intro id hreq
  by_cases hold : .requested id ∈ s.events
  · exact hmove.accounts (h id hold)
  · cases hmove with
    | work _ => exact absurd hreq hold
    | @defer position node hnode _ =>
      obtain rfl : id = node.ref.id := by simpa [hold] using hreq
      exact .queued (s.pass.mem_defer ⟨position, node.ref.id⟩)
    | @skip _ node _ hskips =>
      obtain rfl : id = node.ref.id := by simpa [hold] using hreq
      rcases hskips.2 with hsession | hbusy
      · exact .stored ((s.pass.session?_isSome_iff _).mp hsession)
      · exact .busy hbusy
    | @enter _ node _ henters _ =>
      obtain rfl : id = node.ref.id := by simpa [hold] using hreq
      exact .busy List.mem_cons_self
    | fail _ _ => simp [hold] at hreq
    | succeed _ _ _ => simp [hold] at hreq

/-! ## The order of the end stage -/

/-- Of two queued nodes, the later one is entered only when the earlier one has succeeded, or for a node at work. -/
def Event.Served (queue : List Deferred) (events : List Event) : Prop :=
  queue.Pairwise fun d e => ∀ before, before ++ [.entered e.id] <+: events →
    .succeeded d.id ∈ before ∨ ∃ id, Running before id

namespace Event.Served

variable {queue : List Deferred} {events : List Event}

theorem start (h : ∀ d ∈ queue, .entered d.id ∉ events) : Served queue events := by
  refine List.Pairwise.imp_of_mem (R := fun _ _ => True) (fun {d e} _ he _ before hahead => ?_) ?_
  · exact absurd (hahead.subset (by simp)) (h e he)
  · simp [List.pairwise_iff_getElem]

theorem note (h : Served queue events) {event : Event}
    (hnew : queue.Pairwise fun d e => event = .entered e.id → .succeeded d.id ∈ events ∨ ∃ id, Running events id) :
    Served queue (events ++ [event]) := by
  refine (h.and hnew).imp fun {d e} hpair before hahead => ?_
  rcases List.prefix_concat_iff.mp hahead with heq | hahead
  · obtain ⟨rfl, hlast⟩ := List.append_inj' heq rfl
    exact hpair.2 (by simpa using hlast.symm)
  · exact hpair.1 before hahead

theorem note_other (h : Served queue events) {event : Event} (hevent : ∀ id, event ≠ .entered id) :
    Served queue (events ++ [event]) :=
  h.note (h.imp fun _ heq => absurd heq (hevent _))

/-- What is entered while a node is at work is entered for it. -/
theorem move {graph : Graph σ} {allowed : Workspace σ → Workspace σ → Prop} {base : List Nat} {s t : Live σ}
    (h : Served queue s.events) (hmove : graph.Move allowed base s t) (hbase : base ≠ []) (hs : Orderly s) :
    Served queue t.events := by
  cases hmove with
  | work _ => exact h
  | defer _ _ => exact h.note_other (by simp)
  | skip _ _ => exact h.note_other (by simp)
  | fail _ _ => exact h.note_other (by simp)
  | succeed _ _ _ => exact h.note_other (by simp)
  | @enter _ node _ _ hsuffix =>
    obtain ⟨id, hid⟩ := List.exists_mem_of_ne_nil base hbase
    have hrunning := ((hs.request node.ref.id).running_iff id).mpr (hsuffix.subset hid)
    exact (h.note_other (by simp)).note (h.imp fun _ _ => .inr ⟨id, hrunning⟩)

end Event.Served

end Pipewright
