import Mathlib.Data.List.Nodup
import Pipewright.Proofs.Live

/-!
# Generations

The nodes at work, the sessions and the events of a live pass go together, and
every move keeps them so. Hence every request returns and gives the set of nodes
at work back as it was, and no node is entered while it is at work or after it
has succeeded (`Graph.generations`).
-/

namespace Pipewright

variable {σ : Type}

/-! ## What moves preserve -/

theorem Event.once_nil : Once [] := by
  intro before id h
  simp at h

theorem Event.Once.note {events : List Event} (h : Once events) {e : Event}
    (he : ∀ id, e = .entered id → ¬ Running events id ∧ .succeeded id ∉ events) : Once (events ++ [e]) := by
  intro before id hprefix
  rcases List.prefix_concat_iff.mp hprefix with heq | hprefix
  · obtain ⟨rfl, hlast⟩ := List.append_inj' heq rfl
    exact he id (by simpa using hlast.symm)
  · exact h before id hprefix

structure Orderly (s : Live σ) : Prop where
  once : Event.Once s.events
  balance : ∀ id, s.events.count (.entered id) =
    s.events.count (.failed id) + s.events.count (.succeeded id) + s.busy.count id
  stored : s.pass.sessions.map Prod.fst = (s.events.filterMap Event.succeeded?).reverse
  keys_nodup : (s.pass.sessions.map Prod.fst).Nodup
  busy_nodup : s.busy.Nodup
  busy_new : ∀ id ∈ s.busy, id ∉ s.pass.sessions.map Prod.fst

namespace Orderly

variable {s t : Live σ}

theorem start {p : Pass σ} (h : p.sessions = []) : Orderly { pass := p } where
  once := Event.once_nil
  balance := by simp
  stored := by simp [h]
  keys_nodup := by simp [h]
  busy_nodup := List.nodup_nil
  busy_new := by simp

theorem running_iff (h : Orderly s) (id : Nat) : Event.Running s.events id ↔ id ∈ s.busy := by
  have := h.balance id
  rw [← List.count_pos_iff]
  unfold Event.Running
  omega

theorem succeeded_iff (h : Orderly s) (id : Nat) :
    .succeeded id ∈ s.events ↔ id ∈ s.pass.sessions.map Prod.fst := by
  rw [h.stored, List.mem_reverse, List.mem_filterMap]
  constructor
  · exact fun hmem => ⟨_, hmem, rfl⟩
  · rintro ⟨e, hmem, he⟩
    cases e with
    | succeeded id' =>
      simp only [Event.succeeded?, Option.some.injEq] at he
      exact he ▸ hmem
    | _ => simp at he

theorem update (h : Orderly s) (change : Pass σ → Pass σ) (hchange : (change s.pass).sessions = s.pass.sessions) :
    Orderly (s.update change) where
  once := h.once
  balance := h.balance
  stored := by simpa [hchange] using h.stored
  keys_nodup := by simpa [hchange] using h.keys_nodup
  busy_nodup := h.busy_nodup
  busy_new := by simpa [hchange] using h.busy_new

theorem request (h : Orderly s) (id : Nat) : Orderly (s.note (.requested id)) where
  once := h.once.note (by simp)
  balance := by simpa [List.count_append] using h.balance
  stored := by simpa [List.filterMap_cons] using h.stored
  keys_nodup := h.keys_nodup
  busy_nodup := h.busy_nodup
  busy_new := h.busy_new

theorem enter (h : Orderly s) {id : Nat} (hnew : id ∉ s.pass.sessions.map Prod.fst) (hidle : id ∉ s.busy) :
    Orderly (s.enter id) where
  once := h.once.note fun id' hid => by
    obtain rfl : id = id' := by simpa using hid
    exact ⟨mt (h.running_iff id).mp hidle, mt (h.succeeded_iff id).mp hnew⟩
  balance id' := by
    have := h.balance id'
    by_cases hid : id = id'
    · simp [List.count_append, hid]
      omega
    · simpa [List.count_append, hid] using this
  stored := by simpa [List.filterMap_cons] using h.stored
  keys_nodup := h.keys_nodup
  busy_nodup := List.nodup_cons.mpr ⟨hidle, h.busy_nodup⟩
  busy_new := by
    intro id' hid
    rcases List.mem_cons.mp hid with rfl | hid
    · exact hnew
    · exact h.busy_new id' hid

section
variable {id : Nat} {rest : List Nat} (hbusy : s.busy = id :: rest)
include hbusy

theorem fail (h : Orderly s) : Orderly (s.leave id (.failed id)) where
  once := h.once.note (by simp)
  balance id' := by
    have := h.balance id'
    by_cases hid : id = id'
    · simp [List.count_append, hbusy, hid] at this ⊢
      omega
    · simpa [List.count_append, hbusy, hid] using this
  stored := by simpa [List.filterMap_cons] using h.stored
  keys_nodup := h.keys_nodup
  busy_nodup := h.busy_nodup.erase id
  busy_new id' hid := h.busy_new id' (List.mem_of_mem_erase hid)

theorem succeed (h : Orderly s) (session : Session) :
    Orderly ((s.leave id (.succeeded id)).update (·.store id session)) where
  once := h.once.note (by simp)
  balance id' := by
    have := h.balance id'
    by_cases hid : id = id'
    · simp [List.count_append, hbusy, hid] at this ⊢
      omega
    · simpa [List.count_append, hbusy, hid] using this
  stored := by simpa [List.filterMap_cons] using h.stored
  keys_nodup := by
    have hnew := h.busy_new id (by simp [hbusy])
    simpa using ⟨by simpa using hnew, h.keys_nodup⟩
  busy_nodup := h.busy_nodup.erase id
  busy_new id' hid := by
    have hnd : (id :: rest).Nodup := hbusy ▸ h.busy_nodup
    have hrest : id' ∈ rest := by simpa [hbusy] using hid
    have hne : id' ≠ id := by
      rintro rfl
      exact (List.nodup_cons.mp hnd).1 hrest
    have hold := h.busy_new id' (by simp [hbusy, hrest])
    simpa [hne] using hold

end

theorem move {graph : Graph σ} {allowed : Workspace σ → Workspace σ → Prop} {base : List Nat} (h : Orderly s)
    (hmove : graph.Move allowed base s t) : Orderly t := by
  cases hmove with
  | work _ => exact h.update _ rfl
  | defer hnode hdefers => exact (h.request _).update _ (Pass.defer_sessions _ _)
  | skip hnode hskips => exact h.request _
  | enter hnode henters hbase => exact (h.request _).enter ((s.pass.session?_eq_none_iff _).mp henters.new) henters.idle
  | fail hbusy hbase => exact h.fail hbusy
  | succeed session hbusy hbase => exact h.succeed hbusy session

theorem moves {graph : Graph σ} {allowed : Workspace σ → Workspace σ → Prop} {base : List Nat} (h : Orderly s)
    (hmoves : graph.Moves allowed base s t) : Orderly t :=
  hmoves.preserve Orderly (fun _ _ hmove h => h.move hmove) h

end Orderly

theorem Graph.Moves.sessions {graph : Graph σ} {allowed : Workspace σ → Workspace σ → Prop} {base : List Nat}
    {s t : Live σ} (h : graph.Moves allowed base s t) : s.pass.sessions <:+ t.pass.sessions := by
  refine h.preserve (fun t => s.pass.sessions <:+ t.pass.sessions) (fun u v hmove hu => ?_) (List.suffix_refl _)
  cases hmove with
  | defer hnode hdefers => simpa using hu
  | succeed session hbusy hbase => exact hu.trans (List.suffix_cons _ _)
  | _ => exact hu

/-- With distinct keys, the first entry under a key is the only one. -/
theorem lookup_of_suffix {old new : Sessions} (h : old <:+ new) (hnew : (new.map Prod.fst).Nodup) {id : Nat}
    {session : Session} (hold : old.lookup id = some session) : new.lookup id = some session := by
  obtain ⟨more, rfl⟩ := h
  have hid : id ∈ old.map Prod.fst := by
    by_contra hid
    have hnone : old.lookup id = none := by
      rw [List.lookup_eq_none_iff]
      intro e he
      have hne : id ≠ e.1 := fun heq => hid (heq ▸ List.mem_map_of_mem he)
      simpa using hne
    simp [hnone] at hold
  rw [List.map_append, List.nodup_append] at hnew
  have hmore : more.lookup id = none := by
    rw [List.lookup_eq_none_iff]
    intro e he
    simpa using (hnew.2.2 e.1 (List.mem_map_of_mem he) id hid).symm
  simp [List.lookup_append, hmore, hold]

/-! ## Sequences of calls -/

/-- A request from outside, and what is done to the pass before it: anything but to the sessions. -/
structure Call (σ : Type) where
  position : Nat
  target : Target
  prepare : Pass σ → Pass σ := id
  sessions_prepare : ∀ p, (prepare p).sessions = p.sessions := by intro p; rfl

namespace Graph

variable (graph : Graph σ) {depth : Nat}

def serve (depth : Nat) : List (Call σ) → Live σ → Option (List (Except GenError Unit) × Live σ)
  | [], s => some ([], s)
  | c :: rest, s =>
    match graph.generateWithin depth c.position c.target (s.update c.prepare) with
    | none => none
    | some (answer, s) => (serve depth rest s).map fun (answers, s) => (answer :: answers, s)

variable {graph}

theorem generateWithin_returns (hdepth : graph.size < depth) (position : Nat) (target : Target) (s : Live σ) :
    s.Ends (graph.generateWithin depth position target s) (graph.generate s.busy position target s.pass) :=
  graph.generateWithin_ends depth position target s (Nat.lt_of_le_of_lt (graph.remaining_le_size s.busy) hdepth)

theorem obeys_any : graph.Obeys fun _ _ => True :=
  fun node _ target p => (node.code target .done).obeys_any p

theorem generateWithin_orderly (hdepth : graph.size < depth) (position : Nat) (target : Target) {s : Live σ}
    (hs : Orderly s) : ∃ answer t, graph.generateWithin depth position target s = some (answer, t) ∧
      t.busy = s.busy ∧ Orderly t ∧
      ∀ id session, s.pass.session? id = some session → t.pass.session? id = some session := by
  obtain ⟨log, hrun⟩ := generateWithin_returns hdepth position target s
  obtain ⟨hbusy, hmoves⟩ := generateWithin_moves obeys_any hrun
  have ht := hs.moves hmoves
  exact ⟨_, _, hrun, hbusy, ht, fun id session h => lookup_of_suffix hmoves.sessions ht.keys_nodup h⟩

theorem serve_orderly (hdepth : graph.size < depth) (calls : List (Call σ)) {s : Live σ} (hs : Orderly s) :
    ∃ answers t, graph.serve depth calls s = some (answers, t) ∧ answers.length = calls.length ∧
      t.busy = s.busy ∧ Orderly t := by
  induction calls generalizing s with
  | nil => exact ⟨[], s, rfl, rfl, rfl, hs⟩
  | cons c rest ih =>
    have hprepared := hs.update c.prepare (c.sessions_prepare s.pass)
    obtain ⟨answer, t, hcall, hbusy, ht, -⟩ := generateWithin_orderly hdepth c.position c.target hprepared
    obtain ⟨answers, u, hserve, hlength, hbusy', hu⟩ := ih ht
    refine ⟨answer :: answers, u, ?_, ?_, hbusy'.trans hbusy, hu⟩
    · simp [serve, hcall, hserve]
    · simp [hlength]

/-- At any depth above the number of nodes, a request returns in every state, as generation does, and leaves the set
of nodes at work as it found it, error or not. After any calls on a new pass no node has been entered while it was at
work or after it had succeeded, each success has stored one session under an id of its own, and whatever is called
next leaves all of these sessions as they are. -/
theorem generations (hdepth : graph.size < depth) (options : BuildOptions) (outside : σ) (calls : List (Call σ)) :
    (∀ position target (s : Live σ), ∃ log, graph.generateWithin depth position target s =
      some ((graph.generate s.busy position target s.pass).1,
        ⟨(graph.generate s.busy position target s.pass).2, s.busy, s.events ++ log⟩)) ∧
    ∃ answers t, graph.serve depth calls { pass := Pass.new options outside } = some (answers, t) ∧
      answers.length = calls.length ∧ t.busy = [] ∧ Event.Once t.events ∧
      t.pass.sessions.map Prod.fst = (t.events.filterMap Event.succeeded?).reverse ∧
      (t.pass.sessions.map Prod.fst).Nodup ∧
      ∀ position target, ∃ answer u, graph.generateWithin depth position target t = some (answer, u) ∧
        ∀ id session, t.pass.session? id = some session → u.pass.session? id = some session := by
  refine ⟨generateWithin_returns hdepth, ?_⟩
  have hnew : Orderly { pass := Pass.new options outside } := .start rfl
  obtain ⟨answers, t, hserve, hlength, hbusy, ht⟩ := serve_orderly hdepth calls hnew
  refine ⟨answers, t, hserve, hlength, hbusy, ht.once, ht.stored, ht.keys_nodup, fun position target => ?_⟩
  obtain ⟨answer, u, hcall, -, -, hkept⟩ := generateWithin_orderly hdepth position target ht
  exact ⟨answer, u, hcall, hkept⟩

end Graph

namespace Nodes

def carouselRef (position : Nat) : NodeRef := ⟨position + 7, "Carousel"⟩

def carouselSource (position : Nat) : Source := .ofNothing position (carouselRef position)

/-- The first node asks for itself and for the second, the second for the first and the third, and the third fails.
The first does not mind errors. -/
def carousel : Graph Unit :=
  #[{ ref := carouselRef 0
      code := do
        Gen.generate (carouselSource 0)
        let _ ← (Gen.generate (carouselSource 1)).attempt
        Gen.append (·.comment "turning")
        return .nothing },
    { ref := carouselRef 1
      code := do
        Gen.generate (carouselSource 0)
        Gen.generate (carouselSource 2)
        return .nothing },
    { ref := carouselRef 2
      code := throw (.notGenerated (carouselRef 2)) }]

def carouselCalls : List (Call Unit) :=
  [{ position := 0, target := .processFrame }, { position := 1, target := .init },
    { position := 0, target := .processFrame, prepare := fun p => { p with stage := .endGen } }]

theorem generations_carousel : carousel.size < 4 ∧
    (∀ s : Live Unit, ∃ log, carousel.generateWithin 4 1 .init s =
      some ((carousel.generate s.busy 1 .init s.pass).1,
        ⟨(carousel.generate s.busy 1 .init s.pass).2, s.busy, s.events ++ log⟩)) ∧
    ∃ answers t, carousel.serve 4 carouselCalls { pass := Pass.new {} () } = some (answers, t) ∧
      answers.length = 3 ∧ t.busy = [] ∧ Event.Once t.events ∧ (t.pass.sessions.map Prod.fst).Nodup := by
  have hdepth : carousel.size < 4 := by decide
  obtain ⟨hcall, answers, t, hserve, hlength, hbusy, honce, -, hnodup, -⟩ :=
    Graph.generations hdepth {} () carouselCalls
  exact ⟨hdepth, hcall 1 .init, answers, t, hserve, hlength, hbusy, honce, hnodup⟩

example : (carousel.serve 4 carouselCalls { pass := Pass.new {} () }).map (·.2.events) =
    some [.requested 7, .entered 7, .requested 7, .requested 8, .entered 8, .requested 7, .requested 9, .entered 9,
      .failed 9, .failed 8, .succeeded 7, .requested 8, .entered 8, .requested 7, .requested 9, .entered 9, .failed 9,
      .failed 8, .requested 7] := by
  decide +kernel

end Nodes

end Pipewright
