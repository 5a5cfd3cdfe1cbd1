import Mathlib.Logic.Relation
import Pipewright.Nodes.Basic

/-!
# Live passes

A live pass keeps the ids of the nodes at work in one set that every request reads
and changes, and writes down what happens to them. Its recursion is cut off at a
given depth. With depth to spare it does what generation does
(`Graph.generateWithin_ends`), and each of its runs is made of six kinds of moves
(`Graph.generateWithin_moves`).
-/

namespace Pipewright

variable {σ : Type}

inductive Event where
  | requested (id : Nat)
  | entered (id : Nat)
  | failed (id : Nat)
  | succeeded (id : Nat)
deriving DecidableEq, Repr

namespace Event

def Running (events : List Event) (id : Nat) : Prop :=
  events.count (.failed id) + events.count (.succeeded id) < events.count (.entered id)

instance (events : List Event) (id : Nat) : Decidable (Running events id) :=
  inferInstanceAs (Decidable (_ < _))

def Once (events : List Event) : Prop :=
  ∀ before id, before ++ [.entered id] <+: events → ¬ Running before id ∧ .succeeded id ∉ before

@[simp] def succeeded? : Event → Option Nat
  | succeeded id => some id
  | _ => none

end Event

structure Live (σ : Type) where
  pass : Pass σ
  busy : List Nat := []
  events : List Event := []

namespace Live

def update (s : Live σ) (change : Pass σ → Pass σ) : Live σ := { s with pass := change s.pass }

def note (s : Live σ) (e : Event) : Live σ := { s with events := s.events ++ [e] }

def enter (s : Live σ) (id : Nat) : Live σ := { s.note (.entered id) with busy := id :: s.busy }

def leave (s : Live σ) (id : Nat) (e : Event) : Live σ := { s.note e with busy := s.busy.erase id }

@[simp] theorem update_pass (s : Live σ) (change : Pass σ → Pass σ) : (s.update change).pass = change s.pass := rfl
@[simp] theorem update_busy (s : Live σ) (change : Pass σ → Pass σ) : (s.update change).busy = s.busy := rfl
@[simp] theorem update_events (s : Live σ) (change : Pass σ → Pass σ) : (s.update change).events = s.events := rfl
@[simp] theorem note_pass (s : Live σ) (e : Event) : (s.note e).pass = s.pass := rfl
@[simp] theorem note_busy (s : Live σ) (e : Event) : (s.note e).busy = s.busy := rfl
@[simp] theorem note_events (s : Live σ) (e : Event) : (s.note e).events = s.events ++ [e] := rfl
@[simp] theorem enter_pass (s : Live σ) (id : Nat) : (s.enter id).pass = s.pass := rfl
@[simp] theorem enter_busy (s : Live σ) (id : Nat) : (s.enter id).busy = id :: s.busy := rfl
@[simp] theorem enter_events (s : Live σ) (id : Nat) : (s.enter id).events = s.events ++ [.entered id] := rfl
@[simp] theorem leave_pass (s : Live σ) (id : Nat) (e : Event) : (s.leave id e).pass = s.pass := rfl
@[simp] theorem leave_busy (s : Live σ) (id : Nat) (e : Event) : (s.leave id e).busy = s.busy.erase id := rfl
@[simp] theorem leave_events (s : Live σ) (id : Nat) (e : Event) : (s.leave id e).events = s.events ++ [e] := rfl

end Live

namespace Pass

def store (p : Pass σ) (id : Nat) (session : Session) : Pass σ :=
  { p with sessions := (id, session) :: p.sessions }

@[simp] theorem store_sessions (p : Pass σ) (id : Nat) (session : Session) :
    (p.store id session).sessions = (id, session) :: p.sessions := rfl

@[simp] theorem defer_sessions (p : Pass σ) (d : Deferred) : (p.defer d).sessions = p.sessions := by
  unfold defer
  split <;> rfl

@[simp] theorem defer_stage (p : Pass σ) (d : Deferred) : (p.defer d).stage = p.stage := by
  unfold defer
  split <;> rfl

@[simp] theorem defer_work (p : Pass σ) (d : Deferred) : (p.defer d).work = p.work := by
  unfold defer
  split <;> rfl

@[simp] theorem defer_language (p : Pass σ) (d : Deferred) : (p.defer d).language = p.language := by
  unfold defer
  split <;> rfl

theorem session?_eq_none_iff (p : Pass σ) (id : Nat) : p.session? id = none ↔ id ∉ p.sessions.map Prod.fst := by
  simp only [session?, List.lookup_eq_none_iff, List.mem_map, not_exists, not_and, bne_iff_ne]
  exact ⟨fun h entry hmem he => h entry hmem he.symm, fun h entry hmem he => h entry hmem he.symm⟩

theorem session?_isSome_iff (p : Pass σ) (id : Nat) : (p.session? id).isSome ↔ id ∈ p.sessions.map Prod.fst := by
  rw [← Option.ne_none_iff_isSome, ne_eq, session?_eq_none_iff, Classical.not_not]

end Pass

/-- What becomes of a pass, and the answer to the request, when the code of a node has run to its result. -/
def Live.finish (s : Live σ) (id : Nat) : Except GenError Session → Except GenError Unit × Live σ
  | .error e => (.error e, s.leave id (.failed id))
  | .ok session => (.ok (), (s.leave id (.succeeded id)).update (·.store id session))

/-! ## Recursion of a given depth -/

/-- Runs code where a request may not be answered. -/
def Code.runWithin (generate : Nat → Target → Live σ → Option (Except GenError Unit × Live σ)) :
    Code σ → Live σ → Option (Except GenError Session × Live σ)
  | done result, s => some (result, s)
  | look k, s => (k s.pass).runWithin generate s
  | update w next, s => next.runWithin generate (s.update fun p => { p with work := w })
  | .generate position target k, s =>
    match generate position target s with
    | none => none
    | some (answer, s) => (k answer).runWithin generate s

namespace Graph

variable (graph : Graph σ)

def generateWithin : (depth : Nat) → (position : Nat) → Target → Live σ → Option (Except GenError Unit × Live σ)
  | 0, _, _, _ => none
  | depth + 1, position, target, s =>
    match graph[position]? with
    | none => some (.ok (), s)
    | some node =>
      let id := node.ref.id
      let s := s.note (.requested id)
      if node.atEnd && s.pass.stage != .endGen then some (.ok (), s.update (·.defer ⟨position, id⟩))
      else if (s.pass.session? id).isSome then some (.ok (), s)
      else if s.busy.contains id then some (.ok (), s)
      else ((node.code target .done).runWithin (generateWithin depth) (s.enter id)).map fun (result, s) =>
        s.finish id result

end Graph

/-! ## Answers to requests -/

def Node.Defers (node : Node σ) (p : Pass σ) : Prop := node.atEnd = true ∧ p.stage ≠ .endGen

def Node.Skips (node : Node σ) (p : Pass σ) (busy : List Nat) : Prop :=
  ¬ node.Defers p ∧ ((p.session? node.ref.id).isSome ∨ node.ref.id ∈ busy)

structure Node.Enters (node : Node σ) (p : Pass σ) (busy : List Nat) : Prop where
  due : ¬ node.Defers p
  new : p.session? node.ref.id = none
  idle : node.ref.id ∉ busy

theorem Node.request_cases (node : Node σ) (p : Pass σ) (busy : List Nat) :
    node.Defers p ∨ node.Skips p busy ∨ node.Enters p busy := by
  by_cases hdefer : node.Defers p
  · exact .inl hdefer
  by_cases hskip : (p.session? node.ref.id).isSome ∨ node.ref.id ∈ busy
  · exact .inr (.inl ⟨hdefer, hskip⟩)
  · simp only [not_or, Option.not_isSome_iff_eq_none] at hskip
    exact .inr (.inr ⟨hdefer, hskip.1, hskip.2⟩)

theorem Node.defers_iff (node : Node σ) (p : Pass σ) :
    (node.atEnd && p.stage != .endGen) = true ↔ node.Defers p := by
  simp [Node.Defers]

namespace Graph

variable {graph : Graph σ} {position depth : Nat} {node : Node σ} {running : List Nat} {p : Pass σ} {s : Live σ}

theorem generate_none (h : graph[position]? = none) (running : List Nat) (target : Target) (p : Pass σ) :
    graph.generate running position target p = (.ok (), p) := by
  rw [generate, dif_neg (by simpa using h)]

theorem generate_eq (hnode : graph[position]? = some node) (running : List Nat) (target : Target) (p : Pass σ) :
    graph.generate running position target p =
      if node.atEnd && p.stage != .endGen then (.ok (), p.defer ⟨position, node.ref.id⟩)
      else if (p.session? node.ref.id).isSome then (.ok (), p)
      else if running.contains node.ref.id then (.ok (), p)
      else
        match (node.code target .done).run (graph.generate (node.ref.id :: running)) p with
        | (.error e, p) => (.error e, p)
        | (.ok session, p) => (.ok (), p.store node.ref.id session) := by
  obtain ⟨h, rfl⟩ := Array.getElem?_eq_some_iff.mp hnode
  rw [generate, dif_pos h]
  rfl

theorem generate_defers (hnode : graph[position]? = some node) (h : node.Defers p) (target : Target) :
    graph.generate running position target p = (.ok (), p.defer ⟨position, node.ref.id⟩) := by
  rw [generate_eq hnode, if_pos ((node.defers_iff p).mpr h)]

theorem generate_skips (hnode : graph[position]? = some node) (h : node.Skips p running) (target : Target) :
    graph.generate running position target p = (.ok (), p) := by
  rw [generate_eq hnode, if_neg (mt (node.defers_iff p).mp h.1)]
  rcases h.2 with hsession | hrunning
  · rw [if_pos hsession]
  · rw [if_pos (List.contains_iff_mem.mpr hrunning), ite_self]

theorem generate_enters (hnode : graph[position]? = some node) (h : node.Enters p running) (target : Target) :
    graph.generate running position target p =
      match (node.code target .done).run (graph.generate (node.ref.id :: running)) p with
      | (.error e, p) => (.error e, p)
      | (.ok session, p) => (.ok (), p.store node.ref.id session) := by
  rw [generate_eq hnode, if_neg (mt (node.defers_iff p).mp h.due), if_neg (by simp [h.new]),
    if_neg (by simpa using h.idle)]

theorem generateWithin_none (h : graph[position]? = none) (depth : Nat) (target : Target) (s : Live σ) :
    graph.generateWithin (depth + 1) position target s = some (.ok (), s) := by
  simp [generateWithin, h]

theorem generateWithin_eq (hnode : graph[position]? = some node) (depth : Nat) (target : Target) (s : Live σ) :
    graph.generateWithin (depth + 1) position target s =
      let r := s.note (.requested node.ref.id)
      if node.atEnd && s.pass.stage != .endGen then some (.ok (), r.update (·.defer ⟨position, node.ref.id⟩))
      else if (s.pass.session? node.ref.id).isSome then some (.ok (), r)
      else if s.busy.contains node.ref.id then some (.ok (), r)
      else ((node.code target .done).runWithin (graph.generateWithin depth) (r.enter node.ref.id)).map
        fun (result, s) => s.finish node.ref.id result := by
  simp only [generateWithin, hnode]
  rfl

theorem generateWithin_defers (hnode : graph[position]? = some node) (h : node.Defers s.pass) (depth : Nat)
    (target : Target) : graph.generateWithin (depth + 1) position target s =
      some (.ok (), (s.note (.requested node.ref.id)).update (·.defer ⟨position, node.ref.id⟩)) := by
  rw [generateWithin_eq hnode]
  exact if_pos ((node.defers_iff s.pass).mpr h)

theorem generateWithin_skips (hnode : graph[position]? = some node) (h : node.Skips s.pass s.busy) (depth : Nat)
    (target : Target) :
    graph.generateWithin (depth + 1) position target s = some (.ok (), s.note (.requested node.ref.id)) := by
  rw [generateWithin_eq hnode]
  refine (if_neg (mt (node.defers_iff s.pass).mp h.1)).trans ?_
  rcases h.2 with hsession | hbusy
  · rw [if_pos hsession]
  · rw [if_pos (List.contains_iff_mem.mpr hbusy), ite_self]

theorem generateWithin_enters (hnode : graph[position]? = some node) (h : node.Enters s.pass s.busy) (depth : Nat)
    (target : Target) : graph.generateWithin (depth + 1) position target s =
      ((node.code target .done).runWithin (graph.generateWithin depth)
        ((s.note (.requested node.ref.id)).enter node.ref.id)).map fun (result, s) => s.finish node.ref.id result := by
  rw [generateWithin_eq hnode]
  refine (if_neg (mt (node.defers_iff s.pass).mp h.due)).trans ?_
  rw [if_neg (by simp [h.new]), if_neg (by simpa using h.idle)]

end Graph

/-! ## Enough depth -/

def Live.Ends {α : Type} (s : Live σ) (run : Option (α × Live σ)) (outcome : α × Pass σ) : Prop :=
  ∃ log, run = some (outcome.1, ⟨outcome.2, s.busy, s.events ++ log⟩)

theorem Live.Ends.of_append {α : Type} {s s' : Live σ} {run : Option (α × Live σ)} {outcome : α × Pass σ}
    {log : List Event} (h : s'.Ends run outcome) (hbusy : s'.busy = s.busy) (hlog : s'.events = s.events ++ log) :
    s.Ends run outcome := by
  obtain ⟨more, hrun⟩ := h
  exact ⟨log ++ more, by rw [hrun, hbusy, hlog, List.append_assoc]⟩

theorem Code.runWithin_ends {generate : Nat → Target → Live σ → Option (Except GenError Unit × Live σ)}
    {generate' : Nat → Target → Pass σ → Except GenError Unit × Pass σ} {busy : List Nat}
    (h : ∀ position target (s : Live σ), s.busy = busy →
      s.Ends (generate position target s) (generate' position target s.pass))
    (code : Code σ) (s : Live σ) (hs : s.busy = busy) :
    s.Ends (code.runWithin generate s) (code.run generate' s.pass) := by
  induction code generalizing s with
  | done result => exact ⟨[], by simp [runWithin, run]⟩
  | look k ih => exact ih _ s hs
  | update w next ih => exact ih (s.update fun p => { p with work := w }) hs
  | generate position target k ih =>
    obtain ⟨log, hgen⟩ := h position target s hs
    rw [runWithin, run, hgen]
    exact (ih _ ⟨_, s.busy, s.events ++ log⟩ hs).of_append rfl rfl

namespace Graph

variable (graph : Graph σ)

theorem remaining_le_size (busy : List Nat) : remaining graph.ids busy ≤ graph.size := by
  have := List.countP_le_length (p := fun id => !busy.contains id) (l := graph.ids)
  simpa [remaining, ids] using this

theorem remaining_lt {busy : List Nat} {position depth : Nat} {node : Node σ} (hnode : graph[position]? = some node)
    (hidle : node.ref.id ∉ busy) (hd : remaining graph.ids busy < depth + 1) :
    remaining graph.ids (node.ref.id :: busy) < depth := by
  obtain ⟨h, rfl⟩ := Array.getElem?_eq_some_iff.mp hnode
  have := remaining_enter_lt (graph.id_mem_ids h) (by simpa using hidle)
  omega

theorem generateWithin_ends (depth position : Nat) (target : Target) (s : Live σ)
    (hd : remaining graph.ids s.busy < depth) :
    s.Ends (graph.generateWithin depth position target s) (graph.generate s.busy position target s.pass) := by
  induction depth generalizing position target s with
  | zero => exact absurd hd (Nat.not_lt_zero _)
  | succ depth ih =>
    cases hnode : graph[position]? with
    | none =>
      rw [generate_none hnode, generateWithin_none hnode]
      exact ⟨[], by simp⟩
    | some node =>
      rcases node.request_cases s.pass s.busy with h | h | h
      · rw [generate_defers hnode h, generateWithin_defers hnode h]
        exact ⟨[.requested node.ref.id], rfl⟩
      · rw [generate_skips hnode h, generateWithin_skips hnode h]
        exact ⟨[.requested node.ref.id], rfl⟩
      · rw [generate_enters hnode h, generateWithin_enters hnode h]
        have hnext := graph.remaining_lt hnode h.idle hd
        have hgen : ∀ position target (t : Live σ), t.busy = node.ref.id :: s.busy →
            t.Ends (graph.generateWithin depth position target t)
              (graph.generate (node.ref.id :: s.busy) position target t.pass) := by
          intro position target t ht
          exact ht ▸ ih position target t (ht ▸ hnext)
        obtain ⟨log, hrun⟩ := (node.code target .done).runWithin_ends hgen
          ((s.note (.requested node.ref.id)).enter node.ref.id) rfl
        have hpass : ((s.note (.requested node.ref.id)).enter node.ref.id).pass = s.pass := rfl
        rw [hpass] at hrun
        rw [hrun]
        cases hcode : (node.code target .done).run (graph.generate (node.ref.id :: s.busy)) s.pass with
        | mk result p =>
          cases result with
          | error e =>
            exact ⟨[.requested node.ref.id, .entered node.ref.id] ++ log ++ [.failed node.ref.id],
              by simp [Live.finish, Live.leave, Live.enter, Live.note]⟩
          | ok session =>
            exact ⟨[.requested node.ref.id, .entered node.ref.id] ++ log ++ [.succeeded node.ref.id],
              by simp [Live.finish, Live.leave, Live.enter, Live.note, Live.update]⟩

end Graph

/-! ## Moves -/

/-- Code that changes the workspace in allowed ways only, whatever the answers to its requests. -/
def Code.Obeys (allowed : Workspace σ → Workspace σ → Prop) : Code σ → Pass σ → Prop
  | done _, _ => True
  | look k, p => (k p).Obeys allowed p
  | update w next, p => allowed p.work w ∧ next.Obeys allowed { p with work := w }
  | .generate _ _ k, _ => ∀ answer p, (k answer).Obeys allowed p

theorem Code.obeys_any (code : Code σ) (p : Pass σ) : code.Obeys (fun _ _ => True) p := by
  induction code generalizing p with
  | done _ => trivial
  | look k ih => exact ih p p
  | update w next ih => exact ⟨trivial, ih _⟩
  | generate _ _ k ih => exact fun answer p => ih answer p

def Graph.Obeys (graph : Graph σ) (allowed : Workspace σ → Workspace σ → Prop) : Prop :=
  ∀ node ∈ graph, ∀ target p, (node.code target .done).Obeys allowed p

/-- What can happen next while the nodes of `base` stay at work. -/
inductive Graph.Move (graph : Graph σ) (allowed : Workspace σ → Workspace σ → Prop) (base : List Nat) :
    Live σ → Live σ → Prop
  | work {s : Live σ} {w : Workspace σ} : allowed s.pass.work w →
      graph.Move allowed base s (s.update fun p => { p with work := w })
  | defer {s : Live σ} {position : Nat} {node : Node σ} : graph[position]? = some node → node.Defers s.pass →
      graph.Move allowed base s ((s.note (.requested node.ref.id)).update (·.defer ⟨position, node.ref.id⟩))
  | skip {s : Live σ} {position : Nat} {node : Node σ} : graph[position]? = some node → node.Skips s.pass s.busy →
      graph.Move allowed base s (s.note (.requested node.ref.id))
  | enter {s : Live σ} {position : Nat} {node : Node σ} : graph[position]? = some node →
      node.Enters s.pass s.busy → base <:+ s.busy →
      graph.Move allowed base s ((s.note (.requested node.ref.id)).enter node.ref.id)
  | fail {s : Live σ} {id : Nat} {rest : List Nat} : s.busy = id :: rest → base <:+ rest →
      graph.Move allowed base s (s.leave id (.failed id))
  | succeed {s : Live σ} {id : Nat} {rest : List Nat} (session : Session) : s.busy = id :: rest → base <:+ rest →
      graph.Move allowed base s ((s.leave id (.succeeded id)).update (·.store id session))

def Graph.Moves (graph : Graph σ) (allowed : Workspace σ → Workspace σ → Prop) (base : List Nat) :
    Live σ → Live σ → Prop :=
  Relation.ReflTransGen (graph.Move allowed base)

namespace Graph

variable {graph : Graph σ} {allowed : Workspace σ → Workspace σ → Prop} {base inner : List Nat} {s t u : Live σ}

theorem Move.mono (hbase : base <:+ inner) (h : graph.Move allowed inner s t) : graph.Move allowed base s t := by
  cases h with
  | work hw => exact .work hw
  | defer hnode hd => exact .defer hnode hd
  | skip hnode hs => exact .skip hnode hs
  | enter hnode he hb => exact .enter hnode he (hbase.trans hb)
  | fail hs hb => exact .fail hs (hbase.trans hb)
  | succeed session hs hb => exact .succeed session hs (hbase.trans hb)

theorem Moves.mono (hbase : base <:+ inner) (h : graph.Moves allowed inner s t) : graph.Moves allowed base s t :=
  Relation.ReflTransGen.mono (fun _ _ => Move.mono hbase) _ _ h

theorem Moves.single (h : graph.Move allowed base s t) : graph.Moves allowed base s t :=
  Relation.ReflTransGen.single h

theorem Moves.trans (h : graph.Moves allowed base s t) (h' : graph.Moves allowed base t u) :
    graph.Moves allowed base s u :=
  Relation.ReflTransGen.trans h h'

/-- What each move preserves holds after any number of them. -/
theorem Moves.preserve (inv : Live σ → Prop) (hstep : ∀ s t, graph.Move allowed base s t → inv s → inv t)
    (h : graph.Moves allowed base s t) (hs : inv s) : inv t := by
  induction h with
  | refl => exact hs
  | tail _ hmove ih => exact hstep _ _ hmove ih

end Graph

/-! ## Runs are made of moves -/

theorem Code.runWithin_moves {graph : Graph σ} {allowed : Workspace σ → Workspace σ → Prop} {base : List Nat}
    {generate : Nat → Target → Live σ → Option (Except GenError Unit × Live σ)}
    (hgen : ∀ position target s answer t, s.busy = base → generate position target s = some (answer, t) →
      t.busy = base ∧ graph.Moves allowed base s t)
    {code : Code σ} {s t : Live σ} {result : Except GenError Session} (hs : s.busy = base)
    (hcode : code.Obeys allowed s.pass) (hrun : code.runWithin generate s = some (result, t)) :
    t.busy = base ∧ graph.Moves allowed base s t := by
  induction code generalizing s with
  | done _ =>
    simp only [runWithin, Option.some.injEq, Prod.mk.injEq] at hrun
    obtain ⟨-, rfl⟩ := hrun
    exact ⟨hs, .refl⟩
  | look k ih => exact ih s.pass hs hcode hrun
  | update w next ih =>
    obtain ⟨hw, hnext⟩ := hcode
    obtain ⟨hb, hmoves⟩ := ih (s := s.update fun p => { p with work := w }) hs hnext hrun
    exact ⟨hb, (Graph.Moves.single (.work hw)).trans hmoves⟩
  | generate position target k ih =>
    cases hanswer : generate position target s with
    | none => simp [runWithin, hanswer] at hrun
    | some out =>
      obtain ⟨answer, s'⟩ := out
      simp only [runWithin, hanswer] at hrun
      obtain ⟨hs', hfirst⟩ := hgen _ _ _ _ _ hs hanswer
      obtain ⟨hb, hrest⟩ := ih answer hs' (hcode answer s'.pass) hrun
      exact ⟨hb, hfirst.trans hrest⟩

namespace Graph

variable {graph : Graph σ} {allowed : Workspace σ → Workspace σ → Prop} {depth position : Nat} {node : Node σ}
  {target : Target} {s t : Live σ} {answer : Except GenError Unit}

theorem generateWithin_finish (hnode : graph[position]? = some node) (h : node.Enters s.pass s.busy)
    (hrun : graph.generateWithin (depth + 1) position target s = some (answer, t)) :
    ∃ result u, (node.code target .done).runWithin (graph.generateWithin depth)
        ((s.note (.requested node.ref.id)).enter node.ref.id) = some (result, u) ∧
      u.finish node.ref.id result = (answer, t) := by
  rw [generateWithin_enters hnode h, Option.map_eq_some_iff] at hrun
  obtain ⟨⟨result, u⟩, hcode, hfinish⟩ := hrun
  exact ⟨result, u, hcode, hfinish⟩

theorem finish_busy (id : Nat) (result : Except GenError Session) {rest : List Nat} (hs : s.busy = id :: rest) :
    (s.finish id result).2.busy = rest := by
  cases result <;> simp [Live.finish, hs]

theorem finish_move {id : Nat} (result : Except GenError Session) {base rest : List Nat} (hs : s.busy = id :: rest)
    (hbase : base <:+ rest) : graph.Move allowed base s (s.finish id result).2 := by
  cases result with
  | error e => exact .fail hs hbase
  | ok session => exact .succeed session hs hbase

/-- Inside the run of a node's code, the node stays at work. -/
theorem generateWithin_inside (hobeys : graph.Obeys allowed)
    (hinner : ∀ {position target s answer t}, graph.generateWithin depth position target s = some (answer, t) →
      t.busy = s.busy ∧ graph.Moves allowed s.busy s t)
    (hnode : graph[position]? = some node) (h : node.Enters s.pass s.busy)
    (hrun : graph.generateWithin (depth + 1) position target s = some (answer, t)) :
    ∃ result u, u.busy = node.ref.id :: s.busy ∧
      graph.Moves allowed (node.ref.id :: s.busy) ((s.note (.requested node.ref.id)).enter node.ref.id) u ∧
      u.finish node.ref.id result = (answer, t) := by
  obtain ⟨result, u, hcode, hfinish⟩ := generateWithin_finish hnode h hrun
  have hgen : ∀ position target v answer w, v.busy = node.ref.id :: s.busy →
      graph.generateWithin depth position target v = some (answer, w) →
      w.busy = node.ref.id :: s.busy ∧ graph.Moves allowed (node.ref.id :: s.busy) v w := by
    intro position target v answer w hv hrun
    exact hv ▸ hinner hrun
  obtain ⟨hu, hmoves⟩ := Code.runWithin_moves (s := (s.note (.requested node.ref.id)).enter node.ref.id) hgen rfl
    (hobeys node (Array.mem_of_getElem? hnode) target s.pass) hcode
  exact ⟨result, u, hu, hmoves, hfinish⟩

theorem generateWithin_moves (hobeys : graph.Obeys allowed)
    (hrun : graph.generateWithin depth position target s = some (answer, t)) :
    t.busy = s.busy ∧ graph.Moves allowed s.busy s t := by
  induction depth generalizing position target s answer t with
  | zero => simp [generateWithin] at hrun
  | succ depth ih =>
    cases hnode : graph[position]? with
    | none =>
      simp only [generateWithin_none hnode, Option.some.injEq, Prod.mk.injEq] at hrun
      obtain ⟨-, rfl⟩ := hrun
      exact ⟨rfl, .refl⟩
    | some node =>
      rcases node.request_cases s.pass s.busy with h | h | h
      · simp only [generateWithin_defers hnode h, Option.some.injEq, Prod.mk.injEq] at hrun
        obtain ⟨-, rfl⟩ := hrun
        exact ⟨rfl, .single (.defer hnode h)⟩
      · simp only [generateWithin_skips hnode h, Option.some.injEq, Prod.mk.injEq] at hrun
        obtain ⟨-, rfl⟩ := hrun
        exact ⟨rfl, .single (.skip hnode h)⟩
      · obtain ⟨result, u, hu, hmoves, hfinish⟩ := generateWithin_inside hobeys ih hnode h hrun
        obtain rfl : (u.finish node.ref.id result).2 = t := congrArg Prod.snd hfinish
        refine ⟨finish_busy _ result hu, (Moves.single (.enter hnode h (List.suffix_refl _))).trans ?_⟩
        exact (hmoves.mono (List.suffix_cons _ _)).trans (.single (finish_move result hu (List.suffix_refl _)))

end Graph

end Pipewright
