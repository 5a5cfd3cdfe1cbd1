import Pipewright.Descent
import Pipewright.Pass.Code

/-!
# Node graphs

A node is generated at most once in a pass. A node reached again while it is at
work is skipped, so a cyclic graph ends too: each level deeper leaves fewer nodes
that are not at work.
-/

namespace Pipewright

structure Source where
  position : Nat
  ref : NodeRef
  /-- An output of a session under the node's id. -/
  read : Session → (output : String) → Except GenError GenValue

structure Node (σ : Type) where
  ref : NodeRef
  atEnd : Bool := false
  code : Gen σ Session

/-- The nodes of a pass, which name each other by position. -/
abbrev Graph (σ : Type) := Array (Node σ)

namespace Graph

variable {σ : Type} (graph : Graph σ)

def ids : List Nat := graph.toList.map (·.ref.id)

theorem id_mem_ids {position : Nat} (h : position < graph.size) : graph[position].ref.id ∈ graph.ids :=
  List.mem_map_of_mem (by simp)

/-- Generates the node at a position unless that has been done; a deferred one is queued before the end stage. -/
def generate (running : List Nat) (position : Nat) (target : Target) (p : Pass σ) : Except GenError Unit × Pass σ :=
  if h : position < graph.size then
    let node := graph[position]
    if node.atEnd && p.stage != .endGen then (.ok (), p.defer ⟨position, node.ref.id⟩)
    else if (p.session? node.ref.id).isSome then (.ok (), p)
    else if hr : running.contains graph[position].ref.id then (.ok (), p)
    else
      match (node.code target .done).run
        (fun inner t p => generate (graph[position].ref.id :: running) inner t p) p with
      | (.error e, p) => (.error e, p)
      | (.ok session, p) => (.ok (), { p with sessions := (node.ref.id, session) :: p.sessions })
  else (.ok (), p)
termination_by remaining graph.ids running
decreasing_by exact remaining_enter_lt (graph.id_mem_ids h) (by simpa using hr)

def generateAll : List Nat → Pass σ → Except GenError Unit × Pass σ
  | [], p => (.ok (), p)
  | position :: rest, p =>
    match graph.generate [] position .processFrame p with
    | (.error e, p) => (.error e, p)
    | (.ok (), p) => generateAll rest p

def exec (target : Target) (code : Gen σ Unit) (p : Pass σ) : Except GenError Unit × Pass σ :=
  match (code target fun outcome => .done (outcome.map fun _ => .nothing)).run (graph.generate []) p with
  | (.error e, p) => (.error e, p)
  | (.ok _, p) => (.ok (), p)

end Graph

namespace Gen

variable {σ : Type}

def generate (source : Source) : Gen σ Unit := fun target k => .generate source.position target k

def outputOf (source : Source) (output : String) : Gen σ GenValue := do
  generate source
  match (← pass).session? source.ref.id with
  | some session => source.read session output
  | none => throw (.notGenerated source.ref)

def matOf (source : Source) (output : String) (pin : Pin) : Gen σ MatValue := do
  (← outputOf source output).asMat pin

def outputProbe (source : Source) (output : String) (extract : GenValue → Option Resolved) :
    Surroundings σ → Option Resolved × Surroundings σ := fun s =>
  match s.sessions.lookup source.ref.id with
  | none => (none, s)
  | some session =>
    match source.read session output with
    | .ok value => (extract value, s)
    | .error _ => (none, s)

/-- An output that may not be there yet: it is looked for again whenever it is needed. -/
def outputPlaceholder (source : Source) (output : String) (extract : GenValue → Option Resolved) :
    Gen σ Resolvable := do
  let p ← pass
  let (r, registry, _) := p.work.registry.ofProbe (outputProbe source output extract) p.surroundings
  modify fun w => { w with registry }
  return r

end Gen

end Pipewright
