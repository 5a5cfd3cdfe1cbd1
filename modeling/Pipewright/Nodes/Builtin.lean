import Pipewright.Nodes.Contours

/-!
# Graphs of built-in nodes

A node of this library as data: its kind, its settings and the positions of the
nodes that it reads.
-/

namespace Pipewright

inductive Builtin where
  | input
  | convert (source : Nat) (target : ColorSpace)
  | threshold (source : Nat) (range : ScalarRange)
  | contours (source : Nat)
  | boundingRects (source : Nat) (label : Option String)
  | output (source : Nat)
deriving Repr

namespace Builtin

def ref (id : Nat) : Builtin → NodeRef
  | input => Nodes.inputRef id
  | convert .. => Nodes.convertRef id
  | threshold .. => Nodes.thresholdRef id
  | contours _ => Nodes.contoursRef id
  | boundingRects .. => Nodes.boundingRectsRef id
  | output _ => Nodes.outputRef id

def source (position id : Nat) (b : Builtin) : Source :=
  match b with
  | input | convert .. | threshold .. => .ofMat position (b.ref id)
  | contours _ => .ofList position (b.ref id) "contours" .points
  | boundingRects .. => .ofList position (b.ref id) "rects" .rect
  | output _ => .ofNothing position (b.ref id)

def node {σ : Type} (sources : Nat → Source) (id : Nat) : Builtin → Node σ
  | input => Nodes.input id
  | convert s target => Nodes.convert id (sources s) target
  | threshold s range => Nodes.threshold id (sources s) range
  | contours s => Nodes.contours id (sources s)
  | boundingRects s label => Nodes.boundingRects id (sources s) label
  | output s => Nodes.output id (sources s)

def noSource (position : Nat) : Source := .ofNothing position ⟨0, ""⟩

def graph {σ : Type} (nodes : List (Nat × Builtin)) : Graph σ :=
  let sources (position : Nat) : Source :=
    match nodes[position]? with
    | some (id, b) => b.source position id
    | none => noSource position
  (nodes.map fun (id, b) => b.node sources id).toArray

end Builtin

end Pipewright
