import Pipewright.Language.Basic

/-!
# Generation errors

Why a pass stops, and the node or pin it stops at.
-/

namespace Pipewright

structure NodeRef where
  id : Nat
  name : String
deriving DecidableEq, Repr, Inhabited

def NodeRef.text (n : NodeRef) : String := s!"{n.name} #{n.id}"

structure Pin where
  node : NodeRef
  name : String
deriving DecidableEq, Repr, Inhabited

def NodeRef.pin (n : NodeRef) (name : String) : Pin := ⟨n, name⟩

def Pin.text (p : Pin) : String := "\x60" ++ p.name ++ "\x60 of " ++ p.node.text

inductive GenError where
  /-- The inputs of a node make no sense together. -/
  | node (node : NodeRef) (message : String)
  | pin (pin : Pin) (message : String)
  | language (node : Option NodeRef) (cause : LanguageError)
  | noGenerator (node : NodeRef) (language : Language)
  /-- An output was read of a node that is deferred or still at work. -/
  | notGenerated (node : NodeRef)
  | unknownOutput (node : NodeRef) (name : String)
  /-- The session under the node's id is not one of this node's kind. -/
  | foreignSession (node : NodeRef)
deriving DecidableEq, Repr

namespace GenError

/-- Whether the user can mend it, rather than the author of a node. -/
def isRecoverable : GenError → Bool
  | node .. | pin .. => true
  | _ => false

def offender : GenError → Option NodeRef
  | node n _ | noGenerator n _ | notGenerated n | unknownOutput n _ | foreignSession n => some n
  | pin p _ => some p.node
  | language n _ => n

def message : GenError → String
  | node n m => s!"{n.text}: {m}"
  | pin p m => s!"{p.text}: {m}"
  | language (some n) e => s!"{n.text}: {e.message}"
  | language none e => e.message
  | noGenerator n l => s!"{n.text} has no generator for {l.id}"
  | notGenerated n => s!"{n.text} did not produce a session"
  | unknownOutput n name => n.text ++ " has no output \x60" ++ name ++ "\x60"
  | foreignSession n => s!"session of {n.text} is of another kind"

end GenError

end Pipewright
