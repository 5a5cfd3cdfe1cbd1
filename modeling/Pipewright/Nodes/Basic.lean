import Pipewright.Pass.Targets

/-!
# Built-in nodes

What the nodes of this library have in common: how their outputs are read, and
how a node picks its code for the language of the pass.
-/

namespace Pipewright

namespace Source

def ofMat (position : Nat) (ref : NodeRef) : Source where
  position
  ref
  read
    | .mat m, output => if output = "output" then .ok (.mat m) else .error (.unknownOutput ref output)
    | _, _ => .error (.foreignSession ref)

def ofList (position : Nat) (ref : NodeRef) (name : String) (element : ListElement) : Source where
  position
  ref
  read
    | .value v, output =>
      if output = name then .ok (.runtimeList v element) else .error (.unknownOutput ref output)
    | _, _ => .error (.foreignSession ref)

def ofNothing (position : Nat) (ref : NodeRef) : Source where
  position
  ref
  read
    | .nothing, output => .error (.unknownOutput ref output)
    | _, _ => .error (.foreignSession ref)

end Source

def Gen.forLanguage {σ α : Type} (node : NodeRef) (supported : List Language) (code : Language → Gen σ α) : Gen σ α := do
  let l ← language
  if supported.contains l then code l else throw (.noGenerator node l)

end Pipewright
