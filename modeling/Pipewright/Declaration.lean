import Pipewright.Value

/-!
# Names that a program declares

Variables, parameters, and the headers of methods and classes.
-/

namespace Pipewright

inductive Visibility where
  | isPublic | isPrivate | isProtected
deriving DecidableEq, Repr, Inhabited

def Visibility.keyword : Visibility → String
  | isPublic => "public"
  | isPrivate => "private"
  | isProtected => "protected"

/-- Modifiers of a declaration; a language drops those it does not spell. -/
structure Modifiers where
  isStatic : Bool := false
  isFinal : Bool := false
  isOverride : Bool := false
  isSynchronized : Bool := false
deriving DecidableEq, Repr, Inhabited

structure Variable where
  name : String
  initial : Value
deriving Repr, Inhabited

namespace Variable

def typed (ty : Ty) (name : String) : Variable := ⟨name, .uninit ty⟩

def ty (v : Variable) : Ty := v.initial.ty

/-- The variable as an expression: it imports what its initial value does. -/
def reference (v : Variable) : Value :=
  (Value.mkKind v.ty v.name .variable).withImportsOf [v.initial]

end Variable

structure Parameter where
  ty : Ty
  name : String
  isFinal : Bool := false
deriving Repr, Inhabited

def Parameter.reference (p : Parameter) : Value :=
  .mkKind p.ty p.name .parameter

structure MethodSignature where
  visibility : Visibility
  returns : Ty
  name : String
  parameters : List Parameter := []
  modifiers : Modifiers := {}
deriving Repr, Inhabited

structure ClassSignature where
  visibility : Visibility
  name : String
  parent : Option Ty := none
  interfaces : List Ty := []
  modifiers : Modifiers := {}
deriving Repr, Inhabited

end Pipewright
