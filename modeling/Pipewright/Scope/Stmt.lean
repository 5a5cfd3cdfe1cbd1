import Pipewright.Declaration

/-!
# Statements

The program as a tree: a statement may have a body, which is a list of
statements at a tab level. Nothing here is text of a language yet.
-/

namespace Pipewright

inductive Action where
  | assign (target : Variable) (value : Value)
  | setElement (target : Variable) (index value : Value)
  | assignInstance (target : Variable) (value : Value)
  | staticCall (cls : Ty) (method : String) (args : List Value)
  | methodCall (callee : Value) (method : String) (args : List Value)
  | call (method : String) (args : List Value)
  | enumeration (name : String) (values : List String)
  | comment (text : String)
  /-- Text as it is, at the indentation of its place. -/
  | raw (text : String)
deriving Repr, Inhabited

mutual

inductive Stmt where
  | instanceVariable (visibility : Visibility) (var : Variable) (label : Option String) (modifiers : Modifiers)
  | localVariable (var : Variable) (isFinal : Bool)
  | act (action : Action)
  | ret (value : Option Value)
  | ifThen (condition : Value) (body : Block)
  | whileLoop (condition : Value) (body : Block)
  /-- Counts `var` from `start` while it is below `limit`. -/
  | forLoop (var : Variable) (start limit : Value) (step : Option Value) (body : Block)
  | foreach (var : Variable) (iterable : Value) (body : Block)
  | method (signature : MethodSignature) (body : Block)
  | constructor (visibility : Visibility) (className : String) (parameters : List Parameter) (body : Block)
  | cls (signature : ClassSignature) (body : Block)
  | blank
  /-- The statements of another block, at an indentation of their own if one is given. -/
  | nested (block : Block) (indent : Option Nat)

inductive Block where
  | mk (tabs : Nat) (stmts : List Stmt)

end

instance : Inhabited Block := ⟨.mk 0 []⟩
instance : Inhabited Stmt := ⟨.blank⟩

namespace Block

def tabs : Block → Nat
  | mk t _ => t

def stmts : Block → List Stmt
  | mk _ s => s

def isEmpty (b : Block) : Bool := b.stmts.isEmpty

end Block

namespace Stmt

def isDeclarationBlock : Stmt → Bool
  | method .. | constructor .. | cls .. | nested .. => true
  | _ => false

def isBlank : Stmt → Bool
  | blank => true
  | _ => false

def declared? : Stmt → Option Variable
  | instanceVariable _ v _ _ => some v
  | localVariable v _ => some v
  | _ => none

def body? : Stmt → Option Block
  | ifThen _ b | whileLoop _ b | forLoop _ _ _ _ b | foreach _ _ b | method _ b | constructor _ _ _ b | cls _ b
  | nested b _ => some b
  | _ => none

end Stmt

end Pipewright
