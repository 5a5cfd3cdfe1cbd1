import Pipewright.Scope.Stmt

/-!
# Scopes

A scope is a list of statements under construction. Statements are only ever
appended. A name is declared once: a second declaration is dropped, with a
warning. Separators never come first and never double. Bodies are built by
functions on a fresh scope one tab level deeper.
-/

namespace Pipewright

def numbered (name : String) (k : Nat) : String :=
  name ++ toString k

/-- The first of `name`, `name1`, `name2`, … that is not taken. As many candidates as there are taken names suffice,
because `name` is one of those. -/
def freshName (taken : List String) (name : String) : String :=
  if taken.contains name then
    numbered name (((List.range taken.length).map (· + 1)).find? (fun k => !taken.contains (numbered name k)) |>.getD 0)
  else name

structure Draft where
  tabs : Nat
  stmts : List Stmt := []
  declared : List String := []
  /-- The names in the warnings about second declarations, those in bodies included. -/
  dropped : List String := []
  groups : Nat := 0
deriving Inhabited

/-- Work to do right before a return; it may ask for more such work. -/
inductive Hook where
  | mk (run : Draft → Draft × List Hook)

structure Scope extends Draft where
  hooks : List Hook := []
deriving Inhabited

namespace Scope

def new (tabs : Nat) : Scope := { tabs }

def child (s : Scope) : Scope := new (s.tabs + 1)

def toBlock (s : Scope) : Block := .mk s.tabs s.stmts

def isEmpty (s : Scope) : Bool := s.stmts.isEmpty

def size (s : Scope) : Nat := s.stmts.length

def declares (s : Scope) (name : String) : Bool := s.declared.contains name

def tryName (s : Scope) (name : String) : String := freshName s.declared name

def push (s : Scope) (stmt : Stmt) : Scope := { s with stmts := s.stmts ++ [stmt] }

def declare (s : Scope) (name : String) (stmt : Stmt) : Scope :=
  if s.declares name then { s with dropped := s.dropped ++ [name] }
  else { s with declared := s.declared ++ [name] }.push stmt

def instanceVariable (s : Scope) (visibility : Visibility) (var : Variable) (label : Option String := none)
    (modifiers : Modifiers := {}) : Scope :=
  s.declare var.name (.instanceVariable visibility var label modifiers)

def localVariable (s : Scope) (var : Variable) (isFinal : Bool := false) : Scope :=
  s.declare var.name (.localVariable var isFinal)

def act (s : Scope) (action : Action) : Scope := s.push (.act action)

def assign (s : Scope) (target : Variable) (value : Value) : Scope := s.act (.assign target value)

def call (s : Scope) (method : String) (args : List Value) : Scope := s.act (.call method args)

def staticCall (s : Scope) (cls : Ty) (method : String) (args : List Value) : Scope :=
  s.act (.staticCall cls method args)

def methodCall (s : Scope) (callee : Value) (method : String) (args : List Value) : Scope :=
  s.act (.methodCall callee method args)

def comment (s : Scope) (text : String) : Scope := s.act (.comment text)

def write (s : Scope) (text : String) : Scope := s.act (.raw text)

def beforeReturning (s : Scope) (hook : Hook) : Scope := { s with hooks := s.hooks ++ [hook] }

def runHook (s : Scope) : Hook → Scope
  | .mk run =>
    let (draft, added) := run s.toDraft
    { toDraft := draft, hooks := s.hooks ++ added }

def ret (s : Scope) (value : Option Value) : Scope :=
  (s.hooks.foldl runHook s).push (.ret value)

def enclose (s : Scope) (build : Scope → Scope) (stmt : Block → Stmt) : Scope :=
  let inner := build s.child
  { s with dropped := s.dropped ++ inner.dropped }.push (stmt inner.toBlock)

def ifThen (s : Scope) (condition : Value) (build : Scope → Scope) : Scope :=
  s.enclose build (.ifThen condition)

def whileLoop (s : Scope) (condition : Value) (build : Scope → Scope) : Scope :=
  s.enclose build (.whileLoop condition)

def forLoop (s : Scope) (var : Variable) (start limit : Value) (step : Option Value) (build : Scope → Scope) : Scope :=
  s.enclose build (.forLoop var start limit step)

def foreach (s : Scope) (var : Variable) (iterable : Value) (build : Scope → Scope) : Scope :=
  s.enclose build (.foreach var iterable)

def method (s : Scope) (signature : MethodSignature) (build : Scope → Scope) : Scope :=
  s.enclose build (.method signature)

def constructor (s : Scope) (visibility : Visibility) (className : String) (parameters : List Parameter)
    (build : Scope → Scope) : Scope :=
  s.enclose build (.constructor visibility className parameters)

def cls (s : Scope) (signature : ClassSignature) (build : Scope → Scope) : Scope :=
  s.enclose build (.cls signature)

/-- Appends an empty line unless it would come first or double one. -/
def separate (s : Scope) : Scope :=
  match s.stmts.getLast? with
  | none | some .blank => s
  | some _ => s.push .blank

def nest (s : Scope) (block : Block) (indent : Option Nat := none) : Scope :=
  s.push (.nested block indent)

def beginGroup (s : Scope) : Scope :=
  let s := if 0 < s.groups then s.separate else s
  { s with groups := s.groups + 1 }

def group (s : Scope) (build : Scope → Scope) : Scope := build s.beginGroup

end Scope

end Pipewright
