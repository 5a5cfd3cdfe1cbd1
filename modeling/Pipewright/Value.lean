import Pipewright.Ty

/-!
# Expressions of the generated program

A value is the text of an expression with its type and the types its use asks to
import. A value without text stands for a declaration without initializer.
-/

namespace Pipewright

inductive ValueKind where
  | constant
  | condition
  /-- An arithmetic expression, in parentheses when it is an operand. -/
  | operation
  | variable
  | parameter
deriving DecidableEq, Repr

def ValueKind.name : ValueKind → String
  | .constant => "Constant"
  | .condition => "Condition"
  | .operation => "Operation"
  | .variable => "Variable"
  | .parameter => "Parameter"

structure Value where
  ty : Ty
  text? : Option String
  kind : ValueKind
  /-- Imports beside those of the type, no two equal. -/
  extra : List Ty
deriving Repr

namespace Value

def mkKind (ty : Ty) (text : String) (kind : ValueKind) : Value :=
  ⟨ty, some text, kind, []⟩

def new (ty : Ty) (text : String) : Value := mkKind ty text .constant

def uninit (ty : Ty) : Value := ⟨ty, none, .constant, []⟩

def raw (text : String) : Value := new .empty text

def condition (ty : Ty) (text : String) : Value := mkKind ty text .condition

def operation (ty : Ty) (text : String) : Value := mkKind ty text .operation

def absent : Value := uninit .empty

instance : Inhabited Value := ⟨absent⟩

instance : BEq Value where
  beq a b := a.ty == b.ty && a.text? == b.text? && a.kind == b.kind && a.extra == b.extra

def addImport (types : List Ty) (t : Ty) : List Ty :=
  if types.contains t then types else types ++ [t]

def withImports (v : Value) (types : List Ty) : Value :=
  { v with extra := types.foldl addImport v.extra }

/-- The types to import for the value to compile: its own, the arguments of that, and the extra ones. -/
def imports (v : Value) : List Ty :=
  (v.ty :: v.ty.generics ++ v.extra).filter Ty.shouldImport

def withImportsOf (v : Value) (values : List Value) : Value :=
  v.withImports (values.flatMap imports)

def text (v : Value) : String :=
  v.text?.getD ""

def operandText (v : Value) : String :=
  if v.kind = .operation then "(" ++ v.text ++ ")" else v.text

def isAbsent (v : Value) : Bool :=
  v.text?.isNone && v.ty.isEmpty

def isCondition (v : Value) : Bool :=
  v.kind == .condition

def commaSeparated (values : List Value) : String :=
  ", ".intercalate (values.map text)

end Value

end Pipewright
