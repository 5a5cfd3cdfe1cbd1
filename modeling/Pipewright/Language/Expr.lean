import Pipewright.ColorSpace
import Pipewright.Language.Literal

/-!
# Expressions

How each language combines values. The result of a combination imports whatever
its operands import.
-/

namespace Pipewright.Language

variable (l : Language)

def condition (text : String) : Value := .condition l.booleanType text

def relational (left : Value) (operator : String) (right : Value) : Value :=
  (l.condition s!"{left.text} {operator} {right.text}").withImportsOf [left, right]

def lessThan (left right : Value) : Value := l.relational left "<" right
def lessOrEqual (left right : Value) : Value := l.relational left "<=" right
def greaterThan (left right : Value) : Value := l.relational left ">" right
def greaterOrEqual (left right : Value) : Value := l.relational left ">=" right
def equals (left right : Value) : Value := l.relational left "==" right

def notEquals (left right : Value) : Value :=
  l.relational left (match l with | lua => "~=" | _ => "!=") right

def objectEquals (left right : Value) : Value :=
  match l with
  | java => (l.condition s!"{left.text}.equals({right.text})").withImportsOf [left, right]
  | _ => l.relational left "==" right

def spellsLogic : Language → Bool
  | java | kotlin => false
  | lua | python => true

def connective (left : Value) (operator : String) (right : Value) : Value :=
  (l.condition s!"({left.text}) {operator} ({right.text})").withImportsOf [left, right]

def both (left right : Value) : Value := l.connective left (if l.spellsLogic then "and" else "&&") right
def either (left right : Value) : Value := l.connective left (if l.spellsLogic then "or" else "||") right

def negation (operand : Value) : Value :=
  (l.condition ((if l.spellsLogic then "not " else "!") ++ "(" ++ operand.text ++ ")")).withImportsOf [operand]

/-- The type of an arithmetic expression: the widest of double, float and long among its operands, else int. -/
def numberType (a b : Ty) : Ty :=
  if a == l.doubleType || b == l.doubleType then l.doubleType
  else if a == l.floatType || b == l.floatType then l.floatType
  else if a == l.longType || b == l.longType then l.longType
  else l.intType

def arithmetic (a : Value) (operator : String) (b : Value) : Value :=
  (Value.operation (l.numberType a.ty b.ty) s!"{a.operandText} {operator} {b.operandText}").withImportsOf [a, b]

def sum (a b : Value) : Value := l.arithmetic a "+" b
def difference (a b : Value) : Value := l.arithmetic a "-" b
def product (a b : Value) : Value := l.arithmetic a "*" b
def quotient (a b : Value) : Value := l.arithmetic a "/" b

def newInstance (ty : Ty) (args : List Value) : Value :=
  let callee := match l with
    | java => "new " ++ ty.name ++ (if ty.generics.isEmpty then "" else "<>")
    | kotlin => ty.spelling
    | lua | python => ty.name
  (Value.new ty s!"{callee}({Value.commaSeparated args})").withImportsOf args

def arrayOf (ty : Ty) : Ty :=
  match l with
  | java | lua => ((Ty.of (ty.spelling ++ "[]") ty.package).importedAs ty.importTarget).asArray
  | kotlin => ((Ty.builtin "Array").withGenerics [ty]).asArray
  | python => ty

def newArray (ty : Ty) (size : Value) : Value :=
  match l with
  | java => (Value.new (l.arrayOf ty) s!"new {ty.name}[{size.text}]").withImportsOf [size]
  | kotlin => (Value.new (l.arrayOf ty) s!"arrayOfNulls<{ty.spelling}>({size.text})").withImportsOf [size]
  | lua => ((Value.new (l.arrayOf ty) s!"java.array({ty.name}, {size.text})").withImports [ty]).withImportsOf [size]
  | python => .new (l.arrayOf ty) "[]"

def newArrayOf (ty : Ty) (values : List Value) : Value :=
  let items := Value.commaSeparated values
  (Value.new (l.arrayOf ty) <| match l with
    | java => "new " ++ ty.name ++ "[] \x7b " ++ items ++ " \x7d"
    | kotlin => "arrayOf(" ++ items ++ ")"
    | lua => "\x7b " ++ items ++ " \x7d"
    | python => "[" ++ items ++ "]").withImportsOf values

def arraySize (array : Value) : Value :=
  (Value.new l.intType <| match l with
    | java => array.text ++ ".length"
    | kotlin => array.text ++ ".size"
    | lua => "#" ++ array.text
    | python => "len(" ++ array.text ++ ")").withImportsOf [array]

def arrayValue (source index : Value) (ty : Ty) : Value :=
  (Value.new ty s!"{source.text}[{index.text}]").withImportsOf [source, index]

def methodMark : Language → String
  | lua => ":"
  | _ => "."

def staticCallValue (cls : Ty) (method : String) (returns : Ty) (args : List Value) : Value :=
  ((Value.new returns s!"{cls.name}{l.methodMark}{method}({Value.commaSeparated args})").withImports
    [cls]).withImportsOf args

def methodCallValue (callee : Value) (method : String) (returns : Ty) (args : List Value) : Value :=
  ((Value.new returns s!"{callee.text}{l.methodMark}{method}({Value.commaSeparated args})").withImportsOf
    [callee]).withImportsOf args

def propertyValue (source : Value) (property : String) (ty : Ty) : Value :=
  (Value.new ty s!"{source.text}.{property}").withImportsOf [source]

def enumValue (ty : Ty) (constant : String) : Value :=
  .new ty <| match l with
    | python => s!"{ty.name}[{quote constant}]"
    | _ => s!"{ty.name}.{constant}"

def colorConversion (source target : ColorSpace) : Value :=
  let (a, b) := source.conversionNames target
  match l with
  | python => (Value.new Catalog.Python.noType s!"cv2.COLOR_{a}2{b}").withImports [Catalog.Python.cv2]
  | _ => (Value.new l.intType s!"Imgproc.COLOR_{a}2{b}").withImports [Catalog.OpenCv.imgproc]

def cvTypeConstant (name : String) : Value :=
  match l with
  | python => (Value.new Catalog.Python.noType s!"cv2.{name}").withImports [Catalog.Python.cv2]
  | _ => (Value.new l.intType s!"CvType.{name}").withImports [Catalog.OpenCv.cvType]

end Pipewright.Language

/-! ## Expressions that only Python has -/

namespace Pipewright.Python

def tuple (values : List Value) : Value :=
  (Value.new Catalog.Python.noType s!"({Value.commaSeparated values})").withImportsOf values

def namedArgument (name : String) (value : Value) : Value :=
  (Value.new Catalog.Python.noType s!"{name}={value.text}").withImportsOf [value]

/-- `start:stop:step`, each part if it is there. -/
def slice (start stop step : Option Value) : Value :=
  let part (v : Option Value) : String := (v.map Value.text).getD ""
  .new Catalog.Python.noType (part start ++ ":" ++ part stop ++ (match step with
    | some v => ":" ++ v.text
    | none => ""))

def isType (value : Value) (ty : Ty) : Value :=
  (Language.python.condition s!"{value.text} is {ty.name}").withImportsOf [value]

def isNotType (value : Value) (ty : Ty) : Value :=
  (Language.python.condition s!"{value.text} is not {ty.name}").withImportsOf [value]

end Pipewright.Python
