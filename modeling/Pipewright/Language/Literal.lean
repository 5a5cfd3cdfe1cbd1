import Pipewright.Decimal.Reader
import Pipewright.Decimal.Shortest
import Pipewright.Language.Basic
import Pipewright.Text

/-!
# Literals

Constants as each language spells them, and the conversion of a value to a
number type: a literal when its text is one, a cast otherwise.
-/

namespace Pipewright.Language

variable (l : Language)

def boolean (value : Bool) : Value :=
  .new l.booleanType <| match l, value with
    | python, true => "True"
    | python, false => "False"
    | _, true => "true"
    | _, false => "false"

def null (ty : Ty) : Value :=
  .new ty <| match l with
    | java | kotlin => "null"
    | lua => "nil"
    | python => "None"

def int (value : Int) : Value :=
  .new l.intType (toString value)

def long (value : Int) : Value :=
  match l with
  | python => l.int value
  | _ => .new l.longType (toString value ++ "L")

def float (value : Single) : Value :=
  .new l.floatType <| match l with
    | python => decimalLiteral value.text
    | _ => decimalLiteral value.text ++ "f"

def double (value : Double) : Value :=
  .new l.doubleType (decimalLiteral value.text)

def string (text : String) : Value :=
  .new l.stringType (quote text)

def callValue (method : String) (returns : Ty) (args : List Value) : Value :=
  (Value.new returns s!"{method}({Value.commaSeparated args})").withImportsOf args

def cast (value : Value) (ty : Ty) : Value :=
  (Value.new ty <| match l with
    | java => s!"(({ty.spelling}) ({value.text}))"
    | kotlin => s!"({value.text} as {ty.spelling})"
    | lua | python => value.text).withImportsOf [value]

/-- The characters of a value's text without blanks around it, nor the suffix letters at its end. -/
def numeral (suffixes : List Char) (value : Value) : Option (List Char) :=
  value.text?.map fun text => dropTail suffixes.contains (trim text).toList

def intOf (value : Value) : Value :=
  match l with
  | python => callValue "int" l.intType [value]
  | _ =>
    match (numeral [] value).bind readInt64 with
    | some n => l.int n
    | none => l.cast value l.intType

def longOf (value : Value) : Value :=
  match l with
  | python => l.intOf value
  | _ =>
    match (numeral ['l', 'L'] value).bind readInt64 with
    | some n => l.long n
    | none => l.cast value l.longType

def floatOf (value : Value) : Value :=
  match l with
  | python => callValue "float" l.floatType [value]
  | _ =>
    match (numeral ['f', 'F'] value).bind Binary.read? with
    | some x => l.float x
    | none => l.cast value l.floatType

def doubleOf (value : Value) : Value :=
  match l with
  | python => l.floatOf value
  | _ =>
    match (numeral ['d', 'D'] value).bind Binary.read? with
    | some x => l.double x
    | none => l.cast value l.doubleType

end Pipewright.Language
