import Pipewright.Declaration
import Pipewright.Language.Expr
import Pipewright.Text

/-!
# Lines

The text of declarations, simple statements and block headers in each language.
-/

namespace Pipewright

structure DeclarationText where
  above : Option String := none
  line : String
  imports : List Ty := []
deriving Repr

namespace Language

variable (l : Language)

def parameter (p : Parameter) : String :=
  match l with
  | java => (if p.isFinal then "final " else "") ++ s!"{p.ty.spelling} {p.name}"
  | kotlin => s!"{p.name}: {p.ty.spelling}"
  | lua | python => p.name

def parameters (ps : List Parameter) : String :=
  ", ".intercalate (ps.map l.parameter)

/-- The visibility where public is the default. -/
def nonPublic : Visibility → String
  | .isPublic => ""
  | v => v.keyword ++ " "

def initializer (var : Variable) : String :=
  match var.initial.text? with
  | some text => " = " ++ text
  | none => ""

def initialOrNull (var : Variable) : String :=
  var.initial.text?.getD (l.null .empty).text

def labelLine (label : String) : String :=
  "@Label(name = " ++ quote label ++ ")"

def instanceVariable (visibility : Visibility) (var : Variable) (label : Option String) (modifiers : Modifiers) :
    DeclarationText :=
  match l with
  | java =>
    let mods := (if modifiers.isStatic then " static" else "") ++ (if modifiers.isFinal then " final" else "")
    { above := label.map labelLine
      line := s!"{visibility.keyword}{mods} {var.ty.spelling} {var.name}{initializer var};"
      imports := if label.isSome then [Catalog.Java.labelType] else [] }
  | kotlin =>
    let keyword :=
      if modifiers.isFinal then "val" else if var.initial.text?.isSome then "var" else "lateinit var"
    { above := label.map labelLine
      line := s!"{nonPublic visibility}{keyword} {var.name}: {var.ty.spelling}{initializer var}"
      imports := if label.isSome then [Catalog.Java.labelType] else [] }
  | lua =>
    { above := label.map fun text => s!"label({quote text}, {quote var.name})"
      line := s!"{var.name} = {l.initialOrNull var}" }
  | python => { line := s!"{var.name} = {l.initialOrNull var}" }

def localVariable (var : Variable) (isFinal : Bool) : String :=
  match l with
  | java => (if isFinal then "final " else "") ++ s!"{var.ty.spelling} {var.name}{initializer var};"
  | kotlin => (if isFinal then "val " else "var ") ++ s!"{var.name}: {var.ty.spelling}{initializer var}"
  | lua => s!"local {var.name} = {l.initialOrNull var}"
  | python => s!"{var.name} = {l.initialOrNull var}"

def assignment (target : Variable) (value : Value) : String :=
  s!"{target.name} = {value.text}{l.semicolon}"

def elementAssignment (target : Variable) (index value : Value) : String :=
  s!"{target.name}[{index.text}] = {value.text}{l.semicolon}"

def instanceAssignment (target : Variable) (value : Value) : String :=
  match l with
  | java | kotlin => s!"this.{target.name} = {value.text}{l.semicolon}"
  | lua | python => l.assignment target value

def call (method : String) (args : List Value) : String :=
  s!"{method}({Value.commaSeparated args}){l.semicolon}"

def staticCall (cls : Ty) (method : String) (args : List Value) : String :=
  s!"{cls.name}{l.methodMark}{method}({Value.commaSeparated args}){l.semicolon}"

def methodCall (callee : Value) (method : String) (args : List Value) : String :=
  s!"{callee.text}{l.methodMark}{method}({Value.commaSeparated args}){l.semicolon}"

def streamFrame (id mat : Value) (conversion : Option Value) : Except LanguageError String :=
  let args := [id, mat, conversion.getD (l.null l.voidType)]
  match l with
  | java | kotlin => .ok (l.call "streamFrame" args)
  | lua => .ok (l.call "stream" args)
  | python => .error (.unsupported l .streamFrame)

def returnLine : Option Value → String
  | some value => s!"return {value.text}{l.semicolon}"
  | none => s!"return{l.semicolon}"

def constructorHeader (visibility : Visibility) (className : String) (ps : List Parameter) :
    Except LanguageError String :=
  match l with
  | java => .ok s!"{visibility.keyword} {className}({l.parameters ps})"
  | kotlin => .ok s!"{nonPublic visibility}constructor({l.parameters ps})"
  | lua | python => .error (.unsupported l .constructors)

/-- Whether a method of this type returns nothing, so that Kotlin leaves the type out. -/
def isUnit (ty : Ty) : Bool :=
  ty == Catalog.Kotlin.unit || ty.name == "void"

def methodHeader (m : MethodSignature) : DeclarationText :=
  let params := l.parameters m.parameters
  match l with
  | java =>
    let mods := (if m.modifiers.isSynchronized then "synchronized " else "") ++
      (if m.modifiers.isStatic then "static " else "") ++ (if m.modifiers.isFinal then "final " else "")
    { above := if m.modifiers.isOverride then some "@Override" else none
      line := s!"{m.visibility.keyword} {mods}{m.returns.spelling} {m.name}({params})" }
  | kotlin =>
    let overrides := if m.modifiers.isOverride then "override " else ""
    let opening := if m.modifiers.isFinal || m.visibility = .isPrivate then "" else "open "
    let returns := if isUnit m.returns then "" else ": " ++ m.returns.spelling
    { above := if m.modifiers.isSynchronized then some "@Synchronized" else none
      line := s!"{overrides}{nonPublic m.visibility}{opening}fun {m.name}({params}){returns}" }
  | lua => { line := s!"function {m.name}({params})" }
  | python => { line := s!"def {m.name}({params})" }

def ifHeader (condition : Value) : String :=
  match l with
  | java | kotlin => s!"if({condition.text})"
  | lua => s!"if {condition.text} then"
  | python => s!"if {condition.text}"

def whileHeader (condition : Value) : String :=
  match l with
  | java | kotlin => s!"while({condition.text})"
  | lua => s!"while {condition.text} do"
  | python => s!"while {condition.text}"

def otherStep? (step : Option Value) : Option String :=
  (step.bind Value.text?).filter (· != "1")

/-- A counting loop with an exclusive limit. Lua's own limit is inclusive, so it is one lower there. -/
def forHeader (var : Variable) (start limit : Value) (step : Option Value) : String :=
  let name := var.name
  match l with
  | java =>
    let next := match otherStep? step with
      | some text => " += " ++ text
      | none => "++"
    s!"for({var.ty.spelling} {name} = {start.text} ; {name} < {limit.text} ; {name}{next})"
  | kotlin =>
    let by_ := match otherStep? step with
      | some text => " step " ++ text
      | none => ""
    s!"for({name} in {start.operandText} until {limit.operandText}{by_})"
  | lua =>
    let by_ := match otherStep? step with
      | some text => ", " ++ text
      | none => ""
    s!"for {name} = {start.text}, {limit.operandText} - 1{by_} do"
  | python =>
    let by_ := match otherStep? step with
      | some text => ", " ++ text
      | none => ""
    s!"for {name} in range({start.text}, {limit.text}{by_})"

def foreachHeader (var : Variable) (iterable : Value) : String :=
  match l with
  | java => s!"for({var.ty.spelling} {var.name} : {iterable.text})"
  | kotlin => s!"for({var.name} in {iterable.text})"
  | lua => s!"for _, {var.name} in ipairs(java.luaify({iterable.text})) do"
  | python => s!"for {var.name} in {iterable.text}"

def classHeader (c : ClassSignature) : Except LanguageError String :=
  match l with
  | java =>
    let mods := (if c.modifiers.isStatic then "static " else "") ++ (if c.modifiers.isFinal then "final " else "")
    let parent := match c.parent with
      | some ty => " extends " ++ ty.spelling
      | none => ""
    let interfaces :=
      if c.interfaces.isEmpty then "" else " implements " ++ ", ".intercalate (c.interfaces.map Ty.spelling)
    .ok s!"{c.visibility.keyword} {mods}class {c.name}{parent}{interfaces}"
  | kotlin =>
    let opening := if c.modifiers.isFinal then "" else "open "
    let supertypes := (c.parent.map (·.spelling ++ "()")).toList ++ c.interfaces.map Ty.spelling
    let supertypes := if supertypes.isEmpty then "" else " : " ++ ", ".intercalate supertypes
    .ok s!"{nonPublic c.visibility}{opening}class {c.name}{supertypes}"
  | lua | python => .error (.unsupported l .classes)

def enumeration (name : String) (values : List String) : String :=
  match l with
  | java => "enum " ++ name ++ " \x7b " ++ ", ".intercalate values ++ " \x7d"
  | kotlin => "enum class " ++ name ++ " \x7b " ++ ", ".intercalate values ++ " \x7d"
  | lua =>
    "local " ++ name ++ " = \x7b\n" ++ String.join (values.map fun v => "\t" ++ v ++ " = " ++ quote v ++ ",\n") ++ "\x7d"
  | python =>
    name ++ " = \x7b\n" ++ String.join (values.map fun v => "\t" ++ quote v ++ ": " ++ quote v ++ ",\n") ++ "\x7d"

def commentMark : Language → String
  | java | kotlin => "// "
  | lua => "-- "
  | python => "# "

def comment (text : String) : String :=
  "\n".intercalate ((lines text).map (l.commentMark ++ ·))

def withoutTail (text : String) : String :=
  String.ofList (dropTail (· == '\n') text.toList)

/-- A header, a body that is rendered one level deeper, and the closing delimiter. Where blocks have no
delimiter an empty body is spelled out. -/
def block (header body : String) (indent : Nat) : String :=
  let lead := tabs indent
  let header := trim header
  match l with
  | java | kotlin => lead ++ header ++ " \x7b\n" ++ body ++ lead ++ "\x7d"
  | lua => lead ++ header ++ "\n" ++ body ++ lead ++ "end"
  | python =>
    if isBlankText body then lead ++ header ++ ":\n" ++ lead ++ "\tpass"
    else lead ++ header ++ ":\n" ++ withoutTail body

def importDeclaration (package name : String) : Except LanguageError String :=
  match l with
  | java | kotlin => .ok s!"import {package}.{name}{l.semicolon}"
  | lua | python => .error (.unsupported l .importDeclarations)

end Language

end Pipewright
