import Pipewright.Catalog

/-!
# Target languages

The four languages a program can be written in, what each of them can express,
and the types it gives to literals.
-/

namespace Pipewright

inductive Language where
  | java | kotlin | lua | python
deriving DecidableEq, Repr, Inhabited

inductive Feature where
  | classes
  | constructors
  | streamFrame
  /-- One import statement per class. -/
  | importDeclarations
deriving DecidableEq, Repr

def Feature.all : List Feature := [classes, constructors, streamFrame, importDeclarations]

def Feature.construct : Feature → String
  | classes => "class declaration"
  | constructors => "constructor declaration"
  | streamFrame => "frame streaming"
  | importDeclarations => "import declaration"

namespace Language

def all : List Language := [java, kotlin, lua, python]

def id : Language → String
  | java => "java"
  | kotlin => "kotlin"
  | lua => "lua"
  | python => "python"

def sourceExtension : Language → String
  | java => "java"
  | kotlin => "kt"
  | lua => "lua"
  | python => "py"

def usesSemicolon : Language → Bool
  | java => true
  | _ => false

def semicolon (l : Language) : String := if l.usesSemicolon then ";" else ""

def inClass : Language → Bool
  | java | kotlin => true
  | _ => false

def collapsesImports : Language → Bool
  | lua => false
  | _ => true

def supports : Language → Feature → Bool
  | java, _ | kotlin, _ => true
  | lua, f => f = .streamFrame
  | python, _ => false

def booleanType : Language → Ty
  | java | lua => Catalog.boolean
  | kotlin => Catalog.Kotlin.boolean
  | python => .builtin "bool"

def intType : Language → Ty
  | java | lua => Catalog.int
  | kotlin => Catalog.Kotlin.int
  | python => Catalog.Python.noType

def longType : Language → Ty
  | java | lua => Catalog.long
  | kotlin => Catalog.Kotlin.long
  | python => Catalog.Python.noType

def floatType : Language → Ty
  | java | lua => Catalog.float
  | kotlin => Catalog.Kotlin.float
  | python => Catalog.Python.noType

def doubleType : Language → Ty
  | java | lua => Catalog.double
  | kotlin => Catalog.Kotlin.double
  | python => Catalog.Python.noType

def voidType : Language → Ty
  | java | lua => Catalog.void
  | kotlin => Catalog.Kotlin.unit
  | python => Catalog.Python.noType

def stringType : Language → Ty
  | python => .builtin "str"
  | _ => Catalog.Java.string

def types (l : Language) : List (String × Ty) :=
  [("boolean", l.booleanType), ("int", l.intType), ("long", l.longType), ("float", l.floatType),
    ("double", l.doubleType), ("void", l.voidType), ("string", l.stringType)]

def excludedImports : Language → List Ty
  | java | lua => [Catalog.Java.string]
  | kotlin => [Catalog.Java.string, Catalog.Kotlin.unit]
  | python => []

def excludesImport (l : Language) (t : Ty) : Bool :=
  l.excludedImports.contains t.importTarget

end Language

inductive LanguageError where
  | unsupported (language : Language) (feature : Feature)
  | unknownLanguage (text : String)
deriving DecidableEq, Repr

def LanguageError.message : LanguageError → String
  | unsupported l f => s!"{f.construct} is not supported by the {l.id} backend"
  | unknownLanguage text =>
    "unknown language \x60" ++ text ++ "\x60 (expected one of: java, kotlin, lua, python)"

def Language.ofText (text : String) : Except LanguageError Language :=
  match text.map Char.toLower with
  | "java" => .ok .java
  | "kotlin" | "kt" => .ok .kotlin
  | "lua" => .ok .lua
  | "python" | "py" | "cpython" => .ok .python
  | _ => .error (.unknownLanguage text)

end Pipewright
