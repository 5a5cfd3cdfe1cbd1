import Pipewright.ImportScope
import Pipewright.Language.Line

/-!
# The import block

The import statements for the types of an import scope, grouped by package in
the order in which the packages first appear.
-/

namespace Pipewright

inductive ImportedNames where
  | only (names : List String)
  | everything
deriving DecidableEq, Repr

namespace ImportedNames

/-- One more name. Where names may collapse, a package with more than two of them is imported as a whole
when the next type of it comes, and a type named `*` already stands for the whole package. -/
def insert (collapse : Bool) (name : String) : ImportedNames → ImportedNames
  | everything => everything
  | only names =>
    if collapse && names == ["*"] then only names
    else if collapse && 2 < names.length then everything
    else if names.contains name then only names
    else only (names ++ [name])

def toList : ImportedNames → List String
  | everything => ["*"]
  | only names => names

end ImportedNames

abbrev PackageImports := List (String × ImportedNames)

def PackageImports.insert (collapse : Bool) (package name : String) : PackageImports → PackageImports
  | [] => [(package, .only [name])]
  | (p, names) :: rest =>
    if p = package then (p, names.insert collapse name) :: rest
    else (p, names) :: PackageImports.insert collapse package name rest

def PackageImports.of (collapse : Bool) (types : List Ty) : PackageImports :=
  types.foldl (fun groups t => groups.insert collapse t.package t.name) []

namespace Language

variable (l : Language)

/-- The helper that every Lua program defines after its imports. -/
def forEachSmart : String :=
  "function forEachSmart(array, func)\n\tfor i, v in ipairs(array) do\n\t\tfunc(v)\n\tend\nend"

def moduleImport (module : String) (names : List String) : String :=
  match names with
  | [name] => if name = module then s!"import {module}" else s!"import {module} as {name}"
  | _ => s!"from {module} import " ++ ", ".intercalate names

def distinct (items : List String) : List String :=
  items.foldl (fun seen item => if seen.contains item then seen else seen ++ [item]) []

def importedTypes (imports : ImportScope) : List Ty :=
  imports.types.filter fun t =>
    !l.excludesImport t && match l with
      | python => t.shouldImport
      | _ => !t.package.isEmpty

def importBlock (imports : ImportScope) : Except LanguageError String := do
  let types := l.importedTypes imports
  match l with
  | java | kotlin =>
    let groups := PackageImports.of l.collapsesImports types
    let lines ← groups.flatMap (fun (p, names) => names.toList.map (p, ·)) |>.mapM fun (p, name) =>
      l.importDeclaration p name
    return "\n".intercalate lines
  | lua =>
    let lines := distinct (types.map fun t => s!"{t.name} = java.import('{t.package}.{t.name}')")
    return "\n".intercalate (lines ++ [forEachSmart])
  | python =>
    let groups := PackageImports.of false types
    return "\n".intercalate (groups.map fun (m, names) => moduleImport m names.toList)

end Language

end Pipewright
