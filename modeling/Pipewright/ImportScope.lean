import Pipewright.Value

/-!
# The imports of a program

The types a program must import, each once, in the order of their first
registration. What is stored is the import target of the type in use.
-/

namespace Pipewright

structure ImportScope where
  types : List Ty
deriving Repr

namespace ImportScope

def empty : ImportScope := ⟨[]⟩

instance : Inhabited ImportScope := ⟨empty⟩

def contains (s : ImportScope) (t : Ty) : Bool :=
  s.types.contains t.importTarget

def lacks (s : ImportScope) (t : Ty) : Bool :=
  t.shouldImport && !s.contains t

def register (s : ImportScope) (t : Ty) : ImportScope :=
  if s.lacks t then ⟨s.types ++ [t.importTarget]⟩ else s

def registerAll (s : ImportScope) (types : List Ty) : ImportScope :=
  types.foldl register s

def registerValue (s : ImportScope) (v : Value) : ImportScope :=
  s.registerAll v.imports

def registerValues (s : ImportScope) (values : List Value) : ImportScope :=
  s.registerAll (values.flatMap Value.imports)

def size (s : ImportScope) : Nat := s.types.length

def truncate (s : ImportScope) (count : Nat) : ImportScope :=
  ⟨s.types.take count⟩

end ImportScope

end Pipewright
