import Pipewright.Text

/-!
# File trees

What becomes of a write to a path in a tree of directories. The path is walked
name by name, and every name but the last has to lead to a directory. The last
one may be new; where it leads to a device, the device decides.
-/

namespace Pipewright

def systemError (code : Nat) : String :=
  let text := match code with
    | 1 => "Operation not permitted"
    | 2 => "No such file or directory"
    | 5 => "Input/output error"
    | 6 => "No such device or address"
    | 13 => "Permission denied"
    | 20 => "Not a directory"
    | 21 => "Is a directory"
    | 22 => "Invalid argument"
    | 26 => "Text file busy"
    | 27 => "File too large"
    | 28 => "No space left on device"
    | 30 => "Read-only file system"
    | 36 => "File name too long"
    | 40 => "Too many levels of symbolic links"
    | _ => "Unknown error " ++ toString code
  s!"{text} (os error {code})"

inductive FileError where
  | notFound
  | noDevice
  | notPermitted
  | notDirectory
  | isDirectory
  | noSpace
  | nameTooLong
deriving DecidableEq, Repr

namespace FileError

def code : FileError → Nat
  | notFound => 2
  | noDevice => 6
  | notPermitted => 13
  | notDirectory => 20
  | isDirectory => 21
  | noSpace => 28
  | nameTooLong => 36

def message (e : FileError) : String := systemError e.code

end FileError

inductive Sink where
  | nowhere
  | stdout
  | stderr
deriving DecidableEq, Repr

inductive FileTree where
  | file
  /-- A device takes what is written to it, or fails. -/
  | device (taken : Except FileError Sink)
  /-- A directory with its entries, and what making a new one fails with, if that cannot be done. -/
  | directory (entries : List (String × FileTree)) (refusal : Option FileError)

abbrev Place := List String

inductive Destination where
  | file (place : Place)
  | sink (sink : Sink)
deriving DecidableEq, Repr

namespace FileTree

def at? : FileTree → Place → Option FileTree
  | t, [] => some t
  | directory entries _, name :: rest =>
    match entries.lookup name with
    | some t => t.at? rest
    | none => none
  | _, _ :: _ => none

def nameLimit : Nat := 255

def pathLimit : Nat := 4095

def step (here : Place) (name : String) : Except FileError Place :=
  if name = "." then .ok here
  else if name = ".." then .ok here.dropLast
  else if nameLimit < name.utf8ByteSize then .error .nameTooLong
  else .ok (here ++ [name])

def walk (tree : FileTree) : Place → List String → Except FileError Place
  | here, [] => .ok here
  | here, name :: rest =>
    match step here name with
    | .error e => .error e
    | .ok next =>
      match tree.at? next with
      | some (directory ..) => tree.walk next rest
      | some _ => .error .notDirectory
      | none => .error .notFound

def create (tree : FileTree) (folder : Place) (name : String) : Except FileError Destination := do
  let place ← step folder name
  match tree.at? place, tree.at? folder with
  | some (directory ..), _ => .error .isDirectory
  | some (device taken), _ => return .sink (← taken)
  | some file, _ => return .file place
  | none, some (directory _ (some refusal)) => .error refusal
  | none, _ => return .file place

/-- What a write to a path reaches, for relative paths from `here`. A path that ends in a slash names a directory. -/
def destination (tree : FileTree) (here : Place) (path : String) : Except FileError Destination := do
  let names := words (· == '/') path
  let start := if path.toList.head? = some '/' then [] else here
  if path.isEmpty then .error .notFound
  else if pathLimit < path.utf8ByteSize then .error .nameTooLong
  else
    let folder ← tree.walk start names.dropLast
    match names.getLast? with
    | some name => if path.toList.getLast? = some '/' then .error .isDirectory else tree.create folder name
    | none => .error .isDirectory

end FileTree

end Pipewright
