import Pipewright.FileTree

/-!
# Runs of the program

What a run prints, writes and exits with. The attempt to write a file is left to
whoever carries out the run; in a file tree the whole run is a value.
-/

namespace Pipewright

structure Outcome where
  stdout : String := ""
  stderr : String := ""
  status : Nat := 0
deriving DecidableEq, Repr, Inhabited

/-- A run up to the point where it may have to write a file. -/
inductive Run where
  | exit (outcome : Outcome)
  /-- Prints warnings and writes a file; the rest depends on the error of that, if there is one. -/
  | write (warnings path content : String) (k : Option String → Outcome)

namespace Run

def inTree (tree : FileTree) (here : Place) : Run → Outcome × Option (Place × String)
  | exit outcome => (outcome, none)
  | write warnings path content k =>
    let after (failure : Option String) (stdout stderr : String) : Outcome :=
      let rest := k failure
      { rest with stdout := stdout ++ rest.stdout, stderr := warnings ++ stderr ++ rest.stderr }
    match tree.destination here path with
    | .error e => (after (some e.message) "" "", none)
    | .ok (.file place) => (after none "" "", some (place, content))
    | .ok (.sink .nowhere) => (after none "" "", none)
    | .ok (.sink .stdout) => (after none content "", none)
    | .ok (.sink .stderr) => (after none "" content, none)

end Run

end Pipewright
