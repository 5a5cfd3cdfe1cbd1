import Pipewright.Command

/-!
# The program

Reads the arguments and the environment, and does what the command says.
-/

open Pipewright

def report (outcome : Outcome) : IO UInt32 := do
  (← IO.getStdout).putStr outcome.stdout
  (← IO.getStderr).putStr outcome.stderr
  return outcome.status.toUInt32

def describe : IO.Error → String
  | .noFileOrDirectory _ code _ | .permissionDenied _ code _ | .inappropriateType _ code _ | .noSuchThing _ code _
  | .resourceExhausted _ code _ | .invalidArgument _ code _ | .interrupted _ code _ | .alreadyExists _ code _
  | .resourceBusy code _ | .hardwareFault code _ | .illegalOperation code _ | .unsupportedOperation code _
  | .unsatisfiedConstraints code _ | .otherError code _ => systemError code.toNat
  | e => toString e

def main (args : List String) : IO UInt32 := do
  match Command.run args (← IO.getEnv Command.optionsVariable) with
  | .exit outcome => report outcome
  | .write warnings path content k =>
    (← IO.getStderr).putStr warnings
    let failure ← try
        IO.FS.withFile path .write fun file => do
          file.putStr content
          file.flush
        pure none
      catch e => pure (some (describe e))
    report (k failure)
