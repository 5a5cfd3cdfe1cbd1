import Pipewright.Nodes.Demo
import Pipewright.Run

/-!
# The command line

What a run does, as a function of the arguments and of the default options in
the environment.
-/

namespace Pipewright

namespace Command

def version : String := "0.1.0-alpha.3"

def optionsVariable : String := "VGC_OPTIONS"

def usage : String :=
  "VisionGen pipeline generator\n" ++
  "\n" ++
  "Usage: vgc <command> [options]\n" ++
  "\n" ++
  "Commands:\n" ++
  "  generate             Generate the demonstration pipeline\n" ++
  "  languages            List supported target languages\n" ++
  "  help                 Show this help message\n" ++
  "  version              Show version information\n" ++
  "\n" ++
  "Generate options:\n" ++
  "  --lang=<language>    java, kotlin, lua or python (default: java)\n" ++
  "  --class=<Name>       Name of the generated class\n" ++
  "  --previz             Generate for live preview\n" ++
  "  -o <path>            Write to a file instead of stdout\n" ++
  "\n" ++
  "Defaults can be set in the VGC_OPTIONS environment variable.\n" ++
  "Exit status is 2 when placeholders were left unresolved.\n"

def languageList : String :=
  "Supported languages:\n" ++
    String.join (Language.all.map fun l => "  " ++ l.id ++ " ." ++ l.sourceExtension ++ "\n")

/-- The exit status after generating: one for an error, two for a program with markers left in it. -/
def exitStatus : Option Build → Nat
  | none => 1
  | some b => if b.hasUnresolved then 2 else 0

structure Request where
  options : BuildOptions
  output : Option String := none
  /-- Warnings, each a line. -/
  warnings : String := ""

def warning (arg : String) : String := s!"warning: ignoring unknown option '{arg}'\n"

def readArguments : List String → Request → Except (String × OptionsError) Request
  | [], r => .ok r
  | "-o" :: path :: rest, r => readArguments rest { r with output := some path }
  | arg :: rest, r =>
    match BuildOptions.ofArguments [arg] with
    | .error e => .error (r.warnings, e)
    | .ok options =>
      if options = {} then readArguments rest { r with warnings := r.warnings ++ warning arg }
      else readArguments rest { r with options := r.options.merge options }

def environmentOptions : Option String → Except OptionsError BuildOptions
  | none => .ok {}
  | some text => BuildOptions.ofArguments (words isBlank text)

def errorLine (message : String) : String := s!"error: {message}\n"

def unresolvedWarning (b : Build) : String :=
  if b.hasUnresolved then
    s!"warning: {b.unresolved.length} placeholder marker(s) left in the generated source\n"
  else ""

def generate (r : Request) : Run :=
  match Nodes.buildDemo r.options with
  | .error e => .exit { stderr := r.warnings ++ errorLine e.message, status := exitStatus none }
  | .ok b =>
    let done : Outcome := { stderr := unresolvedWarning b, status := exitStatus (some b) }
    match r.output with
    | none => .exit { done with stdout := b.source, stderr := r.warnings ++ done.stderr }
    | some path => .write r.warnings path b.source fun
      | none => done
      | some e => { stderr := errorLine s!"cannot write {path}: {e}", status := exitStatus none }

def runGenerate (args : List String) (environment : Option String) : Run :=
  match environmentOptions environment with
  | .error e => .exit { stderr := errorLine s!"{optionsVariable}: {e.message}", status := 1 }
  | .ok options =>
    match readArguments args { options } with
    | .error (warnings, e) => .exit { stderr := warnings ++ errorLine e.message, status := 1 }
    | .ok r => generate r

def run (args : List String) (environment : Option String) : Run :=
  match args with
  | [] => .exit { stdout := usage }
  | command :: args =>
    match command with
    | "generate" | "gen" => runGenerate args environment
    | "languages" | "--list-languages" => .exit { stdout := languageList }
    | "help" | "--help" | "-h" => .exit { stdout := usage }
    | "version" | "--version" | "-V" => .exit { stdout := s!"vgc {version}\n" }
    | other => .exit { stdout := usage, stderr := s!"Unknown command: {other}\n\n", status := 1 }

end Command

end Pipewright
