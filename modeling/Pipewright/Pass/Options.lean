import Pipewright.Language.Basic
import Pipewright.Text

/-!
# Options of a pass

Options come in layers: later ones win where they say something, and the preview
flag stays once it is set.
-/

namespace Pipewright

structure BuildOptions where
  className? : Option String := none
  language? : Option Language := none
  preview : Bool := false
deriving DecidableEq, Repr, Inhabited

namespace BuildOptions

def className (o : BuildOptions) : String := o.className?.getD "VisionPipeline"

def language (o : BuildOptions) : Language := o.language?.getD .java

def merge (o next : BuildOptions) : BuildOptions :=
  { className? := next.className? <|> o.className?
    language? := next.language? <|> o.language?
    preview := o.preview || next.preview }

end BuildOptions

inductive OptionsError where
  | language (cause : LanguageError)
  | emptyClassName
deriving DecidableEq, Repr

def OptionsError.message : OptionsError → String
  | language cause => s!"invalid --lang: {cause.message}"
  | emptyClassName => "--class needs a non-empty name"

/-- The options with one more argument read on top; one that is no option of a pass changes nothing. -/
def BuildOptions.read (o : BuildOptions) (arg : String) : Except OptionsError BuildOptions :=
  match after? "--lang=".toList arg.toList with
  | some name =>
    match Language.ofText (String.ofList name) with
    | .ok l => .ok { o with language? := some l }
    | .error e => .error (.language e)
  | none =>
    match after? "--class=".toList arg.toList with
    | some name =>
      if name.all isBlank then .error .emptyClassName else .ok { o with className? := some (String.ofList name) }
    | none => .ok (if arg = "--previz" then { o with preview := true } else o)

def BuildOptions.ofArguments (args : List String) : Except OptionsError BuildOptions :=
  args.foldlM read {}

end Pipewright
