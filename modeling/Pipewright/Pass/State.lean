import Pipewright.GenValue
import Pipewright.Language.ImportBlock
import Pipewright.Pass.Options
import Pipewright.Placeholder.Resolution
import Pipewright.Program

/-!
# The state of a pass

Everything that one generation pass changes: the five scopes, the sessions of
the nodes, flags, names, placeholders and imports. `σ` is whatever else the code
of nodes and the recipes of placeholders share.
-/

namespace Pipewright

inductive Stage where
  | creation
  | initialGen
  | endGen
  | succeeded
  | failed
deriving DecidableEq, Repr, Inhabited

def Stage.text : Stage → String
  | creation => "creation"
  | initialGen => "initial generation"
  | endGen => "end generation"
  | succeeded => "success"
  | failed => "error"

inductive Target where
  | classStart | classEnd | init | processFrame | viewportTapped
deriving DecidableEq, Repr, Inhabited

def Target.all : List Target := [classStart, classEnd, init, processFrame, viewportTapped]

def Target.name : Target → String
  | classStart => "ClassStart"
  | classEnd => "ClassEnd"
  | init => "Init"
  | processFrame => "ProcessFrame"
  | viewportTapped => "ViewportTapped"

inductive Session where
  | mat (m : MatValue)
  | value (v : Value)
  | nothing
  | outputs (values : List (String × GenValue))
deriving Inhabited

abbrev Sessions := List (Nat × Session)

/-- What the recipes of a pass share: the sessions, and the outside state. -/
structure Surroundings (σ : Type) where
  sessions : Sessions
  outside : σ

structure Workspace (σ : Type) where
  classStart : Scope := .new 1
  classEnd : Scope := .new 1
  init : Scope := .new 2
  processFrame : Scope := .new 2
  viewportTapped : Scope := .new 2
  /-- Installed flags, the oldest first. -/
  flags : List String := []
  names : List String := []
  registry : Registry (Surroundings σ)
  imports : ImportScope := .empty
  outside : σ

namespace Workspace

variable {σ : Type}

def scope (w : Workspace σ) : Target → Scope
  | .classStart => w.classStart
  | .classEnd => w.classEnd
  | .init => w.init
  | .processFrame => w.processFrame
  | .viewportTapped => w.viewportTapped

def modifyScope (w : Workspace σ) (f : Scope → Scope) : Target → Workspace σ
  | .classStart => { w with classStart := f w.classStart }
  | .classEnd => { w with classEnd := f w.classEnd }
  | .init => { w with init := f w.init }
  | .processFrame => { w with processFrame := f w.processFrame }
  | .viewportTapped => { w with viewportTapped := f w.viewportTapped }

def hasFlag (w : Workspace σ) (flag : String) : Bool := w.flags.contains flag

def addFlag (w : Workspace σ) (flag : String) : Workspace σ :=
  if w.hasFlag flag then w else { w with flags := w.flags ++ [flag] }

def uniqueName (w : Workspace σ) (name : String) : String :=
  freshName (w.names ++ w.classStart.declared) name

def reserve (w : Workspace σ) (name : String) : Workspace σ := { w with names := w.names ++ [name] }

end Workspace

structure Deferred where
  position : Nat
  id : Nat
deriving DecidableEq, Repr

structure Pass (σ : Type) where
  className : String
  language : Language
  preview : Bool
  stage : Stage := .creation
  work : Workspace σ
  sessions : Sessions := []
  /-- The deferred nodes in the order of their first request. -/
  ending : List Deferred := []
  importMarker : Placeholder

namespace Pass

variable {σ : Type}

/-- The recipe of the import block: it is rendered from the imports of the moment. -/
def importRecipe (l : Language) : Recipe (Surroundings σ) :=
  .look fun v => .give <| match l.importBlock v.imports with
    | .ok text => some (.text text)
    | .error _ => none

def new (options : BuildOptions) (outside : σ) : Pass σ :=
  let (importMarker, registry) := Registry.empty.register .last (importRecipe options.language)
  { className := options.className, language := options.language, preview := options.preview
    work := { registry, outside }, importMarker }

def session? (p : Pass σ) (id : Nat) : Option Session := p.sessions.lookup id

def surroundings (p : Pass σ) : Surroundings σ := ⟨p.sessions, p.work.outside⟩

def defer (p : Pass σ) (d : Deferred) : Pass σ :=
  if p.ending.any (·.id == d.id) then p else { p with ending := p.ending ++ [d] }

end Pass

end Pipewright
