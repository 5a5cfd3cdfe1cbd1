import Pipewright.Pass.Graph

/-!
# Builds

One full pass over a graph: the listed nodes, then the deferred ones, then the
program is assembled and its placeholders are resolved.
-/

namespace Pipewright

structure Build where
  language : Language
  source : String
  /-- The ids of the markers left in the source, in order. -/
  unresolved : List Nat
  cycles : Nat
  flags : List String
deriving Repr

def Build.hasUnresolved (b : Build) : Bool := !b.unresolved.isEmpty

structure BuildError where
  stage : Stage
  cause : GenError
deriving Repr

def BuildError.message (e : BuildError) : String :=
  s!"code generation failed during {e.stage.text}: {e.cause.message}"

namespace Pass

variable {σ : Type}

def program (p : Pass σ) : Program where
  className := p.className
  preview := p.preview
  importMarker := Marker.text p.importMarker.id
  classStart := p.work.classStart.toBlock
  init := p.work.init.toBlock
  processFrame := p.work.processFrame.toBlock
  viewportTapped := p.work.viewportTapped.toBlock
  classEnd := p.work.classEnd.toBlock

def finish (p : Pass σ) : Except GenError Build × Pass σ :=
  let assembled := p.program.assemble p.language
  let imports := p.work.imports.registerAll assembled.uses
  match assembled.result with
  | .error e => (.error (.language none e), { p with work := { p.work with imports } })
  | .ok text =>
    let r := p.work.registry.resolveText text imports p.surroundings
    let work := { p.work with imports := r.progress.imports, outside := r.progress.outside.outside }
    (.ok { language := p.language, source := trim r.text ++ "\n", unresolved := r.unresolved
           cycles := r.progress.cycles.length, flags := p.work.flags },
      { p with stage := .succeeded, work })

end Pass

namespace Graph

variable {σ : Type} (graph : Graph σ)

def generateProgram (order : List Nat) (p : Pass σ) : Except GenError Unit × Pass σ :=
  match graph.generateAll order { p with stage := .initialGen } with
  | (.error e, p) => (.error e, p)
  | (.ok (), p) => graph.generateAll (p.ending.map (·.position)) { p with stage := .endGen, ending := [] }

def run (order : List Nat) (p : Pass σ) : Except GenError Build × Pass σ :=
  match graph.generateProgram order p with
  | (.error e, p) => (.error e, p)
  | (.ok (), p) => p.finish

def build (options : BuildOptions) (order : List Nat) (outside : σ) : Except BuildError Build × Pass σ :=
  match graph.run order (Pass.new options outside) with
  | (.ok b, p) => (.ok b, p)
  | (.error e, p) => (.error ⟨p.stage, e⟩, { p with stage := .failed })

end Graph

end Pipewright
