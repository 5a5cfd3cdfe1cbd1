import Pipewright.Language.ImportBlock
import Pipewright.Render
import Pipewright.Scope.Builder
import Pipewright.Text

/-!
# Programs

How the five scopes of a pipeline become one program: a class with its entry
points, or the same members at top level, or a single function.
-/

namespace Pipewright

structure Program where
  className : String
  preview : Bool
  importMarker : String
  classStart : Block
  init : Block
  processFrame : Block
  viewportTapped : Block
  classEnd : Block

namespace Program

variable (p : Program)

def overriding : Modifiers := { isOverride := true }

def members (l : Language) : Scope :=
  let s := Scope.new 1
  let s := if p.classStart.isEmpty then s else (s.nest p.classStart).separate
  let s := if p.init.isEmpty then s
    else (s.push (.method
      { visibility := .isPublic, returns := l.voidType, name := "init"
        parameters := [{ ty := Catalog.OpenCv.mat, name := "input" }], modifiers := overriding } p.init)).separate
  let s := s.push (.method
    { visibility := .isPublic, returns := Catalog.OpenCv.mat, name := "processFrame"
      parameters := [{ ty := Catalog.OpenCv.mat, name := "input" }], modifiers := overriding } p.processFrame)
  let s := if p.viewportTapped.isEmpty then s
    else s.separate.push (.method
      { visibility := .isPublic, returns := l.voidType, name := "onViewportTapped", modifiers := overriding }
      p.viewportTapped)
  if p.classEnd.isEmpty then s else s.nest p.classEnd

def opening : Scope := ((Scope.new 0).write p.importMarker).separate

def scope : Language → Scope
  | .python =>
    let s := p.opening
    let s := if p.classStart.isEmpty then s else (s.nest p.classStart (some 0)).separate
    let s := if p.init.isEmpty then s else (s.nest p.init (some 0)).separate
    let s := s.push (.method
      { visibility := .isPublic, returns := Catalog.Python.noType, name := "runPipeline"
        parameters := [{ ty := Catalog.Python.noType, name := "input" },
          { ty := Catalog.Python.noType, name := "llrobot" }] } p.processFrame)
    if p.classEnd.isEmpty then s else s.nest p.classEnd (some 0)
  | l =>
    let body := (p.members l).toBlock
    if l.inClass then
      let parent := if p.preview then Catalog.OpenCv.streamablePipeline else Catalog.OpenCv.pipeline
      p.opening.push (.cls
        { visibility := .isPublic, name := validIdentifier p.className, parent := some parent } body)
    else p.opening.nest body (some 0)

def assemble (l : Language) : Rendered String :=
  RenderStyle.block ⟨l, p.preview⟩ (p.scope l).toBlock

end Program

end Pipewright
