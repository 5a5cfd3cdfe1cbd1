import Pipewright.Nodes.Image

/-!
# Contour nodes

The outlines of the regions of a mask, and the rectangles around them.
-/

namespace Pipewright.Nodes

variable {σ : Type}

def contoursRef (id : Nat) : NodeRef := ⟨id, "Find Contours"⟩

def contours (id : Nat) (source : Source) : Node σ where
  ref := contoursRef id
  code := do
    let l ← Gen.language
    let pin := (contoursRef id).pin "input"
    let m ← Gen.matOf source "output" pin
    m.requireBinary pin
    match l with
    | .python =>
      let found := l.staticCallValue Catalog.Python.cv2 "findContours" Catalog.Python.noType
        [m.value, Catalog.Python.constant "RETR_EXTERNAL", Catalog.Python.constant "CHAIN_APPROX_SIMPLE"]
      -- the call gives the contours and their hierarchy
      let first := (Value.new Catalog.Python.noType s!"{found.text}[0]").withImportsOf [found]
      let result ← Gen.uniqueVariable "contours" first
      Gen.append (·.localVariable result)
      return .value result.reference
    | _ =>
      let result ← Gen.uniqueVariable "contours" (l.newInstance (Catalog.Java.arrayList Catalog.OpenCv.matOfPoint) [])
      let hierarchy ← Gen.uniqueVariable "hierarchy" (l.newInstance Catalog.OpenCv.mat [])
      Gen.group fun s => (s.instanceVariable .isPrivate result).instanceVariable .isPrivate hierarchy
      Gen.append fun s =>
        ((s.methodCall result.reference "clear" []).methodCall hierarchy.reference "release" []).staticCall
          Catalog.OpenCv.imgproc "findContours"
          [m.value, result.reference, hierarchy.reference, Catalog.OpenCv.constant "RETR_EXTERNAL",
            Catalog.OpenCv.constant "CHAIN_APPROX_SIMPLE"]
      return .value result.reference

def boundingRectsRef (id : Nat) : NodeRef := ⟨id, "Bounding Rects"⟩

def boundingRectsLanguages : List Language := [.java, .python]

def targetName (l : Language) (label : String) (index : Variable) : Value :=
  .operation l.stringType s!"{quote label} + {index.name}"

def publishing (l : Language) (label : String) (rects : Variable) (s : Scope) : Scope :=
  let index := Variable.typed l.intType "i"
  let count := l.methodCallValue rects.reference "size" l.intType []
  let rect := l.methodCallValue rects.reference "get" Catalog.OpenCv.rect [index.reference]
  s.forLoop index (l.int 0) count none (Targets.addRect (targetName l label index) rect)

/-- The rectangle around each contour; with a label, also as targets. -/
def boundingRects (id : Nat) (source : Source) (label : Option String) : Node σ where
  ref := boundingRectsRef id
  code := Gen.forLanguage (boundingRectsRef id) boundingRectsLanguages fun l => do
    let found ← (← Gen.outputOf source "contours").asRuntimeList ((boundingRectsRef id).pin "contours") .points
    match l with
    | .python =>
      let all := (Value.new Catalog.Python.noType s!"[cv2.boundingRect(contour) for contour in {found.text}]").withImports
        [Catalog.Python.cv2]
      let rects ← Gen.uniqueVariable "rects" all
      Gen.append (·.localVariable rects)
      return .value rects.reference
    | _ =>
      if label.isSome then Gen.enableTargets (boundingRectsRef id)
      let rects ← Gen.uniqueVariable "rects" (l.newInstance (Catalog.Java.arrayList Catalog.OpenCv.rect) [])
      Gen.group (·.instanceVariable .isPrivate rects)
      let contour := Variable.typed Catalog.OpenCv.matOfPoint "contour"
      let rect := l.staticCallValue Catalog.OpenCv.imgproc "boundingRect" Catalog.OpenCv.rect [contour.reference]
      Gen.append fun s =>
        (s.methodCall rects.reference "clear" []).foreach contour found fun b =>
          b.methodCall rects.reference "add" [rect]
      match label with
      | some label => Gen.append (publishing l label rects)
      | none => pure ()
      return .value rects.reference

end Pipewright.Nodes
