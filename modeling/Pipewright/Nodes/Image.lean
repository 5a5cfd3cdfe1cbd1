import Pipewright.Nodes.Basic

/-!
# Image nodes

The frame that the camera delivers, its conversion to another color space, and
its reduction to a mask.
-/

namespace Pipewright.Nodes

variable {σ : Type}

def inputRef (id : Nat) : NodeRef := ⟨id, "Pipeline Input"⟩

/-- The frame: BGR where Python runs the program, RGBA elsewhere. -/
def input (id : Nat) : Node σ where
  ref := inputRef id
  code := do
    match ← Gen.language with
    | .python => return .mat (.image (.new Catalog.Python.noType "input") .bgr)
    | _ => return .mat (.image (.new Catalog.OpenCv.mat "input") .rgba)

def convertRef (id : Nat) : NodeRef := ⟨id, "Convert Color"⟩

def colorInput (ref : NodeRef) (source : Source) : Gen σ MatValue := do
  let m ← Gen.matOf source "output" (ref.pin "input")
  m.requireNonBinary (ref.pin "input")
  return m

def lowerName (c : ColorSpace) : String := c.name.map Char.toLower

def convert (id : Nat) (source : Source) (target : ColorSpace) : Node σ where
  ref := convertRef id
  code := do
    let l ← Gen.language
    let m ← colorInput (convertRef id) source
    if m.color = target then return .mat m
    match l with
    | .python =>
      let converted := l.staticCallValue Catalog.Python.cv2 "cvtColor" Catalog.Python.noType
        [m.value, l.colorConversion m.color target]
      let result ← Gen.uniqueVariable (lowerName target) converted
      Gen.append (·.localVariable result)
      return .mat (.image result.reference target)
    | _ =>
      let result ← Gen.uniqueVariable (lowerName target ++ "Mat") (l.newInstance Catalog.OpenCv.mat [])
      Gen.group (·.instanceVariable .isPrivate result)
      Gen.append (·.staticCall Catalog.OpenCv.imgproc "cvtColor"
        [m.value, result.reference, l.colorConversion m.color target])
      return .mat (.image result.reference target)

def thresholdRef (id : Nat) : NodeRef := ⟨id, "Color Threshold"⟩

def numberTuple (l : Language) (xs : List Double) : Value :=
  .new Catalog.Python.noType ("(" ++ ", ".intercalate (xs.map fun x => (l.double x).text) ++ ")")

def threshold (id : Nat) (source : Source) (range : ScalarRange) : Node σ where
  ref := thresholdRef id
  code := do
    let l ← Gen.language
    let m ← colorInput (thresholdRef id) source
    match l with
    | .python =>
      let bounds (s : Scalar) := numberTuple l (s.toList.take m.color.channels)
      let lower ← Gen.uniqueVariable "lower" (bounds range.lower)
      let upper ← Gen.uniqueVariable "upper" (bounds range.upper)
      Gen.group fun s => (s.instanceVariable .isPublic lower).instanceVariable .isPublic upper
      let masked := l.staticCallValue Catalog.Python.cv2 "inRange" Catalog.Python.noType
        [m.value, lower.reference, upper.reference]
      let mask ← Gen.uniqueVariable "mask" masked
      Gen.append (·.localVariable mask)
      return .mat (.mask mask.reference)
    | _ =>
      let lower ← Gen.uniqueVariable "lower" (range.lower.toValue l)
      let upper ← Gen.uniqueVariable "upper" (range.upper.toValue l)
      let mask ← Gen.uniqueVariable (lowerName m.color ++ "BinaryMat") (l.newInstance Catalog.OpenCv.mat [])
      Gen.group fun s =>
        (s.instanceVariable .isPublic lower (some "Lower")).instanceVariable .isPublic upper (some "Upper")
      Gen.group (·.instanceVariable .isPrivate mask)
      Gen.append (·.staticCall Catalog.OpenCv.core "inRange"
        [m.value, lower.reference, upper.reference, mask.reference])
      return .mat (.mask mask.reference)

def outputRef (id : Nat) : NodeRef := ⟨id, "Pipeline Output"⟩

/-- Shows an image in the preview and returns it from the pipeline, after all other nodes. -/
def output (id : Nat) (source : Source) : Node σ where
  ref := outputRef id
  atEnd := true
  code := do
    let m ← Gen.matOf source "output" ((outputRef id).pin "input")
    Gen.streamMat (outputRef id) 0 m.value m.color
    let returned := match ← Gen.language with
      -- the largest contour, the image and the data for the robot
      | .python => Value.new Catalog.Python.noType s!"[], {m.value.text}, []"
      | _ => m.value
    Gen.append (·.ret (some returned))
    return .nothing

end Pipewright.Nodes
