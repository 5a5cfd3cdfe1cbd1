import Pipewright.Pass.State

/-!
# The code of nodes

What a node does is a tree of requests to the pass: look at it, change the
workspace, have another node generated. Sessions, the stage and the queue of
deferred nodes are out of its reach. `Gen` builds such trees from small steps.
-/

namespace Pipewright

inductive Code (σ : Type) where
  | done (result : Except GenError Session)
  | look (k : Pass σ → Code σ)
  | update (w : Workspace σ) (next : Code σ)
  /-- Has the node at a position generated, into a scope of its choice. -/
  | generate (position : Nat) (target : Target) (k : Except GenError Unit → Code σ)

def Code.run {σ : Type} (generate : Nat → Target → Pass σ → Except GenError Unit × Pass σ) :
    Code σ → Pass σ → Except GenError Session × Pass σ
  | done result, p => (result, p)
  | look k, p => (k p).run generate p
  | update w next, p => next.run generate { p with work := w }
  | .generate position target k, p =>
    let (answer, p) := generate position target p
    (k answer).run generate p

/-- A step of a node's code in some target scope: given what to do with its outcome, the code from there on. -/
def Gen (σ α : Type) : Type := Target → (Except GenError α → Code σ) → Code σ

namespace Gen

variable {σ α β : Type}

def result (outcome : Except GenError α) : Gen σ α := fun _ k => k outcome

def andThen (x : Gen σ α) (f : α → Gen σ β) : Gen σ β := fun target k =>
  x target fun
    | .ok a => f a target k
    | .error e => k (.error e)

instance : Monad (Gen σ) where
  pure a := result (.ok a)
  bind := andThen

def attempt (x : Gen σ α) : Gen σ (Except GenError α) := fun target k => x target fun outcome => k (.ok outcome)

instance : MonadExceptOf GenError (Gen σ) where
  throw e := result (.error e)
  tryCatch x handle := fun target k => x target fun
    | .ok a => k (.ok a)
    | .error e => handle e target k

instance : MonadLift (Except GenError) (Gen σ) where
  monadLift := result

def pass : Gen σ (Pass σ) := fun _ k => .look fun p => k (.ok p)

def target : Gen σ Target := fun target k => k (.ok target)

def language : Gen σ Language := return (← pass).language

def modify (f : Workspace σ → Workspace σ) : Gen σ Unit := fun _ k =>
  .look fun p => .update (f p.work) (k (.ok ()))

def inTarget (target : Target) (x : Gen σ α) : Gen σ α := fun _ k => x target k

def append (build : Scope → Scope) : Gen σ Unit := fun target k => modify (·.modifyScope build target) target k

def group (build : Scope → Scope) : Gen σ Unit := inTarget .classStart (append (·.group build))

def enumeration (name : String) (values : List String) : Gen σ Unit :=
  inTarget .classEnd (append (·.act (.enumeration name values)))

def addFlag (flag : String) : Gen σ Bool := do
  let isNew := !(← pass).work.hasFlag flag
  modify (·.addFlag flag)
  return isNew

/-- Imports a type whether or not the program mentions it. -/
def registerImport (ty : Ty) : Gen σ Unit := modify fun w => { w with imports := w.imports.register ty }

def uniqueVariable (name : String) (initial : Value) : Gen σ Variable := do
  let fresh := (← pass).work.uniqueName name
  modify (·.reserve fresh)
  return ⟨fresh, initial⟩

def requireFeature (node : NodeRef) (feature : Feature) : Gen σ Unit := do
  let l ← language
  unless l.supports feature do throw (.language (some node) (.unsupported l feature))

def register (tier : Tier) (recipe : Recipe (Surroundings σ)) : Gen σ Placeholder := do
  let (placeholder, registry) := (← pass).work.registry.register tier recipe
  modify fun w => { w with registry }
  return placeholder

/-- The recipe of a preview call: the call with the conversion to RGB, once that is there. -/
def streamRecipe (l : Language) (id : Int) (mat : Value) (conversion : Placeholder) : Recipe (Surroundings σ) :=
  .needing (.later conversion) fun found =>
    let conversion := if found.toValue.isAbsent then none else some found.toValue
    .give <| match l.streamFrame (l.int id) mat conversion with
      | .ok text => some (.value ((Value.raw text).withImportsOf conversion.toList))
      | .error _ => none

/-- Shows an image in the preview under an id, as RGB. Does nothing where there is no preview. -/
def streamMat (node : NodeRef) (id : Int) (mat : Value) (color : ColorSpace) : Gen σ Unit := do
  if (← pass).preview then
    requireFeature node .streamFrame
    let l ← language
    let conversion := if color = .rgb then Value.absent else l.colorConversion color .rgb
    let conversion ← register .normal (.give (some (.value conversion)))
    let call ← register .normal (streamRecipe l id mat conversion)
    append (·.write (Marker.text call.id))

def runtimeLine (pin : Pin) : GenValue → Gen σ (Value × Value)
  | .runtimeLine color thickness => return (color, thickness)
  | .line color thickness => do
    let l ← language
    let color ← uniqueVariable "lineColor" (color.toValue l)
    let thickness ← uniqueVariable "lineThickness" (l.int thickness)
    group fun s => (s.instanceVariable .isPublic color (some "Line Color")).instanceVariable .isPublic thickness
      (some "Line Thickness")
    return (color.reference, thickness.reference)
  | other => GenValue.mismatch pin "LineParameters" other

def runtimeVec2 (pin : Pin) : GenValue → Gen σ (Value × Value)
  | .runtimeVec2 x y => return (x, y)
  | .vec2 x y => do
    let l ← language
    let x ← uniqueVariable "vectorX" (l.double x)
    let y ← uniqueVariable "vectorY" (l.double y)
    group fun s => (s.instanceVariable .isPublic x).instanceVariable .isPublic y
    return (x.reference, y.reference)
  | other => GenValue.mismatch pin "Vector2" other

end Gen

end Pipewright
