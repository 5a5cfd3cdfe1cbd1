import Pipewright.Decimal.Binary
import Pipewright.GenError
import Pipewright.Language.Expr

/-!
# Values on the outputs of nodes

A constant is known when the program is generated; its runtime counterpart is an
expression that the program computes. Consumers take both.
-/

namespace Pipewright

structure Channels (α : Type) where
  a : α
  b : α
  c : α
  d : α
deriving Repr, Inhabited

namespace Channels

variable {α β : Type}

def toList (x : Channels α) : List α := [x.a, x.b, x.c, x.d]

def map (f : α → β) (x : Channels α) : Channels β := ⟨f x.a, f x.b, f x.c, f x.d⟩

end Channels

structure MatValue where
  value : Value
  color : ColorSpace
  /-- Whether it is a mask of one channel. -/
  isBinary : Bool
deriving Repr

namespace MatValue

def image (value : Value) (color : ColorSpace) : MatValue := ⟨value, color, false⟩

def mask (value : Value) : MatValue := ⟨value, .gray, true⟩

def requireBinary (m : MatValue) (pin : Pin) : Except GenError Unit :=
  if m.isBinary then .ok ()
  else .error (.pin pin "Mat is not binary as required, this causes runtime issues")

def requireNonBinary (m : MatValue) (pin : Pin) : Except GenError Unit :=
  if m.isBinary then .error (.pin pin "Mat is binary, but non-binary was required") else .ok ()

def same (m n : MatValue) : Bool :=
  m.value == n.value && m.color == n.color && m.isBinary == n.isBinary

end MatValue

structure Interval where
  min : Double
  max : Double
deriving Repr, Inhabited

abbrev Scalar := Channels Double
abbrev ScalarRange := Channels Interval

def ScalarRange.lower (r : ScalarRange) : Scalar := r.map Interval.min
def ScalarRange.upper (r : ScalarRange) : Scalar := r.map Interval.max

def Scalar.toValue (l : Language) (s : Scalar) : Value :=
  l.newInstance Catalog.OpenCv.scalar (s.toList.map l.double)

inductive ListElement where
  | points
  | rect
  | rotatedRect
  | number
deriving DecidableEq, Repr, Inhabited

def ListElement.all : List ListElement := [points, rect, rotatedRect, number]

def ListElement.name : ListElement → String
  | points => "Points"
  | rect => "Rect"
  | rotatedRect => "RotatedRect"
  | number => "Number"

inductive GenValue where
  | mat (m : MatValue)
  | int (n : Int)
  | double (x : Double)
  | str (text : String)
  | bool (b : Bool)
  | point (x y : Double)
  | points (points : List (Double × Double))
  | runtimePoints (value : Value)
  | rect (x y width height : Double)
  | runtimeRect (value : Value)
  | rotatedRect (x y width height angle : Double)
  | runtimeRotatedRect (value : Value)
  | range (r : Interval)
  | scalar (s : Scalar)
  | scalarRange (r : ScalarRange)
  | vec2 (x y : Double)
  | runtimeVec2 (x y : Value)
  | line (color : Scalar) (thickness : Int)
  | runtimeLine (color thickness : Value)
  | list (items : List GenValue)
  | runtimeList (value : Value) (element : ListElement)
  | colorSpace (c : ColorSpace)
  | none
deriving Inhabited

namespace GenValue

def kind : GenValue → String
  | mat _ => "Mat"
  | int _ => "Int"
  | double _ => "Double"
  | str _ => "String"
  | bool _ => "Boolean"
  | point .. => "Point"
  | points _ | runtimePoints _ => "Points"
  | rect .. | runtimeRect _ => "Rect"
  | rotatedRect .. | runtimeRotatedRect _ => "RotatedRect"
  | range _ => "Range"
  | scalar _ => "Scalar"
  | scalarRange _ => "ScalarRange"
  | vec2 .. | runtimeVec2 .. => "Vector2"
  | line .. | runtimeLine .. => "LineParameters"
  | list _ | runtimeList .. => "List"
  | colorSpace _ => "ColorSpace"
  | none => "None"

def isRuntime : GenValue → Bool
  | mat _ | runtimePoints _ | runtimeRect _ | runtimeRotatedRect _ | runtimeVec2 .. | runtimeLine ..
  | runtimeList .. => true
  | _ => false

def carried? : GenValue → Option Value
  | mat m => some m.value
  | runtimePoints v | runtimeRect v | runtimeRotatedRect v | runtimeList v _ => some v
  | _ => Option.none

/-- Pointwise equality of numbers, in which a NaN differs from itself. -/
def sameNumbers (xs ys : List Double) : Bool :=
  xs.length == ys.length && (xs.zip ys).all fun (x, y) => x.sameNumber y

def intervals (r : ScalarRange) : List Double := r.toList.flatMap fun i => [i.min, i.max]

mutual

def same : GenValue → GenValue → Bool
  | mat m, mat n => m.same n
  | int m, int n => m == n
  | double x, double y => x.sameNumber y
  | str s, str t => s == t
  | bool a, bool b => a == b
  | point x y, point x' y' => sameNumbers [x, y] [x', y']
  | points ps, points qs => sameNumbers (ps.flatMap fun p => [p.1, p.2]) (qs.flatMap fun p => [p.1, p.2])
  | runtimePoints v, runtimePoints w => v == w
  | rect x y w h, rect x' y' w' h' => sameNumbers [x, y, w, h] [x', y', w', h']
  | runtimeRect v, runtimeRect w => v == w
  | rotatedRect x y w h a, rotatedRect x' y' w' h' a' => sameNumbers [x, y, w, h, a] [x', y', w', h', a']
  | runtimeRotatedRect v, runtimeRotatedRect w => v == w
  | range r, range s => sameNumbers [r.min, r.max] [s.min, s.max]
  | scalar s, scalar t => sameNumbers s.toList t.toList
  | scalarRange r, scalarRange s => sameNumbers (intervals r) (intervals s)
  | vec2 x y, vec2 x' y' => sameNumbers [x, y] [x', y']
  | runtimeVec2 x y, runtimeVec2 x' y' => x == x' && y == y'
  | line c t, line c' t' => sameNumbers c.toList c'.toList && t == t'
  | runtimeLine c t, runtimeLine c' t' => c == c' && t == t'
  | list xs, list ys => sameAll xs ys
  | runtimeList v e, runtimeList w f => v == w && e == f
  | colorSpace c, colorSpace d => c == d
  | none, none => true
  | _, _ => false

def sameAll : List GenValue → List GenValue → Bool
  | [], [] => true
  | x :: xs, y :: ys => same x y && sameAll xs ys
  | _, _ => false

end

def mismatch {α : Type} (pin : Pin) (expected : String) (found : GenValue) : Except GenError α :=
  .error (.pin pin s!"expected {expected}, got {found.kind}")

def asMat (pin : Pin) : GenValue → Except GenError MatValue
  | mat m => .ok m
  | other => mismatch pin "Mat" other

def asScalarRange (pin : Pin) : GenValue → Except GenError ScalarRange
  | scalarRange r => .ok r
  | other => mismatch pin "ScalarRange" other

def asRuntimeList (pin : Pin) (element : ListElement) : GenValue → Except GenError Value
  | runtimeList value found =>
    if found = element then .ok value
    else .error (.pin pin s!"expected a list of {element.name}, got a list of {found.name}")
  | other => mismatch pin "List" other

end GenValue

end Pipewright
