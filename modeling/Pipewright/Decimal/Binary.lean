/-!
# Binary floating-point numbers

A number is kept as the bits of its interchange format, so that equality,
printing and reading are exact integer arithmetic. A finite number is
`± m · 2 ^ q` with natural `m`.
-/

namespace Pipewright

structure BinaryFormat where
  exponentBits : Nat
  fractionBits : Nat
deriving DecidableEq, Repr

namespace BinaryFormat

def single : BinaryFormat := ⟨8, 23⟩
def double : BinaryFormat := ⟨11, 52⟩

variable (f : BinaryFormat)

def topExponent : Nat := Nat.pow 2 f.exponentBits - 1

def minExponent : Int := 2 - Nat.pow 2 (f.exponentBits - 1) - f.fractionBits

def signWeight : Nat := Nat.pow 2 (f.exponentBits + f.fractionBits)

def unit : Nat := Nat.pow 2 f.fractionBits

end BinaryFormat

structure Binary (f : BinaryFormat) where
  bits : Nat
deriving DecidableEq, Repr, Inhabited

abbrev Single := Binary .single
abbrev Double := Binary .double

namespace Binary

variable {f : BinaryFormat} (x : Binary f)

def isNegative : Bool := x.bits / f.signWeight % 2 == 1

def exponentField : Nat := x.bits / f.unit % (f.topExponent + 1)

def fractionField : Nat := x.bits % f.unit

def isNaN : Bool := x.exponentField == f.topExponent && x.fractionField != 0

def isInfinite : Bool := x.exponentField == f.topExponent && x.fractionField == 0

/-- `m` of a finite number `± m · 2 ^ q`. -/
def significand : Nat :=
  if x.exponentField = 0 then x.fractionField else f.unit + x.fractionField

/-- `q` of a finite number `± m · 2 ^ q`. -/
def exponent : Int :=
  f.minExponent + ((max x.exponentField 1 : Nat) - 1 : Int)

def isZero : Bool := x.exponentField == 0 && x.fractionField == 0

/-- Equality of numbers: a NaN equals nothing, the two zeros are equal. -/
def sameNumber (x y : Binary f) : Bool :=
  !x.isNaN && !y.isNaN && (x.bits == y.bits || (x.isZero && y.isZero))

def ofMagnitude (negative : Bool) (magnitude : Nat) : Binary f :=
  ⟨(if negative then f.signWeight else 0) + magnitude⟩

def infinity (negative : Bool) : Binary f :=
  ofMagnitude negative (f.topExponent * f.unit)

def notANumber : Binary f :=
  ⟨f.topExponent * f.unit + f.unit / 2⟩

end Binary

end Pipewright
