import Pipewright.Decimal.Binary
import Pipewright.Text

/-!
# Shortest decimal text of a number

The decimals that read back as `m · 2 ^ q` form an interval around it whose
ends belong to it when `m` is even. Of the grids of multiples of a power of ten
the coarsest one that meets the interval is taken, and on it the point nearest
to the number, the larger one of two equally near. The digits are written
positionally, whatever the size of the number.
-/

namespace Pipewright

/-- The number `num / den` and the halves of the gaps to its neighbours, `below / den` and `above / den`. -/
structure RoundingInterval where
  num : Nat
  den : Nat
  below : Nat
  above : Nat
  closed : Bool

namespace RoundingInterval

/-- Whether the decimals `n · 10 ^ e` with `n` in place lie in the interval, for `power / scale = 10 ^ e`. -/
def holds (i : RoundingInterval) (power scale n : Nat) : Bool :=
  let point := n * power * i.den
  let low := (i.num - i.below) * scale
  let high := (i.num + i.above) * scale
  if i.closed then low ≤ point && point ≤ high else low < point && point < high

/-- The point of the grid `power / scale` that is nearest to the number among its two neighbours in the interval. -/
def onGrid (i : RoundingInterval) (power scale : Nat) : Option Nat :=
  let step := power * i.den
  let lower := i.num * scale / step
  let rest := i.num * scale % step
  match i.holds power scale lower, i.holds power scale (lower + 1) with
  | true, true => some (if 2 * rest < step then lower else lower + 1)
  | true, false => some lower
  | false, true => some (lower + 1)
  | false, false => none

/-- The first hit on the grids `10 ^ e`, `10 ^ (e - 1)`, …; `count` bounds how many are tried. -/
def search (i : RoundingInterval) : Nat → Int → Nat × Int
  | 0, e => (0, e)
  | count + 1, e =>
    match i.onGrid (Nat.pow 10 e.toNat) (Nat.pow 10 (-e).toNat) with
    | some n => (n, e)
    | none => i.search count (e - 1)

end RoundingInterval

def digitCount (n : Nat) : Nat :=
  (Nat.toDigits 10 n).length

namespace Binary

variable {f : BinaryFormat} (x : Binary f)

/-- The interval of a finite number other than zero, in quarters of its last place. -/
def roundingInterval : RoundingInterval :=
  let shift := x.exponent - 2
  let scale := Nat.pow 2 shift.toNat
  { num := 4 * x.significand * scale
    den := Nat.pow 2 (-shift).toNat
    below := (if x.fractionField = 0 ∧ 1 < x.exponentField then 1 else 2) * scale
    above := 2 * scale
    closed := x.significand % 2 == 0 }

/-- Digits `n` and exponent `e` of the shortest decimal `n · 10 ^ e` that reads back as a finite number. -/
def shortest : Nat × Int :=
  let i := x.roundingInterval
  let start : Int := digitCount (i.num / i.den) - (if i.den ≤ i.num then (0 : Int) else digitCount (i.den / i.num) - 1)
  i.search (f.fractionBits + 4) start

end Binary

def positional (n : Nat) (e : Int) : String :=
  let digits := Nat.toDigits 10 n
  if 0 ≤ e then String.ofList (digits ++ List.replicate e.toNat '0')
  else
    let places := (-e).toNat
    let padded := List.replicate (places + 1 - digits.length) '0' ++ digits
    String.ofList (padded.take (padded.length - places) ++ '.' :: padded.drop (padded.length - places))

/-- The text of a number: a NaN has no sign, a zero keeps its own. -/
def Binary.text {f : BinaryFormat} (x : Binary f) : String :=
  if x.isNaN then "NaN"
  else
    let sign := if x.isNegative then "-" else ""
    if x.isInfinite then sign ++ "inf"
    else if x.isZero then sign ++ "0"
    else
      let (n, e) := x.shortest
      sign ++ positional n e

/-- The text of a number as a decimal literal: `.0` is added where neither a point nor an exponent is there. -/
def decimalLiteral (text : String) : String :=
  let cs := text.toList
  if cs.any (fun c => c == '.' || c == 'e' || c == 'E') || hasInfix "inf".toList cs || hasInfix "NaN".toList cs then text
  else text ++ ".0"

end Pipewright
