import Pipewright.Decimal.Binary
import Pipewright.Text

/-!
# Reading numbers

Integers are an optional sign and digits, within 64 bits. Floating-point
numbers are an optional sign and a word (`inf`, `infinity`, `nan`, in any case)
or digits with an optional point and exponent; the exact value of the digits is
rounded once, to the nearest number and to the even one of two equally near.
-/

namespace Pipewright

def digitsValue (digits : List Char) : Nat :=
  digits.foldl (fun n c => 10 * n + (c.toNat - '0'.toNat)) 0

def takeSign : List Char → Bool × List Char
  | '-' :: rest => (true, rest)
  | '+' :: rest => (false, rest)
  | rest => (false, rest)

def readInt64 (text : List Char) : Option Int :=
  let (negative, digits) := takeSign text
  if digits.isEmpty || !digits.all Char.isDigit then none
  else
    let n : Int := if negative then -(digitsValue digits : Int) else digitsValue digits
    if -Nat.pow 2 63 ≤ n ∧ n < Nat.pow 2 63 then some n else none

namespace Binary

variable {f : BinaryFormat}

def roundHalfEven (num den : Nat) : Nat :=
  let q := num / den
  let r := num % den
  if 2 * r < den ∨ (2 * r = den ∧ q % 2 = 0) then q else q + 1

/-- The number nearest to the positive quotient `num / den`; what rounds beyond the largest one is infinite. -/
def ofRatio (negative : Bool) (num den : Nat) : Binary f :=
  let log : Int := if den ≤ num then Nat.log2 (num / den) else -(Nat.log2 (den / num) + 1)
  let q : Int := max (log - f.fractionBits) f.minExponent
  let m := roundHalfEven (num * Nat.pow 2 (-q).toNat) (den * Nat.pow 2 q.toNat)
  -- a significand that rounds up to the next power of two carries into the exponent field by itself
  let magnitude := (q - f.minExponent).toNat * f.unit + m
  if f.topExponent * f.unit ≤ magnitude then infinity negative else ofMagnitude negative magnitude

/-- The number nearest to `± digits · 10 ^ e`; exponents far beyond the range are cut off before any power is taken. -/
def ofDecimal (negative : Bool) (digits : List Char) (e : Int) : Binary f :=
  let n := digitsValue digits
  let size : Int := (digits.dropWhile (· == '0')).length + e
  if n = 0 then ofMagnitude negative 0
  else if 400 < size then infinity negative
  else if size < -400 then ofMagnitude negative 0
  else ofRatio negative (n * Nat.pow 10 e.toNat) (Nat.pow 10 (-e).toNat)

def readExponent : List Char → Option Int
  | [] => some 0
  | c :: rest =>
    if c = 'e' ∨ c = 'E' then
      let (negative, digits) := takeSign rest
      if digits.isEmpty || !digits.all Char.isDigit then none
      else
        let n : Int := digitsValue digits
        some (if negative then -n else n)
    else none

def read? (text : List Char) : Option (Binary f) :=
  let (negative, body) := takeSign text
  let word := body.map Char.toLower
  if word = "inf".toList ∨ word = "infinity".toList then some (infinity negative)
  else if word = "nan".toList then some notANumber
  else
    let whole := body.takeWhile Char.isDigit
    let rest := body.dropWhile Char.isDigit
    let (fraction, rest) := match rest with
      | '.' :: more => (more.takeWhile Char.isDigit, more.dropWhile Char.isDigit)
      | _ => ([], rest)
    if whole.isEmpty && fraction.isEmpty then none
    else (readExponent rest).map fun e => ofDecimal negative (whole ++ fraction) (e - fraction.length)

end Binary

end Pipewright
