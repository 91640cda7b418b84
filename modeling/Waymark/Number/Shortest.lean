import Waymark.Number.Decimal

/-!
# The shortest decimal that reads back

A finite double stands for the interval of reals that round to it. Among the decimals in that
interval the text of a double is one with the fewest digits, and of those the nearest to the double.

* `Binary.ofBits`: a double as `mantissa * 2 ^ exponent`;
* `shortest`: its digits and their power of ten;
* `positional`: the text without an exponent, whatever the size.
-/

namespace Waymark.Number

/-- The size of a finite double, `mantissa * 2 ^ exponent`. -/
structure Binary where
  mantissa : Nat
  exponent : Int
  deriving DecidableEq, Repr

/-- Decodes the size of a finite double. -/
def Binary.ofBits (bits : UInt64) : Binary :=
  let fraction : Nat := bits.toNat % twoTo 52
  let field : Nat := bits.toNat / twoTo 52 % 2048
  if field = 0 then ⟨fraction, -1074⟩ else ⟨twoTo 52 + fraction, (field : Int) - 1075⟩

/-- The sign bit of a double is set. -/
def isNegative (x : Float) : Bool := x.toBits ≥ 0x8000000000000000

namespace Binary

/-- The interval of reals that round to a double, in quarters of its last bit: the lower end, the
value and the upper end. Below a power of two the doubles lie twice as close. -/
def quarters (b : Binary) : Nat × Nat × Nat :=
  let v := 4 * b.mantissa
  let low := if b.mantissa = twoTo 52 && b.exponent > -1074 then v - 1 else v - 2
  (low, v, v + 2)

/-- `n` quarters of the last bit, divided by `10 ^ place`, as a quotient. -/
def overPlace (b : Binary) (n : Nat) (place : Int) : Nat × Nat :=
  let s := b.exponent - 2
  (n * twoTo s.toNat * tenTo (-place).toNat, twoTo (-s).toNat * tenTo place.toNat)

/-- The multiple of `10 ^ place` that is nearest to a double among those that round to it. A tie goes
up. -/
def onGrid? (b : Binary) (place : Int) : Option Nat :=
  let (low, value, high) := b.quarters
  let (v, unit) := b.overPlace value place
  let (l, _) := b.overPlace low place
  let (h, _) := b.overPlace high place
  let even := b.mantissa % 2 = 0
  let below := v / unit
  let above := below + 1
  let belowFits := if even then l ≤ below * unit else l < below * unit
  let aboveFits := if even then above * unit ≤ h else above * unit < h
  if belowFits && aboveFits then some (if v - below * unit < above * unit - v then below else above)
  else if belowFits then some below
  else if aboveFits then some above
  else none

/-- The number of places before the point: the least `k` such that the value is below `10 ^ k`. -/
def places (b : Binary) : Int :=
  let (_, value, _) := b.quarters
  let fits (k : Int) : Bool :=
    let (v, unit) := b.overPlace value k
    v < unit
  let guess : Int := (((b.mantissa.log2 : Int) + b.exponent) * 30103) / 100000 - 1
  if fits guess then guess else if fits (guess + 1) then guess + 1
  else if fits (guess + 2) then guess + 2 else guess + 3

/-- The first grid, from one digit up, that holds a decimal which rounds to the double. -/
def shortest (b : Binary) : Nat × Int :=
  let top := b.places
  ((List.range 18).findSome? fun (n : Nat) =>
      let place : Int := top - (n + 1)
      (b.onGrid? place).map (·, place)).getD (0, 0)

end Binary

/-- Drops final zeros of a digit run and raises the power of ten for each. -/
def dropZeros (digits : List Char) (place : Int) : List Char × Int :=
  let kept := (digits.reverse.dropWhile (· = '0')).reverse
  (kept, place + (digits.length - kept.length : Nat))

/-- The digits of a finite double other than zero, without final zeros, and their power of ten. -/
def shortestDigits (x : Float) : List Char × Int :=
  let (n, place) := (Binary.ofBits x.toBits).shortest
  dropZeros (digitsOfNat n) place

/-- Places a digit run by its power of ten, without an exponent. -/
def placed (digits : List Char) (place : Int) : List Char :=
  if place ≥ 0 then digits ++ List.replicate place.toNat '0'
  else
    let fraction := (-place).toNat
    if digits.length > fraction then
      digits.take (digits.length - fraction) ++ '.' :: digits.drop (digits.length - fraction)
    else '0' :: '.' :: (List.replicate (fraction - digits.length) '0' ++ digits)

/-- The text of a double without an exponent: `1` for one, `0.001` for a thousandth. -/
def positional (x : Float) : String :=
  let sign := if isNegative x then "-" else ""
  if x.isNaN then "NaN"
  else if x.isInf then sign ++ "inf"
  else if x == 0 then sign ++ "0"
  else
    let (digits, place) := shortestDigits x
    sign ++ String.ofList (placed digits place)

end Waymark.Number
