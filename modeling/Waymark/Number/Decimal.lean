import Waymark.Number.Nearest

/-!
# Decimal notation

A decimal is a digit string with a power of ten. Its text has an optional sign, digits with an
optional point among or around them, and an optional exponent.

* `Decimal.scanUnsigned?`: reads the whole of a text as a decimal without a sign;
* `Decimal.toFloat`: the double nearest to it, infinity if it is too large.
-/

namespace Waymark.Number

/-- The number `digits * 10 ^ exponent`, negated if `negative`. -/
structure Decimal where
  negative : Bool
  digits : Nat
  exponent : Int
  deriving DecidableEq, Repr

/-- The value of a digit. -/
def digitValue (c : Char) : Nat := c.toNat - '0'.toNat

/-- The number written by a run of digits. -/
def natOfDigits (cs : List Char) : Nat := cs.foldl (fun n c => 10 * n + digitValue c) 0

/-- The digits of a number, most significant first. -/
def digitsOfNat (n : Nat) : List Char := Nat.toDigits 10 n

/-- Reads the whole of a text as a natural number of 64 bits, with an optional plus sign. -/
def readWord? (cs : List Char) : Option Nat :=
  let digits := match cs with
    | '+' :: rest => rest
    | _ => cs
  if digits.isEmpty || !digits.all Char.isDigit then none
  else
    let n := natOfDigits digits
    if n < twoTo 64 then some n else none

/-- Cuts a leading sign off. -/
def splitSign : List Char → Bool × List Char
  | '-' :: rest => (true, rest)
  | '+' :: rest => (false, rest)
  | rest => (false, rest)

/-- Reads an exponent: nothing, or `e` with an optional sign and at least one digit. -/
def scanExponent? : List Char → Option Int
  | [] => some 0
  | c :: rest =>
    if c = 'e' || c = 'E' then
      let (negative, digits) := splitSign rest
      if digits.isEmpty || !digits.all Char.isDigit then none
      else
        let n : Int := natOfDigits digits
        some (if negative then -n else n)
    else none

namespace Decimal

/-- Reads an unsigned decimal. There is a digit before or after the point. -/
def scanUnsigned? (negative : Bool) (cs : List Char) : Option Decimal :=
  let whole := cs.takeWhile Char.isDigit
  let (fraction, rest) := match cs.dropWhile Char.isDigit with
    | '.' :: rest => (rest.takeWhile Char.isDigit, rest.dropWhile Char.isDigit)
    | rest => ([], rest)
  if whole.isEmpty && fraction.isEmpty then none
  else (scanExponent? rest).map fun e =>
    ⟨negative, natOfDigits (whole ++ fraction), e - fraction.length⟩

/-- The number of digits written before the power of ten. -/
def width (d : Decimal) : Nat := (digitsOfNat d.digits).length

/-- The double nearest to the size of a decimal. Beyond 400 places on either side the answer is
known without computing the power of ten. -/
def magnitude (d : Decimal) : Float :=
  if d.digits = 0 then 0
  else
    let top := d.exponent + d.width
    if top > 400 then Float.ofBits 0x7FF0000000000000
    else if top < -400 then 0
    else nearest (d.digits * tenTo d.exponent.toNat) (tenTo (-d.exponent).toNat)

/-- The double nearest to a decimal. -/
def toFloat (d : Decimal) : Float := if d.negative then -d.magnitude else d.magnitude

end Decimal

/-- Positive infinity. -/
def infinity : Float := Float.ofBits 0x7FF0000000000000

end Waymark.Number
