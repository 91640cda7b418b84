/-!
# The nearest double of a quotient

Rounds an exact quotient of natural numbers to a 64-bit float: to the nearest one, and to the one
with an even last bit if two are equally near. The arithmetic is exact, so there is one rounding
only.

* `roundEven`: a quotient rounded to a natural number;
* `nearestBits`: the bits of the nearest non-negative double;
* `nearest`: the double itself.
-/

namespace Waymark.Number

/-- A power of two. -/
@[inline] def twoTo (k : Nat) : Nat := Nat.pow 2 k

/-- A power of ten. -/
@[inline] def tenTo (k : Nat) : Nat := Nat.pow 10 k

/-- The quotient `num / den` rounded to a natural number, a half going to the even neighbour. -/
def roundEven (num den : Nat) : Nat :=
  let q := num / den
  let r := num % den
  if 2 * r > den || (2 * r = den && q % 2 = 1) then q + 1 else q

/-- `num / den` in units of `2 ^ e`, rounded to a natural number. -/
def inUnits (num den : Nat) (e : Int) : Nat :=
  roundEven (num * twoTo (-e).toNat) (den * twoTo e.toNat)

/-- The exponent of the last bit of the double nearest to `num / den`: the quotient has 53 bits in
this unit, unless it is below the smallest normal double. -/
def unitExponent (num den : Nat) : Int :=
  let guess : Int := (num.log2 : Int) - (den.log2 : Int) - 52
  -- the quotient lies in `[2 ^ (guess + 51), 2 ^ (guess + 53))`
  let wide := num * twoTo (-guess).toNat < twoTo 52 * (den * twoTo guess.toNat)
  max (if wide then guess - 1 else guess) (-1074)

/-- The bits of the double nearest to `num / den`, for a positive `den`. Too large a quotient gives
infinity. -/
def nearestBits (num den : Nat) : UInt64 :=
  if num = 0 then 0
  else
    let e := unitExponent num den
    if e > 971 then 0x7FF0000000000000
    else
      let m := inUnits num den e
      -- a mantissa of 53 bits carries into the exponent field by itself
      let bits := (e + 1074).toNat * twoTo 52 + m
      if bits ≥ 0x7FF0000000000000 then 0x7FF0000000000000 else bits.toUInt64

/-- The double nearest to `num / den`. -/
def nearest (num den : Nat) : Float := Float.ofBits (nearestBits num den)

end Waymark.Number
