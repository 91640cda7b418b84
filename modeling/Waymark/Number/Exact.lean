import Waymark.Number.Decimal
import Waymark.Number.Scale

/-!
# Exact numbers

Rational numbers, on which sums and products are never rounded, with one value for all that is not a
number. Laws about costs that hold only up to rounding on doubles hold as they stand on exact numbers.

* `Exact.add`, `Exact.mul`: an undefined operand is the result;
* `Exact.order`: the numbers in ascending order, then the undefined value.
-/

namespace Waymark.Number

/-- A rational number, or the value that is none. -/
inductive Exact where
  | number (value : Rat)
  | undefined
  deriving DecidableEq, Repr

namespace Exact

/-- Applies an operation that an undefined operand spoils. -/
def lift (op : Rat → Rat → Rat) : Exact → Exact → Exact
  | .number x, .number y => .number (op x y)
  | _, _ => .undefined

/-- The sum. -/
def add : Exact → Exact → Exact := lift (· + ·)

/-- The product. -/
def mul : Exact → Exact → Exact := lift (· * ·)

/-- Both are numbers and stand in a relation. -/
def related (r : Rat → Rat → Bool) : Exact → Exact → Bool
  | .number x, .number y => r x y
  | _, _ => false

/-- The order for sorting. -/
def order : Exact → Exact → Ordering
  | .number x, .number y => compareOfLessAndEq x y
  | .number _, .undefined => .lt
  | .undefined, .number _ => .gt
  | .undefined, .undefined => .eq

/-- The value is a number. -/
def isFinite : Exact → Bool
  | .number _ => true
  | .undefined => false

/-- The number that a decimal writes. -/
def ofDecimal (d : Decimal) : Rat :=
  let size : Rat := mkRat (d.digits * tenTo d.exponent.toNat : Nat) (tenTo (-d.exponent).toNat)
  if d.negative then -size else size

/-- Reads a decimal, or one of the words `inf`, `infinity` and `nan` in any case, which are no numbers. -/
def read? (cs : List Char) : Option Exact :=
  let (negative, rest) := splitSign cs
  if ["nan", "inf", "infinity"].contains (String.ofList (rest.map Char.toLower)) then some .undefined
  else (Decimal.scanUnsigned? negative rest).map fun d => .number (ofDecimal d)

/-- The text of a number, as a quotient unless it is whole. -/
def text : Exact → String
  | .number x => toString x
  | .undefined => "NaN"

end Exact

instance : Scale Exact where
  ofQuotient n d := .number (mkRat n d)
  add := Exact.add
  mul := Exact.mul
  lt := Exact.related fun x y => x < y
  le := Exact.related fun x y => x ≤ y
  order := Exact.order
  isFinite := Exact.isFinite
  read? := Exact.read?
  text := Exact.text

end Waymark.Number
