import Waymark.Number.Scale
import Waymark.Number.Shortest

/-!
# Doubles

`Float` has a single value that is no number. A double has two, told apart by a sign, and the sign decides
their places when doubles are sorted.

* `Double.add`, `Double.mul`: an undefined operand is the result, the first of two; where numbers have no
  sum or product, the result is the negative undefined value;
* `Double.order`: the negative undefined value, the numbers in ascending order, the positive one.
-/

namespace Waymark.Number

/-- A number or an infinity, or one of two values that are neither. -/
inductive Double where
  | number (value : Float)
  | undefined (negative : Bool)

namespace Double

/-- The result of an operation on numbers. -/
def ofResult (x : Float) : Double := if x.isNaN then .undefined true else .number x

/-- Applies an operation that an undefined operand spoils. -/
def lift (op : Float → Float → Float) : Double → Double → Double
  | .undefined s, _ => .undefined s
  | .number _, .undefined s => .undefined s
  | .number x, .number y => ofResult (op x y)

/-- The sum. -/
def add : Double → Double → Double := lift (· + ·)

/-- The product. -/
def mul : Double → Double → Double := lift (· * ·)

/-- Both are numbers and stand in a relation. -/
def related (r : Float → Float → Bool) : Double → Double → Bool
  | .number x, .number y => r x y
  | _, _ => false

/-- The place of a number among numbers: they ascend with their sizes, negative ones come before the
others, and negative zero stands before zero. -/
def place (x : Float) : UInt64 :=
  let bits := x.toBits
  if bits < 0x8000000000000000 then bits + 0x8000000000000000 else ~~~ bits

/-- The place of a double relative to the numbers: before, among, or after them. -/
def side : Double → Nat
  | .undefined true => 0
  | .number _ => 1
  | .undefined false => 2

/-- The order of doubles for sorting. -/
def order (x y : Double) : Ordering :=
  match x, y with
  | .number x, .number y => compare (place x) (place y)
  | x, y => compare x.side y.side

/-- The double is a number. -/
def isFinite : Double → Bool
  | .number x => x.isFinite
  | .undefined _ => false

/-- Reads a double: a decimal, or one of the words `inf`, `infinity` and `nan` in any case. -/
def read? (cs : List Char) : Option Double :=
  let (negative, rest) := splitSign cs
  let word := String.ofList (rest.map Char.toLower)
  if word = "nan" then some (.undefined negative)
  else if word = "inf" || word = "infinity" then
    some (.number (if negative then -infinity else infinity))
  else (Decimal.scanUnsigned? negative rest).map fun d => .number d.toFloat

/-- The text of a double, without an exponent. -/
def text : Double → String
  | .number x => positional x
  | .undefined _ => "NaN"

end Double

instance : Scale Double where
  ofQuotient n d := .number (nearest n d)
  add := Double.add
  mul := Double.mul
  lt := Double.related fun x y => x < y
  le := Double.related fun x y => x ≤ y
  order := Double.order
  isFinite := Double.isFinite
  read? := Double.read?
  text := Double.text

end Waymark.Number
