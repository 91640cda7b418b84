/-!
# Scales of numbers

Costs of plans and scores of formulas are added, scaled and compared, and nothing in the search or
the ranking depends on how the numbers are stored. `Scale` lists what is asked of them, so that the
algorithms run on doubles and their laws can be stated for exact numbers.
-/

namespace Waymark.Number

/-- What the costs and the scores of this library are computed with. -/
class Scale (κ : Type) where
  /-- The number that stands for a quotient of natural numbers. -/
  ofQuotient : Nat → Nat → κ
  /-- The sum. -/
  add : κ → κ → κ
  /-- The product. -/
  mul : κ → κ → κ
  /-- The first number is smaller. -/
  lt : κ → κ → Bool
  /-- The first number is smaller, or they are equal. -/
  le : κ → κ → Bool
  /-- The place of the first number relative to the second when numbers are sorted. -/
  order : κ → κ → Ordering
  /-- The number is neither infinite nor undefined. -/
  isFinite : κ → Bool
  /-- Reads the whole of a text as a number. -/
  read? : List Char → Option κ
  /-- The text of a number, without an exponent. -/
  text : κ → String

/-- A natural number on a scale. -/
def Scale.ofNat {κ : Type} [Scale κ] (n : Nat) : κ := Scale.ofQuotient n 1

/-- The larger of two numbers, the first if neither is smaller. -/
def Scale.max {κ : Type} [Scale κ] (x y : κ) : κ := if Scale.lt x y then y else x

/-- The nearest number between `low` and `high`. -/
def Scale.clamp {κ : Type} [Scale κ] (low high x : κ) : κ :=
  let y := if Scale.lt x low then low else x
  if Scale.lt high y then high else y

end Waymark.Number
