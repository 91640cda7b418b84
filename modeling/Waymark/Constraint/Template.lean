/-!
# Constraint templates

The DECLARE templates: patterns of a temporal constraint over one or two activities. Each has a name,
a number of activities and a sentence that describes it.
-/

namespace Waymark.Constraint

/-- A DECLARE template. -/
inductive Template where
  | existence
  | existenceTwo
  | absence
  | init
  | final
  | respondedExistence
  | response
  | precedence
  | succession
  | chainResponse
  | chainPrecedence
  | notCoExistence
  | exclusiveChoice
  deriving DecidableEq, Repr, Inhabited

namespace Template

/-- All templates, in their order. -/
def all : List Template :=
  [.existence, .existenceTwo, .absence, .init, .final, .respondedExistence, .response, .precedence,
    .succession, .chainResponse, .chainPrecedence, .notCoExistence, .exclusiveChoice]

/-- The name of a template. -/
def name : Template → String
  | .existence => "Existence"
  | .existenceTwo => "ExistenceTwo"
  | .absence => "Absence"
  | .init => "Init"
  | .final => "End"
  | .respondedExistence => "RespondedExistence"
  | .response => "Response"
  | .precedence => "Precedence"
  | .succession => "Succession"
  | .chainResponse => "ChainResponse"
  | .chainPrecedence => "ChainPrecedence"
  | .notCoExistence => "NotCoExistence"
  | .exclusiveChoice => "ExclusiveChoice"

/-- The number of activities that a template relates. -/
def arity : Template → Nat
  | .existence | .existenceTwo | .absence | .init | .final => 1
  | _ => 2

/-- The template constrains what happens immediately next. -/
def isChain : Template → Bool
  | .chainResponse | .chainPrecedence => true
  | _ => false

/-- The place of a template among all of them. -/
def rank (t : Template) : Nat := t.ctorIdx

/-- The sentence that describes a template over two activities, the second being ignored where there
is one only. -/
def describe (a b : String) : Template → String
  | .existence => a ++ " happens at least once."
  | .existenceTwo => a ++ " happens at least twice."
  | .absence => a ++ " never happens."
  | .init => "The first thing to happen is " ++ a ++ "."
  | .final => "The last thing to happen is " ++ a ++ "."
  | .respondedExistence => "If " ++ a ++ " happens, " ++ b ++ " happens as well."
  | .response => "Whenever " ++ a ++ " happens, " ++ b ++ " happens afterward."
  | .precedence => b ++ " happens only if " ++ a ++ " has happened before."
  | .succession =>
    "Whenever " ++ a ++ " happens, " ++ b ++ " happens afterward, and " ++ b ++
      " happens only after " ++ a ++ "."
  | .chainResponse => "Whenever " ++ a ++ " happens, " ++ b ++ " happens immediately after."
  | .chainPrecedence => b ++ " happens only immediately after " ++ a ++ "."
  | .notCoExistence => a ++ " and " ++ b ++ " never both happen."
  | .exclusiveChoice => "Exactly one of " ++ a ++ " and " ++ b ++ " happens."

end Template

end Waymark.Constraint
