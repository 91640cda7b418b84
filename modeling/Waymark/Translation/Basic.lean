import Waymark.Constraint.Formula

/-!
# Translations

What a sentence means, as a formula. A translation is given, as an example or by the user; a candidate
is proposed, with a confidence.
-/

namespace Waymark

/-- A sentence with the formula that it means. -/
structure Translation where
  utterance : String
  /-- The text of the formula. -/
  formula : String
  description : String := ""
  deriving DecidableEq, Repr, Inhabited

/-- A formula that a sentence may mean. -/
structure Translation.Candidate (κ : Type) where
  utterance : String
  /-- The text of the formula. -/
  formula : String
  description : String
  confidence : κ
  deriving DecidableEq, Repr, Inhabited

/-- The translation that a candidate becomes when it is accepted. -/
def Translation.Candidate.accept {κ : Type} (c : Candidate κ) : Translation :=
  ⟨c.utterance, c.formula, c.description⟩

end Waymark
