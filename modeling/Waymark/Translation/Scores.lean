import Waymark.Constraint.Formula
import Waymark.Number.Scale

/-!
# Scores of formulas

A score for each of some formulas, no formula twice, the formulas in ascending order.

* `Scores.put`: gives a formula a score;
* `Scores.raise`: gives a formula a score unless it has a larger one.
-/

namespace Waymark.Translation

open Constraint

/-- Formulas with their scores. -/
abbrev Scores (κ : Type) := List (Formula × κ)

namespace Scores

variable {κ : Type}

/-- Gives a formula the score that `change` makes of its score so far. -/
def alter (f : Formula) (change : Option κ → κ) : Scores κ → Scores κ
  | [] => [(f, change none)]
  | (g, x) :: rest =>
    match f.compare g with
    | .lt => (f, change none) :: (g, x) :: rest
    | .eq => (g, change (some x)) :: rest
    | .gt => (g, x) :: alter f change rest

/-- Gives a formula a score. -/
def put (f : Formula) (score : κ) (scores : Scores κ) : Scores κ := scores.alter f fun _ => score

/-- Gives a formula a score unless it has a larger one. No score is below zero. -/
def raise [Number.Scale κ] (f : Formula) (score : κ) (scores : Scores κ) : Scores κ :=
  scores.alter f fun old => Number.Scale.max (old.getD (Number.Scale.ofNat 0)) score

end Scores

end Waymark.Translation
