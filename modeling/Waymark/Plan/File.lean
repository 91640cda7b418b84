import Waymark.Number.Scale
import Waymark.Plan.Basic

/-!
# Plan files

A plan file has one action in parentheses per line, and may end with a comment that gives the cost.
Without one a plan costs as much as it has actions. All other lines are passed over.
-/

namespace Waymark.Plan

open Number

variable {κ : Type}

/-- The cost that a line of a plan file gives: none if it gives no cost, and none inside if what stands
there is no number. -/
def lineCost? [Scale κ] (line : List Char) : Option (Option κ) :=
  match line with
  | ';' :: rest =>
    (Text.after? "cost =".toList (Text.trim rest)).map fun value =>
      match Text.words value with
      | [] => none
      | word :: _ => Scale.read? word
  | _ => none

/-- Reads a plan file. Of several costs the last counts. -/
def ofFile [Scale κ] (text : List Char) : Plan κ :=
  let lines := (Text.lines text).map Text.trim
  let actions := (lines.filter fun l => l.head? = some '(').map fun l => String.ofList (Text.lower l)
  let cost := ((lines.filterMap lineCost?).getLast?).join
  { actions, cost := cost.getD (Scale.ofNat actions.length) }

end Waymark.Plan
