import Waymark.Translation.Scores

/-!
# Completions of a prompt

A completion continues a prompt: its first line names a template, and a later line lists the activities.
Of several completions of one prompt, the share that gives a formula is the score of the formula.

* `Completion.read?`: the formula that a completion gives;
* `Completion.tally`: the scores of the formulas in some completions.
-/

namespace Waymark.Translation.Completion

open Constraint

/-- The lines of a text that are not blank, without the blanks at their ends. -/
def writtenLines (text : String) : List (List Char) :=
  ((Text.lines text.toList).map Text.trim).filter (!·.isEmpty)

/-- The template that the first line names, with or without a label. -/
def template? (line : List Char) : Option Template :=
  let name := (Text.after? "PATTERN:".toList line).getD line
  (Template.read (String.ofList (Text.trim name))).toOption

/-- The activities that a line lists. -/
def activitiesOf (list : List Char) : List String :=
  (((Text.pieces (· = ',') list).map Text.trim).filter (!·.isEmpty)).map String.ofList

/-- The formula that a completion gives. -/
def read? (text : String) : Option Formula :=
  match writtenLines text with
  | [] => none
  | first :: rest => do
    let template ← template? first
    let list ← rest.findSome? (Text.after? "SYMBOLS:".toList)
    (Formula.of template (activitiesOf list)).toOption

/-- The share of each formula in some completions. Those that give no formula count in the whole. -/
def tally {κ : Type} [Number.Scale κ] (completions : List String) : Scores κ :=
  let found := completions.filterMap read?
  let total := max completions.length 1
  found.foldl (fun scores f => scores.put f (Number.Scale.ofQuotient (found.count f) total)) []

end Waymark.Translation.Completion
