import Waymark.Failure

/-!
# Constraint formulas

A formula is a template over activities: `Response Slack Gmail`, also written
`Response(Slack, Gmail)`. The type holds only formulas with as many activities as the template asks
for, none of them empty.

* `Template.read`: the template that a word names;
* `Formula.of`: the formula of a template and activities;
* `Formula.read`: the formula that a text writes;
* `Formula.display`: its text;
* `Formula.compare`: the order of formulas, by template and then by activities.
-/

namespace Waymark.Constraint

/-- The letters and digits of a text, in lower case. -/
def templateKey (text : String) : String :=
  String.ofList ((text.toList.filter Char.isAlphanum).map Char.toLower)

/-- The template that a text names, whatever its case and punctuation. `Existence2` is another name
of `ExistenceTwo`. -/
def Template.read (text : String) : Except Failure Template :=
  let key := templateKey text
  let key := if key = "existence2" then "existencetwo" else key
  match Template.all.find? fun t => templateKey t.name = key with
  | some t => .ok t
  | none => .error (.input (.unknownTemplate text))

/-- A template over activities. -/
structure Formula where
  template : Template
  activities : List String
  length_activities : activities.length = template.arity
  ne_empty : ∀ a ∈ activities, a ≠ ""
  deriving DecidableEq

namespace Formula

/-- The formula of a template and its activities. -/
def of (template : Template) (activities : List String) : Except Failure Formula :=
  if hl : activities.length = template.arity then
    if he : ∀ a ∈ activities, a ≠ "" then .ok ⟨template, activities, hl, he⟩
    else .error (.input .emptyActivity)
  else .error (.input (.activityCount template activities.length))

/-- The first activity. -/
def a (f : Formula) : String := f.activities.headD ""

/-- The second activity, or the first where there is one only. -/
def b (f : Formula) : String := f.activities.getD 1 f.a

/-- The text of a formula. -/
def display (f : Formula) : String :=
  f.template.name ++ String.join (f.activities.map (" " ++ ·))

/-- What a formula says. A mark for the second activity inside the first one stands for it too. -/
def describe (f : Formula) : String :=
  f.template.describe (Text.replaced "\x7bB\x7d" f.b f.a) f.b

/-- The characters that may stand between the words of a formula, besides blanks. -/
def isPunctuation (c : Char) : Bool := c = '(' || c = ')' || c = ','

/-- The words of a formula text. -/
def words (text : String) : List String :=
  (Text.runs (fun c => Text.isBlank c || isPunctuation c) text.toList).map String.ofList

/-- The formula that a text writes. -/
def read (text : String) : Except Failure Formula :=
  match words text with
  | [] => .error (.input .emptyFormula)
  | template :: activities => do of (← Template.read template) activities

/-- The order of formulas. -/
def compare (f g : Formula) : Ordering :=
  (Ord.compare f.template.rank g.template.rank).then (Ord.compare f.activities g.activities)

end Formula

end Waymark.Constraint
