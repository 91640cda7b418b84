import Waymark.Text.Lower
import Waymark.Translation.Pattern
import Waymark.Translation.Prompt
import Waymark.Translation.Scores

/-!
# Cue phrases

A translator that needs no model. The activities of an utterance are its capitalised words, and the words
that name an activity of a prompt example. A cue is a pattern of phrases that speaks for a template; where
it occurs, the template is proposed over the activities in the order in which they appear. An example whose
words are much like those of the utterance speaks for its own template.

* `Cue.all`: the cues;
* `activitiesIn`: the activities of an utterance;
* `proposals`: the scores of the formulas that cues and examples speak for.
-/

namespace Waymark.Translation

open Constraint Number

/-- Phrases that speak for a template. -/
structure Cue where
  template : Template
  /-- The cue occurs where one of these occurs. -/
  patterns : List Pattern
  /-- How much it speaks for the template, in hundredths. -/
  percent : Nat
  /-- The second activity is named first. -/
  reversed : Bool := false
  deriving DecidableEq, Repr

/-- The cues. -/
def Cue.all : List Cue :=
  let near := ["immediately", "right", "directly"]
  [{ template := .chainResponse, percent := 90,
     patterns := [⟨near, [(.blanks, ["after", "afterward", "afterwards", "followed"])]⟩] },
   { template := .chainPrecedence, percent := 95, reversed := true,
     patterns := [⟨["only"], [(.blanks, near), (.blanks, ["after"])]⟩] },
   { template := .succession, percent := 85,
     patterns := [⟨["if and only if"], []⟩, ⟨["always followed"], [(.anything, ["only after"])]⟩] },
   { template := .response, percent := 90,
     patterns := [⟨["whenever", "every time", "each time"],
       [(.anything, ["afterward", "afterwards", "after that", "later", "eventually", "then",
         "follow", "follows", "followed"])]⟩] },
   { template := .response, percent := 60, patterns := [⟨["followed by"], []⟩] },
   { template := .precedence, percent := 80, reversed := true,
     patterns := [⟨["only after", "preceded by"], []⟩] },
   { template := .precedence, percent := 50,
     patterns := [⟨["first", "before"], [(.anything, ["before"])]⟩, ⟨["not before"], []⟩] },
   { template := .respondedExistence, percent := 70,
     patterns := [⟨["if"], [(.anything, ["also", "as well", "too"])]⟩] },
   { template := .notCoExistence, percent := 80,
     patterns := [⟨["never", "not", "cannot", "can't"], [(.blanks, ["both"])]⟩,
       ⟨["not together"], []⟩] },
   { template := .exclusiveChoice, percent := 90,
     patterns := [⟨["either"], [(.anything, ["or"]), (.anything, ["not both"])]⟩,
       ⟨["exactly one of"], []⟩] },
   { template := .exclusiveChoice, percent := 50,
     patterns := [⟨["either"], [(.anything, ["or"])]⟩] },
   { template := .existenceTwo, percent := 80,
     patterns := [⟨["at least twice", "two times", "twice"], []⟩] },
   { template := .existence, percent := 50,
     patterns := [⟨["at least once", "must", "make sure", "eventually"], []⟩] },
   { template := .absence, percent := 70,
     patterns := [⟨["never", "do not", "don't", "avoid", "without"], []⟩] },
   { template := .init, percent := 60,
     patterns := [⟨["start", "starts", "begin", "begins"], [(.blanks, ["with"])]⟩,
       ⟨["first"], []⟩] },
   { template := .final, percent := 60,
     patterns := [⟨["end", "endes", "finish", "finishes"], [(.blanks, ["with"])]⟩,
       ⟨["finally", "last"], []⟩] }]

/-- The cue occurs in a text in lower case. -/
def Cue.occurs (c : Cue) (text : List Char) : Bool := c.patterns.any fun p => p.occurs text

/-! ## Activities -/

/-- Capitalised words that are no activities. -/
def stopwords : List String :=
  ["a", "after", "afterward", "afterwards", "also", "always", "an", "and", "at", "before", "both",
    "but", "do", "does", "each", "either", "every", "eventually", "exactly", "finally", "first",
    "for", "happen", "happens", "i", "if", "immediately", "in", "it", "last", "make", "must",
    "neither", "never", "not", "of", "once", "only", "or", "please", "send", "should", "sure",
    "the", "then", "there", "to", "twice", "use", "we", "when", "whenever", "with", "without",
    "you"]

/-- A character that a name may go on with. -/
def isNameChar (c : Char) : Bool := c.isAlphanum || c = '_' || c = '-'

/-- The names in a text: an ASCII letter, and all the letters, digits, underscores and hyphens that
follow. `name` is the name that is being read, last character first. -/
def namesFrom (name : List Char) : List Char → List String
  | [] => if name.isEmpty then [] else [String.ofList name.reverse]
  | c :: rest =>
    if name.isEmpty then namesFrom (if c.isAlpha then [c] else []) rest
    else if isNameChar c then namesFrom (c :: name) rest
    else String.ofList name.reverse :: namesFrom [] rest

/-- The activity that a name stands for: a known one, whatever its case, or else the name itself if it is
capitalised. -/
def activity? (known : List String) (name : String) : Option String :=
  let lower := Text.lowercase name
  match known.find? fun k => Text.lowercase k = lower with
  | some k => some k
  | none =>
    if name.toList.head?.any Char.isUpper && !stopwords.contains lower then some name else none

/-- The activities of an utterance in the order in which they appear. -/
def activitiesIn (known : List String) (utterance : String) : List String :=
  ((namesFrom [] utterance.toList).filterMap (activity? known)).eraseDups

/-- The formulas of a template over activities: one for each of them, or one over the first two. -/
def instances (template : Template) (activities : List String) (reversed : Bool) : List Formula :=
  if template.arity = 1 then activities.filterMap fun a => (Formula.of template [a]).toOption
  else match activities with
    | a :: b :: _ => (Formula.of template (if reversed then [b, a] else [a, b])).toOption.toList
    | _ => []

/-! ## Similarity -/

/-- The words of a text in lower case, each once. -/
def wordSet (text : String) : List String :=
  ((Text.runs (fun c => !Text.isAlphanumeric c) text.toList).map fun w =>
    String.ofList (Text.lower w)).eraseDups

/-- The share of the words of two texts that both of them have. -/
def similarity {κ : Type} [Scale κ] (x y : List String) : κ :=
  let shared := (x.filter y.contains).length
  let union := x.length + (y.filter fun w => !x.contains w).length
  if union = 0 then Scale.ofNat 0 else Scale.ofQuotient shared union

/-! ## Proposals -/

variable {κ : Type} [Scale κ]

/-- Adds what a cue speaks for. Over one activity, those after the first are proposed less strongly. -/
def Cue.propose (activities : List String) (scores : Scores κ) (c : Cue) : Scores κ :=
  let strength : κ := Scale.ofQuotient c.percent 100
  ((instances c.template activities c.reversed).zipIdx).foldl (fun scores (f, i) =>
    scores.raise f (Scale.mul strength (if i = 0 then Scale.ofNat 1 else Scale.ofQuotient 4 5)))
    scores

/-- The formula that an example speaks for: its template over the activities, or its own formula if there
are too few. -/
def instanceOfExample (activities : List String) (f : Formula) : Option Formula :=
  if f.template.arity ≤ activities.length then (instances f.template activities false).head?
  else some f

/-- Adds what an example speaks for, if at least half of the words are shared. -/
def proposeExample (utterance : String) (activities : List String) (scores : Scores κ)
    (e : Translation × Formula) : Scores κ :=
  let score : κ := similarity (wordSet utterance) (wordSet e.1.utterance)
  if Scale.lt score (Scale.ofQuotient 1 2) then scores
  else match instanceOfExample activities e.2 with
    | some f => scores.raise f score
    | none => scores

/-- The scores of the formulas that the heard cues and the examples of a prompt speak for. -/
def proposals (heard : List Cue) (prompt : Prompt) (utterance : String) : Scores κ :=
  let activities := activitiesIn prompt.activities utterance
  prompt.parsed.foldl (proposeExample utterance activities)
    (heard.foldl (Cue.propose activities) [])

/-- The cues that occur in an utterance. -/
def heardIn (utterance : String) : List Cue :=
  let text := Text.lower utterance.toList
  Cue.all.filter fun c => c.occurs text

end Waymark.Translation
