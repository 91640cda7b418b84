import Waymark.Text.Blank
import Waymark.Text.Letter

/-!
# Phrase patterns

A pattern is a sequence of phrases with gaps between them. It occurs in a text if the phrases stand in
it in this order, each between word boundaries, with nothing but the gaps between them.

A search keeps the set of places that it can have come to, one flag per place: the places before each
character, and the one at the end. Every step of a pattern maps such a set to another.

* `Pattern.occurs`: a pattern occurs in a text.
-/

namespace Waymark.Translation

/-- What may stand between two phrases. -/
inductive Gap where
  /-- One or more blanks. -/
  | blanks
  /-- Anything within a line. -/
  | anything
  deriving DecidableEq, Repr

/-- One of some phrases, and after each gap one of some more. -/
structure Pattern where
  phrases : List String
  rest : List (Gap × List String) := []
  deriving DecidableEq, Repr

/-- A set of places in a text. -/
abbrev Places := List Bool

namespace Places

/-- The places that lie in both sets. -/
def both (x y : Places) : Places := List.zipWith (· && ·) x y

/-- The places that lie in one of the sets. -/
def either (x y : Places) : Places := List.zipWith (· || ·) x y

/-- The places after a character that satisfies `p`. -/
def step (p : Char → Bool) (text : List Char) (places : Places) : Places :=
  false :: List.zipWith (fun here c => here && p c) places text

/-- The places after any number of characters that satisfy `p`, `reached` being whether the first place
is one of them. -/
def spread (p : Char → Bool) (reached : Bool) : List Char → Places → Places
  | _, [] => []
  | [], here :: _ => [here || reached]
  | c :: text, here :: places =>
    (here || reached) :: spread p ((here || reached) && p c) text places

/-- The places after a phrase. -/
def afterPhrase (text : List Char) (places : Places) (phrase : String) : Places :=
  phrase.toList.foldl (fun places c => step (· = c) text places) places

/-- The places after a gap. -/
def afterGap (text : List Char) (places : Places) : Gap → Places
  | .blanks => spread Text.isBlank false text (step Text.isBlank text places)
  | .anything => spread (· ≠ '\n') false text places

end Places

/-- The places between a character of a word and one of none, `inside` being whether the character before
the text is one of a word. -/
def boundaries (inside : Bool) : List Char → Places
  | [] => [inside]
  | c :: text => (inside != Text.isWordChar c) :: boundaries (Text.isWordChar c) text

/-- The places after one of some phrases that stand between word boundaries. -/
def afterPhrases (text : List Char) (phrases : List String) (places : Places) : Places :=
  let bounds := boundaries false text
  let nowhere := List.replicate (text.length + 1) false
  let start := Places.both places bounds
  let found := phrases.foldl
    (fun found phrase => Places.either found (Places.afterPhrase text start phrase)) nowhere
  Places.both found bounds

/-- A pattern occurs in a text. -/
def Pattern.occurs (p : Pattern) (text : List Char) : Bool :=
  let everywhere := List.replicate (text.length + 1) true
  let places := p.rest.foldl
    (fun places (gap, phrases) => afterPhrases text phrases (Places.afterGap text places gap))
    (afterPhrases text p.phrases everywhere)
  places.any id

end Waymark.Translation
