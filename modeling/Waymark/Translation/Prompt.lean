import Waymark.Digest
import Waymark.Json.Reader
import Waymark.Json.Writer
import Waymark.Wire.Translation

/-!
# Prompts

A prompt shows a translator what is asked of it: a header, and examples of sentences with their
formulas. Examples whose formula cannot be read are kept but not shown.

* `Prompt.render`: the text of a prompt for an utterance;
* `Prompt.fingerprint`: the digest that identifies a prompt;
* `Prompt.read`: the prompt that a file holds.
-/

namespace Waymark

open Constraint

/-- The header of prompts that have none of their own. -/
def Prompt.usualHeader : String :=
  "Translate natural language sentences into DECLARE patterns. " ++
  "Answer with one PATTERN line naming the template and one SYMBOLS line listing its activities."

/-- A header with examples. -/
structure Prompt where
  header : String := Prompt.usualHeader
  examples : List Translation := []
  deriving DecidableEq, Repr, Inhabited

namespace Prompt

/-! ## Examples -/

/-- The examples whose formula can be read, with their formulas. -/
def parsed (p : Prompt) : List (Translation × Formula) :=
  p.examples.filterMap fun t => (Formula.read t.formula).toOption.map (t, ·)

/-- The activities that the examples name, in ascending order. -/
def activities (p : Prompt) : List String :=
  ((p.parsed.flatMap fun (_, f) => f.activities).mergeSort fun x y => !(y < x)).eraseReps

/-! ## Text -/

/-- The answer that a translator should give for a formula: its template, and on a second line its
activities. -/
def answer (f : Formula) : String :=
  f.template.name ++ "\nSYMBOLS: " ++ ", ".intercalate f.activities

/-- The text of an example. -/
def exampleText (t : Translation) (f : Formula) : String :=
  "NL: " ++ Text.trimmed t.utterance ++ "\nPATTERN: " ++ answer f ++ "\n\n"

/-- The text of a prompt for an utterance. It ends where the answer is to begin. -/
def render (p : Prompt) (utterance : String) : String :=
  p.header ++ "\n\n" ++ String.join (p.parsed.map fun (t, f) => exampleText t f) ++
    "NL: " ++ Text.trimmed utterance ++ "\nPATTERN:"

/-! ## Identity -/

/-- Writes a prompt. -/
def encode (p : Prompt) : Json :=
  .object [("header", .text p.header), ("examples", Json.ofList Translation.encode p.examples)]

/-- The text that identifies a prompt. -/
def canonicalText (p : Prompt) : String := p.encode.write

/-- The digest that identifies a prompt. -/
def fingerprint (p : Prompt) : String := Digest.sha256Hex p.canonicalText.toUTF8

/-! ## Files -/

/-- Reads a prompt. What is not given is as usual. -/
def decode : Json.Decoder Prompt :=
  .record {} [
    Json.Decoder.field "header" .defaulted .text fun p x => { p with header := x },
    Json.Decoder.field "examples" .defaulted (.list Translation.decode)
      fun p x => { p with examples := x }]

/-- The prompt that a text holds: a prompt, or a list of its examples. -/
def read (text : String) : Except Failure Prompt :=
  match Json.parse? text with
  | none => .error (.input .promptText)
  | some value => match decode value with
    | .ok p => .ok p
    | .error _ => match Json.Decoder.list Translation.decode value with
      | .ok examples => .ok { examples }
      | .error _ => .error (.input .promptShape)

end Prompt

end Waymark
