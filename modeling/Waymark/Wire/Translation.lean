import Waymark.Translation.Basic
import Waymark.Wire.Number

/-!
# Translations in JSON

* `Translation.decode`, `Translation.encode`: sentences with their formulas;
* `Translation.Candidate.decode`, `Translation.Candidate.encode`: ranked formulas.
-/

namespace Waymark

open Json Decoder
open Number (Double)

/-- Reads a translation. -/
def Translation.decode : Decoder Translation :=
  record { utterance := "", formula := "" } [
    field "utterance" .required text fun t x => { t with utterance := x },
    field "formula" .required text fun t x => { t with formula := x },
    field "description" .defaulted text fun t x => { t with description := x }]

/-- Writes a translation. -/
def Translation.encode (t : Translation) : Json :=
  .object [("utterance", .text t.utterance), ("formula", .text t.formula),
    ("description", .text t.description)]

/-- Reads a candidate. -/
def Translation.Candidate.decode : Decoder (Translation.Candidate Double) :=
  record ⟨"", "", "", .number 0⟩ [
    field "user_prompt" .required text fun c x => { c with utterance := x },
    field "formula" .required text fun c x => { c with formula := x },
    field "description" .required text fun c x => { c with description := x },
    field "confidence" .required Double.decode fun c x => { c with confidence := x }]

/-- Writes a candidate. -/
def Translation.Candidate.encode (c : Translation.Candidate Double) : Json :=
  .object [("user_prompt", .text c.utterance), ("formula", .text c.formula),
    ("description", .text c.description), ("confidence", c.confidence.encode)]

end Waymark
