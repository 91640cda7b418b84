import Waymark.Translation.Completion
import Waymark.Translation.Cue

/-!
# Ranking formulas

A translator scores the formulas that an utterance may mean. The ranking keeps the scores between zero and
one and sorts the formulas by them, the best first and equals by their texts.

* `Translator.cuePhrases`, `Translator.sampled`: translators;
* `rank`: the candidates for an utterance.
-/

namespace Waymark.Translation

open Constraint Number

/-- Something that scores the formulas that an utterance may mean. -/
structure Translator (κ : Type) where
  name : String
  scores : Prompt → String → Except Failure (Scores κ)

variable {κ : Type} [Scale κ]

/-- The translator that listens to cue phrases. -/
def Translator.cuePhrases : Translator κ :=
  ⟨"cue-phrase", fun prompt utterance => .ok (proposals (heardIn utterance) prompt utterance)⟩

/-- The translator that asks for completions of a prompt. -/
def Translator.sampled (name : String) (complete : String → Except Failure (List String)) :
    Translator κ :=
  ⟨name, fun prompt utterance => Completion.tally <$> complete (prompt.render utterance)⟩

/-- A failure of a translator, as the failure of a translation. -/
def asTranslationFailure : Failure → Failure
  | .translation fault => .translation fault
  | failure => .translation (.other failure.message)

/-- The candidate that a scored formula is. A score that is not finite is refused. -/
def candidate (utterance : String) (scored : Formula × κ) : Except Failure (Candidate κ) :=
  let (f, score) := scored
  if Scale.isFinite score then
    .ok { utterance, formula := f.display, description := f.describe,
          confidence := Scale.clamp (Scale.ofNat 0) (Scale.ofNat 1) score }
  else .error (.translation (.notFinite (Scale.text score) f.display))

/-- The first candidate comes before the second, or stands in the same place. -/
def Candidate.precedes (x y : Candidate κ) : Bool :=
  ((Scale.order y.confidence x.confidence).then (compare x.formula y.formula)).isLE

/-- The candidates for an utterance, the best first. -/
def rank (translator : Translator κ) (prompt : Prompt) (utterance : String) :
    Except Failure (List (Candidate κ)) := do
  let utterance := Text.trimmed utterance
  if utterance.isEmpty then throw (.input .emptyUtterance)
  let scores ← (translator.scores prompt utterance).mapError asTranslationFailure
  let candidates ← scores.mapM (candidate utterance)
  return candidates.mergeSort Candidate.precedes

end Waymark.Translation
