import Mathlib.Tactic
import Waymark.Proofs.Plan.Identity

/-!
# Spellings of an action

The text of an action is the action again when it is shown in parentheses. Without them it is the action again unless
it is enclosed in parentheses of its own, as no name and no object of a task can be: one pair of parentheses around a
text is not part of it. So a plan can be spelled anew, action by action, and keeps its digest.

* `Enclosed`, `normalized_normalized_iff`: texts that are texts of themselves;
* `Respelled`: other spellings of an action;
* `normalized_canonical`: actions and plans in other spellings;
* `normalized_enclosed`: a text that is enclosed.
-/

namespace Waymark.Plan

open Text

/-- The text stands in parentheses. -/
def Enclosed (action : String) : Prop := ∃ inner, action = "(" ++ inner ++ ")"

theorem enclosed_iff {action : String} : Enclosed action ↔ ∃ cs, action.toList = '(' :: (cs ++ [')']) := by
  constructor
  · rintro ⟨inner, rfl⟩
    exact ⟨inner.toList, by simp⟩
  · rintro ⟨cs, h⟩
    exact ⟨String.ofList cs, String.toList_injective (by simp [h])⟩

/-- A text that stands in no parentheses has none taken off. -/
theorem withoutParentheses_of_not {cs : List Char} (h : ¬ ∃ inner, cs = '(' :: (inner ++ [')'])) :
    withoutParentheses cs = cs := by
  unfold withoutParentheses
  split
  · rename_i inner
    split
    · rename_i hlast
      obtain ⟨init, rfl⟩ := List.getLast?_eq_some_iff.1 hlast
      exact absurd ⟨init, rfl⟩ h
    · rfl
  · rfl

theorem trim_normalized (action : String) : trim (normalized action).toList = (normalized action).toList := by
  rw [toList_normalized]
  exact trim_intercalate (List.forall_mem_map.2 fun w hw => (isLowWord_of_mem_actionWords hw).1)

/-- The characters of the words of an action are those of its text that are not blank. -/
theorem flatten_actionWords (action : String) : ((actionWords action).map String.toList).flatten =
    (normalized action).toList.filter fun c => !isBlank c := by
  rw [← words_normalized]
  exact flatten_runs _

theorem isLow_of_mem_normalized {action : String} {c : Char} (hc : c ∈ (normalized action).toList)
    (hblank : isBlank c = false) : IsLow c := by
  have hmem : c ∈ ((actionWords action).map String.toList).flatten := by
    rw [flatten_actionWords]
    exact List.mem_filter.2 ⟨hc, by simp [hblank]⟩
  obtain ⟨w, hw, hc⟩ := List.mem_flatten.1 hmem
  obtain ⟨w, hmem, rfl⟩ := List.mem_map.1 hw
  rw [← (isLowWord_of_mem_actionWords hmem).2] at hc
  exact isLow_of_mem_lower hc

/-- Words that are in lower case are the words of the action. -/
theorem actionWords_eq {action : String} {cs : List Char}
    (hparentheses : withoutParentheses (trim action.toList) = cs) (hlow : ∀ w ∈ words cs, lower w = w) :
    (actionWords action).map String.toList = words cs := by
  rw [actionWords, hparentheses, List.map_map]
  refine (List.map_congr_left fun w hw => ?_).trans (List.map_id _)
  rw [Function.comp_apply, String.toList_ofList, hlow w hw, id]

/-- **The text of an action is its own text** just if it stands in no parentheses. -/
theorem normalized_normalized_iff {action : String} :
    normalized (normalized action) = normalized action ↔ ¬ Enclosed (normalized action) := by
  constructor
  · intro heq henclosed
    obtain ⟨cs, hcs⟩ := enclosed_iff.1 henclosed
    have hinner : withoutParentheses (trim (normalized action).toList) = cs := by
      rw [trim_normalized, hcs, withoutParentheses_parenthesized]
    have hlow : ∀ w ∈ words cs, lower w = w := by
      refine fun w hw => lower_of_isLow fun c hc => ?_
      have hkept : c ∈ cs.filter fun c => !isBlank c := by
        rw [← flatten_runs]
        exact List.mem_flatten.2 ⟨w, hw, hc⟩
      have hmem : c ∈ (normalized action).toList := by
        rw [hcs]
        exact List.mem_cons_of_mem _ (List.mem_append_left _ (List.mem_filter.1 hkept).1)
      exact isLow_of_mem_normalized hmem ((isToken_of_mem_words hw).2 c hc)
    -- The two parentheses are characters that are not blank, and they are lost.
    have hchars : (normalized action).toList.filter (fun c => !isBlank c) = cs.filter fun c => !isBlank c := by
      rw [← heq, ← flatten_actionWords, actionWords_eq hinner hlow]
      exact flatten_runs _
    rw [hcs, List.filter_cons_of_pos (by decide), List.filter_append, List.filter_cons_of_pos (by decide)] at hchars
    have hlength := congrArg List.length hchars
    simp at hlength
    omega
  · intro h
    have hself : withoutParentheses (trim (normalized action).toList) = (normalized action).toList := by
      rw [trim_normalized]
      exact withoutParentheses_of_not fun hinner => h (enclosed_iff.2 hinner)
    have hlow : ∀ w ∈ words (normalized action).toList, lower w = w := by
      rw [words_normalized]
      exact List.forall_mem_map.2 fun w hw => (isLowWord_of_mem_actionWords hw).2
    have hwords := (actionWords_eq hself hlow).trans (words_normalized action)
    exact congrArg (" ".intercalate ·) (List.map_injective_iff.2 (fun _ _ => String.toList_injective) hwords)

/-- Spellings of an action: as it is, its text in parentheses, and its text if this stands in none. -/
inductive Respelled (action : String) : String → Prop where
  | same : Respelled action action
  | shown : Respelled action ("(" ++ normalized action ++ ")")
  | bare (h : ¬ Enclosed (normalized action)) : Respelled action (normalized action)

theorem Respelled.normalized_eq {a b : String} (h : Respelled a b) : normalized b = normalized a := by
  cases h with
  | same => rfl
  | shown => exact normalized_parenthesized a
  | bare h => exact normalized_normalized_iff.2 h

/-- **Spellings of an action.** An action whose text is shown in parentheses is the action that it was. The text by
itself is this action just if it stands in no parentheses. A plan keeps its digest when actions of it are spelled in
these ways. -/
theorem normalized_canonical :
    (∀ action, normalized ("(" ++ normalized action ++ ")") = normalized action) ∧
    (∀ action, normalized (normalized action) = normalized action ↔ ¬ Enclosed (normalized action)) ∧
    ∀ as bs, List.Forall₂ Respelled as bs → fingerprint bs = fingerprint as := by
  refine ⟨normalized_parenthesized, fun _ => normalized_normalized_iff, fun as bs h => fingerprint_congr ?_⟩
  induction h with
  | nil => rfl
  | cons hab _ ih => rw [List.map_cons, List.map_cons, hab.normalized_eq, ih]

/-- The digest of a plan whose second action is shown in parentheses, and whose third one is bare. -/
theorem normalized_canonical_draft : fingerprint ["(Draft  M1)", "(slack m1)", "archive m1"] =
    fingerprint ["(Draft  M1)", "( Slack M1 )", "(Archive m1)"] := by
  have hslack : "(" ++ normalized "( Slack M1 )" ++ ")" = "(slack m1)" := by decide +kernel
  have harchive : normalized "(Archive m1)" = "archive m1" := by decide +kernel
  have hbare : ¬ Enclosed (normalized "(Archive m1)") := by
    rw [harchive, enclosed_iff]
    rintro ⟨cs, hcs⟩
    cases (List.cons.inj hcs).1
  have hspellings : List.Forall₂ Respelled ["(Draft  M1)", "( Slack M1 )", "(Archive m1)"]
      ["(Draft  M1)", "(slack m1)", "archive m1"] := by
    rw [← hslack, ← harchive]
    exact .cons .same (.cons .shown (.cons (.bare hbare) .nil))
  exact normalized_canonical.2.2 _ _ hspellings

/-- Of two pairs of parentheses one is left, and is then taken for the pair around the action. -/
theorem normalized_enclosed : normalized (normalized "((a))") ≠ normalized "((a))" ∧
    fingerprint [normalized "((a))"] ≠ fingerprint ["((a))"] := by
  decide +kernel

end Waymark.Plan
