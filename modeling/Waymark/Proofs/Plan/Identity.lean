import Mathlib.Tactic
import Waymark.Plan.Basic
import Waymark.Proofs.Text.Blank
import Waymark.Proofs.Text.Lower

/-!
# The text of an action and the digest of a plan

The one text of an action is made of words in lower case. Shown in parentheses it still has these words, so
what a user reads back is the action it was. Of the plans of one digest one is kept.

* `IsLowWord`, `isLowWord_of_mem_actionWords`: the words of an action;
* `actionWords_parenthesized`, `normalized_parenthesized`: an action that is shown in parentheses;
* `actionWords_of_normalized`: the words can be read off the text;
* `hash_of_mem_distinct`, `nodup_distinct`, `distinct_eq_map`: plans without repetitions.
-/

namespace Waymark.Plan

open Text

/-! ## Actions -/

/-- The text is a word in lower case. -/
def IsLowWord (w : String) : Prop := IsToken w.toList ∧ lower w.toList = w.toList

theorem isLowWord_of_mem_actionWords {action w : String} (hw : w ∈ actionWords action) : IsLowWord w := by
  obtain ⟨v, hv, rfl⟩ := List.mem_map.1 hw
  obtain ⟨hne, hblank⟩ := isToken_of_mem_words hv
  rw [IsLowWord, String.toList_ofList]
  exact ⟨⟨fun h => hne (lower_eq_nil.1 h), fun c hc => isBlank_of_mem_lower hblank hc⟩, lower_lower v⟩

theorem toList_normalized (action : String) :
    (normalized action).toList = [' '].intercalate ((actionWords action).map String.toList) :=
  String.toList_intercalate

/-- The words of the text of an action are those of the action. -/
theorem words_normalized (action : String) :
    words (normalized action).toList = (actionWords action).map String.toList := by
  rw [toList_normalized]
  refine words_intercalate fun cs hcs => ?_
  obtain ⟨w, hw, rfl⟩ := List.mem_map.1 hcs
  exact (isLowWord_of_mem_actionWords hw).1

/-- The words of an action can be read off its text. -/
theorem actionWords_of_normalized {action : String} {ws : List String} (hws : ∀ w ∈ ws, IsLowWord w)
    (h : normalized action = " ".intercalate ws) : actionWords action = ws := by
  have hwords : words (normalized action).toList = ws.map String.toList := by
    rw [h, String.toList_intercalate]
    refine words_intercalate fun cs hcs => ?_
    obtain ⟨w, hw, rfl⟩ := List.mem_map.1 hcs
    exact (hws w hw).1
  rw [words_normalized] at hwords
  exact List.map_injective_iff.2 (fun _ _ => String.toList_injective) hwords

theorem withoutParentheses_parenthesized (cs : List Char) : withoutParentheses ('(' :: (cs ++ [')'])) = cs := by
  simp [withoutParentheses]

/-- Words in parentheses are the words of an action. -/
theorem actionWords_intercalate {ws : List String} (h : ∀ w ∈ ws, IsLowWord w) :
    actionWords ("(" ++ " ".intercalate ws ++ ")") = ws := by
  have hchars : ("(" ++ " ".intercalate ws ++ ")").toList =
      '(' :: ([' '].intercalate (ws.map String.toList) ++ [')']) := by
    simp [String.toList_intercalate]
  have hwords : words ([' '].intercalate (ws.map String.toList)) = ws.map String.toList :=
    words_intercalate (List.forall_mem_map.2 fun w hw => (h w hw).1)
  unfold actionWords
  rw [hchars, trim_eq_self rfl rfl, withoutParentheses_parenthesized, hwords, List.map_map]
  refine (List.map_congr_left fun w hw => ?_).trans (List.map_id _)
  rw [Function.comp_apply, (h w hw).2, String.ofList_toList, id]

/-- An action that is shown in parentheses has the words that it had. -/
theorem actionWords_parenthesized (action : String) :
    actionWords ("(" ++ normalized action ++ ")") = actionWords action :=
  actionWords_intercalate fun _ => isLowWord_of_mem_actionWords

/-- An action that is shown in parentheses is the action it was. -/
theorem normalized_parenthesized (action : String) :
    normalized ("(" ++ normalized action ++ ")") = normalized action :=
  congrArg (" ".intercalate ·) (actionWords_parenthesized action)

/-! ## Plans -/

variable {κ : Type}

theorem mem_distinctFrom {seen : List String} {plans : List (Plan κ)} {p : Plan κ} (hp : p ∈ distinctFrom seen plans) :
    p.hash = some (fingerprint p.actions) ∧ fingerprint p.actions ∉ seen ∧ ∃ q ∈ plans, q.actions = p.actions := by
  induction plans generalizing seen with
  | nil => cases hp
  | cons q plans ih =>
    unfold distinctFrom at hp
    dsimp only at hp
    split at hp
    · obtain ⟨hhash, hseen, q', hq', hactions⟩ := ih hp
      exact ⟨hhash, hseen, q', List.mem_cons_of_mem _ hq', hactions⟩
    · rename_i hnew
      rcases List.mem_cons.1 hp with rfl | hp
      · exact ⟨rfl, fun hmem => hnew (List.contains_iff_mem.2 hmem), q, List.mem_cons_self, rfl⟩
      · obtain ⟨hhash, hseen, q', hq', hactions⟩ := ih hp
        exact ⟨hhash, fun hmem => hseen (List.mem_cons_of_mem _ hmem), q', List.mem_cons_of_mem _ hq', hactions⟩

theorem nodup_distinctFrom (seen : List String) (plans : List (Plan κ)) :
    ((distinctFrom seen plans).map fun p => fingerprint p.actions).Nodup := by
  induction plans generalizing seen with
  | nil => exact List.nodup_nil
  | cons q plans ih =>
    unfold distinctFrom
    dsimp only
    split
    · exact ih seen
    · refine List.nodup_cons.2 ⟨fun hmem => ?_, ih _⟩
      obtain ⟨p, hp, heq⟩ := List.mem_map.1 hmem
      exact (mem_distinctFrom hp).2.1 (List.mem_cons.2 (.inl heq))

/-- Plans without repetitions carry the digests of their actions. -/
theorem hash_of_mem_distinct {plans : List (Plan κ)} {p : Plan κ} (hp : p ∈ distinct plans) :
    p.hash = some (fingerprint p.actions) := (mem_distinctFrom hp).1

/-- Plans without repetitions are plans of the list. -/
theorem exists_of_mem_distinct {plans : List (Plan κ)} {p : Plan κ} (hp : p ∈ distinct plans) :
    ∃ q ∈ plans, q.actions = p.actions := (mem_distinctFrom hp).2.2

/-- No digest stands twice. -/
theorem nodup_distinct (plans : List (Plan κ)) : ((distinct plans).map fun p => fingerprint p.actions).Nodup :=
  nodup_distinctFrom [] plans

theorem distinctFrom_eq_map {seen : List String} {plans : List (Plan κ)}
    (hnodup : (plans.map fun p => fingerprint p.actions).Nodup) (hnew : ∀ p ∈ plans, fingerprint p.actions ∉ seen) :
    distinctFrom seen plans = plans.map hashed := by
  induction plans generalizing seen with
  | nil => rfl
  | cons p plans ih =>
    obtain ⟨hp, hnodup⟩ := List.nodup_cons.1 hnodup
    obtain ⟨hnewp, hnew⟩ := List.forall_mem_cons.1 hnew
    unfold distinctFrom
    dsimp only
    rw [if_neg fun hmem => hnewp (List.contains_iff_mem.1 hmem), ih hnodup fun q hq hmem => ?_]
    · rfl
    · rcases List.mem_cons.1 hmem with heq | hmem
      · exact hp (List.mem_map.2 ⟨q, hq, heq⟩)
      · exact hnew q hq hmem

/-- All plans are kept if they have different digests. -/
theorem distinct_eq_map {plans : List (Plan κ)} (hnodup : (plans.map fun p => fingerprint p.actions).Nodup) :
    distinct plans = plans.map hashed := distinctFrom_eq_map hnodup fun _ _ => List.not_mem_nil

/-- The digest of a plan depends only on the texts of its actions. -/
theorem fingerprint_congr {as bs : List String} (h : as.map normalized = bs.map normalized) :
    fingerprint as = fingerprint bs := by
  have hlength : as.length = bs.length := by simpa using congrArg List.length h
  have hflat (xs : List String) :
      (xs.flatMap fun a => measured (normalized a)) = (xs.map normalized).flatMap measured := by
    rw [List.flatMap_map]
  unfold fingerprint identity
  rw [hflat, hflat, h, hlength]

end Waymark.Plan
