import Mathlib.Tactic
import Waymark.Text.Blank

/-!
# Words between blanks

A text made of words with a space between them has these words, and nothing is trimmed off it.

* `IsToken`: a text of at least one character, none of them blank;
* `not_of_mem_runs`, `runs_append_cons`, `runs_eq_singleton`, `flatten_runs`: the runs of a text;
* `isToken_of_mem_words`: the words of a text;
* `words_intercalate`: the text of some words;
* `trim_of_ends`, `trim_token`, `ends_intercalate`, `trim_intercalate`: texts without blanks at their ends.
-/

namespace Waymark.Text

/-- The text has a character, and no character of it is blank. -/
def IsToken (cs : List Char) : Prop := cs ≠ [] ∧ ∀ c ∈ cs, isBlank c = false

/-! ## Cutting -/

theorem pieces_eq_splitOnP (p : Char → Bool) (cs : List Char) : pieces p cs = cs.splitOnP p := by
  induction cs with
  | nil => rfl
  | cons c cs ih =>
    rw [List.splitOnP_cons_eq_if_modifyHead, ← ih]
    by_cases hc : p c = true
    · rw [if_pos hc]
      exact if_pos hc
    · have hne : pieces p cs ≠ [] := ih ▸ List.splitOnP_ne_nil p cs
      obtain ⟨w, ws, heq⟩ := List.exists_cons_of_ne_nil hne
      rw [if_neg hc, heq]
      unfold pieces at heq ⊢
      rw [List.foldr_cons, if_neg hc, heq]
      rfl

/-- No piece contains a character at which the text is cut. -/
theorem not_of_mem_splitOnP {p : Char → Bool} {cs w : List Char} (hw : w ∈ cs.splitOnP p) :
    ∀ c ∈ w, p c = false := by
  induction cs generalizing w with
  | nil =>
    obtain rfl := List.mem_singleton.1 hw
    exact nofun
  | cons c cs ih =>
    rw [List.splitOnP_cons_eq_if_modifyHead] at hw
    split at hw
    · rcases List.mem_cons.1 hw with rfl | hw
      · exact nofun
      · exact ih hw
    · rename_i hc
      obtain ⟨v, vs, heq⟩ := List.exists_cons_of_ne_nil (List.splitOnP_ne_nil p cs)
      rw [heq] at hw ih
      rcases List.mem_cons.1 hw with rfl | hw
      · exact List.forall_mem_cons.2 ⟨Bool.eq_false_iff.2 hc, ih List.mem_cons_self⟩
      · exact ih (List.mem_cons_of_mem _ hw)

section Runs

variable {p : Char → Bool}

/-- Runs have characters, and none of them is one at which the text is cut. -/
theorem not_of_mem_runs {cs w : List Char} (hw : w ∈ runs p cs) : w ≠ [] ∧ ∀ c ∈ w, p c = false := by
  obtain ⟨hmem, hne⟩ := List.mem_filter.1 hw
  exact ⟨by simpa using hne, not_of_mem_splitOnP (pieces_eq_splitOnP p cs ▸ hmem)⟩

theorem runs_append_cons {c : Char} (hc : p c = true) (cs ds : List Char) :
    runs p (cs ++ c :: ds) = runs p cs ++ runs p ds := by
  unfold runs
  rw [pieces_eq_splitOnP, List.splitOnP_append_cons cs ds hc, List.filter_append, pieces_eq_splitOnP,
    pieces_eq_splitOnP]

theorem runs_eq_singleton {w : List Char} (hne : w ≠ []) (h : ∀ c ∈ w, p c = false) : runs p w = [w] := by
  have hkept : (!w.isEmpty) = true := by simpa using hne
  unfold runs
  rw [pieces_eq_splitOnP, List.splitOnP_eq_singleton h, List.filter_cons, if_pos hkept, List.filter_nil]

/-- The runs of a text have all characters at which it is not cut. -/
theorem flatten_runs (cs : List Char) : (runs p cs).flatten = cs.filter fun c => !p c := by
  have hpieces : (pieces p cs).flatten = cs.filter fun c => !p c := by
    rw [pieces_eq_splitOnP]
    induction cs with
    | nil => rfl
    | cons c cs ih =>
      rw [List.splitOnP_cons_eq_if_modifyHead]
      by_cases hc : p c = true
      · rw [if_pos hc, List.filter_cons_of_neg (by simpa using hc), ← ih]
        rfl
      · obtain ⟨w, ws, heq⟩ := List.exists_cons_of_ne_nil (List.splitOnP_ne_nil p cs)
        rw [if_neg hc, List.filter_cons_of_pos (by simpa using hc), ← ih, heq]
        rfl
  rw [← hpieces, runs, List.flatten_filter_not_isEmpty]

end Runs

/-- The words of a text have characters, and none of them is blank. -/
theorem isToken_of_mem_words {cs w : List Char} (hw : w ∈ words cs) : IsToken w := not_of_mem_runs hw

theorem words_token {w : List Char} (hw : IsToken w) : words w = [w] := runs_eq_singleton hw.1 hw.2

theorem words_token_append {w : List Char} (hw : IsToken w) (rest : List Char) :
    words (w ++ ' ' :: rest) = w :: words rest :=
  (runs_append_cons (p := isBlank) rfl w rest).trans (congrArg (· ++ words rest) (words_token hw))

/-- Words with a space between them are the words of the text. -/
theorem words_intercalate {ws : List (List Char)} (h : ∀ w ∈ ws, IsToken w) : words ([' '].intercalate ws) = ws := by
  induction ws with
  | nil => rfl
  | cons w ws ih =>
    obtain ⟨hw, hws⟩ := List.forall_mem_cons.1 h
    cases ws with
    | nil =>
      rw [List.intercalate_singleton]
      exact words_token hw
    | cons v ws =>
      rw [List.intercalate_cons_cons, List.append_assoc]
      exact (words_token_append hw _).trans (congrArg (w :: ·) (ih hws))

/-! ## Trimming -/

theorem mem_of_mem_trim {c : Char} {cs : List Char} (hc : c ∈ trim cs) : c ∈ cs := by
  have hend := List.mem_reverse.1 ((List.dropWhile_sublist _).subset (List.mem_reverse.1 hc))
  exact (List.dropWhile_sublist _).subset hend

/-- Nothing is trimmed off a text that neither starts nor ends with a blank. -/
theorem trim_of_ends {cs : List Char} (hfirst : ∀ c ∈ cs.head?, isBlank c = false)
    (hlast : ∀ c ∈ cs.getLast?, isBlank c = false) : trim cs = cs := by
  have hkept {ds : List Char} (h : ∀ c ∈ ds.head?, isBlank c = false) : ds.dropWhile isBlank = ds := by
    cases ds with
    | nil => rfl
    | cons d ds => exact List.dropWhile_cons_of_neg (Bool.eq_false_iff.1 (h d rfl))
  rw [trim, hkept hfirst, trimEnd, hkept (by rwa [List.head?_reverse]), List.reverse_reverse]

theorem IsToken.ends {w : List Char} (hw : IsToken w) :
    (∀ c ∈ w.head?, isBlank c = false) ∧ ∀ c ∈ w.getLast?, isBlank c = false :=
  ⟨fun c hc => hw.2 c (List.mem_of_mem_head? hc), fun c hc => hw.2 c (List.mem_of_mem_getLast? hc)⟩

theorem trim_token {w : List Char} (hw : IsToken w) : trim w = w := trim_of_ends hw.ends.1 hw.ends.2

/-- Nothing is trimmed off a text with no blank at its ends. -/
theorem trim_eq_self {first last : Char} {cs : List Char} (hfirst : isBlank first = false)
    (hlast : isBlank last = false) : trim (first :: (cs ++ [last])) = first :: (cs ++ [last]) := by
  refine trim_of_ends (by simpa using hfirst) ?_
  rw [← List.cons_append, List.getLast?_concat]
  simpa using hlast

/-- Tokens with anything between them have no blanks at their ends. -/
theorem ends_intercalate {ws : List (List Char)} (hne : ws ≠ []) (h : ∀ w ∈ ws, IsToken w) (sep : List Char) :
    sep.intercalate ws ≠ [] ∧ (∀ c ∈ (sep.intercalate ws).head?, isBlank c = false) ∧
      ∀ c ∈ (sep.intercalate ws).getLast?, isBlank c = false := by
  induction ws with
  | nil => exact absurd rfl hne
  | cons w ws ih =>
    obtain ⟨hw, hws⟩ := List.forall_mem_cons.1 h
    cases ws with
    | nil =>
      rw [List.intercalate_singleton]
      exact ⟨hw.1, hw.ends⟩
    | cons v ws =>
      obtain ⟨hne, -, hlast⟩ := ih (List.cons_ne_nil v ws) hws
      rw [List.intercalate_cons_cons, List.append_assoc, List.head?_append_of_ne_nil _ hw.1]
      refine ⟨List.append_ne_nil_of_left_ne_nil hw.1 _, hw.ends.1, ?_⟩
      rwa [List.getLast?_append_of_ne_nil _ (List.append_ne_nil_of_right_ne_nil _ hne),
        List.getLast?_append_of_ne_nil _ hne]

/-- Nothing is trimmed off words with a space between them. -/
theorem trim_intercalate {ws : List (List Char)} (h : ∀ w ∈ ws, IsToken w) :
    trim ([' '].intercalate ws) = [' '].intercalate ws := by
  cases ws with
  | nil => rfl
  | cons w ws =>
    obtain ⟨-, hfirst, hlast⟩ := ends_intercalate (List.cons_ne_nil w ws) h [' ']
    exact trim_of_ends hfirst hlast

end Waymark.Text
