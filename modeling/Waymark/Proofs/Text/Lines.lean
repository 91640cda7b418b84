import Mathlib.Data.List.TakeWhile
import Mathlib.Tactic
import Waymark.Proofs.Text.Blank

/-!
# Lines of a text

A text made of lines has these lines but for what may end them, which is blank and trimmed off.

* `pieces_intercalate`: pieces with a mark between them;
* `trim_surrounded`: what stands among blanks;
* `filter_trim_lines`: the lines of a text that are not blank.
-/

namespace Waymark.Text

/-- Pieces with a mark between them are what the text is cut into at the mark. -/
theorem pieces_intercalate {mark : Char} {ls : List (List Char)} (hne : ls ≠ []) (h : ∀ l ∈ ls, mark ∉ l) :
    pieces (· = mark) ([mark].intercalate ls) = ls := by
  rw [pieces_eq_splitOnP]
  exact List.splitOn_intercalate mark h hne

theorem not_mem_intercalate {c : Char} {sep : List Char} {ls : List (List Char)} (hsep : c ∉ sep)
    (h : ∀ l ∈ ls, c ∉ l) : c ∉ sep.intercalate ls := by
  induction ls with
  | nil => exact List.not_mem_nil
  | cons l ls ih =>
    obtain ⟨hl, hls⟩ := List.forall_mem_cons.1 h
    cases ls with
    | nil => rwa [List.intercalate_singleton]
    | cons m ls =>
      rw [List.intercalate_cons_cons, List.mem_append, List.mem_append]
      exact not_or.2 ⟨not_or.2 ⟨hl, hsep⟩, ih hls⟩

/-- What is blank. -/
def IsBlankText (cs : List Char) : Prop := ∀ c ∈ cs, isBlank c = true

-- What is decided is whether all characters of the list pass. A quantifier over characters would be decided by trying
-- every character there is.
instance : DecidablePred IsBlankText := fun _ => decidable_of_iff _ List.all_eq_true

theorem isBlankText_space : IsBlankText [' '] := by decide

/-- Nothing is left of blanks, and of nothing else. -/
theorem trim_eq_nil {cs : List Char} : trim cs = [] ↔ IsBlankText cs := by
  rw [trim, trimEnd, List.reverse_eq_nil_iff, List.dropWhile_eq_nil_iff]
  simp only [List.mem_reverse]
  constructor
  · intro hkept c hc
    rw [← List.takeWhile_append_dropWhile (p := isBlank) (l := cs)] at hc
    exact (List.mem_append.1 hc).elim List.mem_takeWhile_imp (hkept c)
  · exact fun h c hc => h c ((List.dropWhile_sublist _).subset hc)

theorem trim_blank_append {before : List Char} (h : IsBlankText before) (cs : List Char) :
    trim (before ++ cs) = trim cs := by
  rw [trim, List.dropWhile_append_of_pos h, trim]

theorem trim_append_blank {after : List Char} (h : IsBlankText after) (cs : List Char) :
    trim (cs ++ after) = trim cs := by
  by_cases hcs : IsBlankText cs
  · have hboth : IsBlankText (cs ++ after) := fun c hc => (List.mem_append.1 hc).elim (hcs c) (h c)
    rw [trim_eq_nil.2 hboth, trim_eq_nil.2 hcs]
  · have hkept : ¬ (cs.dropWhile isBlank).isEmpty = true := by
      rw [List.isEmpty_iff, List.dropWhile_eq_nil_iff]
      exact hcs
    rw [trim, List.dropWhile_append, if_neg hkept, trimEnd, List.reverse_append,
      List.dropWhile_append_of_pos fun c hc => h c (List.mem_reverse.1 hc), trim, trimEnd]

/-- Blanks around a text are trimmed off, and nothing of the text itself if none are at its ends. -/
theorem trim_surrounded {before cs after : List Char} (hbefore : IsBlankText before) (hafter : IsBlankText after)
    (hfirst : ∀ c ∈ cs.head?, isBlank c = false) (hlast : ∀ c ∈ cs.getLast?, isBlank c = false) :
    trim (before ++ cs ++ after) = cs := by
  rw [trim_append_blank hafter, trim_blank_append hbefore, trim_of_ends hfirst hlast]

theorem trim_dropReturn (line : List Char) : trim (dropReturn line) = trim line := by
  unfold dropReturn
  split
  · rename_i hlast
    obtain ⟨init, rfl⟩ := List.getLast?_eq_some_iff.1 hlast
    rw [List.dropLast_concat, trim_append_blank (by decide)]
  · rfl

/-- The lines of a text that are not blank, without the blanks at their ends, are those of which it is made. -/
theorem filter_trim_lines {ls : List (List Char)} (hne : ls ≠ []) (h : ∀ l ∈ ls, '\n' ∉ l) :
    ((lines (['\n'].intercalate ls)).map trim).filter (!·.isEmpty) = (ls.map trim).filter (!·.isEmpty) := by
  have hreturns (ms : List (List Char)) : (ms.map dropReturn).map trim = ms.map trim := by
    rw [List.map_map]
    exact List.map_congr_left fun l _ => trim_dropReturn l
  obtain ⟨init, last, rfl⟩ : ∃ init last, ls = init ++ [last] := ⟨_, _, (List.dropLast_concat_getLast hne).symm⟩
  unfold lines
  rw [pieces_intercalate hne h]
  dsimp only
  rw [List.dropLast_concat, List.getLast?_concat, List.map_append, List.filter_append, hreturns,
    List.map_append, List.filter_append]
  refine congrArg _ ?_
  cases last with
  | nil => rfl
  | cons c cs => rfl

end Waymark.Text
