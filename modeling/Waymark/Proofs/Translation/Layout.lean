import Mathlib.Tactic
import Waymark.Proofs.Text.Lines
import Waymark.Proofs.Translation.Completion
import Waymark.Proofs.Translation.Prompt

/-!
# Layouts of an answer

A prompt shows the answer for a formula on two lines. A completion may lay the same answer out in other ways, and the
same formula is read from it.

* `Layout`: the answer for a formula with blanks around its lines and with other lines among them;
* `Layout.read?_text`: a completion of any layout;
* `read?_answer`: what a prompt shows, and all layouts of it.
-/

namespace Waymark.Translation

open Constraint Text

/-! ## Layouts -/

/-- The line has nothing but blanks around what it shows. -/
def Shows (content line : List Char) : Prop :=
  ∃ before after, IsBlankText before ∧ IsBlankText after ∧ line = before ++ content ++ after

/-- The label that may stand before a template, with the blanks after it. -/
def IsLabel (label : List Char) : Prop :=
  label = [] ∨ ∃ gap, IsBlankText gap ∧ label = "PATTERN:".toList ++ gap

/-- The activities of a formula as an answer lists them. -/
def listed (f : Formula) : List Char := "SYMBOLS: ".toList ++ ", ".toList.intercalate (f.activities.map String.toList)

/-- The answer for a formula: a line for the template and one for the activities, with other lines before, between and
after them. -/
structure Layout (f : Formula) where
  blanks : List (List Char)
  label : List Char
  template : List Char
  between : List (List Char)
  symbols : List Char
  rest : List (List Char)
  isBlankText_of_mem : ∀ line ∈ blanks, IsBlankText line
  isLabel : IsLabel label
  shows_template : Shows (label ++ f.template.name.toList) template
  not_prefix_of_mem : ∀ line ∈ between, ¬ "SYMBOLS:".toList <+: trim line
  shows_symbols : Shows (listed f) symbols
  /-- Lines are ended by line feeds, and have none in them. -/
  one_line : ∀ line ∈ blanks ++ template :: (between ++ symbols :: rest), '\n' ∉ line

namespace Layout

variable {f : Formula}

/-- The lines of a layout. -/
def lines (l : Layout f) : List (List Char) := l.blanks ++ l.template :: (l.between ++ l.symbols :: l.rest)

/-- The text of a layout. -/
def text (l : Layout f) : String := String.ofList (['\n'].intercalate l.lines)

end Layout

/-! ## The template -/

theorem isToken_name (t : Template) : IsToken t.name.toList := by
  have hmem : t.name ∈ Formula.words t.name := by
    rw [Formula.words_name]
    exact List.mem_singleton_self _
  have hword : Formula.IsWord t.name := Formula.isWord_of_mem_words hmem
  refine ⟨?_, fun c hc => (hword c hc).1⟩
  cases t <;> decide +kernel

theorem after?_name (t : Template) : after? "PATTERN:".toList t.name.toList = none := by cases t <;> decide +kernel

theorem trim_label_name {label line : List Char} {t : Template} (hlabel : IsLabel label)
    (hline : Shows (label ++ t.name.toList) line) : trim line = label ++ t.name.toList := by
  obtain ⟨before, after, hbefore, hafter, rfl⟩ := hline
  obtain ⟨hfirst, hlast⟩ := (isToken_name t).ends
  refine trim_surrounded hbefore hafter ?_ (by rwa [List.getLast?_append_of_ne_nil _ (isToken_name t).1])
  rcases hlabel with rfl | ⟨gap, -, rfl⟩
  · exact hfirst
  · rintro c ⟨⟩
    rfl

/-- A template is read with its label and without it. -/
theorem template?_label_name {label : List Char} (hlabel : IsLabel label) (t : Template) :
    Completion.template? (label ++ t.name.toList) = some t := by
  have hname : trim (((after? "PATTERN:".toList (label ++ t.name.toList))).getD (label ++ t.name.toList)) =
      t.name.toList := by
    rcases hlabel with rfl | ⟨gap, hgap, rfl⟩
    · rw [List.nil_append, after?_name]
      exact trim_token (isToken_name t)
    · have hprefix : ("PATTERN:".toList.isPrefixOf ("PATTERN:".toList ++ gap ++ t.name.toList)) = true := by
        rw [List.isPrefixOf_iff_prefix, List.append_assoc]
        exact List.prefix_append _ _
      rw [after?, if_pos hprefix, List.append_assoc, List.drop_left, Option.getD_some, trim_blank_append hgap,
        trim_token (isToken_name t)]
  rw [Completion.template?, hname, String.ofList_toList, Template.read_name]
  rfl

/-! ## The activities -/

/-- A space before each of some words and commas between them. -/
theorem cons_intercalate {ws : List (List Char)} (hne : ws ≠ []) :
    ' ' :: [',', ' '].intercalate ws = [','].intercalate (ws.map (' ' :: ·)) := by
  induction ws with
  | nil => exact absurd rfl hne
  | cons w ws ih =>
    cases ws with
    | nil => rfl
    | cons v ws =>
      have hrest := ih (List.cons_ne_nil v ws)
      rw [List.intercalate_cons_cons, List.map_cons, List.map_cons, List.intercalate_cons_cons, ← List.map_cons,
        ← hrest]
      simp

variable {f : Formula}

theorem activities_ne_nil (f : Formula) : f.activities ≠ [] := by
  have harity := f.template.arity_eq
  have hlength := f.length_activities
  exact List.ne_nil_of_length_pos (by omega)

theorem isToken_of_mem_activities (hplain : f.IsPlain) {a : String} (ha : a ∈ f.activities) : IsToken a.toList :=
  ⟨by simpa using f.ne_empty a ha, fun c hc => (hplain a ha c hc).1⟩

/-- The activities are read from the list of them. -/
theorem activitiesOf_listed (hplain : f.IsPlain) :
    Completion.activitiesOf (' ' :: ", ".toList.intercalate (f.activities.map String.toList)) = f.activities := by
  have hne : f.activities.map String.toList ≠ [] := by simpa using activities_ne_nil f
  have hcomma : ∀ piece ∈ (f.activities.map String.toList).map (' ' :: ·), ',' ∉ piece := by
    simp only [List.forall_mem_map]
    intro a ha hmem
    rcases List.mem_cons.1 hmem with heq | hmem
    · cases heq
    · exact (Formula.isPunctuation_eq_false.1 (hplain a ha ',' hmem).2).2.2 rfl
  have htrim : ((f.activities.map String.toList).map (' ' :: ·)).map trim = f.activities.map String.toList := by
    rw [List.map_map, List.map_map]
    refine List.map_congr_left fun a ha => ?_
    exact (trim_blank_append isBlankText_space a.toList).trans (trim_token (isToken_of_mem_activities hplain ha))
  have hkept : (f.activities.map String.toList).filter (!·.isEmpty) = f.activities.map String.toList := by
    rw [List.filter_eq_self, List.forall_mem_map]
    intro a ha
    simpa using (isToken_of_mem_activities hplain ha).1
  have hpieces := pieces_intercalate (by simpa using hne) hcomma
  rw [← cons_intercalate hne] at hpieces
  rw [Completion.activitiesOf, show ", ".toList = [',', ' '] from rfl, hpieces, htrim, hkept, List.map_map]
  exact (List.map_congr_left fun a _ => String.ofList_toList).trans (List.map_id _)

theorem trim_listed (hplain : f.IsPlain) {line : List Char} (hline : Shows (listed f) line) :
    trim line = listed f := by
  obtain ⟨before, after, hbefore, hafter, rfl⟩ := hline
  have htokens : ∀ w ∈ f.activities.map String.toList, IsToken w :=
    List.forall_mem_map.2 fun a => isToken_of_mem_activities hplain
  obtain ⟨hne, -, hlast⟩ := ends_intercalate (by simpa using activities_ne_nil f) htokens ", ".toList
  have hfirst : (listed f).head? = some 'S' := rfl
  have hlast' : (listed f).getLast? = (", ".toList.intercalate (f.activities.map String.toList)).getLast? :=
    List.getLast?_append_of_ne_nil _ hne
  refine trim_surrounded hbefore hafter ?_ (hlast' ▸ hlast)
  rw [hfirst]
  rintro c ⟨⟩
  rfl

/-! ## Reading -/

theorem Layout.writtenLines_text (l : Layout f) : Completion.writtenLines l.text =
    (l.lines.map trim).filter (!·.isEmpty) := by
  rw [Completion.writtenLines, Layout.text, String.toList_ofList]
  exact filter_trim_lines (List.append_ne_nil_of_right_ne_nil _ (List.cons_ne_nil _ _)) l.one_line

/-- **A completion of any layout** is read as the formula whose answer is laid out. -/
theorem Layout.read?_text (hplain : f.IsPlain) (l : Layout f) : Completion.read? l.text = some f := by
  have hblanks : (l.blanks.map trim).filter (!·.isEmpty) = [] := by
    rw [List.filter_eq_nil_iff, List.forall_mem_map]
    intro line hline
    simp [trim_eq_nil.2 (l.isBlankText_of_mem line hline)]
  have hbetween : ((l.between.map trim).filter (!·.isEmpty)).findSome? (after? "SYMBOLS:".toList) = none := by
    rw [List.findSome?_eq_none_iff]
    intro line hline
    obtain ⟨line, hmem, rfl⟩ := List.mem_map.1 (List.mem_filter.1 hline).1
    exact if_neg fun hprefix => l.not_prefix_of_mem line hmem (List.isPrefixOf_iff_prefix.1 hprefix)
  have htemplate : (!(l.label ++ f.template.name.toList).isEmpty) = true := by
    simp [(isToken_name f.template).1]
  have hlisted : after? "SYMBOLS:".toList (listed f) =
      some (' ' :: ", ".toList.intercalate (f.activities.map String.toList)) ∧ (!(listed f).isEmpty) = true :=
    ⟨rfl, rfl⟩
  -- Blank lines are not written, so the template stands first, and the list is the first line with its label.
  have hlines : Completion.writtenLines l.text = (l.label ++ f.template.name.toList) ::
      ((l.between.map trim).filter (!·.isEmpty) ++ listed f :: (l.rest.map trim).filter (!·.isEmpty)) := by
    rw [l.writtenLines_text, Layout.lines, List.map_append, List.filter_append, hblanks, List.nil_append, List.map_cons,
      trim_label_name l.isLabel l.shows_template, List.filter_cons, if_pos htemplate, List.map_append,
      List.filter_append, List.map_cons, trim_listed hplain l.shows_symbols, List.filter_cons, if_pos hlisted.2]
  unfold Completion.read?
  rw [hlines]
  simp only [template?_label_name l.isLabel, List.findSome?_append, hbetween, List.findSome?_cons, hlisted.1,
    activitiesOf_listed hplain, Option.none_or, Option.bind_eq_bind, Option.bind_some]
  exact toOption_eq_some.2 (Formula.of_eq_ok.2 ⟨rfl, rfl⟩)

/-! ## The answer itself -/

/-- The answer for a formula is its template and the list of its activities. -/
theorem toList_answer (f : Formula) : (Prompt.answer f).toList = f.template.name.toList ++ '\n' :: listed f := by
  have hlabel : "\nSYMBOLS: ".toList = '\n' :: "SYMBOLS: ".toList := by decide +kernel
  -- The laws are stated for all texts first: rewriting with them would unfold the texts that are written out.
  have happend (x y z : String) : (x ++ y ++ z).toList = x.toList ++ (y.toList ++ z.toList) := by
    rw [String.toList_append, String.toList_append, List.append_assoc]
  have hlist (sep : String) (as : List String) : (sep.intercalate as).toList =
      sep.toList.intercalate (as.map String.toList) := String.toList_intercalate
  exact (happend _ _ _).trans
    (congrArg₂ (fun l m => f.template.name.toList ++ (l ++ m)) hlabel (hlist ", " f.activities))

theorem not_mem_name (t : Template) : '\n' ∉ t.name.toList := fun hmem => nomatch (isToken_name t).2 _ hmem

theorem not_mem_listed (hplain : f.IsPlain) : '\n' ∉ listed f := by
  have hlabel : '\n' ∉ "SYMBOLS: ".toList ∧ '\n' ∉ ", ".toList := by decide +kernel
  have htokens : ∀ w ∈ f.activities.map String.toList, '\n' ∉ w := by
    refine List.forall_mem_map.2 fun a ha hmem => ?_
    cases (isToken_of_mem_activities hplain ha).2 _ hmem
  intro hmem
  rcases List.mem_append.1 hmem with hmem | hmem
  · exact hlabel.1 hmem
  · exact Text.not_mem_intercalate hlabel.2 htokens hmem

/-- The answer of a formula as it is shown, after blanks and a label. -/
def Layout.shown (hplain : f.IsPlain) {before label : List Char} (hbefore : IsBlankText before) (hlabel : IsLabel label)
    (hline : '\n' ∉ before ++ label) : Layout f where
  blanks := []
  label := label
  template := before ++ (label ++ f.template.name.toList)
  between := []
  symbols := listed f
  rest := []
  isBlankText_of_mem := nofun
  isLabel := hlabel
  shows_template := ⟨before, [], hbefore, nofun, by simp⟩
  not_prefix_of_mem := nofun
  shows_symbols := ⟨[], [], nofun, nofun, by simp⟩
  one_line := by
    rw [← List.append_assoc]
    have htemplate := List.not_mem_append hline (not_mem_name f.template)
    exact List.forall_mem_cons.2 ⟨htemplate, List.forall_mem_cons.2 ⟨not_mem_listed hplain, nofun⟩⟩

theorem Layout.text_shown (hplain : f.IsPlain) {before label : List Char} (hbefore : IsBlankText before)
    (hlabel : IsLabel label) (hline : '\n' ∉ before ++ label) :
    (shown hplain hbefore hlabel hline).text = String.ofList (before ++ label) ++ Prompt.answer f := by
  apply String.toList_injective
  rw [String.toList_append, toList_answer, Layout.text, String.toList_ofList, String.toList_ofList]
  simp only [Layout.lines, Layout.shown, List.nil_append, List.intercalate_cons_cons, List.intercalate_singleton,
    List.append_assoc, List.singleton_append]

/-! ## Shown answers and their layouts -/

/-- **A prompt shows what its completions are read as.** An example whose formula can be read is shown with the answer
for the formula. This answer is read as the formula, and so is any other layout of it: with a label or without one, with
blanks around its lines, with blank lines before them, with lines between them that list no activities, and with any
lines after them. -/
theorem read?_answer {text : String} (h : Formula.read text = .ok f) :
    (∀ prompt : Prompt, ∀ t ∈ prompt.examples, t.formula = text → ∀ utterance, ∃ before after,
      prompt.render utterance = before ++ "PATTERN: " ++ Prompt.answer f ++ "\n\n" ++ after) ∧
    (∃ l : Layout f, l.text = Prompt.answer f) ∧ (∃ l : Layout f, l.text = " " ++ Prompt.answer f) ∧
    (∃ l : Layout f, l.text = "PATTERN: " ++ Prompt.answer f) ∧
    ∀ l : Layout f, Completion.read? l.text = some f := by
  have hplain : f.IsPlain := Formula.isPlain_of_read h
  have hnone : IsBlankText [] := nofun
  have hlabel : IsLabel ("PATTERN:".toList ++ [' ']) := .inr ⟨[' '], isBlankText_space, rfl⟩
  refine ⟨fun prompt t ht htext utterance => Prompt.exists_render_eq ht (htext ▸ h) utterance, ?_, ?_, ?_,
    Layout.read?_text hplain⟩
  · exact ⟨_, (Layout.text_shown hplain hnone (.inl rfl) (by decide)).trans String.empty_append⟩
  · exact ⟨_, Layout.text_shown hplain isBlankText_space (.inl rfl) (by decide)⟩
  · exact ⟨_, Layout.text_shown hplain hnone hlabel (by decide +kernel)⟩

/-- An answer with a label, among blanks and among lines of other content. -/
def scattered : Layout slackThenGmail where
  blanks := [[], [' ', '\t']]
  label := "PATTERN:  ".toList
  template := "\tPATTERN:  Response ".toList
  between := ["because Slack comes first".toList, []]
  symbols := "  SYMBOLS: Slack, Gmail\t".toList
  rest := ["SYMBOLS: Slack".toList, []]
  isBlankText_of_mem := by decide
  isLabel := .inr ⟨[' ', ' '], by decide, by decide +kernel⟩
  shows_template := ⟨['\t'], [' '], by decide, by decide, by decide +kernel⟩
  not_prefix_of_mem := by decide +kernel
  shows_symbols := ⟨[' ', ' '], ['\t'], by decide, by decide, by decide +kernel⟩
  one_line := by decide +kernel

/-- An answer that a prompt shows, and the same answer in another layout. -/
theorem read?_answer_scattered :
    Formula.read "response (Slack) Gmail" = .ok slackThenGmail ∧
    scattered.text = "\n \t\n\tPATTERN:  Response \nbecause Slack comes first\n\n" ++
      "  SYMBOLS: Slack, Gmail\t\nSYMBOLS: Slack\n" ∧
    Completion.read? scattered.text = some slackThenGmail := by
  have hread : Formula.read "response (Slack) Gmail" = .ok slackThenGmail := by decide +kernel
  exact ⟨hread, by decide +kernel, (read?_answer hread).2.2.2.2 scattered⟩

end Waymark.Translation
