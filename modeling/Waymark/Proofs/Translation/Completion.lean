import Mathlib.Tactic
import Waymark.Encoding.Compile
import Waymark.Proofs.Translation.Scores
import Waymark.Translation.Ranking

/-!
# Formulas of completions

A completion lists activities with commas between them, the text of a formula lists them with blanks. So what is
proposed after some completions are compared is compiled as it was meant only if no activity of it has a blank or a
parenthesis in it.

* `Completion.read_display_of_read?`: the formulas that completions give, and their texts;
* `Completion.mem_tally`: the formulas that are scored;
* `exists_of_mem_rank`: the candidates that are ranked;
* `compileText_sampled`: what ranked candidates are compiled as.
-/

namespace Waymark.Translation

open Constraint Number

variable {f g : Formula}

/-! ## Completions -/

namespace Completion

/-- No listed activity contains the mark between activities. -/
theorem not_comma_of_mem_activitiesOf {list : List Char} {a : String} (ha : a ∈ activitiesOf list) :
    ',' ∉ a.toList := by
  obtain ⟨cs, hcs, rfl⟩ := List.mem_map.1 ha
  obtain ⟨piece, hpiece, rfl⟩ := List.mem_map.1 (List.mem_filter.1 hcs).1
  rw [Text.pieces_eq_splitOnP] at hpiece
  intro hmem
  rw [String.toList_ofList] at hmem
  have hnot := Text.not_of_mem_splitOnP hpiece ',' (Text.mem_of_mem_trim hmem)
  exact of_decide_eq_false hnot rfl

/-- The activities of what a completion gives are listed in it. -/
theorem exists_of_read? {text : String} (h : read? text = some f) : ∃ list, f.activities = activitiesOf list := by
  unfold read? at h
  split at h
  · cases h
  · obtain ⟨t, -, h⟩ := Option.bind_eq_some_iff.1 h
    obtain ⟨list, -, h⟩ := Option.bind_eq_some_iff.1 h
    exact ⟨list, (Formula.of_eq_ok.1 (toOption_eq_some.1 h)).2⟩

/-- **What a completion gives is read back** just if its activities have no blanks and no parentheses in them. -/
theorem read_display_of_read? {text : String} (h : read? text = some f) : Formula.read f.display = .ok f ↔
    ∀ a ∈ f.activities, ∀ c ∈ a.toList, Text.isBlank c = false ∧ c ≠ '(' ∧ c ≠ ')' := by
  obtain ⟨list, hlist⟩ := exists_of_read? h
  rw [Formula.read_display_eq_ok_iff]
  refine forall₂_congr fun a ha => forall₂_congr fun c hc => and_congr_right fun _ => ?_
  have hcomma : c ≠ ',' := fun heq => not_comma_of_mem_activitiesOf (hlist ▸ ha) (heq ▸ hc)
  rw [Formula.isPunctuation_eq_false, and_iff_left hcomma]

end Completion

/-! ## Scores -/

section Scores

variable {κ : Type} [Scale κ]

/-- **The formulas that are scored** are those that completions give. -/
theorem Completion.mem_tally {completions : List String} :
    f ∈ (tally (κ := κ) completions).map (·.1) ↔ ∃ text ∈ completions, read? text = some f := by
  have hput (fs : List Formula) (share : Formula → κ) (scores : Scores κ) :
      f ∈ (fs.foldl (fun scores f => scores.put f (share f)) scores).map (·.1) ↔ f ∈ fs ∨ f ∈ scores.map (·.1) := by
    induction fs generalizing scores with
    | nil => simp
    | cons g fs ih =>
      rw [List.foldl_cons, ih, Scores.put, Scores.mem_alter, List.mem_cons]
      tauto
  unfold tally
  dsimp only
  rw [hput, List.mem_filterMap]
  simp

/-! ## Candidates -/

theorem formula_candidate {utterance : String} {scored : Formula × κ} {c : Candidate κ}
    (h : candidate utterance scored = .ok c) : c.formula = scored.1.display := by
  unfold candidate at h
  dsimp only at h
  split at h
  · obtain rfl := Except.ok.inj h
    rfl
  · cases h

variable {translator : Translator κ} {prompt : Prompt} {utterance : String} {candidates : List (Candidate κ)}

theorem rank_eq_ok (h : rank translator prompt utterance = .ok candidates) :
    ∃ scores unsorted, translator.scores prompt (Text.trimmed utterance) = .ok scores ∧
      scores.mapM (candidate (Text.trimmed utterance)) = .ok unsorted ∧
      candidates = unsorted.mergeSort Candidate.precedes := by
  unfold rank at h
  dsimp only at h
  split at h
  · cases h
  · obtain ⟨scores, hscores, h⟩ := bind_eq_ok.1 h
    obtain ⟨unsorted, hunsorted, h⟩ := bind_eq_ok.1 h
    refine ⟨scores, unsorted, ?_, hunsorted, (Except.ok.inj h).symm⟩
    cases hfound : translator.scores prompt (Text.trimmed utterance) with
    | error e => rw [hfound] at hscores; cases hscores
    | ok found => rw [hfound] at hscores; exact hscores

/-- **What is ranked** after some completions are the texts of the formulas that they give. -/
theorem exists_of_mem_rank {name : String} {complete : String → Except Failure (List String)}
    (h : rank (.sampled name complete) prompt utterance = .ok candidates) :
    ∃ completions, complete (prompt.render (Text.trimmed utterance)) = .ok completions ∧
      ∀ c ∈ candidates, ∃ f : Formula, c.formula = f.display ∧
        ∃ text ∈ completions, Completion.read? text = some f := by
  obtain ⟨scores, unsorted, hscores, hunsorted, rfl⟩ := rank_eq_ok h
  obtain ⟨completions, hcompletions, rfl⟩ := map_eq_ok.1 hscores
  refine ⟨completions, hcompletions, fun c hc => ?_⟩
  obtain ⟨scored, hscored, hcandidate⟩ := exists_rel_of_mem (mapM_eq_ok.1 hunsorted) (List.mem_mergeSort.1 hc)
  exact ⟨scored.1, formula_candidate hcandidate, Completion.mem_tally.1 (List.mem_map_of_mem hscored)⟩

end Scores

/-! ## Compiling what is ranked -/

open Encoding Planning

/-- Formulas that are written as their texts are read back just if each is. -/
theorem mapM_read_eq_ok_iff {texts : List String} {fs : List Formula}
    (h : List.Forall₂ (fun text f => text = f.display) texts fs) :
    texts.mapM Formula.read = .ok fs ↔ ∀ f ∈ fs, f.IsPlain := by
  rw [mapM_eq_ok]
  induction h with
  | nil => simp
  | @cons text f texts fs htext _ ih =>
    rw [List.forall₂_cons, List.forall_mem_cons, ih, htext, Formula.read_display_eq_ok_iff]

/-- Formula texts are read before anything else of a task that has texts. -/
theorem compileText_of_mapM {texts : List String} {fs : List Formula} (h : texts.mapM Formula.read = .ok fs)
    (task : TaskText) (tool : Tool) : compileText task texts tool = do
      task.requirePresent
      let (domain, problem) ← task.read
      let (domain, problem) ← compile domain problem fs tool
      return .of domain problem := by
  rw [compileText, h]
  rfl

/-- **What is compiled after some completions.** What a completion gives is read back from its text as a formula of the
same template, over the words of its activities, and so as itself just if these have no blanks and no parentheses in
them. Each ranked candidate is the text of what some completion gives. If this holds of all that are chosen, then these
formulas are compiled, and else they are not what is read from the texts. -/
theorem compileText_sampled {κ : Type} [Scale κ] :
    (∀ text f, Completion.read? text = some f →
      Formula.read f.display = Formula.of f.template (f.activities.flatMap Formula.words) ∧
      (Formula.read f.display = .ok f ↔
        ∀ a ∈ f.activities, ∀ c ∈ a.toList, Text.isBlank c = false ∧ c ≠ '(' ∧ c ≠ ')')) ∧
    ∀ name complete prompt utterance (candidates chosen : List (Candidate κ)),
      rank (.sampled name complete) prompt utterance = .ok candidates → (∀ c ∈ chosen, c ∈ candidates) →
      ∃ completions fs, complete (prompt.render (Text.trimmed utterance)) = .ok completions ∧
        List.Forall₂ (fun c f => c.formula = f.display ∧ ∃ text ∈ completions, Completion.read? text = some f)
          chosen fs ∧
        ((chosen.map (·.formula)).mapM Formula.read = .ok fs ↔ ∀ f ∈ fs, f.IsPlain) ∧
        ((∀ f ∈ fs, f.IsPlain) → ∀ task tool, compileText task (chosen.map (·.formula)) tool = do
          task.requirePresent
          let (domain, problem) ← task.read
          let (domain, problem) ← compile domain problem fs tool
          return .of domain problem) := by
  refine ⟨fun text f h => ⟨f.read_display, Completion.read_display_of_read? h⟩, ?_⟩
  intro name complete prompt utterance candidates chosen hrank hchosen
  obtain ⟨completions, hcompletions, hgiven⟩ := exists_of_mem_rank hrank
  obtain ⟨fs, hfs⟩ := exists_forall₂ fun c hc => hgiven c (hchosen c hc)
  have hread : (chosen.map (·.formula)).mapM Formula.read = .ok fs ↔ ∀ f ∈ fs, f.IsPlain :=
    mapM_read_eq_ok_iff (List.forall₂_map_left_iff.2 (hfs.imp fun _ _ h => h.1))
  exact ⟨completions, fs, hcompletions, hfs, hread, fun hplain => compileText_of_mapM (hread.2 hplain)⟩

/-- A message must be followed by another one. -/
def slackThenGmail : Formula := ⟨.response, ["Slack", "Gmail"], rfl, by decide⟩

/-- Two completions, one of which gives a formula. It is compiled as it was given. -/
theorem compileText_sampled_slack :
    Formula.read slackThenGmail.display = .ok slackThenGmail ∧ ∃ candidates : List (Candidate Exact),
      rank (.sampled "samples" fun _ => .ok ["Response\nSYMBOLS: Slack, Gmail", "Always\nSYMBOLS: Slack"]) {}
        "answer mail" = .ok candidates ∧ candidates.map (·.formula) = ["Response Slack Gmail"] ∧
      ∀ task tool, compileText task (candidates.map (·.formula)) tool = do
        task.requirePresent
        let (domain, problem) ← task.read
        let (domain, problem) ← compile domain problem [slackThenGmail] tool
        return .of domain problem := by
  obtain ⟨hread, hcompile⟩ := compileText_sampled (κ := Exact)
  have hfirst : Completion.read? "Response\nSYMBOLS: Slack, Gmail" = some slackThenGmail := by decide +kernel
  have hsecond : Completion.read? "Always\nSYMBOLS: Slack" = none := by decide +kernel
  have hrank : rank (.sampled "samples" fun _ => .ok ["Response\nSYMBOLS: Slack, Gmail", "Always\nSYMBOLS: Slack"]) {}
      "answer mail" = .ok [⟨"answer mail", "Response Slack Gmail",
        "Whenever Slack happens, Gmail happens afterward.", Exact.number (1 / 2)⟩] := by decide +kernel
  have hplain : ∀ f ∈ [slackThenGmail], f.IsPlain := by decide
  have hchars : ∀ a ∈ slackThenGmail.activities, ∀ c ∈ a.toList, Text.isBlank c = false ∧ c ≠ '(' ∧ c ≠ ')' := by
    intro a ha c hc
    obtain ⟨hblank, hpunctuation⟩ := hplain _ List.mem_cons_self a ha c hc
    obtain ⟨hstart, hstop, -⟩ := Formula.isPunctuation_eq_false.1 hpunctuation
    exact ⟨hblank, hstart, hstop⟩
  obtain ⟨completions, fs, hcompletions, hfs, -, hcompiles⟩ := hcompile _ _ _ _ _ _ hrank fun _ hc => hc
  obtain rfl := Except.ok.inj hcompletions
  obtain ⟨f, rest, ⟨-, text, htext, hf⟩, hrest, rfl⟩ := List.forall₂_cons_left_iff.1 hfs
  obtain rfl := List.forall₂_nil_left_iff.1 hrest
  obtain rfl : f = slackThenGmail := by
    rcases List.mem_cons.1 htext with rfl | htext
    · exact Option.some.inj (hf.symm.trans hfirst)
    · rw [List.mem_singleton.1 htext, hsecond] at hf
      cases hf
  exact ⟨(hread _ _ hfirst).2.2 hchars, _, hrank, rfl, hcompiles hplain⟩

/-- An activity of two words is not read back, and one in parentheses is read back as another one. -/
theorem Completion.exists_unread :
    (∃ f, read? "Existence\nSYMBOLS: two words" = some f ∧ f.activities = ["two words"] ∧
      ∀ g, Formula.read f.display ≠ .ok g) ∧
    ∃ f, read? "Response\nSYMBOLS: (Slack), Gmail" = some f ∧ f ≠ slackThenGmail ∧
      Formula.read f.display = .ok slackThenGmail := by
  constructor
  · refine ⟨⟨.existence, ["two words"], rfl, by decide⟩, by decide +kernel, rfl, fun g hg => ?_⟩
    rw [Formula.read_display] at hg
    exact nomatch hg
  · refine ⟨⟨.response, ["(Slack)", "Gmail"], rfl, by decide⟩, by decide +kernel, by decide, ?_⟩
    rw [Formula.read_display]
    rfl

end Waymark.Translation
