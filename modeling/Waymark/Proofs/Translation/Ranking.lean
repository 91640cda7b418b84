import Mathlib.Data.String.Basic
import Mathlib.Tactic
import Waymark.Proofs.Text.Lines
import Waymark.Proofs.Translation.Proposals
import Waymark.Translation.Ranking

/-!
# Ranking what is proposed

The ranking of what cues and examples propose has each proposed formula once, by a text from which it is read back, with
the largest score with which it is proposed, and the best first.

* `Translator.hearing`: the translator that hears some of the cues;
* `pairwise_mergeSort_precedes`: candidates are sorted;
* `Ranked`: what candidates for an utterance should be;
* `rank_hearing`: what they are.
-/

namespace Waymark.Translation

open Constraint Number

/-- The translator that hears some of the cues, whatever the utterance is. -/
def Translator.hearing {κ : Type} [Scale κ] (hears : Cue → Bool) : Translator κ :=
  ⟨"cue-phrase", fun prompt utterance => .ok (proposals (Cue.all.filter hears) prompt utterance)⟩

/-! ## The order of candidates -/

section Order

variable {c d : Candidate Exact}

/-- The place of a candidate relative to another one, by confidence, the larger one first, and then by text. -/
def Candidate.place (c d : Candidate Exact) : Ordering :=
  (Scale.order d.confidence c.confidence).then (compare c.formula d.formula)

-- The larger confidence comes first, so confidences are compared the other way round.
instance : Std.TransCmp Candidate.place :=
  let _ : Ord Exact := ⟨Scale.order⟩
  have : Std.TransOrd Exact := inferInstanceAs (Std.TransCmp (Scale.order : Exact → Exact → Ordering))
  have : Std.TransCmp fun c d : Candidate Exact => compareOn Candidate.confidence d c := Std.TransCmp.opposite
  inferInstanceAs (Std.TransCmp (compareLex (fun c d : Candidate Exact => compareOn Candidate.confidence d c)
    (compareOn Candidate.formula)))

/-- Candidates are sorted by their places. -/
theorem pairwise_mergeSort_precedes (cs : List (Candidate Exact)) :
    (cs.mergeSort Candidate.precedes).Pairwise fun c d => (c.place d).isLE = true := by
  have htrans (c d e : Candidate Exact) (hcd : c.precedes d = true) (hde : d.precedes e = true) : c.precedes e = true :=
    (Std.TransCmp.isLE_trans hcd hde : (c.place e).isLE = true)
  have htotal (c d : Candidate Exact) : (c.precedes d || d.precedes c) = true := by
    have hswap : d.place c = (c.place d).swap := Std.OrientedCmp.eq_swap
    show ((c.place d).isLE || (d.place c).isLE) = true
    rw [hswap]
    cases c.place d <;> rfl
  exact List.pairwise_mergeSort htrans htotal cs

/-- Of candidates with different texts, the first has a larger confidence, or the same one and a smaller text. -/
theorem lt_of_place {x y : ℚ} (hx : c.confidence = .number x) (hy : d.confidence = .number y)
    (hplace : (c.place d).isLE = true) (hne : c.formula ≠ d.formula) : y < x ∨ x = y ∧ c.formula < d.formula := by
  have horder : Scale.order d.confidence c.confidence = compare y x := by
    rw [hx, hy]
    exact Exact.order_number y x
  rw [Candidate.place, horder] at hplace
  rcases lt_trichotomy y x with hlt | rfl | hgt
  · exact .inl hlt
  · refine .inr ⟨rfl, ?_⟩
    rw [compare_eq_iff_eq.2 rfl] at hplace
    have hle : compare c.formula d.formula ≠ .gt := Ordering.isLE_iff_ne_gt.1 hplace
    exact lt_of_le_of_ne (compare_le_iff_le.1 hle) hne
  · rw [compare_gt_iff_gt.2 hgt] at hplace
    cases hplace

end Order

/-! ## Candidates -/

section Rank

variable {hears : Cue → Bool} {prompt : Prompt} {utterance : String}

/-- The candidates rank what is proposed: each is the text of a proposed formula that is read back from it, with the
largest score with which the formula is proposed, and all that is proposed is among them. -/
structure Ranked (heard : List Cue) (prompt : Prompt) (utterance : String) (candidates : List (Candidate Exact)) :
    Prop where
  /-- The best come first, and equals are sorted by their texts. -/
  sorted : candidates.Pairwise fun c d => ∃ x y, c.confidence = .number x ∧ d.confidence = .number y ∧
    (y < x ∨ x = y ∧ c.formula < d.formula)
  nodup : (candidates.map (·.formula)).Nodup
  scored : ∀ c ∈ candidates, ∃ f x, c.formula = f.display ∧ Formula.read c.formula = .ok f ∧
    c.confidence = .number x ∧ 0 < x ∧ x ≤ 1 ∧ IsGreatest {x | Proposed heard prompt utterance f x} x
  complete : ∀ f x, Proposed heard prompt utterance f x → ∃ c ∈ candidates, c.formula = f.display

/-- The candidate that a formula with a score between zero and one is. -/
def candidateOf (utterance : String) (scored : Formula × Exact) : Candidate Exact :=
  ⟨utterance, scored.1.display, scored.1.describe, scored.2⟩

theorem candidate_eq_ok {f : Formula} {x : ℚ} (hpos : 0 < x) (hle : x ≤ 1) :
    candidate utterance (f, .number x) = .ok (candidateOf utterance (f, .number x)) := by
  have hlow : Scale.lt (Exact.number x) (Scale.ofNat 0) = false := by
    rw [Exact.ofNat_number, Bool.eq_false_iff, Ne, Exact.lt_number_iff, Nat.cast_zero, not_lt]
    exact hpos.le
  have hhigh : Scale.lt (Scale.ofNat 1) (Exact.number x) = false := by
    rw [Exact.ofNat_number, Bool.eq_false_iff, Ne, Exact.lt_number_iff, Nat.cast_one, not_lt]
    exact hle
  have hclamp : Scale.clamp (Scale.ofNat 0) (Scale.ofNat 1) (Exact.number x) = .number x := by
    rw [Scale.clamp, hlow, if_neg Bool.false_ne_true, hhigh, if_neg Bool.false_ne_true]
  have hfinite : Scale.isFinite (Exact.number x) = true := rfl
  rw [candidate, if_pos hfinite, hclamp, candidateOf]

theorem isEmpty_trimmed (h : Text.allBlank utterance = false) : (Text.trimmed utterance).isEmpty = false := by
  have hne : Text.trim utterance.toList ≠ [] := by
    rw [Ne, Text.trim_eq_nil, Text.IsBlankText, ← List.all_eq_true]
    exact Bool.eq_false_iff.1 h
  rw [Bool.eq_false_iff, Ne, String.isEmpty_iff]
  exact fun hempty => hne (by simpa [Text.trimmed] using congrArg String.toList hempty)

/-- An utterance with a score for each formula is ranked. -/
theorem rank_eq {translator : Translator Exact} {scores : Scores Exact} {unsorted : List (Candidate Exact)}
    (h : Text.allBlank utterance = false)
    (hscores : translator.scores prompt (Text.trimmed utterance) = .ok scores)
    (hcandidates : scores.mapM (candidate (Text.trimmed utterance)) = .ok unsorted) :
    rank translator prompt utterance = .ok (unsorted.mergeSort Candidate.precedes) := by
  unfold rank
  dsimp only
  rw [isEmpty_trimmed h, hscores]
  exact bind_eq_ok.2 ⟨scores, rfl, bind_eq_ok.2 ⟨unsorted, hcandidates, rfl⟩⟩

variable {heard : List Cue} {scores : Scores Exact}

/-- A formula has the largest score with which it is proposed. -/
theorem isGreatest_of_mem (hscores : scores.Merges (offers heard prompt utterance)) {p : Formula × Exact}
    (hp : p ∈ scores) : ∃ x, p.2 = .number x ∧ IsGreatest {x | Proposed heard prompt utterance p.1 x} x := by
  obtain ⟨x, hx, hgreatest⟩ := hscores.isGreatest p.1 p.2 hp
  exact ⟨x, hx, by simpa only [mem_offers] using hgreatest⟩

/-- Merged offers are ranked. -/
theorem ranked_of_merges (hscores : scores.Merges (offers heard prompt utterance)) (hheard : ∀ c ∈ heard, c ∈ Cue.all) :
    Ranked heard prompt utterance ((scores.map (candidateOf utterance)).mergeSort Candidate.precedes) := by
  have hread : ∀ p ∈ scores, Formula.read p.1.display = .ok p.1 := by
    intro p hp
    obtain ⟨x, -, hx, -⟩ := isGreatest_of_mem hscores hp
    exact Formula.read_display_eq_ok_iff.2 hx.isPlain
  have hmem {c : Candidate Exact} : c ∈ (scores.map (candidateOf utterance)).mergeSort Candidate.precedes ↔
      ∃ p ∈ scores, candidateOf utterance p = c := by
    rw [List.mem_mergeSort, List.mem_map]
  have hnodup : (((scores.map (candidateOf utterance)).mergeSort Candidate.precedes).map (·.formula)).Nodup := by
    rw [((List.mergeSort_perm _ _).map _).nodup_iff, List.map_map, List.nodup_iff_pairwise_ne, List.pairwise_map]
    refine hscores.ascending.imp_of_mem fun {p q} hp hq hlt heq => Formula.ne_of_compare_lt hlt ?_
    have hsame : Except.ok p.1 = Formula.read q.1.display := (hread p hp).symm.trans (congrArg Formula.read heq)
    exact Except.ok.inj (hsame.trans (hread q hq))
  refine ⟨?_, hnodup, ?_, ?_⟩
  · refine ((pairwise_mergeSort_precedes _).and (List.pairwise_map.1 hnodup)).imp_of_mem ?_
    intro c d hc hd ⟨hplace, hne⟩
    obtain ⟨p, hp, rfl⟩ := hmem.1 hc
    obtain ⟨q, hq, rfl⟩ := hmem.1 hd
    obtain ⟨x, hx, -⟩ := isGreatest_of_mem hscores hp
    obtain ⟨y, hy, -⟩ := isGreatest_of_mem hscores hq
    exact ⟨x, y, hx, hy, lt_of_place hx hy hplace hne⟩
  · intro c hc
    obtain ⟨p, hp, rfl⟩ := hmem.1 hc
    obtain ⟨x, hx, hgreatest⟩ := isGreatest_of_mem hscores hp
    obtain ⟨hpos, hle⟩ := hgreatest.1.score hheard
    exact ⟨p.1, x, rfl, hread p hp, hx, hpos, hle, hgreatest⟩
  · intro f x hx
    obtain ⟨p, hp, rfl⟩ := List.mem_map.1 (hscores.scored f x (mem_offers.2 hx))
    exact ⟨candidateOf utterance p, hmem.2 ⟨p, hp, rfl⟩, rfl⟩

/-- **The ranking of what cues and examples propose.** Whatever cues are heard in an utterance that is not blank, and so
also those that are heard in it by their patterns, the ranking succeeds. What is proposed is sorted by confidence and
then by text, and has different texts. Each text is read as the formula of which it is the text, whose confidence is the
largest score with which it is proposed. -/
theorem rank_hearing (prompt : Prompt) (h : Text.allBlank utterance = false) :
    (∀ hears : Cue → Bool, ∃ candidates, rank (.hearing hears) prompt utterance = .ok candidates ∧
      Ranked (Cue.all.filter hears) prompt (Text.trimmed utterance) candidates) ∧
    ∃ candidates, rank .cuePhrases prompt utterance = .ok candidates ∧
      Ranked (heardIn (Text.trimmed utterance)) prompt (Text.trimmed utterance) candidates := by
  have hrank (translator : Translator Exact) (heard : List Cue) (hheard : ∀ c ∈ heard, c ∈ Cue.all)
      (hscores : translator.scores prompt (Text.trimmed utterance) =
        .ok (proposals heard prompt (Text.trimmed utterance))) :
      ∃ candidates, rank translator prompt utterance = .ok candidates ∧
        Ranked heard prompt (Text.trimmed utterance) candidates := by
    have hmerges : (proposals heard prompt (Text.trimmed utterance)).Merges _ := merges_proposals hheard
    refine ⟨_, rank_eq h hscores (mapM_eq_ok.2 ?_), ranked_of_merges hmerges hheard⟩
    rw [List.forall₂_map_right_iff, List.forall₂_same]
    intro p hp
    obtain ⟨x, hx, hgreatest⟩ := isGreatest_of_mem hmerges hp
    obtain ⟨hpos, hle⟩ := hgreatest.1.score hheard
    obtain ⟨f, _⟩ := p
    obtain rfl := hx
    exact candidate_eq_ok hpos hle
  exact ⟨fun hears => hrank _ _ (fun _ => List.mem_of_mem_filter) rfl,
    hrank _ _ (fun _ => List.mem_of_mem_filter) rfl⟩

/-- A prompt with an example. -/
def promptOfTwice : Prompt := { examples := [⟨"slack twice", "ExistenceTwo Slack", ""⟩] }

/-- One formula is proposed by a cue, and by an example with a smaller score. Another one is proposed by a cue. -/
theorem rank_hearing_twice : ∃ candidates,
    rank .cuePhrases promptOfTwice " Slack twice, and finally " = .ok candidates ∧
    candidates.map (fun c => (c.formula, c.confidence)) =
      [("ExistenceTwo Slack", Exact.number (4 / 5)), ("End Slack", .number (3 / 5))] ∧
    Ranked (heardIn "Slack twice, and finally") promptOfTwice "Slack twice, and finally" candidates := by
  have hpresent : Text.allBlank " Slack twice, and finally " = false := by decide +kernel
  have htrimmed : Text.trimmed " Slack twice, and finally " = "Slack twice, and finally" := by decide +kernel
  have hscores : proposals (heardIn "Slack twice, and finally") promptOfTwice "Slack twice, and finally" =
      [(⟨.existenceTwo, ["Slack"], rfl, by decide⟩, Exact.number (4 / 5)),
        (⟨.final, ["Slack"], rfl, by decide⟩, .number (3 / 5))] := by decide +kernel
  obtain ⟨candidates, hcandidates, hranked⟩ := (rank_hearing promptOfTwice hpresent).2
  rw [htrimmed] at hranked
  have hrank : rank .cuePhrases promptOfTwice " Slack twice, and finally " = .ok
      (List.mergeSort [⟨"Slack twice, and finally", "ExistenceTwo Slack", "Slack happens at least twice.",
        Exact.number (4 / 5)⟩, ⟨"Slack twice, and finally", "End Slack", "The last thing to happen is Slack.",
        .number (3 / 5)⟩] Candidate.precedes) :=
    rank_eq hpresent (htrimmed ▸ congrArg Except.ok hscores) (by rw [htrimmed]; decide +kernel)
  rw [List.mergeSort_of_pairwise (by decide +kernel)] at hrank
  obtain rfl := Except.ok.inj (hrank.symm.trans hcandidates)
  exact ⟨_, hrank, rfl, hranked⟩

end Rank

end Waymark.Translation
