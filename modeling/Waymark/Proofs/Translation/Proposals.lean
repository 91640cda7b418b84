import Mathlib.Tactic
import Waymark.Proofs.Text.Lower
import Waymark.Proofs.Translation.Prompt
import Waymark.Proofs.Translation.Scores
import Waymark.Translation.Cue

/-!
# Proposals

A cue speaks for its template over the activities of an utterance, and an example that is like the utterance speaks for
its own template. What is proposed has activities of one word each and a score of at most one, and is scored with the
largest score with which it is proposed.

* `overlap`: how much two texts are alike;
* `isWord_of_mem_activitiesIn`: the activities of an utterance;
* `getElem?_instances`: the formulas of a template over activities;
* `Proposed`: the formulas that cues and examples speak for, with their scores;
* `merges_proposals`: the scores of what is proposed.
-/

namespace Waymark.Translation

open Constraint Number

/-! ## Similarity -/

section Overlap

variable {s t : String}

/-- The share of the words of two texts that both of them have. -/
def overlap (s t : String) : ℚ :=
  ((wordSet s).toFinset ∩ (wordSet t).toFinset).card / ((wordSet s).toFinset ∪ (wordSet t).toFinset).card

theorem similarity_eq : similarity (wordSet s) (wordSet t) = Exact.number (overlap s t) := by
  have hs : (wordSet s).Nodup := nodup_eraseDups _
  have ht : (wordSet t).Nodup := nodup_eraseDups _
  have hshared : ((wordSet s).filter (wordSet t).contains).length =
      ((wordSet s).toFinset ∩ (wordSet t).toFinset).card := by
    rw [← List.toFinset_card_of_nodup (hs.filter _), List.toFinset_filter]
    congr 1
    ext w
    simp
  have hunion : (wordSet s).length + ((wordSet t).filter fun w => !(wordSet s).contains w).length =
      ((wordSet s).toFinset ∪ (wordSet t).toFinset).card := by
    have hrest : ((wordSet t).filter fun w => !(wordSet s).contains w).toFinset =
        (wordSet t).toFinset \ (wordSet s).toFinset := by
      ext w
      simp
    rw [← List.toFinset_card_of_nodup hs, ← List.toFinset_card_of_nodup (ht.filter _), hrest, Nat.add_comm,
      Finset.card_sdiff_add_card, Finset.union_comm]
  unfold similarity
  dsimp only
  rw [hshared, hunion]
  split
  · rename_i hnone
    rw [overlap, hnone, Nat.cast_zero, div_zero, Exact.ofNat_number, Nat.cast_zero]
  · exact Exact.ofQuotient_number _ _

theorem overlap_le_one : overlap s t ≤ 1 :=
  div_le_one_of_le₀ (Nat.cast_le.2 (Finset.card_le_card Finset.inter_subset_union)) (Nat.cast_nonneg _)

end Overlap

/-! ## Activities -/

section Activities

/-- The names in a text are not empty and have characters of names only. -/
theorem isNameChar_of_mem_namesFrom {name cs : List Char} (hname : ∀ c ∈ name, isNameChar c = true) :
    ∀ w ∈ namesFrom name cs, w ≠ "" ∧ ∀ c ∈ w.toList, isNameChar c = true := by
  have hread {name : List Char} (hne : ¬ name.isEmpty = true) (hname : ∀ c ∈ name, isNameChar c = true) :
      String.ofList name.reverse ≠ "" ∧ ∀ c ∈ (String.ofList name.reverse).toList, isNameChar c = true := by
    refine ⟨fun h => hne ?_, by simpa using hname⟩
    simpa using congrArg String.toList h
  induction cs generalizing name with
  | nil =>
    unfold namesFrom
    split
    · exact nofun
    · rename_i hne
      exact fun w hw => List.mem_singleton.1 hw ▸ hread hne hname
  | cons c cs ih =>
    unfold namesFrom
    split
    · refine ih ?_
      split
      · rename_i halpha
        exact fun d hd => by simp [List.mem_singleton.1 hd, isNameChar, Char.isAlphanum, halpha]
      · exact nofun
    · rename_i hne
      split
      · rename_i hc
        exact ih (List.forall_mem_cons.2 ⟨hc, hname⟩)
      · exact List.forall_mem_cons.2 ⟨hread hne hname, ih nofun⟩

theorem toNat_lt_of_isNameChar {c : Char} (h : isNameChar c = true) : c.toNat < 128 := by
  unfold isNameChar Char.isAlphanum Char.isAlpha Char.isUpper Char.isLower Char.isDigit at h
  simp only [Bool.or_eq_true, Bool.and_eq_true, decide_eq_true_eq, UInt32.le_iff_toNat_le, ge_iff_le] at h
  have hchars : 'Z'.val.toNat = 90 ∧ 'z'.val.toNat = 122 ∧ '9'.val.toNat = 57 ∧ c.toNat = c.val.toNat :=
    ⟨rfl, rfl, rfl, rfl⟩
  rcases h with (hc | rfl) | rfl
  · omega
  · decide
  · decide

/-- Nothing parts a name into words. -/
theorem isWord_of_isNameChar {w : String} (h : ∀ c ∈ w.toList, isNameChar c = true) : Formula.IsWord w := fun c hc =>
  Text.ascii_forall (P := fun c => isNameChar c = true → Text.isBlank c = false ∧ Formula.isPunctuation c = false)
    (by decide) (toNat_lt_of_isNameChar (h c hc)) (h c hc)

variable {prompt : Prompt} {utterance a : String}

/-- Each activity of an utterance is one word. -/
theorem isWord_of_mem_activitiesIn (ha : a ∈ activitiesIn prompt.activities utterance) : a ≠ "" ∧ Formula.IsWord a := by
  obtain ⟨w, hw, ha⟩ := List.mem_filterMap.1 (List.mem_eraseDups.1 ha)
  have hnone : ∀ c ∈ ([] : List Char), isNameChar c = true := nofun
  obtain ⟨hne, hchars⟩ := isNameChar_of_mem_namesFrom hnone w hw
  unfold activity? at ha
  dsimp only at ha
  split at ha
  · rename_i k hk
    obtain rfl := Option.some.inj ha
    exact Prompt.isWord_of_mem_activities (List.mem_of_find?_eq_some hk)
  · split at ha
    · obtain rfl := Option.some.inj ha
      exact ⟨hne, isWord_of_isNameChar hchars⟩
    · cases ha

end Activities

/-! ## Formulas of a template -/

section Instances

variable {t : Template} {as : List String} {reversed : Bool} {f : Formula} {i : ℕ}

/-- A template over one activity has a formula for each. -/
theorem getElem?_singles (harity : t.arity = 1) (has : ∀ a ∈ as, a ≠ "") :
    (as.filterMap fun a => (Formula.of t [a]).toOption)[i]? = some f ↔
      ∃ a, as[i]? = some a ∧ Formula.of t [a] = .ok f := by
  induction as generalizing i with
  | nil => simp
  | cons a as ih =>
    obtain ⟨ha, has⟩ := List.forall_mem_cons.1 has
    have hlength : [a].length = t.arity := harity.symm
    obtain ⟨g, hg⟩ := Formula.exists_of_eq_ok hlength (by simpa using ha)
    have hfirst : (Formula.of t [a]).toOption = some g := toOption_eq_some.2 hg
    rw [List.filterMap_cons, hfirst]
    cases i with
    | zero => simp [hg]
    | succ i => simpa using ih has

/-- A template over one activity is instantiated with each of them, and one over two with the first two. -/
theorem getElem?_instances (has : ∀ a ∈ as, a ≠ "") : (instances t as reversed)[i]? = some f ↔
    (∃ a, as[i]? = some a ∧ Formula.of t [a] = .ok f) ∨
    i = 0 ∧ ∃ a b rest, as = a :: b :: rest ∧ Formula.of t (if reversed then [b, a] else [a, b]) = .ok f := by
  have htwo (a b : String) : (if reversed then [b, a] else [a, b]).length = 2 := by split <;> rfl
  unfold instances
  split
  · rename_i harity
    rw [getElem?_singles harity has, or_iff_left]
    rintro ⟨-, a, b, -, -, hf⟩
    rw [← Formula.length_of hf, htwo] at harity
    cases harity
  · rename_i harity
    rw [or_iff_right (fun ⟨_, _, hf⟩ => harity (Formula.length_of hf).symm)]
    split
    · rename_i a b rest
      cases i with
      | succ i =>
        cases hf : Formula.of t (if reversed then [b, a] else [a, b]) <;> simp [Except.toOption]
      | zero =>
        rw [← List.head?_eq_getElem?, Option.head?_toList, toOption_eq_some]
        constructor
        · intro hf
          exact ⟨rfl, a, b, rest, rfl, hf⟩
        · rintro ⟨-, _, _, _, ⟨⟩, hf⟩
          exact hf
    · rename_i hfew
      refine iff_of_false (by simp) ?_
      rintro ⟨-, a, b, rest, rfl, -⟩
      exact hfew a b rest rfl

/-- An example speaks for its template over the first activities, or for its own formula if there are too few. -/
theorem instanceOfExample_eq_some {g : Formula} (has : ∀ a ∈ as, a ≠ "") : instanceOfExample as g = some f ↔
    if g.template.arity ≤ as.length then Formula.of g.template (as.take g.template.arity) = .ok f else f = g := by
  unfold instanceOfExample
  split
  · rename_i hlength
    rw [List.head?_eq_getElem?, getElem?_instances has]
    rcases g.template.arity_eq with harity | harity
    · rw [harity] at hlength ⊢
      obtain ⟨a, rest, rfl⟩ := List.exists_cons_of_length_pos hlength
      rw [or_iff_left]
      · simp
      · rintro ⟨-, _, _, _, -, hf⟩
        cases (Formula.length_of hf).trans harity
    · rw [harity] at hlength ⊢
      obtain ⟨a, b, rest, rfl⟩ : ∃ a b rest, as = a :: b :: rest := by
        match as, hlength with
        | a :: b :: rest, _ => exact ⟨a, b, rest, rfl⟩
      rw [or_iff_right]
      · simp
      · rintro ⟨_, -, hf⟩
        cases (Formula.length_of hf).trans harity
  · exact ⟨fun h => (Option.some.inj h).symm, fun h => h ▸ rfl⟩

end Instances

/-! ## What is proposed -/

section Proposed

variable {heard : List Cue} {prompt : Prompt} {utterance : String} {f : Formula} {x : ℚ}

/-- A cue that is heard or an example that is like the utterance speaks for a formula with a score. -/
inductive Proposed (heard : List Cue) (prompt : Prompt) (utterance : String) : Formula → ℚ → Prop
  /-- A cue for a template over one activity speaks for each activity, and less for those after the first. -/
  | single {c : Cue} {i : ℕ} {a : String} {f : Formula} (hc : c ∈ heard)
      (ha : (activitiesIn prompt.activities utterance)[i]? = some a) (hf : Formula.of c.template [a] = .ok f) :
      Proposed heard prompt utterance f (c.percent / 100 * if i = 0 then 1 else 4 / 5)
  /-- A cue for a template over two activities speaks for the first two, in its order. -/
  | pair {c : Cue} {a b : String} {rest : List String} {f : Formula} (hc : c ∈ heard)
      (has : activitiesIn prompt.activities utterance = a :: b :: rest)
      (hf : Formula.of c.template (if c.reversed then [b, a] else [a, b]) = .ok f) :
      Proposed heard prompt utterance f (c.percent / 100)
  /-- An example speaks for its template over the first activities, or for its own formula if there are too few. -/
  | likeness {t : Translation} {g f : Formula} (ht : t ∈ prompt.examples) (hg : Formula.read t.formula = .ok g)
      (hlike : 1 / 2 ≤ overlap utterance t.utterance)
      (hf : if g.template.arity ≤ (activitiesIn prompt.activities utterance).length then
        Formula.of g.template ((activitiesIn prompt.activities utterance).take g.template.arity) = .ok f else f = g) :
      Proposed heard prompt utterance f (overlap utterance t.utterance)

/-! ## Offers -/

/-- What a cue speaks for, in the order in which it is merged. -/
def Cue.offers (activities : List String) (c : Cue) : List (Formula × ℚ) :=
  (instances c.template activities c.reversed).zipIdx.map fun p =>
    (p.1, c.percent / 100 * if p.2 = 0 then 1 else 4 / 5)

/-- What an example speaks for, if it is like the utterance. -/
def exampleOffers (utterance : String) (activities : List String) (e : Translation × Formula) : List (Formula × ℚ) :=
  if overlap utterance e.1.utterance < 1 / 2 then []
  else (instanceOfExample activities e.2).toList.map (·, overlap utterance e.1.utterance)

/-- What cues and examples speak for. -/
def offers (heard : List Cue) (prompt : Prompt) (utterance : String) : List (Formula × ℚ) :=
  let activities := activitiesIn prompt.activities utterance
  heard.flatMap (Cue.offers activities) ++ prompt.parsed.flatMap (exampleOffers utterance activities)

theorem Cue.propose_eq (activities : List String) (scores : Scores Exact) (c : Cue) :
    c.propose activities scores = scores.raiseAll (c.offers activities) := by
  have hscore (i : ℕ) : Scale.mul (Scale.ofQuotient c.percent 100)
      (if i = 0 then Scale.ofNat 1 else Scale.ofQuotient 4 5) =
        Exact.number (c.percent / 100 * if i = 0 then 1 else 4 / 5) := by
    rw [Exact.ofNat_number, Exact.ofQuotient_number, Exact.ofQuotient_number]
    split <;> simp
  unfold propose offers Scores.raiseAll
  rw [List.foldl_map]
  simp only [hscore]

theorem proposeExample_eq (utterance : String) (activities : List String) (scores : Scores Exact)
    (e : Translation × Formula) :
    proposeExample utterance activities scores e = scores.raiseAll (exampleOffers utterance activities e) := by
  have hhalf : Scale.lt (Exact.number (overlap utterance e.1.utterance)) (Scale.ofQuotient 1 2) = true ↔
      overlap utterance e.1.utterance < 1 / 2 := by
    rw [Exact.ofQuotient_number, Exact.lt_number_iff]
    norm_num
  unfold proposeExample exampleOffers
  dsimp only
  rw [similarity_eq]
  simp only [hhalf]
  split
  · rfl
  · cases instanceOfExample activities e.2 <;> rfl

/-- Proposals are merged offers. -/
theorem proposals_eq (heard : List Cue) (prompt : Prompt) (utterance : String) :
    proposals heard prompt utterance = Scores.raiseAll [] (offers heard prompt utterance) := by
  unfold proposals offers
  dsimp only
  rw [Scores.raiseAll_append, ← Scores.foldl_raiseAll, ← Scores.foldl_raiseAll]
  simp only [← Cue.propose_eq, ← proposeExample_eq]

/-- What is offered is what is proposed. -/
theorem mem_offers : (f, x) ∈ offers heard prompt utterance ↔ Proposed heard prompt utterance f x := by
  have has : ∀ a ∈ activitiesIn prompt.activities utterance, a ≠ "" := fun a ha => (isWord_of_mem_activitiesIn ha).1
  unfold offers
  dsimp only
  rw [List.mem_append, List.mem_flatMap, List.mem_flatMap]
  constructor
  · rintro (⟨c, hc, hoffer⟩ | ⟨⟨t, g⟩, ht, hoffer⟩)
    · obtain ⟨⟨g, i⟩, hg, heq⟩ := List.mem_map.1 hoffer
      obtain ⟨rfl, rfl⟩ := Prod.mk.inj heq
      rcases (getElem?_instances has).1 (List.mem_zipIdx_iff_getElem?.1 hg) with ⟨_, ha, hf⟩ | ⟨rfl, _, _, _, hab, hf⟩
      · exact .single hc ha hf
      · rw [if_pos rfl, mul_one]
        exact .pair hc hab hf
    · unfold exampleOffers at hoffer
      split at hoffer
      · cases hoffer
      · rename_i hlike
        obtain ⟨h, hh, heq⟩ := List.mem_map.1 hoffer
        obtain ⟨rfl, rfl⟩ := Prod.mk.inj heq
        obtain ⟨hexample, hread⟩ := Prompt.mem_parsed.1 ht
        exact .likeness hexample hread (not_lt.1 hlike)
          ((instanceOfExample_eq_some has).1 (Option.mem_toList.1 hh))
  · rintro (⟨hc, ha, hf⟩ | ⟨hc, hab, hf⟩ | ⟨ht, hg, hlike, hf⟩)
    · refine .inl ⟨_, hc, List.mem_map.2 ⟨(f, _), List.mem_zipIdx_iff_getElem?.2 ?_, rfl⟩⟩
      exact (getElem?_instances has).2 (.inl ⟨_, ha, hf⟩)
    · refine .inl ⟨_, hc, List.mem_map.2 ⟨(f, 0), List.mem_zipIdx_iff_getElem?.2 ?_, by simp⟩⟩
      exact (getElem?_instances has).2 (.inr ⟨rfl, _, _, _, hab, hf⟩)
    · refine .inr ⟨_, Prompt.mem_parsed.2 ⟨ht, hg⟩, ?_⟩
      unfold exampleOffers
      rw [if_neg (not_lt.2 hlike)]
      exact List.mem_map.2 ⟨f, Option.mem_toList.2 ((instanceOfExample_eq_some has).2 hf), rfl⟩

/-- The activities of what is proposed are one word each. -/
theorem Proposed.isPlain (h : Proposed heard prompt utterance f x) : f.IsPlain := by
  cases h with
  | single _ ha hf =>
    rw [Formula.IsPlain, (Formula.of_eq_ok.1 hf).2, List.forall_mem_singleton]
    exact (isWord_of_mem_activitiesIn (List.mem_of_getElem? ha)).2
  | pair _ has hf =>
    have hmem : ∀ a ∈ f.activities, a ∈ activitiesIn prompt.activities utterance := by
      rw [(Formula.of_eq_ok.1 hf).2, has]
      split <;> simp
    exact fun a ha => (isWord_of_mem_activitiesIn (hmem a ha)).2
  | likeness _ hg _ hf =>
    split at hf
    · rw [Formula.IsPlain, (Formula.of_eq_ok.1 hf).2]
      exact fun a ha => (isWord_of_mem_activitiesIn (List.mem_of_mem_take ha)).2
    · exact hf ▸ Formula.isPlain_of_read hg

theorem percent_of_mem_all : ∀ c ∈ Cue.all, 0 < c.percent ∧ c.percent ≤ 100 := by decide

/-- Scores are above zero and at most one. -/
theorem Proposed.score (h : Proposed heard prompt utterance f x) (hheard : ∀ c ∈ heard, c ∈ Cue.all) :
    0 < x ∧ x ≤ 1 := by
  have hstrength {c : Cue} (hc : c ∈ heard) : (0 : ℚ) < c.percent / 100 ∧ (c.percent / 100 : ℚ) ≤ 1 := by
    obtain ⟨hpos, hle⟩ := percent_of_mem_all c (hheard c hc)
    have hpos' : (0 : ℚ) < c.percent := by exact_mod_cast hpos
    have hle' : (c.percent : ℚ) ≤ 100 := by exact_mod_cast hle
    constructor <;> linarith
  cases h with
  | single hc _ _ =>
    obtain ⟨hpos, hle⟩ := hstrength hc
    split <;> constructor <;> linarith
  | pair hc _ _ => exact hstrength hc
  | likeness _ _ hlike _ => exact ⟨by linarith, overlap_le_one⟩

/-- **The scores of what is proposed** are the largest with which it is proposed. -/
theorem merges_proposals (hheard : ∀ c ∈ heard, c ∈ Cue.all) :
    Scores.Merges (offers heard prompt utterance) (proposals heard prompt utterance) := by
  rw [proposals_eq]
  exact Scores.merges_raiseAll fun o ho => ((mem_offers.1 ho).score hheard).1

end Proposed

end Waymark.Translation
