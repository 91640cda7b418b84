import Mathlib.Order.Bounds.Basic
import Mathlib.Tactic
import Waymark.Proofs.Constraint.FormulaText
import Waymark.Proofs.Number.Exact
import Waymark.Translation.Scores

/-!
# Merged scores

Scores are merged by raising them one after another. Formulas with scores stay in ascending order, so a formula has one
score, and this is the largest that was offered for it.

* `Scores.Ascending.alter`, `Scores.mem_alter_of_ne`, `Scores.mem_alter_self`: one score is altered;
* `Scores.Merges.raise`, `Scores.merges_raiseAll`: what scores are when offers have been merged.
-/

namespace Waymark

open Constraint Number

/-- Formulas are sorted by their places: the order is a total preorder. -/
instance Constraint.Formula.instTransCmp : Std.TransCmp Formula.compare :=
  inferInstanceAs <| Std.TransCmp <|
    compareLex (compareOn fun f : Formula => f.template.rank) (compareOn Formula.activities)

theorem Constraint.Formula.ne_of_compare_lt {f g : Formula} (h : f.compare g = .lt) : f ≠ g := by
  intro heq
  rw [compare_eq_iff.2 heq] at h
  cases h

namespace Translation.Scores

/-! ## Altering a score -/

section Alter

variable {κ : Type} {f g : Formula} {change : Option κ → κ} {scores : Scores κ} {x y : κ}

/-- The formulas stand in ascending order. -/
def Ascending (scores : Scores κ) : Prop := scores.Pairwise fun p q => p.1.compare q.1 = .lt

/-- The formula that is altered has a score then, and no other formula gets one. -/
theorem mem_alter : g ∈ (scores.alter f change).map (·.1) ↔ g = f ∨ g ∈ scores.map (·.1) := by
  induction scores with
  | nil => simp [alter]
  | cons scored rest ih =>
    obtain ⟨k, x⟩ := scored
    unfold alter
    split
    · simp
    · rename_i heq
      obtain rfl := Formula.compare_eq_iff.1 heq
      simp
    · rw [List.map_cons, List.mem_cons, ih, List.map_cons, List.mem_cons]
      tauto

theorem mem_alter_of_ne (hne : g ≠ f) : (g, x) ∈ scores.alter f change ↔ (g, x) ∈ scores := by
  induction scores with
  | nil => simp [alter, hne]
  | cons scored rest ih =>
    obtain ⟨k, y⟩ := scored
    unfold alter
    split
    · simp [hne]
    · rename_i heq
      obtain rfl := Formula.compare_eq_iff.1 heq
      simp [hne]
    · rw [List.mem_cons, ih, List.mem_cons]

/-- Formulas that all stand after one do not have it among them. -/
theorem not_mem_of_lt (h : ∀ p ∈ scores, f.compare p.1 = .lt) : ∀ x, (f, x) ∉ scores :=
  fun _ hx => Formula.ne_of_compare_lt (h _ hx) rfl

theorem Ascending.lt_of_lt (h : Ascending ((g, x) :: scores)) (hlt : f.compare g = .lt) :
    ∀ p ∈ (g, x) :: scores, f.compare p.1 = .lt :=
  List.forall_mem_cons.2 ⟨hlt, fun _ hp => Std.TransCmp.lt_trans hlt (List.rel_of_pairwise_cons h hp)⟩

/-- The score of the formula that is altered is made of its score so far, if there is one. -/
theorem mem_alter_self (h : Ascending scores) : (f, y) ∈ scores.alter f change ↔
    (∃ x, (f, x) ∈ scores ∧ y = change (some x)) ∨ (∀ x, (f, x) ∉ scores) ∧ y = change none := by
  induction scores with
  | nil => simp [alter]
  | cons scored rest ih =>
    obtain ⟨g, z⟩ := scored
    unfold alter
    split
    · rename_i hlt
      have hnone := not_mem_of_lt (h.lt_of_lt hlt)
      simp [hnone]
    · rename_i heq
      obtain rfl := Formula.compare_eq_iff.1 heq
      have hrest := not_mem_of_lt (List.pairwise_cons.1 h).1
      simp [hrest]
    · rename_i hgt
      have hne : f ≠ g := (Formula.ne_of_compare_lt (Std.OrientedCmp.lt_of_gt hgt)).symm
      simp [hne, ih (List.pairwise_cons.1 h).2]

/-- Formulas stay in ascending order. -/
theorem Ascending.alter (h : Ascending scores) : Ascending (scores.alter f change) := by
  induction scores with
  | nil => exact List.pairwise_singleton _ _
  | cons scored rest ih =>
    obtain ⟨g, z⟩ := scored
    obtain ⟨hfirst, hrest⟩ := List.pairwise_cons.1 h
    unfold Scores.alter
    split
    · rename_i hlt
      exact List.pairwise_cons.2 ⟨h.lt_of_lt hlt, h⟩
    · exact List.pairwise_cons.2 ⟨hfirst, hrest⟩
    · rename_i hgt
      refine List.pairwise_cons.2 ⟨fun ⟨k, x⟩ hk => ?_, ih hrest⟩
      by_cases hne : k = f
      · exact hne ▸ Std.OrientedCmp.lt_of_gt hgt
      · exact hfirst _ ((mem_alter_of_ne hne).1 hk)

end Alter

/-! ## Merging offers -/

/-- The scores are the largest that are offered for each formula, and all that are offered are scored. -/
structure Merges (offers : List (Formula × ℚ)) (scores : Scores Exact) : Prop where
  ascending : scores.Ascending
  isGreatest : ∀ f k, (f, k) ∈ scores → ∃ x, k = .number x ∧ IsGreatest {x | (f, x) ∈ offers} x
  scored : ∀ f x, (f, x) ∈ offers → f ∈ scores.map (·.1)

variable {offers : List (Formula × ℚ)} {scores : Scores Exact} {f : Formula} {x : ℚ}

/-- One more offer is merged. -/
theorem Merges.raise (h : Merges offers scores) (hx : 0 < x) :
    Merges (offers ++ [(f, x)]) (scores.raise f (.number x)) := by
  have hoffers : {y | (f, y) ∈ offers ++ [(f, x)]} = insert x {y | (f, y) ∈ offers} := by
    ext y
    simp [or_comm]
  refine ⟨h.ascending.alter, fun g k hk => ?_, fun g y hy => mem_alter.2 ?_⟩
  · by_cases hne : g = f
    · subst hne
      rcases (mem_alter_self h.ascending).1 hk with ⟨k', hk', rfl⟩ | ⟨hnone, rfl⟩
      · obtain ⟨z, rfl, hz⟩ := h.isGreatest g k' hk'
        exact ⟨max x z, Exact.max_number.trans (by rw [max_comm]), hoffers ▸ hz.insert x⟩
      · have hempty : {y | (g, y) ∈ offers} = ∅ := by
          refine Set.eq_empty_of_forall_notMem fun y hy => ?_
          obtain ⟨p, hp, rfl⟩ := List.mem_map.1 (h.scored g y hy)
          exact hnone p.2 hp
        -- Scores start from zero, so an offer above it is the largest as long as it is the only one.
        have hmax : Scale.max (Scale.ofNat 0) (Exact.number x) = .number x := by
          rw [Exact.ofNat_number, Exact.max_number, Nat.cast_zero, max_eq_right hx.le]
        refine ⟨x, hmax, ?_⟩
        rw [hoffers, hempty, LawfulSingleton.insert_empty_eq]
        exact isGreatest_singleton
    · obtain ⟨z, rfl, hz⟩ := h.isGreatest g k ((mem_alter_of_ne hne).1 hk)
      exact ⟨z, rfl, by simpa [hne] using hz⟩
  · rcases List.mem_append.1 hy with hy | hy
    · exact .inr (h.scored g y hy)
    · exact .inl (congrArg Prod.fst (List.mem_singleton.1 hy))

/-- Raises scores by one offer after another. -/
def raiseAll (scores : Scores Exact) (offers : List (Formula × ℚ)) : Scores Exact :=
  offers.foldl (fun scores o => scores.raise o.1 (.number o.2)) scores

theorem raiseAll_append (scores : Scores Exact) (offers later : List (Formula × ℚ)) :
    scores.raiseAll (offers ++ later) = (scores.raiseAll offers).raiseAll later := List.foldl_append

theorem foldl_raiseAll {α : Type} (made : α → List (Formula × ℚ)) (xs : List α) (scores : Scores Exact) :
    xs.foldl (fun scores x => scores.raiseAll (made x)) scores = scores.raiseAll (xs.flatMap made) :=
  List.foldl_flatMap.symm

/-- **Merged scores** are the largest that are offered. -/
theorem merges_raiseAll (h : ∀ o ∈ offers, 0 < o.2) : Merges offers (raiseAll [] offers) := by
  induction offers using List.reverseRecOn with
  | nil => exact ⟨List.Pairwise.nil, nofun, nofun⟩
  | append_singleton offers o ih =>
    obtain ⟨hoffers, ho⟩ := List.forall_mem_append.1 h
    rw [raiseAll_append]
    exact (ih hoffers).raise (ho o List.mem_cons_self)

end Translation.Scores

end Waymark
