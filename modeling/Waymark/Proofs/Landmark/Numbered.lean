import Mathlib.Data.List.Lex
import Mathlib.Data.Prod.Lex
import Mathlib.Data.String.Basic
import Mathlib.Tactic
import Waymark.Proofs.Landmark.Drafted

/-!
# Numbers of landmarks

The landmarks of a graph are numbered by their layers and, within a layer, by the names of their facts. Hence
orderings, which lead from a layer to a later one, lead from a number to a greater one.

* `Survey.rank`, `Survey.comesBefore_iff`, `Survey.isEarlier_iff`: the order of the numbers;
* `Survey.pairwise_sorted`, `Survey.newId_lt_newId`: numbers agree with the order;
* `ids_finish`, `nodup_facts_finish`, `lt_of_mem_orders_finish`: the graphs of drafts.
-/

namespace Waymark.Landmark

open Ground

variable {κ : Type} {s : Survey κ} {d : Draft}

/-! ## The order -/

theorem namesBefore_iff {xs ys : List String} : Survey.namesBefore xs ys = true ↔ xs ≤ ys := by
  induction xs generalizing ys with
  | nil => exact iff_of_true rfl (not_lt.1 (List.not_lt_nil ys))
  | cons x xs ih =>
    cases ys with
    | nil => exact iff_of_false nofun (not_le_of_gt (List.nil_lt_cons x xs))
    | cons y ys =>
      rw [Survey.namesBefore, ← not_lt, List.cons_lt_cons_iff]
      split
      · rename_i heq
        subst heq
        rw [ih, ← not_lt]
        have hirrefl : ¬ x < x := lt_irrefl x
        tauto
      · rename_i hne
        rw [decide_eq_true_eq]
        have hlt : x < y ↔ ¬ y < x := ⟨fun h => h.asymm, fun h => lt_of_le_of_ne (not_lt.1 h) hne⟩
        have hne' : y ≠ x := Ne.symm hne
        tauto

/-- The layer in which one of the facts is reached first, or none. -/
def Survey.layer (s : Survey κ) (facts : List Nat) : WithTop ℕ :=
  match s.firstLayer? facts with
  | some depth => depth
  | none => ⊤

/-- Landmarks are numbered by their layers, then by the names of their facts. -/
def Survey.rank (s : Survey κ) (c : Candidate) : WithTop ℕ ×ₗ List String :=
  toLex (s.layer c.facts, s.names c.facts)

theorem Survey.isEarlier_iff {first second : List Nat} :
    s.isEarlier first second = true ↔ s.layer first < s.layer second := by
  unfold isEarlier layer
  split <;> simp [*]

theorem Survey.comesBefore_iff {x y : Candidate} : s.comesBefore x y = true ↔ s.rank x ≤ s.rank y := by
  rw [rank, rank, Prod.Lex.toLex_le_toLex, ← namesBefore_iff]
  unfold comesBefore layer
  split
  · rename_i a b ha hb
    simp only [ha, hb]
    split
    · rename_i heq
      simp [heq]
    · rename_i hne
      simp [hne]
  · simp [*]
  · simp [*]
  · simp [*]

theorem Survey.rank_lt_rank {x y : Candidate} (h : s.isEarlier x.facts y.facts = true) : s.rank x < s.rank y :=
  Prod.Lex.toLex_lt_toLex.2 (.inl (isEarlier_iff.1 h))

/-- Numbers agree with the order. -/
theorem Survey.pairwise_sorted (s : Survey κ) (d : Draft) :
    (s.sorted d).Pairwise fun x y => s.rank x.1 ≤ s.rank y.1 := by
  have hsorted : (s.sorted d).Pairwise fun x y => s.comesBefore x.1 y.1 = true := by
    refine List.pairwise_mergeSort (fun x y z hxy hyz => ?_) (fun x y => ?_) _
    · exact comesBefore_iff.2 ((comesBefore_iff.1 hxy).trans (comesBefore_iff.1 hyz))
    · rw [Bool.or_eq_true, comesBefore_iff, comesBefore_iff]
      exact le_total _ _
  exact hsorted.imp comesBefore_iff.1

/-- A landmark that is reached earlier has a smaller number. -/
theorem Survey.newId_lt_newId {i j : Nat} {c c' : Candidate} (hi : d.candidates[i]? = some c)
    (hj : d.candidates[j]? = some c') (h : s.isEarlier c.facts c'.facts = true) : s.newId d i < s.newId d j := by
  obtain ⟨hlti, hgeti⟩ := List.getElem?_eq_some_iff.1 (getElem?_sorted_newId (s := s) hi)
  obtain ⟨hltj, hgetj⟩ := List.getElem?_eq_some_iff.1 (getElem?_sorted_newId (s := s) hj)
  by_contra hnot
  have hle : s.rank c' ≤ s.rank c := by
    rcases (not_lt.1 hnot).eq_or_lt with heq | hlt
    · have hsame : (c', j) = (c, i) := by
        rw [← hgeti, ← hgetj]
        simp only [heq]
      exact (congrArg s.rank (Prod.mk.inj hsame).1).le
    · have hpair := List.pairwise_iff_getElem.1 (s.pairwise_sorted d) _ _ hltj hlti hlt
      rwa [hgeti, hgetj] at hpair
  exact absurd (rank_lt_rank h) (not_lt.2 hle)

/-! ## Graphs -/

theorem landmarks_finish (s : Survey κ) (d : Draft) :
    (s.finish d).landmarks = (s.sorted d).zipIdx.map fun x => s.landmark x.2 x.1.1 := rfl

/-- Landmarks are numbered by their places. -/
theorem ids_finish (s : Survey κ) (d : Draft) : (s.finish d).ids = List.range (s.finish d).landmarks.length := by
  have hsnd : (s.sorted d).zipIdx.map (·.2) = List.range (s.sorted d).length := by
    rw [List.zipIdx_map_snd, List.range_eq_range']
  rw [Graph.ids, landmarks_finish, List.map_map, List.length_map, List.length_zipIdx, ← hsnd]
  rfl

/-- Facts in strictly ascending order are told by their names. -/
theorem eq_of_names {facts facts' : List Nat} (h : facts.Pairwise (· < ·)) (h' : facts'.Pairwise (· < ·))
    (hrange : ∀ f ∈ facts, f < s.task.facts.size) (hrange' : ∀ f ∈ facts', f < s.task.facts.size)
    (hnames : (s.names facts).toFinset = (s.names facts').toFinset) : facts = facts' := by
  have hmem (f : Nat) : s.task.facts.name f ∈ s.names facts ↔ s.task.facts.name f ∈ s.names facts' := by
    rw [← List.mem_toFinset, hnames, List.mem_toFinset]
  have hlisted {fs : List Nat} (hfs : ∀ f ∈ fs, f < s.task.facts.size) {f : Nat} (hf : f < s.task.facts.size) :
      s.task.facts.name f ∈ s.names fs ↔ f ∈ fs := by
    constructor
    · intro hname
      obtain ⟨g, hg, heq⟩ := List.mem_map.1 hname
      rwa [← ((Task.names_name (hfs g hg)).eq_iff (Task.names_name hf)).2 heq]
    · exact fun hname => List.mem_map_of_mem hname
  have hiff (f : Nat) : f ∈ facts ↔ f ∈ facts' := by
    constructor
    · exact fun hf => (hlisted hrange' (hrange f hf)).1 ((hmem f).1 ((hlisted hrange (hrange f hf)).2 hf))
    · exact fun hf => (hlisted hrange (hrange' f hf)).1 ((hmem f).2 ((hlisted hrange' (hrange' f hf)).2 hf))
  exact h.eq_of_mem_iff h' hiff

/-- No two landmarks have the same facts. -/
theorem nodup_facts_finish (h : d.Regular s) (hrange : ∀ c ∈ d.candidates, ∀ f ∈ c.facts, f < s.task.facts.size) :
    ((s.finish d).landmarks.map fun l => l.facts.toFinset).Nodup := by
  have hplaces : (s.sorted d).Nodup := by
    have hnodup : (d.candidates.toList.zipIdx.map (·.2)).Nodup := by
      rw [List.zipIdx_map_snd]
      exact List.nodup_range'
    exact (List.mergeSort_perm _ _).nodup_iff.2 hnodup.of_map
  have hsorted : ((s.sorted d).map fun x => (s.names x.1.facts).toFinset).Nodup := by
    refine hplaces.map_on ?_
    rintro ⟨c, i⟩ hx ⟨c', j⟩ hy hsame
    have hi : d.candidates[i]? = some c := Survey.mem_sorted.1 hx
    have hj : d.candidates[j]? = some c' := Survey.mem_sorted.1 hy
    have hc : c ∈ d.candidates := Array.mem_of_getElem? hi
    have hc' : c' ∈ d.candidates := Array.mem_of_getElem? hj
    have hfacts : c.facts = c'.facts :=
      eq_of_names (h.ascending c hc) (h.ascending c' hc') (hrange c hc) (hrange c' hc') hsame
    obtain rfl := h.distinct i j c c' hi hj hfacts
    rw [Option.some.inj (hi.symm.trans hj)]
  have hmap : ((s.finish d).landmarks.map fun l => l.facts.toFinset) =
      ((s.sorted d).zipIdx.map (·.1)).map fun x => (s.names x.1.facts).toFinset := by
    rw [landmarks_finish, List.map_map, List.map_map]
    rfl
  rwa [hmap, List.zipIdx_map_fst]

/-- Orderings lead to greater numbers. -/
theorem lt_of_mem_orders_finish (h : d.Regular s) {o : Order} (ho : o ∈ (s.finish d).orders) :
    o.first < o.second ∧ o.second < (s.finish d).landmarks.length := by
  obtain ⟨o', ho', rfl⟩ := exists_of_mem_orders_finish ho
  obtain ⟨c, c', hc, hc', hearlier⟩ := h.layered o' ho'
  refine ⟨Survey.newId_lt_newId hc hc' hearlier, ?_⟩
  obtain ⟨hlt, -⟩ := List.getElem?_eq_some_iff.1 (Survey.getElem?_sorted_newId (s := s) hc')
  rwa [landmarks_finish, List.length_map, List.length_zipIdx]

end Waymark.Landmark
