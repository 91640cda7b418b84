import Mathlib.Tactic
import Waymark.Landmark.Draft
import Waymark.Proofs.Ground.Path
import Waymark.Proofs.Repetition

/-!
# Graphs of drafts

The landmarks of a graph are the candidates of a draft, under numbers that stand for their places.

* `Met`: a landmark holds in one of some states, with `met_landmark`;
* `exists_of_mem_landmarks_finish`, `find?_finish`: the landmarks of a graph are the candidates;
* `exists_of_mem_orders_finish`: the orderings of a graph are those of the draft, renumbered;
* `Draft.mem_candidates_add`, `Survey.candidates_order`: what a draft holds when something is added.
-/

namespace Waymark.Landmark

open Ground

variable {κ : Type} {s : Survey κ} {d : Draft}

/-- One of the facts of a landmark holds in one of the states. -/
def Met (t : Ground.Task κ) (ss : List State) (l : Landmark) : Prop :=
  ∃ name ∈ l.facts, ∃ x ∈ ss, t.holdsIn x name = true

/-! ## Drafts -/

/-- An element is in a list in ascending order if it is in the list. -/
theorem mem_ascending {xs : List Nat} {x : Nat} : x ∈ ascending xs ↔ x ∈ xs := by
  rw [ascending, mem_eraseReps, List.mem_mergeSort]

@[simp] theorem ascending_singleton (x : Nat) : ascending [x] = [x] := by
  rw [ascending, List.mergeSort_singleton]
  rfl

/-- A draft holds what it held and what is added. -/
theorem Draft.mem_candidates_add {facts : List Nat} {kind : Kind} {c : Candidate}
    (h : c ∈ (d.add facts kind).1.candidates) : c ∈ d.candidates ∨ c = ⟨ascending facts, kind⟩ := by
  unfold add at h
  dsimp only at h
  split at h
  · exact .inl h
  · exact Array.mem_push.1 h

@[simp] theorem Draft.orders_add (d : Draft) (facts : List Nat) (kind : Kind) :
    (d.add facts kind).1.orders = d.orders := by
  unfold add
  dsimp only
  split
  · rfl
  · rfl

theorem Draft.facts_of_getElem? {place : Nat} {c : Candidate} (h : d.candidates[place]? = some c) :
    d.facts place = c.facts := by
  rw [facts, Array.getD_eq_getD_getElem?, h]
  rfl

/-- What has facts in a draft is one of its candidates. -/
theorem Draft.exists_of_facts_ne_nil {place : Nat} (h : d.facts place ≠ []) :
    ∃ c, d.candidates[place]? = some c ∧ d.facts place = c.facts := by
  cases hc : d.candidates[place]? with
  | some c => exact ⟨c, rfl, facts_of_getElem? hc⟩
  | none =>
    refine absurd ?_ h
    rw [facts, Array.getD_eq_getD_getElem?, hc]
    rfl

/-- A candidate keeps its place when something is added. -/
theorem Draft.getElem?_add {place : Nat} {c : Candidate} (h : d.candidates[place]? = some c) (facts : List Nat)
    (kind : Kind) : (d.add facts kind).1.candidates[place]? = some c := by
  unfold add
  dsimp only
  split
  · exact h
  · obtain ⟨hlt, -⟩ := Array.getElem?_eq_some_iff.1 h
    exact (Array.getElem?_push_lt hlt).trans ((Array.getElem?_eq_getElem hlt).symm.trans h)

/-- What is added stands at the place that is returned. -/
theorem Draft.exists_getElem?_add (d : Draft) (facts : List Nat) (kind : Kind) :
    ∃ c, (d.add facts kind).1.candidates[(d.add facts kind).2.1]? = some c ∧ c.facts = ascending facts := by
  unfold add
  dsimp only
  split
  · rename_i place hplace
    obtain ⟨hlt, hfacts, -⟩ := Array.findIdx?_eq_some_iff_getElem.1 hplace
    exact ⟨_, Array.getElem?_eq_getElem hlt, of_decide_eq_true hfacts⟩
  · exact ⟨_, Array.getElem?_push_size, rfl⟩

@[simp] theorem Survey.candidates_order (s : Survey κ) (d : Draft) (first second : Nat) (kind : OrderKind) :
    (s.order d first second kind).candidates = d.candidates := by
  unfold order
  split
  · split
    · rfl
    · rfl
  · rfl

/-- An ordering of a draft was there before, or is the one that is added. -/
theorem Survey.mem_orders_order {first second : Nat} {kind : OrderKind} {o : Order}
    (h : o ∈ (s.order d first second kind).orders) :
    o ∈ d.orders ∨
      first ≠ second ∧ s.isEarlier (d.facts first) (d.facts second) = true ∧ o = ⟨first, second, kind⟩ := by
  unfold order at h
  split at h
  · rename_i hadd
    obtain ⟨hne, hearlier⟩ := Bool.and_eq_true_iff.1 hadd
    split at h
    · exact .inl h
    · exact (List.mem_append.1 h).imp_right fun ho =>
        ⟨of_decide_eq_true hne, hearlier, List.mem_singleton.1 ho⟩
  · exact .inl h

/-! ## Graphs -/

/-- An element of a list under numbers is the one at its number. -/
theorem find?_zipIdx {α : Type} {f : Nat → α → Landmark} (hid : ∀ i x, (f i x).id = i)
    {xs : List α} {i : Nat} {x : α} (h : xs[i]? = some x) :
    (xs.zipIdx.map fun (x, i) => f i x).find? (·.id = i) = some (f i x) := by
  obtain ⟨hi, rfl⟩ := List.getElem?_eq_some_iff.1 h
  rw [List.find?_eq_some_iff_getElem]
  refine ⟨by simp [hid], i, by simpa using hi, by simp, fun j hj => ?_⟩
  simp [hid, hj.ne]

/-- The candidates of a draft with their places, in the order of the landmarks. -/
def Survey.sorted (s : Survey κ) (d : Draft) : List (Candidate × Nat) :=
  d.candidates.toList.zipIdx.mergeSort fun x y => s.comesBefore x.1 y.1

/-- The number of the landmark of a place. -/
def Survey.newId (s : Survey κ) (d : Draft) (place : Nat) : Nat := ((s.sorted d).map (·.2)).idxOf place

theorem Survey.mem_sorted {c : Candidate} {place : Nat} :
    (c, place) ∈ s.sorted d ↔ d.candidates[place]? = some c := by
  rw [sorted, List.mem_mergeSort, List.mem_zipIdx_iff_getElem?, Array.getElem?_toList]

/-- The landmarks of a graph are the candidates of the draft. -/
theorem exists_of_mem_landmarks_finish {l : Landmark} (h : l ∈ (s.finish d).landmarks) :
    ∃ id, ∃ c ∈ d.candidates, l = s.landmark id c := by
  obtain ⟨⟨⟨c, place⟩, id⟩, hmem, rfl⟩ := List.mem_map.1 h
  have hc : (c, place) ∈ s.sorted d := List.mem_of_getElem? (List.mem_zipIdx_iff_getElem?.1 hmem)
  exact ⟨id, c, Array.mem_of_getElem? (Survey.mem_sorted.1 hc), rfl⟩

/-- A candidate stands under the number of its place. -/
theorem Survey.getElem?_sorted_newId {place : Nat} {c : Candidate} (h : d.candidates[place]? = some c) :
    (s.sorted d)[s.newId d place]? = some (c, place) := by
  have hmem : place ∈ (s.sorted d).map (·.2) := List.mem_map.2 ⟨_, Survey.mem_sorted.2 h, rfl⟩
  have hlt : s.newId d place < (s.sorted d).length := by
    simpa [Survey.newId] using List.idxOf_lt_length_of_mem hmem
  have hplace : (s.sorted d)[s.newId d place].2 = place := by
    have hget := List.getElem_idxOf (List.idxOf_lt_length_of_mem hmem)
    rwa [List.getElem_map] at hget
  have hcandidate : (s.sorted d)[s.newId d place].1 = c := by
    have hget : d.candidates[(s.sorted d)[s.newId d place].2]? = some (s.sorted d)[s.newId d place].1 :=
      Survey.mem_sorted.1 (List.getElem_mem hlt)
    rw [hplace, h] at hget
    exact (Option.some.inj hget).symm
  rw [List.getElem?_eq_getElem hlt]
  exact congrArg some (Prod.ext hcandidate hplace)

/-- The landmark under the number of a place is the candidate at the place. -/
theorem find?_finish {place : Nat} {c : Candidate} (h : d.candidates[place]? = some c) :
    (s.finish d).find? (s.newId d place) = some (s.landmark (s.newId d place) c) := by
  have hget := Survey.getElem?_sorted_newId (s := s) h
  exact find?_zipIdx (f := fun id (x : Candidate × Nat) => s.landmark id x.1) (fun _ _ => rfl) hget

/-- The orderings of a graph are those of the draft, between landmarks under their new numbers. -/
theorem exists_of_mem_orders_finish {o : Order} (h : o ∈ (s.finish d).orders) :
    ∃ o' ∈ d.orders, o = { o' with first := s.newId d o'.first, second := s.newId d o'.second } := by
  obtain ⟨o', ho', rfl⟩ := List.mem_map.1 (List.mem_mergeSort.1 h)
  exact ⟨o', ho', rfl⟩

/-- A landmark of one name is met where the fact of the name holds. -/
theorem met_iff_of_names {t : Ground.Task κ} {ss : List State} {l : Landmark} {f : Nat} {n : String}
    (hl : l.facts = [n]) (hn : t.facts.Names f n) : Met t ss l ↔ ∃ x ∈ ss, x.contains f = true := by
  simp only [Met, hl, List.mem_singleton, exists_eq_left, Task.holdsIn_of_names hn]

/-- A landmark is met where one of the facts of its candidate holds. -/
theorem met_landmark {ss : List State} {id : Nat} {c : Candidate} (hc : ∀ f ∈ c.facts, f < s.task.facts.size) :
    Met s.task ss (s.landmark id c) ↔ ∃ f ∈ c.facts, ∃ x ∈ ss, x.contains f = true := by
  have hfacts : (s.landmark id c).facts = c.facts.map s.task.facts.name := rfl
  constructor
  · rintro ⟨name, hname, x, hx, hholds⟩
    rw [hfacts] at hname
    obtain ⟨f, hf, rfl⟩ := List.mem_map.1 hname
    exact ⟨f, hf, x, hx, (Task.holdsIn_name (hc f hf)).symm.trans hholds⟩
  · rintro ⟨f, hf, x, hx, hholds⟩
    exact ⟨_, hfacts ▸ List.mem_map_of_mem hf, x, hx, (Task.holdsIn_name (hc f hf)).trans hholds⟩

/-- The landmark of a single fact is met where the fact holds. -/
theorem met_landmark_iff {ss : List State} {id f : Nat} {kind : Kind} (hf : f < s.task.facts.size) :
    Met s.task ss (s.landmark id ⟨[f], kind⟩) ↔ ∃ x ∈ ss, x.contains f = true := by
  rw [met_landmark (by simpa using hf)]
  simp only [List.mem_singleton, exists_eq_left]

end Waymark.Landmark
