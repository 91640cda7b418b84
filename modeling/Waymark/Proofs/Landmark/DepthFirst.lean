import Mathlib.Tactic
import Waymark.Landmark.Graph
import Waymark.Proofs.Outcome

/-!
# Topological orders of ranked graphs

A graph is ranked if its orderings lead to higher ranks. The depth-first search of a ranked graph is done with
a landmark only after all that follow it, so every landmark ends up before these, and the test of the order
finds nothing misplaced.

* `Sorted`: lists in which all that follow a landmark stand behind it;
* `Walk.Good`, `Walk.Extends`, `exists_visit`, `exists_visitAll`: what the search keeps and adds;
* `firstMisplaced?_eq_none`: the test of the order;
* `Graph.validate_of_ranked`: ranked graphs are valid.
-/

namespace Waymark.Landmark

variable {orders : List Order} {id : Nat} {ids : List Nat}

/-! ## Sorted lists -/

/-- Every landmark of the list stands there once, and all that follow it stand behind it. -/
inductive Sorted (orders : List Order) : List Nat → Prop
  | nil : Sorted orders []
  | cons {id : Nat} {rest : List Nat} (following : ∀ next ∈ following orders id, next ∈ rest)
      (new : id ∉ rest) (sorted : Sorted orders rest) : Sorted orders (id :: rest)

theorem mem_following {next : Nat} : next ∈ following orders id ↔ ∃ o ∈ orders, o.first = id ∧ o.second = next := by
  simp [following, and_assoc]

/-- What follows a landmark of a sorted list is in the list. -/
theorem Sorted.mem_of_following (h : Sorted orders ids) (hid : id ∈ ids) {next : Nat}
    (hnext : next ∈ following orders id) : next ∈ ids := by
  induction h with
  | nil => cases hid
  | cons hfollowing _ _ ih =>
    rcases List.mem_cons.1 hid with rfl | hid
    · exact List.mem_cons_of_mem _ (hfollowing next hnext)
    · exact List.mem_cons_of_mem _ (ih hid)

/-- In a sorted list nothing is misplaced, if nothing that belongs before one of its landmarks is missing. -/
theorem firstMisplaced?_eq_none {before : List Nat} (h : Sorted orders ids)
    (hbefore : ∀ o ∈ orders, o.second ∈ ids → o.first ∈ before ∨ o.first ∈ ids) :
    firstMisplaced? orders before ids = none := by
  induction h generalizing before with
  | nil => rfl
  | @cons id rest hfollowing hnew hsorted ih =>
    have hfind : (orders.find? fun o => o.second = id && !(id :: before).contains o.first) = none := by
      rw [List.find?_eq_none]
      intro o ho hmisplaced
      obtain ⟨hsecond, hmissing⟩ := Bool.and_eq_true_iff.1 hmisplaced
      have hsecond : o.second = id := of_decide_eq_true hsecond
      have hmissing : o.first ∉ id :: before := by simpa using hmissing
      rcases hbefore o ho (hsecond ▸ List.mem_cons_self) with hfirst | hfirst
      · exact hmissing (List.mem_cons_of_mem _ hfirst)
      rcases List.mem_cons.1 hfirst with rfl | hfirst
      · exact hmissing List.mem_cons_self
      · -- The landmark would stand behind one that it follows.
        exact hnew (hsorted.mem_of_following hfirst (mem_following.2 ⟨o, ho, rfl, hsecond⟩))
    unfold firstMisplaced?
    dsimp only
    rw [hfind]
    refine ih fun o ho hsecond => ?_
    rcases hbefore o ho (List.mem_cons_of_mem _ hsecond) with hfirst | hfirst
    · exact .inl (List.mem_cons_of_mem _ hfirst)
    · rcases List.mem_cons.1 hfirst with rfl | hfirst
      · exact .inl List.mem_cons_self
      · exact .inr hfirst

/-! ## The search -/

/-- What is done is sorted and has been met. -/
structure Walk.Good (orders : List Order) (w : Walk) : Prop where
  sorted : Sorted orders w.done
  met : ∀ x ∈ w.done, x ∈ w.met

/-- The second walk goes on from the first: it is done with all that it meets, and with nothing that the first
one has met but is not done with. -/
structure Walk.Extends (w w' : Walk) : Prop where
  done : ∀ x ∈ w.done, x ∈ w'.done
  finished : ∀ x ∈ w'.met, x ∈ w.met ∨ x ∈ w'.done
  fresh : ∀ x ∈ w'.done, x ∈ w.done ∨ x ∉ w.met

theorem Walk.Extends.refl (w : Walk) : w.Extends w := ⟨fun _ h => h, fun _ h => .inl h, fun _ h => .inl h⟩

theorem Walk.Extends.trans {w w' w'' : Walk} (h : w.Extends w') (h' : w'.Extends w'')
    (hmet : ∀ x ∈ w.met, x ∈ w'.met) : w.Extends w'' where
  done x hx := h'.done x (h.done x hx)
  finished x hx := by
    rcases h'.finished x hx with hx | hx
    · exact (h.finished x hx).imp_right (h'.done x)
    · exact .inr hx
  fresh x hx := by
    rcases h'.fresh x hx with hx | hx
    · exact h.fresh x hx
    · exact .inr fun hmem => hx (hmet x hmem)

/-- A walk that has met a new landmark goes on to be done with it. -/
theorem Walk.Extends.finish {w w' : Walk} (h : Walk.Extends { w with met := id :: w.met } w') (hnew : id ∉ w.met) :
    w.Extends { w' with done := id :: w'.done } where
  done x hx := List.mem_cons_of_mem _ (h.done x hx)
  finished x hx := by
    rcases h.finished x hx with hx | hx
    · rcases List.mem_cons.1 hx with rfl | hx
      · exact .inr List.mem_cons_self
      · exact .inl hx
    · exact .inr (List.mem_cons_of_mem _ hx)
  fresh x hx := by
    rcases List.mem_cons.1 hx with rfl | hx
    · exact .inr hnew
    · exact (h.fresh x hx).imp_right fun hnot hmem => hnot (List.mem_cons_of_mem _ hmem)

section Ranked

variable {rank : Nat → Nat} {bound : Nat}

/-- The landmark has a rank below the bound, and above all that is met but not done. -/
def Walk.Admits (rank : Nat → Nat) (bound : Nat) (w : Walk) (id : Nat) : Prop :=
  rank id < bound ∧ ∀ x ∈ w.met, x ∉ w.done → rank x < rank id

theorem Walk.Admits.extend {w w' : Walk} (h : w.Admits rank bound id) (hextends : w.Extends w') :
    w'.Admits rank bound id := by
  refine ⟨h.1, fun x hx hnot => ?_⟩
  have hmet := (hextends.finished x hx).resolve_right hnot
  exact h.2 x hmet fun hdone => hnot (hextends.done x hdone)

/-- When a landmark is met, those of higher rank are admitted. -/
theorem Walk.Admits.meet {w : Walk} (h : w.Admits rank bound id) {next : Nat} (hlt : rank id < rank next)
    (hbound : rank next < bound) : Walk.Admits rank bound { w with met := id :: w.met } next := by
  refine ⟨hbound, fun x hx hnot => ?_⟩
  rcases List.mem_cons.1 hx with rfl | hx
  · exact hlt
  · exact (h.2 x hx hnot).trans hlt

/-- What a search of some landmarks in turn does, if it does so for each of them. -/
theorem exists_visitAll (depth : Nat) {w : Walk}
    (hvisit : ∀ id ∈ ids, ∀ w : Walk, w.Good orders → w.Admits rank bound id →
      ∃ w', visit orders depth w id = .ok w' ∧ w'.Good orders ∧ w.Extends w' ∧ (∀ x ∈ w.met, x ∈ w'.met) ∧
        id ∈ w'.done)
    (hgood : w.Good orders) (hadmits : ∀ id ∈ ids, w.Admits rank bound id) :
    ∃ w', ids.foldlM (visit orders depth) w = .ok w' ∧ w'.Good orders ∧ w.Extends w' ∧
      (∀ x ∈ w.met, x ∈ w'.met) ∧ ∀ id ∈ ids, id ∈ w'.done := by
  induction ids generalizing w with
  | nil => exact ⟨w, rfl, hgood, .refl w, fun _ h => h, nofun⟩
  | cons id ids ih =>
    obtain ⟨hid, hids⟩ := List.forall_mem_cons.1 hvisit
    obtain ⟨hadmitsId, hadmitsIds⟩ := List.forall_mem_cons.1 hadmits
    obtain ⟨w₁, hw₁, hgood₁, hext₁, hmet₁, hdone₁⟩ := hid w hgood hadmitsId
    obtain ⟨w₂, hw₂, hgood₂, hext₂, hmet₂, hdone₂⟩ := ih hids hgood₁ fun y hy => (hadmitsIds y hy).extend hext₁
    refine ⟨w₂, ?_, hgood₂, hext₁.trans hext₂ hmet₁, fun x hx => hmet₂ x (hmet₁ x hx), ?_⟩
    · rw [List.foldlM_cons]
      exact bind_eq_ok.2 ⟨w₁, hw₁, hw₂⟩
    · exact List.forall_mem_cons.2 ⟨hext₂.done id hdone₁, hdone₂⟩

variable (hrank : ∀ o ∈ orders, rank o.first < rank o.second ∧ rank o.second < bound)
include hrank

/-- **A visit in a ranked graph** succeeds, and is done with the landmark. Ranks bound its depth. -/
theorem exists_visit (depth : Nat) (w : Walk) (id : Nat) (hdepth : bound ≤ rank id + depth) (hgood : w.Good orders)
    (hadmits : w.Admits rank bound id) :
    ∃ w', visit orders depth w id = .ok w' ∧ w'.Good orders ∧ w.Extends w' ∧ (∀ x ∈ w.met, x ∈ w'.met) ∧
      id ∈ w'.done := by
  induction depth generalizing w id with
  | zero =>
    have hlt := hadmits.1
    omega
  | succ depth ih =>
    have hfollowing : ∀ next ∈ following orders id, rank id < rank next ∧ rank next < bound := by
      intro next hnext
      obtain ⟨o, ho, rfl, rfl⟩ := mem_following.1 hnext
      exact hrank o ho
    have hself : (following orders id).contains id = false := by
      rw [Bool.eq_false_iff]
      intro hmem
      exact lt_irrefl _ (hfollowing id (List.contains_iff_mem.1 hmem)).1
    unfold visit
    by_cases hmet : id ∈ w.met
    · -- A landmark that is met and not done would have a lower rank than itself.
      have hdone : id ∈ w.done := by
        by_contra hnot
        exact lt_irrefl _ (hadmits.2 id hmet hnot)
      rw [if_pos (List.contains_iff_mem.2 hmet)]
      exact ⟨w, rfl, hgood, .refl w, fun _ h => h, hdone⟩
    rw [if_neg fun h => hmet (List.contains_iff_mem.1 h)]
    dsimp only
    rw [hself, if_neg Bool.false_ne_true]
    have hstart : Walk.Good orders { w with met := id :: w.met } :=
      ⟨hgood.sorted, fun x hx => List.mem_cons_of_mem _ (hgood.met x hx)⟩
    have hopen : ∀ next ∈ following orders id, Walk.Admits rank bound { w with met := id :: w.met } next :=
      fun next hnext => hadmits.meet (hfollowing next hnext).1 (hfollowing next hnext).2
    obtain ⟨w', hw', hgood', hext', hmet', hdone'⟩ := exists_visitAll depth
      (fun next hnext w₁ hgood₁ hadmits₁ => ih w₁ next (by have := (hfollowing next hnext).1; omega) hgood₁ hadmits₁)
      hstart hopen
    have hnew : id ∉ w'.done := by
      intro hmem
      rcases hext'.fresh id hmem with hdone | hfresh
      · exact hmet (hgood.met id hdone)
      · exact hfresh List.mem_cons_self
    have hmetId : id ∈ w'.met := hmet' id List.mem_cons_self
    refine ⟨{ w' with done := id :: w'.done }, bind_eq_ok.2 ⟨w', hw', rfl⟩, ⟨?_, ?_⟩, hext'.finish hmet, ?_, ?_⟩
    · exact .cons hdone' hnew hgood'.sorted
    · exact List.forall_mem_cons.2 ⟨hmetId, hgood'.met⟩
    · exact fun x hx => hmet' x (List.mem_cons_of_mem _ hx)
    · exact List.mem_cons_self

end Ranked

/-! ## Graphs -/

theorem firstRepeated?_eq_none {seen : List Nat} (hnodup : ids.Nodup) (hseen : ∀ x ∈ ids, x ∉ seen) :
    firstRepeated? seen ids = none := by
  induction ids generalizing seen with
  | nil => rfl
  | cons id ids ih =>
    obtain ⟨hid, hids⟩ := List.forall_mem_cons.1 hseen
    obtain ⟨hnot, hnodup⟩ := List.nodup_cons.1 hnodup
    unfold firstRepeated?
    rw [if_neg fun h => hid (List.contains_iff_mem.1 h)]
    refine ih hnodup fun x hx hmem => ?_
    rcases List.mem_cons.1 hmem with rfl | hmem
    · exact hnot hx
    · exact hids x hx hmem

/-- **Ranked graphs are valid.** If the numbers are distinct, the orderings are between landmarks of the graph
and lead to higher ranks, and there are no more ranks than landmarks, then there is a topological order. -/
theorem Graph.validate_of_ranked {g : Graph} (rank : Nat → Nat) (hnodup : g.ids.Nodup)
    (hknown : ∀ o ∈ g.orders, o.first ∈ g.ids ∧ o.second ∈ g.ids)
    (hbound : ∀ id ∈ g.ids, rank id < g.ids.length) (hrank : ∀ o ∈ g.orders, rank o.first < rank o.second) :
    g.validate = .ok () := by
  have hranked : ∀ o ∈ g.orders, rank o.first < rank o.second ∧ rank o.second < g.ids.length :=
    fun o ho => ⟨hrank o ho, hbound _ (hknown o ho).2⟩
  have hstart : Walk.Good g.orders {} := ⟨.nil, nofun⟩
  have hopen : ∀ id ∈ g.ids, Walk.Admits rank g.ids.length {} id := fun id hid => ⟨hbound id hid, nofun⟩
  obtain ⟨w, hw, hgood, -, -, hdone⟩ := exists_visitAll (g.ids.length + 1)
    (fun id _ w hgood hadmits => exists_visit hranked _ w id (by omega) hgood hadmits) hstart hopen
  have hfinish : g.finishOrder = .ok w.done := map_eq_ok.2 ⟨w, hw, rfl⟩
  have hunknown : (g.orders.find? fun o => !(g.ids.contains o.first && g.ids.contains o.second)) = none := by
    rw [List.find?_eq_none]
    intro o ho
    simpa using hknown o ho
  have hplaced : firstMisplaced? g.orders [] w.done = none :=
    firstMisplaced?_eq_none hgood.sorted fun o ho _ => .inr (hdone _ (hknown o ho).1)
  have horder : g.topologicalOrder = .ok w.done := by
    unfold topologicalOrder
    rw [firstRepeated?_eq_none hnodup (fun _ _ => List.not_mem_nil)]
    dsimp only
    rw [hunknown]
    dsimp only
    rw [hfinish]
    dsimp only
    rw [hplaced]
  rw [validate, horder]
  rfl

end Waymark.Landmark
