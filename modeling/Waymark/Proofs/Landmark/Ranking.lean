import Mathlib.Tactic
import Waymark.Proofs.Landmark.DepthFirst
import Waymark.Proofs.Repetition

/-!
# Valid graphs are ranked

The depth-first search of a graph is done with every landmark, whatever the orderings are, and fails if one of them
leads from a landmark to itself. When moreover nothing is misplaced in the order that it produces, the places in this
order are ranks, and the orderings lead to higher ones. Ranks do not depend on the order in which a graph lists its
landmarks and its orderings, so neither does its validity.

* `Walk.Leads`, `leads_of_visit`, `leads_of_visitAll`: what a search that succeeds keeps and adds;
* `mem_of_firstMisplaced?_eq_none`: the test of the order;
* `Graph.Ranked`, `Graph.exists_ranked_of_validate`: valid graphs are ranked;
* `Graph.Alike`, `Graph.Alike.validate_iff`: graphs that list the same in another order.
-/

namespace Waymark.Landmark

variable {orders : List Order} {id : Nat} {ids : List Nat} {w w' w'' : Walk}

/-! ## The search -/

/-- What is met are some of the given landmarks, none of them twice. -/
structure Walk.Within (ids : List Nat) (w : Walk) : Prop where
  nodup : w.met.Nodup
  subset : ∀ x ∈ w.met, x ∈ ids

/-- The second walk goes on from the first within the given landmarks, is done with what it has met only, and has
found no new one that follows itself. -/
structure Walk.Leads (orders : List Order) (ids : List Nat) (w w' : Walk) : Prop where
  within : w'.Within ids
  further : w.Extends w'
  met : ∀ x ∈ w.met, x ∈ w'.met
  doneMet : (∀ x ∈ w.done, x ∈ w.met) → ∀ x ∈ w'.done, x ∈ w'.met
  loopless : ∀ x ∈ w'.done, x ∈ w.done ∨ x ∉ following orders x

theorem Walk.Within.leads_refl (h : w.Within ids) : w.Leads orders ids w :=
  ⟨h, .refl w, fun _ hx => hx, fun h => h, fun _ hx => .inl hx⟩

theorem Walk.Leads.trans (h : w.Leads orders ids w') (h' : w'.Leads orders ids w'') : w.Leads orders ids w'' where
  within := h'.within
  further := h.further.trans h'.further h.met
  met x hx := h'.met x (h.met x hx)
  doneMet hw := h'.doneMet (h.doneMet hw)
  loopless x hx := by
    rcases h'.loopless x hx with hx | hx
    · exact h.loopless x hx
    · exact .inr hx

/-- A walk meets no fewer landmarks than one that it goes on from. -/
theorem Walk.Leads.length_le (h : w.Leads orders ids w') (hw : w.Within ids) : w.met.length ≤ w'.met.length :=
  hw.nodup.length_le_of_subset h.met

/-- What a search of some landmarks in turn does, if a visit does so to each of them. -/
theorem leads_of_visitAll {depth : Nat} {chosen : List Nat} (hchosen : ∀ x ∈ chosen, x ∈ ids)
    (hvisit : ∀ id ∈ ids, ∀ w w' : Walk, w.Within ids → ids.length < depth + w.met.length →
      visit orders depth w id = .ok w' → w.Leads orders ids w' ∧ id ∈ w'.met)
    (hw : w.Within ids) (hdepth : ids.length < depth + w.met.length)
    (h : chosen.foldlM (visit orders depth) w = .ok w') : w.Leads orders ids w' ∧ ∀ x ∈ chosen, x ∈ w'.met := by
  induction chosen generalizing w with
  | nil =>
    obtain rfl := Except.ok.inj h
    exact ⟨hw.leads_refl, nofun⟩
  | cons id rest ih =>
    obtain ⟨hid, hrest⟩ := List.forall_mem_cons.1 hchosen
    rw [List.foldlM_cons] at h
    obtain ⟨next, hnext, h⟩ := bind_eq_ok.1 h
    obtain ⟨hleads, hmet⟩ := hvisit id hid w next hw hdepth hnext
    have hlength := hleads.length_le hw
    obtain ⟨hleads', hmet'⟩ := ih hrest hleads.within (by omega) h
    exact ⟨hleads.trans hleads', List.forall_mem_cons.2 ⟨hleads'.met id hmet, hmet'⟩⟩

/-- A visit that succeeds finds the landmark met, or meets it, searches all that follow it and is done with it. -/
theorem cases_of_visit {depth : Nat} (h : visit orders (depth + 1) w id = .ok w') :
    (id ∈ w.met ∧ w' = w) ∨ (id ∉ w.met ∧ id ∉ following orders id ∧
      ∃ w₁, (following orders id).foldlM (visit orders depth) { w with met := id :: w.met } = .ok w₁ ∧
        w' = { w₁ with done := id :: w₁.done }) := by
  unfold visit at h
  split at h
  · rename_i hmet
    exact .inl ⟨List.contains_iff_mem.1 hmet, (Except.ok.inj h).symm⟩
  rename_i hnew
  dsimp only at h
  split at h
  · cases h
  rename_i hself
  obtain ⟨w₁, hw₁, h⟩ := bind_eq_ok.1 h
  exact .inr ⟨fun hmem => hnew (List.contains_iff_mem.2 hmem), fun hmem => hself (List.contains_iff_mem.2 hmem), w₁,
    hw₁, (Except.ok.inj h).symm⟩

theorem Walk.Within.meet (h : w.Within ids) (hid : id ∈ ids) (hnew : id ∉ w.met) :
    Walk.Within ids { w with met := id :: w.met } :=
  ⟨List.nodup_cons.2 ⟨hnew, h.nodup⟩, List.forall_mem_cons.2 ⟨hid, h.subset⟩⟩

/-- **A visit that succeeds** has met the landmark and is done with all that it meets. Its depth is never used up:
each step down meets one more of the landmarks. -/
theorem leads_of_visit (hknown : ∀ x ∈ ids, ∀ next ∈ following orders x, next ∈ ids) (depth : Nat) :
    ∀ id ∈ ids, ∀ w w' : Walk, w.Within ids → ids.length < depth + w.met.length →
      visit orders depth w id = .ok w' → w.Leads orders ids w' ∧ id ∈ w'.met := by
  induction depth with
  | zero =>
    intro id hid w w' hw hdepth h
    have hlength := hw.nodup.length_le_of_subset hw.subset
    omega
  | succ depth ih =>
    intro id hid w w' hw hdepth h
    rcases cases_of_visit h with ⟨hmet, rfl⟩ | ⟨hnew, hself, w₁, hw₁, rfl⟩
    · exact ⟨hw.leads_refl, hmet⟩
    have hstart : Walk.Within ids { w with met := id :: w.met } := hw.meet hid hnew
    have hdeeper : ids.length < depth + (id :: w.met).length := by
      rw [List.length_cons]
      omega
    obtain ⟨hleads, -⟩ := leads_of_visitAll (hknown id hid) ih hstart hdeeper hw₁
    have hid₁ : id ∈ w₁.met := hleads.met id List.mem_cons_self
    refine ⟨⟨⟨hleads.within.nodup, hleads.within.subset⟩, hleads.further.finish hnew, fun x hx => ?_, fun hmet => ?_,
      fun x hx => ?_⟩, hid₁⟩
    · exact hleads.met x (List.mem_cons_of_mem _ hx)
    · exact List.forall_mem_cons.2 ⟨hid₁, hleads.doneMet fun x hx => List.mem_cons_of_mem _ (hmet x hx)⟩
    · rcases List.mem_cons.1 hx with rfl | hx
      · exact .inr hself
      · exact hleads.loopless x hx

/-! ## The test of the order -/

/-- When nothing is misplaced, what an ordering puts before a landmark stands before it, or is that landmark. -/
theorem mem_of_firstMisplaced?_eq_none {before xs ys : List Nat}
    (h : firstMisplaced? orders before (xs ++ id :: ys) = none) {o : Order} (ho : o ∈ orders) (hid : o.second = id) :
    o.first = id ∨ o.first ∈ xs ∨ o.first ∈ before := by
  induction xs generalizing before with
  | nil =>
    rw [List.nil_append, firstMisplaced?] at h
    split at h
    · cases h
    · rename_i hnone
      have hplaced : o.first ≠ id → o.first ∈ before := by simpa [hid] using List.find?_eq_none.1 hnone o ho
      by_cases heq : o.first = id
      · exact .inl heq
      · exact .inr (.inr (hplaced heq))
  | cons x xs ih =>
    rw [List.cons_append, firstMisplaced?] at h
    split at h
    · cases h
    · rcases ih h with heq | hmem | hmem
      · exact .inl heq
      · exact .inr (.inl (List.mem_cons_of_mem _ hmem))
      · rcases List.mem_cons.1 hmem with rfl | hmem
        · exact .inr (.inl List.mem_cons_self)
        · exact .inr (.inr hmem)

theorem nodup_of_firstRepeated?_eq_none {seen : List Nat} (h : firstRepeated? seen ids = none) :
    ids.Nodup ∧ ∀ x ∈ ids, x ∉ seen := by
  induction ids generalizing seen with
  | nil => exact ⟨List.nodup_nil, nofun⟩
  | cons id ids ih =>
    unfold firstRepeated? at h
    split at h
    · cases h
    · rename_i hnew
      obtain ⟨hnodup, hseen⟩ := ih h
      refine ⟨List.nodup_cons.2 ⟨fun hmem => hseen id hmem List.mem_cons_self, hnodup⟩,
        List.forall_mem_cons.2 ⟨fun hmem => hnew (List.contains_iff_mem.2 hmem), fun x hx hmem => ?_⟩⟩
      exact hseen x hx (List.mem_cons_of_mem _ hmem)

/-! ## Graphs -/

/-- The numbers are distinct, and the orderings are between landmarks of the graph and lead to higher ranks below a
bound. -/
structure Graph.Ranked (g : Graph) (rank : Nat → Nat) (bound : Nat) : Prop where
  nodup : g.ids.Nodup
  known : ∀ o ∈ g.orders, o.first ∈ g.ids ∧ o.second ∈ g.ids
  ascending : ∀ o ∈ g.orders, rank o.first < rank o.second ∧ rank o.second < bound

/-- **Valid graphs are ranked.** -/
theorem Graph.exists_ranked_of_validate {g : Graph} (h : g.validate = .ok ()) : ∃ rank bound, g.Ranked rank bound := by
  obtain ⟨order, horder, -⟩ := map_eq_ok.1 h
  unfold topologicalOrder at horder
  split at horder
  · cases horder
  rename_i hrepeated
  split at horder
  · cases horder
  rename_i hunknown
  split at horder
  · cases horder
  rename_i finished hfinish
  split at horder
  · cases horder
  rename_i hplaced
  obtain rfl := Except.ok.inj horder
  obtain ⟨hnodup, -⟩ := nodup_of_firstRepeated?_eq_none hrepeated
  have hknown : ∀ o ∈ g.orders, o.first ∈ g.ids ∧ o.second ∈ g.ids := by
    intro o ho
    simpa using List.find?_eq_none.1 hunknown o ho
  have hfollowing : ∀ x ∈ g.ids, ∀ next ∈ following g.orders x, next ∈ g.ids := by
    intro x _ next hnext
    obtain ⟨o, ho, -, rfl⟩ := mem_following.1 hnext
    exact (hknown o ho).2
  obtain ⟨w, hw, rfl⟩ := map_eq_ok.1 hfinish
  obtain ⟨hleads, hmet⟩ := leads_of_visitAll (w := {}) (fun _ hx => hx) (leads_of_visit hfollowing _)
    ⟨List.nodup_nil, nofun⟩ (by omega) hw
  have hdone : ∀ x ∈ g.ids, x ∈ w.done := fun x hx => (hleads.further.finished x (hmet x hx)).resolve_left nofun
  refine ⟨w.done.idxOf, w.done.length, hnodup, hknown, fun o ho => ?_⟩
  obtain ⟨xs, ys, hsplit, hfirst⟩ := List.eq_append_cons_of_mem (hdone _ (hknown o ho).2)
  have hidx : w.done.idxOf o.second = xs.length := by
    rw [hsplit, List.idxOf_append_of_notMem hfirst, List.idxOf_cons_self, Nat.add_zero]
  have hplaced : firstMisplaced? g.orders [] (xs ++ o.second :: ys) = none := hsplit ▸ hplaced
  have hlength : w.done.length = xs.length + (ys.length + 1) := by
    rw [hsplit, List.length_append, List.length_cons]
  rcases mem_of_firstMisplaced?_eq_none hplaced ho rfl with heq | hmem | hmem
  · have hloop := (hleads.loopless _ (hdone _ (hknown o ho).1)).resolve_left nofun
    exact absurd (mem_following.2 ⟨o, ho, rfl, heq.symm⟩) hloop
  · have hbefore : w.done.idxOf o.first < xs.length := by
      rw [hsplit, List.idxOf_append_of_mem hmem]
      exact List.idxOf_lt_length_of_mem hmem
    omega
  · cases hmem

/-! ## Graphs that list the same -/

/-- Ranked graphs are valid, whatever numbers their ranks are. -/
theorem Graph.Ranked.validate {g : Graph} {rank : Nat → Nat} {bound : Nat} (h : g.Ranked rank bound) :
    g.validate = .ok () := by
  -- The landmarks of lower rank are fewer than the landmarks, so their number is a rank within bounds.
  let below (id : Nat) : Finset Nat := g.ids.toFinset.filter fun x => rank x < rank id
  have hssubset {x : Nat} {ids : Finset Nat} (hx : x ∈ g.ids) (hsub : below x ⊆ ids) (hmem : x ∈ ids) :
      below x ⊂ ids :=
    Finset.ssubset_iff_subset_ne.2 ⟨hsub, fun heq => by simp [below, ← heq, hx] at hmem⟩
  refine Graph.validate_of_ranked (fun id => (below id).card) h.nodup h.known (fun id hid => ?_) fun o ho => ?_
  · have hall : below id ⊂ g.ids.toFinset :=
      hssubset hid (Finset.filter_subset _ _) (List.mem_toFinset.2 hid)
    exact (Finset.card_lt_card hall).trans_le (List.toFinset_card_le _)
  · have hlt := (h.ascending o ho).1
    have hfirst := (h.known o ho).1
    refine Finset.card_lt_card (hssubset hfirst (fun x hx => ?_) ?_)
    · obtain ⟨hx, hbelow⟩ := Finset.mem_filter.1 hx
      exact Finset.mem_filter.2 ⟨hx, hbelow.trans hlt⟩
    · exact Finset.mem_filter.2 ⟨List.mem_toFinset.2 hfirst, hlt⟩

/-- The graphs have the same landmarks and the same orderings, the landmarks in another order, the orderings in
another order or repeated. -/
structure Graph.Alike (g g' : Graph) : Prop where
  landmarks : g'.landmarks.Perm g.landmarks
  orders : ∀ o, o ∈ g'.orders ↔ o ∈ g.orders

namespace Graph.Alike

variable {g g' : Graph} (h : g.Alike g')
include h

theorem symm : g'.Alike g := ⟨h.landmarks.symm, fun o => (h.orders o).symm⟩

theorem ids_perm : g'.ids.Perm g.ids := h.landmarks.map _

theorem ranked {rank : Nat → Nat} {bound : Nat} (hg : g.Ranked rank bound) : g'.Ranked rank bound where
  nodup := h.ids_perm.nodup_iff.2 hg.nodup
  known o ho := (hg.known o ((h.orders o).1 ho)).imp h.ids_perm.mem_iff.2 h.ids_perm.mem_iff.2
  ascending o ho := hg.ascending o ((h.orders o).1 ho)

/-- The validity of a graph does not depend on the order of what it lists. -/
theorem validate_iff : g'.validate = .ok () ↔ g.validate = .ok () := by
  constructor
  · intro hvalid
    obtain ⟨rank, bound, hranked⟩ := exists_ranked_of_validate hvalid
    exact (h.symm.ranked hranked).validate
  · intro hvalid
    obtain ⟨rank, bound, hranked⟩ := exists_ranked_of_validate hvalid
    exact (h.ranked hranked).validate

/-- The landmark of a number is found in either graph, if the numbers are distinct. -/
theorem find?_eq (hnodup : g.ids.Nodup) (id : Nat) : g'.find? id = g.find? id := by
  refine Option.ext fun l => ?_
  have hnodup' : g'.ids.Nodup := h.ids_perm.nodup_iff.2 hnodup
  rw [find?, find?, find?_eq_some_of_nodup hnodup, find?_eq_some_of_nodup hnodup', h.landmarks.mem_iff]

end Graph.Alike

end Waymark.Landmark
