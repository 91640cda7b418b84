import Mathlib.Tactic
import Waymark.Proofs.View.Relisted

/-!
# Views of plans in another order

A context knows its plans by their places. When the plans of a request come in another order, each of them stands at
another place and makes the same choices there. So a selection view names the plans of a choice in another order, and
everything else in it is the same: it is computed from what the plans are, not from where they stand.

* `Context.Moves`, `Context.moved`: contexts with the same plans at other places, and these places;
* `Context.Moves.groups_moved`, `Context.Moves.decisions_eq`: choices and decisions;
* `Context.Moves.select_moved`, `Context.Moves.sorted_moved`: what selections leave, and how it is shown;
* `Offer.Same`, `Same`, `Context.Moves.same_selectView`: views that are the same up to the order in which plans are
  named;
* `exists_moves`: contexts of plans in another order.
-/

namespace Waymark.View

variable {κ : Type} {c c' : Context κ} {old : Nat → Nat} {live : List Nat} {id p : Nat}

/-! ## Other places -/

/-- The second context has the plans of the first at other places, and they make the same choices there. `old` leads
from the place of a plan to its place in the first context. -/
structure Context.Moves (c c' : Context κ) (old : Nat → Nat) : Prop where
  places : (c'.all.map old).Perm c.all
  plan : ∀ p ∈ c'.all, c'.plans[p]? = c.plans[old p]?
  choice : ∀ id, ∀ p ∈ c'.all, c'.choice id p = c.choice id (old p)
  graph : c'.graph = c.graph

/-- The places to which some plans are moved. -/
def Context.moved (c' : Context κ) (old : Nat → Nat) (live : List Nat) : List Nat :=
  c'.all.filter fun p => live.contains (old p)

theorem Context.mem_moved : p ∈ c'.moved old live ↔ p ∈ c'.all ∧ old p ∈ live := by
  rw [moved, List.mem_filter, List.contains_iff_mem]

/-- Averages depend on the positions, not on their order. -/
theorem Context.mean?_eq_of_perm {live' : List Nat}
    (h : (live'.filterMap fun p => (c'.choice id p).map (·.2)).Perm
      (live.filterMap fun p => (c.choice id p).map (·.2))) :
    c'.mean? live' id = c.mean? live id := by
  unfold mean?
  generalize (live'.filterMap fun p => (c'.choice id p).map (·.2)) = positions' at h
  generalize (live.filterMap fun p => (c.choice id p).map (·.2)) = positions at h
  cases positions with
  | nil => rw [h.eq_nil]
  | cons x xs =>
    cases positions' with
    | nil => exact absurd h.symm.eq_nil (List.cons_ne_nil x xs)
    | cons y ys => exact congrArg some (congrArg₂ Mean.mk (h.foldl_eq 0) h.length_eq)

namespace Context.Moves

variable (h : c.Moves c' old)
include h

theorem old_mem (hp : p ∈ c'.all) : old p ∈ c.all := h.places.mem_iff.1 (List.mem_map_of_mem hp)

theorem hash_eq (hp : p ∈ c'.all) : c'.hash p = c.hash (old p) := by rw [hash, hash, h.plan p hp]

theorem achiever_eq (id : Nat) (hp : p ∈ c'.all) : c'.achiever id p = c.achiever id (old p) := by
  rw [achiever, achiever, h.choice id p hp]

/-- What has moved are the plans that it was. -/
theorem map_moved (hlive : c.Live live) : ((c'.moved old live).map old).Perm live := by
  have hfilter : (c'.moved old live).map old = (c'.all.map old).filter live.contains := by
    rw [moved, List.filter_map]
    rfl
  rw [hfilter]
  refine (h.places.filter _).trans ((List.perm_ext_iff_of_nodup (List.nodup_range.filter _) hlive.nodup).2 fun p => ?_)
  rw [List.mem_filter, List.contains_iff_mem]
  exact and_iff_right_of_imp fun hp => hlive.subset hp

theorem length_moved (hlive : c.Live live) : (c'.moved old live).length = live.length := by
  rw [← (h.map_moved hlive).length_eq, List.length_map]

theorem isEmpty_eq : c'.plans.isEmpty = c.plans.isEmpty := by
  have hsize : c'.plans.size = c.plans.size := by simpa [all] using h.places.length_eq
  rw [Array.isEmpty, Array.isEmpty, hsize]

theorem moved_all : c'.moved old c.all = c'.all :=
  List.filter_eq_self.2 fun _ hp => List.contains_iff_mem.2 (h.old_mem hp)

omit h in
/-- A test of the plans keeps at the other places what it keeps at the first ones. -/
theorem filter_moved {f f' : Nat → Bool} (hf : ∀ p ∈ c'.all, f' p = f (old p)) :
    (c'.moved old live).filter f' = c'.moved old (live.filter f) := by
  rw [moved, moved, List.filter_filter]
  refine List.filter_congr fun p hp => ?_
  rw [hf p hp, Bool.eq_iff_iff, Bool.and_eq_true, List.contains_iff_mem, List.contains_iff_mem, List.mem_filter,
    and_comm]

omit h in
theorem restrict_moved (h : c.Moves c' old) (hashes : List String) :
    c'.restrict hashes (c'.moved old live) = c'.moved old (c.restrict hashes live) := by
  unfold restrict
  split
  · rfl
  · exact filter_moved fun p hp => by rw [h.hash_eq hp]

/-! ## Choices and decisions -/

/-- The groups of the plans, at their other places. -/
theorem groups_moved (hlive : c.Live live) (id : Nat) : c'.groups id (c'.moved old live) =
    (c.groups id live).map fun g => ⟨g.key, c'.moved old g.plans⟩ := by
  have hkeys : ((c'.moved old live).map (c'.achiever id)).Perm (live.map (c.achiever id)) := by
    have hmap : (c'.moved old live).map (c'.achiever id) = ((c'.moved old live).map old).map (c.achiever id) := by
      rw [List.map_map]
      exact List.map_congr_left fun p hp => h.achiever_eq id (mem_moved.1 hp).1
    rw [hmap]
    exact (h.map_moved hlive).map _
  rw [groups, groups, groupBy_eq, groupBy_eq, keysOf_eq_of_perm hkeys, List.map_map]
  refine List.map_congr_left fun k _ => congrArg _ (filter_moved fun p hp => ?_)
  rw [h.achiever_eq id hp]

theorem groups_all (id : Nat) : c'.groups id c'.all =
    (c.groups id c.all).map fun g => ⟨g.key, c'.moved old g.plans⟩ := by
  rw [← h.moved_all]
  exact h.groups_moved (List.Sublist.refl _) id

theorem traversal_eq (d : Direction) : c'.traversal c'.all d = c.traversal c.all d := by
  have hmean (id : Nat) : c'.mean? c'.all id = c.mean? c.all id := by
    refine mean?_eq_of_perm ?_
    have hpositions : (c'.all.filterMap fun p => (c'.choice id p).map (·.2)) =
        (c'.all.map old).filterMap fun p => (c.choice id p).map (·.2) := by
      rw [List.filterMap_map]
      exact List.filterMap_congr fun p hp => congrArg _ (h.choice id p hp)
    rw [hpositions]
    exact h.places.filterMap _
  unfold traversal
  simp only [h.graph, hmean]

/-- The same landmarks are decided. -/
theorem decisions_eq : c'.decisions = c.decisions := by
  have hdecision : (c'.isDecision · c'.all) = (c.isDecision · c.all) := by
    funext id
    rw [isDecision, isDecision, h.groups_all, List.length_map]
  rw [decisions, decisions, h.traversal_eq]
  exact congrArg (List.filter · _) hdecision

/-! ## What selections leave -/

/-- A selection leaves the same plans, or fails alike. -/
theorem select_moved (hlive : c.Live live) (s : Selection) :
    c'.select (c'.moved old live) s = c'.moved old <$> c.select live s := by
  have hanswerable : c'.answerable s = c.answerable s := by rw [answerable, answerable, h.decisions_eq]
  have hfind (id : Nat) : (c'.groups id (c'.moved old live)).find? (·.key = Plan.normalized s.achiever) =
      ((c.groups id live).find? (·.key = Plan.normalized s.achiever)).map fun g => ⟨g.key, c'.moved old g.plans⟩ := by
    rw [h.groups_moved hlive, List.find?_map]
    rfl
  unfold select
  rw [hanswerable, map_bind]
  refine bind_congr fun ids => ?_
  have hfirst :
      (ids.findSome? fun id => (c'.groups id (c'.moved old live)).find? (·.key = Plan.normalized s.achiever)) =
      (ids.findSome? fun id => (c.groups id live).find? (·.key = Plan.normalized s.achiever)).map
        fun g => ⟨g.key, c'.moved old g.plans⟩ := by
    rw [List.map_findSome?]
    exact congrArg (List.findSome? · ids) (funext hfind)
  dsimp only
  rw [hfirst]
  cases ids.findSome? fun id => (c.groups id live).find? (·.key = Plan.normalized s.achiever) with
  | none => rfl
  | some g => exact congrArg Except.ok (h.restrict_moved s.hashes)

/-- Selections leave the same plans, or fail alike. -/
theorem foldlM_select_moved (hlive : c.Live live) (ss : List Selection) :
    ss.foldlM c'.select (c'.moved old live) = c'.moved old <$> ss.foldlM c.select live := by
  induction ss generalizing live with
  | nil => rfl
  | cons s ss ih =>
    rw [List.foldlM_cons, List.foldlM_cons, h.select_moved hlive]
    cases hselect : c.select live s with
    | error e => rfl
    | ok next => exact ih ((select_sublist hselect).trans hlive)

/-! ## What is shown -/

/-- Plans are shown in the same order. -/
theorem sorted_moved (hc : c.Identified) (hlive : c.Live live) (ids : List Nat) :
    (c'.sorted ids (c'.moved old live)).map old = c.sorted ids live := by
  have hall : ∀ p ∈ c'.sorted ids (c'.moved old live), p ∈ c'.all := fun p hp => (mem_moved.1 (mem_sorted.1 hp)).1
  have hsignature {p : Nat} (hp : p ∈ c'.all) :
      c'.signature ids p ++ [c'.hash p] = c.signature ids (old p) ++ [c.hash (old p)] := by
    rw [signature, signature, h.hash_eq hp]
    exact congrArg (· ++ _) (List.map_congr_left fun id _ => h.achiever_eq id hp)
  refine hc.eq_sorted (fun _ hp => hlive.lt_size hp) (((c'.sorted_perm ids _).map old).trans (h.map_moved hlive)) ?_
  refine List.pairwise_map.2 ((c'.pairwise_sorted ids _).imp_of_mem fun {p q} hp hq hpq => ?_)
  rwa [precedes, hsignature (hall p hp), hsignature (hall q hq)] at hpq

theorem plansAt_eq {places : List Nat} (hplaces : ∀ p ∈ places, p ∈ c'.all) :
    c'.plansAt places = c.plansAt (places.map old) := by
  rw [plansAt, plansAt, List.filterMap_map]
  exact List.filterMap_congr fun p hp => h.plan p (hplaces p hp)

end Context.Moves

/-! ## Views that are the same -/

/-- The offers are the same but for the order in which they name plans. -/
structure Offer.Same (o o' : Offer) : Prop where
  landmark : o'.landmark = o.landmark
  step : o'.step = o.step
  facts : o'.facts = o.facts
  achiever : o'.achiever = o.achiever
  hashes : o'.hashes.Perm o.hashes
  isAvailable : o'.isAvailable = o.isAvailable

/-- The views are the same but for the order in which their offers name plans. -/
structure Same (v v' : View κ) : Prop where
  kind : v'.kind = v.kind
  status : v'.status = v.status
  plans : v'.plans = v.plans
  offers : List.Forall₂ Offer.Same v.offers v'.offers
  selected : v'.selected = v.selected
  tree : v'.tree = v.tree

namespace Context.Moves

variable (h : c.Moves c' old)
include h

/-- The offers of a landmark are the same if the same plans are left. -/
theorem same_offers {places : List Nat} (hplaces : ∀ p ∈ c'.all, places.contains p = live.contains (old p)) (id : Nat) :
    List.Forall₂ Offer.Same (c.offers live id) (c'.offers places id) := by
  have hfacts : c'.facts id = c.facts id := by rw [facts, facts, h.graph]
  rw [offers, offers, h.groups_all, List.map_map, List.forall₂_map_left_iff, List.forall₂_map_right_iff,
    List.forall₂_same]
  intro g hg
  have hplans : c.Live g.plans := by
    rw [(mem_groupBy.1 hg).2]
    exact List.filter_sublist
  have hmoved := h.map_moved hplans
  refine ⟨rfl, rfl, hfacts, rfl, ?_, ?_⟩ <;> dsimp only [Function.comp_apply]
  · have hhashes : (c'.moved old g.plans).map c'.hash = ((c'.moved old g.plans).map old).map c.hash := by
      rw [List.map_map]
      exact List.map_congr_left fun p hp => h.hash_eq (mem_moved.1 hp).1
    rw [hhashes]
    exact hmoved.map _
  · rw [← hmoved.any_eq, List.any_map, Bool.eq_iff_iff, List.any_eq_true, List.any_eq_true]
    exact exists_congr fun p => and_congr_right fun hp => by rw [hplaces p (mem_moved.1 hp).1, Function.comp_apply]

/-- **The views of the same plans are the same.** -/
theorem same_selectView (hc : c.Identified) (hlive : c.Live live) :
    Same (c.selectView live) (c'.selectView (c'.moved old live)) := by
  have hall : ∀ p ∈ c'.sorted c.decisions (c'.moved old live), p ∈ c'.all :=
    fun p hp => (mem_moved.1 (mem_sorted.1 hp)).1
  have hplans : (c'.selectView (c'.moved old live)).plans = (c.selectView live).plans := by
    rw [plans_selectView, plans_selectView, h.decisions_eq, h.plansAt_eq hall, h.sorted_moved hc hlive]
  have hlength : (c'.sorted c'.decisions (c'.moved old live)).length = (c.sorted c.decisions live).length := by
    rw [(c'.sorted_perm _ _).length_eq, (c.sorted_perm _ _).length_eq, h.length_moved hlive]
  refine ⟨rfl, congrArg Status.ofCount hlength, hplans, ?_, ?_, congrArg Plan.Tree.ofPlans hplans⟩
  · have hoffers (id : Nat) : List.Forall₂ Offer.Same (c.offers (c.sorted c.decisions live) id)
        (c'.offers (c'.sorted c'.decisions (c'.moved old live)) id) := by
      refine h.same_offers (fun p hp => ?_) id
      rw [Bool.eq_iff_iff, List.contains_iff_mem, List.contains_iff_mem, mem_sorted, mem_sorted, mem_moved,
        and_iff_right hp]
    have hdecisions : List.Forall₂ Eq c.decisions c'.decisions := by
      rw [h.decisions_eq, List.forall₂_same]
      exact fun _ _ => rfl
    refine List.rel_flatMap hdecisions ?_
    rintro id _ rfl
    exact hoffers id
  · unfold selectView
    dsimp only
    rw [hlength]
    split
    · exact congrArg (fun plans => plans.head?.bind (·.hash)) hplans
    · rfl

end Context.Moves

/-! ## Plans in another order -/

/-- The contexts of plans with different digests in two orders. -/
theorem exists_moves (g : Landmark.Graph) {plans plans' : List (Plan κ)} (hperm : plans'.Perm plans)
    (hnodup : (plans.map fun p => Plan.fingerprint p.actions).Nodup) :
    ∃ old, (Context.of g (Plan.distinct plans)).Moves (.of g (Plan.distinct plans')) old := by
  have hnodup' : (plans'.map fun p => Plan.fingerprint p.actions).Nodup := (hperm.map _).nodup_iff.2 hnodup
  have hdistinct : (Plan.distinct plans').Perm (Plan.distinct plans) := by
    rw [Plan.distinct_eq_map hnodup, Plan.distinct_eq_map hnodup']
    exact hperm.map _
  obtain ⟨old, hplan, hplaces⟩ := exists_places_of_perm hdistinct (Plan.nodup_distinct plans).of_map
  have hall (ps : List (Plan κ)) : (Context.of g ps).all = List.range ps.length := by
    rw [Context.all, Context.of, List.size_toArray]
  have hplan : ∀ p ∈ (Context.of g (Plan.distinct plans')).all,
      (Plan.distinct plans')[p]? = (Plan.distinct plans)[old p]? := by
    intro p hp
    rw [hall, List.mem_range] at hp
    exact hplan p hp
  refine ⟨old, ?_, fun p hp => ?_, fun id p hp => ?_, rfl⟩
  · rw [hall, hall]
    exact hplaces
  · rw [Context.of, Context.of, List.getElem?_toArray, List.getElem?_toArray, hplan p hp]
  · rw [Context.choice_of, Context.choice_of, hplan p hp]

/-- **A selection view hardly depends on the order of its plans.** If these have different digests, plans in another
order are answered with the same failure or the same view, except that its offers name plans in another order. -/
theorem select_same_of_perm {r : Request κ} {plans : List (Plan κ)} (hperm : plans.Perm r.plans)
    (hnodup : (r.plans.map fun p => Plan.fingerprint p.actions).Nodup) :
    select { r with plans } = select r ∨
      ∃ v v', select r = .ok (some v) ∧ select { r with plans } = .ok (some v') ∧ Same v v' := by
  have halike : r.landmarks.Alike r.landmarks := ⟨.refl _, fun _ => Iff.rfl⟩
  have hprepare := prepare_eq_of_perm r { r with plans } rfl hperm halike
  obtain ⟨hselect, -⟩ | ⟨c, hc, hc'⟩ := eq_or_exists_prepare r { r with plans } rfl hprepare
  · exact .inl hselect
  obtain ⟨old, hmoves⟩ := exists_moves r.landmarks hperm hnodup
  rw [← eq_of_prepare hc] at hmoves
  have hselect : select r = _ := select_of_prepare hc r.selections
  have hselect' : select { r with plans } = _ := select_of_prepare hc' r.selections
  have hrun := hmoves.foldlM_select_moved (List.Sublist.refl _) r.selections
  rw [hmoves.moved_all] at hrun
  rw [hmoves.isEmpty_eq, hrun] at hselect'
  cases hplans : c.plans.isEmpty with
  | true =>
    rw [if_pos hplans] at hselect hselect'
    exact .inl (hselect'.trans hselect.symm)
  | false =>
    rw [if_neg (Bool.eq_false_iff.1 hplans)] at hselect hselect'
    cases hlive : r.selections.foldlM c.select c.all with
    | error e =>
      rw [hlive, Except.map_error] at hselect hselect'
      exact .inl (hselect'.trans hselect.symm)
    | ok live =>
      rw [hlive, Except.map_ok] at hselect hselect'
      exact .inr ⟨_, _, hselect, hselect',
        hmoves.same_selectView (identified_of_prepare hc) (Context.live_of_foldlM_select hlive)⟩

theorem Same.refl (v : View κ) : Same v v :=
  ⟨rfl, rfl, rfl, List.forall₂_same.2 fun _ _ => ⟨rfl, rfl, rfl, rfl, .refl _, rfl⟩, rfl, rfl⟩

/-! ## Views and incidental order -/

/-- **Views do not depend on incidental order.** A graph can list its landmarks in another order, and its orderings in
another order and repeatedly, without a change of any view or failure. A traversal has one outcome, in whichever order
its sweep keeps what may come next and what waits. And plans with different digests can come in another order without
a change of the selection view, except that its offers name plans in another order. -/
theorem views_unordered (r : Request κ) :
    (∀ g, r.landmarks.Alike g →
      select { r with landmarks := g } = select r ∧ ∀ d, build { r with landmarks := g } d = build r d) ∧
    (∀ c, Context.prepare r = .ok (some c) → ∀ live d ids,
      Sweep.Visits d (arrows d c.graph) (.start (arrows d c.graph) (c.stops live)) ids ↔
        ids = c.traversal live d) ∧
    ∀ plans : List (Plan κ), plans.Perm r.plans → (r.plans.map fun p => Plan.fingerprint p.actions).Nodup →
      select { r with plans } = select r ∨
        ∃ v v', select r = .ok (some v) ∧ select { r with plans } = .ok (some v') ∧ Same v v' :=
  ⟨fun _ h => ⟨select_eq_of_alike h, build_eq_of_alike h⟩,
    fun _ hprepare _ _ _ => Context.visits_iff (validate_of_prepare hprepare), fun _ => select_same_of_perm⟩

/-- The same signposts, listed otherwise. -/
def signpostRowListed : Landmark.Graph where
  landmarks := signposts.landmarks.reverse
  orders := signpostRow.orders ++ signpostRow.orders

theorem views_unordered_signpostedRow : ∃ (c : Context Number.Double) (v v' : View Number.Double),
    Context.prepare (signpostedRow (Number.Double.number 1)) = .ok (some c) ∧
    (∀ ids, Sweep.Visits .forward (arrows .forward c.graph) (.start (arrows .forward c.graph) (c.stops c.all)) ids ↔
      ids = [0, 1]) ∧
    select (signpostedRow (Number.Double.number 1)) = .ok (some v) ∧ v.status = .choosing ∧
    select { signpostedRow (Number.Double.number 1) with landmarks := signpostRowListed } = .ok (some v) ∧
    select { signpostedRow (Number.Double.number 1) with
      plans := (signpostedRow (Number.Double.number 1)).plans.reverse } = .ok (some v') ∧ Same v v' := by
  obtain ⟨hlisted, hvisits, hreordered⟩ := views_unordered (signpostedRow (Number.Double.number 1))
  have hprepare := prepare_signpostedRow (Number.Double.number 1)
  have htraversal (left right : String) : (signpostRowContext (Number.Double.number 1) left right).traversal
      (signpostRowContext (Number.Double.number 1) left right).all .forward = [0, 1] := rfl
  have hselect := select_start hprepare rfl rfl
  have halike : signpostRow.Alike signpostRowListed :=
    ⟨List.reverse_perm _, fun o => by rw [signpostRowListed, List.mem_append, or_self]⟩
  have hnodup : ((signpostedRow (Number.Double.number 1)).plans.map fun p => Plan.fingerprint p.actions).Nodup := by
    simpa [signpostedRow, signposted, crossing] using fingerprint_left_ne_right
  have hsweep (ids : List Nat) := (hvisits _ hprepare (Context.all _) .forward ids).trans (by rw [htraversal])
  have hlist := (hlisted _ halike).1.trans hselect
  rcases hreordered _ (List.reverse_perm _) hnodup with heq | ⟨v, v', hv, hv', hsame⟩
  · exact ⟨_, _, _, hprepare, hsweep, hselect, status_selectView _ _, hlist, heq.trans hselect, .refl _⟩
  · obtain rfl := Option.some.inj (Except.ok.inj (hv.symm.trans hselect))
    exact ⟨_, _, v', hprepare, hsweep, hselect, status_selectView _ _, hlist, hv', hsame⟩

end Waymark.View
