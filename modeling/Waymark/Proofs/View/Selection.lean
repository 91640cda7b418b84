import Mathlib.Tactic
import Waymark.Proofs.View.Flow
import Waymark.View.Select

/-!
# The flow of a selection view

A selection that names its landmark keeps the plans that make its choice, whatever was selected before. So such
selections are filters, and it does not matter in which order, or how often, they are made.

* `Context.keeps`, `Context.select_eq_ok_iff`: what a selection keeps;
* `foldlM_select_eq_ok_iff`: what selections leave that name their landmarks;
* `Context.Identified.eq_sorted`, `sorted_filter`: the order in which plans are shown;
* `cases_of_select`: views and the plans that are left;
* `select_eq_of_mem_iff`: selections as a set of filters.
-/

namespace Waymark.View

variable {κ : Type} {c : Context κ} {live live' : List Nat} {s : Selection} {ss : List Selection} {id : Nat}

/-! ## What a selection keeps -/

/-- The plan makes the choice of a selection for a landmark, and the selection does not drop it by its digest. -/
def Context.keeps (c : Context κ) (s : Selection) (id plan : Nat) : Bool :=
  c.achiever id plan == Plan.normalized s.achiever && (s.hashes.isEmpty || s.hashes.contains (c.hash plan))

theorem Context.restrict_group (c : Context κ) (s : Selection) (id : Nat) (live : List Nat) :
    c.restrict s.hashes (live.filter fun p => c.achiever id p == Plan.normalized s.achiever) =
      live.filter (c.keeps s id) := by
  unfold restrict keeps
  by_cases hhashes : s.hashes.isEmpty = true
  · simp only [hhashes, if_true, Bool.true_or, Bool.and_true]
  · simp only [hhashes, List.filter_filter, Bool.false_or, Bool.false_eq_true, if_false, Bool.and_comm]

/-- The group of a choice for a landmark. -/
theorem Context.find?_groups {k : String} {g : Group} : (c.groups id live).find? (·.key = k) = some g ↔
    (∃ p ∈ live, c.achiever id p = k) ∧ g = ⟨k, live.filter fun p => c.achiever id p == k⟩ := by
  rw [groups, find?_groupBy, mem_groupBy]
  constructor
  · rintro ⟨⟨hexists, hplans⟩, rfl⟩
    exact ⟨hexists, by rw [← hplans]⟩
  · rintro ⟨hexists, rfl⟩
    exact ⟨⟨hexists, rfl⟩, rfl⟩

theorem Context.find?_groups_eq_none {k : String} :
    (c.groups id live).find? (·.key = k) = none ↔ ∀ p ∈ live, c.achiever id p ≠ k := by
  rw [Option.eq_none_iff_forall_ne_some]
  constructor
  · exact fun h p hp hk => h _ (find?_groups.2 ⟨⟨p, hp, hk⟩, rfl⟩)
  · rintro h g hg
    obtain ⟨⟨p, hp, hk⟩, -⟩ := find?_groups.1 hg
    exact h p hp hk

/-- A selection keeps plans of the first landmark that it may answer and for which its choice is possible. -/
theorem Context.select_eq_ok_iff : c.select live s = .ok live' ↔
    ∃ before id after, c.answerable s = .ok (before ++ id :: after) ∧
      (∀ x ∈ before, ∀ p ∈ live, c.achiever x p ≠ Plan.normalized s.achiever) ∧
      (∃ p ∈ live, c.achiever id p = Plan.normalized s.achiever) ∧ live.filter (c.keeps s id) = live' := by
  unfold select
  rw [bind_eq_ok]
  constructor
  · rintro ⟨ids, hids, h⟩
    dsimp only at h
    split at h
    · rename_i g hg
      obtain ⟨before, id, after, rfl, hgroup, hnone⟩ := List.findSome?_eq_some_iff.1 hg
      obtain ⟨hexists, rfl⟩ := find?_groups.1 hgroup
      refine ⟨before, id, after, hids, fun x hx => find?_groups_eq_none.1 (hnone x hx), hexists, ?_⟩
      rw [← restrict_group]
      exact Except.ok.inj h
    · cases h
  · rintro ⟨before, id, after, hids, hnone, hexists, rfl⟩
    refine ⟨_, hids, ?_⟩
    have hfirst : ((before ++ id :: after).findSome? fun x =>
        (c.groups x live).find? (·.key = Plan.normalized s.achiever)) = some _ :=
      List.findSome?_eq_some_iff.2 ⟨before, id, after, rfl, find?_groups.2 ⟨hexists, rfl⟩,
        fun x hx => find?_groups_eq_none.2 (hnone x hx)⟩
    dsimp only
    rw [hfirst, ← restrict_group]
    rfl

/-- A selection that names its landmark. -/
theorem Context.select_landmark_eq_ok_iff (hs : s.landmark = some id) : c.select live s = .ok live' ↔
    id ∈ c.decisions ∧ (∃ p ∈ live, c.achiever id p = Plan.normalized s.achiever) ∧
      live.filter (c.keeps s id) = live' := by
  have hanswerable (ids : List Nat) : c.answerable s = .ok ids ↔ id ∈ c.decisions ∧ [id] = ids := by
    unfold answerable
    rw [hs]
    dsimp only
    split
    · rename_i hmem
      rw [and_iff_right (List.contains_iff_mem.1 hmem)]
      exact ⟨Except.ok.inj, congrArg _⟩
    · rename_i hnot
      exact iff_of_false nofun fun h => hnot (List.contains_iff_mem.2 h.1)
  rw [select_eq_ok_iff]
  constructor
  · rintro ⟨before, x, after, hids, -, hexists, hkept⟩
    obtain ⟨hmem, heq⟩ := (hanswerable _).1 hids
    obtain ⟨rfl, heq⟩ | ⟨y, -, heq⟩ := List.cons_eq_append_iff.1 heq
    · obtain ⟨rfl, -⟩ := List.cons.inj heq
      exact ⟨hmem, hexists, hkept⟩
    · simp at heq
  · rintro ⟨hmem, hexists, hkept⟩
    exact ⟨[], id, [], (hanswerable _).2 ⟨hmem, rfl⟩, nofun, hexists, hkept⟩

theorem Context.exists_of_keeps {p : Nat} (h : c.keeps s id p = true) :
    c.achiever id p = Plan.normalized s.achiever := eq_of_beq (Bool.and_eq_true_iff.1 h).1

/-- Selections that name their landmarks are filters, while a plan is left. -/
theorem foldlM_select_eq_ok_iff (hnamed : ∀ s ∈ ss, s.landmark.isSome = true) (hleft : live' ≠ []) :
    ss.foldlM c.select live = .ok live' ↔ (∀ s ∈ ss, ∃ id ∈ c.decisions, s.landmark = some id) ∧
      live.filter (fun p => ss.all fun s => s.landmark.any (c.keeps s · p)) = live' := by
  induction ss generalizing live with
  | nil =>
    simp only [List.all_nil, List.filter_true]
    exact ⟨fun h => ⟨nofun, Except.ok.inj h⟩, fun h => congrArg _ h.2⟩
  | cons s ss ih =>
    obtain ⟨hs, hss⟩ := List.forall_mem_cons.1 hnamed
    obtain ⟨id, hid⟩ := Option.isSome_iff_exists.1 hs
    have hfilter : live.filter (fun p => (s :: ss).all fun s => s.landmark.any (c.keeps s · p)) =
        (live.filter (c.keeps s id)).filter fun p => ss.all fun s => s.landmark.any (c.keeps s · p) := by
      rw [List.filter_filter]
      refine List.filter_congr fun p _ => ?_
      rw [List.all_cons, hid, Option.any_some, Bool.and_comm]
    rw [List.foldlM_cons, bind_eq_ok, hfilter, List.forall_mem_cons]
    constructor
    · rintro ⟨next, hnext, hrest⟩
      obtain ⟨hmem, -, rfl⟩ := (Context.select_landmark_eq_ok_iff hid).1 hnext
      obtain ⟨hmems, hkept⟩ := (ih hss).1 hrest
      exact ⟨⟨⟨id, hmem, hid⟩, hmems⟩, hkept⟩
    · rintro ⟨⟨⟨id', hmem, hid'⟩, hmems⟩, hkept⟩
      obtain rfl := Option.some.inj (hid.symm.trans hid')
      -- A plan that is left in the end makes the first choice too.
      obtain ⟨p, hp⟩ := List.exists_mem_of_ne_nil _ (hkept ▸ hleft)
      obtain ⟨hp, hkeeps⟩ := List.mem_filter.1 (List.mem_of_mem_filter hp)
      refine ⟨_, (Context.select_landmark_eq_ok_iff hid).2 ⟨hmem, ⟨p, hp, Context.exists_of_keeps hkeeps⟩, rfl⟩, ?_⟩
      exact (ih hss).2 ⟨hmems, hkept⟩

/-- A selection that is made again keeps all that it has kept. -/
theorem select_again (h : c.select live s = .ok live') (hleft : live' ≠ []) : c.select live' s = .ok live' := by
  obtain ⟨before, id, after, hids, hnone, -, rfl⟩ := Context.select_eq_ok_iff.1 h
  obtain ⟨p, hp⟩ := List.exists_mem_of_ne_nil _ hleft
  refine Context.select_eq_ok_iff.2 ⟨before, id, after, hids, fun x hx q hq => ?_, ⟨p, hp, ?_⟩, ?_⟩
  · exact hnone x hx q (List.mem_of_mem_filter hq)
  · exact Context.exists_of_keeps (List.mem_filter.1 hp).2
  · rw [List.filter_filter]
    simp only [Bool.and_self]

/-! ## The order in which plans are shown -/

/-- A plan is shown before another one, or is that plan. -/
def Context.precedes (c : Context κ) (ids : List Nat) (p q : Nat) : Bool :=
  (compare (c.signature ids p ++ [c.hash p]) (c.signature ids q ++ [c.hash q])).isLE

theorem Context.sorted_eq_mergeSort (c : Context κ) (ids live : List Nat) :
    c.sorted ids live = live.mergeSort (c.precedes ids) := by
  have hkeyed := List.map_mergeSort (r := c.precedes ids) (l := live)
    (s := fun x y : List String × Nat => (compare x.1 y.1).isLE)
    (f := fun p => (c.signature ids p ++ [c.hash p], p)) (fun _ _ _ _ => rfl)
  unfold sorted
  dsimp only
  rw [← hkeyed, List.map_map]
  exact List.map_id _

theorem Context.sorted_perm (c : Context κ) (ids live : List Nat) : (c.sorted ids live).Perm live := by
  rw [sorted_eq_mergeSort]
  exact List.mergeSort_perm _ _

theorem Context.mem_sorted {ids : List Nat} {p : Nat} : p ∈ c.sorted ids live ↔ p ∈ live :=
  (c.sorted_perm ids live).mem_iff

theorem Context.pairwise_sorted (c : Context κ) (ids live : List Nat) :
    (c.sorted ids live).Pairwise fun p q => c.precedes ids p q = true := by
  rw [sorted_eq_mergeSort]
  refine List.pairwise_mergeSort (fun p q r => ?_) (fun p q => ?_) live
  · exact Std.TransCmp.isLE_trans
  · have hswap : compare (c.signature ids q ++ [c.hash q]) (c.signature ids p ++ [c.hash p]) =
        (compare (c.signature ids p ++ [c.hash p]) (c.signature ids q ++ [c.hash q])).swap := Std.OrientedCmp.eq_swap
    rw [precedes, precedes, hswap]
    cases compare (c.signature ids p ++ [c.hash p]) (c.signature ids q ++ [c.hash q]) <;> rfl

/-- Plans that are in order are shown in that order. -/
theorem Context.Identified.eq_sorted (hc : c.Identified) {ids places : List Nat}
    (hrange : ∀ p ∈ live, p < c.plans.size) (hperm : places.Perm live)
    (hordered : places.Pairwise fun p q => c.precedes ids p q = true) : places = c.sorted ids live := by
  refine List.Perm.eq_of_pairwise (fun p q hp hq hpq hqp => ?_) hordered (c.pairwise_sorted ids live)
    (hperm.trans (c.sorted_perm ids live).symm)
  have hkey : c.signature ids p ++ [c.hash p] = c.signature ids q ++ [c.hash q] :=
    Std.LawfulEqCmp.eq_of_compare (Std.OrientedCmp.isLE_antisymm hpq hqp)
  have hhash : c.hash p = c.hash q := by simpa using (List.append_inj' hkey rfl).2
  exact hc.hash_injective (hrange p (hperm.mem_iff.1 hp)) (hrange q (Context.mem_sorted.1 hq)) hhash

/-- Some of the plans are shown in the order in which all are shown. -/
theorem Context.Identified.sorted_filter (hc : c.Identified) {ids : List Nat} (hrange : ∀ p ∈ live, p < c.plans.size)
    (f : Nat → Bool) : c.sorted ids (live.filter f) = (c.sorted ids live).filter f :=
  (hc.eq_sorted (fun p hp => hrange p (List.mem_of_mem_filter hp)) ((c.sorted_perm ids live).filter f)
    ((c.pairwise_sorted ids live).filter f)).symm

/-! ## Views -/

/-- What a request is answered with, once its context is prepared. -/
theorem select_of_prepare {r : Request κ} (hprepare : Context.prepare r = .ok (some c)) (ss : List Selection) :
    select { r with selections := ss } =
      if c.plans.isEmpty then
        if ss.isEmpty then .ok (some (noPlans .selection)) else .error (.selection .noPlans)
      else (fun live => some (c.selectView live)) <$> ss.foldlM c.select c.all := by
  have hprepare : Context.prepare { r with selections := ss } = .ok (some c) := hprepare
  unfold select
  rw [hprepare]
  rfl

theorem exists_prepare_of_select {r : Request κ} {v : View κ} (h : select r = .ok (some v)) :
    ∃ c, Context.prepare r = .ok (some c) := by
  unfold select at h
  obtain ⟨prepared, hprepare, h⟩ := bind_eq_ok.1 h
  cases prepared with
  | none => cases h
  | some c => exact ⟨c, hprepare⟩

/-- A view of no plans has no selections behind it, all others show the plans that the selections leave. -/
theorem cases_of_select {r : Request κ} {v : View κ} (hprepare : Context.prepare r = .ok (some c))
    (h : select r = .ok (some v)) :
    (c.plans.isEmpty = true ∧ r.selections = [] ∧ v = noPlans .selection) ∨
      (c.plans.isEmpty = false ∧ ∃ live, r.selections.foldlM c.select c.all = .ok live ∧ v = c.selectView live) := by
  rw [select_of_prepare hprepare r.selections] at h
  split at h
  · rename_i hempty
    split at h
    · rename_i hnone
      exact .inl ⟨hempty, List.isEmpty_iff.1 hnone, (Option.some.inj (Except.ok.inj h)).symm⟩
    · cases h
  · rename_i hplans
    obtain ⟨live, hlive, heq⟩ := map_eq_ok.1 h
    exact .inr ⟨Bool.eq_false_iff.2 hplans, live, hlive, (Option.some.inj heq).symm⟩

/-- The view of the plans that selections leave. -/
theorem select_of_foldlM {r : Request κ} (hprepare : Context.prepare r = .ok (some c))
    (hplans : c.plans.isEmpty = false) (hlive : ss.foldlM c.select c.all = .ok live) :
    select { r with selections := ss } = .ok (some (c.selectView live)) := by
  rw [select_of_prepare hprepare, hplans, hlive]
  rfl

/-- Without selections all plans are left. -/
theorem select_start {r : Request κ} (hprepare : Context.prepare r = .ok (some c)) (hplans : c.plans.isEmpty = false)
    (hnone : r.selections = []) : select r = .ok (some (c.selectView c.all)) := by
  have hstart : select { r with selections := r.selections } = .ok (some (c.selectView c.all)) := by
    refine select_of_foldlM hprepare hplans ?_
    rw [hnone]
    rfl
  exact hstart

theorem plans_selectView (c : Context κ) (live : List Nat) :
    (c.selectView live).plans = c.plansAt (c.sorted c.decisions live) := rfl

theorem status_selectView (c : Context κ) (live : List Nat) : (c.selectView live).status = .ofCount live.length :=
  congrArg Status.ofCount (c.sorted_perm c.decisions live).length_eq

/-- A view shows a plan if one is left. -/
theorem plans_selectView_ne_nil (hrange : ∀ p ∈ live, p < c.plans.size) :
    (c.selectView live).plans ≠ [] ↔ live ≠ [] := by
  have hlength : (c.selectView live).plans.length = live.length := by
    rw [plans_selectView, Context.length_plansAt fun p hp => hrange p (Context.mem_sorted.1 hp)]
    exact (c.sorted_perm c.decisions live).length_eq
  rw [← List.length_pos_iff, ← List.length_pos_iff, hlength]

/-- Selections leave some of the plans. -/
theorem Context.select_sublist (h : c.select live s = .ok live') : live'.Sublist live := by
  obtain ⟨-, -, -, -, -, -, rfl⟩ := select_eq_ok_iff.1 h
  exact List.filter_sublist

theorem Context.live_of_foldlM_select (h : ss.foldlM c.select c.all = .ok live) : c.Live live :=
  foldlM_ok (P := c.Live) (fun _ _ _ _ hlive hselect => (select_sublist hselect).trans hlive) (List.Sublist.refl _) h

/-! ## Selections as a set of filters -/

/-- **Selections behave like a set of filters.** As long as a plan is left, a list of selections that name their
landmarks can be reordered, and selections of it repeated, without a change of the view: only what is selected
matters. The last selection of a list can be repeated even if it does not name its landmark. -/
theorem select_eq_of_mem_iff {r : Request κ} {v : View κ} (h : select r = .ok (some v)) (hleft : v.plans ≠ []) :
    ((∀ s ∈ r.selections, s.landmark.isSome = true) → ∀ ts : List Selection, (∀ s, s ∈ ts ↔ s ∈ r.selections) →
      select { r with selections := ts } = .ok (some v)) ∧
    ∀ ss s, r.selections = ss ++ [s] → select { r with selections := ss ++ [s, s] } = .ok (some v) := by
  obtain ⟨c, hprepare⟩ := exists_prepare_of_select h
  obtain ⟨-, -, rfl⟩ | ⟨hplans, live, hlive, rfl⟩ := cases_of_select hprepare h
  · exact absurd rfl hleft
  have hne : live ≠ [] :=
    (plans_selectView_ne_nil fun _ hp => (Context.live_of_foldlM_select hlive).lt_size hp).1 hleft
  constructor
  · intro hnamed ts hts
    obtain ⟨hmem, hkept⟩ := (foldlM_select_eq_ok_iff hnamed hne).1 hlive
    refine select_of_foldlM hprepare hplans ((foldlM_select_eq_ok_iff (fun s hs => ?_) hne).2 ⟨fun s hs => ?_, ?_⟩)
    · exact hnamed s ((hts s).1 hs)
    · exact hmem s ((hts s).1 hs)
    · rw [← hkept]
      refine List.filter_congr fun p _ => ?_
      rw [Bool.eq_iff_iff, List.all_eq_true, List.all_eq_true]
      exact forall_congr' fun s => by rw [hts]
  · intro ss s hss
    rw [hss, List.foldlM_append] at hlive
    obtain ⟨before, hbefore, hlast⟩ := bind_eq_ok.1 hlive
    obtain ⟨next, hnext, hend⟩ := bind_eq_ok.1 hlast
    obtain rfl := Except.ok.inj hend
    have hagain := select_again hnext hne
    refine select_of_foldlM hprepare hplans ?_
    rw [List.foldlM_append]
    refine bind_eq_ok.2 ⟨before, hbefore, ?_⟩
    rw [List.foldlM_cons]
    refine bind_eq_ok.2 ⟨next, hnext, ?_⟩
    rw [List.foldlM_cons]
    exact bind_eq_ok.2 ⟨next, hagain, rfl⟩

/-! ## Signposts at a crossroads -/

/-- Two landmarks: one that both actions achieve, and one that only one of them achieves. -/
def signposts : Landmark.Graph where
  landmarks := [
    { id := 0, facts := ["(away)"], possibleAchievers := ["(left)", "(right)"] },
    { id := 1, facts := ["(east)"], possibleAchievers := ["(right)"] }]

/-- The choice between two plans with these landmarks. -/
def signposted (cost : κ) : Request κ := { crossing cost with landmarks := signposts }

/-- Both plans with their digests and their choices. -/
def signpostContext (cost : κ) (left right : String) : Context κ :=
  { crossingContext cost left right with
    graph := signposts
    choices := [(0, #[some ("left", 0), some ("right", 0)]), (1, #[none, some ("right", 0)])] }

/-- The choice between the two plans with signposts in some order. -/
theorem prepare_signposts (cost : κ) (orders : List Landmark.Order)
    (hvalid : { signposts with orders }.validate = .ok ()) :
    Context.prepare { signposted cost with landmarks := { signposts with orders } } =
      .ok (some { signpostContext cost (Plan.fingerprint ["(left)"]) (Plan.fingerprint ["(right)"]) with
        graph := { signposts with orders } }) := by
  have hpresent : (signposted cost).task.requirePresent = .ok () := requirePresent_crossingTask
  have hread : Planning.Domain.read (signposted cost).task.domain = .ok crossroads := read_crossroadsText
  have hknown : signposts.landmarks.all (isKnown crossroads) = true := by decide
  have hchoices (left right : String) : signposts.landmarks.map (choicesFor (crossingContext cost left right).plans) =
      (signpostContext cost left right).choices := by
    simp only [signposts, choicesFor, crossingContext, signpostContext, List.map_cons, List.map_nil, List.map_toArray]
    decide
  have hplans : (Plan.distinct (signposted cost).plans).toArray =
      (crossingContext cost (Plan.fingerprint ["(left)"]) (Plan.fingerprint ["(right)"])).plans :=
    congrArg List.toArray (distinct_crossing cost)
  have hprepare := prepare_eq (r := { signposted cost with landmarks := { signposts with orders } }) hpresent hread
    hvalid (all_isSound_crossing cost) hknown
  rw [hplans] at hprepare
  exact hprepare.trans (congrArg (fun choices => Except.ok (some (Context.mk _ _ choices))) (hchoices _ _))

theorem prepare_signposted (cost : κ) : Context.prepare (signposted cost) =
    .ok (some (signpostContext cost (Plan.fingerprint ["(left)"]) (Plan.fingerprint ["(right)"]))) :=
  prepare_signposts cost [] (by decide)

/-- The signposts, the second of which stands behind the first. -/
def signpostRow : Landmark.Graph := { signposts with orders := [⟨0, 1, .natural⟩] }

/-- The choice between two plans with signposts in a row. -/
def signpostedRow (cost : κ) : Request κ := { signposted cost with landmarks := signpostRow }

/-- Both plans with their digests and their choices, and the signposts in a row. -/
def signpostRowContext (cost : κ) (left right : String) : Context κ :=
  { signpostContext cost left right with graph := signpostRow }

theorem prepare_signpostedRow (cost : κ) : Context.prepare (signpostedRow cost) =
    .ok (some (signpostRowContext cost (Plan.fingerprint ["(left)"]) (Plan.fingerprint ["(right)"]))) :=
  prepare_signposts cost [⟨0, 1, .natural⟩] (by decide)

/-- Both landmarks split the plans. -/
theorem decisions_signposted (cost : κ) (left right : String) :
    (signpostContext cost left right).decisions = [0, 1] := by
  have hsplits : ∀ id ∈ [0, 1], (signpostContext cost left right).isDecision id [0, 1] = true := by
    intro id hid
    refine decide_eq_true (two_le_length_groupBy.2 ⟨0, by decide, 1, by decide, ?_⟩)
    fin_cases hid
    · change "left" ≠ "right"
      decide
    · change notAchieved ≠ "right"
      decide
  exact List.filter_eq_self.2 hsplits

/-- The selection of an action at a signpost. -/
def takes (id : Nat) (action : String) : Selection := { landmark := some id, achiever := action }

theorem select_eq_of_mem_iff_signposted : ∃ v : View Number.Double,
    select { signposted (.number 1) with selections := [takes 0 "right", takes 1 "(right)"] } = .ok (some v) ∧
    v.status = .resolved ∧
    select { signposted (.number 1) with selections := [takes 1 "(right)", takes 0 "right", takes 1 "(right)"] } =
      .ok (some v) ∧
    select { signposted (.number 1) with selections := [takes 0 "right", takes 1 "(right)", takes 1 "(right)"] } =
      .ok (some v) := by
  have hsame (s : Selection) : s ∈ [takes 1 "(right)", takes 0 "right", takes 1 "(right)"] ↔
      s ∈ [takes 0 "right", takes 1 "(right)"] := by
    simp only [List.mem_cons, List.not_mem_nil, or_false]
    tauto
  have hnamed : ∀ s ∈ [takes 0 "right", takes 1 "(right)"], s.landmark.isSome = true := by decide
  have hleft (left right : String) : [takes 0 "right", takes 1 "(right)"].foldlM
      (signpostContext (Number.Double.number 1) left right).select
      (signpostContext (Number.Double.number 1) left right).all = .ok [1] := by
    refine (foldlM_select_eq_ok_iff hnamed (List.cons_ne_nil _ _)).2 ⟨?_, rfl⟩
    rw [decisions_signposted]
    decide
  have hselect := select_of_foldlM (prepare_signposted (Number.Double.number 1)) rfl (hleft _ _)
  have hshown : ((signpostContext (Number.Double.number 1) (Plan.fingerprint ["(left)"])
      (Plan.fingerprint ["(right)"])).selectView [1]).plans ≠ [] :=
    (plans_selectView_ne_nil (List.forall_mem_singleton.2 (by decide))).2 (List.cons_ne_nil 1 [])
  obtain ⟨hset, hlast⟩ := select_eq_of_mem_iff hselect hshown
  have hreordered := hset hnamed _ hsame
  have hrepeated := hlast [takes 0 "right"] (takes 1 "(right)") rfl
  have hstatus := status_selectView (signpostContext (Number.Double.number 1) (Plan.fingerprint ["(left)"])
    (Plan.fingerprint ["(right)"])) [1]
  exact ⟨_, hselect, hstatus, hreordered, hrepeated⟩

end Waymark.View
