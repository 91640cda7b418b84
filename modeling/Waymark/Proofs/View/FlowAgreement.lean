import Mathlib.Tactic
import Waymark.Proofs.View.Availability
import Waymark.Proofs.View.Traversal

/-!
# Both flows agree

What is due in a build view is found among the plans that are left, the landmarks of a selection view among all
plans. Where a landmark is due it is also one of a selection view, and answering it keeps the plans that the
selection keeps which names it. So the same selections leave the same plans in both views.

* `mem_decisions`, `nodup_decisions`: the landmarks of a selection view;
* `due_eq_decisionAt`: the landmarks that become due;
* `select_of_answer`, `foldlM_select_of_replay`: selections in both flows;
* `Request.Named`: selections with the landmarks that they answered;
* `select_agrees_build`: views of the same selections.
-/

namespace Waymark.View

variable {κ : Type} {c : Context κ} {d : Direction} {live live' : List Nat} {s : Selection} {ss ts : List Selection}
  {id : Nat}

/-! ## Landmarks to decide -/

/-- A landmark that splits some plans splits all plans. -/
theorem Context.isDecision_mono (hsubset : live ⊆ live') (h : c.isDecision id live = true) :
    c.isDecision id live' = true := by
  obtain ⟨p, hp, q, hq, hne⟩ := two_le_length_groupBy.1 (of_decide_eq_true h)
  exact decide_eq_true (two_le_length_groupBy.2 ⟨p, hsubset hp, q, hsubset hq, hne⟩)

theorem mem_decisions (hvalid : c.graph.validate = .ok ()) :
    id ∈ c.decisions ↔ id ∈ c.graph.ids ∧ c.isDecision id c.all = true := by
  rw [Context.decisions, List.mem_filter, Context.mem_traversal hvalid]

theorem nodup_decisions (hvalid : c.graph.validate = .ok ()) : c.decisions.Nodup := by
  obtain ⟨rank, bound, hranked⟩ := Landmark.Graph.exists_ranked_of_validate hvalid
  exact ((c.traversal_perm hvalid c.all .forward).nodup_iff.2 hranked.nodup).filter _

/-- A landmark that is due shows the choices of all plans, and is one of the landmarks of a selection view. -/
theorem due_eq_decisionAt (hvalid : c.graph.validate = .ok ()) (hlive : c.Live live)
    (hid : (c.due d live).subject.landmark? = some id) : c.due d live = c.decisionAt id ∧ id ∈ c.decisions := by
  unfold Context.due at hid ⊢
  split at hid
  · rename_i first hfirst
    obtain rfl : first = id := Option.some.inj hid
    refine ⟨rfl, (mem_decisions hvalid).2 ⟨?_, Context.isDecision_mono hlive.subset ?_⟩⟩
    · exact (Context.mem_traversal hvalid).1 (List.mem_of_find?_eq_some hfirst)
    · exact List.find?_some (p := fun x => c.isDecision x live) hfirst
  · unfold Context.stepDecision at hid
    dsimp only at hid
    split at hid <;> cases hid

/-! ## Selections in both flows -/

/-- A selection that answers a landmark leaves the plans that the selection leaves which names the landmark. -/
theorem select_of_answer (hc : c.Identified) (hvalid : c.graph.validate = .ok ()) (hlive : c.Live live)
    (hid : (c.due d live).subject.landmark? = some id) (h : c.answer d live s = .ok live') (hleft : live' ≠ []) :
    c.select live { s with landmark := some id } = .ok live' := by
  obtain ⟨hdue, hmem⟩ := due_eq_decisionAt hvalid hlive hid
  obtain ⟨g, hchoose, rfl⟩ := Context.answer_eq_ok.1 h
  have hkeyed : (c.decisionAt id).Keyed c live c.all (c.achiever id) :=
    keyed_landmark hc (fun p hp => hlive.lt_size hp) id
  obtain ⟨hg, hkey, -⟩ := hkeyed.choose_eq_ok.1 (hdue ▸ hchoose)
  have hkept : c.restrict s.hashes (live.filter g.plans.contains) =
      live.filter (c.keeps { s with landmark := some id } id) := by
    rw [hkeyed.kept_eq hg, hkey]
    exact c.restrict_group { s with landmark := some id } id live
  rw [hkept] at hleft ⊢
  obtain ⟨p, hp⟩ := List.exists_mem_of_ne_nil _ hleft
  obtain ⟨hp, hkeeps⟩ := List.mem_filter.1 hp
  exact (Context.select_landmark_eq_ok_iff rfl).2 ⟨hmem, ⟨p, hp, Context.exists_of_keeps hkeeps⟩, rfl⟩

/-- Selections of a build view with the landmarks that they answered: each of them follows a view that offers
choices of its landmark. -/
inductive Request.Named (r : Request κ) (d : Direction) : List Selection → List Selection → Prop
  | nil : r.Named d [] []
  | concat {ss ts : List Selection} {v : View κ} {id : Nat} (s : Selection) (named : r.Named d ss ts)
      (viewed : build { r with selections := ss } d = .ok (some v)) (offered : ∃ o ∈ v.offers, o.landmark = some id) :
      r.Named d (ss ++ [s]) (ts ++ [{ s with landmark := some id }])

/-- A view that offers choices of a landmark is a view of two plans at least, among which the landmark is due. -/
theorem due_of_mem_offers {o : Offer} (ho : o ∈ (c.buildView d live).offers) :
    2 ≤ live.length ∧ (c.due d live).subject.landmark? = o.landmark := by
  by_cases htwo : 2 ≤ live.length
  · rw [offers_buildView htwo, offersOf_eq] at ho
    obtain ⟨g, -, rfl⟩ := List.mem_map.1 ho
    exact ⟨htwo, rfl⟩
  · have hnone : (c.buildView d live).offers = [] := if_neg htwo
    rw [hnone] at ho
    cases ho

/-- **Selections that answer landmarks leave the same plans in both flows**, while a plan is left. -/
theorem foldlM_select_of_replay {r : Request κ} (hprepare : Context.prepare r = .ok (some c))
    (hplans : c.plans.isEmpty = false) (hnamed : r.Named d ss ts) (h : c.replay d 0 c.all ss = .ok live)
    (hleft : live ≠ []) : ts.foldlM c.select c.all = .ok live := by
  induction hnamed generalizing live with
  | nil => exact h
  | @concat ss ts v id s _ viewed offered ih =>
    rw [Context.replay_append] at h
    obtain ⟨before, hbefore, hlast⟩ := bind_eq_ok.1 h
    obtain ⟨hempty, -⟩ | ⟨-, live', hlive', rfl⟩ := cases_of_build (r := { r with selections := ss }) hprepare viewed
    · rw [hplans] at hempty
      cases hempty
    obtain rfl : before = live' := Except.ok.inj (hbefore.symm.trans hlive')
    obtain ⟨o, ho, hid⟩ := offered
    obtain ⟨htwo, hdue⟩ := due_of_mem_offers ho
    rw [Context.replay_cons, if_neg (by omega)] at hlast
    obtain ⟨next, hanswer, hend⟩ := bind_eq_ok.1 hlast
    obtain rfl : next = live := Except.ok.inj hend
    have hfold := ih hbefore (List.ne_nil_of_length_pos (by omega))
    rw [List.foldlM_append]
    refine bind_eq_ok.2 ⟨before, hfold, ?_⟩
    rw [List.foldlM_cons]
    refine bind_eq_ok.2 ⟨next, ?_, rfl⟩
    exact select_of_answer (identified_of_prepare hprepare) (validate_of_prepare hprepare)
      (Context.live_of_foldlM_select hfold) (hdue.trans hid) hanswer hleft

/-! ## Offers in both views -/

/-- What an offer is about, whether or not it is available: the landmark, its facts, the action and its plans. -/
def Offer.content (o : Offer) : Option Nat × List String × String × List String :=
  (o.landmark, o.facts, o.achiever, o.hashes)

/-- Which plans are left only tells which offers are available. -/
theorem map_content_offersOf (c : Context κ) (live live' : List Nat) (decision : Decision) :
    (c.offersOf live decision).map Offer.content = (c.offersOf live' decision).map Offer.content := by
  rw [offersOf_eq, offersOf_eq, List.map_map, List.map_map]
  rfl

/-- What a list yields at the only place of an element. -/
theorem flatMap_ite_of_nodup {α β : Type} [DecidableEq α] {x : α} {xs : List α} (f : α → List β) (hnodup : xs.Nodup)
    (hx : x ∈ xs) : (xs.flatMap fun y => if x = y then f y else []) = f x := by
  induction xs with
  | nil => cases hx
  | cons y ys ih =>
    obtain ⟨hnot, hnodup⟩ := List.nodup_cons.1 hnodup
    rw [List.flatMap_cons]
    by_cases heq : x = y
    · subst heq
      have hrest : (ys.flatMap fun y => if x = y then f y else []) = [] :=
        List.flatMap_eq_nil_iff.2 fun z hz => if_neg fun heq : x = z => hnot (heq ▸ hz)
      rw [if_pos rfl, hrest, List.append_nil]
    · rw [if_neg heq, List.nil_append, ih hnodup ((List.mem_cons.1 hx).resolve_left heq)]

/-- The offers of a selection view about one of its landmarks. -/
theorem filter_offers_selectView (hvalid : c.graph.validate = .ok ()) (hid : id ∈ c.decisions) :
    (c.selectView live).offers.filter (·.landmark = some id) =
      c.offersOf (c.sorted c.decisions live) (c.decisionAt id) := by
  have hoffers : (c.selectView live).offers =
      c.decisions.flatMap fun x => c.offersOf (c.sorted c.decisions live) (c.decisionAt x) := rfl
  have hfilter (x : Nat) : (c.offersOf (c.sorted c.decisions live) (c.decisionAt x)).filter (·.landmark = some id) =
      if id = x then c.offersOf (c.sorted c.decisions live) (c.decisionAt x) else [] := by
    have hlandmark : ∀ o ∈ c.offersOf (c.sorted c.decisions live) (c.decisionAt x), o.landmark = some x := by
      intro o ho
      rw [offersOf_eq] at ho
      obtain ⟨g, -, rfl⟩ := List.mem_map.1 ho
      rfl
    split
    · rename_i heq
      exact List.filter_eq_self.2 fun o ho => decide_eq_true (heq ▸ hlandmark o ho)
    · rename_i hne
      refine List.filter_eq_nil_iff.2 fun o ho heq => hne ?_
      exact Option.some.inj ((of_decide_eq_true heq).symm.trans (hlandmark o ho))
  rw [hoffers, List.filter_flatMap]
  simp only [hfilter]
  exact flatMap_ite_of_nodup (fun x => c.offersOf (c.sorted c.decisions live) (c.decisionAt x))
    (nodup_decisions hvalid) hid

/-- A build view that offers choices of a landmark offers what a selection view of the same plans lists for it. -/
theorem map_content_offers (hvalid : c.graph.validate = .ok ()) (hlive : c.Live live)
    (hid : ∃ o ∈ (c.buildView d live).offers, o.landmark = some id) :
    ((c.selectView live').offers.filter (·.landmark = some id)).map Offer.content =
      (c.buildView d live).offers.map Offer.content := by
  obtain ⟨o, ho, hid⟩ := hid
  obtain ⟨htwo, hlandmark⟩ := due_of_mem_offers ho
  obtain ⟨hdue, hmem⟩ := due_eq_decisionAt hvalid hlive (hlandmark.trans hid)
  rw [filter_offers_selectView hvalid hmem, offers_buildView htwo, hdue]
  exact map_content_offersOf c _ live (c.decisionAt id)

/-- **Both flows agree.** When each selection of a build view has answered a landmark and a plan is left, a selection
view accepts the same selections with these landmarks named, and shows the same plans. If the build view offers the
choices of a landmark, these are what the selection view lists for it: they have the same landmark, facts, actions
and plans. -/
theorem select_agrees_build {r : Request κ} {v : View κ} (hnamed : r.Named d ss ts)
    (h : build { r with selections := ss } d = .ok (some v)) (hleft : v.plans ≠ []) :
    ∃ w, select { r with selections := ts } = .ok (some w) ∧ w.plans.Perm v.plans ∧
      ∀ id, (∃ o ∈ v.offers, o.landmark = some id) →
        (w.offers.filter (·.landmark = some id)).map Offer.content = v.offers.map Offer.content := by
  obtain ⟨c, hprepare⟩ := exists_prepare_of_build h
  have hprepare : Context.prepare r = .ok (some c) := hprepare
  obtain ⟨-, -, rfl⟩ | ⟨hplans, live, hreplay, rfl⟩ := cases_of_build (r := { r with selections := ss }) hprepare h
  · exact absurd rfl hleft
  have hne : live ≠ [] := by
    rintro rfl
    exact hleft rfl
  have hfold := foldlM_select_of_replay hprepare hplans hnamed hreplay hne
  refine ⟨c.selectView live, select_of_foldlM hprepare hplans hfold, ?_, fun id hid => ?_⟩
  · exact (c.sorted_perm c.decisions live).filterMap _
  · exact map_content_offers (validate_of_prepare hprepare) (Context.live_of_foldlM_select hfold) hid

/-! ## The signposts -/

/-- The first decision at the signposts is about the landmark that both actions achieve. -/
theorem due_signposted (left right : String) :
    (signpostContext (Number.Double.number 1) left right).due .forward [0, 1] =
      ⟨.landmark 0, [⟨"left", [0]⟩, ⟨"right", [1]⟩]⟩ := by
  have hgroups : (signpostContext (Number.Double.number 1) left right).groups 0 [0, 1] =
      [⟨"left", [0]⟩, ⟨"right", [1]⟩] := by
    refine groupBy_pair ?_
    change "left" < "right"
    decide
  have hsplits : (signpostContext (Number.Double.number 1) left right).isDecision 0 [0, 1] = true := by
    rw [Context.isDecision, hgroups]
    rfl
  have hfirst : ((signpostContext (Number.Double.number 1) left right).traversal [0, 1] .forward).find?
      (fun id => (signpostContext (Number.Double.number 1) left right).isDecision id [0, 1]) = some 0 :=
    List.find?_cons_of_pos hsplits
  unfold Context.due
  rw [hfirst]
  exact congrArg (Decision.mk (.landmark 0)) hgroups

theorem select_agrees_build_signposted : ∃ v v' : View Number.Double,
    build (signposted (.number 1)) .forward = .ok (some v) ∧
    (∃ o ∈ v.offers, o.landmark = some 0) ∧
    (∃ w, select (signposted (Number.Double.number 1)) = .ok (some w) ∧
      (w.offers.filter (·.landmark = some 0)).map Offer.content = v.offers.map Offer.content) ∧
    build { signposted (.number 1) with selections := [{ achiever := "left" }] } .forward = .ok (some v') ∧
    ∃ w, select { signposted (Number.Double.number 1) with selections := [takes 0 "left"] } = .ok (some w) ∧
      w.plans.Perm v'.plans := by
  have hprepare := prepare_signposted (Number.Double.number 1)
  have hoffered (left right : String) : ∃ o ∈ ((signpostContext (Number.Double.number 1) left right).buildView
      .forward [0, 1]).offers, o.landmark = some 0 := by
    rw [offers_buildView (by decide), due_signposted]
    exact ⟨_, List.mem_cons_self, rfl⟩
  have hanswer (left right : String) : (signpostContext (Number.Double.number 1) left right).replay .forward 0 [0, 1]
      [{ achiever := "left" }] = .ok [0] := by
    refine (Context.replay_cons _ _ _ _ _ _).trans ((if_neg (by decide)).trans (bind_eq_ok.2 ⟨[0], ?_, rfl⟩))
    refine Context.answer_eq_ok.2 ⟨⟨"left", [0]⟩, ?_, rfl⟩
    rw [due_signposted]
    rfl
  have hstart := build_start (d := .forward) hprepare rfl rfl
  have hbuild := build_of_replay hprepare rfl (hanswer _ _)
  have hnone : (signposted (Number.Double.number 1)).Named .forward [] [] := .nil
  have hone : (signposted (Number.Double.number 1)).Named .forward [{ achiever := "left" }] [takes 0 "left"] :=
    hnone.concat { achiever := "left" } hstart (hoffered _ _)
  obtain ⟨w, hw, -, hoffers⟩ := select_agrees_build hnone hstart (List.cons_ne_nil _ _)
  obtain ⟨w', hw', hplans, -⟩ := select_agrees_build hone hbuild (List.cons_ne_nil _ _)
  exact ⟨_, _, hstart, hoffered _ _, ⟨w, hw, hoffers 0 (hoffered _ _)⟩, hbuild, w', hw', hplans⟩

end Waymark.View
