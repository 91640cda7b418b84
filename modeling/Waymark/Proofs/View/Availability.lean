import Mathlib.Tactic
import Waymark.Proofs.View.Selection

/-!
# What a selection view offers

The choices of a landmark are those of all plans, and one of them is available if a plan that is left makes it. A
selection that names its landmark is accepted if it takes an available choice, and then leaves the plans that are
shown with it.

* `mem_offers_selectView`: the offers of a view;
* `Selection.Takes`, `takes_offer_iff`: selections that take an offer;
* `Context.select_failsOnly`: selections that are refused;
* `select_offers_exact`: what a view offers is what is accepted next.
-/

namespace Waymark.View

variable {κ : Type} {c : Context κ} {live : List Nat} {s : Selection} {ss : List Selection} {id : Nat} {g : Group}

/-! ## Offers -/

/-- The decision about a landmark, with the choices of all plans. -/
def Context.decisionAt (c : Context κ) (id : Nat) : Decision := ⟨.landmark id, c.groups id c.all⟩

theorem mem_offers_selectView {o : Offer} : o ∈ (c.selectView live).offers ↔ ∃ id ∈ c.decisions,
    ∃ g ∈ (c.decisionAt id).options, c.offer (c.sorted c.decisions live) (c.decisionAt id) g = o := by
  have hoffers : (c.selectView live).offers = c.decisions.flatMap fun id =>
      (c.decisionAt id).options.map (c.offer (c.sorted c.decisions live) (c.decisionAt id)) := rfl
  rw [hoffers, List.mem_flatMap]
  simp only [List.mem_map]

/-- A selection takes an offer: the offer is available, is about the landmark that the selection names, and shows
the same action. -/
def Selection.Takes (s : Selection) (o : Offer) : Prop :=
  o.isAvailable = true ∧ o.landmark = s.landmark ∧ Plan.normalized o.achiever = Plan.normalized s.achiever

/-- A selection takes the offer of a group if it names the landmark, and a plan that is left makes its choice. -/
theorem takes_offer_iff (hc : c.Identified) (hlive : c.Live live) (hg : g ∈ (c.decisionAt id).options) :
    s.Takes (c.offer (c.sorted c.decisions live) (c.decisionAt id) g) ↔
      s.landmark = some id ∧ g.key = Plan.normalized s.achiever ∧ ∃ p ∈ live, c.achiever id p = g.key := by
  have hkeyed : (c.decisionAt id).Keyed c (c.sorted c.decisions live) c.all (c.achiever id) :=
    keyed_landmark hc (fun p hp => hlive.lt_size (Context.mem_sorted.1 hp)) id
  have hshown : Plan.normalized (shown g.key) = g.key := by
    obtain ⟨p, -, hp⟩ := hkeyed.exists_mem hg
    exact hp ▸ hkeyed.displayable p
  have havailable : (c.offer (c.sorted c.decisions live) (c.decisionAt id) g).isAvailable = true ↔
      ∃ p ∈ live, c.achiever id p = g.key := by
    rw [hkeyed.isAvailable_iff hg]
    simp only [Context.mem_sorted]
  have hlandmark : (c.offer (c.sorted c.decisions live) (c.decisionAt id) g).landmark = some id := rfl
  have hachiever : (c.offer (c.sorted c.decisions live) (c.decisionAt id) g).achiever = shown g.key := rfl
  rw [Selection.Takes, havailable, hlandmark, hachiever, hshown, eq_comm (a := some id), and_comm,
    and_assoc]

/-- Some offer is taken if the landmark is one to decide, and a plan that is left makes the choice. -/
theorem exists_takes_iff (hc : c.Identified) (hlive : c.Live live) (hs : s.landmark = some id) :
    (∃ o ∈ (c.selectView live).offers, s.Takes o) ↔
      id ∈ c.decisions ∧ ∃ p ∈ live, c.achiever id p = Plan.normalized s.achiever := by
  constructor
  · rintro ⟨o, ho, htakes⟩
    obtain ⟨id', hid', g, hg, rfl⟩ := mem_offers_selectView.1 ho
    obtain ⟨hs', hkey, hexists⟩ := (takes_offer_iff hc hlive hg).1 htakes
    obtain rfl := Option.some.inj (hs.symm.trans hs')
    exact ⟨hid', hkey ▸ hexists⟩
  · rintro ⟨hid, p, hp, hkey⟩
    obtain ⟨g, hg, hgroup, -⟩ := exists_group (c.achiever id) (hlive.subset hp)
    refine ⟨_, mem_offers_selectView.2 ⟨id, hid, g, hg, rfl⟩, (takes_offer_iff hc hlive hg).2 ⟨hs, ?_, p, hp, ?_⟩⟩
    · rw [hgroup, hkey]
    · exact hgroup.symm

/-! ## Further selections -/

/-- A selection that is refused is refused as a selection. -/
theorem Context.select_failsOnly (c : Context κ) (live : List Nat) (s : Selection) :
    FailsOnly (fun e => ∃ fault, e = .selection fault) (c.select live s) := by
  have hanswerable : FailsOnly (fun e => ∃ fault, e = Failure.selection fault) (c.answerable s) := by
    fun_cases Context.answerable c s <;> simp
  unfold select
  rw [failsOnly_bind]
  refine ⟨hanswerable, fun ids _ => ?_⟩
  dsimp only
  split <;> simp

/-- The view after one more selection. -/
theorem select_concat {r : Request κ} (hprepare : Context.prepare r = .ok (some c)) (hplans : c.plans.isEmpty = false)
    (hlive : r.selections.foldlM c.select c.all = .ok live) (s : Selection) :
    select { r with selections := r.selections ++ [s] } =
      (fun next => some (c.selectView next)) <$> c.select live s := by
  rw [select_of_prepare hprepare, if_neg (Bool.eq_false_iff.1 hplans), List.foldlM_append, hlive]
  change _ <$> ([s].foldlM c.select live) = _
  rw [List.foldlM_cons]
  cases c.select live s <;> rfl

/-- Without digests, the plans that a selection leaves are those that are shown with the offer that it takes. -/
theorem plans_selectView_kept (hc : c.Identified) (hlive : c.Live live) (hs : s.hashes = [])
    (hg : g ∈ (c.decisionAt id).options) (hkey : g.key = Plan.normalized s.achiever) :
    (c.selectView (live.filter (c.keeps s id))).plans = (c.selectView live).plans.filter fun p =>
      p.hash.any (c.offer (c.sorted c.decisions live) (c.decisionAt id) g).hashes.contains := by
  have hrange : ∀ p ∈ c.sorted c.decisions live, p < c.plans.size :=
    fun p hp => hlive.lt_size (Context.mem_sorted.1 hp)
  have hkeyed : (c.decisionAt id).Keyed c (c.sorted c.decisions live) c.all (c.achiever id) :=
    keyed_landmark hc hrange id
  have hkept : (c.sorted c.decisions live).filter (c.keeps s id) =
      (c.sorted c.decisions live).filter g.plans.contains := by
    rw [hkeyed.kept_eq hg]
    refine List.filter_congr fun p _ => ?_
    rw [Context.keeps, hs, hkey, List.isEmpty_nil, Bool.true_or, Bool.and_true]
    rfl
  rw [plans_selectView, plans_selectView, hc.sorted_filter (fun _ hp => hlive.lt_size hp), hkept]
  exact hkeyed.plansAt_kept hc hg

/-- **What a view offers is what is accepted next.** A further selection that names its landmark, without digests,
is accepted if it takes an offer of the view, and then leaves the plans that are shown with the offer, of which there
is one at least. Otherwise it is refused. -/
theorem select_offers_exact {r : Request κ} {v : View κ} (h : select r = .ok (some v))
    (hnamed : s.landmark.isSome = true) (hs : s.hashes = []) :
    ((∃ v', select { r with selections := r.selections ++ [s] } = .ok (some v')) ↔ ∃ o ∈ v.offers, s.Takes o) ∧
    ((¬ ∃ o ∈ v.offers, s.Takes o) →
      ∃ fault, select { r with selections := r.selections ++ [s] } = .error (.selection fault)) ∧
    ∀ o ∈ v.offers, s.Takes o → ∃ v', select { r with selections := r.selections ++ [s] } = .ok (some v') ∧
      v'.plans = v.plans.filter (fun p => p.hash.any o.hashes.contains) ∧ v'.plans ≠ [] := by
  obtain ⟨id, hid⟩ := Option.isSome_iff_exists.1 hnamed
  obtain ⟨c, hprepare⟩ := exists_prepare_of_select h
  have hc := identified_of_prepare hprepare
  obtain ⟨hempty, hnone, rfl⟩ | ⟨hplans, live, hreplayed, rfl⟩ := cases_of_select hprepare h
  · have hrefused : select { r with selections := r.selections ++ [s] } = .error (.selection .noPlans) := by
      rw [select_of_prepare hprepare, if_pos hempty, if_neg (by simp)]
    refine ⟨iff_of_false ?_ ?_, fun _ => ⟨.noPlans, hrefused⟩, nofun⟩
    · rintro ⟨v', hv'⟩
      cases hrefused.symm.trans hv'
    · rintro ⟨o, ho, -⟩
      cases ho
  have hlive := Context.live_of_foldlM_select hreplayed
  rw [select_concat hprepare hplans hreplayed, exists_takes_iff hc hlive hid]
  refine ⟨?_, fun hnone => ?_, fun o ho htakes => ?_⟩
  · constructor
    · rintro ⟨v', hv'⟩
      obtain ⟨next, hnext, -⟩ := map_eq_ok.1 hv'
      obtain ⟨hmem, hexists, -⟩ := (Context.select_landmark_eq_ok_iff hid).1 hnext
      exact ⟨hmem, hexists⟩
    · rintro ⟨hmem, hexists⟩
      exact ⟨_, map_eq_ok.2 ⟨_, (Context.select_landmark_eq_ok_iff hid).2 ⟨hmem, hexists, rfl⟩, rfl⟩⟩
  · cases hselect : c.select live s with
    | error e =>
      obtain ⟨fault, rfl⟩ := c.select_failsOnly live s e hselect
      exact ⟨fault, rfl⟩
    | ok next =>
      obtain ⟨hmem, hexists, -⟩ := (Context.select_landmark_eq_ok_iff hid).1 hselect
      exact absurd ⟨hmem, hexists⟩ hnone
  · obtain ⟨id', hmem, g, hg, rfl⟩ := mem_offers_selectView.1 ho
    obtain ⟨hid', hkey, p, hp, hgroup⟩ := (takes_offer_iff hc hlive hg).1 htakes
    obtain rfl := Option.some.inj (hid.symm.trans hid')
    have hchosen : c.achiever id p = Plan.normalized s.achiever := hgroup.trans hkey
    have hkept : p ∈ live.filter (c.keeps s id) := by
      refine List.mem_filter.2 ⟨hp, ?_⟩
      rw [Context.keeps, hs, hchosen, beq_self_eq_true]
      rfl
    refine ⟨_, map_eq_ok.2 ⟨_, (Context.select_landmark_eq_ok_iff hid).2 ⟨hmem, ⟨p, hp, hchosen⟩, rfl⟩, rfl⟩,
      plans_selectView_kept hc hlive hs hg hkey, ?_⟩
    exact (plans_selectView_ne_nil fun q hq => hlive.lt_size (List.mem_of_mem_filter hq)).2 (List.ne_nil_of_mem hkept)

theorem select_offers_exact_signposted : ∃ v : View Number.Double,
    select (signposted (.number 1)) = .ok (some v) ∧
    (∃ o ∈ v.offers, (takes 1 notAchieved).Takes o ∧ ∃ v',
      select { signposted (.number 1) with selections := [takes 1 notAchieved] } = .ok (some v') ∧
      v'.plans = v.plans.filter (fun p => p.hash.any o.hashes.contains) ∧ v'.plans ≠ []) ∧
    ∃ fault, select { signposted (Number.Double.number 1) with selections := [takes 1 "(left)"] } =
      .error (.selection fault) := by
  have hmissed (left right : String) : 0 ∈ (signpostContext (Number.Double.number 1) left right).all ∧
      (signpostContext (Number.Double.number 1) left right).achiever 1 0 = Plan.normalized notAchieved := by
    constructor
    · exact List.mem_cons_self
    · change notAchieved = _
      decide
  have hother (left right : String) : ∀ p ∈ (signpostContext (Number.Double.number 1) left right).all,
      (signpostContext (Number.Double.number 1) left right).achiever 1 p ≠ Plan.normalized "(left)" := by
    have hleft : Plan.normalized "(left)" = "left" := by decide
    rw [hleft]
    exact List.forall_mem_cons.2 ⟨(by decide : notAchieved ≠ "left"),
      List.forall_mem_singleton.2 (by decide : "right" ≠ "left")⟩
  have hprepare := prepare_signposted (Number.Double.number 1)
  have hc := identified_of_prepare hprepare
  have hall := List.Sublist.refl (signpostContext (Number.Double.number 1) (Plan.fingerprint ["(left)"])
    (Plan.fingerprint ["(right)"])).all
  have hselect := select_start hprepare rfl rfl
  obtain ⟨o, ho, htakes⟩ := (exists_takes_iff hc hall (s := takes 1 notAchieved) rfl).2
    ⟨by rw [decisions_signposted]; decide, 0, hmissed _ _⟩
  obtain ⟨-, -, haccepted⟩ := select_offers_exact (s := takes 1 notAchieved) hselect rfl rfl
  obtain ⟨-, hrefused, -⟩ := select_offers_exact (s := takes 1 "(left)") hselect rfl rfl
  refine ⟨_, hselect, ⟨o, ho, htakes, haccepted o ho htakes⟩, hrefused fun hexists => ?_⟩
  obtain ⟨-, p, hp, hkey⟩ := (exists_takes_iff hc hall rfl).1 hexists
  exact hother _ _ p hp hkey

end Waymark.View
