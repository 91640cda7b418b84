import Mathlib.Tactic
import Waymark.Landmark.Extraction
import Waymark.Number.Exact
import Waymark.Proofs.Landmark.Finish
import Waymark.Proofs.Landmark.Labels

/-!
# Landmarks by labels are met

In every state that actions lead through, what is in the labels of the facts that hold has held: where an
action makes a fact true, its label holds nothing but the fact and what is in the labels of what was
needed, because labels have settled. So plans meet the landmarks that labels yield, in their order.

* `Explained`, `Explained.apply`, `Explained.visited`: the invariant of a path;
* `labelled_spec`: the draft that labels yield;
* `extract_zg_sound`: every plan meets the landmarks, and one before another if they are ordered.
-/

namespace Waymark.Landmark

open Ground

variable {κ : Type}

/-! ## Plans -/

section Plans

variable {t : Ground.Task κ} {past : List State} {x : State} {f : Nat}

/-- Every fact that holds has a label, and the other facts in its label have held before. -/
def Explained (t : Ground.Task κ) (past : List State) (x : State) : Prop :=
  ∀ f, x.contains f = true → ∃ label, (Labels.final t).of f = some label ∧
    ∀ g, label.contains g = true → g = f ∨ ∃ y ∈ past, y.contains g = true

theorem explained_initialState (ht : t.InRange) (past : List State) :
    Explained t past t.initialState := by
  intro f hf
  refine ⟨_, (Labels.sweep_final ht).1.init f (Task.mem_init_of_contains hf), fun g hg => .inl ?_⟩
  simpa [eq_comm] using hg

/-- What is in the label of facts that hold has held at some point. -/
theorem Explained.unionOf (h : Explained t past x) {fs : List Nat} (hfs : x.containsAll fs = true) :
    ∃ label, (Labels.final t).unionOf fs = some label ∧
      ∀ g, label.contains g = true → ∃ y ∈ past ++ [x], y.contains g = true := by
  have hholds := State.containsAll_iff.1 hfs
  have hlabels : ∀ f ∈ fs, ∃ label, (Labels.final t).of f = some label := fun f hf =>
    (h f (hholds f hf)).imp fun _ hlabel => hlabel.1
  obtain ⟨label, hlabel⟩ := Labels.exists_unionOf hlabels
  refine ⟨label, hlabel, fun g hg => ?_⟩
  obtain ⟨f, hf, y, hy, hg⟩ := Labels.exists_of_contains_unionOf hlabel hg
  obtain ⟨z, hz, hexplained⟩ := h f (hholds f hf)
  obtain rfl := Option.some.inj (hy.symm.trans hz)
  rcases hexplained g hg with rfl | ⟨w, hw, hwg⟩
  · exact ⟨x, List.mem_append_right _ (List.mem_singleton_self x), hholds g hf⟩
  · exact ⟨w, List.mem_append_left _ hw, hwg⟩

/-- The labels of what an action adds hold what is in the labels of what it needs. -/
theorem Explained.exists_cause (h : Explained t past x) {a : Action κ} (happ : a.applicable x = true)
    (hf : f ∈ a.addedIn x) :
    ∃ cause, (cause, f) ∈ (Labels.final t).causes a ∧
      ∀ g, cause.contains g = true → ∃ y ∈ past ++ [x], y.contains g = true := by
  obtain ⟨needs, hneeds, hneedsHeld⟩ := h.unionOf (Bool.and_eq_true_iff.1 happ).1
  rcases List.mem_append.1 hf with hf | hf
  · refine ⟨needs, ?_, hneedsHeld⟩
    rw [Labels.causes, hneeds]
    exact List.mem_append_left _ (List.mem_map_of_mem hf)
  · obtain ⟨e, he, hf⟩ := List.mem_flatMap.1 hf
    obtain ⟨he, hfires⟩ := List.mem_filter.1 he
    obtain ⟨condition, hcondition, hconditionHeld⟩ := h.unionOf (Bool.and_eq_true_iff.1 hfires).1
    refine ⟨needs.union condition, ?_, fun g hg => ?_⟩
    · rw [Labels.causes, hneeds]
      refine List.mem_append_right _ (List.mem_flatMap.2 ⟨e, he, ?_⟩)
      rw [hcondition]
      exact List.mem_map_of_mem hf
    · rw [FactSet.contains_union, Bool.or_eq_true] at hg
      exact hg.elim (hneedsHeld g) (hconditionHeld g)

/-- Taking an action keeps labels explained. -/
theorem Explained.apply (ht : t.InRange) (h : Explained t past x) {a : Action κ} (ha : a ∈ t.actions)
    (happ : a.applicable x = true) : Explained t (past ++ [x]) (a.apply x) := by
  intro f hf
  rcases Task.contains_apply hf with hf | hf
  · obtain ⟨label, hlabel, hexplained⟩ := h f hf
    refine ⟨label, hlabel, fun g hg => (hexplained g hg).imp_right fun ⟨y, hy, hyg⟩ => ?_⟩
    exact ⟨y, List.mem_append_left _ hy, hyg⟩
  · obtain ⟨cause, hcause, hheld⟩ := h.exists_cause happ hf
    refine ⟨_, Labels.stable_final ht ha _ hcause, fun g hg => ?_⟩
    rw [Labels.contains_narrowed (Labels.sweep_final ht).1, Bool.and_eq_true, FactSet.contains_insert,
      Bool.or_eq_true, decide_eq_true_iff] at hg
    exact hg.2.symm.imp Eq.symm (hheld g)

/-- Labels are explained in every state that actions lead through. -/
theorem Explained.visited (ht : t.InRange) (h : Explained t past x) {is : List Nat} {ss : List State}
    (hvisited : t.visited x is = some ss) {k : Nat} {y : State} (hy : ss[k]? = some y) :
    Explained t (past ++ ss.take k) y := by
  induction is generalizing past x ss k with
  | nil =>
    obtain rfl := Option.some.inj hvisited
    obtain ⟨rfl, rfl⟩ : k = 0 ∧ x = y := by
      cases k with
      | zero => exact ⟨rfl, Option.some.inj hy⟩
      | succ k => cases hy
    simpa using h
  | cons i is ih =>
    obtain ⟨a, ha, happ, rest, hrest, rfl⟩ := Task.visited_cons.1 hvisited
    cases k with
    | zero =>
      obtain rfl := Option.some.inj hy
      simpa using h
    | succ k =>
      have hnext := ih (h.apply ht (Array.mem_of_getElem? ha) happ) hrest hy
      rwa [List.append_assoc, List.singleton_append] at hnext

end Plans

/-! ## The draft -/

theorem Draft.including_of_new {d : Draft} {f : Nat} {kind : Kind} (h : ∀ c ∈ d.candidates, c.facts ≠ [f]) :
    d.including [f] kind = { d with candidates := d.candidates.push ⟨[f], kind⟩ } := by
  have hnone : d.candidates.findIdx? (·.facts = [f]) = none :=
    Array.findIdx?_eq_none_iff.2 fun c hc => decide_eq_false (h c hc)
  rw [including, add, ascending_singleton, hnone]

/-- The draft of the single facts of a list. -/
def Draft.ofFacts (fs : List Nat) : Draft := { candidates := (fs.map (⟨[·], .fact⟩)).toArray }

theorem foldl_including_fact {fs : List Nat} (h : fs.Nodup) :
    fs.foldl (fun (d : Draft) f => d.including [f] .fact) {} = .ofFacts fs := by
  induction fs using List.reverseRecOn with
  | nil => rfl
  | append_singleton fs f ih =>
    obtain ⟨hfs, -, hnew⟩ := List.nodup_append.1 h
    rw [List.foldl_concat, ih hfs, Draft.including_of_new]
    · simp [Draft.ofFacts]
    · intro c hc
      obtain ⟨g, hg, rfl⟩ : ∃ g ∈ fs, ⟨[g], .fact⟩ = c := by simpa [Draft.ofFacts] using hc
      simpa using hnew g hg f (List.mem_singleton_self f)

/-- The facts that labels yield as landmarks. -/
def Survey.labelFacts (s : Survey κ) : List Nat :=
  (List.range s.task.facts.size).filter fun f =>
    s.keeps f && s.task.goalNeeds.any fun g => ((Labels.final s.task).of g).any (·.contains f)

/-- One fact is in the label of the other. -/
def Labels.Precedes (t : Ground.Task κ) (g f : Nat) : Prop :=
  g ≠ f ∧ ((Labels.final t).of f).any (·.contains g) = true

/-- The ordering puts one fact before another in whose label it is. -/
def ByLabel (s : Survey κ) (o : Order) : Prop :=
  o.kind = .natural ∧ ∃ g f, s.labelFacts[o.first]? = some g ∧ s.labelFacts[o.second]? = some f ∧
    Labels.Precedes s.task g f

/-- Labels yield the facts in the labels of the goals, with orderings by labels. -/
theorem labelled_spec (s : Survey κ) :
    s.labelled.candidates = (Draft.ofFacts s.labelFacts).candidates ∧ ∀ o ∈ s.labelled.orders, ByLabel s o := by
  have hnodup : s.labelFacts.Nodup := List.nodup_range.filter _
  let Good (d : Draft) : Prop :=
    d.candidates = (Draft.ofFacts s.labelFacts).candidates ∧ ∀ o ∈ d.orders, ByLabel s o
  have hstart : Good (s.labelFacts.foldl (fun (d : Draft) f => d.including [f] .fact) {}) := by
    rw [foldl_including_fact hnodup]
    exact ⟨rfl, by simp [Draft.ofFacts]⟩
  refine List.foldlRecOn (motive := Good) _ _ hstart fun d hd p hp => ?_
  refine List.foldlRecOn (motive := Good) _ _ hd fun d hd q hq => ?_
  obtain ⟨fact, second⟩ := p
  obtain ⟨before, first⟩ := q
  have hfact : s.labelFacts[second]? = some fact := List.mem_zipIdx_iff_getElem?.1 hp
  have hbefore : s.labelFacts[first]? = some before := List.mem_zipIdx_iff_getElem?.1 hq
  dsimp only
  split
  · rename_i hlabel
    refine ⟨(s.candidates_order ..).trans hd.1, fun o ho => ?_⟩
    rcases Survey.mem_orders_order ho with ho | ⟨hne, -, rfl⟩
    · exact hd.2 o ho
    · refine ⟨rfl, before, fact, hbefore, hfact, fun heq => hne ?_, hlabel⟩
      obtain ⟨hi, hbefore⟩ := List.getElem?_eq_some_iff.1 hbefore
      obtain ⟨hj, hfact⟩ := List.getElem?_eq_some_iff.1 hfact
      exact (hnodup.getElem_inj_iff).1 (hbefore.trans (heq.trans hfact.symm))
  · exact hd

theorem mem_candidates_labelled {s : Survey κ} {c : Candidate} :
    c ∈ s.labelled.candidates ↔ ∃ f ∈ s.labelFacts, ⟨[f], .fact⟩ = c := by
  simp [(labelled_spec s).1, Draft.ofFacts]

/-! ## Soundness -/

section Sound

variable {t : Ground.Task κ} {ss : List State} {f g : Nat}

theorem lt_size_of_mem_labelFacts {s : Survey κ} (hf : f ∈ s.labelFacts) : f < s.task.facts.size :=
  List.mem_range.1 (List.mem_filter.1 hf).1

/-- In the last state of a plan, what is in the label of a goal has held at some point. -/
theorem exists_of_mem_labelFacts (ht : t.InRange) {is : List Nat} (hplan : t.IsPlanVia is ss)
    (hf : f ∈ (Survey.of t).labelFacts) : ∃ x ∈ ss, x.contains f = true := by
  obtain ⟨hvisited, last, hlast, hgoal⟩ := hplan
  obtain ⟨-, hkept⟩ := List.mem_filter.1 hf
  obtain ⟨goal, hmem, hlabel⟩ := List.any_eq_true.1 (Bool.and_eq_true_iff.1 hkept).2
  have hholds : last.contains goal = true :=
    State.containsAll_iff.1 (Bool.and_eq_true_iff.1 hgoal).1 goal hmem
  rw [List.getLast?_eq_getElem?] at hlast
  have hexplained := (explained_initialState ht []).visited ht hvisited hlast
  obtain ⟨label, hof, hheld⟩ := hexplained goal hholds
  have hlabel : ((Labels.final t).of goal).any (·.contains f) = true := hlabel
  rw [hof, Option.any_some] at hlabel
  rcases hheld f hlabel with rfl | ⟨x, hx, hxf⟩
  · exact ⟨last, List.mem_of_getElem? hlast, hholds⟩
  · exact ⟨x, List.mem_of_mem_take (by simpa using hx), hxf⟩

/-- What is in the label of another fact has held before that fact does. -/
theorem Labels.Precedes.exists_before (ht : t.InRange) (h : Precedes t g f) {is : List Nat}
    (hvisited : t.visited t.initialState is = some ss) {k : Nat} {y : State} (hy : ss[k]? = some y)
    (hf : y.contains f = true) : ∃ x ∈ ss.take k, x.contains g = true := by
  obtain ⟨hne, hlabel⟩ := h
  obtain ⟨label, hof, hheld⟩ := (explained_initialState ht []).visited ht hvisited hy f hf
  rw [hof, Option.any_some] at hlabel
  simpa using (hheld g hlabel).resolve_left hne

/-- **Landmarks by labels are sound.** The rounds over the labels come to an end. Every plan meets every
landmark, which is a single fact. If a landmark is ordered before another, then wherever the other one
holds on the way of the plan, the first one has held before. -/
theorem extract_zg_sound [Number.Scale κ] {domain : Planning.Domain} {problem : Planning.Problem}
    (hground : Task.ground domain problem = .ok t) {is : List Nat} (hplan : t.IsPlanVia is ss) :
    Labels.sweep t (Labels.final t) = (Labels.final t, false) ∧
    (∀ l ∈ (extract t .zg).landmarks, (∃ name, l.facts = [name]) ∧ Met t ss l) ∧
    ∀ o ∈ (extract t .zg).orders, o.kind = .natural ∧ ∃ first second,
      (extract t .zg).find? o.first = some first ∧ (extract t .zg).find? o.second = some second ∧
      ∀ k y, ss[k]? = some y → Met t [y] second → Met t (ss.take k) first := by
  have ht := Task.inRange_of_ground hground
  refine ⟨(Labels.sweep_final ht).2, ?_⟩
  unfold extract
  dsimp only
  split
  case isFalse => exact ⟨nofun, nofun⟩
  obtain ⟨hcandidates, horders⟩ := labelled_spec (Survey.of t)
  have hcandidate {place f : Nat} (hf : (Survey.of t).labelFacts[place]? = some f) :
      (Survey.of t).labelled.candidates[place]? = some ⟨[f], .fact⟩ := by
    rw [hcandidates, Draft.ofFacts, List.getElem?_toArray, List.getElem?_map, hf]
    rfl
  constructor
  · intro l hl
    obtain ⟨id, c, hc, rfl⟩ := exists_of_mem_landmarks_finish hl
    obtain ⟨f, hf, rfl⟩ := mem_candidates_labelled.1 hc
    refine ⟨⟨_, rfl⟩, (met_landmark_iff (s := Survey.of t) (lt_size_of_mem_labelFacts hf)).2 ?_⟩
    exact exists_of_mem_labelFacts ht hplan hf
  · intro o ho
    obtain ⟨o', ho', rfl⟩ := exists_of_mem_orders_finish ho
    obtain ⟨hkind, g, f, hg, hf, hprecedes⟩ := horders o' ho'
    refine ⟨hkind, _, _, find?_finish (hcandidate hg), find?_finish (hcandidate hf), fun k y hy hmet => ?_⟩
    have hglt := lt_size_of_mem_labelFacts (List.mem_of_getElem? hg)
    have hflt := lt_size_of_mem_labelFacts (List.mem_of_getElem? hf)
    obtain ⟨x, hx, hxf⟩ := (met_landmark_iff (s := Survey.of t) hflt).1 hmet
    obtain rfl := List.mem_singleton.1 hx
    exact (met_landmark_iff (s := Survey.of t) hglt).2 (hprecedes.exists_before ht hplan.1 hy hxf)

theorem extract_zg_sound_posting :
    ∃ (t : Ground.Task Number.Exact) (is : List Nat) (ss : List State),
      Task.ground posting letter = .ok t ∧ t.IsPlanVia is ss ∧
      (∀ l ∈ (extract t .zg).landmarks, (∃ name, l.facts = [name]) ∧ Met t ss l) ∧
      ∀ o ∈ (extract t .zg).orders, o.kind = .natural := by
  obtain ⟨t, ht, is, ss, hplan⟩ := exists_plan_posting (κ := Number.Exact)
  obtain ⟨-, hlandmarks, horders⟩ := extract_zg_sound ht hplan
  exact ⟨t, is, ss, ht, hplan, hlandmarks, fun o ho => (horders o ho).1⟩

end Sound

end Waymark.Landmark
