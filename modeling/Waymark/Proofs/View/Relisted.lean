import Mathlib.Tactic
import Waymark.Proofs.View.Selection
import Waymark.Proofs.View.SweepOrder

/-!
# Views of graphs that list the same

A view reads a graph in two ways: it looks up landmarks by their numbers, and it traverses the graph. Neither depends
on the order in which the graph lists its landmarks and its orderings, nor on how often it lists an ordering.

* `Context.Agrees`: contexts in which every view is the same;
* `Context.of`, `prepare_eq_of_perm`: the contexts of requests that list the same;
* `Context.agrees_of`: contexts of graphs that list the same;
* `select_eq_of_alike`, `build_eq_of_alike`: views of graphs that list the same.
-/

namespace Waymark.View

variable {κ : Type} {c c' : Context κ} {r : Request κ} {g g' : Landmark.Graph}

/-! ## Contexts in which views are the same -/

/-- The contexts have the same plans at the same places, and all that a view asks about landmarks is the same. -/
structure Context.Agrees (c c' : Context κ) : Prop where
  plans : c'.plans = c.plans
  choice : c'.choice = c.choice
  facts : c'.facts = c.facts
  traversal : c'.traversal = c.traversal

namespace Context.Agrees

variable (h : c.Agrees c')
include h

theorem all_eq : c'.all = c.all := by rw [all, all, h.plans]

theorem actions_eq : c'.actions = c.actions := funext fun p => by rw [actions, actions, h.plans]

theorem hash_eq : c'.hash = c.hash := funext fun p => by rw [hash, hash, h.plans]

theorem plansAt_eq : c'.plansAt = c.plansAt := funext fun live => by rw [plansAt, plansAt, h.plans]

theorem restrict_eq : c'.restrict = c.restrict :=
  funext₂ fun hashes live => by rw [restrict, restrict, h.hash_eq]

theorem achiever_eq : c'.achiever = c.achiever := funext₂ fun id p => by rw [achiever, achiever, h.choice]

theorem groups_eq : c'.groups = c.groups := funext₂ fun id live => by rw [groups, groups, h.achiever_eq]

theorem isDecision_eq : c'.isDecision = c.isDecision :=
  funext₂ fun id live => by rw [isDecision, isDecision, h.groups_eq]

/-! ### The selection view -/

theorem decisions_eq : c'.decisions = c.decisions := by
  rw [decisions, decisions, h.traversal, h.isDecision_eq, h.all_eq]

theorem select_eq : c'.select = c.select := by
  refine funext₂ fun live s => ?_
  have hanswerable : c'.answerable s = c.answerable s := by rw [answerable, answerable, h.decisions_eq]
  rw [select, select, hanswerable, h.groups_eq, h.restrict_eq]

theorem selectView_eq (live : List Nat) : c'.selectView live = c.selectView live := by
  have hoffers : c'.offers = c.offers :=
    funext₂ fun live id => by rw [offers, offers, h.groups_eq, h.all_eq, h.facts, h.hash_eq]
  have hsorted : c'.sorted c.decisions live = c.sorted c.decisions live := by
    unfold sorted signature
    rw [h.achiever_eq, h.hash_eq]
  rw [selectView, selectView, h.decisions_eq, hsorted, hoffers, h.plansAt_eq]

/-! ### The build views -/

theorem due_eq : c'.due = c.due := by
  refine funext₂ fun d live => ?_
  have hgroupsAt : c'.groupsAt = c.groupsAt :=
    funext fun d => funext₂ fun live step => by rw [groupsAt, groupsAt, h.actions_eq]
  have hstep : c'.stepDecision d live = c.stepDecision d live := by
    rw [stepDecision, stepDecision, h.actions_eq, hgroupsAt]
  rw [due, due, h.traversal, h.isDecision_eq, h.groups_eq, h.all_eq, hstep]

theorem replay_eq (d : Direction) (round : Nat) (live : List Nat) (ss : List Selection) :
    c'.replay d round live ss = c.replay d round live ss := by
  have hanswer : c'.answer = c.answer :=
    funext fun d => funext₂ fun live s => by rw [answer, answer, h.due_eq, h.restrict_eq]
  induction ss generalizing round live with
  | nil => rfl
  | cons s ss ih =>
    unfold replay
    rw [hanswer]
    simp only [ih]

theorem buildView_eq (d : Direction) (live : List Nat) : c'.buildView d live = c.buildView d live := by
  have hoffers : c'.offersOf = c.offersOf :=
    funext₂ fun live decision => by rw [offersOf, offersOf, h.facts, h.hash_eq]
  unfold buildView
  rw [h.plansAt_eq, hoffers, h.due_eq]

end Context.Agrees

/-! ## Requests that list the same -/

/-- The context of a graph and of plans with different digests. -/
def Context.of (g : Landmark.Graph) (plans : List (Plan κ)) : Context κ :=
  ⟨plans.toArray, g, g.landmarks.map (choicesFor plans.toArray)⟩

theorem eq_of_prepare (h : Context.prepare r = .ok (some c)) : c = .of r.landmarks (Plan.distinct r.plans) := by
  obtain ⟨-, -, -, -, heq⟩ := exists_of_prepare h
  exact heq

/-- The data of requests that list the same belong together in both or in neither. -/
theorem prepare_eq_of_perm (r r' : Request κ) (htask : r'.task = r.task) (hplans : r'.plans.Perm r.plans)
    (hlandmarks : r.landmarks.Alike r'.landmarks) : Context.prepare r' =
      Option.map (fun _ => .of r'.landmarks (Plan.distinct r'.plans)) <$> Context.prepare r := by
  have hvalid : r'.landmarks.validate.toOption.isSome = r.landmarks.validate.toOption.isSome := by
    rw [Bool.eq_iff_iff, Option.isSome_iff_exists, Option.isSome_iff_exists]
    simp only [toOption_eq_some]
    exact exists_congr fun _ => hlandmarks.validate_iff
  have hsound (domain : Planning.Domain) : r'.plans.all (isSound domain) = r.plans.all (isSound domain) :=
    hplans.all_eq
  have hknown (domain : Planning.Domain) :
      r'.landmarks.landmarks.all (isKnown domain) = r.landmarks.landmarks.all (isKnown domain) :=
    hlandmarks.landmarks.all_eq
  unfold Context.prepare
  rw [htask, map_bind]
  refine bind_congr fun _ => ?_
  rw [map_bind]
  refine bind_congr fun domain => ?_
  dsimp only
  rw [hvalid, hsound, hknown]
  split <;> rfl

/-- Requests with the same selections are answered alike where their data do not belong together. -/
theorem eq_or_exists_prepare (r r' : Request κ) {f : Context κ → Context κ} (hselections : r'.selections = r.selections)
    (hprepare : Context.prepare r' = Option.map f <$> Context.prepare r) :
    (select r' = select r ∧ ∀ d, build r' d = build r d) ∨
      ∃ c, Context.prepare r = .ok (some c) ∧ Context.prepare r' = .ok (some (f c)) := by
  unfold select build
  rw [hprepare, hselections]
  cases Context.prepare r with
  | error e => exact .inl ⟨rfl, fun _ => rfl⟩
  | ok prepared =>
    cases prepared with
    | none => exact .inl ⟨rfl, fun _ => rfl⟩
    | some c => exact .inr ⟨c, rfl, rfl⟩

/-! ## Graphs that list the same -/

/-- The choices for a landmark are looked up like the landmark. -/
theorem lookup_choicesFor (plans : Array (Plan κ)) (ls : List Landmark) (id : Nat) :
    (ls.map (choicesFor plans)).lookup id = (ls.find? (·.id = id)).map fun l => (choicesFor plans l).2 := by
  induction ls with
  | nil => rfl
  | cons l ls ih =>
    rw [List.map_cons, choicesFor, List.lookup_cons, List.find?_cons]
    by_cases hid : l.id = id
    · simp [hid, choicesFor]
    · simp [hid, beq_false_of_ne (Ne.symm hid), ih]

/-- A choice depends on the landmark of a number and on the plan at a place. -/
theorem Context.choice_of (g : Landmark.Graph) (plans : List (Plan κ)) (id place : Nat) :
    (Context.of g plans).choice id place =
      (g.find? id).bind fun l => plans[place]?.bind fun p => firstAmong (achieversOf l) 0 p.actions := by
  rw [choice, of, lookup_choicesFor, ← Landmark.Graph.find?]
  cases g.find? id with
  | none => rfl
  | some l =>
    rw [Option.map_some, Option.bind_some, choicesFor, Array.getElem?_map, List.getElem?_toArray, Option.bind_some]
    cases plans[place]? <;> rfl

/-- With graphs that list the same every view is the same. -/
theorem Context.agrees_of (hvalid : g.validate = .ok ()) (h : g.Alike g') (plans : List (Plan κ)) :
    (Context.of g plans).Agrees (.of g' plans) := by
  obtain ⟨rank, bound, hranked⟩ := Landmark.Graph.exists_ranked_of_validate hvalid
  have hfind (id : Nat) : g'.find? id = g.find? id := h.find?_eq hranked.nodup id
  have hchoice : (Context.of g' plans).choice = (Context.of g plans).choice :=
    funext₂ fun id place => by rw [choice_of, choice_of, hfind]
  refine ⟨rfl, hchoice, funext fun id => ?_, funext₂ fun live d => ?_⟩
  · rw [facts, facts, of, of, hfind]
  · refine traversal_eq_of_alike hvalid h (fun id => ?_) d
    rw [mean?, mean?, hchoice]

/-- The contexts of a request and of the request with a graph that lists the same. -/
theorem eq_or_agrees (h : r.landmarks.Alike g) :
    (select { r with landmarks := g } = select r ∧ ∀ d, build { r with landmarks := g } d = build r d) ∨
      ∃ c c', Context.prepare r = .ok (some c) ∧ Context.prepare { r with landmarks := g } = .ok (some c') ∧
        c.Agrees c' := by
  have hprepare := prepare_eq_of_perm r { r with landmarks := g } rfl (.refl r.plans) h
  refine (eq_or_exists_prepare r { r with landmarks := g } rfl hprepare).imp_right ?_
  rintro ⟨c, hc, hc'⟩
  obtain ⟨-, -, hvalid, -⟩ := exists_of_prepare hc
  exact ⟨c, _, hc, hc', eq_of_prepare hc ▸ Context.agrees_of hvalid h (Plan.distinct r.plans)⟩

/-- **A selection view does not depend on the order of what its graph lists.** -/
theorem select_eq_of_alike (h : r.landmarks.Alike g) : select { r with landmarks := g } = select r := by
  obtain ⟨hselect, -⟩ | ⟨c, c', hprepare, hprepare', hagrees⟩ := eq_or_agrees h
  · exact hselect
  · refine (select_of_prepare hprepare' r.selections).trans (.trans ?_ (select_of_prepare hprepare r.selections).symm)
    simp only [hagrees.plans, hagrees.select_eq, hagrees.all_eq, hagrees.selectView_eq]

/-- **A build view does not depend on the order of what its graph lists.** -/
theorem build_eq_of_alike (h : r.landmarks.Alike g) (d : Direction) :
    build { r with landmarks := g } d = build r d := by
  obtain ⟨-, hbuild⟩ | ⟨c, c', hprepare, hprepare', hagrees⟩ := eq_or_agrees h
  · exact hbuild d
  · refine (build_of_prepare hprepare' r.selections).trans (.trans ?_ (build_of_prepare hprepare r.selections).symm)
    simp only [hagrees.plans, hagrees.replay_eq, hagrees.all_eq, hagrees.buildView_eq]

end Waymark.View
