import Mathlib.Data.List.ReduceOption
import Waymark.Proofs.Encoding.Exactness
import Waymark.Proofs.Encoding.Reply
import Waymark.Proofs.Ground.Propositional
import Waymark.Proofs.Number.Order

/-!
# The tools agree under search

A search of a ground task with monitors discards the paths that return to a state, and the cells of the
monitors are part of a state. Different monitors nevertheless discard the same paths, because the cells
tell the states of the automaton apart. Where the automaton has no successor, one monitor denies the
action and the other may let it happen, but then no goal is met any more and the order in which the
other paths are looked at stays as it is.

* `Guarded`: a ground task with monitors that follow an automaton;
* `Guarded.At`, `Guarded.Doomed`: what its states show, with `reply_of_step` and `reply_of_not_step` for
  the instances of the task;
* `Same`, `SameTrack`: states and paths of two such tasks that stand for each other;
* `erasure`: the searches of the two agree but for doomed paths;
* `search_lf2f_eq_search_p4p`: both tools give the same plans;
* `kitchen`, `dinner`: a task for which only one of the searches looks at violations too.
-/

namespace Waymark.Encoding

open Ground Planning Number Plan

variable {Q κ : Type}

/-! ## Tasks with monitors -/

/-- A ground task with monitors that follow an automaton, over a task without them. -/
structure Guarded (schemas : List Schema) (b : TaggedTask κ) (m : Machine Q Schema) where
  Cell : Type
  task : Ground.Task κ
  watcher : Watcher Cell Schema
  name : Cell → String
  place : Nat
  know : Cell → Option Bool
  cells : Q → Set Cell
  doomed : Set Cell → Prop
  layered : Layered watcher name place know schemas b
  names : TaskNames task (monitoredTask watcher name know b)
  faithful : Faithful watcher m cells doomed

namespace Guarded

variable {schemas : List Schema} {b : TaggedTask κ} {m : Machine Q Schema} (g : Guarded schemas b m)

/-- The state shows facts of the task and the cells of a state of the automaton. -/
def At (s : State) (S : Set String) (q : Q) : Prop :=
  m.valid q ∧ Shows g.task g.name g.know s S (g.cells q)

/-- The state shows cells from which the goal is out of reach. -/
def Doomed (s : State) : Prop := ∃ S M, Shows g.task g.name g.know s S M ∧ g.doomed M

/-- What an instance of the task replies to a path that shows these facts and cells. -/
def Replies [Scale κ] (S : Set String) (M : Set g.Cell) (cost : κ) (x : Track)
    (p : Schema × NamedAction κ) (o : Option (κ × Track)) : Prop :=
  Reply g.task g.watcher g.name g.know S M cost x p o

variable {g} {s s' : State} {S S' : Set String} {q q' : Q}

theorem At.unique (h : g.At s S q) (h' : g.At s S' q') : S = S' ∧ q = q' := by
  obtain ⟨hS, hcells⟩ := h.2.unique g.layered.injective h'.2
  exact ⟨hS, g.faithful.injective h.1 h'.1 hcells⟩

theorem At.eq (h : g.At s S q) (h' : g.At s' S q) : s = s' := h.2.eq h'.2

theorem at_initialState : g.At g.task.initialState b.toNamed.initial m.start := by
  refine ⟨m.valid_start, ?_⟩
  rw [← g.faithful.start]
  exact g.layered.shows_initialState g.names

theorem At.isGoal_iff (h : g.At s S q) :
    g.task.pruned.isGoal s = true ↔ AllHold S b.goal ∧ m.accepting q = true := by
  rw [g.layered.isGoal_iff g.names h.2, g.faithful.goal_iff h.1]

theorem Doomed.not_isGoal (h : g.Doomed s) : ¬ g.task.pruned.isGoal s = true := by
  obtain ⟨S, M, hshows, hdoomed⟩ := h
  rw [g.layered.isGoal_iff g.names hshows]
  exact fun hgoal => g.faithful.not_goal hdoomed hgoal.2

section Replies

variable [Scale κ] {cost : κ} {x : Track} {p : Schema × NamedAction κ} {o : Option (κ × Track)}

/-- What is replied, if anything, comes from an allowed instance. -/
theorem Replies.shows {M : Set g.Cell} (h : g.Replies S M cost x p o) {y : κ × Track} (hy : o = some y) :
    p.2.rule.Allows S ∧ (g.watcher.rule p.1).Allows M ∧
      Shows g.task g.name g.know y.2.state (p.2.rule.next S) ((g.watcher.rule p.1).next M) := by
  by_cases hallows : p.2.rule.Allows S ∧ (g.watcher.rule p.1).Allows M
  · obtain ⟨s, hshows, ho⟩ := h.allowed hallows.1 hallows.2
    rw [hy] at ho
    split at ho
    · cases ho
    · rw [Option.some.inj ho]
      exact ⟨hallows.1, hallows.2, hshows⟩
  · rw [h.denied hallows] at hy
    cases hy

theorem Replies.not_allows {M : Set g.Cell} (h : g.Replies S M cost x p o) (hS : ¬ p.2.rule.Allows S) :
    o = none := h.denied fun hallows => hS hallows.1

/-- Where the automaton has a successor, an instance that the task allows goes on. -/
theorem At.reply_of_step (hx : g.At x.state S q) (h : g.Replies S (g.cells q) cost x p o)
    (hS : p.2.rule.Allows S) (hstep : m.step q p.1 = some q') :
    ∃ s, g.At s (p.2.rule.next S) q' ∧
      o = if (x.state :: x.before).contains s then none
        else some (Scale.add cost p.2.cost, ⟨s, x.state :: x.before, p.2.name :: x.names⟩) := by
  obtain ⟨hwatch, hnext⟩ := g.faithful.step_some hx.1 hstep
  obtain ⟨s, hshows, ho⟩ := h.allowed hS hwatch
  rw [hnext] at hshows
  exact ⟨s, ⟨m.valid_step hx.1 hstep, hshows⟩, ho⟩

/-- Where it has none, an instance is doomed if it goes on. -/
theorem At.reply_of_not_step (hx : g.At x.state S q) (h : g.Replies S (g.cells q) cost x p o)
    (hstep : m.step q p.1 = none) {y : κ × Track} (hy : o = some y) : g.Doomed y.2.state := by
  obtain ⟨-, hwatch, hshows⟩ := h.shows hy
  exact ⟨_, _, hshows, g.faithful.step_none hx.1 hstep hwatch⟩

/-- A doomed path has doomed continuations only. -/
theorem Doomed.next (h : g.Doomed x.state) {y : κ × Track}
    (hy : y ∈ (trackWalk g.task.pruned).next cost x) : g.Doomed y.2.state := by
  obtain ⟨S, M, hshows, hdoomed⟩ := h
  obtain ⟨os, hos, hreplies⟩ := g.layered.exists_replies g.names cost hshows
  rw [hos, List.reduceOption_mem_iff] at hy
  obtain ⟨p, -, hp⟩ := exists_rel_of_mem hreplies hy
  obtain ⟨-, -, hnext⟩ := Replies.shows (g := g) hp rfl
  exact ⟨_, _, hnext, g.faithful.doomed_next _ hdoomed⟩

end Replies

end Guarded

/-! ## Two tasks side by side -/

section Pair

variable {schemas : List Schema} {b : TaggedTask κ} {m : Machine Q Schema}
  {g g' : Guarded schemas b m}

/-- The states show the same facts and the same state of the automaton. -/
def Same (g g' : Guarded schemas b m) (s s' : State) : Prop := ∃ S q, g.At s S q ∧ g'.At s' S q

/-- The paths lead through such states by actions of the same names. -/
structure SameTrack (g g' : Guarded schemas b m) (x y : Track) : Prop where
  state : Same g g' x.state y.state
  before : List.Forall₂ (Same g g') x.before y.before
  names : x.names = y.names

/-- The states of both tasks correspond one to one. -/
theorem Same.eq_iff {s s' t t' : State} (h : Same g g' s s') (ht : Same g g' t t') :
    s = t ↔ s' = t' := by
  obtain ⟨S, q, hs, hs'⟩ := h
  obtain ⟨T, r, ht, ht'⟩ := ht
  constructor
  · rintro rfl
    obtain ⟨rfl, rfl⟩ := hs.unique ht
    exact hs'.eq ht'
  · rintro rfl
    obtain ⟨rfl, rfl⟩ := hs'.unique ht'
    exact hs.eq ht

/-- So a path returns to a state in both of them or in none. -/
theorem Same.contains_eq {s s' : State} {xs ys : List State} (h : Same g g' s s')
    (hxs : List.Forall₂ (Same g g') xs ys) : xs.contains s = ys.contains s' := by
  induction hxs with
  | nil => rfl
  | cons hx _ ih =>
    have hbeq : ∀ u v : State, (u == v) = decide (u = v) := fun u v => rfl
    rw [List.contains_cons, List.contains_cons, ih, hbeq, hbeq, decide_eq_decide.2 (h.eq_iff hx)]

theorem SameTrack.isGoal_eq {x y : Track} (h : SameTrack g g' x y) :
    g.task.pruned.isGoal x.state = g'.task.pruned.isGoal y.state := by
  obtain ⟨S, q, hx, hy⟩ := h.state
  rw [Bool.eq_iff_iff, hx.isGoal_iff, hy.isGoal_iff]

/-! ## Continuations -/

/-- Two lists along the same one. -/
theorem forall₂_of_forall₂ {α β γ : Type} {A : α → β → Prop} {B : α → γ → Prop} {C : β → γ → Prop}
    {as : List α} {bs : List β} {cs : List γ} (hA : List.Forall₂ A as bs) (hB : List.Forall₂ B as cs)
    (h : ∀ {a b c}, A a b → B a c → C b c) : List.Forall₂ C bs cs := by
  induction hA generalizing cs with
  | nil =>
    cases hB
    exact .nil
  | cons ha _ ih =>
    cases hB with
    | cons hb hrest => exact .cons (h ha hb) (ih hrest)

/-- The second list has what the first has, at the same places, and further elements among them. -/
theorem erases_reduceOption {σ τ : Type} {R : σ → τ → Prop} {D : τ → Prop} {os : List (Option (κ × σ))}
    {os' : List (Option (κ × τ))}
    (h : List.Forall₂ (fun o o' => (o = none ∧ ∀ y, o' = some y → D y.2) ∨
      ∃ c x y, R x y ∧ o = some (c, x) ∧ o' = some (c, y)) os os') :
    Erases R D os.reduceOption os'.reduceOption := by
  induction h with
  | nil => exact .nil
  | @cons o o' os os' ho _ ih =>
    obtain ⟨rfl, hD⟩ | ⟨c, x, y, hR, rfl, rfl⟩ := ho
    · cases o' with
      | none => exact ih
      | some y => exact .drop (hD y rfl) ih
    · exact .keep hR ih

variable [Scale κ] {cost : κ} {x y : Track}

/-- Both tasks reply alike to an instance, unless the automaton has no successor. Then the first, which
is never doomed, replies nothing. -/
theorem SameTrack.replies (hpure : ∀ M, ¬ g.doomed M) (h : SameTrack g g' x y) {S : Set String} {q : Q}
    (hx : g.At x.state S q) (hy : g'.At y.state S q) {p : Schema × NamedAction κ}
    {o o' : Option (κ × Track)} (ho : g.Replies S (g.cells q) cost x p o)
    (ho' : g'.Replies S (g'.cells q) cost y p o') :
    (o = none ∧ ∀ y, o' = some y → g'.Doomed y.2.state) ∨
      ∃ c x y, SameTrack g g' x y ∧ o = some (c, x) ∧ o' = some (c, y) := by
  by_cases hS : p.2.rule.Allows S
  case neg =>
    refine .inl ⟨ho.not_allows hS, fun y hy => ?_⟩
    rw [ho'.not_allows hS] at hy
    cases hy
  cases hstep : m.step q p.1 with
  | none =>
    refine .inl ⟨?_, fun _ => hy.reply_of_not_step ho' hstep⟩
    refine Option.eq_none_iff_forall_ne_some.2 fun z hz => ?_
    obtain ⟨_, M, -, hdoomed⟩ := hx.reply_of_not_step ho hstep hz
    exact hpure M hdoomed
  | some q' =>
    obtain ⟨s, hs, rfl⟩ := hx.reply_of_step ho hS hstep
    obtain ⟨s', hs', rfl⟩ := hy.reply_of_step ho' hS hstep
    have hsame : Same g g' s s' := ⟨_, q', hs, hs'⟩
    have hbefore : List.Forall₂ (Same g g') (x.state :: x.before) (y.state :: y.before) :=
      .cons h.state h.before
    rw [hsame.contains_eq hbefore, h.names]
    split
    · exact .inl ⟨rfl, fun _ hz => nomatch hz⟩
    · exact .inr ⟨_, ⟨s, _, _⟩, ⟨s', _, _⟩, ⟨hsame, hbefore, rfl⟩, rfl, rfl⟩

theorem SameTrack.next (hpure : ∀ M, ¬ g.doomed M) (h : SameTrack g g' x y) :
    Erases (SameTrack g g') (fun y => g'.Doomed y.state) ((trackWalk g.task.pruned).next cost x)
      ((trackWalk g'.task.pruned).next cost y) := by
  obtain ⟨S, q, hx, hy⟩ := h.state
  obtain ⟨os, hos, hreplies⟩ := g.layered.exists_replies g.names cost hx.2
  obtain ⟨os', hos', hreplies'⟩ := g'.layered.exists_replies g'.names cost hy.2
  rw [hos, hos']
  exact erases_reduceOption (forall₂_of_forall₂ hreplies hreplies' fun ho ho' =>
    h.replies hpure hx hy ho ho')

/-! ## Searches -/

omit [Scale κ] in
theorem start_sameTrack : SameTrack g g' ⟨g.task.initialState, [], []⟩ ⟨g'.task.initialState, [], []⟩ where
  state := ⟨_, _, Guarded.at_initialState, Guarded.at_initialState⟩
  before := .nil
  names := rfl

/-- **The searches agree but for doomed paths** if the first task never has any. -/
theorem erasure (hpure : ∀ M, ¬ g.doomed M) {P : κ → Prop}
    (hP : ∀ {cost}, P cost → ∀ a ∈ g.task.pruned.actions, P (Scale.add cost a.cost)) :
    Erasure (trackWalk g.task.pruned) (trackWalk g'.task.pruned) (SameTrack g g')
      (fun y => g'.Doomed y.state) P where
  isGoal h := h.isGoal_eq
  plan h cost := by
    show Plan.mk _ _ _ = Plan.mk _ _ _
    rw [h.names]
  next h cost := h.next hpure
  not_isGoal h := h.not_isGoal
  next_erased h cost p hp := h.next hp
  cost h cost hcost p hp := by
    obtain ⟨a, ha, hextend⟩ := List.mem_filterMap.1 hp
    unfold Track.extend at hextend
    split at hextend
    · split at hextend
      · cases hextend
      · rw [← Option.some.inj hextend]
        exact hP hcost a (Array.mem_toList_iff.1 ha)
    · cases hextend

variable [Std.TransCmp (Scale.order : κ → κ → Ordering)]

/-- Searches of two such tasks find the same plans, unless one of them meets its limit. -/
theorem search_eq_search (hpure : ∀ M, ¬ g.doomed M) {P : κ → Prop} (hzero : P (Scale.ofNat 0))
    (hP : ∀ {cost}, P cost → ∀ a ∈ g.task.pruned.actions, P (Scale.add cost a.cost)) {bounds : Bounds κ}
    (hbounds : ∀ best c c', P c' → Scale.order c c' ≠ .gt → bounds.excludes best c = true →
      bounds.excludes best c' = true)
    (hlimit : (search g.task.pruned bounds).2 ≠ .limit)
    (hlimit' : (search g'.task.pruned bounds).2 ≠ .limit) :
    (search g.task.pruned bounds).1 = (search g'.task.pruned bounds).1 := by
  rw [search_eq_run] at hlimit hlimit' ⊢
  rw [search_eq_run]
  refine Erasure.run_eq hbounds (erasure hpure hP) (.keep start_sameTrack .nil) (List.pairwise_singleton _ _)
    (fun p hp => ?_) hlimit hlimit'
  rw [List.mem_singleton.1 hp]
  exact hzero

end Pair

/-! ## The tools -/

/-- What a tool makes of a task is the task with monitors that follow the automata of the formulas. -/
theorem Method.Serves.exists_guarded [Scale κ] {ι : Type} {m : Method ι} {tool : Tool}
    (hm : m.Serves tool) {domain domain' : Domain} {problem problem' : Problem}
    {formulas : List Constraint.Formula}
    (hfresh : ∀ p ∈ usedPredicates domain problem, ¬ Fluent (fluentStem domain) p)
    (hcompile : compile domain problem formulas tool = .ok (domain', problem')) {t : Ground.Task κ}
    (hground : Task.ground domain' problem' = .ok t) :
    ∃ bs b, formulas.mapM (Binding.of domain) = .ok bs ∧ TaggedTask.of (κ := κ) domain problem = .ok b ∧
      ∃ g : Guarded domain.schemas b (jointMachine bs), t = g.task.pruned ∧
        ((∀ template M, ¬ m.doomed template M) → ∀ M, ¬ g.doomed M) := by
  obtain ⟨bs, ws, k, hbs, rfl, rfl, hmonitors, hfaithful⟩ := hm.of_compile hfresh hcompile
  obtain ⟨n, hn, full, hfull, rfl⟩ := exists_named_of_ground hground
  obtain ⟨b, know, hb, rfl, hlayered⟩ := hmonitors.exists_layered hn
  refine ⟨bs, b, hbs, hb, ⟨_, full, _, _, k, know, _, _, hlayered, hfull, hfaithful⟩, rfl, ?_⟩
  rintro hpure M ⟨i, binding, -, hdoomed⟩
  exact hpure _ _ hdoomed

variable {domain domain₁ domain₂ : Domain} {problem problem₁ problem₂ : Problem}
  {formulas : List Constraint.Formula}

/-- **The tools agree under search.** If both tools compile a task, both results have ground tasks, and no
action has a negative cost, then a search of either gives the same plans in the same order, unless it
meets its limit of expansions. -/
theorem search_lf2f_eq_search_p4p
    (hfresh : ∀ p ∈ usedPredicates domain problem, ¬ Fluent (fluentStem domain) p)
    (hlf2f : compile domain problem formulas .lf2f = .ok (domain₁, problem₁))
    (hp4p : compile domain problem formulas .p4p = .ok (domain₂, problem₂))
    {t₁ t₂ : Ground.Task Double} (ht₁ : Task.ground domain₁ problem₁ = .ok t₁)
    (ht₂ : Task.ground domain₂ problem₂ = .ok t₂)
    (hcosts : ∀ a ∈ t₁.actions, Scale.le (Scale.ofNat 0) a.cost = true) {bounds : Bounds Double}
    (hlimit₁ : (search t₁ bounds).2 ≠ .limit) (hlimit₂ : (search t₂ bounds).2 ≠ .limit) :
    (search t₁ bounds).1 = (search t₂ bounds).1 := by
  obtain ⟨bs, b, hbs, hb, g, rfl, hpure⟩ := tracking_serves.exists_guarded hfresh hlf2f ht₁
  obtain ⟨bs', b', hbs', hb', g', rfl, -⟩ := patterns_serves.exists_guarded hfresh hp4p ht₂
  obtain rfl := Except.ok.inj (hbs.symm.trans hbs')
  obtain rfl := Except.ok.inj (hb.symm.trans hb')
  have hzero : Double.Regular (Scale.ofNat 0) := by rfl
  refine search_eq_search (P := Double.Regular) (hpure fun _ _ h => h) hzero
    (fun hcost a ha => hcost.add (hcosts a ha)) ?_ hlimit₁ hlimit₂
  intro best c c' hc' horder hexcludes
  exact Double.lt_of_lt_of_order_ne_gt hc' hexcludes horder

/-! ### A dinner -/

section Dinner

/-- A domain in which food is plated, fried and chilled. What is mixed is hot and cold at once. -/
def kitchen : Domain where
  name := "kitchen"
  predicates := [⟨"plated", []⟩, ⟨"hot", []⟩, ⟨"cold", []⟩]
  schemas := [
    { name := "plate", effect := some (atomExpr "plated") },
    { name := "fry", effect := some (atomExpr "hot") },
    { name := "chill", effect := some (atomExpr "cold") },
    { name := "mix", effect := some (.list [.atom "and", atomExpr "hot", atomExpr "cold"]) }]

/-- The problem to plate something hot. -/
def dinner : Problem where
  name := "dinner"
  domain := "kitchen"
  goal := .list [.atom "and", atomExpr "plated", atomExpr "hot"]

/-- That nothing gets hot if something gets cold. -/
def unmixed : Constraint.Formula := ⟨.notCoExistence, ["hot", "cold"], rfl, by decide⟩

/-- What a tool makes of the dinner. The automaton never lets anything be mixed. The pattern does, and remembers it
as a violation. -/
def dinnerNamed [Scale κ] : Tool → NamedTask κ
  | .lf2f =>
    { init := ["(ltl-q0-0)", "(ltl-acc0)"]
      actions := [
        ⟨"(plate)", { effect := [(true, "(plated)")] }, Scale.ofNat 1⟩,
        ⟨"(fry)", ⟨[(false, "(ltl-q0-2)")], [(true, "(hot)")],
          [([(true, "(ltl-q0-0)")], [(false, "(ltl-q0-0)"), (true, "(ltl-q0-1)")])]⟩, Scale.ofNat 1⟩,
        ⟨"(chill)", ⟨[(false, "(ltl-q0-1)")], [(true, "(cold)")],
          [([(true, "(ltl-q0-0)")], [(false, "(ltl-q0-0)"), (true, "(ltl-q0-2)")])]⟩, Scale.ofNat 1⟩,
        ⟨"(mix)", ⟨[(false, "(ltl-q0-0)"), (false, "(ltl-q0-1)"), (false, "(ltl-q0-2)")],
          [(true, "(hot)"), (true, "(cold)")], []⟩, Scale.ofNat 1⟩]
      goal := [(true, "(plated)"), (true, "(hot)"), (true, "(ltl-acc0)")] }
  | .p4p =>
    { init := []
      actions := [
        ⟨"(plate)", { effect := [(true, "(plated)")] }, Scale.ofNat 1⟩,
        ⟨"(fry)", ⟨[(false, "(ltl-seen-b0)")], [(true, "(hot)"), (true, "(ltl-seen-a0)")], []⟩, Scale.ofNat 1⟩,
        ⟨"(chill)", ⟨[(false, "(ltl-seen-a0)")], [(true, "(cold)"), (true, "(ltl-seen-b0)")], []⟩, Scale.ofNat 1⟩,
        ⟨"(mix)", { effect := [(true, "(hot)"), (true, "(cold)"), (true, "(ltl-violated0)")] }, Scale.ofNat 1⟩]
      goal := [(true, "(plated)"), (true, "(hot)"), (false, "(ltl-violated0)")] }

/-- The same, with facts numbered in the order in which they occur. The table of facts is left out. -/
def dinnerTask (tool : Tool) : Ground.Task Double := ((dinnerNamed tool).places #[]).1 .empty

/-- Why a search for the dinner ends. With patterns there are violations left to look at. -/
def dinnerEnding : Tool → Ending
  | .lf2f => .exhausted
  | .p4p => .beyondBound

/-- There are two plans, which cost the same. -/
theorem search_dinnerTask (tool : Tool) {facts : FactTable}
    (h : facts.names = ((dinnerNamed (κ := Double) tool).places #[]).2) :
    (search { dinnerTask tool with facts } .usual).1.map (·.actions) =
      [["(plate)", "(fry)"], ["(fry)", "(plate)"]] ∧
    (search { dinnerTask tool with facts } .usual).2 = dinnerEnding tool := by
  have hstart : Task.initialState { dinnerTask tool with facts } =
      State.ofFacts ((dinnerNamed (κ := Double) tool).places #[]).2.size (dinnerTask tool).init := by
    rw [← h]
    rfl
  have hwalk : trackWalk { dinnerTask tool with facts } = trackWalk (dinnerTask tool) := rfl
  refine search_of_runWithin 20 hstart ?_
  rw [hwalk]
  cases tool <;> decide +kernel

theorem exists_search_dinner (tool : Tool) : ∃ domain problem, ∃ t : Ground.Task Double,
    compile kitchen dinner [unmixed] tool = .ok (domain, problem) ∧ Task.ground domain problem = .ok t ∧
    (∀ a ∈ t.actions, Scale.le (Scale.ofNat 0) a.cost = true) ∧
    (search t .usual).1.map (·.actions) = [["(plate)", "(fry)"], ["(fry)", "(plate)"]] ∧
    (search t .usual).2 = dinnerEnding tool := by
  have hbare : ∃ domain problem, compile kitchen dinner [unmixed] tool = .ok (domain, problem) ∧
      bareTask (κ := Double) domain problem = some (dinnerNamed tool) := by
    cases tool <;> exact ⟨_, _, rfl, rfl⟩
  obtain ⟨domain, problem, hcompile, hn⟩ := hbare
  obtain ⟨facts, hnames, hfull⟩ := exists_groundFully_of_bare hn
  have hneeds : (dinnerTask tool).actions.toList.all (·.needs.isEmpty) = true := by
    cases tool <;> decide +kernel
  have hcosts : (dinnerTask tool).actions.toList.all (fun a => Scale.le (Scale.ofNat 0) a.cost) = true := by
    cases tool <;> decide +kernel
  refine ⟨domain, problem, { dinnerTask tool with facts }, hcompile, ?_, fun a ha => ?_, search_dinnerTask tool hnames⟩
  · rw [Task.ground, hfull, NamedTask.places_eq]
    exact congrArg Except.ok (Task.pruned_eq_self hneeds)
  · exact List.all_eq_true.1 hcosts a (Array.mem_toList_iff.2 ha)

/-- Plans of two actions are found in one order, though one of the searches looks at violations too. -/
theorem search_lf2f_eq_search_p4p_dinner :
    ∃ domain₁ problem₁ domain₂ problem₂ t₁ t₂,
      (∀ p ∈ usedPredicates kitchen dinner, ¬ Fluent (fluentStem kitchen) p) ∧
      compile kitchen dinner [unmixed] .lf2f = .ok (domain₁, problem₁) ∧
      compile kitchen dinner [unmixed] .p4p = .ok (domain₂, problem₂) ∧
      Task.ground (κ := Double) domain₁ problem₁ = .ok t₁ ∧
      Task.ground (κ := Double) domain₂ problem₂ = .ok t₂ ∧
      (∀ a ∈ t₁.actions, Scale.le (Scale.ofNat 0) a.cost = true) ∧
      (search t₁ .usual).2 = .exhausted ∧ (search t₂ .usual).2 = .beyondBound ∧
      (search t₁ .usual).1 = (search t₂ .usual).1 ∧
      (search t₁ .usual).1.map (·.actions) = [["(plate)", "(fry)"], ["(fry)", "(plate)"]] := by
  have hfresh : ∀ p ∈ usedPredicates kitchen dinner, ¬ Fluent (fluentStem kitchen) p := by decide
  obtain ⟨domain₁, problem₁, t₁, hlf2f, ht₁, hcosts, hplans, hending₁⟩ := exists_search_dinner .lf2f
  obtain ⟨domain₂, problem₂, t₂, hp4p, ht₂, -, -, hending₂⟩ := exists_search_dinner .p4p
  have hlimit₁ : (search t₁ .usual).2 ≠ .limit := by simp [hending₁, dinnerEnding]
  have hlimit₂ : (search t₂ .usual).2 ≠ .limit := by simp [hending₂, dinnerEnding]
  exact ⟨domain₁, problem₁, domain₂, problem₂, t₁, t₂, hfresh, hlf2f, hp4p, ht₁, ht₂, hcosts, hending₁, hending₂,
    search_lf2f_eq_search_p4p hfresh hlf2f hp4p ht₁ ht₂ hcosts hlimit₁ hlimit₂, hplans⟩

end Dinner

end Waymark.Encoding
