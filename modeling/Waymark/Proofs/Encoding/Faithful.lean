import Waymark.Proofs.Encoding.Watcher

/-!
# Tracking follows automata

A watcher follows an automaton if there is one set of cells for each state, and an action with a label
leads from the set of a state to the set of its successor. Where there is no successor the action is not
possible, or it leads to a set from which the goal is out of reach.

* `Machine`, `Faithful`: automata, and watchers that follow them;
* `templateMachine`: the automaton of a template;
* `trackWatcher`: the watcher that tracks an automaton, with `spells_tracker` for its expressions;
* `faithful_track`: it is faithful.
-/

namespace Waymark.Encoding

open Ground Planning Constraint

/-- An automaton over labels, with the states that it stays within. -/
structure Machine (Q L : Type) where
  start : Q
  /-- The successor of a state, none if the label is never allowed there. -/
  step : Q → L → Option Q
  accepting : Q → Bool
  valid : Q → Prop
  valid_start : valid start
  valid_step : ∀ {q l q'}, valid q → step q l = some q' → valid q'

/-- The run over the labels is not rejected and ends in an accepting state. -/
def Machine.Accepts {Q L : Type} (m : Machine Q L) (q : Q) (ls : List L) : Prop :=
  ∃ q', ls.foldlM m.step q = some q' ∧ m.accepting q' = true

theorem Machine.accepts_nil {Q L : Type} {m : Machine Q L} {q : Q} :
    m.Accepts q [] ↔ m.accepting q = true := by
  simp [Accepts]

theorem Machine.accepts_cons {Q L : Type} {m : Machine Q L} {q : Q} {l : L} {ls : List L} :
    m.Accepts q (l :: ls) ↔ ∃ q', m.step q l = some q' ∧ m.Accepts q' ls := by
  simp only [Accepts, List.foldlM_cons, Option.bind_eq_bind, Option.bind_eq_some_iff]
  constructor
  · rintro ⟨q'', ⟨q', hq', hrun⟩, hacc⟩
    exact ⟨q', hq', q'', hrun, hacc⟩
  · rintro ⟨q', hq', q'', hrun, hacc⟩
    exact ⟨q'', ⟨q', hq', hrun⟩, hacc⟩

/-- A watcher follows an automaton: the cells of each state hold while the automaton is in that state.
A set of cells is doomed if it can never become one that satisfies the goal. -/
structure Faithful {ι Q L : Type} (w : Watcher ι L) (m : Machine Q L) (cells : Q → Set ι)
    (doomed : Set ι → Prop) : Prop where
  start : {c | c ∈ w.start} = cells m.start
  step_some : ∀ {q l q'}, m.valid q → m.step q l = some q' →
    (w.rule l).Allows (cells q) ∧ (w.rule l).next (cells q) = cells q'
  step_none : ∀ {q l}, m.valid q → m.step q l = none → (w.rule l).Allows (cells q) →
    doomed ((w.rule l).next (cells q))
  goal_iff : ∀ {q}, m.valid q → (AllHold (cells q) w.goal ↔ m.accepting q = true)
  doomed_next : ∀ {M} (l), doomed M → doomed ((w.rule l).next M)
  not_goal : ∀ {M}, doomed M → ¬ AllHold M w.goal
  injective : ∀ {q q'}, m.valid q → m.valid q' → cells q = cells q' → q = q'

/-! ## Templates -/

theorem stateCount_pos (t : Template) : 0 < t.stateCount := by cases t <;> decide

/-- The automaton stays within its states. -/
theorem step_lt {t : Template} {q q' : Nat} {l : Label} (hq : q < t.stateCount)
    (h : t.step q l = some q') : q' < t.stateCount := by
  obtain ⟨a, b⟩ := l
  have hall : ∀ q < t.stateCount, (t.step q ⟨a, b⟩).all (· < t.stateCount) = true := by
    cases t <;> cases a <;> cases b <;> decide
  simpa [h] using hall q hq

/-- The automaton of a template. -/
def templateMachine (t : Template) : Machine Nat Label where
  start := 0
  step := t.step
  accepting := t.accepting
  valid q := q < t.stateCount
  valid_start := stateCount_pos t
  valid_step := step_lt

/-! ## Tracking -/

/-- The cells that a step between two states changes. -/
def stepCells (t : Template) (source target : Nat) : List (Signed TrackCell) :=
  [(false, .state source), (true, .state target)] ++
    match t.accepting source, t.accepting target with
    | false, true => [(true, .accept)]
    | true, false => [(false, .accept)]
    | _, _ => []

/-- The watcher that tracks the automaton of a template. -/
def trackWatcher (t : Template) : Watcher TrackCell Label where
  start := .state 0 :: if t.accepting 0 then [.accept] else []
  goal := [(true, .accept)]
  condition l := ((states t).filter fun s => (t.step s l).isNone).map fun s => (false, .state s)
  clauses l := (states t).flatMap fun source => match t.step source l with
    | none => []
    | some target =>
      if target = source then [] else [.whenever [(true, .state source)] (stepCells t source target)]

theorem spells_tracker (stem : String) (i : Nat) (t : Template) :
    (trackWatcher t).Spells (fun c => trackName stem (i, c)) (tracker stem i t).fluents
      (tracker stem i t).init (tracker stem i t).goal (tracker stem i t).condition
      (tracker stem i t).effect where
  fluents f hf := by
    rcases List.mem_append.1 hf with hf | hf
    · obtain ⟨n, -, rfl⟩ := List.mem_map.1 hf
      exact ⟨.state n, rfl⟩
    · rw [List.mem_singleton.1 hf]
      exact ⟨.accept, rfl⟩
  init := by
    simp only [tracker, trackWatcher, List.map_cons, trackName]
    split <;> rfl
  goal := rfl
  condition l := by
    simp only [tracker, trackWatcher, List.map_map]
    rfl
  effect l := by
    simp only [tracker, trackWatcher, List.map_flatMap]
    refine congrArg (fun f => (states t).flatMap f) (funext fun source => ?_)
    cases t.step source l with
    | none => rfl
    | some target =>
      by_cases htarget : target = source
      · simp only [if_pos htarget, List.map_nil]
      · simp only [if_neg htarget, List.map_cons, List.map_nil, clauseExpr, stepCells, stepEffects]
        rcases t.accepting source <;> rcases t.accepting target <;> rfl

/-- The cells that hold in a state of the automaton. -/
def trackCells (t : Template) (q : Nat) : Set TrackCell :=
  {c | c = .state q ∨ c = .accept ∧ t.accepting q = true}

section Track

variable {t : Template} {l : Label} {q q' : Nat}

theorem mem_conditional_track {c : List (Signed TrackCell) × List (Signed TrackCell)} :
    c ∈ ((trackWatcher t).rule l).conditional ↔
      ∃ source target, source < t.stateCount ∧ t.step source l = some target ∧ target ≠ source ∧
        c = ([(true, .state source)], stepCells t source target) := by
  simp only [Watcher.rule, trackWatcher, List.mem_filterMap, List.mem_flatMap, states, List.mem_range]
  constructor
  · rintro ⟨cl, ⟨source, hs, hcl⟩, hc⟩
    split at hcl
    · cases hcl
    · rename_i target hstep
      split at hcl
      · cases hcl
      · rename_i hne
        rw [List.mem_singleton.1 hcl] at hc
        exact ⟨source, target, hs, hstep, hne, (Option.some.inj hc).symm⟩
  · rintro ⟨source, target, hs, hstep, hne, rfl⟩
    exact ⟨_, ⟨source, hs, by rw [hstep]; simp only [if_neg hne]; exact List.mem_singleton_self _⟩, rfl⟩

theorem effect_track : ((trackWatcher t).rule l).effect = [] := by
  simp only [Watcher.rule, trackWatcher, List.filterMap_flatMap]
  refine List.flatMap_eq_nil_iff.2 fun source _ => ?_
  split
  · rfl
  · split <;> rfl

/-- In a state of the automaton only the effect for that state fires. -/
theorem causes_track (hq : q < t.stateCount) (hstep : t.step q l = some q') {x : Signed TrackCell} :
    ((trackWatcher t).rule l).Causes (trackCells t q) x ↔ q' ≠ q ∧ x ∈ stepCells t q q' := by
  have hat (source : Nat) : AllHold (trackCells t q) [(true, .state source)] ↔ source = q := by
    simp [AllHold, Signed.Holds, trackCells]
  simp only [Rule.Causes, effect_track, List.not_mem_nil, false_or]
  constructor
  · rintro ⟨c, hc, hall, hx⟩
    obtain ⟨source, target, -, hs, hne, rfl⟩ := mem_conditional_track.1 hc
    obtain rfl := (hat source).1 hall
    obtain rfl := Option.some.inj (hs.symm.trans hstep)
    exact ⟨hne, hx⟩
  · rintro ⟨hne, hx⟩
    exact ⟨_, mem_conditional_track.2 ⟨q, q', hq, hstep, hne, rfl⟩, (hat q).2 rfl, hx⟩

theorem mem_stepCells {b : Bool} {n : Nat} :
    (b, .state n) ∈ stepCells t q q' ↔ b = false ∧ n = q ∨ b = true ∧ n = q' := by
  unfold stepCells
  rcases t.accepting q <;> rcases t.accepting q' <;> cases b <;> simp

theorem accept_mem_stepCells {b : Bool} :
    (b, .accept) ∈ stepCells t q q' ↔ t.accepting q = !b ∧ t.accepting q' = b := by
  unfold stepCells
  rcases t.accepting q <;> rcases t.accepting q' <;> cases b <;> simp

theorem allows_track (hstep : (t.step q l).isSome) :
    ((trackWatcher t).rule l).Allows (trackCells t q) := by
  intro x hx
  obtain ⟨s, hs, rfl⟩ := List.mem_map.1 hx
  have hne : s ≠ q := by
    rintro rfl
    rw [List.mem_filter, Option.isNone_iff_eq_none] at hs
    simp [hs.2] at hstep
  simp [Signed.Holds, trackCells, hne]

theorem next_track (hq : q < t.stateCount) (hstep : t.step q l = some q') :
    ((trackWatcher t).rule l).next (trackCells t q) = trackCells t q' := by
  ext c
  rw [Rule.mem_next, causes_track hq hstep, causes_track hq hstep]
  cases c with
  | state n =>
    simp only [mem_stepCells, trackCells, Set.mem_ofPred_eq, TrackCell.state.injEq]
    simp
    omega
  | accept =>
    simp only [accept_mem_stepCells, trackCells, Set.mem_ofPred_eq]
    by_cases hqq : q' = q
    · simp [hqq]
    · cases t.accepting q <;> cases t.accepting q' <;> simp [hqq]

theorem not_allows_track (hq : q < t.stateCount) (hstep : t.step q l = none) :
    ¬ ((trackWatcher t).rule l).Allows (trackCells t q) := by
  intro h
  have hmem : (false, TrackCell.state q) ∈ ((trackWatcher t).rule l).condition :=
    List.mem_map_of_mem (List.mem_filter.2 ⟨List.mem_range.2 hq, by simp [hstep]⟩)
  have := h _ hmem
  simp [Signed.Holds, trackCells] at this

end Track

/-- **Tracking is faithful.** Nothing is doomed, since actions without a successor are not possible. -/
theorem faithful_track (t : Template) :
    Faithful (trackWatcher t) (templateMachine t) (trackCells t) (fun _ => False) where
  start := by
    ext c
    cases c <;> cases h : t.accepting 0 <;> simp [trackWatcher, templateMachine, trackCells, h]
  step_some hq hstep := ⟨allows_track (Option.isSome_of_eq_some hstep), next_track hq hstep⟩
  step_none hq hstep h := not_allows_track hq hstep h
  goal_iff _ := by simp [trackWatcher, templateMachine, AllHold, Signed.Holds, trackCells]
  doomed_next _ h := h
  not_goal h := h.elim
  injective {q _} _ _ h := by
    have hmem : TrackCell.state q ∈ trackCells t q := .inl rfl
    rw [h] at hmem
    simpa [trackCells] using hmem

end Waymark.Encoding
