import Mathlib.Data.Fintype.Basic
import Waymark.Proofs.Encoding.Faithful

/-!
# Patterns follow automata

What the fluents of a pattern remember is a function of the state of the automaton, as long as the
formula is not violated. A pattern that notices a violation only after the fact marks it for good, and
asks at the end that there be no mark. All steps are checked one by one, since a template has at most
three states and a label is one of four.

* `patternWatcher`: the watcher with the pattern of a template, with `spells_pattern`;
* `patternCells`: what is remembered in a state of the automaton;
* `faithful_pattern`: the watcher is faithful, violations being doomed.
-/

namespace Waymark.Encoding

open Ground Planning Constraint

/-! ## Watchers -/

/-- The watcher for two activities that exclude each other. -/
def excludingWatcher (goal also : List (Signed Memory)) : Watcher Memory Label where
  start := []
  goal
  condition label := match label.a, label.b with
    | true, false => [(false, .seenB)]
    | false, true => [(false, .seenA)]
    | _, _ => []
  clauses label := match label.a, label.b with
    | true, true => .plain (true, .violated) :: also.map .plain
    | true, false => .plain (true, .seenA) :: also.map .plain
    | false, true => .plain (true, .seenB) :: also.map .plain
    | false, false => []

/-- What the effect of an answer or of something to be answered is. -/
def pendingClauses (label : Label) : List (Clause Memory) :=
  if label.b then [.plain (false, .pending)]
  else if label.a then [.plain (true, .pending)]
  else []

/-- The watcher with the pattern of a template. The chain templates have none. -/
def patternWatcher : Template → Watcher Memory Label
  | .existence =>
    { start := [], goal := [(true, .seenA)], condition := fun _ => []
      clauses := fun label => if label.a then [.plain (true, .seenA)] else [] }
  | .existenceTwo =>
    { start := [], goal := [(true, .twice)], condition := fun _ => []
      clauses := fun label =>
        if label.a then [.plain (true, .once), .whenever [(true, .once)] [(true, .twice)]] else [] }
  | .absence =>
    { start := [], goal := [(false, .violated)], condition := fun _ => []
      clauses := fun label => if label.a then [.plain (true, .violated)] else [] }
  | .init =>
    { start := [], goal := [(true, .started)]
      condition := fun label => if label.a then [] else [(true, .started)]
      clauses := fun label => if label.a then [.plain (true, .started)] else [] }
  | .final =>
    { start := [], goal := [(true, .last)], condition := fun _ => []
      clauses := fun label => [if label.a then .plain (true, .last) else .plain (false, .last)] }
  | .respondedExistence =>
    { start := [], goal := [(false, .pending)], condition := fun _ => []
      clauses := fun label =>
        if label.b then [.plain (true, .seenB), .plain (false, .pending)]
        else if label.a then [.whenever [(false, .seenB)] [(true, .pending)]]
        else [] }
  | .response =>
    { start := [], goal := [(false, .pending)], condition := fun _ => [], clauses := pendingClauses }
  | .precedence =>
    { start := [], goal := []
      condition := fun label => if !label.a && label.b then [(true, .seenA)] else []
      clauses := fun label => if label.a then [.plain (true, .seenA)] else [] }
  | .succession =>
    { start := [], goal := [(false, .pending)]
      condition := fun label => if !label.a && label.b then [(true, .seenA)] else []
      clauses := fun label =>
        (if label.a then [.plain (true, .seenA)] else []) ++ pendingClauses label }
  | .notCoExistence => excludingWatcher [(false, .violated)] []
  | .exclusiveChoice =>
    excludingWatcher [(false, .violated), (true, .chosen)] [(true, .chosen)]
  | .chainResponse | .chainPrecedence =>
    { start := [], goal := [], condition := fun _ => [], clauses := fun _ => [] }

/-- What the pattern of a template has fluents for. -/
def patternMemories : Template → List Memory
  | .existence | .precedence => [.seenA]
  | .existenceTwo => [.once, .twice]
  | .absence => [.violated]
  | .init => [.started]
  | .final => [.last]
  | .respondedExistence => [.seenB, .pending]
  | .response => [.pending]
  | .succession => [.seenA, .pending]
  | .notCoExistence => [.seenA, .seenB, .violated]
  | .exclusiveChoice => [.seenA, .seenB, .violated, .chosen]
  | .chainResponse | .chainPrecedence => []

theorem fluents_pattern {stem : String} {i : Nat} {t : Template} {m : Monitor}
    (h : pattern? stem i t = some m) : m.fluents = (patternMemories t).map (memoryFluent stem i) := by
  cases t <;> cases h <;> rfl

theorem spells_pattern {stem : String} {i : Nat} {t : Template} {m : Monitor}
    (h : pattern? stem i t = some m) :
    (patternWatcher t).Spells (fun c => memoryName stem (i, c)) m.fluents m.init m.goal m.condition
      m.effect := by
  refine ⟨fun f hf => ?_, ?_, ?_, fun ⟨a, b⟩ => ?_, fun ⟨a, b⟩ => ?_⟩
  · rw [fluents_pattern h] at hf
    obtain ⟨c, -, rfl⟩ := List.mem_map.1 hf
    exact ⟨c, rfl⟩
  · cases t <;> cases h <;> rfl
  · cases t <;> cases h <;> rfl
  · cases t <;> cases h <;> cases a <;> cases b <;> rfl
  · cases t <;> cases h <;> cases a <;> cases b <;> rfl

/-! ## Steps -/

instance : Fintype Memory where
  elems := {.seenA, .seenB, .once, .twice, .violated, .started, .last, .pending, .chosen}
  complete m := by cases m <;> decide

/-- What is remembered in a state of the automaton. -/
def remembered (t : Template) (q : Nat) : List Memory :=
  match t, q with
  | .existence, 1 | .precedence, 1 | .succession, 1 | .notCoExistence, 1 => [.seenA]
  | .existenceTwo, 1 => [.once]
  | .existenceTwo, 2 => [.once, .twice]
  | .init, 1 => [.started]
  | .final, 1 => [.last]
  | .respondedExistence, 1 | .response, 1 => [.pending]
  | .respondedExistence, 2 | .notCoExistence, 2 => [.seenB]
  | .succession, 2 => [.seenA, .pending]
  | .exclusiveChoice, 1 => [.seenA, .chosen]
  | .exclusiveChoice, 2 => [.seenB, .chosen]
  | _, _ => []

/-- The cells that hold in a state of the automaton. -/
def patternCells (t : Template) (q : Nat) : Set Memory := {m | m ∈ remembered t q}

/-- A violation is marked that the goal excludes. -/
def Violated (t : Template) (M : Set Memory) : Prop :=
  .violated ∈ M ∧ (false, .violated) ∈ (patternWatcher t).goal

section Decidable

variable {α : Type} [DecidableEq α] (S : Set α) [DecidablePred (· ∈ S)]

instance (x : Signed α) : Decidable (x.Holds S) := inferInstanceAs (Decidable (_ ↔ _))

instance (xs : List (Signed α)) : Decidable (AllHold S xs) := inferInstanceAs (Decidable (∀ x ∈ xs, _))

instance (r : Rule α) : Decidable (r.Allows S) := inferInstanceAs (Decidable (AllHold S _))

instance (r : Rule α) (x : Signed α) : Decidable (r.Causes S x) := inferInstanceAs (Decidable (_ ∨ _))

instance (r : Rule α) : DecidablePred (· ∈ r.next S) := fun _ => inferInstanceAs (Decidable (_ ∨ _))

end Decidable

instance (t : Template) (q : Nat) : DecidablePred (· ∈ patternCells t q) :=
  fun m => inferInstanceAs (Decidable (m ∈ remembered t q))

instance (t : Template) (M : Set Memory) [DecidablePred (· ∈ M)] : Decidable (Violated t M) :=
  inferInstanceAs (Decidable (_ ∧ _))

section Steps

variable {t : Template} (ht : t.isChain = false)
include ht

theorem step_some_pattern (a b : Bool) :
    ∀ q < t.stateCount, ∀ q' ∈ t.step q ⟨a, b⟩,
      ((patternWatcher t).rule ⟨a, b⟩).Allows (patternCells t q) ∧
        ∀ m, m ∈ ((patternWatcher t).rule ⟨a, b⟩).next (patternCells t q) ↔ m ∈ patternCells t q' := by
  cases t <;> first | (cases ht; done) | (cases a <;> cases b <;> decide)

theorem step_none_pattern (a b : Bool) :
    ∀ q < t.stateCount, t.step q ⟨a, b⟩ = none →
      ((patternWatcher t).rule ⟨a, b⟩).Allows (patternCells t q) →
        Violated t (((patternWatcher t).rule ⟨a, b⟩).next (patternCells t q)) := by
  cases t <;> first | (cases ht; done) | (cases a <;> cases b <;> decide)

theorem goal_pattern :
    ∀ q < t.stateCount,
      (AllHold (patternCells t q) (patternWatcher t).goal ↔ t.accepting q = true) := by
  cases t <;> first | (cases ht; done) | decide

theorem cells_pattern :
    ∀ q < t.stateCount, ∀ q' < t.stateCount,
      (∀ m, m ∈ patternCells t q ↔ m ∈ patternCells t q') → q = q' := by
  cases t <;> first | (cases ht; done) | decide

end Steps

/-- No effect takes the mark of a violation away. -/
theorem violated_kept (t : Template) (a b : Bool) :
    (false, Memory.violated) ∉ ((patternWatcher t).rule ⟨a, b⟩).effect ∧
      ∀ c ∈ ((patternWatcher t).rule ⟨a, b⟩).conditional, (false, Memory.violated) ∉ c.2 := by
  cases t <;> cases a <;> cases b <;> decide

/-- **Patterns are faithful.** Violations are doomed, since the mark of one stays. -/
theorem faithful_pattern {t : Template} (ht : t.isChain = false) :
    Faithful (patternWatcher t) (templateMachine t) (patternCells t) (Violated t) where
  start := by
    have hstart : (patternWatcher t).start = [] ∧ remembered t 0 = [] := by cases t <;> exact ⟨rfl, rfl⟩
    rw [patternCells, templateMachine, hstart.1, hstart.2]
  step_some {q l q'} hq hstep := by
    obtain ⟨a, b⟩ := l
    obtain ⟨hallows, hnext⟩ := step_some_pattern ht a b q hq q' hstep
    exact ⟨hallows, Set.ext hnext⟩
  step_none {q l} hq hstep hallows := by
    obtain ⟨a, b⟩ := l
    exact step_none_pattern ht a b q hq hstep hallows
  goal_iff {q} hq := goal_pattern ht q hq
  doomed_next {M} l h := by
    obtain ⟨a, b⟩ := l
    obtain ⟨heffect, hconditional⟩ := violated_kept t a b
    refine ⟨Rule.mem_next.2 (.inr ⟨h.1, ?_⟩), h.2⟩
    rintro (hx | ⟨c, hc, -, hx⟩)
    · exact heffect hx
    · exact hconditional c hc hx
  not_goal {M} h hgoal := by
    have := (hgoal _ h.2).1 h.1
    cases this
  injective {q q'} hq hq' h := cells_pattern ht q hq q' hq' fun m => by rw [h]

end Waymark.Encoding
