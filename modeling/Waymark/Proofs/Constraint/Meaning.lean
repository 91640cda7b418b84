import Mathlib.Order.Basic
import Mathlib.Tactic
import Waymark.Constraint.Automaton

/-!
# The meaning of templates

A trace is the sequence of labels of the events of a plan. What a template asks of a trace is said
with the positions at which its activities occur, the first one being 0, and without its automaton.

* `Occurs act events i`: event `i` is an occurrence of the activity that `act` selects;
* `Template.Holds`: the trace satisfies the template;
* `occurs_concat` and the lemmas after it: how one more event changes what has been said about a trace.
-/

namespace Waymark.Constraint

/-- Event `i` of the trace is an occurrence of the activity that `act` selects. -/
def Occurs (act : Label → Bool) (events : List Label) (i : Nat) : Prop :=
  ∃ l, events[i]? = some l ∧ act l = true

/-- The activity occurs somewhere in the trace. -/
def Seen (act : Label → Bool) (events : List Label) : Prop := ∃ i, Occurs act events i

/-- Each occurrence of the first activity is answered by the second one, at once or later. -/
def Answered (events : List Label) : Prop :=
  ∀ i, Occurs Label.a events i → ∃ j, i ≤ j ∧ Occurs Label.b events j

/-- Each occurrence of the second activity comes with or after one of the first. -/
def Prepared (events : List Label) : Prop :=
  ∀ j, Occurs Label.b events j → ∃ i, i ≤ j ∧ Occurs Label.a events i

/-- The last event of the trace is an occurrence of the activity. -/
def EndsWith (act : Label → Bool) (events : List Label) : Prop :=
  ∃ i, i + 1 = events.length ∧ Occurs act events i

/-- What a template asks of a trace. -/
def Template.Holds (t : Template) (events : List Label) : Prop :=
  match t with
  | .existence => Seen Label.a events
  | .existenceTwo => ∃ i j, i < j ∧ Occurs Label.a events i ∧ Occurs Label.a events j
  | .absence => ¬ Seen Label.a events
  | .init => Occurs Label.a events 0
  | .final => EndsWith Label.a events
  | .respondedExistence => Seen Label.a events → Seen Label.b events
  | .response => Answered events
  | .precedence => Prepared events
  | .succession => Answered events ∧ Prepared events
  | .chainResponse => ∀ i, Occurs Label.a events i → Occurs Label.b events (i + 1)
  | .chainPrecedence => ∀ j, Occurs Label.b events j → ∃ i, i + 1 = j ∧ Occurs Label.a events i
  | .notCoExistence => ¬ (Seen Label.a events ∧ Seen Label.b events)
  | .exclusiveChoice =>
    (Seen Label.a events ∨ Seen Label.b events) ∧ ¬ (Seen Label.a events ∧ Seen Label.b events)

/-! ## One more event -/

section Concat

variable {act : Label → Bool} {events : List Label} {l : Label} {i : Nat}

theorem Occurs.lt_length (h : Occurs act events i) : i < events.length := by
  obtain ⟨l, hl, -⟩ := h
  exact (List.getElem?_eq_some_iff.1 hl).1

@[simp] theorem not_occurs_nil : ¬ Occurs act [] i := fun h => by simpa using h.lt_length

theorem occurs_concat :
    Occurs act (events ++ [l]) i ↔ Occurs act events i ∨ i = events.length ∧ act l = true := by
  rcases Nat.lt_trichotomy i events.length with h | h | h
  · simp [Occurs, List.getElem?_append_left h, Nat.ne_of_lt h]
  · subst h
    simp [Occurs]
  · have hne : i ≠ events.length := Nat.ne_of_gt h
    have hnone : (events ++ [l])[i]? = none := List.getElem?_eq_none (by simp; omega)
    have hnone' : events[i]? = none := List.getElem?_eq_none (by omega)
    simp [Occurs, hnone, hnone', hne]

@[simp] theorem not_seen_nil : ¬ Seen act [] := fun ⟨_, h⟩ => not_occurs_nil h

@[simp] theorem seen_concat : Seen act (events ++ [l]) ↔ Seen act events ∨ act l = true := by
  simp [Seen, occurs_concat, exists_or]

@[simp] theorem not_endsWith_nil : ¬ EndsWith act [] := fun ⟨_, h, _⟩ => by simp at h

@[simp] theorem endsWith_concat : EndsWith act (events ++ [l]) ↔ act l = true := by
  constructor
  · rintro ⟨i, hi, ho⟩
    rcases occurs_concat.1 ho with ho | ⟨-, ho⟩
    · have := ho.lt_length
      simp at hi
      omega
    · exact ho
  · intro h
    exact ⟨events.length, by simp, occurs_concat.2 (.inr ⟨rfl, h⟩)⟩

@[simp] theorem answered_nil : Answered [] := fun _ h => absurd h not_occurs_nil

/-- What is open before the last event stays open unless that event answers it. -/
@[simp] theorem answered_concat :
    Answered (events ++ [l]) ↔ l.b = true ∨ l.a = false ∧ Answered events := by
  constructor
  · intro h
    by_cases hb : l.b = true
    · exact .inl hb
    refine .inr ⟨?_, fun i hi => ?_⟩
    · by_contra ha
      obtain ⟨j, hj, ho⟩ := h events.length (occurs_concat.2 (.inr ⟨rfl, by simpa using ha⟩))
      rcases occurs_concat.1 ho with ho | ⟨-, ho⟩
      · have := ho.lt_length
        omega
      · exact hb ho
    · obtain ⟨j, hj, ho⟩ := h i (occurs_concat.2 (.inl hi))
      rcases occurs_concat.1 ho with ho | ⟨-, ho⟩
      · exact ⟨j, hj, ho⟩
      · exact absurd ho hb
  · rintro (hb | ⟨ha, h⟩) i hi
    · refine ⟨events.length, ?_, occurs_concat.2 (.inr ⟨rfl, hb⟩)⟩
      have := hi.lt_length
      simp at this
      omega
    · rcases occurs_concat.1 hi with hi | ⟨-, hi⟩
      · obtain ⟨j, hj, ho⟩ := h i hi
        exact ⟨j, hj, occurs_concat.2 (.inl ho)⟩
      · simp [ha] at hi

@[simp] theorem prepared_nil : Prepared [] := fun _ h => absurd h not_occurs_nil

@[simp] theorem prepared_concat :
    Prepared (events ++ [l]) ↔
      Prepared events ∧ (l.b = true → l.a = true ∨ Seen Label.a events) := by
  constructor
  · intro h
    refine ⟨fun j hj => ?_, fun hb => ?_⟩
    · obtain ⟨i, hi, ho⟩ := h j (occurs_concat.2 (.inl hj))
      rcases occurs_concat.1 ho with ho | ⟨rfl, -⟩
      · exact ⟨i, hi, ho⟩
      · have := hj.lt_length
        omega
    · obtain ⟨i, -, ho⟩ := h events.length (occurs_concat.2 (.inr ⟨rfl, hb⟩))
      rcases occurs_concat.1 ho with ho | ⟨-, ho⟩
      · exact .inr ⟨i, ho⟩
      · exact .inl ho
  · rintro ⟨h, hl⟩ j hj
    rcases occurs_concat.1 hj with hj | ⟨rfl, hb⟩
    · obtain ⟨i, hi, ho⟩ := h j hj
      exact ⟨i, hi, occurs_concat.2 (.inl ho)⟩
    · rcases hl hb with ha | ⟨i, hi⟩
      · exact ⟨_, le_rfl, occurs_concat.2 (.inr ⟨rfl, ha⟩)⟩
      · exact ⟨i, hi.lt_length.le, occurs_concat.2 (.inl hi)⟩

end Concat

end Waymark.Constraint
