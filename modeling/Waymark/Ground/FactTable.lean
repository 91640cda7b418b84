import Std.Data.HashMap

/-!
# Fact tables

The facts of a ground task are numbered in the order in which they are met. A table holds their
names by number and their numbers by name, and its type says that the two agree.

* `FactTable.intern`: the number of a name, which is added to the table if it is new;
* `FactTable.indexOf?`: the number of a name;
* `FactTable.name`: the name of a number.
-/

namespace Waymark.Ground

/-- Names with their numbers. -/
structure FactTable where
  names : Array String
  numbers : Std.HashMap String Nat
  numbers_eq_some_iff : ∀ (name : String) (i : Nat), numbers[name]? = some i ↔ names[i]? = some name

namespace FactTable

/-- The table without facts. -/
def empty : FactTable where
  names := #[]
  numbers := ∅
  numbers_eq_some_iff := by simp

instance : Inhabited FactTable := ⟨empty⟩

/-- The number of facts. -/
def size (t : FactTable) : Nat := t.names.size

/-- The number of a name. -/
def indexOf? (t : FactTable) (name : String) : Option Nat := t.numbers[name]?

/-- The name of a fact. -/
def name (t : FactTable) (fact : Nat) : String := t.names.getD fact ""

/-- The table with a name that it did not hold. -/
def push (t : FactTable) (name : String) (h : t.numbers[name]? = none) : FactTable where
  names := t.names.push name
  numbers := t.numbers.insert name t.names.size
  numbers_eq_some_iff := by
    intro other i
    have key := t.numbers_eq_some_iff
    rw [Std.HashMap.getElem?_insert, Array.getElem?_push]
    by_cases hn : name = other
    · subst hn
      have absent : t.names[i]? ≠ some name := fun hi => by
        have := (key name i).2 hi
        simp [h] at this
      by_cases hi : i = t.names.size
      · simp [hi]
      · simpa [hi, eq_comm] using absent
    · have beq : (name == other) = false := by simpa using hn
      by_cases hi : i = t.names.size
      · subst hi
        have : t.numbers[other]? ≠ some t.names.size := fun ho => by
          have := (key other t.names.size).1 ho
          simp at this
        simp [beq, hn, this]
      · simp [beq, hi, key other i]

/-- The number of a name, and the table that holds it. -/
def intern (t : FactTable) (name : String) : Nat × FactTable :=
  match h : t.numbers[name]? with
  | some i => (i, t)
  | none => (t.names.size, t.push name h)

end FactTable

end Waymark.Ground
