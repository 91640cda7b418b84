import Mathlib.Tactic
import Waymark.Proofs.Planning.Legible

/-!
# Names are words

The reader takes a name to end where a space or a parenthesis stands, so no name in a domain or a problem
that has been read contains one.

* `IsWord`: a text without spaces and closing parentheses;
* `Worded`, `worded_of_legible`: expressions whose names are words, as all that are read;
* `Domain.worded_of_read`, `Problem.worded_of_read`: the names in domains and problems that have been read
  are words.
-/

namespace Waymark.Planning

open Waymark.Expr

/-- The text contains neither a space nor a closing parenthesis. -/
def IsWord (s : String) : Prop := ∀ c ∈ s.toList, c ≠ ' ' ∧ c ≠ ')'

instance : DecidablePred IsWord := fun s =>
  decidable_of_iff ((s.toList.all fun c => c ≠ ' ' && c ≠ ')') = true) (by simp [IsWord])

theorem isWord_of_isName {s : String} (h : IsName s) : IsWord s := by
  intro c hc
  have hname := h.isNameChar c hc
  constructor <;> rintro rfl <;> exact absurd hname (by decide)

/-! ## Expressions -/

/-- All names in the expression are words. -/
inductive Worded : Expr → Prop
  | atom {a : String} (h : IsWord a) : Worded (.atom a)
  | list {xs : List Expr} (h : ∀ x ∈ xs, Worded x) : Worded (.list xs)

theorem worded_of_legible {x : Expr} (h : x.Legible) : Worded x := by
  induction h with
  | atom h => exact .atom (isWord_of_isName h)
  | list _ ih => exact .list ih

theorem isWord_of_worded {a : String} (h : Worded (.atom a)) : IsWord a := by
  cases h with
  | atom h => exact h

theorem forall_worded {xs : List Expr} (h : Worded (.list xs)) : ∀ x ∈ xs, Worded x := by
  cases h with
  | list h => exact h

/-! ## Domains and problems -/

/-- The names in a schema are words. -/
structure Schema.Worded (s : Schema) : Prop where
  name : IsWord s.name
  condition : ∀ x ∈ s.condition, Planning.Worded x
  effect : ∀ x ∈ s.effect, Planning.Worded x

/-- The names of constants and those in schemas are words. -/
structure Domain.Worded (domain : Domain) : Prop where
  constants : ∀ c ∈ domain.constants, IsWord c.name
  schemas : ∀ s ∈ domain.schemas, s.Worded

theorem Domain.Legible.worded {domain : Domain} (h : domain.Legible) : domain.Worded := by
  refine ⟨fun c hc => isWord_of_isName (h.constants c hc).name, fun s hs => ?_⟩
  have hschema := h.schemas s hs
  exact ⟨isWord_of_isName hschema.name, fun x hx => worded_of_legible (hschema.condition x hx).1,
    fun x hx => worded_of_legible (hschema.effect x hx).1⟩

/-- The names in a domain that has been read are words. -/
theorem Domain.worded_of_read {text : String} {domain : Domain} (h : Domain.read text = .ok domain) :
    domain.Worded := (legible_of_read h).worded

/-- The schema names of a domain that has been read are words. -/
theorem Domain.isWord_of_read {text : String} {domain : Domain} (h : Domain.read text = .ok domain) :
    ∀ s ∈ domain.schemas, IsWord s.name := fun s hs => ((worded_of_read h).schemas s hs).name

/-- The names of objects and those in the initial facts and the goal are words. -/
structure Problem.Worded (problem : Problem) : Prop where
  objects : ∀ o ∈ problem.objects, IsWord o.name
  init : ∀ x ∈ problem.init, Planning.Worded x
  goal : Planning.Worded problem.goal

/-- The names in a problem that has been read are words. -/
theorem Problem.worded_of_read {text : String} {problem : Problem} (h : Problem.read text = .ok problem) :
    problem.Worded := by
  have hlegible := Problem.legible_of_read h
  exact ⟨fun o ho => isWord_of_isName (hlegible.objects o ho).name, fun x hx => worded_of_legible (hlegible.init x hx),
    worded_of_legible hlegible.goal⟩

end Waymark.Planning
