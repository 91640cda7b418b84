import Mathlib.Tactic
import Waymark.Proofs.Landmark.FirstAchievers
import Waymark.Proofs.Landmark.LabelPlans

/-!
# How drafts are built

All methods build their drafts from nothing, by adding landmarks and orderings. Hence the facts of a landmark
are in ascending order, no two landmarks have the same facts, and the first landmark of an ordering is reached
in an earlier layer than the second.

* `Survey.Drafted`: the drafts that are built so, as `drafted_found` says of those of the methods;
* `Draft.Regular`, `Survey.Drafted.regular`: what holds of them.
-/

namespace Waymark.Landmark

open Ground

variable {κ : Type} {s : Survey κ} {t : Ground.Task κ} {d : Draft}

/-- The draft is built by adding landmarks, and orderings before landmarks that it has. -/
inductive Survey.Drafted (s : Survey κ) : Draft → Prop
  | empty : s.Drafted {}
  | add {d : Draft} (h : s.Drafted d) (facts : List Nat) (kind : Kind) : s.Drafted (d.add facts kind).1
  | order {d : Draft} (h : s.Drafted d) (first : Nat) {second : Nat} (hsecond : second < d.candidates.size)
      (kind : OrderKind) : s.Drafted (s.order d first second kind)

/-! ## What holds of them -/

/-- Facts that are added are in the draft already, or are added behind all others. -/
theorem Draft.add_cases (d : Draft) (facts : List Nat) (kind : Kind) :
    (d.add facts kind).1 = d ∨ (∀ c ∈ d.candidates, c.facts ≠ ascending facts) ∧
      (d.add facts kind).1 = { d with candidates := d.candidates.push ⟨ascending facts, kind⟩ } := by
  unfold add
  dsimp only
  split
  · exact .inl rfl
  · rename_i hnone
    refine .inr ⟨fun c hc => ?_, rfl⟩
    simpa using Array.findIdx?_eq_none_iff.1 hnone c hc

/-- Facts in ascending order stand there once. -/
theorem pairwise_ascending (xs : List Nat) : (ascending xs).Pairwise (· < ·) := by
  have hsorted : (xs.mergeSort (· ≤ ·)).Pairwise fun a b => decide (a ≤ b) = true := by
    refine List.pairwise_mergeSort (fun a b c hab hbc => ?_) (fun a b => ?_) xs
    · simp only [decide_eq_true_eq] at hab hbc ⊢
      exact hab.trans hbc
    · simpa using Nat.le_total a b
  exact pairwise_lt_eraseReps (hsorted.imp of_decide_eq_true)

/-- The facts of every landmark are in ascending order and are those of no other landmark. Orderings are
between landmarks of the draft, the first of which is reached in an earlier layer. -/
structure Draft.Regular (s : Survey κ) (d : Draft) : Prop where
  ascending : ∀ c ∈ d.candidates, c.facts.Pairwise (· < ·)
  distinct : ∀ (i j : Nat) (c c' : Candidate), d.candidates[i]? = some c → d.candidates[j]? = some c' →
    c.facts = c'.facts → i = j
  layered : ∀ o ∈ d.orders, ∃ c c', d.candidates[o.first]? = some c ∧ d.candidates[o.second]? = some c' ∧
    s.isEarlier c.facts c'.facts = true

theorem Draft.Regular.add (h : d.Regular s) (facts : List Nat) (kind : Kind) : (d.add facts kind).1.Regular s := by
  rcases d.add_cases facts kind with heq | ⟨hnew, heq⟩
  · rw [heq]
    exact h
  refine ⟨fun c hc => ?_, fun i j c c' hi hj hfacts => ?_, fun o ho => ?_⟩
  · rcases Draft.mem_candidates_add hc with hc | rfl
    · exact h.ascending c hc
    · exact pairwise_ascending facts
  · rw [heq] at hi hj
    rw [Array.getElem?_push] at hi hj
    split at hi
    · split at hj
      · omega
      · obtain rfl := Option.some.inj hi
        exact absurd hfacts.symm (hnew c' (Array.mem_of_getElem? hj))
    · split at hj
      · obtain rfl := Option.some.inj hj
        exact absurd hfacts (hnew c (Array.mem_of_getElem? hi))
      · exact h.distinct i j c c' hi hj hfacts
  · rw [Draft.orders_add] at ho
    obtain ⟨c, c', hc, hc', hearlier⟩ := h.layered o ho
    exact ⟨c, c', Draft.getElem?_add hc .., Draft.getElem?_add hc' .., hearlier⟩

/-- No facts are reached earlier than others if they are none. -/
theorem Survey.isEarlier_nil (s : Survey κ) (facts : List Nat) : s.isEarlier [] facts = false := rfl

theorem Draft.Regular.order (h : d.Regular s) (first : Nat) {second : Nat} (hsecond : second < d.candidates.size)
    (kind : OrderKind) : (s.order d first second kind).Regular s := by
  refine ⟨fun c hc => ?_, fun i j c c' hi hj => ?_, fun o ho => ?_⟩
  · rw [Survey.candidates_order] at hc
    exact h.ascending c hc
  · rw [Survey.candidates_order] at hi hj
    exact h.distinct i j c c' hi hj
  · rw [Survey.candidates_order]
    rcases Survey.mem_orders_order ho with ho | ⟨-, hearlier, rfl⟩
    · exact h.layered o ho
    have hc' : d.candidates[second]? = some d.candidates[second] := Array.getElem?_eq_getElem hsecond
    have hne : d.facts first ≠ [] := by
      intro hnil
      rw [hnil, Survey.isEarlier_nil] at hearlier
      cases hearlier
    obtain ⟨c, hc, hfacts⟩ := Draft.exists_of_facts_ne_nil hne
    rw [hfacts, Draft.facts_of_getElem? hc'] at hearlier
    exact ⟨c, _, hc, hc', hearlier⟩

theorem Survey.Drafted.regular (h : s.Drafted d) : d.Regular s := by
  induction h with
  | empty => exact ⟨by simp, by simp, by simp⟩
  | add _ facts kind ih => exact ih.add facts kind
  | order _ first hsecond kind ih => exact ih.order first hsecond kind

/-! ## The methods -/

theorem Survey.Drafted.including_all (h : s.Drafted d) (fs : List Nat) :
    s.Drafted (fs.foldl (fun (d : Draft) f => d.including [f] .fact) d) :=
  List.foldlRecOn (motive := s.Drafted) _ _ h fun _ hd f _ => hd.add [f] .fact

theorem drafted_orderByExclusion (h : s.Drafted d) (first : Nat) :
    s.Drafted (s.orderByExclusion d first) ∧ (s.orderByExclusion d first).candidates = d.candidates := by
  let Good (d' : Draft) : Prop := s.Drafted d' ∧ d'.candidates = d.candidates
  unfold Survey.orderByExclusion
  dsimp only
  split
  · exact ⟨h, rfl⟩
  refine List.foldlRecOn (motive := Good) _ _ ⟨h, rfl⟩ fun d' hd' second hsecond => ?_
  have hlt : second < d'.candidates.size := hd'.2 ▸ List.mem_range.1 hsecond
  split
  · exact ⟨hd'.1.order first hlt .natural, (s.candidates_order ..).trans hd'.2⟩
  · exact hd'

theorem drafted_exhaustive (s : Survey κ) : s.Drafted s.exhaustive :=
  List.foldlRecOn (motive := s.Drafted) _ _ (Survey.Drafted.empty.including_all _)
    fun _ hd first _ => (drafted_orderByExclusion hd first).1

theorem drafted_labelled (s : Survey κ) : s.Drafted s.labelled := by
  let Good (d : Draft) : Prop := s.Drafted d ∧ d.candidates.size = s.labelFacts.length
  have hstart : Good (s.labelFacts.foldl (fun (d : Draft) f => d.including [f] .fact) {}) := by
    have hnodup : s.labelFacts.Nodup := List.nodup_range.filter _
    refine ⟨Survey.Drafted.empty.including_all _, ?_⟩
    rw [foldl_including_fact hnodup]
    simp [Draft.ofFacts]
  have hend : Good s.labelled := by
    refine List.foldlRecOn (motive := Good) _ _ hstart fun d hd p hp => ?_
    refine List.foldlRecOn (motive := Good) _ _ hd fun d hd q _ => ?_
    obtain ⟨fact, second⟩ := p
    have hsecond : second < d.candidates.size :=
      hd.2 ▸ (List.getElem?_eq_some_iff.1 (List.mem_zipIdx_iff_getElem?.1 hp)).1
    dsimp only
    split
    · exact ⟨hd.1.order q.2 hsecond .natural, (congrArg Array.size (s.candidates_order ..)).trans hd.2⟩
    · exact hd
  exact hend.1

section Backchain

variable {current : Nat}

/-- A draft in which the current landmark has its place. -/
def Drafted.At (s : Survey κ) (current : Nat) (d : Draft) : Prop := s.Drafted d ∧ current < d.candidates.size

/-- The step of backchaining: a landmark is added before the current one. -/
theorem Drafted.At.add_order (h : At s current d) (facts : List Nat) (kind : Kind) (orderKind : OrderKind) :
    At s current (s.order (d.add facts kind).1 (d.add facts kind).2.1 current orderKind) := by
  have hcurrent : current < (d.add facts kind).1.candidates.size := by
    have hkept := Draft.getElem?_add (Array.getElem?_eq_getElem h.2) facts kind
    exact (Array.getElem?_eq_some_iff.1 hkept).1
  exact ⟨(h.1.add facts kind).order _ hcurrent orderKind, by rw [Survey.candidates_order]; exact hcurrent⟩

theorem Drafted.At.addShared (h : At s current d) (shared : List Nat) :
    At s current (s.addShared current d shared).1 := by
  induction shared generalizing d with
  | nil => exact h
  | cons f shared ih =>
    unfold Survey.addShared
    split
    · exact ih h
    · exact ih (h.add_order [f] .fact .greedyNecessary)

theorem Drafted.At.addChoices (h : At s current d) (choices : List (List Nat)) :
    At s current (s.addChoices current d choices) := by
  refine List.foldlRecOn (motive := At s current) _ _ h fun d hd facts _ => ?_
  dsimp only
  split
  · exact hd
  · exact hd.add_order facts .disjunctive .greedyNecessary

theorem drafted_expand (h : s.Drafted d) (current : Nat) : s.Drafted (s.expand d current).1 := by
  unfold Survey.expand
  dsimp only
  split
  case isTrue => exact h
  rename_i hnotInitial
  split
  case isTrue => exact h
  obtain ⟨c, hc, -⟩ := Draft.exists_of_facts_ne_nil (d := d) fun hnil => hnotInitial (by rw [hnil]; rfl)
  have hat : Drafted.At s current d := ⟨h, (Array.getElem?_eq_some_iff.1 hc).1⟩
  exact ((hat.addShared _).addChoices _).1

theorem drafted_backchained (s : Survey κ) : s.Drafted s.backchained := by
  refine s.backchainFrom_keeps (P := s.Drafted) (fun _ current hd => drafted_expand hd current) ?_ _ _
  exact List.foldlRecOn (motive := fun p : Draft × List Nat => s.Drafted p.1) _ _ .empty
    fun _ hp g _ => hp.add [g] .fact

end Backchain

/-- All methods build their drafts. -/
theorem drafted_found (s : Survey κ) (category : Category) : s.Drafted (s.found category) := by
  cases category with
  | rhw => exact drafted_backchained s
  | zg => exact drafted_labelled s
  | exhaust => exact drafted_exhaustive s

end Waymark.Landmark
