import Mathlib.Data.Finset.Prod
import Mathlib.Tactic
import Waymark.Landmark.Labels
import Waymark.Proofs.Ground.Path

/-!
# Labels settle

A round over the actions that changes a label gives a fact its first label or takes something out of one,
so the rounds come to an end, at labels that no action changes. There the label of a fact that an action
adds holds nothing but the fact itself and what is in the labels of what the action needs.

* `Labels.WellFormed`: labels hold their own facts, and those of initial facts hold nothing else;
* `Labels.allowed`, `Labels.Round`: what labels leave open, and what a round does to it;
* `Labels.sweep_final`, `Labels.stable_final`: the final labels do not change.
-/

namespace Waymark.Landmark

open Ground

variable {κ : Type}

/-! ## Sets of facts -/

namespace FactSet

variable {x y : FactSet} {f g : Nat}

@[simp] theorem contains_empty (g : Nat) : empty.contains g = false := Nat.zero_testBit g

@[simp] theorem contains_singleton (f g : Nat) : (singleton f).contains g = decide (f = g) := by
  rw [contains, singleton, Nat.one_shiftLeft, Nat.testBit_two_pow]

@[simp] theorem contains_union (x y : FactSet) (g : Nat) :
    (x.union y).contains g = (x.contains g || y.contains g) := Nat.testBit_or ..

@[simp] theorem contains_inter (x y : FactSet) (g : Nat) :
    (x.inter y).contains g = (x.contains g && y.contains g) := Nat.testBit_and ..

@[simp] theorem contains_insert (x : FactSet) (f g : Nat) :
    (x.insert f).contains g = (x.contains g || decide (f = g)) := by
  rw [insert, contains_union, contains_singleton]

theorem ext_contains (h : ∀ g, x.contains g = y.contains g) : x = y :=
  congrArg mk (Nat.eq_of_testBit_eq h)

end FactSet

namespace Labels

variable {t : Ground.Task κ} {labels : Labels} {f g : Nat} {x cause : FactSet}

/-! ## Labels of several facts -/

/-- Facts that all have labels have a label together. -/
theorem exists_unionOf {fs : List Nat} (h : ∀ f ∈ fs, ∃ x, labels.of f = some x) :
    ∃ x, labels.unionOf fs = some x := by
  induction fs with
  | nil => exact ⟨_, rfl⟩
  | cons f fs ih =>
    obtain ⟨hf, hfs⟩ := List.forall_mem_cons.1 h
    obtain ⟨x, hx⟩ := hf
    obtain ⟨y, hy⟩ := ih hfs
    exact ⟨x.union y, by rw [unionOf, hx, hy]; rfl⟩

/-- What is in the label of several facts is in the label of one of them. -/
theorem exists_of_contains_unionOf {fs : List Nat} (h : labels.unionOf fs = some x)
    (hg : x.contains g = true) : ∃ f ∈ fs, ∃ y, labels.of f = some y ∧ y.contains g = true := by
  induction fs generalizing x with
  | nil =>
    obtain rfl := Option.some.inj h
    rw [FactSet.contains_empty] at hg
    cases hg
  | cons f fs ih =>
    rw [unionOf] at h
    obtain ⟨y, hy, h⟩ := Option.bind_eq_some_iff.1 h
    obtain ⟨z, hz, h⟩ := Option.bind_eq_some_iff.1 h
    obtain rfl := Option.some.inj h
    rw [FactSet.contains_union, Bool.or_eq_true] at hg
    rcases hg with hg | hg
    · exact ⟨f, List.mem_cons_self, y, hy, hg⟩
    · obtain ⟨f', hf', found⟩ := ih hz hg
      exact ⟨f', List.mem_cons_of_mem _ hf', found⟩

/-! ## Well-formed labels -/

/-- The set holds facts of the task only. -/
def Bounded (t : Ground.Task κ) (x : FactSet) : Prop := ∀ g, x.contains g = true → g < t.facts.size

/-- There is a place for the label of every fact. Labels hold their own facts, and facts of the task only.
An initial fact is alone in its label. -/
structure WellFormed (t : Ground.Task κ) (labels : Labels) : Prop where
  size : labels.size = t.facts.size
  own : ∀ f x, labels.of f = some x → x.contains f = true
  bounded : ∀ f x, labels.of f = some x → Bounded t x
  init : ∀ f ∈ t.init, labels.of f = some (.singleton f)

theorem of_setIfInBounds (labels : Labels) (f g : Nat) (x : Option FactSet) :
    of (labels.setIfInBounds f x) g = if f = g ∧ f < labels.size then x else labels.of g := by
  simp only [of, Array.getD_eq_getD_getElem?, Array.getElem?_setIfInBounds]
  by_cases hfg : f = g
  · subst hfg
    by_cases hf : f < labels.size
    · simp [hf]
    · simp [hf]
  · simp [hfg]

/-- The labels with facts that are alone in their labels. -/
def alone (labels : Labels) (fs : List Nat) : Labels :=
  fs.foldl (fun ls f => ls.setIfInBounds f (some (.singleton f))) labels

theorem size_alone (labels : Labels) (fs : List Nat) : (labels.alone fs).size = labels.size := by
  induction fs generalizing labels with
  | nil => rfl
  | cons f fs ih => exact (ih _).trans Array.size_setIfInBounds

theorem of_alone (labels : Labels) (fs : List Nat) (f : Nat) :
    (labels.alone fs).of f = if f ∈ fs ∧ f < labels.size then some (.singleton f) else labels.of f := by
  induction fs generalizing labels with
  | nil => simp [alone]
  | cons g fs ih =>
    have hcons : labels.alone (g :: fs) = alone (labels.setIfInBounds g (some (.singleton g))) fs := rfl
    rw [hcons, ih, of_setIfInBounds, Array.size_setIfInBounds]
    by_cases hfg : g = f
    · subst hfg
      by_cases hlt : g < labels.size
      · simp [hlt]
      · simp [hlt]
    · simp [hfg, Ne.symm hfg]

theorem wellFormed_initial (ht : t.InRange) : WellFormed t (initial t) := by
  have hof (f : Nat) : (initial t).of f = if f ∈ t.init then some (.singleton f) else none := by
    have hnone : of (Array.replicate t.facts.size none) f = none := by
      rw [of, Array.getD_eq_getD_getElem?, Array.getElem?_replicate]
      split
      · rfl
      · rfl
    refine (of_alone (Array.replicate t.facts.size none) t.init f).trans ?_
    simp only [hnone, Array.size_replicate, and_iff_left_of_imp (ht.init f)]
  have hinit {f : Nat} {x : FactSet} (hx : (initial t).of f = some x) : f ∈ t.init ∧ x = .singleton f := by
    rw [hof] at hx
    split at hx
    · rename_i hf
      exact ⟨hf, (Option.some.inj hx).symm⟩
    · cases hx
  refine ⟨?size, fun f x hx => ?own, fun f x hx g hg => ?bounded, fun f hf => ?init⟩
  case size => exact (size_alone _ _).trans Array.size_replicate
  case own =>
    obtain ⟨-, rfl⟩ := hinit hx
    simp
  case bounded =>
    obtain ⟨hf, rfl⟩ := hinit hx
    have hfg : f = g := by simpa using hg
    exact hfg ▸ ht.init f hf
  case init => rw [hof, if_pos hf]

/-! ## Rounds -/

/-- A fact may be in the label of a fact, which anything may be as long as there is no label. -/
def allows (labels : Labels) (f g : Nat) : Bool := (labels.of f).all (·.contains g)

/-- What may be in labels, and for each fact without a label one thing more. -/
def allowed (t : Ground.Task κ) (labels : Labels) : Finset (Nat × Nat) :=
  (Finset.range t.facts.size ×ˢ Finset.range (t.facts.size + 1)).filter fun p => labels.allows p.1 p.2

theorem card_allowed_le (t : Ground.Task κ) (labels : Labels) :
    (allowed t labels).card ≤ t.facts.size * (t.facts.size + 1) := by
  refine (Finset.card_filter_le _ _).trans (le_of_eq ?_)
  rw [Finset.card_product, Finset.card_range, Finset.card_range]

/-- Labels after labels, and whether they changed: if so, less is allowed. -/
structure Round (t : Ground.Task κ) (labels : Labels) (r : Labels × Bool) : Prop where
  wellFormed : WellFormed t r.1
  same : r.2 = false → r.1 = labels
  less : r.2 = true → (allowed t r.1).card < (allowed t labels).card

theorem Round.refl (h : WellFormed t labels) : Round t labels (labels, false) := ⟨h, fun _ => rfl, nofun⟩

theorem Round.trans {r r' : Labels × Bool} (h : Round t labels r) (h' : Round t r.1 r') :
    Round t labels (r'.1, r.2 || r'.2) where
  wellFormed := h'.wellFormed
  same hsame := by
    obtain ⟨hr, hr'⟩ := Bool.or_eq_false_iff.1 hsame
    exact (h'.same hr').trans (h.same hr)
  less hless := by
    rcases Bool.eq_false_or_eq_true r.2 with hr | hr
    · rcases Bool.eq_false_or_eq_true r'.2 with hr' | hr'
      · exact (h'.less hr').trans (h.less hr)
      · rw [h'.same hr']
        exact h.less hr
    · rw [hr, Bool.false_or] at hless
      exact (h.same hr ▸ h'.less hless :)

theorem contains_narrowed (h : WellFormed t labels) :
    (labels.narrowed f cause).contains g = (labels.allows f g && (cause.insert f).contains g) := by
  unfold narrowed allows
  cases hf : labels.of f with
  | none => simp
  | some old =>
    rw [Option.all_some, FactSet.contains_insert, FactSet.contains_inter]
    by_cases hfg : f = g
    · subst hfg
      simp [h.own f old hf]
    · simp [hfg]

/-! ### One fact -/

/-- The labels after an action with the label `cause` has added a fact. -/
def narrow (labels : Labels) (f : Nat) (cause : FactSet) : Labels :=
  labels.setIfInBounds f (some (labels.narrowed f cause))

section Narrow

variable (h : WellFormed t labels) (hf : f < t.facts.size)
include h

include hf in
theorem of_narrow (cause : FactSet) (g : Nat) :
    (labels.narrow f cause).of g = if f = g then some (labels.narrowed f cause) else labels.of g := by
  rw [narrow]
  simp only [of_setIfInBounds, h.size, and_iff_left hf]

theorem contains_narrowed_self (f : Nat) (cause : FactSet) : (labels.narrowed f cause).contains f = true := by
  rw [contains_narrowed h, FactSet.contains_insert, decide_eq_true rfl, Bool.or_true, Bool.and_true]
  unfold allows
  cases hold : labels.of f with
  | none => rfl
  | some old => exact h.own f old hold

include hf

theorem bounded_narrowed (hcause : Bounded t cause) : Bounded t (labels.narrowed f cause) := by
  intro g hg
  rw [contains_narrowed h, Bool.and_eq_true, FactSet.contains_insert, Bool.or_eq_true,
    decide_eq_true_iff] at hg
  rcases hg.2 with hg | rfl
  · exact hcause g hg
  · exact hf

theorem wellFormed_narrow (hcause : Bounded t cause) : WellFormed t (labels.narrow f cause) := by
  refine ⟨?size, fun g x hx => ?own, fun g x hx => ?bounded, fun g hg => ?init⟩
  case size => exact Array.size_setIfInBounds.trans h.size
  case own =>
    rw [of_narrow h hf] at hx
    split at hx
    · rename_i hfg
      exact Option.some.inj hx ▸ hfg ▸ contains_narrowed_self h f cause
    · exact h.own g x hx
  case bounded =>
    rw [of_narrow h hf] at hx
    split at hx
    · exact Option.some.inj hx ▸ bounded_narrowed h hf hcause
    · exact h.bounded g x hx
  case init =>
    rw [of_narrow h hf]
    split
    · rename_i hfg
      subst hfg
      refine congrArg some (FactSet.ext_contains fun g => ?_)
      rw [contains_narrowed h, allows, h.init f hg, Option.all_some, FactSet.contains_insert,
        FactSet.contains_singleton]
      by_cases hfg : f = g
      · simp [hfg]
      · simp [hfg]
    · exact h.init g hg

/-- A label that changes loses something that was allowed. -/
theorem exists_disallowed (hcause : Bounded t cause) (hne : labels.of f ≠ some (labels.narrowed f cause)) :
    ∃ g < t.facts.size + 1, labels.allows f g = true ∧ (labels.narrowed f cause).contains g = false := by
  cases hold : labels.of f with
  | none =>
    refine ⟨t.facts.size, Nat.lt_succ_self _, by simp [allows, hold], ?_⟩
    rw [Bool.eq_false_iff]
    exact fun hmem => absurd (bounded_narrowed h hf hcause _ hmem) (lt_irrefl _)
  | some old =>
    by_contra hnone
    push Not at hnone
    refine hne (hold.trans (congrArg some (FactSet.ext_contains fun g => ?_)))
    have hallows : labels.allows f g = old.contains g := by rw [allows, hold]; rfl
    rcases Bool.eq_false_or_eq_true (old.contains g) with hg | hg
    · have hlt := h.bounded f old hold g hg
      rw [hg, eq_comm]
      simpa using hnone g (Nat.lt_succ_of_lt hlt) (hallows.trans hg)
    · rw [hg, contains_narrowed h, hallows, hg, Bool.false_and]

theorem card_allowed_narrow_lt (hcause : Bounded t cause)
    (hne : labels.of f ≠ some (labels.narrowed f cause)) :
    (allowed t (labels.narrow f cause)).card < (allowed t labels).card := by
  obtain ⟨g, hg, hallowed, hnot⟩ := exists_disallowed h hf hcause hne
  refine Finset.card_lt_card (Finset.ssubset_iff_of_subset ?_ |>.2 ⟨(f, g), ?_, ?_⟩)
  · intro p hp
    obtain ⟨hrange, hp⟩ := Finset.mem_filter.1 hp
    refine Finset.mem_filter.2 ⟨hrange, ?_⟩
    rw [allows, of_narrow h hf] at hp
    split at hp
    · rename_i hfp
      rw [Option.all_some, contains_narrowed h, Bool.and_eq_true] at hp
      exact hfp ▸ hp.1
    · exact hp
  · exact Finset.mem_filter.2 ⟨Finset.mem_product.2 ⟨Finset.mem_range.2 hf, Finset.mem_range.2 hg⟩, hallowed⟩
  · intro hmem
    have hallows := (Finset.mem_filter.1 hmem).2
    rw [allows, of_narrow h hf, if_pos rfl, Option.all_some, hnot] at hallows
    cases hallows

theorem round_addFact (hcause : Bounded t cause) : Round t labels (labels.addFact cause f) := by
  unfold addFact
  dsimp only
  split
  · exact .refl h
  · rename_i hne
    exact ⟨wellFormed_narrow h hf hcause, nofun, fun _ => card_allowed_narrow_lt h hf hcause hne⟩

end Narrow

/-! ### Actions -/

/-- What an action adds, and the labels that come with it. -/
theorem mem_causes {a : Action κ} (h : (cause, f) ∈ labels.causes a) :
    a.mayAdd f = true ∧ ∃ x, labels.unionOf a.needs = some x ∧
      (cause = x ∨ ∃ e ∈ a.conditional, ∃ y, labels.unionOf e.needs = some y ∧ cause = x.union y) := by
  unfold causes at h
  split at h
  · cases h
  rename_i x hx
  rw [Action.mayAdd, Bool.or_eq_true, List.any_eq_true]
  rcases List.mem_append.1 h with h | h
  · obtain ⟨g, hg, heq⟩ := List.mem_map.1 h
    obtain ⟨rfl, rfl⟩ := Prod.mk.inj heq
    exact ⟨.inl (List.contains_iff_mem.2 hg), x, hx, .inl rfl⟩
  · obtain ⟨e, he, h⟩ := List.mem_flatMap.1 h
    split at h
    · cases h
    rename_i y hy
    obtain ⟨g, hg, heq⟩ := List.mem_map.1 h
    obtain ⟨rfl, rfl⟩ := Prod.mk.inj heq
    exact ⟨.inr ⟨e, he, List.contains_iff_mem.2 hg⟩, x, hx, .inr ⟨e, he, y, hy, rfl⟩⟩

theorem bounded_unionOf (h : WellFormed t labels) {fs : List Nat} (hx : labels.unionOf fs = some x) :
    Bounded t x := by
  intro g hg
  obtain ⟨f, -, y, hy, hg⟩ := exists_of_contains_unionOf hx hg
  exact h.bounded f y hy g hg

theorem bounded_of_mem_causes (h : WellFormed t labels) {a : Action κ} (hmem : (cause, f) ∈ labels.causes a) :
    Bounded t cause := by
  obtain ⟨-, x, hx, hcause⟩ := mem_causes hmem
  rcases hcause with rfl | ⟨e, -, y, hy, rfl⟩
  · exact bounded_unionOf h hx
  · intro g hg
    rw [FactSet.contains_union, Bool.or_eq_true] at hg
    exact hg.elim (bounded_unionOf h hx g) (bounded_unionOf h hy g)

/-- Steps one after the other, and whether one of them changed something. -/
def stepAll {α : Type} (s : Labels → α → Labels × Bool) : List α → Labels → Labels × Bool
  | [], labels => (labels, false)
  | x :: xs, labels =>
    ((stepAll s xs (s labels x).1).1, (s labels x).2 || (stepAll s xs (s labels x).1).2)

theorem foldl_eq_stepAll {α : Type} {s : Labels → α → Labels × Bool}
    {f : Labels × Bool → α → Labels × Bool}
    (hf : ∀ r x, f r x = ((s r.1 x).1, r.2 || (s r.1 x).2)) (xs : List α) (r : Labels × Bool) :
    xs.foldl f r = ((stepAll s xs r.1).1, r.2 || (stepAll s xs r.1).2) := by
  induction xs generalizing r with
  | nil => simp [stepAll]
  | cons x xs ih => rw [List.foldl_cons, ih, hf, stepAll, Bool.or_assoc]

theorem addAction_eq (r : Labels × Bool) (a : Action κ) :
    addAction r a = ((stepAll (fun ls p => ls.addFact p.1 p.2) (causes r.1 a) r.1).1,
      r.2 || (stepAll (fun ls p => ls.addFact p.1 p.2) (causes r.1 a) r.1).2) := by
  unfold addAction
  exact foldl_eq_stepAll (s := fun ls (p : FactSet × Nat) => ls.addFact p.1 p.2) (fun _ _ => rfl) _ r

theorem sweep_eq (t : Ground.Task κ) (labels : Labels) :
    sweep t labels = stepAll (fun ls a => addAction (ls, false) a) t.actions.toList labels := by
  rw [sweep, ← Array.foldl_toList, foldl_eq_stepAll (s := fun ls a => addAction (ls, false) a), Bool.false_or]
  intro r a
  rw [addAction_eq, addAction_eq (r.1, false), Bool.false_or]

/-- Steps that are rounds make a round. If that changes nothing, none of the steps does. -/
theorem round_stepAll {α : Type} {s : Labels → α → Labels × Bool} {xs : List α}
    (hstep : ∀ x ∈ xs, ∀ ls, WellFormed t ls → Round t ls (s ls x)) (h : WellFormed t labels) :
    Round t labels (stepAll s xs labels) ∧
      ((stepAll s xs labels).2 = false → ∀ x ∈ xs, (s labels x).2 = false) := by
  induction xs generalizing labels with
  | nil => exact ⟨.refl h, by simp⟩
  | cons x xs ih =>
    obtain ⟨hx, hxs⟩ := List.forall_mem_cons.1 hstep
    have hround := hx labels h
    obtain ⟨hrest, hunchanged⟩ := ih hxs hround.wellFormed
    refine ⟨hround.trans hrest, fun hfalse => ?_⟩
    obtain ⟨hnow, hlater⟩ := Bool.or_eq_false_iff.1 hfalse
    refine List.forall_mem_cons.2 ⟨hnow, ?_⟩
    have hsame := hunchanged hlater
    rwa [hround.same hnow] at hsame

/-- The label of every fact that the action adds is what the action would make it. -/
def Stable (labels : Labels) (a : Action κ) : Prop :=
  ∀ p ∈ causes labels a, labels.of p.2 = some (labels.narrowed p.2 p.1)

theorem round_addAction (ht : t.InRange) (h : WellFormed t labels) {a : Action κ} (ha : a ∈ t.actions) :
    Round t labels (addAction (labels, false) a) ∧
      ((addAction (labels, false) a).2 = false → Stable labels a) := by
  rw [addAction_eq, Bool.false_or]
  obtain ⟨hround, hunchanged⟩ := round_stepAll
    (s := fun ls p => ls.addFact p.1 p.2) (fun p (hp : p ∈ causes labels a) ls hls =>
      round_addFact hls (ht.adds a ha p.2 (mem_causes hp).1) (bounded_of_mem_causes h hp)) h
  refine ⟨hround, fun hfalse p hp => ?_⟩
  have hadd := hunchanged hfalse p hp
  unfold addFact at hadd
  dsimp only at hadd
  split at hadd
  · assumption
  · cases hadd

theorem round_sweep (ht : t.InRange) (h : WellFormed t labels) :
    Round t labels (sweep t labels) ∧ ((sweep t labels).2 = false → ∀ a ∈ t.actions, Stable labels a) := by
  rw [sweep_eq]
  obtain ⟨hround, hunchanged⟩ := round_stepAll
    (s := fun ls a => addAction (ls, false) a)
    (fun a (ha : a ∈ t.actions.toList) ls hls => (round_addAction ht hls (Array.mem_toList_iff.1 ha)).1) h
  refine ⟨hround, fun hfalse a ha => ?_⟩
  exact (round_addAction ht h ha).2 (hunchanged hfalse a (Array.mem_toList_iff.2 ha))

/-! ### The final labels -/

/-- With more rounds than there are pairs that are allowed, the labels settle. -/
theorem settle_spec (ht : t.InRange) (rounds : Nat) (labels : Labels) (h : WellFormed t labels)
    (hrounds : (allowed t labels).card < rounds) :
    WellFormed t (settle t rounds labels) ∧
      sweep t (settle t rounds labels) = (settle t rounds labels, false) := by
  induction rounds generalizing labels with
  | zero => omega
  | succ rounds ih =>
    have hround := (round_sweep ht h).1
    unfold settle
    split
    · rename_i next hnext
      rw [hnext] at hround
      have hless : (allowed t next).card < (allowed t labels).card := hround.less rfl
      exact ih next hround.wellFormed (by omega)
    · rename_i next hnext
      rw [hnext] at hround
      obtain rfl := hround.same rfl
      exact ⟨h, hnext⟩

/-- **The rounds come to an end**: there is a round that leaves the final labels as they are. -/
theorem sweep_final (ht : t.InRange) :
    WellFormed t (final t) ∧ sweep t (final t) = (final t, false) :=
  settle_spec ht _ _ (wellFormed_initial ht) (Nat.lt_succ_of_le (card_allowed_le t _))

theorem stable_final (ht : t.InRange) {a : Action κ} (ha : a ∈ t.actions) : Stable (final t) a := by
  obtain ⟨hformed, hsweep⟩ := sweep_final ht
  exact (round_sweep ht hformed).2 (by rw [hsweep]) a ha

end Labels

end Waymark.Landmark
