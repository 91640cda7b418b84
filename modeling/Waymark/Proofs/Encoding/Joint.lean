import Waymark.Proofs.Constraint.Acceptance
import Waymark.Proofs.Encoding.Faithful

/-!
# Several formulas at once

The watchers of several formulas act side by side, each on the cells of its own formula. Together they
follow the automata of all formulas, which take their steps together.

* `jointMachine`: the automata of several bound formulas as one, with `accepts_jointMachine`;
* `slice`: the cells of one formula, with `allows_joint` and `slice_next`;
* `faithful_joint`: watchers that follow their automata do so together.
-/

namespace Waymark.Encoding

open Ground Planning Constraint

/-! ## Automata side by side -/

/-- The successors of the states of several automata, none if one has none. -/
def stepAll (s : Schema) : List Binding → List Nat → Option (List Nat)
  | b :: bs, q :: qs => do
    let q' ← b.formula.template.step q (b.label s)
    let qs' ← stepAll s bs qs
    return q' :: qs'
  | _, _ => some []

/-- The states are states of the automata. -/
def ValidStates (bs : List Binding) (qs : List Nat) : Prop :=
  List.Forall₂ (fun b q => q < b.formula.template.stateCount) bs qs

theorem stepAll_cons {s : Schema} {b : Binding} {bs : List Binding} {q : Nat} {qs qs' : List Nat} :
    stepAll s (b :: bs) (q :: qs) = some qs' ↔
      ∃ q' rest, b.formula.template.step q (b.label s) = some q' ∧ stepAll s bs qs = some rest ∧
        qs' = q' :: rest := by
  simp only [stepAll, Option.bind_eq_bind, Option.bind_eq_some_iff, Option.pure_def,
    Option.some.injEq]
  constructor
  · rintro ⟨q', hq, rest, hrest, rfl⟩
    exact ⟨q', rest, hq, hrest, rfl⟩
  · rintro ⟨q', rest, hq, hrest, rfl⟩
    exact ⟨q', hq, rest, hrest, rfl⟩

theorem validStates_stepAll {s : Schema} {bs : List Binding} {qs qs' : List Nat}
    (h : ValidStates bs qs) (hstep : stepAll s bs qs = some qs') : ValidStates bs qs' := by
  induction h generalizing qs' with
  | nil =>
    cases hstep
    exact .nil
  | cons hq _ ih =>
    obtain ⟨q', rest, hq', hrest, rfl⟩ := stepAll_cons.1 hstep
    exact .cons (step_lt hq hq') (ih hrest)

/-- The automata of bound formulas, which take their steps together. -/
def jointMachine (bs : List Binding) : Machine (List Nat) Schema where
  start := bs.map fun _ => 0
  step qs s := stepAll s bs qs
  accepting qs := (bs.zip qs).all fun p => p.1.formula.template.accepting p.2
  valid := ValidStates bs
  valid_start := by
    induction bs with
    | nil => exact .nil
    | cons b bs ih => exact .cons (stateCount_pos _) ih
  valid_step := validStates_stepAll

section GetElem

variable {bs : List Binding} {qs qs' : List Nat} {s : Schema} {i : Nat} {b : Binding} {q : Nat}

theorem ValidStates.getElem? (h : ValidStates bs qs) (hb : bs[i]? = some b) :
    ∃ q, qs[i]? = some q ∧ q < b.formula.template.stateCount := by
  induction h generalizing i with
  | nil => simp at hb
  | cons hq _ ih =>
    cases i with
    | zero =>
      obtain rfl := Option.some.inj hb
      exact ⟨_, rfl, hq⟩
    | succ i => exact ih hb

theorem stepAll_some (hstep : stepAll s bs qs = some qs') (hb : bs[i]? = some b)
    (hq : qs[i]? = some q) :
    ∃ q', qs'[i]? = some q' ∧ b.formula.template.step q (b.label s) = some q' := by
  induction bs generalizing qs qs' i with
  | nil => simp at hb
  | cons b' bs ih =>
    cases qs with
    | nil => simp at hq
    | cons q₀ qs =>
      obtain ⟨q', rest, hq', hrest, rfl⟩ := stepAll_cons.1 hstep
      cases i with
      | zero =>
        obtain rfl := Option.some.inj hb
        obtain rfl := Option.some.inj hq
        exact ⟨q', rfl, hq'⟩
      | succ i =>
        have hrec := ih hrest (i := i) hb hq
        exact hrec

theorem stepAll_none (hstep : stepAll s bs qs = none) :
    ∃ (i : Nat) (b : Binding) (q : Nat), bs[i]? = some b ∧ qs[i]? = some q ∧
      b.formula.template.step q (b.label s) = none := by
  induction bs generalizing qs with
  | nil => cases qs <;> cases hstep
  | cons b bs ih =>
    cases qs with
    | nil => cases hstep
    | cons q qs =>
      cases hq : b.formula.template.step q (b.label s) with
      | none => exact ⟨0, b, q, rfl, rfl, hq⟩
      | some q' =>
        cases hrest : stepAll s bs qs with
        | none =>
          obtain ⟨i, b', q'', hb, hq', hnone⟩ := ih hrest
          exact ⟨i + 1, b', q'', hb, hq', hnone⟩
        | some rest =>
          rw [stepAll_cons.2 ⟨q', rest, hq, hrest, rfl⟩] at hstep
          cases hstep

theorem accepting_jointMachine (h : ValidStates bs qs) :
    (jointMachine bs).accepting qs = true ↔
      ∀ (i : Nat) (b : Binding) (q : Nat), bs[i]? = some b → qs[i]? = some q →
        b.formula.template.accepting q = true := by
  induction h with
  | nil => simp [jointMachine]
  | @cons b q bs qs _ _ ih =>
    simp only [jointMachine, List.zip_cons_cons, List.all_cons, Bool.and_eq_true] at ih ⊢
    rw [ih]
    constructor
    · rintro ⟨hq, h⟩ (_ | i) b' q' hb' hq'
      · obtain rfl := Option.some.inj hb'
        obtain rfl := Option.some.inj hq'
        exact hq
      · exact h i b' q' hb' hq'
    · intro h
      exact ⟨h 0 b q rfl rfl, fun i b' q' hb' hq' => h (i + 1) b' q' hb' hq'⟩

end GetElem

/-- All automata accept exactly if each of them accepts the labels that it reads. -/
theorem accepts_jointMachine {bs : List Binding} {ss : List Schema} {qs : List Nat}
    (h : ValidStates bs qs) :
    (jointMachine bs).Accepts qs ss ↔
      ∀ (i : Nat) (b : Binding) (q : Nat), bs[i]? = some b → qs[i]? = some q →
        ∃ q', b.formula.template.runFrom q (ss.map b.label) = some q' ∧
          b.formula.template.accepting q' = true := by
  induction ss generalizing qs with
  | nil =>
    rw [Machine.accepts_nil, accepting_jointMachine h]
    simp [Template.runFrom_nil]
  | cons s ss ih =>
    rw [Machine.accepts_cons]
    constructor
    · rintro ⟨qs', hstep, hacc⟩ i b q hb hq
      obtain ⟨q', hq', hqq⟩ := stepAll_some hstep hb hq
      obtain ⟨q'', hrun, hq''⟩ := (ih (validStates_stepAll h hstep)).1 hacc i b q' hb hq'
      exact ⟨q'', by rw [List.map_cons, Template.runFrom_cons, hqq]; exact hrun, hq''⟩
    · intro hall
      have hrun {i : Nat} {b : Binding} {q : Nat} (hb : bs[i]? = some b) (hq : qs[i]? = some q) :
          ∃ q', b.formula.template.step q (b.label s) = some q' ∧
            ∃ q'', b.formula.template.runFrom q' (ss.map b.label) = some q'' ∧
              b.formula.template.accepting q'' = true := by
        obtain ⟨q'', hrun, hacc⟩ := hall i b q hb hq
        rw [List.map_cons, Template.runFrom_cons, Option.bind_eq_some_iff] at hrun
        obtain ⟨q', hq', hrun⟩ := hrun
        exact ⟨q', hq', q'', hrun, hacc⟩
      cases hstep : stepAll s bs qs with
      | none =>
        obtain ⟨i, b, q, hb, hq, hnone⟩ := stepAll_none hstep
        obtain ⟨q', hq', -⟩ := hrun hb hq
        exact absurd (hnone.symm.trans hq') nofun
      | some qs' =>
        refine ⟨qs', hstep, (ih (validStates_stepAll h hstep)).2 fun i b q' hb hq' => ?_⟩
        obtain ⟨q, hq, -⟩ := ValidStates.getElem? h hb
        obtain ⟨q₁, hq₁, hstep₁⟩ := stepAll_some hstep hb hq
        obtain rfl := Option.some.inj (hq'.symm.trans hq₁)
        obtain ⟨q₂, hq₂, hacc⟩ := hrun hb hq
        obtain rfl := Option.some.inj (hstep₁.symm.trans hq₂)
        exact hacc

theorem accepts_jointMachine_start {bs : List Binding} {ss : List Schema} :
    (jointMachine bs).Accepts (jointMachine bs).start ss ↔
      ∀ b ∈ bs, b.formula.template.Accepts (ss.map b.label) := by
  rw [accepts_jointMachine (jointMachine bs).valid_start]
  constructor
  · intro h b hb
    obtain ⟨i, hi⟩ := List.getElem?_of_mem hb
    exact h i b 0 hi (by simp only [jointMachine, List.getElem?_map, hi, Option.map_some])
  · intro h i b q hb hq
    simp only [jointMachine, List.getElem?_map, hb, Option.map_some, Option.some.injEq] at hq
    subst hq
    exact h b (List.mem_of_getElem? hb)

/-! ## Watchers side by side -/

variable {ι : Type}

/-- The cells of one formula. -/
def slice (i : Nat) (M : Set (Nat × ι)) : Set ι := {c | (i, c) ∈ M}

theorem mem_slice {i : Nat} {M : Set (Nat × ι)} {c : ι} : c ∈ slice i M ↔ (i, c) ∈ M := Iff.rfl

section Joint

variable {f : Template → Watcher ι Label} {bs : List Binding} {s : Schema} {i : Nat} {b : Binding}
  {M : Set (Nat × ι)}

/-- The rule of one of the formulas for a schema. -/
def ruleOf (f : Template → Watcher ι Label) (s : Schema) (b : Binding) : Rule ι :=
  (f b.formula.template).rule (b.label s)

theorem rule_joint (f : Template → Watcher ι Label) (bs : List (Binding × Nat)) (s : Schema) :
    (Watcher.joint f bs).rule s =
      { condition := bs.flatMap fun b => (ruleOf f s b.1).condition.map (Prod.map id (b.2, ·))
        effect := bs.flatMap fun b => (ruleOf f s b.1).effect.map (Prod.map id (b.2, ·))
        conditional := bs.flatMap fun b => (ruleOf f s b.1).conditional.map fun c =>
          (c.1.map (Prod.map id (b.2, ·)), c.2.map (Prod.map id (b.2, ·))) } := by
  have hplain (g : ι → Nat × ι) (c : Clause ι) :
      (c.map g).plain? = c.plain?.map (Prod.map id g) := by cases c <;> rfl
  have hwhenever (g : ι → Nat × ι) (c : Clause ι) : (c.map g).whenever? =
      c.whenever?.map fun c => (c.1.map (Prod.map id g), c.2.map (Prod.map id g)) := by cases c <;> rfl
  simp only [Watcher.rule, Watcher.joint, ruleOf, List.filterMap_flatMap, List.filterMap_map,
    Function.comp_def, hplain, hwhenever, List.map_filterMap]

theorem allHold_map_slice {xs : List (Signed ι)} :
    AllHold M (xs.map (Prod.map id (i, ·))) ↔ AllHold (slice i M) xs := by
  simp only [AllHold, List.forall_mem_map]
  exact Iff.rfl

theorem allHold_joint {g : Binding → List (Signed ι)} :
    AllHold M (bs.zipIdx.flatMap fun b => (g b.1).map (Prod.map id (b.2, ·))) ↔
      ∀ i b, bs[i]? = some b → AllHold (slice i M) (g b) := by
  simp only [AllHold, List.forall_mem_flatMap]
  constructor
  · intro h i b hb
    exact allHold_map_slice.1 (h (b, i) (List.mk_mem_zipIdx_iff_getElem?.2 hb))
  · rintro h ⟨b, i⟩ hb
    exact allHold_map_slice.2 (h i b (List.mk_mem_zipIdx_iff_getElem?.1 hb))

theorem mem_joint {g : Binding → List (Signed ι)} {x : Bool} {c : ι} :
    (x, (i, c)) ∈ bs.zipIdx.flatMap (fun b => (g b.1).map (Prod.map id (b.2, ·))) ↔
      ∃ b, bs[i]? = some b ∧ (x, c) ∈ g b := by
  constructor
  · intro h
    obtain ⟨⟨b, j⟩, hb, hmem⟩ := List.mem_flatMap.1 h
    obtain ⟨_, hx, he⟩ := Rule.mem_map_signed.1 hmem
    obtain ⟨rfl, rfl⟩ := Prod.mk.inj he
    exact ⟨b, List.mk_mem_zipIdx_iff_getElem?.1 hb, hx⟩
  · rintro ⟨b, hb, hx⟩
    exact List.mem_flatMap.2 ⟨(b, i), List.mk_mem_zipIdx_iff_getElem?.2 hb,
      Rule.mem_map_signed.2 ⟨c, hx, rfl⟩⟩

theorem allows_joint :
    ((Watcher.joint f bs.zipIdx).rule s).Allows M ↔
      ∀ i b, bs[i]? = some b → (ruleOf f s b).Allows (slice i M) := by
  rw [rule_joint]
  exact allHold_joint (g := fun b => (ruleOf f s b).condition)

theorem causes_joint {x : Bool} {c : ι} :
    ((Watcher.joint f bs.zipIdx).rule s).Causes M (x, (i, c)) ↔
      ∃ b, bs[i]? = some b ∧ (ruleOf f s b).Causes (slice i M) (x, c) := by
  rw [rule_joint]
  constructor
  · rintro (h | ⟨e, he, hall, h⟩)
    · obtain ⟨b, hb, hx⟩ := mem_joint (g := fun b => (ruleOf f s b).effect) |>.1 h
      exact ⟨b, hb, .inl hx⟩
    · obtain ⟨⟨b, j⟩, hb, he⟩ := List.mem_flatMap.1 he
      obtain ⟨d, hd, rfl⟩ := List.mem_map.1 he
      obtain ⟨_, hx, he⟩ := Rule.mem_map_signed.1 h
      obtain ⟨rfl, rfl⟩ := Prod.mk.inj he
      exact ⟨b, List.mk_mem_zipIdx_iff_getElem?.1 hb, .inr ⟨d, hd, allHold_map_slice.1 hall, hx⟩⟩
  · rintro ⟨b, hb, h | ⟨d, hd, hall, h⟩⟩
    · exact .inl (mem_joint (g := fun b => (ruleOf f s b).effect) |>.2 ⟨b, hb, h⟩)
    · refine .inr ⟨(d.1.map (Prod.map id (i, ·)), d.2.map (Prod.map id (i, ·))), ?_,
        allHold_map_slice.2 hall, Rule.mem_map_signed.2 ⟨c, h, rfl⟩⟩
      exact List.mem_flatMap.2 ⟨(b, i), List.mk_mem_zipIdx_iff_getElem?.2 hb,
        List.mem_map.2 ⟨d, hd, rfl⟩⟩

/-- Each formula sees only its own cells change. -/
theorem slice_next (hb : bs[i]? = some b) :
    slice i (((Watcher.joint f bs.zipIdx).rule s).next M) = (ruleOf f s b).next (slice i M) := by
  ext c
  have hcauses (x : Bool) : ((Watcher.joint f bs.zipIdx).rule s).Causes M (x, (i, c)) ↔
      (ruleOf f s b).Causes (slice i M) (x, c) := by
    rw [causes_joint]
    constructor
    · rintro ⟨b', hb', h⟩
      obtain rfl := Option.some.inj (hb.symm.trans hb')
      exact h
    · exact fun h => ⟨b, hb, h⟩
  rw [mem_slice, Rule.mem_next, Rule.mem_next, hcauses, hcauses, mem_slice]

end Joint

/-! ## Faithful together -/

/-- The cells that hold in states of several automata. -/
def jointCells (cells : Template → Nat → Set ι) (bs : List Binding) (qs : List Nat) : Set (Nat × ι) :=
  {x | ∃ b q, bs[x.1]? = some b ∧ qs[x.1]? = some q ∧ x.2 ∈ cells b.formula.template q}

/-- The cells of some formula are doomed. -/
def jointDoomed (doomed : Template → Set ι → Prop) (bs : List Binding) (M : Set (Nat × ι)) : Prop :=
  ∃ i b, bs[i]? = some b ∧ doomed b.formula.template (slice i M)

section Faithful

variable {f : Template → Watcher ι Label} {bs : List Binding} {cells : Template → Nat → Set ι}
  {doomed : Template → Set ι → Prop}

theorem slice_jointCells {qs : List Nat} {i q : Nat} {b : Binding} (hb : bs[i]? = some b)
    (hq : qs[i]? = some q) : slice i (jointCells cells bs qs) = cells b.formula.template q := by
  ext c
  constructor
  · rintro ⟨b', q', hb', hq', hc⟩
    obtain rfl := Option.some.inj (hb.symm.trans hb')
    obtain rfl := Option.some.inj (hq.symm.trans hq')
    exact hc
  · exact fun hc => ⟨b, q, hb, hq, hc⟩

variable (h : ∀ b ∈ bs, Faithful (f b.formula.template) (templateMachine b.formula.template)
  (cells b.formula.template) (doomed b.formula.template))
include h

theorem faithful_at {i : Nat} {b : Binding} (hb : bs[i]? = some b) :
    Faithful (f b.formula.template) (templateMachine b.formula.template) (cells b.formula.template)
      (doomed b.formula.template) := h b (List.mem_of_getElem? hb)

theorem start_joint :
    {c | c ∈ (Watcher.joint f bs.zipIdx).start} = jointCells cells bs (jointMachine bs).start := by
  ext ⟨i, c⟩
  constructor
  · intro hc
    obtain ⟨⟨b, j⟩, hb, hmem⟩ := List.mem_flatMap.1 hc
    obtain ⟨d, hd, he⟩ := List.mem_map.1 hmem
    obtain ⟨rfl, rfl⟩ := Prod.mk.inj he
    have hb := List.mk_mem_zipIdx_iff_getElem?.1 hb
    refine ⟨b, 0, hb, by simp only [jointMachine, List.getElem?_map, hb, Option.map_some], ?_⟩
    exact (Set.ext_iff.1 (faithful_at h hb).start d).1 hd
  · rintro ⟨b, q, hb, hq, hc⟩
    have hzero : q = 0 := by
      simp only [jointMachine, List.getElem?_map, hb] at hq
      exact (Option.some.inj hq).symm
    subst hzero
    exact List.mem_flatMap.2 ⟨(b, i), List.mk_mem_zipIdx_iff_getElem?.2 hb,
      List.mem_map_of_mem ((Set.ext_iff.1 (faithful_at h hb).start c).2 hc)⟩

section States

variable {qs qs' : List Nat} {s : Schema} (hvalid : ValidStates bs qs)
include hvalid

theorem allows_joint_of_step (hstep : stepAll s bs qs = some qs') :
    ((Watcher.joint f bs.zipIdx).rule s).Allows (jointCells cells bs qs) := by
  refine allows_joint.2 fun i b hb => ?_
  obtain ⟨q, hq, hlt⟩ := ValidStates.getElem? hvalid hb
  obtain ⟨q', -, hq'⟩ := stepAll_some hstep hb hq
  rw [slice_jointCells hb hq]
  exact ((faithful_at h hb).step_some hlt hq').1

theorem next_joint_of_step (hstep : stepAll s bs qs = some qs') :
    ((Watcher.joint f bs.zipIdx).rule s).next (jointCells cells bs qs) = jointCells cells bs qs' := by
  ext ⟨i, c⟩
  cases hb : bs[i]? with
  | none =>
    have hnone (b : Binding) : bs[i]? ≠ some b := by simp [hb]
    constructor
    · rintro (hc | ⟨⟨b, _, hb', -⟩, -⟩)
      · obtain ⟨b, hb', -⟩ := causes_joint.1 hc
        exact (hnone b hb').elim
      · exact (hnone b hb').elim
    · rintro ⟨b, _, hb', -⟩
      exact (hnone b hb').elim
  | some b =>
    obtain ⟨q, hq, hlt⟩ := ValidStates.getElem? hvalid hb
    obtain ⟨q', hq', hqq⟩ := stepAll_some hstep hb hq
    rw [← mem_slice, ← mem_slice, slice_next hb, slice_jointCells hb hq, slice_jointCells hb hq',
      ruleOf, ((faithful_at h hb).step_some hlt hqq).2]

/-- Where one automaton has no successor, the cells of its formula are doomed. -/
theorem doomed_joint_of_step (hstep : stepAll s bs qs = none)
    (hallows : ((Watcher.joint f bs.zipIdx).rule s).Allows (jointCells cells bs qs)) :
    jointDoomed doomed bs (((Watcher.joint f bs.zipIdx).rule s).next (jointCells cells bs qs)) := by
  obtain ⟨i, b, q, hb, hq, hnone⟩ := stepAll_none hstep
  refine ⟨i, b, hb, ?_⟩
  obtain ⟨q', hq', hlt⟩ := ValidStates.getElem? hvalid hb
  obtain rfl := Option.some.inj (hq.symm.trans hq')
  have hone := allows_joint.1 hallows i b hb
  rw [slice_next hb]
  rw [slice_jointCells hb hq] at hone ⊢
  exact (faithful_at h hb).step_none hlt hnone hone

theorem goal_joint_iff :
    AllHold (jointCells cells bs qs) (Watcher.joint f bs.zipIdx).goal ↔
      (jointMachine bs).accepting qs = true := by
  have hgoal : AllHold (jointCells cells bs qs) (Watcher.joint f bs.zipIdx).goal ↔
      ∀ i b, bs[i]? = some b →
        AllHold (slice i (jointCells cells bs qs)) (f b.formula.template).goal :=
    allHold_joint (g := fun b => (f b.formula.template).goal)
  rw [accepting_jointMachine hvalid, hgoal]
  constructor
  · intro hall i b q hb hq
    obtain ⟨q', hq', hlt⟩ := ValidStates.getElem? hvalid hb
    obtain rfl := Option.some.inj (hq.symm.trans hq')
    have hone := hall i b hb
    rw [slice_jointCells hb hq] at hone
    exact ((faithful_at h hb).goal_iff hlt).1 hone
  · intro hall i b hb
    obtain ⟨q, hq, hlt⟩ := ValidStates.getElem? hvalid hb
    rw [slice_jointCells hb hq]
    exact ((faithful_at h hb).goal_iff hlt).2 (hall i b q hb hq)

/-- The cells tell the states of all automata apart. -/
theorem jointCells_injective (hvalid' : ValidStates bs qs')
    (heq : jointCells cells bs qs = jointCells cells bs qs') : qs = qs' := by
  refine List.ext_getElem? fun i => ?_
  cases hb : bs[i]? with
  | none =>
    have hlen := List.getElem?_eq_none_iff.1 hb
    rw [List.getElem?_eq_none (hvalid.length_eq ▸ hlen),
      List.getElem?_eq_none (hvalid'.length_eq ▸ hlen)]
  | some b =>
    obtain ⟨q, hq, hlt⟩ := ValidStates.getElem? hvalid hb
    obtain ⟨q', hq', hlt'⟩ := ValidStates.getElem? hvalid' hb
    have hcells := congrArg (slice i) heq
    rw [slice_jointCells hb hq, slice_jointCells hb hq'] at hcells
    rw [hq, hq', (faithful_at h hb).injective hlt hlt' hcells]

end States

/-- **Watchers of several formulas follow their automata.** -/
theorem faithful_joint :
    Faithful (Watcher.joint f bs.zipIdx) (jointMachine bs) (jointCells cells bs)
      (jointDoomed doomed bs) where
  start := start_joint h
  step_some hvalid hstep := ⟨allows_joint_of_step h hvalid hstep, next_joint_of_step h hvalid hstep⟩
  step_none hvalid hstep hallows := doomed_joint_of_step h hvalid hstep hallows
  goal_iff hvalid := goal_joint_iff h hvalid
  doomed_next := by
    rintro M s ⟨i, b, hb, hM⟩
    refine ⟨i, b, hb, ?_⟩
    rw [slice_next hb]
    exact (faithful_at h hb).doomed_next _ hM
  not_goal := by
    rintro M ⟨i, b, hb, hM⟩ hgoal
    have hall := allHold_joint (g := fun b => (f b.formula.template).goal) |>.1 hgoal
    exact (faithful_at h hb).not_goal hM (hall i b hb)
  injective hvalid hvalid' heq := jointCells_injective h hvalid hvalid' heq

end Faithful

end Waymark.Encoding
