import Mathlib.Data.List.ReduceOption
import Mathlib.Tactic
import Waymark.Proofs.Landmark.DraftAccess

/-!
# Labels stay inside their array

Labels with checked accesses: the labels of what an action needs are read, and those of what it adds are read and
written, at the places of these facts. The facts that are found are the members of labels, so that all members of
the final labels must be facts of the task.

* `FactSet.members`, `members_eq`: the members of a set in ascending order;
* `Labels.final?`, `final?_eq_some`: the labels that no action changes;
* `Survey.labelled?`, `labelled?_eq_some`: the draft of the facts in the labels of the goals.
-/

namespace Waymark.Landmark

open Ground

variable {κ : Type}

/-! ## Checked labels -/

/-- What is in one of the sets that there are. -/
def FactSet.unions (xs : List (Option FactSet)) : FactSet := xs.reduceOption.foldl union empty

/-- The members of a set in ascending order. -/
def FactSet.members (x : FactSet) : List Nat := (List.range (x.mask.log2 + 1)).filter x.contains

namespace Labels

/-- The labels of the initial facts. -/
def initial? (t : Ground.Task κ) : Option Labels :=
  t.init.foldlM (fun ls f => setAt? ls f (some (.singleton f))) (Array.replicate t.facts.size none)

/-- What is in one of the labels of facts, none if one of them has no label yet. -/
def unionOf? (labels : Labels) : List Nat → Option (Option FactSet)
  | [] => some (some .empty)
  | f :: fs => do
    match ← labels[f]? with
    | none => return none
    | some x => return (← labels.unionOf? fs).map x.union

/-- The labels after an action with the label `cause` adds a fact, and whether they changed. -/
def addFact? (labels : Labels) (cause : FactSet) (fact : Nat) : Option (Labels × Bool) := do
  let old ← labels[fact]?
  let next := match old with
    | none => cause.insert fact
    | some old => (old.inter (cause.insert fact)).insert fact
  if old = some next then return (labels, false)
  else return (← setAt? labels fact (some next), true)

/-- The facts that a conditional effect adds to an action with the label `needs`, each with the label of what adds
it. -/
def triggered? (labels : Labels) (needs : FactSet) (e : ConditionalEffect) : Option (List (FactSet × Nat)) := do
  match ← labels.unionOf? e.needs with
  | none => return []
  | some condition => return e.adds.map (needs.union condition, ·)

/-- The facts that an action adds, each with the label of what adds it. -/
def causes? (labels : Labels) (a : Action κ) : Option (List (FactSet × Nat)) := do
  match ← labels.unionOf? a.needs with
  | none => return []
  | some needs =>
    let triggered ← a.conditional.mapM (triggered? labels needs)
    return a.adds.map (needs, ·) ++ triggered.flatten

/-- The labels after an action, and whether they changed now or before. -/
def addAction? (labels : Labels × Bool) (a : Action κ) : Option (Labels × Bool) := do
  (← causes? labels.1 a).foldlM (fun (ls, changed) (cause, fact) => do
    let (ls, now) ← addFact? ls cause fact
    return (ls, changed || now)) labels

/-- Sweeps over all actions until nothing changes. -/
def settle? (t : Ground.Task κ) : Nat → Labels → Option Labels
  | 0, labels => some labels
  | rounds + 1, labels => do
    match ← t.actions.toList.foldlM addAction? (labels, false) with
    | (labels, true) => settle? t rounds labels
    | (labels, false) => return labels

/-- The labels that no action changes. -/
def final? (t : Ground.Task κ) : Option Labels := do
  settle? t (t.facts.size * (t.facts.size + 1) + 1) (← initial? t)

end Labels

namespace Survey

/-- The facts that labels find: those in the labels of the goals. -/
def labelFacts? (s : Survey κ) (labels : Labels) : Option (List Nat) := do
  let goals ← s.task.goalNeeds.mapM fun g => labels[g]?
  (FactSet.unions goals).members.filterM s.keeps?

/-- The draft of the facts in the labels of the goals. -/
def labelled? (s : Survey κ) : Option Draft := do
  let labels ← Labels.final? s.task
  let facts ← s.labelFacts? labels
  let d := facts.foldl (fun (d : Draft) f => d.including [f] .fact) {}
  facts.zipIdx.foldlM (fun d (fact, second) => do
    let label ← labels[fact]?
    facts.zipIdx.foldlM (fun d (before, first) =>
      if label.any (·.contains before) then s.order? d first second .natural else some d) d) d

end Survey

/-! ## All places exist -/

theorem FactSet.lt_of_contains {x : FactSet} {f : Nat} (h : x.contains f = true) : f < x.mask.log2 + 1 := by
  refine Nat.lt_succ_of_le ((Nat.le_log2 ?_).2 (Nat.ge_two_pow_of_testBit h))
  rintro hzero
  rw [FactSet.contains, hzero, Nat.zero_testBit] at h
  cases h

/-- The members of a set of facts of a task are found among all facts of the task. -/
theorem FactSet.members_eq {x : FactSet} {n : Nat} (h : ∀ f, x.contains f = true → f < n) :
    x.members = (List.range n).filter x.contains := by
  have hrange {k l : Nat} (hkl : k ≤ l) (hk : ∀ f, x.contains f = true → f < k) :
      (List.range l).filter x.contains = (List.range k).filter x.contains := by
    obtain ⟨m, rfl⟩ := Nat.exists_eq_add_of_le hkl
    rw [List.range_add, List.filter_append, List.append_right_eq_self, List.filter_eq_nil_iff]
    intro f hf hcontains
    obtain ⟨i, -, rfl⟩ := List.mem_map.1 hf
    exact absurd (hk _ hcontains) (by omega)
  rcases Nat.le_total (x.mask.log2 + 1) n with hle | hle
  · exact (hrange hle fun f => FactSet.lt_of_contains).symm
  · exact hrange hle h

theorem FactSet.contains_unions (xs : List (Option FactSet)) (f : Nat) :
    (unions xs).contains f = xs.any (·.any (·.contains f)) := by
  have haux (x : FactSet) : (xs.reduceOption.foldl union x).contains f =
      (x.contains f || xs.any (·.any (·.contains f))) := by
    induction xs generalizing x with
    | nil => simp [List.reduceOption]
    | cons y xs ih =>
      cases y with
      | none => simpa using ih x
      | some y => simpa [Bool.or_assoc] using ih (x.union y)
  rw [unions, haux, contains_empty, Bool.false_or]

namespace Labels

variable {t : Ground.Task κ} {labels : Labels} {a : Action κ}

theorem read_eq_some (labels : Labels) {f : Nat} (hf : f < labels.size) : labels[f]? = some (labels.of f) :=
  getElem?_eq_some_getD hf none

theorem unionOf?_eq_some {fs : List Nat} (hfs : ∀ f ∈ fs, f < labels.size) :
    labels.unionOf? fs = some (labels.unionOf fs) := by
  induction fs with
  | nil => rfl
  | cons f fs ih =>
    obtain ⟨hf, hfs⟩ := List.forall_mem_cons.1 hfs
    rw [unionOf?, unionOf, read_eq_some labels hf, ih hfs]
    cases labels.of f with
    | none => rfl
    | some x => cases labels.unionOf fs <;> rfl

/-- What is read and written at the place of a fact of the task is there, and the places stay. -/
theorem addFact?_eq_some (cause : FactSet) {f : Nat} (hf : f < labels.size) :
    labels.addFact? cause f = some (labels.addFact cause f) ∧ (labels.addFact cause f).1.size = labels.size := by
  have hnext : labels.narrowed f cause = (match labels.of f with
      | none => cause.insert f
      | some old => (old.inter (cause.insert f)).insert f) := rfl
  rw [addFact?, addFact, read_eq_some labels hf]
  simp only [Option.bind_eq_bind, Option.bind_some, ← hnext, setAt?_eq_some hf]
  split
  · exact ⟨rfl, rfl⟩
  · exact ⟨rfl, Array.size_setIfInBounds⟩

section InBounds

variable (ht : t.InBounds)
include ht

theorem initial?_eq_some : initial? t = some (initial t) ∧ (initial t).size = t.facts.size :=
  foldlM_eq_some (fun ls : Labels => ls.size = t.facts.size) Array.size_replicate fun f hf _ hls =>
    ⟨setAt?_eq_some (hls ▸ ht.init f hf) _, Array.size_setIfInBounds.trans hls⟩

variable (hsize : labels.size = t.facts.size) (ha : a ∈ t.actions)
include hsize

include ha in
theorem causes?_eq_some : labels.causes? a = some (labels.causes a) := by
  have htriggered (needs : FactSet) : a.conditional.mapM (triggered? labels needs) =
      some (a.conditional.map fun e => match labels.unionOf e.needs with
        | none => []
        | some condition => e.adds.map (needs.union condition, ·)) := by
    refine mapM_eq_some fun e he => ?_
    rw [triggered?, unionOf?_eq_some fun f hf => hsize ▸ ht.condition ha he hf]
    cases labels.unionOf e.needs with
    | none => rfl
    | some condition => rfl
  rw [causes?, causes, unionOf?_eq_some fun f hf => hsize ▸ ht.needs ha hf]
  cases labels.unionOf a.needs with
  | none => rfl
  | some needs =>
    simp only [List.flatMap_def]
    exact congrArg (Option.bind · _) (htriggered needs)

include ha in
theorem addAction?_eq_some (changed : Bool) :
    addAction? (labels, changed) a = some (addAction (labels, changed) a) ∧
      (addAction (labels, changed) a).1.size = t.facts.size := by
  rw [addAction?, causes?_eq_some ht hsize ha]
  refine foldlM_eq_some (fun r : Labels × Bool => r.1.size = t.facts.size) hsize ?_
  rintro ⟨cause, f⟩ hf ⟨ls, changed⟩ hls
  have hlt : f < ls.size := by
    rw [hls]
    exact ht.mayAdd ha (mem_causes hf).1
  obtain ⟨hadd, hkept⟩ := addFact?_eq_some cause hlt
  dsimp only
  rw [hadd]
  exact ⟨rfl, hkept.trans hls⟩

theorem settle?_eq_some (rounds : Nat) : settle? t rounds labels = some (settle t rounds labels) := by
  induction rounds generalizing labels with
  | zero => rfl
  | succ rounds ih =>
    have hround : t.actions.toList.foldlM addAction? (labels, false) =
        some (t.actions.toList.foldl addAction (labels, false)) ∧
          (t.actions.toList.foldl addAction (labels, false)).1.size = t.facts.size :=
      foldlM_eq_some (fun r : Labels × Bool => r.1.size = t.facts.size) hsize fun a ha r hr =>
        addAction?_eq_some ht hr (Array.mem_toList_iff.1 ha) r.2
    rw [Array.foldl_toList] at hround
    rw [settle?, hround.1, settle, sweep]
    have hkept := hround.2
    generalize t.actions.foldl addAction (labels, false) = r at hkept ⊢
    obtain ⟨labels', changed⟩ := r
    cases changed with
    | false => rfl
    | true => exact ih hkept

end InBounds

theorem final?_eq_some (ht : t.InBounds) : final? t = some (final t) := by
  obtain ⟨hinitial, hkept⟩ := initial?_eq_some ht
  rw [final?, hinitial]
  exact settle?_eq_some ht hkept _

end Labels

namespace Survey

variable {s : Survey κ}

theorem labelFacts?_eq_some (hs : s.InBounds) : s.labelFacts? (Labels.final s.task) = some s.labelFacts := by
  have hformed := (Labels.sweep_final hs.task.inRange).1
  let found : FactSet := .unions (s.task.goalNeeds.map (Labels.final s.task).of)
  have hcontains (f : Nat) :
      found.contains f = s.task.goalNeeds.any fun g => ((Labels.final s.task).of g).any (·.contains f) := by
    rw [FactSet.contains_unions, List.any_map]
    rfl
  -- Everything in a label is a fact of the task, so the members are found among these.
  have hbounded (f : Nat) (hf : found.contains f = true) : f < s.task.facts.size := by
    rw [hcontains] at hf
    obtain ⟨g, -, hlabel⟩ := List.any_eq_true.1 hf
    obtain ⟨x, hx, hfx⟩ := (Option.any_eq_true ..).1 hlabel
    exact hformed.bounded g x hx f hfx
  have hkept : found.members.filterM s.keeps? = some (found.members.filter s.keeps) := by
    refine filterM_eq_some fun f hf => keeps?_eq_some hs (hbounded f ?_)
    exact (List.mem_filter.1 hf).2
  have hgoals : s.task.goalNeeds.mapM (fun g => (Labels.final s.task)[g]?) =
      some (s.task.goalNeeds.map (Labels.final s.task).of) :=
    mapM_eq_some fun g hg => Labels.read_eq_some _ (hformed.size ▸ hs.task.goalNeeds hg)
  rw [labelFacts?, hgoals]
  refine hkept.trans (congrArg some ?_)
  rw [FactSet.members_eq hbounded, List.filter_filter, labelFacts]
  exact List.filter_congr fun f _ => congrArg (s.keeps f && ·) (hcontains f)

/-- **Labels stay inside their arrays.** -/
theorem labelled?_eq_some (hs : s.InBounds) : s.labelled? = some s.labelled := by
  let start : Draft := s.labelFacts.foldl (fun (d : Draft) f => d.including [f] .fact) {}
  have hnodup : s.labelFacts.Nodup := List.nodup_range.filter _
  have hplace {f i : Nat} {d : Draft} (hd : d.candidates = start.candidates) (hf : (f, i) ∈ s.labelFacts.zipIdx) :
      f < s.task.facts.size ∧ i < d.candidates.size := by
    have hget := List.mem_zipIdx_iff_getElem?.1 hf
    refine ⟨lt_size_of_mem_labelFacts (List.mem_of_getElem? hget), ?_⟩
    simpa [hd, start, foldl_including_fact hnodup, Draft.ofFacts] using (List.getElem?_eq_some_iff.1 hget).1
  have hstart : start.InBounds s := .including_all fun _ => lt_size_of_mem_labelFacts
  have hsize := (Labels.sweep_final hs.task.inRange).1.size
  rw [labelled?, Labels.final?_eq_some hs.task]
  simp only [Option.bind_eq_bind, Option.bind_some, labelFacts?_eq_some hs]
  -- Orderings leave the landmarks as they are.
  refine (foldlM_eq_some (fun d : Draft => d.candidates = start.candidates) rfl ?_).1
  rintro ⟨fact, second⟩ hfact d hd
  dsimp only
  rw [Labels.read_eq_some (Labels.final s.task) (by rw [hsize]; exact (hplace hd hfact).1), Option.bind_some]
  refine foldlM_eq_some (fun d : Draft => d.candidates = start.candidates) hd ?_
  rintro ⟨before, first⟩ hbefore d hd
  dsimp only
  split
  · exact ⟨order?_eq_some hs (hstart.of_eq hd) (hplace hd hbefore).2 (hplace hd hfact).2 .natural,
      (s.candidates_order ..).trans hd⟩
  · exact ⟨rfl, hd⟩

end Survey

end Waymark.Landmark
