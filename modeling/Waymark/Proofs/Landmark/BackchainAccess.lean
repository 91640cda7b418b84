import Mathlib.Tactic
import Waymark.Proofs.Landmark.DraftAccess
import Waymark.Proofs.Landmark.Drafted

/-!
# Backchaining stays inside its arrays

Backchaining with checked accesses: what actions need, the names of facts, and the landmarks that wait, which
are named by their places. A draft only grows, so a place that waits is there when its turn comes.

* `Draft.Grown`: drafts that backchaining makes from a draft, with the places that wait next;
* `addShared?_eq_some`, `expand?_eq_some`: a landmark;
* `backchained?_eq_some`: all landmarks.
-/

namespace Waymark.Landmark

open Ground

variable {κ : Type} {s : Survey κ} {d : Draft} {current : Nat}

/-! ## Checked backchaining -/

namespace Survey

variable (s : Survey κ)

/-- The facts that all of some actions need, in ascending order. -/
def sharedNeeds? : List Nat → Option (List Nat)
  | [] => some []
  | a :: rest => do
    let first ← s.needs? a
    let others ← rest.mapM s.needs?
    return ascending (first.filter fun f => others.all (·.contains f))

/-- The facts that an action needs besides those in `shared`, with their predicates. -/
def otherNeeds? (shared : List Nat) (action : Nat) : Option (List (Nat × String)) := do
  ((← s.needs? action).filter (!shared.contains ·)).mapM fun f => do
    return (f, predicateOf (← s.task.facts.names[f]?))

/-- The choices of facts of one predicate such that each of the actions needs one of them. -/
def choices? (shared actions : List Nat) : Option (List (List Nat)) := do
  let others ← actions.mapM (s.otherNeeds? shared)
  let predicates := ((others.flatten.map (·.2)).mergeSort fun x y => !(y < x)).eraseReps
  return predicates.filterMap fun predicate =>
    let needed := others.map fun fs => (fs.filter (·.2 == predicate)).map (·.1)
    let facts := ascending needed.flatten
    if needed.all (!·.isEmpty) && 2 ≤ facts.length && facts.length ≤ maxChoice then some facts else none

/-- Adds the facts that all first achievers of a landmark need, and returns the new ones. -/
def addShared? (current : Nat) (d : Draft) : List Nat → Option (Draft × List Nat)
  | [] => some (d, [])
  | f :: fs =>
    if s.task.isInitial f then addShared? current d fs
    else do
      let (d, place, isNew) := d.add [f] .fact
      let (d, places) ← addShared? current (← s.order? d place current .greedyNecessary) fs
      return (d, if isNew then place :: places else places)

/-- Adds the choices of facts that the first achievers of a landmark need. -/
def addChoices? (current : Nat) (d : Draft) (choices : List (List Nat)) : Option Draft :=
  choices.foldlM (fun d facts =>
    if facts.any fun f => s.task.isInitial f || d.hasFact f then some d
    else
      let (d, place, _) := d.add facts .disjunctive
      s.order? d place current .greedyNecessary) d

/-- Adds what is found from a landmark, and returns the new landmarks to go on from. -/
def expand? (d : Draft) (current : Nat) : Option (Draft × List Nat) := do
  let c ← d.candidates[current]?
  if c.facts.all s.task.isInitial then return (d, [])
  else
    let achievers ← s.firstAchievers? c.facts
    if achievers.isEmpty then return (d, [])
    else
      let shared ← s.sharedNeeds? achievers
      let (d, places) ← s.addShared? current d shared
      return (← s.addChoices? current d (← s.choices? shared achievers), places)

/-- Goes on from the landmarks that wait. -/
def backchainFrom? : Nat → Draft → List Nat → Option Draft
  | 0, d, _ => some d
  | _, d, [] => some d
  | steps + 1, d, current :: waiting => do
    let (d, places) ← s.expand? d current
    backchainFrom? steps d (waiting ++ places)

/-- The draft of all landmarks that are found from the goals. -/
def backchained? : Option Draft :=
  let (d, places) := s.goalPlaces
  s.backchainFrom? (s.task.goalNeeds.length + s.task.facts.size) d places

end Survey

/-! ## Drafts grow -/

/-- A draft in bounds with at least the places that another one has, among them those that wait. -/
structure Draft.Grown (s : Survey κ) (d : Draft) (r : Draft × List Nat) : Prop where
  inBounds : r.1.InBounds s
  size_le : d.candidates.size ≤ r.1.candidates.size
  waiting : ∀ place ∈ r.2, place < r.1.candidates.size

theorem Draft.size_le_add (d : Draft) (facts : List Nat) (kind : Kind) :
    d.candidates.size ≤ (d.add facts kind).1.candidates.size := by
  rcases d.add_cases facts kind with heq | ⟨-, heq⟩
  · rw [heq]
  · rw [heq, Array.size_push]
    exact Nat.le_succ _

/-- What is added has its place. -/
theorem Draft.place_add_lt (d : Draft) (facts : List Nat) (kind : Kind) :
    (d.add facts kind).2.1 < (d.add facts kind).1.candidates.size := by
  obtain ⟨c, hc, -⟩ := d.exists_getElem?_add facts kind
  exact (Array.getElem?_eq_some_iff.1 hc).1

theorem Draft.Grown.refl (hd : d.InBounds s) : Grown s d (d, []) := ⟨hd, le_rfl, nofun⟩

/-- A landmark is added before the current one. -/
theorem Draft.Grown.add_order (hd : d.InBounds s) {facts : List Nat} (hfacts : ∀ f ∈ facts, f < s.task.facts.size)
    (kind : Kind) (current : Nat) :
    Grown s d (s.order (d.add facts kind).1 (d.add facts kind).2.1 current .greedyNecessary,
      [(d.add facts kind).2.1]) where
  inBounds := (hd.add hfacts kind).order _ _ _
  size_le := by
    rw [Survey.candidates_order]
    exact d.size_le_add facts kind
  waiting := by
    rw [Survey.candidates_order]
    exact List.forall_mem_singleton.2 (d.place_add_lt facts kind)

namespace Survey

theorem sharedNeeds?_eq_some {actions : List Nat} (hactions : ∀ i ∈ actions, i < s.task.actions.size) :
    s.sharedNeeds? actions = some (s.sharedNeeds actions) := by
  cases actions with
  | nil => rfl
  | cons a rest =>
    obtain ⟨ha, hrest⟩ := List.forall_mem_cons.1 hactions
    rw [sharedNeeds?, needs?_eq_some ha, mapM_eq_some fun i hi => needs?_eq_some (hrest i hi), sharedNeeds]
    simp only [Option.bind_eq_bind, Option.bind_some, List.all_map]
    rfl

section InBounds

variable (hs : s.InBounds)
include hs

theorem otherNeeds?_eq_some (shared : List Nat) {i : Nat} (hi : i < s.task.actions.size) :
    s.otherNeeds? shared i = some (((s.needs i).filter (!shared.contains ·)).map fun f =>
      (f, predicateOf (s.task.facts.name f))) := by
  rw [otherNeeds?, needs?_eq_some hi]
  refine mapM_eq_some fun f hf => ?_
  have hlt : f < s.task.facts.names.size := lt_size_of_mem_needs hs.task.needsInRange (List.mem_filter.1 hf).1
  rw [getElem?_eq_some_getD hlt ""]
  rfl

theorem choices?_eq_some (shared : List Nat) {actions : List Nat}
    (hactions : ∀ i ∈ actions, i < s.task.actions.size) :
    s.choices? shared actions = some (s.choices shared actions) := by
  rw [choices?, mapM_eq_some fun i hi => otherNeeds?_eq_some hs shared (hactions i hi)]
  have hneedsOf (predicate : String) (i : Nat) : ((((s.needs i).filter (!shared.contains ·)).map fun f =>
      (f, predicateOf (s.task.facts.name f))).filter (·.2 == predicate)).map (·.1) =
        s.needsOf shared predicate i := by
    rw [needsOf, List.filter_map, List.filter_filter, List.map_map]
    simp [Function.comp_def, Bool.and_comm]
  simp only [Option.bind_eq_bind, Option.bind_some, List.map_map, Function.comp_def, hneedsOf, List.map_flatten]
  rw [choices, predicates, List.flatMap_def]
  rfl

variable (hd : d.InBounds s)
include hd

/-- The step of backchaining stays in bounds: a landmark is added before the current one. -/
theorem order?_add_eq_some (facts : List Nat) (hfacts : ∀ f ∈ facts, f < s.task.facts.size) (kind : Kind)
    (hcurrent : current < d.candidates.size) :
    s.order? (d.add facts kind).1 (d.add facts kind).2.1 current .greedyNecessary =
      some (s.order (d.add facts kind).1 (d.add facts kind).2.1 current .greedyNecessary) :=
  order?_eq_some hs (hd.add hfacts kind) (d.place_add_lt facts kind)
    (hcurrent.trans_le (d.size_le_add facts kind)) .greedyNecessary

theorem addShared?_eq_some {shared : List Nat} (hshared : ∀ f ∈ shared, f < s.task.facts.size)
    (hcurrent : current < d.candidates.size) :
    s.addShared? current d shared = some (s.addShared current d shared) ∧
      Draft.Grown s d (s.addShared current d shared) := by
  induction shared generalizing d with
  | nil => exact ⟨rfl, .refl hd⟩
  | cons f shared ih =>
    obtain ⟨hf, hshared⟩ := List.forall_mem_cons.1 hshared
    unfold addShared? addShared
    split
    · exact ih hd hshared hcurrent
    have hfact : ∀ g ∈ [f], g < s.task.facts.size := List.forall_mem_singleton.2 hf
    have hadd := Draft.Grown.add_order hd hfact .fact current
    obtain ⟨hrest, hgrown⟩ := ih hadd.inBounds hshared (hcurrent.trans_le hadd.size_le)
    refine ⟨?_, hgrown.inBounds, hadd.size_le.trans hgrown.size_le, fun place hplace => ?_⟩
    · dsimp only
      rw [order?_add_eq_some hs hd [f] hfact .fact hcurrent]
      simp only [Option.bind_eq_bind, Option.bind_some, hrest]
      rfl
    · have hnew : (d.add [f] .fact).2.1 < _ :=
        (List.forall_mem_singleton.1 hadd.waiting).trans_le hgrown.size_le
      dsimp only at hplace
      split at hplace
      · rcases List.mem_cons.1 hplace with rfl | hplace
        · exact hnew
        · exact hgrown.waiting place hplace
      · exact hgrown.waiting place hplace

theorem addChoices?_eq_some {choices : List (List Nat)}
    (hchoices : ∀ facts ∈ choices, ∀ f ∈ facts, f < s.task.facts.size) (hcurrent : current < d.candidates.size) :
    s.addChoices? current d choices = some (s.addChoices current d choices) ∧
      Draft.Grown s d (s.addChoices current d choices, []) := by
  refine foldlM_eq_some (fun d' : Draft => Draft.Grown s d (d', [])) (.refl hd) fun facts hfacts d' hd' => ?_
  dsimp only
  split
  · exact ⟨rfl, hd'⟩
  · have hadd := Draft.Grown.add_order hd'.inBounds (hchoices facts hfacts) .disjunctive current
    refine ⟨?_, hadd.inBounds, hd'.size_le.trans hadd.size_le, nofun⟩
    exact order?_add_eq_some hs hd'.inBounds facts (hchoices facts hfacts) .disjunctive
      (hcurrent.trans_le hd'.size_le)

theorem expand?_eq_some (hcurrent : current < d.candidates.size) :
    s.expand? d current = some (s.expand d current) ∧ Draft.Grown s d (s.expand d current) := by
  have hc : d.candidates[current]? = some d.candidates[current] := Array.getElem?_eq_getElem hcurrent
  unfold expand? expand
  rw [hc, Draft.facts_of_getElem? hc]
  simp only [Option.bind_eq_bind, Option.bind_some]
  split
  case isTrue => exact ⟨rfl, .refl hd⟩
  rw [firstAchievers?_eq_some hs, Option.bind_some]
  split
  case isTrue => exact ⟨rfl, .refl hd⟩
  rename_i hsome
  have hachievers : ∀ i ∈ s.firstAchievers d.candidates[current].facts, i < s.task.actions.size :=
    fun i hi => adders_lt (List.mem_filter.1 hi).1
  obtain ⟨i, hi⟩ := List.exists_mem_of_ne_nil (s.firstAchievers d.candidates[current].facts) (by simpa using hsome)
  have hneeds {f j : Nat} (hf : f ∈ s.needs j) : f < s.task.facts.size :=
    lt_size_of_mem_needs hs.task.needsInRange hf
  obtain ⟨hshared, hgrown⟩ := addShared?_eq_some hs hd
    (fun f hf => hneeds (mem_needs_of_mem_sharedNeeds hf hi)) hcurrent
  obtain ⟨hchoices, hgrown'⟩ := addChoices?_eq_some hs hgrown.inBounds (fun facts hfacts f hf => by
    obtain ⟨j, hj⟩ := exists_needs_of_mem_choices hfacts hf
    exact hneeds hj) (hcurrent.trans_le hgrown.size_le)
  refine ⟨?_, hgrown'.inBounds, hgrown.size_le.trans hgrown'.size_le, fun place hplace => ?_⟩
  · rw [sharedNeeds?_eq_some hachievers, Option.bind_some, hshared, Option.bind_some]
    rw [choices?_eq_some hs _ hachievers, Option.bind_some, hchoices]
    rfl
  · exact (hgrown.waiting place hplace).trans_le hgrown'.size_le

theorem backchainFrom?_eq_some (steps : Nat) {waiting : List Nat}
    (hwaiting : ∀ place ∈ waiting, place < d.candidates.size) :
    s.backchainFrom? steps d waiting = some (s.backchainFrom steps d waiting) := by
  induction steps generalizing d waiting with
  | zero => rfl
  | succ steps ih =>
    cases waiting with
    | nil => rfl
    | cons current waiting =>
      obtain ⟨hcurrent, hwaiting⟩ := List.forall_mem_cons.1 hwaiting
      obtain ⟨hexpand, hgrown⟩ := expand?_eq_some hs hd hcurrent
      rw [backchainFrom?, backchainFrom, hexpand]
      refine ih hgrown.inBounds fun place hplace => ?_
      rcases List.mem_append.1 hplace with hplace | hplace
      · exact (hwaiting place hplace).trans_le hgrown.size_le
      · exact hgrown.waiting place hplace

omit hd in
theorem grown_goalPlaces : Draft.Grown s {} s.goalPlaces := by
  refine List.foldlRecOn (motive := Draft.Grown s {}) _ _ (.refl (by simp [Draft.InBounds])) fun r hr g hg => ?_
  have hgoal : ∀ f ∈ [g], f < s.task.facts.size := List.forall_mem_singleton.2 (hs.task.goalNeeds hg)
  refine ⟨hr.inBounds.add hgoal .fact, hr.size_le.trans (r.1.size_le_add [g] .fact), fun place hplace => ?_⟩
  rcases List.mem_append.1 hplace with hplace | hplace
  · exact (hr.waiting place hplace).trans_le (r.1.size_le_add [g] .fact)
  · rw [List.mem_singleton.1 hplace]
    exact r.1.place_add_lt [g] .fact

omit hd in
/-- **Backchaining stays inside its arrays.** -/
theorem backchained?_eq_some : s.backchained? = some s.backchained :=
  backchainFrom?_eq_some hs (grown_goalPlaces hs).inBounds _ (grown_goalPlaces hs).waiting

end InBounds

end Survey

end Waymark.Landmark
