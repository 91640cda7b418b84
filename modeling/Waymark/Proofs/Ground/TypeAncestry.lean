import Mathlib.Data.Finset.Card
import Mathlib.Logic.Relation
import Mathlib.Tactic
import Waymark.Ground.Grounding

/-!
# Types and their ancestors

A type declares a parent, and its ancestors are found by following parents. Declarations may go round in circles, so
the search for an ancestor looks at 64 types and gives up. It finds the ancestors that are at most 63 parents away.
Where no more than 63 names are declared these are all ancestors, since a shortest way visits no type twice.

* `IsParent`, `parentIn_eq_some_iff`: what is declared last of a type;
* `Ascends`, `reachesType_iff`: ancestors at a distance;
* `exists_ascends_le`: a shortest way takes its steps from different types;
* `isSubtype_iff_ascends`: what the search finds;
* `not_isSubtype_ladder`: an ancestor that is too far away.
-/

namespace Waymark.Ground

open Planning Relation

variable {types : List TypedName} {type parent target : String} {n : Nat}

/-! ## Parents -/

/-- The last declaration of a type gives it this parent. -/
def IsParent (types : List TypedName) (type parent : String) : Prop :=
  ∃ before after, types = before ++ ⟨type, parent⟩ :: after ∧ ∀ t ∈ after, t.name ≠ type

theorem parentIn_eq_some_iff : parentIn types type = some parent ↔ IsParent types type parent := by
  unfold parentIn IsParent
  rw [Option.map_eq_some_iff]
  constructor
  · rintro ⟨⟨_, _⟩, hfind, rfl⟩
    obtain ⟨hname, later, earlier, hsplit, hlater⟩ := List.find?_eq_some_iff_append.1 hfind
    obtain rfl := of_decide_eq_true hname
    refine ⟨earlier.reverse, later.reverse, ?_, fun t ht => ?_⟩
    · simpa using congrArg List.reverse hsplit
    · simpa using hlater t (List.mem_reverse.1 ht)
  · rintro ⟨before, after, rfl, hafter⟩
    refine ⟨⟨type, parent⟩, List.find?_eq_some_iff_append.2 ?_, rfl⟩
    exact ⟨by simp, after.reverse, before.reverse, by simp, by simpa using hafter⟩

theorem IsParent.unique {parent' : String} (h : IsParent types type parent) (h' : IsParent types type parent') :
    parent = parent' :=
  Option.some.inj ((parentIn_eq_some_iff.2 h).symm.trans (parentIn_eq_some_iff.2 h'))

theorem IsParent.mem (h : IsParent types type parent) : type ∈ types.map (·.name) := by
  obtain ⟨before, after, rfl, -⟩ := h
  simp

/-! ## Ancestors -/

/-- A type is `n` parents above another. -/
inductive Ascends (types : List TypedName) : Nat → String → String → Prop where
  | here (type : String) : Ascends types 0 type type
  | up {n : Nat} {type parent target : String} (hparent : IsParent types type parent)
      (hrest : Ascends types n parent target) : Ascends types (n + 1) type target

theorem Ascends.reflTransGen (h : Ascends types n type target) : ReflTransGen (IsParent types) type target := by
  induction h with
  | here type => exact .refl
  | up hparent _ ih => exact .head hparent ih

/-- A type that is its own parent has no other ancestors. -/
theorem Ascends.eq_of_isParent_self (h : Ascends types n type target) (hself : IsParent types type type) :
    target = type := by
  induction h with
  | here type => rfl
  | up hparent _ ih =>
    obtain rfl := hself.unique hparent
    exact ih hself

/-- The search finds the ancestors that are nearer than its number of steps. -/
theorem reachesType_iff {steps : Nat} :
    reachesType (parentIn types) target steps type = true ↔ ∃ n < steps, Ascends types n type target := by
  induction steps generalizing type with
  | zero => simp [reachesType]
  | succ steps ih =>
    by_cases heq : type = target
    · subst heq
      simp only [reachesType, ↓reduceIte, true_iff]
      exact ⟨0, steps.succ_pos, .here type⟩
    · rw [reachesType, if_neg heq]
      cases hparent : parentIn types type with
      | none =>
        simp only [Bool.false_eq_true, false_iff, not_exists, not_and]
        rintro n - h
        cases h with
        | here => exact heq rfl
        | up hup _ =>
          rw [parentIn_eq_some_iff.2 hup] at hparent
          cases hparent
      | some parent =>
        have hparent := parentIn_eq_some_iff.1 hparent
        by_cases hself : parent = type
        · subst hself
          simp only [↓reduceIte, Bool.false_eq_true, false_iff, not_exists, not_and]
          exact fun n _ h => heq (h.eq_of_isParent_self hparent).symm
        · simp only [if_neg hself]
          rw [ih]
          constructor
          · rintro ⟨n, hn, h⟩
            exact ⟨n + 1, Nat.succ_lt_succ hn, .up hparent h⟩
          · rintro ⟨n, hn, h⟩
            cases h with
            | here => exact absurd rfl heq
            | up hup h =>
              obtain rfl := hup.unique hparent
              exact ⟨_, Nat.lt_of_succ_lt_succ hn, h⟩

/-! ## Shortest ways -/

/-- The parent of a type of a pool. -/
def IsParentIn (types : List TypedName) (pool : Finset String) (type parent : String) : Prop :=
  type ∈ pool ∧ IsParent types type parent

/-- A way that leaves a type leaves it for a last time, and then goes on without it. -/
theorem avoid_of_reflTransGen {pool : Finset String} (avoided : String)
    (h : ReflTransGen (IsParentIn types pool) type target) :
    ReflTransGen (IsParentIn types (pool.erase avoided)) type target ∨
      ∃ parent, IsParent types avoided parent ∧
        ReflTransGen (IsParentIn types (pool.erase avoided)) parent target := by
  induction h using ReflTransGen.head_induction_on with
  | refl => exact .inl .refl
  | @head type parent hstep _ ih =>
    obtain ⟨hpool, hparent⟩ := hstep
    rcases ih with hrest | hlater
    · by_cases heq : type = avoided
      · exact .inr ⟨parent, heq ▸ hparent, hrest⟩
      · exact .inl (.head ⟨Finset.mem_erase.2 ⟨heq, hpool⟩, hparent⟩ hrest)
    · exact .inr hlater

/-- A shortest way takes its steps from different types of the pool. -/
theorem exists_ascends_of_pool {pool : Finset String} (h : ReflTransGen (IsParentIn types pool) type target) :
    ∃ n ≤ pool.card, Ascends types n type target := by
  induction pool using Finset.strongInduction generalizing type with
  | H pool ih =>
    rcases h.cases_head with rfl | ⟨_, ⟨hpool, -⟩, -⟩
    · exact ⟨0, Nat.zero_le _, .here type⟩
    · rcases avoid_of_reflTransGen type h with hself | ⟨parent, hparent, hrest⟩
      · -- Without its first type the way has no first step.
        rcases hself.cases_head with rfl | ⟨_, ⟨hmem, -⟩, -⟩
        · exact ⟨0, Nat.zero_le _, .here type⟩
        · exact absurd hmem (Finset.notMem_erase type pool)
      · obtain ⟨n, hn, h⟩ := ih _ (Finset.erase_ssubset hpool) hrest
        exact ⟨n + 1, hn.trans_lt (Finset.card_erase_lt_of_mem hpool), .up hparent h⟩

/-- The names that are declared. -/
def declaredTypes (types : List TypedName) : Finset String := (types.map (·.name)).toFinset

/-- Ancestors are at most as many parents away as there are declared names. -/
theorem exists_ascends_le (h : ReflTransGen (IsParent types) type target) :
    ∃ n ≤ (declaredTypes types).card, Ascends types n type target := by
  have hpool : IsParent types ≤ IsParentIn types (declaredTypes types) :=
    fun _ _ hparent => ⟨List.mem_toFinset.2 hparent.mem, hparent⟩
  exact exists_ascends_of_pool (ReflTransGen.mono hpool _ _ h)

/-! ## Subtypes -/

/-- **An object can stand for its ancestors**, as far as they are at most 63 parents away, and for everything that asks
for an object. Where at most 63 names are declared all ancestors are found, also if declarations go round in circles. -/
theorem isSubtype_iff_ascends (types : List TypedName) (type target : String) :
    (isSubtype types type target = true ↔ target = objectType ∨ ∃ n ≤ 63, Ascends types n type target) ∧
    ((declaredTypes types).card ≤ 63 →
      (isSubtype types type target = true ↔ target = objectType ∨ ReflTransGen (IsParent types) type target)) := by
  have hnear : isSubtype types type target = true ↔
      target = objectType ∨ ∃ n ≤ 63, Ascends types n type target := by
    rw [isSubtype, Bool.or_eq_true, decide_eq_true_eq, reachesType_iff]
    exact or_congr_right (exists_congr fun n => and_congr_left' Nat.lt_succ_iff)
  refine ⟨hnear, fun hfew => hnear.trans (or_congr_right ⟨?_, fun h => ?_⟩)⟩
  · rintro ⟨n, -, h⟩
    exact h.reflTransGen
  · obtain ⟨n, hn, h⟩ := exists_ascends_le h
    exact ⟨n, hn.trans hfew, h⟩

/-- Types of vehicles. Some are declared twice, and two of them stand below each other. -/
def vehicles : List TypedName :=
  [⟨"truck", "wagon"⟩, ⟨"lorry", "truck"⟩, ⟨"truck", "lorry"⟩, ⟨"lorry", "vehicle"⟩, ⟨"vehicle", "lorry"⟩]

/-- The last declaration counts, and circles do no harm. -/
theorem isSubtype_iff_ascends_vehicles : (declaredTypes vehicles).card ≤ 63 ∧
    ReflTransGen (IsParent vehicles) "truck" "vehicle" ∧ isSubtype vehicles "truck" "vehicle" = true ∧
    ¬ ReflTransGen (IsParent vehicles) "truck" "wagon" := by
  have hfew : (declaredTypes vehicles).card ≤ 63 := by decide
  have hiff (target : String) := (isSubtype_iff_ascends vehicles "truck" target).2 hfew
  have hvehicle : isSubtype vehicles "truck" "vehicle" = true := by decide
  have hwagon : isSubtype vehicles "truck" "wagon" = false := by decide
  refine ⟨hfew, ((hiff "vehicle").1 hvehicle).resolve_left (by decide), hvehicle, fun h => ?_⟩
  rw [(hiff "wagon").2 (.inr h)] at hwagon
  cases hwagon

/-! ## Ancestors that are too far away -/

/-- A rung of a ladder. -/
def rung (i : Nat) : String := "rung" ++ toString i

/-- A ladder of types, each of them below the next. -/
def ladder : List TypedName := (List.range 64).map fun i => ⟨rung i, rung (i + 1)⟩

/-- **Not all ancestors are found.** On a ladder the 64th ancestor is one too far. -/
theorem not_isSubtype_ladder : ¬ (isSubtype ladder (rung 0) (rung 64) = true ↔
    rung 64 = objectType ∨ ReflTransGen (IsParent ladder) (rung 0) (rung 64)) := by
  have hparent : ∀ i < 64, parentIn ladder (rung i) = some (rung (i + 1)) := by decide +kernel
  have hclimb : ∀ i ≤ 64, ReflTransGen (IsParent ladder) (rung 0) (rung i) := by
    intro i hi
    induction i with
    | zero => exact .refl
    | succ i ih => exact (ih (by omega)).tail (parentIn_eq_some_iff.1 (hparent i hi))
  have hmissed : isSubtype ladder (rung 0) (rung 64) = false := by decide +kernel
  intro h
  rw [h.2 (.inr (hclimb 64 le_rfl))] at hmissed
  cases hmissed

end Waymark.Ground
