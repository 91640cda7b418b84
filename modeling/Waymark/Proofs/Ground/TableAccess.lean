import Mathlib.Tactic
import Waymark.Proofs.Ground.Assignment
import Waymark.Proofs.Ground.LayerAccess

/-!
# Grounding stays inside its tables

Grounding with checked accesses. The static literals of a condition stand in rows: those that mention no
parameter in row 0, and in row `i + 1` those whose last parameter is the one at place `i`. The objects for a
parameter and the row that is checked with it are read from their places. All rows and places exist, whatever the
condition mentions. Expressions are taken apart by patterns and leave nothing to check, except that the arguments
of an initial entry are read before its name.

* `Setting.checkRows?`, `getElem?_checkRows`: the rows;
* `Setting.assignments?`, `endsAs_assignments`: the arguments with which a schema is instantiated;
* `Task.ground?`, `endsAs_ground`: the ground task.
-/

namespace Waymark.Ground

open Planning Number

variable {κ : Type}

/-! ## Checked grounding -/

/-- The row in which a literal is checked. -/
def checkLevel (params : List String) (l : Literal) : Nat := (lastMentioned? params l).elim 0 (· + 1)

/-- For each parameter the objects that it may stand for. -/
def candidates (types objects : List TypedName) (a : LiftedAction κ) : Array (List String) :=
  (a.params.map fun p => (objects.filter fun o => isSubtype types o.type p.type).map (·.name)).toArray

namespace Setting

variable (setting : Setting κ)

/-- Puts the static literals of a condition into rows, of which there is one more than there are parameters. -/
def checkRows? (params : List String) (condition : List Literal) : Option (Array (List Literal)) :=
  condition.foldlM (fun rows l =>
    if setting.isStatic l then modifyAt? rows (checkLevel params l) (· ++ [l]) else some rows)
    (Array.replicate (params.length + 1) [])

/-- Extends an assignment over the remaining parameters in all ways that pass their rows. -/
def extend? (objects : Array (List String)) (rows : Array (List Literal)) (binding : Binding)
    (args : List String) : List String → Nat × List (List String) → Checked (Nat × List (List String))
  | [], (count, done) =>
    if count + 1 > maxActions then throw (.unsupported (.actionCount maxActions))
    else return (count + 1, args.reverse :: done)
  | param :: params, done => do
    let candidates ← (objects[args.length]? : Option (List String))
    candidates.foldlM (fun done object => do
      let binding := (param, object) :: binding
      let literals ← (rows[args.length + 1]? : Option (List Literal))
      if ← setting.holdAll binding literals then
        extend? objects rows binding (object :: args) params done
      else return done) done

/-- The arguments with which a schema is instantiated. -/
def assignments? (types objects : List TypedName) (a : LiftedAction κ) : Checked (List (List String)) := do
  let params := a.params.map (·.name)
  let rows ← setting.checkRows? params a.condition
  let closed ← (rows[0]? : Option (List Literal))
  if ← setting.holdEach [] closed then
    let found ← setting.extend? (candidates types objects a) rows [] [] params (0, [])
    return found.2.reverse
  else return []

/-- Instantiates actions in their order, after those in `done`. -/
def groundActions? [Scale κ] (types objects : List TypedName) :
    List (LiftedAction κ) → Array (Action κ) → FactTable → Checked (Array (Action κ) × FactTable)
  | [], done, table => return (done, table)
  | a :: rest, done, table => do
    let found ← setting.assignments? types objects a
    let (done, table) ← setting.instantiateAll a found done table
    groundActions? types objects rest done table

end Setting

section Ground

variable [Scale κ]

/-- Reads the initial entries. To read the arguments of an empty entry is to leave it. -/
def Initial.read? (entries : List Expr) : Checked (Initial κ) :=
  match Initial.read entries ∅ with
  | .error .emptyInitialFact => ExceptT.mk none
  | found => liftM found

namespace Task

/-- The ground task before unreachable actions are dropped. -/
def groundFully? (domain : Domain) (problem : Problem) : Checked (Task κ) := do
  let actions ← (domain.schemas.mapM LiftedAction.read : Except Failure (List (LiftedAction κ)))
  let initial ← Initial.read? problem.init
  let (init, table) ← initial.facts.mapM internFact FactTable.empty
  let (actions, table) ← (Setting.of domain problem actions initial).groundActions? domain.types
    (objectsOf domain problem) actions #[] table
  let goal ← readCondition problem.goal
  let ((goalNeeds, goalForbids), facts) ← goalFacts goal table
  return { facts, init, actions, goalNeeds, goalForbids }

/-- The ground task of a domain and a problem. -/
def ground? (domain : Domain) (problem : Problem) : Checked (Task κ) := do
  let full ← groundFully? domain problem
  full.pruned?

end Task

end Ground

/-! ## All rows and places exist -/

theorem checkLevel_le (params : List String) (l : Literal) : checkLevel params l ≤ params.length := by
  unfold checkLevel
  cases h : lastMentioned? params l with
  | none => exact Nat.zero_le _
  | some i =>
    obtain ⟨arg, -, harg⟩ := List.mem_filterMap.1 (List.max?_mem h)
    obtain ⟨hlt, -⟩ := List.idxOf?_eq_some_iff.1 harg
    exact hlt

section Assignments

variable {setting : Setting κ}

/-- The rows of the static literals of a condition. -/
def Setting.checkRows (setting : Setting κ) (params : List String) (condition : List Literal) :
    Array (List Literal) :=
  (Array.range (params.length + 1)).map fun level =>
    condition.filter fun l => setting.isStatic l && checkLevel params l == level

theorem checkRows?_eq_some (setting : Setting κ) (params : List String) (condition : List Literal) :
    setting.checkRows? params condition = some (setting.checkRows params condition) := by
  induction condition using List.reverseRecOn with
  | nil => exact congrArg some (Array.ext (by simp [Setting.checkRows]) (by simp [Setting.checkRows]))
  | append_singleton condition l ih =>
    have hlevel : checkLevel params l < (setting.checkRows params condition).size := by
      rw [Setting.checkRows, Array.size_map, Array.size_range]
      exact Nat.lt_succ_of_le (checkLevel_le params l)
    rw [Setting.checkRows?] at ih ⊢
    rw [List.foldlM_append, ih]
    simp only [Option.bind_eq_bind, Option.bind_some, List.foldlM_cons, List.foldlM_nil]
    cases hstatic : setting.isStatic l with
    | false => simp [Setting.checkRows, hstatic]
    | true =>
      simp only [if_true, modifyAt?_eq_some hlevel, Option.bind_some]
      refine congrArg some (Array.ext (by simp [Setting.checkRows]) fun level h h' => ?_)
      rw [Array.getElem_modify]
      split
      · simp_all [Setting.checkRows]
      · simp_all [Setting.checkRows]

theorem getElem?_checkRows {params : List String} {level : Nat} (h : level ≤ params.length)
    (condition : List Literal) : (setting.checkRows params condition)[level]? =
      some (condition.filter fun l => setting.isStatic l && checkLevel params l == level) := by
  rw [Setting.checkRows, Array.getElem?_map, Array.getElem?_range, if_pos (Nat.lt_succ_of_le h)]
  rfl

/-- Row 0 holds the literals that mention no parameter. -/
theorem getElem?_checkRows_zero (a : LiftedAction κ) :
    (setting.checkRows (a.params.map (·.name)) a.condition)[0]? = some (setting.closedChecks a) := by
  refine (getElem?_checkRows (Nat.zero_le _) a.condition).trans (congrArg some (List.filter_congr fun l _ => ?_))
  unfold checkLevel
  cases lastMentioned? (a.params.map (·.name)) l <;> rfl

/-- What a slot says about a parameter stands in the place of the parameter and in the row after it. -/
theorem getElem?_checkRows_succ {types objects : List TypedName} {a : LiftedAction κ} {k : Nat} {slot : Slot}
    (h : (setting.slots types objects a)[k]? = some slot) :
    (candidates types objects a)[k]? = some slot.candidates ∧
      (setting.checkRows (a.params.map (·.name)) a.condition)[k + 1]? = some slot.checks := by
  rw [Setting.slots, List.getElem?_map, Option.map_eq_some_iff] at h
  obtain ⟨⟨p, i⟩, hplace, rfl⟩ := h
  obtain ⟨hp, rfl⟩ : a.params[k]? = some p ∧ k = i := by
    simpa [List.getElem?_zipIdx, and_comm, eq_comm] using hplace
  have hk : k < (a.params.map (·.name)).length := by
    rw [List.length_map]
    exact (List.getElem?_eq_some_iff.1 hp).1
  refine ⟨by rw [candidates, List.getElem?_toArray, List.getElem?_map, hp]; rfl, ?_⟩
  refine (getElem?_checkRows hk a.condition).trans ?_
  refine congrArg some (List.filter_congr fun l _ => ?_)
  unfold checkLevel
  cases lastMentioned? (a.params.map (·.name)) l <;> simp

open Checked

/-- Extending an assignment over slots reads their places and rows only. -/
theorem endsAs_extend {objects : Array (List String)} {rows : Array (List Literal)} {slots : List Slot}
    {args : List String} (hslots : ∀ (k : Nat) (slot : Slot), slots[k]? = some slot →
      objects[args.length + k]? = some slot.candidates ∧ rows[args.length + k + 1]? = some slot.checks)
    (binding : Binding) (done : Nat × List (List String)) :
    EndsAs (setting.extend? objects rows binding args (slots.map (·.param)) done)
      (setting.extend binding args slots done) := by
  induction slots generalizing binding args done with
  | nil =>
    obtain ⟨count, found⟩ := done
    rw [List.map_nil, Setting.extend?, Setting.extend]
    split
    · exact endsAs_throw _
    · exact endsAs_pure _
  | cons slot slots ih =>
    obtain ⟨hcandidates, hchecks⟩ := hslots 0 slot rfl
    refine .read hcandidates (.foldlM fun object _ done => .read hchecks ?_)
    refine (endsAs_liftM _).bind fun passes _ => ?_
    cases passes with
    | false => exact endsAs_pure done
    | true =>
      refine ih (fun k slot' hslot => ?_) _ done
      rw [List.length_cons, Nat.succ_add]
      exact hslots (k + 1) slot' hslot

theorem endsAs_assignments (types objects : List TypedName) (a : LiftedAction κ) :
    EndsAs (setting.assignments? types objects a)
      (setting.assignments (setting.slots types objects a) (setting.closedChecks a)) := by
  refine .read (checkRows?_eq_some setting _ _) (.read (getElem?_checkRows_zero a) ?_)
  refine (endsAs_liftM _).bind fun passes _ => ?_
  cases passes with
  | false => exact endsAs_pure []
  | true =>
    have hextend : EndsAs
        (setting.extend? (candidates types objects a) (setting.checkRows (a.params.map (·.name)) a.condition) [] []
          ((setting.slots types objects a).map (·.param)) (0, []))
        (setting.extend [] [] (setting.slots types objects a) (0, [])) := by
      refine endsAs_extend (fun k slot hslot => ?_) [] (0, [])
      rw [List.length_nil, Nat.zero_add]
      exact getElem?_checkRows_succ hslot
    rw [Setting.map_param_slots] at hextend
    exact hextend.bind fun found _ => endsAs_pure found.2.reverse

end Assignments

section Ground

variable [Scale κ] {setting : Setting κ} {domain : Domain} {problem : Problem}

open Checked

/-- Numbering goes on from the table that a computation leaves. -/
theorem bind_run {α β : Type} (x : Numbering α) (f : α → Numbering β) (table : FactTable) :
    (x >>= f) table = x table >>= fun p => f p.1 p.2 := rfl

/-- A computation without numbers leaves the table as it is. -/
theorem liftM_bind_run {α β : Type} (x : Except Failure α) (f : α → Numbering β) (table : FactTable) :
    ((liftM x : Numbering α) >>= f) table = x >>= fun a => f a table := by
  cases x <;> rfl

theorem endsAs_groundActions (types objects : List TypedName) (actions : List (LiftedAction κ))
    (done : Array (Action κ)) (table : FactTable) :
    EndsAs (setting.groundActions? types objects actions done table)
      (setting.groundActions types objects actions done table) := by
  induction actions generalizing done table with
  | nil => exact endsAs_pure _
  | cons a rest ih =>
    rw [Setting.groundActions?, Setting.groundActions, liftM_bind_run]
    refine (endsAs_assignments types objects a).bind fun found _ => ?_
    rw [bind_run]
    exact (endsAs_liftM _).bind fun p _ => ih p.1 p.2

/-- Without an empty entry, reading the initial entries never leaves one. -/
theorem endsAs_readInitial (h : .list [] ∉ problem.init) :
    EndsAs (Initial.read? (κ := κ) problem.init) (Initial.read problem.init ∅) := by
  have hrefuses := refusesText_initial (κ := κ) h ∅
  unfold Initial.read?
  split
  · rename_i hempty
    exact (hrefuses _ hempty).elim
  · exact endsAs_liftM _

example : Initial.read? (κ := Double) [.list []] = ExceptT.mk none := rfl

theorem endsAs_groundFully (h : .list [] ∉ problem.init) :
    EndsAs (Task.groundFully? (κ := κ) domain problem) (Task.groundFully domain problem) := by
  unfold Task.groundFully? Task.groundFully
  refine (endsAs_liftM _).bind fun actions _ => (endsAs_readInitial h).bind fun initial _ => ?_
  dsimp only [StateT.run]
  rw [bind_run, map_bind]
  refine (endsAs_liftM _).bind fun init _ => ?_
  rw [bind_run, map_bind]
  refine (endsAs_groundActions _ _ actions #[] init.2).bind fun done _ => ?_
  rw [liftM_bind_run, map_bind]
  refine (endsAs_liftM _).bind fun goal _ => ?_
  rw [bind_run, map_bind]
  exact (endsAs_liftM _).bind fun found _ => endsAs_pure _

/-- **Grounding stays inside its tables**, unless an initial entry is the empty list. -/
theorem endsAs_ground (h : .list [] ∉ problem.init) :
    EndsAs (Task.ground? (κ := κ) domain problem) (Task.ground domain problem) := by
  have hprune : Task.ground (κ := κ) domain problem = Task.groundFully domain problem >>= fun t => .ok t.pruned := by
    unfold Task.ground
    cases Task.groundFully (κ := κ) domain problem <;> rfl
  rw [hprune]
  exact (endsAs_groundFully h).bind fun full hfull =>
    endsAs_some (Task.pruned?_eq_some (inBounds_of_groundFully hfull))

end Ground

end Waymark.Ground
