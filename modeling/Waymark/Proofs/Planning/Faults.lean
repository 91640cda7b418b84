import Mathlib.Tactic
import Waymark.Ground.Literal
import Waymark.Proofs.Outcome
import Waymark.Proofs.Planning.Words

/-!
# Failures of reading tasks

Whatever the texts of a task are, reading them fails only because of what stands in them: it is malformed, or
it is not supported.

* `Failure.IsRefusal`, `RefusesText`: the failures that say what is wrong with the text of a task;
* `Failure.IsOfTask`, `BlamesText`: all failures that the text of a task can cause;
* `refusesText_taskText`: reading a task;
* `refusesText_readCondition`, `refusesText_readEffect`: reading conditions and effects.
-/

namespace Waymark

/-- The failure says that a text is malformed, or has parts that are not supported. -/
def Failure.IsRefusal : Failure → Prop
  | .task _ | .unsupported _ => True
  | _ => False

@[simp] theorem Failure.isRefusal_task (fault : TaskFault) : (Failure.task fault).IsRefusal := trivial

@[simp] theorem Failure.isRefusal_unsupported (feature : Feature) : (Failure.unsupported feature).IsRefusal := trivial

/-- The failure is that of a text which is refused, or has an empty initial fact. -/
def Failure.IsOfTask : Failure → Prop
  | .task _ | .unsupported _ | .emptyInitialFact => True
  | _ => False

@[simp] theorem Failure.isOfTask_task (fault : TaskFault) : (Failure.task fault).IsOfTask := trivial

@[simp] theorem Failure.isOfTask_emptyInitialFact : Failure.emptyInitialFact.IsOfTask := trivial

theorem Failure.IsRefusal.isOfTask {e : Failure} (h : e.IsRefusal) : e.IsOfTask := by
  cases e <;> trivial

/-- The computation fails only where it refuses the text of a task. -/
abbrev RefusesText {α : Type} (x : Except Failure α) : Prop := FailsOnly Failure.IsRefusal x

/-- The computation fails only because of the text of a task. -/
abbrev BlamesText {α : Type} (x : Except Failure α) : Prop := FailsOnly Failure.IsOfTask x

namespace Planning

/-! ## Domains and problems -/

@[simp] theorem refusesText_readTypedFrom (pending : List String) (items : List Expr) :
    RefusesText (readTypedFrom pending items) := by
  fun_induction readTypedFrom pending items <;> simp [*]

@[simp] theorem refusesText_readTyped (items : List Expr) : RefusesText (readTyped items) :=
  refusesText_readTypedFrom [] items

@[simp] theorem refusesText_readDefinition (kind : String) (x : Expr) : RefusesText (readDefinition kind x) := by
  fun_cases readDefinition kind x <;> simp

@[simp] theorem refusesText_readSection (x : Expr) : RefusesText (readSection x) := by
  fun_cases readSection x <;> simp

@[simp] theorem refusesText_readNames (place : String) (items : List Expr) : RefusesText (readNames place items) := by
  refine .mapM fun x _ => ?_
  cases x <;> simp

@[simp] theorem refusesText_readSchemaParts (schema : Schema) (parts : List Expr) :
    RefusesText (readSchemaParts schema parts) := by
  fun_induction readSchemaParts schema parts <;> simp [*]

@[simp] theorem refusesText_readSchema (items : List Expr) : RefusesText (readSchema items) := by
  fun_cases readSchema items <;> simp

@[simp] theorem refusesText_readPredicate (x : Expr) : RefusesText (readPredicate x) := by
  fun_cases readPredicate x <;> simp

theorem refusesText_domainSection (domain : Domain) (x : Expr) : RefusesText (domain.addSection x) := by
  unfold Domain.addSection
  simp only [failsOnly_bind, refusesText_readSection, true_and]
  rintro ⟨key, body⟩ -
  dsimp only
  have hpredicates : RefusesText (body.mapM readPredicate) := .mapM fun x _ => refusesText_readPredicate x
  split <;> simp [hpredicates]

theorem refusesText_problemSection (parts : ProblemParts) (x : Expr) : RefusesText (parts.addSection x) := by
  unfold ProblemParts.addSection
  simp only [failsOnly_bind, refusesText_readSection, true_and]
  rintro ⟨key, body⟩ -
  dsimp only
  split
  case h_5 => split <;> simp
  all_goals simp

@[simp] theorem refusesText_readExpr (text : String) : RefusesText (readExpr text) := by
  unfold readExpr
  cases Expr.readOne text.toList with
  | error fault => exact failsOnly_error.2 trivial
  | ok x => exact failsOnly_ok x

theorem refusesText_domain (text : String) : RefusesText (Domain.read text) := by
  unfold Domain.read
  simp only [failsOnly_bind, refusesText_readExpr, refusesText_readDefinition, true_and]
  rintro - - ⟨-, sections⟩ -
  exact .foldlM fun x _ domain => refusesText_domainSection domain x

theorem refusesText_problem (text : String) : RefusesText (Problem.read text) := by
  unfold Problem.read
  simp only [failsOnly_bind, refusesText_readExpr, refusesText_readDefinition, true_and]
  rintro - - ⟨-, sections⟩ -
  refine ⟨.foldlM fun x _ parts => refusesText_problemSection parts x, fun parts _ => ?_⟩
  split <;> simp

/-- Reading a task fails only where it refuses its texts. -/
theorem refusesText_taskText (task : TaskText) : RefusesText task.read := by
  unfold TaskText.read
  simp [refusesText_domain, refusesText_problem]

end Planning

/-! ## Conditions and effects -/

namespace Ground

@[simp] theorem refusesText_readArgs (whole items : List Expr) : RefusesText (readArgs whole items) := by
  refine .mapM fun x _ => ?_
  cases x <;> simp

@[simp] theorem refusesText_readLiteral (positive : Bool) (items : List Expr) :
    RefusesText (readLiteral positive items) := by
  unfold readLiteral
  split
  · simp only [failsOnly_bind, refusesText_readArgs, true_and]
    intro args _
    split
    · split <;> simp
    · split <;> simp
  · simp

@[simp] theorem refusesText_readNegation (items : List Expr) : RefusesText (readNegation items) := by
  fun_cases readNegation items <;> simp

mutual

@[simp] theorem refusesText_readCondition (x : Expr) : RefusesText (readCondition x) := by
  fun_cases readCondition x
  case case3 => simpa using refusesText_readConditions _
  all_goals simp

theorem refusesText_readConditions (xs : List Expr) : RefusesText (readConditions xs) := by
  cases xs with
  | nil => simp [readConditions]
  | cons x xs => simp [readConditions, refusesText_readCondition x, refusesText_readConditions xs]

end

mutual

@[simp] theorem refusesText_readSimpleEffect (x : Expr) : RefusesText (readSimpleEffect x) := by
  fun_cases readSimpleEffect x
  case case1 => simpa using refusesText_readSimpleEffects _
  all_goals simp

theorem refusesText_readSimpleEffects (xs : List Expr) : RefusesText (readSimpleEffects xs) := by
  cases xs with
  | nil => simp [readSimpleEffects]
  | cons x xs => simp [readSimpleEffects, refusesText_readSimpleEffect x, refusesText_readSimpleEffects xs]

end

variable {κ : Type}

@[simp] theorem refusesText_readWhen (items : List Expr) : RefusesText (Effect.readWhen (κ := κ) items) := by
  fun_cases Effect.readWhen (κ := κ) items <;> simp

variable [Number.Scale κ]

@[simp] theorem refusesText_readIncrease (items : List Expr) : RefusesText (Effect.readIncrease (κ := κ) items) := by
  have hamount (x : Expr) : RefusesText (Effect.readAmount (κ := κ) x) := by
    fun_cases Effect.readAmount (κ := κ) x <;> simp [*]
  fun_cases Effect.readIncrease (κ := κ) items <;> simp [hamount]

mutual

@[simp] theorem refusesText_readEffect (x : Expr) : RefusesText (Effect.read (κ := κ) x) := by
  fun_cases Effect.read (κ := κ) x
  case case3 => simpa using refusesText_readAllEffects _
  all_goals simp

theorem refusesText_readAllEffects (xs : List Expr) : RefusesText (Effect.readAll (κ := κ) xs) := by
  cases xs with
  | nil => simp [Effect.readAll]
  | cons x xs => simp [Effect.readAll, refusesText_readEffect x, refusesText_readAllEffects xs]

end

end Ground

end Waymark
