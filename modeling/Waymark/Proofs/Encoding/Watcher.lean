import Waymark.Encoding.Compile
import Waymark.Proofs.Encoding.Reading

/-!
# Monitors over cells

What a monitor adds to a task, said over the cells that its fluents stand for and without expressions:
the cells that hold initially, the goal, and what an action with a label needs and does. The monitors of
several formulas are one such watcher, whose cells know their formula.

* `Watcher`, `Watcher.rule`: a monitor over cells, and its rule for a label;
* `Watcher.Spells`: expressions that say what a watcher does, with `readConditions_fluentExprs` and
  `readAll_clauseExprs` for what they are read as;
* `Watcher.joint`: the watchers of several formulas, and `spells_joint`;
* `read_watched`: a schema with what monitors add is read as the schema with the literals of a rule.
-/

namespace Waymark.Encoding

open Ground Planning Constraint Number

/-! ## Watchers -/

/-- An effect of a monitor, at once or under a condition. -/
inductive Clause (ι : Type) where
  | plain (x : Signed ι)
  | whenever (condition effects : List (Signed ι))

/-- A monitor over the cells that its fluents stand for. -/
structure Watcher (ι L : Type) where
  /-- The cells that hold initially. -/
  start : List ι
  /-- What must hold at the end. -/
  goal : List (Signed ι)
  /-- What an action with a label needs. -/
  condition : L → List (Signed ι)
  /-- What an action with a label does. -/
  clauses : L → List (Clause ι)

variable {ι L : Type}

namespace Clause

/-- The effect, if it takes place at once. -/
def plain? : Clause ι → Option (Signed ι)
  | .plain x => some x
  | .whenever .. => none

/-- The condition and the effects, if there is a condition. -/
def whenever? : Clause ι → Option (List (Signed ι) × List (Signed ι))
  | .plain _ => none
  | .whenever condition effects => some (condition, effects)

/-- The clause over the images of its cells. -/
def map {β : Type} (f : ι → β) : Clause ι → Clause β
  | .plain x => .plain (Prod.map id f x)
  | .whenever condition effects =>
    .whenever (condition.map (Prod.map id f)) (effects.map (Prod.map id f))

end Clause

/-- What an action with a label needs and does. -/
def Watcher.rule (w : Watcher ι L) (l : L) : Rule ι where
  condition := w.condition l
  effect := (w.clauses l).filterMap Clause.plain?
  conditional := (w.clauses l).filterMap Clause.whenever?

/-! ## Expressions -/

section Expressions

variable (name : ι → String)

/-- The expression of a signed fluent. -/
def fluentExpr (x : Signed ι) : Expr :=
  if x.1 then fluentAtom (name x.2) else (fluentAtom (name x.2)).negation

/-- The expression of a clause. -/
def clauseExpr : Clause ι → Expr
  | .plain x => fluentExpr name x
  | .whenever condition effects =>
    Encoding.whenever (condition.map (fluentExpr name)) (effects.map (fluentExpr name))

/-- The literal of a signed fluent. -/
def fluentLiteral (x : Signed ι) : Literal := .atom x.1 (name x.2) []

/-- The effect of a rule over fluents. -/
def fluentEffect {κ : Type} (r : Rule ι) : Effect κ where
  literals := r.effect.map (fluentLiteral name)
  conditional := r.conditional.map fun c =>
    (c.1.map (fluentLiteral name), c.2.map (fluentLiteral name))

/-- Names and expressions that say what a watcher does. -/
structure Watcher.Spells (w : Watcher ι L) (fluents : List String) (init goal : List Expr)
    (condition effect : L → List Expr) : Prop where
  fluents : ∀ f ∈ fluents, f ∈ Set.range name
  init : init = w.start.map fun c => fluentAtom (name c)
  goal : goal = w.goal.map (fluentExpr name)
  condition : ∀ l, condition l = (w.condition l).map (fluentExpr name)
  effect : ∀ l, effect l = (w.clauses l).map (clauseExpr name)

variable {name} (hname : ∀ c, name c ∉ reserved)
include hname

theorem readCondition_fluentExpr (x : Signed ι) :
    readCondition (fluentExpr name x) = .ok [fluentLiteral name x] := by
  obtain ⟨b, c⟩ := x
  have hc := hname c
  simp only [reserved, List.mem_cons, not_or] at hc
  cases b <;> simp [fluentExpr, fluentLiteral, fluentAtom, Expr.negation, readCondition, readNegation,
    conditionOperators, readLiteral, readArgs, hc, pure, Except.pure, bind, Except.bind]

theorem readConditions_fluentExprs (xs : List (Signed ι)) :
    readConditions (xs.map (fluentExpr name)) = .ok (xs.map (fluentLiteral name)) := by
  induction xs with
  | nil => rfl
  | cons x xs ih =>
    rw [List.map_cons, readConditions, readCondition_fluentExpr hname, ih]
    rfl

theorem readSimpleEffect_fluentExpr (x : Signed ι) :
    readSimpleEffect (fluentExpr name x) = .ok [fluentLiteral name x] := by
  rw [← readCondition_fluentExpr hname]
  obtain ⟨b, c⟩ := x
  have hc := hname c
  simp only [reserved, List.mem_cons, not_or] at hc
  cases b <;> simp [fluentExpr, fluentAtom, Expr.negation, readSimpleEffect, hc]

theorem readSimpleEffects_fluentExprs (xs : List (Signed ι)) :
    readSimpleEffects (xs.map (fluentExpr name)) = .ok (xs.map (fluentLiteral name)) := by
  induction xs with
  | nil => rfl
  | cons x xs ih =>
    rw [List.map_cons, readSimpleEffects, readSimpleEffect_fluentExpr hname, ih]
    rfl

theorem readSimpleEffect_conjunction (xs : List (Signed ι)) :
    readSimpleEffect (Expr.conjunction (xs.map (fluentExpr name))) =
      .ok (xs.map (fluentLiteral name)) := by
  match xs with
  | [] => rfl
  | [x] => exact readSimpleEffect_fluentExpr hname x
  | x :: y :: xs => exact readSimpleEffects_fluentExprs hname (x :: y :: xs)

variable {κ : Type} [Scale κ]

theorem read_fluentExpr (x : Signed ι) :
    Effect.read (κ := κ) (fluentExpr name x) = .ok { literals := [fluentLiteral name x] } := by
  have h := readCondition_fluentExpr hname x
  obtain ⟨b, c⟩ := x
  have hc := hname c
  simp only [reserved, List.mem_cons, not_or] at hc
  cases b
  · have hread : Effect.read (κ := κ) (fluentExpr name (false, c)) =
        (fun literals => { literals }) <$> readCondition (fluentExpr name (false, c)) := by
      simp [fluentExpr, fluentAtom, Expr.negation, Effect.read]
    rw [hread, h]
    rfl
  · have hread : Effect.read (κ := κ) (fluentExpr name (true, c)) =
        (fun literals => { literals }) <$> readCondition (fluentExpr name (true, c)) := by
      simp [fluentExpr, fluentAtom, Effect.read, hc]
    rw [hread, h]
    rfl

theorem read_whenever (condition effects : List (Signed ι)) :
    Effect.read (κ := κ)
        (Encoding.whenever (condition.map (fluentExpr name)) (effects.map (fluentExpr name))) =
      .ok { conditional :=
        [(condition.map (fluentLiteral name), effects.map (fluentLiteral name))] } := by
  have hread : Effect.read (κ := κ)
      (Encoding.whenever (condition.map (fluentExpr name)) (effects.map (fluentExpr name))) =
      Effect.readWhen [Expr.conjunction (condition.map (fluentExpr name)),
        Expr.conjunction (effects.map (fluentExpr name))] := rfl
  rw [hread, Effect.readWhen, readCondition_conjunction, readConditions_fluentExprs hname]
  show (readSimpleEffect _ >>= _) = _
  rw [readSimpleEffect_conjunction hname]
  rfl

theorem readAll_clauseExprs (cs : List (Clause ι)) :
    Effect.readAll (κ := κ) (cs.map (clauseExpr name)) =
      .ok (fluentEffect name
        ⟨[], cs.filterMap Clause.plain?, cs.filterMap Clause.whenever?⟩) := by
  induction cs with
  | nil => rfl
  | cons c cs ih =>
    rw [List.map_cons, Effect.readAll, ih]
    cases c with
    | plain x =>
      rw [clauseExpr, read_fluentExpr hname]
      rfl
    | whenever condition effects =>
      rw [clauseExpr, read_whenever hname]
      rfl

end Expressions

/-! ## Schemas -/

/-- The action with the literals of a rule over fluents. -/
def withRule {κ : Type} (name : ι → String) (r : Rule ι) (a : LiftedAction κ) : LiftedAction κ :=
  { a with
    condition := a.condition ++ r.condition.map (fluentLiteral name)
    effect := a.effect.append (fluentEffect name r) }

theorem readConditions_withConjuncts (whole : Option Expr) (added : List Expr) :
    readConditions (((withConjuncts whole added).map Expr.conjuncts).getD []) =
      readConditions ((whole.map Expr.conjuncts).getD [] ++ added) := by
  unfold withConjuncts
  split
  · rename_i h
    rw [List.isEmpty_iff.1 h, List.append_nil]
  · rw [Option.map_some, Option.getD_some, readConditions_conjuncts, readCondition_conjunction]

section Schemas

variable {κ : Type} [Scale κ]

theorem readAll_withConjuncts (whole : Option Expr) (added : List Expr) :
    Effect.readAll (κ := κ) (((withConjuncts whole added).map Expr.conjuncts).getD []) =
      Effect.readAll ((whole.map Expr.conjuncts).getD [] ++ added) := by
  unfold withConjuncts
  split
  · rename_i h
    rw [List.isEmpty_iff.1 h, List.append_nil]
  · rw [Option.map_some, Option.getD_some, Effect.readAll_conjuncts, Effect.read_conjunction]

/-- What monitors add to a schema is read as the literals of their rule. -/
theorem read_watched {name : ι → String} (hname : ∀ c, name c ∉ reserved) {w : Watcher ι Schema}
    {ws : List Watch} {fluents : List String} {init goal : List Expr}
    (hw : w.Spells name fluents init goal (addedConditions ws) (addedEffects ws)) (s : Schema) :
    LiftedAction.read (κ := κ) (watched ws s) = withRule name (w.rule s) <$> LiftedAction.read s := by
  rw [LiftedAction.read_eq, LiftedAction.read_eq, watched, readConditions_withConjuncts,
    readAll_withConjuncts, readConditions_append, Effect.readAll_append, hw.condition, hw.effect,
    readConditions_fluentExprs hname, readAll_clauseExprs hname]
  rcases readConditions ((s.condition.map Expr.conjuncts).getD []) with e | c
  · rfl
  · rcases Effect.readAll (κ := κ) ((s.effect.map Expr.conjuncts).getD []) with e | f
    · rfl
    · rfl

end Schemas

/-! ## Several formulas -/

/-- The watchers of several bound formulas with their places. The cells of a formula know its place. -/
def Watcher.joint (f : Template → Watcher ι Label) (bs : List (Binding × Nat)) :
    Watcher (Nat × ι) Schema where
  start := bs.flatMap fun b => (f b.1.formula.template).start.map (b.2, ·)
  goal := bs.flatMap fun b => (f b.1.formula.template).goal.map (Prod.map id (b.2, ·))
  condition s := bs.flatMap fun b =>
    ((f b.1.formula.template).condition (b.1.label s)).map (Prod.map id (b.2, ·))
  clauses s := bs.flatMap fun b =>
    ((f b.1.formula.template).clauses (b.1.label s)).map (Clause.map (b.2, ·))

theorem clauseExpr_map {β : Type} (name : β → String) (f : ι → β) (c : Clause ι) :
    clauseExpr name (c.map f) = clauseExpr (fun i => name (f i)) c := by
  cases c with
  | plain x => rfl
  | whenever condition effects =>
    simp only [Clause.map, clauseExpr, List.map_map]
    rfl

theorem spells_joint {name : Nat × ι → String} {f : Template → Watcher ι Label}
    {bs : List (Binding × Nat)} {ws : List Watch}
    (h : List.Forall₂ (fun b w => w.label = b.1.label ∧
      (f b.1.formula.template).Spells (fun c => name (b.2, c)) w.monitor.fluents w.monitor.init
        w.monitor.goal w.monitor.condition w.monitor.effect) bs ws) :
    (Watcher.joint f bs).Spells name (ws.flatMap (·.monitor.fluents)) (ws.flatMap (·.monitor.init))
      (addedGoals ws) (addedConditions ws) (addedEffects ws) := by
  induction h with
  | nil => exact ⟨by simp, rfl, rfl, fun _ => rfl, fun _ => rfl⟩
  | @cons b w bs ws hb _ ih =>
    obtain ⟨hl, hb⟩ := hb
    refine ⟨fun n hn => ?_, ?_, ?_, fun s => ?_, fun s => ?_⟩
    · rcases List.mem_append.1 hn with hn | hn
      · obtain ⟨c, rfl⟩ := hb.fluents n hn
        exact ⟨(b.2, c), rfl⟩
      · exact ih.fluents n hn
    · simp only [Watcher.joint, List.flatMap_cons, List.map_append, List.map_map] at ih ⊢
      rw [ih.init, hb.init]
      rfl
    · have hg := ih.goal
      simp only [addedGoals, Watcher.joint, List.flatMap_cons, List.map_append, List.map_map] at hg ⊢
      rw [hg, hb.goal]
      rfl
    · have hc := ih.condition s
      simp only [addedConditions, Watcher.joint, List.flatMap_cons, List.map_append, List.map_map]
        at hc ⊢
      rw [hc, hb.condition, hl]
      rfl
    · have hc := ih.effect s
      simp only [addedEffects, Watcher.joint, List.flatMap_cons, List.map_append, List.map_map]
        at hc ⊢
      rw [hc, hb.effect, hl]
      exact congrArg (· ++ _) (List.map_congr_left fun c _ => (clauseExpr_map name _ c).symm)

end Waymark.Encoding
