import Waymark.Ground.Grounding
import Waymark.Proofs.Encoding.Names
import Waymark.Proofs.Ground.Rule
import Waymark.Proofs.Outcome

/-!
# Reading what monitors add

Conjuncts are read one after the other, so that a condition, an effect or a goal with further conjuncts
is read as what it was together with what these are read as. The literals of an expression are over the
predicates that it mentions.

* `readConditions_conjuncts`, `readAll_conjuncts`: a conjunction is read as its conjuncts;
* `Expr.predicates`, `usedPredicates`: the predicates of expressions and tasks, with
  `mem_predicates_of_readCondition` and `mem_predicates_of_read`;
* `LiftedAction.avoids_of_read`: a schema that mentions none of some predicates has no literals over them.
-/

namespace Waymark.Ground

open Number

/-! ## Conjunctions -/

theorem readConditions_append (xs ys : List Expr) :
    readConditions (xs ++ ys) =
      (do return (← readConditions xs) ++ (← readConditions ys)) := by
  induction xs with
  | nil => rcases h : readConditions ys with e | ls <;> simp only [List.nil_append, h] <;> rfl
  | cons x xs ih =>
    simp only [List.cons_append, readConditions, ih, bind_assoc, pure_bind, List.append_assoc]

theorem readConditions_singleton (x : Expr) : readConditions [x] = readCondition x := by
  rw [readConditions]
  rcases readCondition x with e | ls
  · rfl
  · exact congrArg Except.ok (List.append_nil ls)

mutual

/-- A condition is read as its conjuncts are. -/
theorem readConditions_conjuncts : ∀ x : Expr, readConditions x.conjuncts = readCondition x
  | .atom a => readConditions_singleton (.atom a)
  | .list [] => rfl
  | .list (.atom op :: items) => by
    unfold Expr.conjuncts
    split
    · rename_i hop
      rw [readConditions_conjunctsAll items, readCondition, if_pos hop]
    · exact readConditions_singleton _
  | .list (.list xs :: items) => readConditions_singleton (.list (.list xs :: items))

theorem readConditions_conjunctsAll :
    ∀ xs : List Expr, readConditions (Expr.conjunctsAll xs) = readConditions xs
  | [] => rfl
  | x :: xs => by
    rw [Expr.conjunctsAll, readConditions_append, readConditions_conjuncts x,
      readConditions_conjunctsAll xs, readConditions]

end

theorem readCondition_conjunction (xs : List Expr) :
    readCondition (Expr.conjunction xs) = readConditions xs := by
  unfold Expr.conjunction
  split
  · exact (readConditions_singleton _).symm
  · rw [readCondition, if_pos rfl]

namespace Effect

variable {κ : Type}

theorem append_empty (e : Effect κ) : e.append {} = e := by
  simp [append]

theorem empty_append (e : Effect κ) : append {} e = e := by
  simp [append]

theorem append_assoc (e f g : Effect κ) : (e.append f).append g = e.append (f.append g) := by
  simp [append, Option.or_assoc]

variable [Scale κ]

theorem readAll_append (xs ys : List Expr) :
    readAll (κ := κ) (xs ++ ys) = (do return (← readAll xs).append (← readAll ys)) := by
  induction xs with
  | nil =>
    rcases h : readAll (κ := κ) ys with e | f
    · simp only [List.nil_append, h]
      rfl
    · simp only [List.nil_append, h]
      exact congrArg Except.ok (empty_append f).symm
  | cons x xs ih =>
    simp only [List.cons_append, readAll, ih, bind_assoc, pure_bind, append_assoc]

theorem readAll_singleton (x : Expr) : readAll (κ := κ) [x] = read x := by
  rw [readAll]
  rcases read (κ := κ) x with e | f
  · rfl
  · exact congrArg Except.ok (append_empty f)

mutual

/-- An effect is read as its conjuncts are. -/
theorem readAll_conjuncts : ∀ x : Expr, readAll (κ := κ) x.conjuncts = read x
  | .atom a => readAll_singleton (.atom a)
  | .list [] => rfl
  | .list (.atom op :: items) => by
    unfold Expr.conjuncts
    split
    · rename_i hop
      rw [readAll_conjunctsAll items, read, if_pos hop]
    · exact readAll_singleton _
  | .list (.list xs :: items) => readAll_singleton (.list (.list xs :: items))

theorem readAll_conjunctsAll :
    ∀ xs : List Expr, readAll (κ := κ) (Expr.conjunctsAll xs) = readAll xs
  | [] => rfl
  | x :: xs => by
    rw [Expr.conjunctsAll, readAll_append, readAll_conjuncts x, readAll_conjunctsAll xs, readAll]

end

theorem read_conjunction (xs : List Expr) : read (κ := κ) (Expr.conjunction xs) = readAll xs := by
  unfold Expr.conjunction
  split
  · exact (readAll_singleton _).symm
  · rw [read, if_pos rfl]

end Effect

end Waymark.Ground

/-! ## Predicates -/

namespace Waymark

open Ground Planning

mutual

/-- The names that stand at the heads of the parts of an expression, of its atoms among them. -/
def Expr.predicates : Expr → List String
  | .atom _ => []
  | .list [] => []
  | .list (.atom op :: items) =>
    op :: if ["and", "not", "when"].contains op then Expr.predicatesAll items else []
  | .list (.list _ :: _) => []

/-- The same for several expressions in turn. -/
def Expr.predicatesAll : List Expr → List String
  | [] => []
  | x :: xs => x.predicates ++ Expr.predicatesAll xs

end

theorem Expr.mem_predicates_connective {op p : String} {items : List Expr}
    (hop : op ∈ ["and", "not", "when"]) (h : p ∈ predicatesAll items) :
    p ∈ (Expr.list (.atom op :: items)).predicates := by
  rw [predicates, if_pos (List.contains_iff_mem.2 hop)]
  exact List.mem_cons_of_mem _ h

namespace Ground

/-- None of the predicates is among those that are excluded. -/
def Literal.Avoids (F : String → Prop) (l : Literal) : Prop := ∀ p, l.predicate? = some p → ¬ F p

theorem head_of_readLiteral {positive : Bool} {items : List Expr} {l : Literal} {p : String}
    (h : readLiteral positive items = .ok l) (hp : l.predicate? = some p) :
    items.head? = some (.atom p) := by
  unfold readLiteral at h
  split at h
  · rename_i predicate rest
    obtain ⟨args, -, h⟩ := bind_eq_ok.1 h
    split at h
    · split at h
      · cases h
        cases hp
      · cases h
    · split at h
      · cases h
      · cases h
        cases hp
        rfl
  · cases h

theorem mem_predicates_of_readNegation {items : List Expr} {l : Literal} {p : String}
    (h : readNegation items = .ok l) (hp : l.predicate? = some p) : p ∈ Expr.predicatesAll items := by
  unfold readNegation at h
  split at h
  · rename_i op rest others
    split at h
    · cases h
    · cases head_of_readLiteral h hp
      exact List.mem_append_left _ List.mem_cons_self
  · rename_i rest others hne
    obtain ⟨tail, rfl⟩ := List.head?_eq_some_iff.1 (head_of_readLiteral h hp)
    exact (hne p tail rfl).elim
  · cases h

mutual

theorem mem_predicates_of_readCondition : ∀ (x : Expr) {ls : List Literal} {l : Literal} {p : String},
    readCondition x = .ok ls → l ∈ ls → l.predicate? = some p → p ∈ x.predicates
  | .atom a, ls, l, p, h, hl, hp => by cases h
  | .list [], ls, l, p, h, hl, hp => by
    cases h
    cases hl
  | .list (.atom op :: items), ls, l, p, h, hl, hp => by
    unfold readCondition at h
    split at h
    · rename_i hop
      subst hop
      exact Expr.mem_predicates_connective (by decide)
        (mem_predicatesAll_of_readConditions items h hl hp)
    · split at h
      · rename_i hop
        subst hop
        obtain ⟨l', hl', rfl⟩ := map_eq_ok.1 h
        rw [List.mem_singleton.1 hl] at hp
        exact Expr.mem_predicates_connective (by decide) (mem_predicates_of_readNegation hl' hp)
      · split at h
        · cases h
        · obtain ⟨l', hl', rfl⟩ := map_eq_ok.1 h
          rw [List.mem_singleton.1 hl] at hp
          cases head_of_readLiteral hl' hp
          exact List.mem_cons_self
  | .list (.list xs :: items), ls, l, p, h, hl, hp => by cases h

theorem mem_predicatesAll_of_readConditions :
    ∀ (xs : List Expr) {ls : List Literal} {l : Literal} {p : String},
      readConditions xs = .ok ls → l ∈ ls → l.predicate? = some p → p ∈ Expr.predicatesAll xs
  | [], ls, l, p, h, hl, hp => by
    cases h
    cases hl
  | x :: xs, ls, l, p, h, hl, hp => by
    obtain ⟨as, has, h⟩ := bind_eq_ok.1 h
    obtain ⟨bs, hbs, h⟩ := bind_eq_ok.1 h
    cases h
    rcases List.mem_append.1 hl with hl | hl
    · exact List.mem_append_left _ (mem_predicates_of_readCondition x has hl hp)
    · exact List.mem_append_right _ (mem_predicatesAll_of_readConditions xs hbs hl hp)

end

mutual

theorem mem_predicates_of_readSimpleEffect :
    ∀ (x : Expr) {ls : List Literal} {l : Literal} {p : String},
      readSimpleEffect x = .ok ls → l ∈ ls → l.predicate? = some p → p ∈ x.predicates
  | .atom a, ls, l, p, h, hl, hp => mem_predicates_of_readCondition (.atom a) h hl hp
  | .list [], ls, l, p, h, hl, hp => mem_predicates_of_readCondition (.list []) h hl hp
  | .list (.atom op :: items), ls, l, p, h, hl, hp => by
    unfold readSimpleEffect at h
    split at h
    · rename_i hop
      subst hop
      exact Expr.mem_predicates_connective (by decide)
        (mem_predicatesAll_of_readSimpleEffects items h hl hp)
    · split at h
      · cases h
      · exact mem_predicates_of_readCondition _ h hl hp
  | .list (.list xs :: items), ls, l, p, h, hl, hp => by cases h

theorem mem_predicatesAll_of_readSimpleEffects :
    ∀ (xs : List Expr) {ls : List Literal} {l : Literal} {p : String},
      readSimpleEffects xs = .ok ls → l ∈ ls → l.predicate? = some p → p ∈ Expr.predicatesAll xs
  | [], ls, l, p, h, hl, hp => by
    cases h
    cases hl
  | x :: xs, ls, l, p, h, hl, hp => by
    obtain ⟨as, has, h⟩ := bind_eq_ok.1 h
    obtain ⟨bs, hbs, h⟩ := bind_eq_ok.1 h
    cases h
    rcases List.mem_append.1 hl with hl | hl
    · exact List.mem_append_left _ (mem_predicates_of_readSimpleEffect x has hl hp)
    · exact List.mem_append_right _ (mem_predicatesAll_of_readSimpleEffects xs hbs hl hp)

end

namespace Effect

variable {κ : Type}

/-- The literals of an effect, those of its conditions among them. -/
def everyLiteral (e : Effect κ) : List Literal :=
  e.literals ++ e.conditional.flatMap fun c => c.1 ++ c.2

theorem mem_everyLiteral_append {e f : Effect κ} {l : Literal} :
    l ∈ (e.append f).everyLiteral ↔ l ∈ e.everyLiteral ∨ l ∈ f.everyLiteral := by
  simp only [everyLiteral, append, List.flatMap_append, List.mem_append]
  tauto

theorem mem_predicatesAll_of_readWhen {items : List Expr} {e : Effect κ} {l : Literal} {p : String}
    (h : readWhen items = .ok e) (hl : l ∈ e.everyLiteral) (hp : l.predicate? = some p) :
    p ∈ Expr.predicatesAll items := by
  unfold readWhen at h
  split at h
  · rename_i condition body
    obtain ⟨cs, hcs, h⟩ := bind_eq_ok.1 h
    obtain ⟨ls, hls, h⟩ := bind_eq_ok.1 h
    cases h
    have hmem : l ∈ cs ∨ l ∈ ls := by simpa [everyLiteral] using hl
    rcases hmem with hl | hl
    · exact List.mem_append_left _ (mem_predicates_of_readCondition condition hcs hl hp)
    · exact List.mem_append_right _
        (List.mem_append_left _ (mem_predicates_of_readSimpleEffect body hls hl hp))
  · cases h

variable [Number.Scale κ]

theorem everyLiteral_of_readIncrease {items : List Expr} {e : Effect κ}
    (h : readIncrease items = .ok e) : e.everyLiteral = [] := by
  unfold readIncrease at h
  split at h
  · split at h
    · obtain ⟨cost, -, rfl⟩ := map_eq_ok.1 h
      rfl
    · cases h
  · cases h

mutual

theorem mem_predicates_of_read : ∀ (x : Expr) {e : Effect κ} {l : Literal} {p : String},
    read x = .ok e → l ∈ e.everyLiteral → l.predicate? = some p → p ∈ x.predicates
  | .atom a, e, l, p, h, hl, hp => by cases h
  | .list [], e, l, p, h, hl, hp => by
    cases h
    cases hl
  | .list (.atom op :: items), e, l, p, h, hl, hp => by
    unfold read at h
    split at h
    · rename_i hop
      subst hop
      exact Expr.mem_predicates_connective (by decide) (mem_predicatesAll_of_readAll items h hl hp)
    · split at h
      · rename_i hop
        subst hop
        exact Expr.mem_predicates_connective (by decide) (mem_predicatesAll_of_readWhen h hl hp)
      · split at h
        · rw [everyLiteral_of_readIncrease h] at hl
          cases hl
        · split at h
          · cases h
          · obtain ⟨ls, hls, rfl⟩ := map_eq_ok.1 h
            exact mem_predicates_of_readCondition _ hls (by simpa [everyLiteral] using hl) hp
  | .list (.list xs :: items), e, l, p, h, hl, hp => by cases h

theorem mem_predicatesAll_of_readAll :
    ∀ (xs : List Expr) {e : Effect κ} {l : Literal} {p : String},
      readAll xs = .ok e → l ∈ e.everyLiteral → l.predicate? = some p → p ∈ Expr.predicatesAll xs
  | [], e, l, p, h, hl, hp => by
    cases h
    cases hl
  | x :: xs, e, l, p, h, hl, hp => by
    obtain ⟨f, hf, h⟩ := bind_eq_ok.1 h
    obtain ⟨g, hg, h⟩ := bind_eq_ok.1 h
    cases h
    rcases mem_everyLiteral_append.1 hl with hl | hl
    · exact List.mem_append_left _ (mem_predicates_of_read x hf hl hp)
    · exact List.mem_append_right _ (mem_predicatesAll_of_readAll xs hg hl hp)

end

end Effect

end Ground

/-! ### Schemas and tasks -/

/-- The predicates that a schema uses. -/
def Planning.Schema.predicates (s : Schema) : List String :=
  (s.condition.map Expr.predicates).getD [] ++ (s.effect.map Expr.predicates).getD []

/-- The predicates that a task uses in conditions, effects, initial facts and the goal. -/
def Planning.usedPredicates (domain : Domain) (problem : Problem) : List String :=
  domain.schemas.flatMap Schema.predicates ++ problem.init.filterMap Expr.head? ++
    problem.goal.predicates

namespace Ground

variable {κ : Type}

/-- No literal of the action is over an excluded predicate. -/
structure LiftedAction.Avoids (F : String → Prop) (a : LiftedAction κ) : Prop where
  condition : ∀ l ∈ a.condition, l.Avoids F
  effect : ∀ l ∈ a.effect.everyLiteral, l.Avoids F

variable [Number.Scale κ]

/-- A schema is read as the conjuncts of its condition and of its effect are. -/
theorem LiftedAction.read_eq (s : Schema) :
    LiftedAction.read (κ := κ) s =
      (do
        let condition ← readConditions ((s.condition.map Expr.conjuncts).getD [])
        let effect ← Effect.readAll ((s.effect.map Expr.conjuncts).getD [])
        return { name := s.name, params := s.params, condition, effect }) := by
  unfold LiftedAction.read
  rcases s.condition with _ | c <;> rcases s.effect with _ | e
  · rfl
  · simp only [Option.map_some, Option.getD_some, Effect.readAll_conjuncts]
    rfl
  · simp only [Option.map_some, Option.getD_some, readConditions_conjuncts]
    rfl
  · simp only [Option.map_some, Option.getD_some, readConditions_conjuncts, Effect.readAll_conjuncts]

theorem LiftedAction.avoids_of_read {F : String → Prop} {s : Schema}
    {a : LiftedAction κ} (hs : ∀ p ∈ s.predicates, ¬ F p) (h : LiftedAction.read s = .ok a) :
    a.Avoids F := by
  rw [read_eq] at h
  obtain ⟨condition, hc, h⟩ := bind_eq_ok.1 h
  obtain ⟨effect, he, h⟩ := bind_eq_ok.1 h
  cases h
  constructor
  · intro l hl p hp
    refine hs p (List.mem_append_left _ ?_)
    cases hx : s.condition with
    | none =>
      rw [hx] at hc
      cases hc
      cases hl
    | some x =>
      rw [hx, Option.map_some, Option.getD_some, readConditions_conjuncts] at hc
      exact mem_predicates_of_readCondition x hc hl hp
  · intro l hl p hp
    refine hs p (List.mem_append_right _ ?_)
    cases hx : s.effect with
    | none =>
      rw [hx] at he
      cases he
      cases hl
    | some x =>
      rw [hx, Option.map_some, Option.getD_some, Effect.readAll_conjuncts] at he
      exact Effect.mem_predicates_of_read x he hl hp

end Ground

end Waymark
