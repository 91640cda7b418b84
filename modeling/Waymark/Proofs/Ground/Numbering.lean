import Mathlib.Data.List.Forall2
import Mathlib.Tactic
import Waymark.Proofs.Ground.Named
import Waymark.Proofs.Outcome

/-!
# Numbers stand for names

The computations that number facts yield what the grounding over names yields, each number standing for
its name in the table that they leave. Numbers once given stay, so that this survives the computations
that follow.

* `FactTable.Names`, `FactTable.Extends`: what a number stands for, and tables that keep it;
* `SplitNames`, `ActionNames`, `TaskNames`: facts, actions and tasks whose numbers stand for names;
* `YieldsAt`: a numbering computation and its result over names, with `YieldsAt.bind`;
* `matches_groundFully`: the numbered task of a domain and a problem and the named one.
-/

namespace Waymark.Ground

open Planning Number

/-! ## Tables -/

namespace FactTable

/-- The number stands for the name. -/
def Names (t : FactTable) (i : Nat) (n : String) : Prop := t.names[i]? = some n

/-- The second table keeps the numbers of the first. -/
def Extends (t t' : FactTable) : Prop := ∀ ⦃i n⦄, t.Names i n → t'.Names i n

variable {t t' t'' : FactTable} {i j : Nat} {n : String}

theorem Names.unique (hi : t.Names i n) (hj : t.Names j n) : i = j := by
  have hi' := (t.numbers_eq_some_iff n i).2 hi
  have hj' := (t.numbers_eq_some_iff n j).2 hj
  simpa [hi'] using hj'

theorem Names.lt_size (h : t.Names i n) : i < t.size := (Array.getElem?_eq_some_iff.1 h).1

theorem exists_names (h : i < t.size) : ∃ n, t.Names i n :=
  ⟨t.names[i], Array.getElem?_eq_getElem h⟩

theorem Extends.refl (t : FactTable) : t.Extends t := fun _ _ h => h

theorem Extends.trans (h : t.Extends t') (h' : t'.Extends t'') : t.Extends t'' :=
  fun _ _ hn => h' (h hn)

theorem intern_spec (t : FactTable) (n : String) :
    t.Extends (t.intern n).2 ∧ (t.intern n).2.Names (t.intern n).1 n := by
  unfold intern
  split
  · rename_i i h
    exact ⟨.refl t, (t.numbers_eq_some_iff n i).1 h⟩
  · rename_i h
    refine ⟨fun j m hj => ?_, ?_⟩
    · have := hj.lt_size
      simp only [Names, push, Array.getElem?_push]
      rw [if_neg (show j ≠ t.names.size from Nat.ne_of_lt this)]
      exact hj
    · simp [Names, push]

end FactTable

open FactTable

/-! ## Facts and actions -/

/-- Two lists of numbers stand for signed facts: the first for the positive ones, the second for the
others. -/
inductive SplitNames (t : FactTable) : List Nat → List Nat → List (Signed String) → Prop
  | nil : SplitNames t [] [] []
  | positive {i n ps ns xs} (h : t.Names i n) (rest : SplitNames t ps ns xs) :
      SplitNames t (i :: ps) ns ((true, n) :: xs)
  | negative {i n ps ns xs} (h : t.Names i n) (rest : SplitNames t ps ns xs) :
      SplitNames t ps (i :: ns) ((false, n) :: xs)

/-- The numbers of a conditional effect stand for names. -/
def EffectNames (t : FactTable) (e : ConditionalEffect)
    (c : List (Signed String) × List (Signed String)) : Prop :=
  SplitNames t e.needs e.forbids c.1 ∧ SplitNames t e.adds e.deletes c.2

/-- The numbers of an action stand for names. -/
structure ActionNames {κ : Type} (t : FactTable) (a : Action κ) (n : NamedAction κ) : Prop where
  name : a.name = n.name
  cost : a.cost = n.cost
  condition : SplitNames t a.needs a.forbids n.rule.condition
  effect : SplitNames t a.adds a.deletes n.rule.effect
  conditional : List.Forall₂ (EffectNames t) a.conditional n.rule.conditional

/-- The numbers of a task stand for names. -/
structure TaskNames {κ : Type} (t : Task κ) (n : NamedTask κ) : Prop where
  init : List.Forall₂ t.facts.Names t.init n.init
  actions : List.Forall₂ (ActionNames t.facts) t.actions.toList n.actions
  goal : SplitNames t.facts t.goalNeeds t.goalForbids n.goal

section Mono

variable {κ : Type} {t t' : FactTable} (h : t.Extends t')
include h

theorem SplitNames.mono {ps ns : List Nat} {xs : List (Signed String)} (hs : SplitNames t ps ns xs) :
    SplitNames t' ps ns xs := by
  induction hs with
  | nil => exact .nil
  | positive hn _ ih => exact .positive (h hn) ih
  | negative hn _ ih => exact .negative (h hn) ih

theorem EffectNames.mono {e : ConditionalEffect} {c : List (Signed String) × List (Signed String)}
    (he : EffectNames t e c) : EffectNames t' e c := ⟨he.1.mono h, he.2.mono h⟩

theorem ActionNames.mono {a : Action κ} {n : NamedAction κ} (ha : ActionNames t a n) :
    ActionNames t' a n where
  name := ha.name
  cost := ha.cost
  condition := ha.condition.mono h
  effect := ha.effect.mono h
  conditional := ha.conditional.imp fun _ _ he => he.mono h

end Mono

/-! ## Computations -/

/-- Run on a table, the computation fails exactly if there is no value, keeps the numbers of the table,
and its result and the value are related by the table that it leaves. -/
def YieldsAt {α β : Type} (t : FactTable) (c : Numbering α) (m : Except Failure β)
    (rel : FactTable → α → β → Prop) : Prop :=
  Matches (fun p b => t.Extends p.2 ∧ rel p.2 p.1 b) (c t) m

namespace YieldsAt

variable {α β γ δ : Type} {t : FactTable} {rel : FactTable → α → β → Prop}
  {rel' : FactTable → γ → δ → Prop}

theorem pure {a : α} {b : β} (h : rel t a b) : YieldsAt t (Pure.pure a) (.ok b) rel :=
  ⟨.refl t, h⟩

theorem throw {e : Failure} (e' : Failure) : YieldsAt t (MonadExcept.throw e) (.error e') rel := trivial

theorem bind {c : Numbering α} {m : Except Failure β} {f : α → Numbering γ}
    {g : β → Except Failure δ} (h : YieldsAt t c m rel)
    (hf : ∀ t' a b, t.Extends t' → rel t' a b → YieldsAt t' (f a) (g b) rel') :
    YieldsAt t (c >>= f) (m >>= g) rel' := by
  show Matches _ (c t >>= fun p => f p.1 p.2) (m >>= g)
  unfold YieldsAt at h
  generalize c t = x at h ⊢
  rcases x with e | ⟨a, t'⟩ <;> rcases m with e' | b
  · trivial
  · exact False.elim h
  · exact False.elim h
  · exact (hf t' a b h.1 h.2).imp fun _ _ hr => ⟨h.1.trans hr.1, hr.2⟩

/-- A computation without numbers is its own value. -/
theorem lift_bind {m : Except Failure α} {f : α → Numbering γ} {g : α → Except Failure δ}
    (hf : ∀ a, m = .ok a → YieldsAt t (f a) (g a) rel') :
    YieldsAt t ((liftM m : Numbering α) >>= f) (m >>= g) rel' := by
  cases m with
  | error e => trivial
  | ok a => exact hf a rfl

/-- Which failure it is does not matter. -/
theorem congr {c : Numbering α} {m m' : Except Failure β} (h : YieldsAt t c m rel)
    (hm : ∀ b, m = .ok b ↔ m' = .ok b) : YieldsAt t c m' rel := by
  cases m with
  | ok b => rwa [(hm b).1 rfl]
  | error e =>
    cases m' with
    | ok b => nomatch (hm b).2 rfl
    | error e' =>
      unfold YieldsAt at h ⊢
      generalize c t = x at h ⊢
      rcases x with _ | _ <;> exact h

/-- The result without the table that is left, where the relation does not depend on it. -/
theorem matches_fst {rel : α → β → Prop} {c : Numbering α} {m : Except Failure β}
    (h : YieldsAt t c m fun _ => rel) : Matches rel ((·.1) <$> c.run t) m := by
  unfold YieldsAt at h
  rw [show c.run t = c t from rfl]
  generalize c t = x at h ⊢
  rcases x with e | ⟨a, t'⟩ <;> rcases m with e' | b
  · trivial
  · exact h
  · exact h
  · exact h.2

end YieldsAt

/-! ## Literals -/

theorem yields_internFact (t : FactTable) (n : String) :
    YieldsAt t (internFact n) (.ok n) (fun t' i n' => n' = n ∧ t'.Names i n) :=
  ⟨(t.intern_spec n).1, rfl, (t.intern_spec n).2⟩

/-- The number of a signed fact. -/
def SignedNames (t : FactTable) (p : Bool × Nat) (x : Signed String) : Prop :=
  p.1 = x.1 ∧ t.Names p.2 x.2

theorem SplitNames.cons {t : FactTable} {p : Bool × Nat} {x : Signed String} {ps ns : List Nat}
    {xs : List (Signed String)} (h : SignedNames t p x) (hs : SplitNames t ps ns xs) :
    SplitNames t (if p.1 then (p.2 :: ps, ns) else (ps, p.2 :: ns)).1
      (if p.1 then (p.2 :: ps, ns) else (ps, p.2 :: ns)).2 (x :: xs) := by
  obtain ⟨b, i⟩ := p
  obtain ⟨_, n⟩ := x
  obtain ⟨rfl, hn⟩ := h
  cases b
  · exact .negative hn hs
  · exact .positive hn hs

theorem yields_factOf (t : FactTable) (binding : Binding) (l : Literal) :
    YieldsAt t (Setting.factOf binding l) (l.named binding) SignedNames := by
  cases l with
  | equality => exact .throw _
  | atom positive predicate args =>
    refine .lift_bind fun args _ => ?_
    refine (yields_internFact t (atomName predicate args)).bind (g := fun n => .ok (positive, n)) ?_
    rintro t' i _ - ⟨rfl, hn⟩
    exact .pure ⟨rfl, hn⟩

theorem yields_factsOf (binding : Binding) (ls : List Literal) (t : FactTable) :
    YieldsAt t (Setting.factsOf binding ls) (ls.mapM (Literal.named binding))
      (fun t p xs => SplitNames t p.1 p.2 xs) := by
  induction ls generalizing t with
  | nil => exact .pure .nil
  | cons l ls ih =>
    rw [List.mapM_cons]
    refine (yields_factOf t binding l).bind fun t₁ p x _ hp => ?_
    refine (ih t₁).bind fun t₂ q xs h₂ hq => ?_
    exact .pure (SplitNames.cons ⟨hp.1, h₂ hp.2⟩ hq)

/-- A possible condition whose numbers stand for names, or an impossible one. -/
def ConditionNames (t : FactTable) (p : Option (List Nat × List Nat))
    (xs : Option (List (Signed String))) : Prop :=
  match p, xs with
  | some p, some xs => SplitNames t p.1 p.2 xs
  | none, none => True
  | _, _ => False

section Setting

variable {κ : Type} (setting : Setting κ)

theorem yields_conditionFacts (binding : Binding) (ls : List Literal) (t : FactTable) :
    YieldsAt t (setting.conditionFacts binding ls) (setting.conditionNamed binding ls)
      ConditionNames := by
  induction ls generalizing t with
  | nil => exact .pure SplitNames.nil
  | cons l ls ih =>
    refine .lift_bind fun truth _ => ?_
    match truth with
    | some true => exact ih t
    | some false => exact .pure trivial
    | none =>
      refine (yields_factOf t binding l).bind fun t₁ p x _ hp => ?_
      refine (ih t₁).bind fun t₂ q xs h₂ hq => ?_
      match q, xs, hq with
      | none, none, _ => exact .pure trivial
      | some q, some xs, hq => exact .pure (SplitNames.cons ⟨hp.1, h₂ hp.2⟩ hq)

theorem yields_conditionalEffects (binding : Binding) (cs : List (List Literal × List Literal))
    (t : FactTable) :
    YieldsAt t (setting.conditionalEffects binding cs) (setting.conditionalNamed binding cs)
      (fun t es xs => List.Forall₂ (EffectNames t) es xs) := by
  induction cs generalizing t with
  | nil => exact .pure .nil
  | cons c cs ih =>
    obtain ⟨condition, literals⟩ := c
    refine (yields_conditionFacts setting binding condition t).bind fun t₁ p xs _ hp => ?_
    match p, xs, hp with
    | none, none, _ => exact ih t₁
    | some p, some xs, hp =>
      refine (yields_factsOf binding literals t₁).bind fun t₂ q ys h₂ hq => ?_
      refine (ih t₂).bind fun t₃ es zs h₃ hes => ?_
      exact .pure (.cons ⟨hp.mono (h₂.trans h₃), hq.mono h₃⟩ hes)

variable [Scale κ]

/-- An action whose numbers stand for names, or an impossible one. -/
def InstanceNames (t : FactTable) (a : Option (Action κ)) (n : Option (NamedAction κ)) : Prop :=
  match a, n with
  | some a, some n => ActionNames t a n
  | none, none => True
  | _, _ => False

theorem yields_instantiate (a : LiftedAction κ) (args : List String) (t : FactTable) :
    YieldsAt t (setting.instantiate a args) (setting.named a args) InstanceNames := by
  refine (yields_conditionFacts setting _ a.condition t).bind fun t₁ p xs _ hp => ?_
  match p, xs, hp with
  | none, none, _ => exact .pure trivial
  | some p, some xs, hp =>
    refine (yields_factsOf _ a.effect.literals t₁).bind fun t₂ q ys h₂ hq => ?_
    refine (yields_conditionalEffects setting _ a.effect.conditional t₂).bind fun t₃ es zs h₃ hes => ?_
    refine .lift_bind fun cost _ => ?_
    exact .pure ⟨rfl, rfl, hp.mono (h₂.trans h₃), hq.mono h₃, hes⟩

end Setting

/-! ## The number of actions -/

section Limit

variable {α : Type}

/-- Whether a limit is met can be found out at any time. -/
theorem limited_bind {m : Except Failure (List α)} (xs : List α) (ys : List α) :
    (limited xs >>= fun zs => m >>= fun ws => limited (zs ++ ws)) = .ok ys ↔
      (m >>= fun ws => limited (xs ++ ws)) = .ok ys := by
  cases m with
  | error e => unfold limited; split <;> exact ⟨nofun, nofun⟩
  | ok ws =>
    show (limited xs >>= fun zs => limited (zs ++ ws)) = .ok ys ↔ limited (xs ++ ws) = .ok ys
    by_cases h : xs.length ≤ maxActions
    · rw [limited_eq_ok_iff.2 ⟨h, rfl⟩]
      rfl
    · have hl : limited xs = .error (.unsupported (.actionCount maxActions)) :=
        if_pos (Nat.lt_of_not_le h)
      have hn : ¬ (xs ++ ws).length ≤ maxActions := by
        rw [List.length_append]
        omega
      rw [hl, limited_eq_ok_iff]
      exact ⟨nofun, fun h' => absurd h'.1 hn⟩

end Limit

section Actions

variable {κ : Type}

/-- Actions whose numbers stand for names, no more than a task may have. -/
def ActionsNames (t : FactTable) (as : Array (Action κ)) (ns : List (NamedAction κ)) : Prop :=
  List.Forall₂ (ActionNames t) as.toList ns ∧ as.size ≤ maxActions

theorem ActionsNames.mono {t t' : FactTable} (h : t.Extends t') {as : Array (Action κ)}
    {ns : List (NamedAction κ)} (ha : ActionsNames t as ns) : ActionsNames t' as ns :=
  ⟨ha.1.imp fun _ _ hn => hn.mono h, ha.2⟩

theorem ActionsNames.length_eq {t : FactTable} {as : Array (Action κ)} {ns : List (NamedAction κ)}
    (h : ActionsNames t as ns) : as.size = ns.length := by
  rw [← Array.length_toList, h.1.length_eq]

theorem ActionsNames.push {t : FactTable} {as : Array (Action κ)} {ns : List (NamedAction κ)}
    {a : Action κ} {n : NamedAction κ} (h : ActionsNames t as ns) (ha : ActionNames t a n)
    (hlt : as.size + 1 ≤ maxActions) : ActionsNames t (as.push a) (ns ++ [n]) := by
  refine ⟨?_, by simpa using hlt⟩
  rw [Array.toList_push]
  exact List.rel_append h.1 (.cons ha .nil)

variable [Scale κ] (setting : Setting κ)

theorem yields_instantiateAll (a : LiftedAction κ) (found : List (List String)) (t : FactTable)
    (done : Array (Action κ)) (names : List (NamedAction κ)) (h : ActionsNames t done names) :
    YieldsAt t (setting.instantiateAll a found done)
      (setting.namedAll a found >>= fun ns => limited (names ++ ns)) ActionsNames := by
  induction found generalizing t done names with
  | nil =>
    have hl : limited (names ++ []) = .ok names :=
      limited_eq_ok_iff.2 ⟨by simpa [← h.length_eq] using h.2, by simp⟩
    show YieldsAt t _ (limited (names ++ [])) _
    rw [hl]
    exact .pure h
  | cons args rest ih =>
    rw [Setting.namedAll, bind_assoc]
    refine (yields_instantiate setting a args t).bind fun t₁ x n h₁ hn => ?_
    match x, n, hn with
    | none, none, _ => exact ih t₁ done names (h.mono h₁)
    | some x, some n, hn =>
      have hassoc : ((do return n :: (← setting.namedAll a rest)) >>= fun ns =>
          limited (names ++ ns)) =
          (setting.namedAll a rest >>= fun ns => limited (names ++ [n] ++ ns)) := by
        rw [bind_assoc]
        refine congrArg _ (funext fun ns => ?_)
        simp
      show YieldsAt t₁ (if _ then _ else _) _ _
      rw [hassoc]
      split
      · rename_i hgt
        refine YieldsAt.throw (.unsupported (.actionCount maxActions)) |>.congr fun b => ?_
        rcases setting.namedAll a rest with e | ns
        · exact ⟨nofun, nofun⟩
        · refine ⟨nofun, fun hb => ?_⟩
          have := (limited_eq_ok_iff.1 hb).1
          simp [← h.length_eq] at this
          omega
      · exact ih t₁ _ _ ((h.mono h₁).push hn (by omega))

theorem yields_groundActions (types objects : List TypedName) (actions : List (LiftedAction κ))
    (t : FactTable) (done : Array (Action κ)) (names : List (NamedAction κ))
    (h : ActionsNames t done names) :
    YieldsAt t (setting.groundActions types objects actions done)
      (setting.instancesAll types objects actions >>= fun ns => limited (names ++ ns))
      ActionsNames := by
  induction actions generalizing t done names with
  | nil =>
    have hl : limited (names ++ []) = .ok names :=
      limited_eq_ok_iff.2 ⟨by simpa [← h.length_eq] using h.2, by simp⟩
    show YieldsAt t _ (limited (names ++ [])) _
    rw [hl]
    exact .pure h
  | cons a rest ih =>
    rw [Setting.instancesAll, Setting.instances, bind_assoc, bind_assoc]
    refine .lift_bind fun found _ => ?_
    have hstep := (yields_instantiateAll setting a found t done names h).bind
      (f := fun as => setting.groundActions types objects rest as)
      fun t₁ as ns _ has => ih t₁ as ns has
    refine hstep.congr fun ns => ?_
    rw [bind_assoc]
    rcases setting.namedAll a found with e | xs
    · exact ⟨nofun, nofun⟩
    · refine (limited_bind (names ++ xs) ns).trans ?_
      show _ ↔ ((do return xs ++ (← setting.instancesAll types objects rest)) >>= fun ns =>
        limited (names ++ ns)) = .ok ns
      rw [bind_assoc]
      refine iff_of_eq (congrArg (· = Except.ok ns) (congrArg _ (funext fun ws => ?_)))
      simp

end Actions

/-! ## Tasks -/

theorem yields_goalFacts (ls : List Literal) (t : FactTable) :
    YieldsAt t (goalFacts ls) (goalNamed ls) (fun t p xs => SplitNames t p.1 p.2 xs) := by
  induction ls generalizing t with
  | nil => exact .pure .nil
  | cons l ls ih =>
    cases l with
    | atom positive predicate args =>
      refine (yields_factOf t [] (.atom positive predicate args)).bind fun t₁ p x _ hp => ?_
      refine (ih t₁).bind fun t₂ q xs h₂ hq => ?_
      exact .pure (SplitNames.cons ⟨hp.1, h₂ hp.2⟩ hq)
    | equality positive a b =>
      unfold goalFacts goalNamed
      split
      · exact ih t
      · refine YieldsAt.bind (m := .ok _) (g := fun n => (fun xs => (true, n) :: xs) <$> goalNamed ls)
          (yields_internFact t (atomName "=" [a, b])) ?_
        rintro t₁ i _ - ⟨rfl, hi⟩
        rw [map_eq_pure_bind]
        refine (ih t₁).bind fun t₂ q xs h₂ hq => ?_
        exact .pure (.positive (h₂ hi) hq)

theorem yields_mapM_internFact (names : List String) (t : FactTable) :
    YieldsAt t (names.mapM internFact) (.ok names) (fun t is ns => List.Forall₂ t.Names is ns) := by
  induction names generalizing t with
  | nil => exact .pure .nil
  | cons n names ih =>
    rw [List.mapM_cons]
    refine YieldsAt.bind (m := .ok n) (g := fun n => .ok names >>= fun ns => .ok (n :: ns))
      (yields_internFact t n) ?_
    rintro t₁ i _ - ⟨rfl, hi⟩
    refine (ih t₁).bind fun t₂ is ns h₂ his => ?_
    exact .pure (.cons (h₂ hi) his)

variable {κ : Type} [Scale κ] {domain : Domain} {problem : Problem}

/-- **Numbered and named grounding agree.** A domain and a problem have a ground task over numbers
exactly if they have one over names, and the numbers of the first stand for the names of the second. -/
theorem matches_groundFully :
    Matches TaskNames (Task.groundFully (κ := κ) domain problem) (NamedTask.of domain problem) := by
  unfold Task.groundFully NamedTask.of
  rcases domain.schemas.mapM (LiftedAction.read (κ := κ)) with e | actions
  · trivial
  rcases Initial.read (κ := κ) problem.init ∅ with e | initial
  · trivial
  have hbuild : YieldsAt FactTable.empty
      (do
        let init ← initial.facts.mapM internFact
        let as ← (Setting.of domain problem actions initial).groundActions domain.types
          (objectsOf domain problem) actions #[]
        let goal ← goalFacts (← readCondition problem.goal)
        return ({ facts := ← get, init, actions := as, goalNeeds := goal.1, goalForbids := goal.2 } :
          Task κ))
      (do
        let init ← Except.ok initial.facts
        let found ← limited (← (Setting.of domain problem actions initial).instancesAll domain.types
          (objectsOf domain problem) actions)
        let goal ← goalNamed (← readCondition problem.goal)
        return ({ init, actions := found, goal } : NamedTask κ))
      (fun _ t n => TaskNames t n) := by
    refine (yields_mapM_internFact initial.facts _).bind fun t₁ is ns _ his => ?_
    rw [← bind_assoc]
    refine (yields_groundActions _ _ _ actions t₁ #[] [] ⟨.nil, Nat.zero_le _⟩).bind
      fun t₂ as xs h₂ has => ?_
    refine .lift_bind fun goal _ => ?_
    refine (yields_goalFacts goal t₂).bind fun t₃ p ys h₃ hp => ?_
    exact ⟨.refl t₃, his.imp fun _ _ hn => h₃ (h₂ hn), (has.mono h₃).1, hp⟩
  exact hbuild.matches_fst

end Waymark.Ground
