import Mathlib.Tactic
import Waymark.Number.Exact
import Waymark.Proofs.Ground.Refinement

/-!
# Costs of ground actions

What a ground action costs if the problem has a metric. An effect may increase the total cost several times,
in conjuncts nested to any depth. The increases are not added up: the last one in the order of the text
counts, and an action without one costs nothing.

* `Expr.increases`: the amounts of the increases in an effect, with `increases_of_read`;
* `initialValue?`, `amountValue?`: what a function term and an amount stand for, with `getElem?_values_of_read`;
* `Task.IsInstance`: an action is the ground action of a schema and its arguments;
* `Task.IsInstance.cost_eq`: what it costs;
* `freight`: a schema that increases the cost twice.
-/

namespace Waymark.Expr

mutual

/-- The amounts of the increases in a conjunctive effect, in the order of the text. -/
def increases : Expr → List Expr
  | .list (.atom op :: items) =>
    if op = "and" then increasesAll items
    else if op = "increase" then
      match items with
      | [target, amount] => if target.head? = some "total-cost" then [amount] else []
      | _ => []
    else []
  | _ => []

/-- The amounts of the increases in several effects in turn. -/
def increasesAll : List Expr → List Expr
  | [] => []
  | x :: xs => increases x ++ increasesAll xs

end

end Waymark.Expr

namespace Waymark.Ground

open Planning Number

variable {κ : Type} [Scale κ]

/-! ## Reading increases -/

namespace Effect

omit [Scale κ] in
theorem cost_of_readWhen {items : List Expr} {e : Effect κ} (h : readWhen items = .ok e) : e.cost = none := by
  unfold readWhen at h
  split at h
  · obtain ⟨condition, -, h⟩ := bind_eq_ok.1 h
    obtain ⟨literals, -, h⟩ := bind_eq_ok.1 h
    obtain rfl := Except.ok.inj h
    rfl
  · cases h

mutual

/-- The amounts of an effect that is read can be read too, and the last one counts. -/
theorem increases_of_read : ∀ (x : Expr) {e : Effect κ}, read x = .ok e →
    ∃ terms, x.increases.mapM readAmount = .ok terms ∧ e.cost = terms.getLast?
  | .atom a, e, h => by cases h
  | .list [], e, h => by
    obtain rfl := Except.ok.inj h
    exact ⟨[], rfl, rfl⟩
  | .list (.list xs :: items), e, h => by cases h
  | .list (.atom op :: items), e, h => by
    unfold read at h
    unfold Expr.increases
    split at h
    · rename_i hop
      rw [if_pos hop]
      exact increasesAll_of_readAll items h
    · rename_i hand
      rw [if_neg hand]
      split at h
      · rename_i hop
        subst hop
        exact ⟨[], rfl, cost_of_readWhen h⟩
      · split at h
        · rename_i hop
          rw [if_pos hop]
          unfold readIncrease at h
          split at h
          · split at h
            · rename_i htarget
              obtain ⟨term, hterm, rfl⟩ := map_eq_ok.1 h
              dsimp only
              rw [if_pos htarget, List.mapM_cons, hterm]
              exact ⟨[term], rfl, rfl⟩
            · cases h
          · cases h
        · rename_i hop
          rw [if_neg hop]
          split at h
          · cases h
          · obtain ⟨literals, -, rfl⟩ := map_eq_ok.1 h
            exact ⟨[], rfl, rfl⟩

theorem increasesAll_of_readAll : ∀ (xs : List Expr) {e : Effect κ}, readAll xs = .ok e →
    ∃ terms, (Expr.increasesAll xs).mapM readAmount = .ok terms ∧ e.cost = terms.getLast?
  | [], e, h => by
    obtain rfl := Except.ok.inj h
    exact ⟨[], rfl, rfl⟩
  | x :: xs, e, h => by
    obtain ⟨first, hfirst, h⟩ := bind_eq_ok.1 h
    obtain ⟨rest, hrest, h⟩ := bind_eq_ok.1 h
    obtain rfl := Except.ok.inj h
    obtain ⟨ts, hts, hcost⟩ := increases_of_read x hfirst
    obtain ⟨us, hus, hcosts⟩ := increasesAll_of_readAll xs hrest
    refine ⟨ts ++ us, ?_, ?_⟩
    · rw [Expr.increasesAll, List.mapM_append, hts, hus]
      rfl
    · rw [append, hcost, hcosts, List.getLast?_append]

end

end Effect

/-! ## Values -/

/-- The value that an entry gives to the function term of a name. -/
def givenValue? (key : String) : Expr → Option κ
  | .list [.atom "=", .list term, .atom number] =>
    match term.filterMap Expr.atom? with
    | [] => none
    | name :: args => if atomName name args = key then Scale.read? number.toList else none
  | _ => none

/-- The value of the function term of a name: of the entries that give it one, the last counts. -/
def initialValue? (entries : List Expr) (key : String) : Option κ := (entries.filterMap (givenValue? key)).getLast?

/-- What the amount of an increase stands for: a number itself, a function applied to names and variables
its initial value. -/
def amountValue? (entries : List Expr) (binding : Binding) : Expr → Option κ
  | .atom n => Scale.read? n.toList
  | .list parts => do
    match ← parts.mapM Expr.atom? with
    | [] => none
    | name :: args => initialValue? entries (atomName name (← (binding.resolveAll args).toOption))

/-- What is read of the entries are the values that they give. -/
theorem getElem?_values_of_read {xs : List Expr} {values : Std.HashMap String κ} {initial : Initial κ}
    (h : Initial.read xs values = .ok initial) (key : String) :
    initial.values[key]? = (initialValue? xs key).or values[key]? := by
  unfold initialValue?
  fun_induction Initial.read xs values generalizing initial <;> try cases h
  case case1 => rfl
  case case4 rest values term number hnone ih =>
    rw [ih h, List.filterMap_cons_none]
    rw [givenValue?, hnone]
  case case5 rest values term number name args hnames x hx ih =>
    rw [ih h, Std.HashMap.getElem?_insert]
    by_cases hkey : atomName name args = key
    · have hgives : givenValue? key (.list [.atom "=", .list term, .atom number]) = some x := by
        rw [givenValue?, hnames]
        dsimp only
        rw [if_pos hkey, hx]
      rw [List.filterMap_cons_some hgives, List.getLast?_cons, if_pos (beq_iff_eq.2 hkey)]
      cases (rest.filterMap (givenValue? (κ := κ) key)).getLast? <;> rfl
    · have hgives : givenValue? (κ := κ) key (.list [.atom "=", .list term, .atom number]) = none := by
        rw [givenValue?, hnames]
        dsimp only
        rw [if_neg hkey]
      rw [List.filterMap_cons_none hgives, if_neg (mt beq_iff_eq.1 hkey)]
  case case8 predicate items rest values hne ih =>
    obtain ⟨found, hfound, h⟩ := bind_eq_ok.1 h
    obtain rfl := Except.ok.inj h
    have hgives : givenValue? (κ := κ) key (.list (.atom predicate :: items)) = none := by
      rw [givenValue?]
      exact fun _ _ hlist => hne (Expr.atom.inj (List.cons.inj (Expr.list.inj hlist)).1)
    rw [List.filterMap_cons_none hgives]
    show found.values[key]? = _
    exact ih hfound

/-! ## Instances -/

/-- The action is the ground action of a schema and its arguments: its numbers stand for the facts of what the
schema says of them. -/
def Task.IsInstance (t : Task κ) (domain : Domain) (problem : Problem) (a : Action κ) (x : Step) : Prop :=
  ∃ actions initial lifted m,
    domain.schemas.mapM (LiftedAction.read (κ := κ)) = .ok actions ∧
    Initial.read (κ := κ) problem.init ∅ = .ok initial ∧
    LiftedAction.read x.1 = .ok lifted ∧
    (Setting.of domain problem actions initial).named lifted x.2 = .ok (some m) ∧
    ActionNames t.facts a m

/-- The amounts of the increases in the effect of a schema. -/
def increasesOf (s : Schema) : List Expr := s.effect.elim [] Expr.increases

/-- The binding of the parameters of a step to its arguments. -/
def bindingOf (x : Step) : Binding := Binding.of (x.1.params.map (·.name)) x.2

section Instances

variable {domain : Domain} {problem : Problem} {t : Task κ} {a : Action κ} {x : Step}

theorem cost_of_named {setting : Setting κ} {lifted : LiftedAction κ} {args : List String} {m : NamedAction κ}
    (h : setting.named lifted args = .ok (some m)) :
    setting.cost (Binding.of (lifted.params.map (·.name)) args) lifted.effect.cost = .ok m.cost := by
  obtain ⟨condition, -, h⟩ := bind_eq_ok.1 h
  cases condition with
  | none => cases h
  | some xs =>
    obtain ⟨_, -, h⟩ := bind_eq_ok.1 h
    obtain ⟨_, -, h⟩ := bind_eq_ok.1 h
    obtain ⟨cost, hcost, h⟩ := bind_eq_ok.1 h
    obtain rfl := Option.some.inj (Except.ok.inj h)
    exact hcost

/-- What a term costs is what its amount stands for. -/
theorem amountValue?_of_cost {setting : Setting κ} {entries : List Expr} {binding : Binding} {amount : Expr}
    {term : CostTerm κ} {cost : κ} (hcosts : setting.usesCosts = true)
    (hvalues : ∀ key, setting.values[key]? = initialValue? entries key) (hterm : Effect.readAmount amount = .ok term)
    (h : setting.cost binding (some term) = .ok cost) : amountValue? entries binding amount = some cost := by
  unfold Setting.cost at h
  rw [if_pos hcosts] at h
  cases amount with
  | atom n =>
    rw [Effect.readAmount] at hterm
    split at hterm
    · rename_i x hx
      obtain rfl := Except.ok.inj hterm
      obtain rfl := Except.ok.inj h
      exact hx
    · cases hterm
  | list parts =>
    rw [Effect.readAmount] at hterm
    split at hterm
    · rename_i names hnames
      obtain rfl := Except.ok.inj hterm
      cases names with
      | nil => cases h
      | cons name args =>
        obtain ⟨resolved, hresolved, h⟩ := bind_eq_ok.1 h
        rw [amountValue?, hnames]
        dsimp only [bind, Option.bind]
        rw [toOption_eq_some.2 hresolved]
        dsimp only
        rw [← hvalues]
        dsimp only at h
        split at h
        · rename_i x hx
          obtain rfl := Except.ok.inj h
          exact hx
        · cases h
    · cases hterm

theorem LiftedAction.increases_of_read {s : Schema} {lifted : LiftedAction κ} (h : LiftedAction.read s = .ok lifted) :
    lifted.params = s.params ∧
      ∃ terms, (increasesOf s).mapM Effect.readAmount = .ok terms ∧ lifted.effect.cost = terms.getLast? := by
  rw [LiftedAction.read_eq_elim] at h
  obtain ⟨condition, -, h⟩ := bind_eq_ok.1 h
  obtain ⟨effect, heffect, h⟩ := bind_eq_ok.1 h
  obtain rfl := Except.ok.inj h
  refine ⟨rfl, ?_⟩
  unfold increasesOf
  rcases hs : s.effect with _ | e
  · rw [hs] at heffect
    obtain rfl := Except.ok.inj heffect
    exact ⟨[], rfl, rfl⟩
  · rw [hs] at heffect
    exact Effect.increases_of_read e heffect

/-- The last of the results belongs to the last of the inputs. -/
theorem getLast?_of_forall₂ {α β : Type} {R : α → β → Prop} {as : List α} {bs : List β}
    (h : List.Forall₂ R as bs) {a : α} (ha : as.getLast? = some a) : ∃ b, bs.getLast? = some b ∧ R a b := by
  obtain ⟨rest, hrest⟩ := List.head?_eq_some_iff.1 (List.head?_reverse.trans ha)
  have hreverse := List.forall₂_reverse_iff.2 h
  rw [hrest] at hreverse
  obtain ⟨b, others, hb, -, hbs⟩ := List.forall₂_cons_left_iff.1 hreverse
  refine ⟨b, ?_, hb⟩
  rw [← List.head?_reverse, hbs, List.head?_cons]

/-- **The cost of an instance**: what the last of the increases of its schema stands for, nothing if there is
none. -/
theorem Task.IsInstance.cost_eq (h : t.IsInstance domain problem a x) (hmetric : problem.metric.isSome = true) :
    (increasesOf x.1 = [] → a.cost = Scale.ofNat 0) ∧
      ∀ amount, (increasesOf x.1).getLast? = some amount →
        amountValue? problem.init (bindingOf x) amount = some a.cost := by
  obtain ⟨actions, initial, lifted, m, -, hinitial, hread, hnamed, hnames⟩ := h
  obtain ⟨hparams, terms, hterms, hlast⟩ := LiftedAction.increases_of_read hread
  have hcost := cost_of_named hnamed
  rw [hparams, hlast, ← hnames.cost] at hcost
  have hrelated := mapM_eq_ok.1 hterms
  constructor
  · intro hnone
    rw [hnone, List.forall₂_nil_left_iff] at hrelated
    unfold Setting.cost at hcost
    rw [hrelated, if_pos (show (Setting.of domain problem actions initial).usesCosts = true from hmetric)] at hcost
    exact (Except.ok.inj hcost).symm
  · intro amount hamount
    obtain ⟨term, hterm, hreads⟩ := getLast?_of_forall₂ hrelated hamount
    rw [hterm] at hcost
    refine amountValue?_of_cost hmetric (fun key => ?_) hreads hcost
    have hvalues := getElem?_values_of_read hinitial key
    rwa [Std.HashMap.getElem?_empty, Option.or_none] at hvalues

/-- The actions of a ground task are instances of steps. -/
theorem exists_isInstance_of_mem (h : Task.ground domain problem = .ok t) (ha : a ∈ t.actions) :
    ∃ x, IsStep domain problem x ∧ t.IsInstance domain problem a x := by
  obtain ⟨n, hn, full, hfull, rfl⟩ := exists_named_of_ground h
  obtain ⟨m, hm, hnames⟩ :=
    exists_rel_of_mem hfull.actions.flip (Array.mem_toList_iff.2 (Task.mem_actions_pruned.1 ha).1)
  obtain ⟨actions, hactions, hn⟩ := bind_eq_ok.1 hn
  obtain ⟨initial, hinitial, hn⟩ := bind_eq_ok.1 hn
  obtain ⟨all, hall, hn⟩ := bind_eq_ok.1 hn
  obtain ⟨found, hfound, hn⟩ := bind_eq_ok.1 hn
  obtain ⟨literals, -, hn⟩ := bind_eq_ok.1 hn
  obtain ⟨goal, -, hn⟩ := bind_eq_ok.1 hn
  obtain rfl := Except.ok.inj hn
  obtain ⟨-, rfl⟩ := limited_eq_ok_iff.1 hfound
  obtain ⟨lifted, hlifted, ms, hms, hm⟩ := (Setting.mem_instancesAll hall).1 m hm
  obtain ⟨s, hs, hread⟩ := exists_rel_of_mem (mapM_eq_ok.1 hactions) hlifted
  obtain ⟨lists, hlists, hms⟩ := bind_eq_ok.1 hms
  obtain ⟨args, hargs, hnamed⟩ := (Setting.mem_namedAll hms).1 m hm
  have hparams := (LiftedAction.increases_of_read hread).1
  exact ⟨(s, args), Setting.isStep_of_assignments hs hparams hlists hargs, actions, initial, lifted, m, hactions,
    hinitial, hread, hnamed, hnames⟩

end Instances

/-! ## Costs -/

/-- The sum of numbers, the first one first. -/
def sumOf : List κ → κ
  | [] => Scale.ofNat 0
  | v :: vs => vs.foldl Scale.add v

/-- What all the increases of a step amount to. -/
def totalIncrease? (problem : Problem) (x : Step) : Option κ :=
  sumOf <$> (increasesOf x.1).mapM (amountValue? problem.init (bindingOf x))

/-- **Costs under a metric.** Each action of a ground task is the instance of a step, and costs what the last
of the increases in the effect of its schema amounts to, and nothing if there is none. If there is at most one
increase, that is the sum of the increases. -/
theorem ground_cost_last {domain : Domain} {problem : Problem} {t : Task κ} (hmetric : problem.metric.isSome = true)
    (h : Task.ground domain problem = .ok t) :
    ∀ a ∈ t.actions, ∃ x, IsStep domain problem x ∧ t.IsInstance domain problem a x ∧
      (increasesOf x.1 = [] → a.cost = Scale.ofNat 0) ∧
      (∀ amount, (increasesOf x.1).getLast? = some amount →
        amountValue? problem.init (bindingOf x) amount = some a.cost) ∧
      ((increasesOf x.1).length ≤ 1 → totalIncrease? problem x = some a.cost) := by
  intro a ha
  obtain ⟨x, hstep, hinstance⟩ := exists_isInstance_of_mem h ha
  obtain ⟨hnone, hlast⟩ := hinstance.cost_eq hmetric
  refine ⟨x, hstep, hinstance, hnone, hlast, fun hlength => ?_⟩
  unfold totalIncrease?
  match hincreases : increasesOf x.1 with
  | [] =>
    rw [hnone hincreases]
    rfl
  | [amount] =>
    have hvalue := hlast amount (by rw [hincreases]; rfl)
    rw [List.mapM_cons, hvalue]
    rfl
  | _ :: _ :: _ => simp [hincreases] at hlength

/-! ## An example -/

section Freight

/-- A domain in which a crate is loaded: this takes two increases of the cost. -/
def freight : Domain where
  name := "freight"
  predicates := [⟨"loaded", []⟩]
  schemas := [
    { name := "load"
      effect := some (.list [.atom "and", .list [.atom "loaded"],
        .list [.atom "increase", .list [.atom "total-cost"], .atom "2"],
        .list [.atom "increase", .list [.atom "total-cost"], .atom "3"]]) }]

/-- The problem to load the crate at the least cost. -/
def shipment : Problem where
  name := "shipment"
  domain := "freight"
  goal := .list [.atom "loaded"]
  metric := some [.atom "minimize", .list [.atom "total-cost"]]

/-- The named task of the domain and the problem. -/
def shipped : NamedTask Exact :=
  ⟨[], [⟨"(load)", { effect := [(true, "(loaded)")] }, Scale.ofNat 3⟩], [(true, "(loaded)")]⟩

theorem namedTask_freight : NamedTask.of freight shipment = .ok shipped := rfl

theorem increasesOf_freight {x : Step} (h : IsStep freight shipment x) :
    increasesOf x.1 = [.atom "2", .atom "3"] := by
  rw [List.mem_singleton.1 h.1]
  rfl

theorem amountValue?_three (binding : Binding) :
    amountValue? shipment.init binding (.atom "3") = some (Scale.ofNat 3 : Exact) := rfl

/-- The crate can be loaded, and this costs 3. -/
theorem exists_ground_freight :
    ∃ (t : Task Exact) (a : Action Exact), Task.ground freight shipment = .ok t ∧ a ∈ t.actions ∧
      a.cost = Scale.ofNat 3 := by
  obtain ⟨t, hground, full, hfull, rfl⟩ := exists_ground_of_named namedTask_freight
  obtain ⟨a, rest, hnames, -, hactions⟩ := List.forall₂_cons_right_iff.1 hfull.actions
  have hmem : a ∈ full.actions := Array.mem_toList_iff.1 (hactions ▸ List.mem_cons_self)
  have hneeds {ps ns : List Nat} (h : SplitNames full.facts ps ns []) : ps = [] := by
    cases h
    rfl
  refine ⟨_, a, hground, Task.mem_actions_pruned.2 ⟨hmem, fun f hf => ?_⟩, hnames.cost⟩
  rw [hneeds hnames.condition] at hf
  cases hf

theorem ground_cost_last_freight :
    ∃ (t : Task Exact) (a : Action Exact), shipment.metric.isSome = true ∧
      Task.ground freight shipment = .ok t ∧ a ∈ t.actions ∧
      ∃ x, IsStep freight shipment x ∧ t.IsInstance freight shipment a x ∧ a.cost = Scale.ofNat 3 := by
  obtain ⟨t, a, hground, ha, -⟩ := exists_ground_freight
  obtain ⟨x, hstep, hinstance, -, hlast, -⟩ := ground_cost_last rfl hground a ha
  have hvalue := hlast (.atom "3") (by rw [increasesOf_freight hstep]; rfl)
  rw [amountValue?_three] at hvalue
  exact ⟨t, a, rfl, hground, ha, x, hstep, hinstance, (Option.some.inj hvalue).symm⟩

/-- The increases of the cost do not always add up: to load the crate does not cost 5. -/
theorem ground_cost_sum_freight :
    ¬ ∀ (domain : Domain) (problem : Problem) (t : Task Exact), problem.metric.isSome = true →
      Task.ground domain problem = .ok t →
      ∀ a ∈ t.actions, ∃ x, IsStep domain problem x ∧ totalIncrease? problem x = some a.cost := by
  intro hall
  obtain ⟨t, a, hground, ha, hcost⟩ := exists_ground_freight
  obtain ⟨x, hstep, htotal⟩ := hall _ _ t rfl hground a ha
  rw [totalIncrease?, increasesOf_freight hstep, hcost] at htotal
  have hsum : some (Scale.add (Scale.ofNat 2) (Scale.ofNat 3) : Exact) = some (Scale.ofNat 3) := htotal
  simp [Scale.add, Scale.ofNat, Scale.ofQuotient, Exact.add, Exact.lift, Rat.mkRat_eq_div] at hsum

end Freight

end Waymark.Ground
