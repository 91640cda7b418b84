import Waymark.Proofs.Encoding.Watcher
import Waymark.Proofs.Ground.Named

/-!
# Grounding with monitors

The literals that a monitor adds to a schema have no parameters. Those over fluents that nothing changes
are decided while grounding: they drop out if they are true, and leave the schema without instances if
they are not. The others become facts, the same for all instances. So a monitored schema has the
instances that it had, each with the rule of the monitor as far as it is not decided.

* `AgreeOutside`: two settings that differ about fluents only;
* `known`: what a setting decides about fluents;
* `augment`: an instance with a rule over fluents;
* `instances_withRule`, `instances_withRule_of_none`: the instances of a monitored schema.
-/

namespace Waymark.Encoding

open Ground Planning Number

variable {ι κ : Type}

/-! ## Settings -/

/-- The settings agree about everything but the excluded predicates. -/
structure AgreeOutside (F : String → Prop) (setting setting' : Setting κ) : Prop where
  statics : ∀ p, ¬ F p → setting'.statics.contains p = setting.statics.contains p
  initial : ∀ p args, ¬ F p →
    setting'.initial.contains (atomName p args) = setting.initial.contains (atomName p args)
  values : setting'.values = setting.values
  usesCosts : setting'.usesCosts = setting.usesCosts

/-- The fact of a fluent. -/
def fluentFact (name : ι → String) (c : ι) : String := atomName (name c) []

/-- What the setting decides about a fluent. -/
def known (setting : Setting κ) (name : ι → String) (c : ι) : Option Bool :=
  if setting.statics.contains (name c) then some (setting.initial.contains (fluentFact name c)) else none

section Agree

variable {F : String → Prop} {setting setting' : Setting κ} (h : AgreeOutside F setting setting')
include h

theorem AgreeOutside.decide {l : Literal} (hl : l.Avoids F) (binding : Ground.Binding) :
    setting'.decide binding l = setting.decide binding l := by
  cases l with
  | equality => rfl
  | atom positive predicate args =>
    have hp := hl predicate rfl
    rw [Setting.decide, Setting.decide, h.statics _ hp]
    split
    · rcases binding.resolveAll args with e | args
      · rfl
      · exact congrArg (fun b => Except.ok (some (b == positive))) (h.initial predicate args hp)
    · rfl

theorem AgreeOutside.isStatic {l : Literal} (hl : l.Avoids F) :
    setting'.isStatic l = setting.isStatic l := by
  cases l with
  | equality => rfl
  | atom positive predicate args => exact h.statics _ (hl predicate rfl)

theorem AgreeOutside.conditionNamed {ls : List Literal} (hl : ∀ l ∈ ls, l.Avoids F)
    (binding : Ground.Binding) :
    setting'.conditionNamed binding ls = setting.conditionNamed binding ls := by
  induction ls with
  | nil => rfl
  | cons l ls ih =>
    obtain ⟨hl, hls⟩ := List.forall_mem_cons.1 hl
    rw [Setting.conditionNamed, Setting.conditionNamed, h.decide hl, ih hls]

theorem AgreeOutside.conditionalNamed {cs : List (List Literal × List Literal)}
    (hc : ∀ c ∈ cs, ∀ l ∈ c.1, l.Avoids F) (binding : Ground.Binding) :
    setting'.conditionalNamed binding cs = setting.conditionalNamed binding cs := by
  induction cs with
  | nil => rfl
  | cons c cs ih =>
    obtain ⟨hc, hcs⟩ := List.forall_mem_cons.1 hc
    rw [Setting.conditionalNamed, Setting.conditionalNamed, h.conditionNamed hc, ih hcs]

theorem AgreeOutside.holdAll {ls : List Literal} (hl : ∀ l ∈ ls, l.Avoids F)
    (binding : Ground.Binding) : setting'.holdAll binding ls = setting.holdAll binding ls := by
  induction ls with
  | nil => rfl
  | cons l ls ih =>
    obtain ⟨hl, hls⟩ := List.forall_mem_cons.1 hl
    rw [Setting.holdAll, Setting.holdAll, h.decide hl, ih hls]

theorem AgreeOutside.holdEach {ls : List Literal} (hl : ∀ l ∈ ls, l.Avoids F)
    (binding : Ground.Binding) : setting'.holdEach binding ls = setting.holdEach binding ls := by
  induction ls with
  | nil => rfl
  | cons l ls ih =>
    obtain ⟨hl, hls⟩ := List.forall_mem_cons.1 hl
    rw [Setting.holdEach, Setting.holdEach, h.decide hl, ih hls]

theorem AgreeOutside.extend {slots : List Slot} (hs : ∀ s ∈ slots, ∀ l ∈ s.checks, l.Avoids F)
    (binding : Ground.Binding) (args : List String) (done : Nat × List (List String)) :
    setting'.extend binding args slots done = setting.extend binding args slots done := by
  induction slots generalizing binding args done with
  | nil => rfl
  | cons slot slots ih =>
    obtain ⟨hslot, hslots⟩ := List.forall_mem_cons.1 hs
    rw [Setting.extend, Setting.extend]
    refine congrArg (fun f => List.foldlM f done slot.candidates) (funext₂ fun done object => ?_)
    simp only [h.holdAll hslot, ih hslots]

theorem AgreeOutside.cost [Scale κ] (binding : Ground.Binding) (term : Option (CostTerm κ)) :
    setting'.cost binding term = setting.cost binding term := by
  unfold Setting.cost
  rw [h.values, h.usesCosts]

end Agree

/-! ## Literals of fluents -/

section Fluents

variable (setting : Setting κ) (name : ι → String) (binding : Ground.Binding)

theorem decide_fluentLiteral (x : Signed ι) :
    setting.decide binding (fluentLiteral name x) =
      .ok ((known setting name x.2).map (· == x.1)) := by
  rw [fluentLiteral, Setting.decide, known]
  split <;> rfl

theorem mapM_named_fluentLiterals (xs : List (Signed ι)) :
    (xs.map (fluentLiteral name)).mapM (Literal.named binding) =
      .ok (xs.map (Prod.map id (fluentFact name))) := by
  induction xs with
  | nil => rfl
  | cons x xs ih =>
    rw [List.map_cons, List.mapM_cons, ih]
    rfl

theorem conditionNamed_fluentLiterals (xs : List (Signed ι)) :
    setting.conditionNamed binding (xs.map (fluentLiteral name)) =
      .ok ((Rule.resolveAll (known setting name) xs).map
        (List.map (Prod.map id (fluentFact name)))) := by
  induction xs with
  | nil => rfl
  | cons x xs ih =>
    rw [List.map_cons, Setting.conditionNamed, decide_fluentLiteral, ih, Rule.resolveAll]
    cases known setting name x.2 with
    | none =>
      show Except.ok _ = Except.ok _
      rw [Option.map_eq_map, Option.map_map, Option.map_map]
      rfl
    | some b => cases hb : b == x.1 <;> simp [hb] <;> rfl

theorem conditionNamed_append (ls ms : List Literal) :
    setting.conditionNamed binding (ls ++ ms) =
      (do
        match ← setting.conditionNamed binding ls with
        | none => return none
        | some xs => return (← setting.conditionNamed binding ms).map (xs ++ ·)) := by
  induction ls with
  | nil =>
    show _ = (do return (← setting.conditionNamed binding ms).map ([] ++ ·))
    rcases h : setting.conditionNamed binding ms with e | (_ | ys) <;> simp only [List.nil_append, h] <;>
      rfl
  | cons l ls ih =>
    rw [List.cons_append, Setting.conditionNamed, Setting.conditionNamed, ih]
    rcases setting.decide binding l with e | (_ | _ | _)
    · rfl
    · rcases l.named binding with e | x
      · rfl
      · rcases setting.conditionNamed binding ls with e | (_ | xs)
        · rfl
        · rfl
        · rcases setting.conditionNamed binding ms with e | (_ | ys) <;> rfl
    · rfl
    · rfl

theorem conditionalNamed_append (cs ds : List (List Literal × List Literal)) :
    setting.conditionalNamed binding (cs ++ ds) =
      (do return (← setting.conditionalNamed binding cs) ++ (← setting.conditionalNamed binding ds)) := by
  induction cs with
  | nil =>
    rcases h : setting.conditionalNamed binding ds with e | ys <;> simp only [List.nil_append, h] <;> rfl
  | cons c cs ih =>
    obtain ⟨condition, literals⟩ := c
    rw [List.cons_append, Setting.conditionalNamed, Setting.conditionalNamed, ih]
    rcases setting.conditionNamed binding condition with e | (_ | xs)
    · rfl
    · rfl
    · rcases literals.mapM (Literal.named binding) with e | ys
      · rfl
      · rcases setting.conditionalNamed binding cs with e | zs
        · rfl
        · rcases setting.conditionalNamed binding ds with e | zs' <;> rfl

theorem conditionalNamed_fluentLiterals (cs : List (List (Signed ι) × List (Signed ι))) :
    setting.conditionalNamed binding
        (cs.map fun c => (c.1.map (fluentLiteral name), c.2.map (fluentLiteral name))) =
      .ok ((cs.filterMap fun c => (Rule.resolveAll (known setting name) c.1).map (·, c.2)).map
        fun c => (c.1.map (Prod.map id (fluentFact name)), c.2.map (Prod.map id (fluentFact name)))) := by
  induction cs with
  | nil => rfl
  | cons c cs ih =>
    rw [List.map_cons, Setting.conditionalNamed, conditionNamed_fluentLiterals, ih, List.filterMap_cons]
    cases Rule.resolveAll (known setting name) c.1 with
    | none => rfl
    | some xs =>
      show ((c.2.map (fluentLiteral name)).mapM (Literal.named binding) >>= _) = _
      rw [mapM_named_fluentLiterals]
      rfl

end Fluents

/-! ## Instances -/

/-- An instance with a rule over fluents. -/
def augment (name : ι → String) (r : Rule ι) (n : NamedAction κ) : NamedAction κ :=
  { n with rule := n.rule.append (r.map (fluentFact name)) }

section Instances

variable [Scale κ] {F : String → Prop} {setting setting' : Setting κ} {name : ι → String} {r r' : Rule ι}
  {a : LiftedAction κ} (h : AgreeOutside F setting setting') (ha : a.Avoids F)
include h ha

theorem named_withRule (hr : r.resolve (known setting' name) = some r') (args : List String) :
    setting'.named (withRule name r a) args =
      Option.map (augment name r') <$> setting.named a args := by
  obtain ⟨condition, hcondition, rfl⟩ := Option.map_eq_some_iff.1 hr
  have hcond (binding : Ground.Binding) :
      setting'.conditionNamed binding (a.condition ++ r.condition.map (fluentLiteral name)) =
        (do
          match ← setting.conditionNamed binding a.condition with
          | none => return none
          | some xs => return some (xs ++ condition.map (Prod.map id (fluentFact name)))) := by
    rw [conditionNamed_append, h.conditionNamed ha.condition, conditionNamed_fluentLiterals,
      hcondition]
    rfl
  have heffect (binding : Ground.Binding) :
      (a.effect.append (fluentEffect name r)).literals.mapM (Literal.named binding) =
        (do
          return (← a.effect.literals.mapM (Literal.named binding)) ++
            r.effect.map (Prod.map id (fluentFact name))) := by
    rw [Effect.append, fluentEffect, List.mapM_append, mapM_named_fluentLiterals]
    rfl
  have hconditional (binding : Ground.Binding) :
      setting'.conditionalNamed binding (a.effect.append (fluentEffect name r)).conditional =
        (do
          return (← setting.conditionalNamed binding a.effect.conditional) ++
            (r.conditional.filterMap fun c =>
              (Rule.resolveAll (known setting' name) c.1).map (·, c.2)).map fun c =>
                (c.1.map (Prod.map id (fluentFact name)), c.2.map (Prod.map id (fluentFact name)))) := by
    rw [Effect.append, fluentEffect, conditionalNamed_append, conditionalNamed_fluentLiterals,
      h.conditionalNamed fun c hc l hl => ha.effect l (List.mem_append_right _
        (List.mem_flatMap.2 ⟨c, hc, List.mem_append_left _ hl⟩))]
    rfl
  have hcost (binding : Ground.Binding) :
      setting'.cost binding (a.effect.append (fluentEffect name r)).cost =
        setting.cost binding a.effect.cost := by
    rw [h.cost, Effect.append, fluentEffect, Option.none_or]
  simp only [Setting.named, withRule, hcond, heffect, hconditional, hcost]
  generalize Ground.Binding.of (a.params.map (·.name)) args = binding
  rcases setting.conditionNamed binding a.condition with e | (_ | xs)
  · rfl
  · rfl
  · rcases a.effect.literals.mapM (Literal.named binding) with e | ys
    · rfl
    · rcases setting.conditionalNamed binding a.effect.conditional with e | zs
      · rfl
      · rcases setting.cost binding a.effect.cost with e | c
        · rfl
        · rfl

theorem namedAll_withRule (hr : r.resolve (known setting' name) = some r')
    (found : List (List String)) :
    setting'.namedAll (withRule name r a) found =
      List.map (augment name r') <$> setting.namedAll a found := by
  induction found with
  | nil => rfl
  | cons args rest ih =>
    rw [Setting.namedAll, Setting.namedAll, named_withRule h ha hr, ih]
    rcases setting.named a args with e | (_ | n)
    · rfl
    · rfl
    · rcases setting.namedAll a rest with e | ns
      · rfl
      · rfl

/-! ### Checks -/

omit [Scale κ] in
theorem slots_withRule (types objects : List TypedName) :
    setting'.slots types objects (withRule name r a) = setting.slots types objects a := by
  unfold Setting.slots
  refine congrArg (fun f => List.map f a.params.zipIdx) (funext fun p => ?_)
  have hbase : a.condition.filter (fun l =>
        setting'.isStatic l && lastMentioned? (a.params.map (·.name)) l == some p.2) =
      a.condition.filter fun l =>
        setting.isStatic l && lastMentioned? (a.params.map (·.name)) l == some p.2 :=
    List.filter_congr fun l hl => by rw [h.isStatic (ha.condition l hl)]
  have hfluents : (r.condition.map (fluentLiteral name)).filter (fun l =>
      setting'.isStatic l && lastMentioned? (a.params.map (·.name)) l == some p.2) = [] := by
    refine List.filter_eq_nil_iff.2 fun l hl => ?_
    obtain ⟨x, -, rfl⟩ := List.mem_map.1 hl
    simp [fluentLiteral, lastMentioned?]
  simp only [withRule, List.filter_append, hbase, hfluents, List.append_nil]

omit [Scale κ] in
theorem closedChecks_withRule :
    setting'.closedChecks (withRule name r a) =
      setting.closedChecks a ++
        (r.condition.filter fun x => (known setting' name x.2).isSome).map (fluentLiteral name) := by
  have hbase : a.condition.filter (fun l =>
        setting'.isStatic l && lastMentioned? (a.params.map (·.name)) l == none) =
      a.condition.filter fun l =>
        setting.isStatic l && lastMentioned? (a.params.map (·.name)) l == none :=
    List.filter_congr fun l hl => by rw [h.isStatic (ha.condition l hl)]
  have hfluents : (r.condition.map (fluentLiteral name)).filter (fun l =>
      setting'.isStatic l && lastMentioned? (a.params.map (·.name)) l == none) =
      (r.condition.filter fun x => (known setting' name x.2).isSome).map (fluentLiteral name) := by
    rw [List.filter_map]
    refine congrArg _ (List.filter_congr fun x _ => ?_)
    simp only [Function.comp_apply, fluentLiteral, Setting.isStatic, lastMentioned?, known]
    split <;> simp [*]
  unfold Setting.closedChecks
  simp only [withRule, List.filter_append, hbase, hfluents]

end Instances

section Checks

variable (setting : Setting κ) (name : ι → String) (binding : Ground.Binding)

theorem holdEach_append (ls ms : List Literal) :
    setting.holdEach binding (ls ++ ms) =
      (do
        let x ← setting.holdEach binding ls
        let y ← setting.holdEach binding ms
        return x && y) := by
  induction ls with
  | nil =>
    rcases h : setting.holdEach binding ms with e | y <;> simp only [List.nil_append, h] <;> rfl
  | cons l ls ih =>
    rw [List.cons_append, Setting.holdEach, Setting.holdEach, ih]
    rcases setting.decide binding l with e | x
    · rfl
    · rcases setting.holdEach binding ls with e | y
      · rfl
      · rcases setting.holdEach binding ms with e | z
        · rfl
        · exact congrArg Except.ok (Bool.and_assoc ..).symm

theorem holdEach_fluentLiterals (xs : List (Signed ι)) :
    setting.holdEach binding (xs.map (fluentLiteral name)) =
      .ok (xs.all fun x => known setting name x.2 == some x.1) := by
  induction xs with
  | nil => rfl
  | cons x xs ih =>
    rw [List.map_cons, Setting.holdEach, decide_fluentLiteral, ih]
    refine congrArg Except.ok ?_
    rw [List.all_cons]
    congr 1
    rcases known setting name x.2 with _ | b
    · rfl
    · simp

/-- A condition over fluents is possible exactly if what is decided of it is true. -/
theorem isSome_resolveAll (know : ι → Option Bool) (xs : List (Signed ι)) :
    (Rule.resolveAll know xs).isSome =
      (xs.filter fun x => (know x.2).isSome).all fun x => know x.2 == some x.1 := by
  induction xs with
  | nil => rfl
  | cons x xs ih =>
    rw [Rule.resolveAll, List.filter_cons]
    cases hx : know x.2 with
    | none => simpa using ih
    | some b =>
      by_cases hb : b = x.1
      · simpa [hb, hx] using ih
      · simp [hb, hx]

end Checks

section Instances

variable [Scale κ] {F : String → Prop} {setting setting' : Setting κ} {name : ι → String} {r r' : Rule ι}
  {a : LiftedAction κ} (h : AgreeOutside F setting setting') (ha : a.Avoids F)
include h ha

omit [Scale κ] in
theorem assignments_withRule (types objects : List TypedName) :
    setting'.assignments (setting'.slots types objects (withRule name r a))
        (setting'.closedChecks (withRule name r a)) =
      if (r.resolve (known setting' name)).isSome then
        setting.assignments (setting.slots types objects a) (setting.closedChecks a)
      else (do
        let _ ← setting.holdEach [] (setting.closedChecks a)
        return []) := by
  have hclosed : ∀ l ∈ setting.closedChecks a, l.Avoids F :=
    fun l hl => ha.condition l (List.mem_of_mem_filter hl)
  have hslots : ∀ s ∈ setting.slots types objects a, ∀ l ∈ s.checks, l.Avoids F := by
    intro s hs l hl
    obtain ⟨p, -, rfl⟩ := List.mem_map.1 hs
    exact ha.condition l (List.mem_of_mem_filter hl)
  have hsome : (r.resolve (known setting' name)).isSome =
      (r.condition.filter fun x => (known setting' name x.2).isSome).all fun x =>
        known setting' name x.2 == some x.1 := by
    rw [Rule.resolve, Option.isSome_map, isSome_resolveAll]
  rw [slots_withRule h ha, closedChecks_withRule h ha, hsome]
  unfold Setting.assignments
  rw [holdEach_append, h.holdEach hclosed, holdEach_fluentLiterals, h.extend hslots]
  rcases setting.holdEach [] (setting.closedChecks a) with e | x
  · split <;> rfl
  · generalize (r.condition.filter fun x => (known setting' name x.2).isSome).all (fun x =>
      known setting' name x.2 == some x.1) = y
    cases x <;> cases y <;> rfl

/-- A monitored schema has the instances that it had, with the rule of the monitor. -/
theorem instances_withRule (hr : r.resolve (known setting' name) = some r')
    (types objects : List TypedName) :
    setting'.instances types objects (withRule name r a) =
      List.map (augment name r') <$> setting.instances types objects a := by
  unfold Setting.instances
  rw [assignments_withRule h ha, if_pos (by rw [hr]; rfl)]
  rcases setting.assignments (setting.slots types objects a) (setting.closedChecks a) with e | found
  · rfl
  · exact namedAll_withRule h ha hr found

/-- A monitored schema has no instances if the monitor never lets it. -/
theorem instances_withRule_of_none (hr : r.resolve (known setting' name) = none)
    (types objects : List TypedName) :
    setting'.instances types objects (withRule name r a) =
      (do
        let _ ← setting.holdEach [] (setting.closedChecks a)
        return []) := by
  unfold Setting.instances
  rw [assignments_withRule h ha, if_neg (by rw [hr]; simp)]
  rcases setting.holdEach [] (setting.closedChecks a) with e | x
  · rfl
  · rfl

end Instances

end Waymark.Encoding
