import Waymark.Number.Double
import Waymark.Proofs.Encoding.Method

/-!
# Compilation is exact

The plans of a compiled task are the plans of the task that satisfy every formula, at the same costs.
Which formula a plan satisfies is said by the schemas of its actions, of which the names tell.

* `Method.Serves.isPlan_iff_of_isWord`, `Method.Serves.isPlan_iff`: the plans of what a tool makes of a task;
* `isPlan_lf2f_iff`: with automata, those that the automaton of each formula accepts;
* `isPlan_p4p_iff`: with patterns, those that satisfy each template.
-/

namespace Waymark.Encoding

open Ground Planning Constraint Number

variable {ι κ : Type}

/-! ## Schemas of plans -/

theorem filterMap_of_mapM {α β : Type} {f : α → Option β} {xs : List α} {ys : List β}
    (h : xs.mapM f = some ys) : xs.filterMap f = ys := by
  induction xs generalizing ys with
  | nil => exact Option.some.inj h
  | cons x xs ih =>
    simp only [List.mapM_cons, Option.bind_eq_bind, Option.bind_eq_some_iff, Option.pure_def,
      Option.some.injEq] at h
    obtain ⟨y, hy, zs, hzs, rfl⟩ := h
    rw [List.filterMap_cons, hy, ih hzs]

/-- The name of each action of a plan tells its schema. -/
theorem exists_schemas_of_steps [Scale κ] {b : TaggedTask κ} {schemaOf : String → Option Schema}
    (hschema : ∀ p ∈ b.instances, schemaOf p.2.name = some p.1) {S S' : Set String}
    {names : List String} {cost cost' : κ} (h : Steps b.toNamed.Takes S cost names S' cost') :
    ∃ ss, names.mapM schemaOf = some ss := by
  induction h with
  | refl => exact ⟨[], rfl⟩
  | head hstep _ ih =>
    obtain ⟨a, ha, rfl, -, -, -⟩ := hstep
    obtain ⟨p, hp, rfl⟩ := List.mem_map.1 ha
    obtain ⟨ss, hss⟩ := ih
    exact ⟨p.1 :: ss, by rw [List.mapM_cons, hschema p hp, hss]; rfl⟩

theorem forall_bindings_iff {domain : Domain} {formulas : List Formula} {bs : List Binding}
    (h : formulas.mapM (Binding.of domain) = .ok bs) {P : Binding → Prop} :
    (∀ b ∈ bs, P b) ↔ ∀ f ∈ formulas, ∃ b, Binding.of domain f = .ok b ∧ P b := by
  have hall := mapM_eq_ok.1 h
  clear h
  induction hall with
  | nil => simp
  | @cons f b fs bs hb _ ih =>
    rw [List.forall_mem_cons, List.forall_mem_cons]
    refine and_congr ⟨fun hP => ⟨b, hb, hP⟩, fun ⟨b', hb', hP⟩ => ?_⟩ ih
    rwa [Except.ok.inj (hb.symm.trans hb')]

theorem Binding.formula_of {domain : Domain} {f : Formula} {b : Binding}
    (h : Binding.of domain f = .ok b) : b.formula = f := by
  obtain ⟨_, -, h⟩ := bind_eq_ok.1 h
  obtain ⟨_, -, h⟩ := bind_eq_ok.1 h
  rw [← Except.ok.inj h]

/-! ## Plans -/

section Plans

variable [Scale κ] {m : Method ι} {tool : Tool} (hm : m.Serves tool)
  {domain domain' : Domain} {problem problem' : Problem} {formulas : List Formula}
  (hword : ∀ s ∈ domain.schemas, IsWord s.name) (hnodup : (domain.schemas.map (·.name)).Nodup)
  (hfresh : ∀ p ∈ usedPredicates domain problem, ¬ Fluent (fluentStem domain) p)
include hword hnodup hfresh

omit [Scale κ] hfresh in
theorem schemaOf?_name {b : TaggedTask κ} {F : String → Prop} (hb : b.Avoids domain.schemas F) :
    ∀ p ∈ b.instances, domain.schemaOf? p.2.name = some p.1 := by
  intro p hp
  obtain ⟨args, hname⟩ := hb.name p hp
  rw [hname]
  exact Domain.schemaOf?_atomName hword hnodup (hb.schema p hp) args

include hm

/-- **The plans of a compiled task** are those of the task that the automaton of each formula
accepts. -/
theorem Method.Serves.isPlan_iff_of_isWord
    (hcompile : compile domain problem formulas tool = .ok (domain', problem')) {t : Ground.Task κ}
    (hground : Task.ground domain problem = .ok t) :
    ∃ t' : Ground.Task κ, Task.ground domain' problem' = .ok t' ∧ ∀ names cost,
      t'.IsPlan names cost ↔ t.IsPlan names cost ∧
        ∃ schemas, names.mapM domain.schemaOf? = some schemas ∧
          ∀ f ∈ formulas, ∃ binding, Binding.of domain f = .ok binding ∧
            f.template.Accepts (schemas.map binding.label) := by
  obtain ⟨bs, ws, k, hbs, rfl, rfl, hmonitors, hfaithful⟩ := hm.of_compile hfresh hcompile
  obtain ⟨n, hn, full, hfull, rfl⟩ := exists_named_of_ground hground
  obtain ⟨n', hn'⟩ := exists_named_monitored hmonitors hn
  obtain ⟨_, ht', full', hfull', rfl⟩ := exists_ground_of_named hn'
  obtain ⟨b, know, hb, rfl, hlayered⟩ := hmonitors.exists_layered hn'
  obtain ⟨b', hb', rfl⟩ := TaggedTask.of_named hn
  obtain rfl := Except.ok.inj (hb.symm.trans hb')
  refine ⟨_, ht', fun names cost => ?_⟩
  have hschema := schemaOf?_name hword hnodup hlayered.avoids
  rw [hfull'.isPlan_iff, hfull.isPlan_iff, hlayered.isPlan_monitored_iff hfaithful hschema]
  refine and_congr_right fun hplan => ?_
  obtain ⟨S, hrun, -⟩ := hplan
  obtain ⟨ss, hss⟩ := exists_schemas_of_steps hschema hrun
  rw [filterMap_of_mapM hss, accepts_jointMachine_start, forall_bindings_iff hbs]
  have hformulas : (∀ f ∈ formulas, ∃ b, Binding.of domain f = .ok b ∧
        b.formula.template.Accepts (ss.map b.label)) ↔
      ∀ f ∈ formulas, ∃ b, Binding.of domain f = .ok b ∧ f.template.Accepts (ss.map b.label) :=
    forall₂_congr fun f _ => exists_congr fun b => and_congr_right fun hb => by
      rw [Binding.formula_of hb]
  rw [hformulas]
  exact ⟨fun h => ⟨ss, hss, h⟩, fun ⟨ss', hss', h⟩ => by
    rwa [Option.some.inj (hss.symm.trans hss')]⟩

end Plans

/-- The same for a domain that has been read. -/
theorem Method.Serves.isPlan_iff [Scale κ] {m : Method ι} {tool : Tool} (hm : m.Serves tool) {text : String}
    {domain domain' : Domain} {problem problem' : Problem} {formulas : List Formula}
    (hread : Domain.read text = .ok domain) (hnodup : (domain.schemas.map (·.name)).Nodup)
    (hfresh : ∀ p ∈ usedPredicates domain problem, ¬ Fluent (fluentStem domain) p)
    (hcompile : compile domain problem formulas tool = .ok (domain', problem')) {t : Ground.Task κ}
    (hground : Task.ground domain problem = .ok t) :
    ∃ t' : Ground.Task κ, Task.ground domain' problem' = .ok t' ∧ ∀ names cost,
      t'.IsPlan names cost ↔ t.IsPlan names cost ∧
        ∃ schemas, names.mapM domain.schemaOf? = some schemas ∧
          ∀ f ∈ formulas, ∃ binding, Binding.of domain f = .ok binding ∧
            f.template.Accepts (schemas.map binding.label) :=
  hm.isPlan_iff_of_isWord (Domain.isWord_of_read hread) hnodup hfresh hcompile hground

/-! ### The tools -/

/-- A domain in which `b` can answer `a`, which alone achieves something. -/
def answering : Domain where
  name := "answering"
  predicates := [⟨"done", []⟩]
  schemas := [{ name := "a", effect := some (.list [.atom "done"]) }, { name := "b" }]

/-- The text of that domain. -/
def answeringText : String :=
  "(define (domain answering) (:predicates (done)) " ++
    "(:action a :parameters () :effect (done)) (:action b :parameters ()))"

/-- The problem to do `a`. -/
def doing : Problem where
  name := "doing"
  domain := "answering"
  goal := .list [.atom "done"]

/-- That `b` answers `a`. -/
def answered : Formula := ⟨.response, ["a", "b"], rfl, by decide⟩

theorem read_answeringText : Domain.read answeringText = .ok answering := by decide +kernel

theorem fresh_answering :
    ∀ p ∈ usedPredicates answering doing, ¬ Fluent (fluentStem answering) p := by decide

theorem exists_ground_answering : ∃ t : Ground.Task Double, Task.ground answering doing = .ok t := by
  have hn : ∃ n, NamedTask.of (κ := Double) answering doing = .ok n := ⟨_, rfl⟩
  obtain ⟨n, hn⟩ := hn
  obtain ⟨t, ht, -⟩ := exists_ground_of_named hn
  exact ⟨t, ht⟩

variable [Scale κ] {text : String} {domain domain' : Domain} {problem problem' : Problem}
  {formulas : List Formula}

/-- **Compilation with automata is exact.** The compiled task has a ground task if the task has one. Its
plans are the plans of the task whose schemas have labels that the automaton of each formula accepts,
at the same costs. -/
theorem isPlan_lf2f_iff (hread : Domain.read text = .ok domain)
    (hnodup : (domain.schemas.map (·.name)).Nodup)
    (hfresh : ∀ p ∈ usedPredicates domain problem, ¬ Fluent (fluentStem domain) p)
    (hcompile : compile domain problem formulas .lf2f = .ok (domain', problem')) {t : Ground.Task κ}
    (hground : Task.ground domain problem = .ok t) :
    ∃ t' : Ground.Task κ, Task.ground domain' problem' = .ok t' ∧ ∀ names cost,
      t'.IsPlan names cost ↔ t.IsPlan names cost ∧
        ∃ schemas, names.mapM domain.schemaOf? = some schemas ∧
          ∀ f ∈ formulas, ∃ binding, Binding.of domain f = .ok binding ∧
            ∃ q, f.template.run (schemas.map binding.label) = some q ∧
              f.template.accepting q = true :=
  tracking_serves.isPlan_iff hread hnodup hfresh hcompile hground

theorem isPlan_lf2f_iff_answered :
    ∃ domain' problem' t, Domain.read answeringText = .ok answering ∧
      (answering.schemas.map (·.name)).Nodup ∧
      (∀ p ∈ usedPredicates answering doing, ¬ Fluent (fluentStem answering) p) ∧
      compile answering doing [answered] .lf2f = .ok (domain', problem') ∧
      Task.ground (κ := Double) answering doing = .ok t ∧
      ∃ t' : Ground.Task Double, Task.ground domain' problem' = .ok t' ∧ ∀ names cost,
        t'.IsPlan names cost ↔ t.IsPlan names cost ∧
          ∃ schemas, names.mapM answering.schemaOf? = some schemas ∧
            ∀ f ∈ [answered], ∃ binding, Binding.of answering f = .ok binding ∧
              ∃ q, f.template.run (schemas.map binding.label) = some q ∧
                f.template.accepting q = true := by
  obtain ⟨t, ht⟩ := exists_ground_answering
  have hcompile : ∃ domain' problem',
      compile answering doing [answered] .lf2f = .ok (domain', problem') := ⟨_, _, rfl⟩
  obtain ⟨domain', problem', hcompile⟩ := hcompile
  have hnodup : (answering.schemas.map (·.name)).Nodup := by decide
  exact ⟨domain', problem', t, read_answeringText, hnodup, fresh_answering, hcompile, ht,
    isPlan_lf2f_iff read_answeringText hnodup fresh_answering hcompile ht⟩

/-- **Compilation with patterns is exact.** The compiled task has a ground task if the task has one. Its
plans are the plans of the task whose schemas have labels that satisfy the template of each formula,
at the same costs. -/
theorem isPlan_p4p_iff (hread : Domain.read text = .ok domain)
    (hnodup : (domain.schemas.map (·.name)).Nodup)
    (hfresh : ∀ p ∈ usedPredicates domain problem, ¬ Fluent (fluentStem domain) p)
    (hcompile : compile domain problem formulas .p4p = .ok (domain', problem')) {t : Ground.Task κ}
    (hground : Task.ground domain problem = .ok t) :
    ∃ t' : Ground.Task κ, Task.ground domain' problem' = .ok t' ∧ ∀ names cost,
      t'.IsPlan names cost ↔ t.IsPlan names cost ∧
        ∃ schemas, names.mapM domain.schemaOf? = some schemas ∧
          ∀ f ∈ formulas, ∃ binding, Binding.of domain f = .ok binding ∧
            f.template.Holds (schemas.map binding.label) := by
  obtain ⟨t', ht', hplans⟩ := patterns_serves.isPlan_iff hread hnodup hfresh hcompile hground
  refine ⟨t', ht', fun names cost => ?_⟩
  simp only [hplans, Template.accepts_iff_holds]

theorem isPlan_p4p_iff_answered :
    ∃ domain' problem' t, Domain.read answeringText = .ok answering ∧
      (answering.schemas.map (·.name)).Nodup ∧
      (∀ p ∈ usedPredicates answering doing, ¬ Fluent (fluentStem answering) p) ∧
      compile answering doing [answered] .p4p = .ok (domain', problem') ∧
      Task.ground (κ := Double) answering doing = .ok t ∧
      ∃ t' : Ground.Task Double, Task.ground domain' problem' = .ok t' ∧ ∀ names cost,
        t'.IsPlan names cost ↔ t.IsPlan names cost ∧
          ∃ schemas, names.mapM answering.schemaOf? = some schemas ∧
            ∀ f ∈ [answered], ∃ binding, Binding.of answering f = .ok binding ∧
              f.template.Holds (schemas.map binding.label) := by
  obtain ⟨t, ht⟩ := exists_ground_answering
  have hcompile : ∃ domain' problem',
      compile answering doing [answered] .p4p = .ok (domain', problem') := ⟨_, _, rfl⟩
  obtain ⟨domain', problem', hcompile⟩ := hcompile
  have hnodup : (answering.schemas.map (·.name)).Nodup := by decide
  exact ⟨domain', problem', t, read_answeringText, hnodup, fresh_answering, hcompile, ht,
    isPlan_p4p_iff read_answeringText hnodup fresh_answering hcompile ht⟩

end Waymark.Encoding
