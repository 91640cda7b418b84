import Waymark.Encoding.Compile
import Waymark.Proofs.Encoding.Patterns
import Waymark.Proofs.Encoding.Product
import Waymark.Proofs.Ground.Execution

/-!
# The two tools

Both tools watch a formula with cells of their own that follow the automaton of its template. What a
tool makes of a task is the task with the watchers of all formulas, side by side.

* `Method`, `Method.Serves`: a way to watch formulas, and the tool that works that way;
* `tracking_serves`, `patterns_serves`: automata and patterns are the ways of the two tools;
* `Method.Serves.of_compile`: what a tool makes of a domain and a problem;
* `Watcher.Monitors.exists_layered`: its ground task.
-/

namespace Waymark.Encoding

open Ground Planning Constraint Number

variable {ι κ : Type}

/-- A way to watch formulas: what is added for a template, the names of fluents, the cells that hold in
the states of the automaton, and the sets of cells that mean that the formula is violated. -/
structure Method (ι : Type) where
  watcher : Template → Watcher ι Label
  name : String → Nat × ι → String
  cells : Template → Nat → Set ι
  doomed : Template → Set ι → Prop

/-- The tool watches formulas in this way. -/
structure Method.Serves (m : Method ι) (tool : Tool) : Prop where
  fluent : ∀ stem c, Fluent stem (m.name stem c)
  injective : ∀ stem, Function.Injective (m.name stem)
  spells : ∀ {stem i t monitor}, tool.monitor stem i t = .ok monitor →
    (m.watcher t).Spells (fun c => m.name stem (i, c)) monitor.fluents monitor.init monitor.goal
      monitor.condition monitor.effect
  faithful : ∀ {stem i t monitor}, tool.monitor stem i t = .ok monitor →
    Faithful (m.watcher t) (templateMachine t) (m.cells t) (m.doomed t)

/-- Watching with automata. -/
def tracking : Method TrackCell where
  watcher := trackWatcher
  name := trackName
  cells := trackCells
  doomed _ _ := False

/-- Watching with patterns. -/
def patterns : Method Memory where
  watcher := patternWatcher
  name := memoryName
  cells := patternCells
  doomed := Violated

theorem tracking_serves : tracking.Serves .lf2f where
  fluent := fluent_trackName
  injective := trackName_injective
  spells h := by
    obtain rfl := Except.ok.inj h
    exact spells_tracker ..
  faithful {_ _ t _} _ := faithful_track t

theorem pattern_of_monitor {stem : String} {i : Nat} {t : Template} {monitor : Monitor}
    (h : Tool.p4p.monitor stem i t = .ok monitor) : pattern? stem i t = some monitor := by
  unfold Tool.monitor at h
  dsimp only at h
  split at h
  · rename_i hp
    rw [hp, Except.ok.inj h]
  · cases h

theorem not_isChain_of_pattern {stem : String} {i : Nat} {t : Template} {monitor : Monitor}
    (h : pattern? stem i t = some monitor) : t.isChain = false := by
  cases t <;> first | rfl | cases h

theorem patterns_serves : patterns.Serves .p4p where
  fluent := fluent_memoryName
  injective := memoryName_injective
  spells h := spells_pattern (pattern_of_monitor h)
  faithful h := faithful_pattern (not_isChain_of_pattern (pattern_of_monitor h))

/-! ## Compiled tasks -/

/-- The watchers of several formulas. -/
def Method.joint (m : Method ι) (bs : List Binding) : Watcher (Nat × ι) Schema :=
  Watcher.joint m.watcher bs.zipIdx

theorem compile_eq_ok {domain domain' : Domain} {problem problem' : Problem}
    {formulas : List Formula} {tool : Tool}
    (h : compile domain problem formulas tool = .ok (domain', problem')) :
    ∃ bs ws, formulas.mapM (Binding.of domain) = .ok bs ∧
      watches tool (fluentStem domain) bs = .ok ws ∧ domain' = monitoredDomain ws domain ∧
        problem' = monitoredProblem ws problem := by
  unfold compile at h
  dsimp only at h
  split at h
  · cases h
  · obtain ⟨bs, hbs, h⟩ := bind_eq_ok.1 h
    obtain ⟨ws, hws, h⟩ := bind_eq_ok.1 h
    obtain ⟨rfl, rfl⟩ := Prod.mk.inj (Except.ok.inj h)
    exact ⟨bs, ws, hbs, hws, rfl, rfl⟩

/-- A tool watches each formula with the monitor of its place. -/
theorem watches_eq_ok {tool : Tool} {stem : String} {bs : List Binding} {ws : List Watch}
    (h : watches tool stem bs = .ok ws) :
    List.Forall₂ (fun b w => w.label = b.1.label ∧
      tool.monitor stem b.2 b.1.formula.template = .ok w.monitor) bs.zipIdx ws := by
  refine (mapM_eq_ok.1 h).imp fun b w hb => ?_
  obtain ⟨monitor, hmonitor, rfl⟩ := map_eq_ok.1 hb
  exact ⟨rfl, hmonitor⟩

/-- What a tool adds is said by the watchers of all formulas. -/
theorem Method.Serves.spells_joint {m : Method ι} {tool : Tool} (hm : m.Serves tool) {stem : String} {bs : List Binding}
    {ws : List Watch} (h : watches tool stem bs = .ok ws) :
    (m.joint bs).Spells (m.name stem) (ws.flatMap (·.monitor.fluents)) (ws.flatMap (·.monitor.init)) (addedGoals ws)
      (addedConditions ws) (addedEffects ws) :=
  Encoding.spells_joint ((watches_eq_ok h).imp fun _ _ hb => ⟨hb.1, hm.spells hb.2⟩)

section Compile

variable {m : Method ι} {tool : Tool} (hm : m.Serves tool) {domain domain' : Domain}
  {problem problem' : Problem} {formulas : List Formula}
  (hfresh : ∀ p ∈ usedPredicates domain problem, ¬ Fluent (fluentStem domain) p)
  (h : compile domain problem formulas tool = .ok (domain', problem'))
include hm hfresh h

/-- What a tool makes of a domain and a problem: the watchers of all formulas follow their automata,
and say what the tool adds. -/
theorem Method.Serves.of_compile :
    ∃ bs ws k, formulas.mapM (Binding.of domain) = .ok bs ∧ domain' = monitoredDomain ws domain ∧
      problem' = monitoredProblem ws problem ∧
      (m.joint bs).Monitors (m.name (stem k)) k ws domain problem ∧
      Faithful (m.joint bs) (jointMachine bs) (jointCells m.cells bs) (jointDoomed m.doomed bs) := by
  obtain ⟨bs, ws, hbs, hws, rfl, rfl⟩ := compile_eq_ok h
  obtain ⟨k, hk⟩ := exists_fluentStem_eq domain
  rw [hk] at hws hfresh
  have hwatches := watches_eq_ok hws
  refine ⟨bs, ws, k, hbs, rfl, rfl, ⟨hm.spells_joint hws, hm.fluent _, hm.injective _, hfresh⟩, ?_⟩
  refine faithful_joint fun b hb => ?_
  obtain ⟨i, hi⟩ := List.mem_iff_getElem?.1 hb
  obtain ⟨w, -, -, hmonitor⟩ := exists_rel_of_mem hwatches.flip
    (List.mk_mem_zipIdx_iff_getElem?.2 hi)
  exact hm.faithful hmonitor

end Compile

theorem not_fluent_eq (k : Nat) : ¬ Fluent (stem k) "=" := fun h => not_mem_reserved h (by decide)

/-- The ground task of a domain and a problem with monitors has two layers. -/
theorem Watcher.Monitors.exists_layered [Scale κ] {w : Watcher ι Schema} {name : ι → String} {k : Nat}
    {ws : List Watch} {domain : Domain} {problem : Problem} (h : w.Monitors name k ws domain problem)
    {n : NamedTask κ}
    (hn : NamedTask.of (monitoredDomain ws domain) (monitoredProblem ws problem) = .ok n) :
    ∃ b know, TaggedTask.of domain problem = .ok b ∧ n = monitoredTask w name know b ∧
      Layered w name k know domain.schemas b := by
  obtain ⟨b, know, hb, hknow, rfl⟩ := named_monitored h hn
  exact ⟨b, know, hb, rfl, h.fluent, h.injective,
    TaggedTask.avoids_of (not_fluent_eq k) h.fresh hb, hknow⟩

end Waymark.Encoding
