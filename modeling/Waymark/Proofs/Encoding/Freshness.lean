import Waymark.Proofs.Encoding.Exactness
import Waymark.Proofs.Ground.Propositional

/-!
# Fluents of their own

The fluents that a tool declares differ from each other and from all predicates of the domain. The stem of
their names is chosen with a view to the predicates that the domain declares: stems are tried one after another
until one is free, and since a predicate takes one stem at most there are no more tries in vain than predicates.
A task may use other predicates, since grounding asks for no declaration, and one of those may be taken for a
fluent.

* `Tries`, `tries_fluentStem`: trying stems one after another, and how soon one is found;
* `nodup_fluents`: the fluents of all formulas;
* `Tool.cells`, `Tool.fluents_of_monitor`: what the fluents of a tool stand for;
* `fluents_named_apart`: the choice of a stem and the fluents with this stem;
* `compile_predicates`: the predicates of a compiled domain;
* `compile_captures_notify`: a predicate without a declaration that is taken for a fluent.
-/

namespace Waymark.Encoding

open Planning Constraint Ground Number

variable {ι : Type}

/-- The names of the predicates that a domain declares. -/
def declared (domain : Domain) : List String := domain.predicates.map (·.name)

theorem not_fluent_of_mem_declared {domain : Domain} {p : String} (hp : p ∈ declared domain) :
    ¬ Fluent (fluentStem domain) p := by
  intro hfluent
  obtain ⟨q, hq, rfl⟩ := List.mem_map.1 hp
  have htaken : isTaken domain (fluentStem domain) = true := isTaken_iff.2 ⟨q, hq, hfluent⟩
  rw [isTaken_fluentStem] at htaken
  cases htaken

theorem not_fluent_of_mem_reserved {domain : Domain} {p : String} (hp : p ∈ reserved) :
    ¬ Fluent (fluentStem domain) p := by
  obtain ⟨i, hi⟩ := exists_fluentStem_eq domain
  rw [hi]
  exact fun hfluent => not_mem_reserved hfluent hp

/-! ## Trying stems -/

section Stems

variable {domain : Domain}

/-- From a candidate on, stems are tried as long as they are taken, `next` being the number of the next one. After `n`
tries in vain `result` is free. -/
inductive Tries (domain : Domain) : (candidate : String) → (next n : Nat) → (result : String) → Prop where
  | free {candidate : String} {next : Nat} (hfree : isTaken domain candidate = false) :
      Tries domain candidate next 0 candidate
  | taken {candidate result : String} {next n : Nat} (htaken : isTaken domain candidate = true)
      (hrest : Tries domain ("ltl" ++ toString next) (next + 1) n result) :
      Tries domain candidate next (n + 1) result

/-- There is one way to try stems. -/
theorem Tries.unique {candidate result result' : String} {next n n' : Nat} (h : Tries domain candidate next n result)
    (h' : Tries domain candidate next n' result') : n = n' ∧ result = result' := by
  induction h generalizing n' with
  | free hfree =>
    cases h' with
    | free _ => exact ⟨rfl, rfl⟩
    | taken htaken _ => simp [hfree] at htaken
  | taken htaken _ ih =>
    cases h' with
    | free hfree => simp [htaken] at hfree
    | taken _ hrest =>
      obtain ⟨rfl, rfl⟩ := ih hrest
      exact ⟨rfl, rfl⟩

/-- Stems that are taken are tried in vain until one is free. -/
theorem tries_of_taken {i n : Nat} (htaken : ∀ j < n, isTaken domain (stem (i + j)) = true)
    (hfree : isTaken domain (stem (i + n)) = false) : Tries domain (stem i) (i + 1) n (stem (i + n)) := by
  induction n generalizing i with
  | zero => exact .free hfree
  | succ n ih =>
    have hshift (j : Nat) : i + (j + 1) = i + 1 + j := by omega
    rw [hshift n] at hfree ⊢
    have hrest := ih (fun j hj => hshift j ▸ htaken (j + 1) (Nat.succ_lt_succ hj)) hfree
    exact .taken (htaken 0 n.succ_pos) hrest

/-- All stems before the chosen one are taken, and there are at most as many as predicates. -/
theorem exists_fluentStem_first (domain : Domain) : ∃ n ≤ domain.predicates.length, fluentStem domain = stem n ∧
    ∀ j < n, isTaken domain (stem j) = true := by
  unfold fluentStem
  rw [List.find?_map]
  cases hfind : (List.range (domain.predicates.length + 1)).find? ((fun s => !isTaken domain s) ∘ stem) with
  | none =>
    refine ⟨_, le_rfl, rfl, fun j hj => ?_⟩
    simpa using List.find?_eq_none.1 hfind j (List.mem_range.2 (Nat.lt_succ_of_lt hj))
  | some n =>
    obtain ⟨-, hn, hbefore⟩ := List.find?_range_eq_some.1 hfind
    exact ⟨n, Nat.le_of_lt_succ (List.mem_range.1 hn), rfl, fun j hj => by simpa using hbefore j hj⟩

/-- **A stem is found** after no more tries in vain than there are predicates. -/
theorem tries_fluentStem (domain : Domain) : ∃ n ≤ domain.predicates.length, ∀ m result,
    Tries domain "ltl" 1 m result ↔ m = n ∧ result = fluentStem domain := by
  obtain ⟨n, hn, hstem, htaken⟩ := exists_fluentStem_first domain
  have htries : Tries domain "ltl" 1 n (fluentStem domain) := by
    have hfree := isTaken_fluentStem domain
    have hzero : stem 0 = "ltl" := rfl
    rw [hstem] at hfree
    have hrun := tries_of_taken (i := 0) (n := n) (by simpa using htaken) (by simpa using hfree)
    rwa [Nat.zero_add, Nat.zero_add, hzero, ← hstem] at hrun
  refine ⟨n, hn, fun m result => ⟨fun h => h.unique htries, ?_⟩⟩
  rintro ⟨rfl, rfl⟩
  exact htries

end Stems

/-! ## Fluents of monitors -/

/-- The fluents of a monitor stand for different cells of its formula. -/
def Declares (name : String → Nat × ι → String) (stem : String) (i : Nat) (monitor : Monitor) : Prop :=
  ∃ cells : List ι, cells.Nodup ∧ monitor.fluents = cells.map fun c => name stem (i, c)

theorem fluents_tracker (stem : String) (i : Nat) (t : Template) : (tracker stem i t).fluents =
    ((states t).map TrackCell.state ++ [TrackCell.accept]).map fun c => trackName stem (i, c) := by
  simp [tracker, trackName, Function.comp_def]

theorem declares_tracker (stem : String) (i : Nat) (t : Template) :
    Declares trackName stem i (tracker stem i t) := by
  refine ⟨(states t).map .state ++ [.accept], ?_, fluents_tracker stem i t⟩
  have hstates : ((states t).map TrackCell.state).Nodup :=
    List.nodup_range.map fun _ _ h => TrackCell.state.inj h
  exact List.nodup_append.2 ⟨hstates, List.nodup_singleton _, by simp⟩

theorem declares_pattern {stem : String} {i : Nat} {t : Template} {monitor : Monitor}
    (h : pattern? stem i t = some monitor) : Declares memoryName stem i monitor :=
  ⟨patternMemories t, by cases t <;> decide, fluents_pattern h⟩

/-- Monitors of different places declare different fluents. -/
theorem nodup_fluents {name : String → Nat × ι → String} (hname : ∀ stem, Function.Injective (name stem))
    {stem : String} {bs : List Binding} {k : Nat} {ws : List Watch}
    (h : List.Forall₂ (fun b w => Declares name stem b.2 w.monitor) (bs.zipIdx k) ws) :
    (ws.flatMap (·.monitor.fluents)).Nodup ∧
      ∀ f ∈ ws.flatMap (·.monitor.fluents), ∃ i c, k ≤ i ∧ f = name stem (i, c) := by
  induction bs generalizing k ws with
  | nil =>
    cases h
    exact ⟨List.nodup_nil, by simp⟩
  | cons b bs ih =>
    cases h with
    | @cons _ w _ ws hw hws =>
      obtain ⟨hnodup, hlater⟩ := ih hws
      obtain ⟨cells, hcells, hfluents⟩ := hw
      have hfirst : ∀ f ∈ w.monitor.fluents, ∃ c, f = name stem (k, c) := by
        intro f hf
        rw [hfluents] at hf
        obtain ⟨c, -, rfl⟩ := List.mem_map.1 hf
        exact ⟨c, rfl⟩
      rw [List.flatMap_cons]
      refine ⟨List.nodup_append.2 ⟨?_, hnodup, ?_⟩, fun f hf => ?_⟩
      · rw [hfluents]
        exact hcells.map fun c d hcd => (Prod.mk.inj (hname stem hcd)).2
      · rintro f hf g hg rfl
        obtain ⟨c, rfl⟩ := hfirst f hf
        obtain ⟨i, d, hi, heq⟩ := hlater _ hg
        have := (Prod.mk.inj (hname stem heq)).1
        omega
      · rcases List.mem_append.1 hf with hf | hf
        · obtain ⟨c, rfl⟩ := hfirst f hf
          exact ⟨k, c, le_rfl, rfl⟩
        · obtain ⟨i, c, hi, rfl⟩ := hlater f hf
          exact ⟨i, c, by omega, rfl⟩

/-- The fluents of the monitors of a tool differ, and begin with the stem. -/
theorem fluents_of_watches {tool : Tool} {stem : String} {bs : List Binding} {ws : List Watch}
    (h : watches tool stem bs = .ok ws) :
    (ws.flatMap (·.monitor.fluents)).Nodup ∧ ∀ f ∈ ws.flatMap (·.monitor.fluents), Fluent stem f := by
  have hwatches := watches_eq_ok h
  cases tool with
  | lf2f =>
    have hdeclares : List.Forall₂ (fun b w => Declares trackName stem b.2 w.monitor) bs.zipIdx ws :=
      hwatches.imp fun b w hw => Except.ok.inj hw.2 ▸ declares_tracker stem b.2 b.1.formula.template
    obtain ⟨hnodup, hfluents⟩ := nodup_fluents trackName_injective hdeclares
    refine ⟨hnodup, fun f hf => ?_⟩
    obtain ⟨i, c, -, rfl⟩ := hfluents f hf
    exact fluent_trackName stem (i, c)
  | p4p =>
    have hdeclares : List.Forall₂ (fun b w => Declares memoryName stem b.2 w.monitor) bs.zipIdx ws :=
      hwatches.imp fun b w hw => declares_pattern (pattern_of_monitor hw.2)
    obtain ⟨hnodup, hfluents⟩ := nodup_fluents memoryName_injective hdeclares
    refine ⟨hnodup, fun f hf => ?_⟩
    obtain ⟨i, c, -, rfl⟩ := hfluents f hf
    exact fluent_memoryName stem (i, c)

/-- What a fluent of a tool says about its formula: the state of an automaton, or what a pattern remembers. -/
def Tool.Cell : Tool → Type
  | .lf2f => TrackCell
  | .p4p => Memory

/-- The name of the fluent for a cell of the formula at a place. -/
def Tool.fluentName : (tool : Tool) → String → Nat × tool.Cell → String
  | .lf2f => trackName
  | .p4p => memoryName

/-- What the fluents for a template stand for. -/
def Tool.cells : (tool : Tool) → Template → List tool.Cell
  | .lf2f => fun t => (states t).map TrackCell.state ++ [TrackCell.accept]
  | .p4p => patternMemories

theorem Tool.fluentName_injective (tool : Tool) (stem : String) : Function.Injective (tool.fluentName stem) := by
  cases tool with
  | lf2f => exact trackName_injective stem
  | p4p => exact memoryName_injective stem

/-- A monitor has a fluent for each of its cells. -/
theorem Tool.fluents_of_monitor {tool : Tool} {stem : String} {i : Nat} {t : Template} {m : Monitor}
    (h : tool.monitor stem i t = .ok m) : m.fluents = (tool.cells t).map fun c => tool.fluentName stem (i, c) := by
  cases tool with
  | lf2f =>
    obtain rfl := Except.ok.inj h
    exact fluents_tracker stem i t
  | p4p => exact fluents_pattern (pattern_of_monitor h)

/-- **Fluents have names of their own.** The search for a stem ends after at most as many tries in vain as the domain
declares predicates, always with the stem that is used, and no predicate begins with it and a hyphen. The fluents of a
tool are named for the place of their formula and for what they say about it, where different places and different
things to say make different names. -/
theorem fluents_named_apart (domain : Domain) :
    (∃ n ≤ domain.predicates.length, ∀ m result,
      Tries domain "ltl" 1 m result ↔ m = n ∧ result = fluentStem domain) ∧
    (∀ p ∈ domain.predicates, ¬ Fluent (fluentStem domain) p.name) ∧
    ∀ (tool : Tool) (stem : String), Function.Injective (tool.fluentName stem) ∧
      ∀ bindings ws, watches tool stem bindings = .ok ws →
        List.Forall₂ (fun b w => w.monitor.fluents =
          (tool.cells b.1.formula.template).map fun c => tool.fluentName stem (b.2, c)) bindings.zipIdx ws ∧
        (ws.flatMap (·.monitor.fluents)).Nodup := by
  refine ⟨tries_fluentStem domain, fun p hp => ?_, fun tool stem => ⟨tool.fluentName_injective stem, ?_⟩⟩
  · exact not_fluent_of_mem_declared (List.mem_map_of_mem hp)
  · intro bindings ws hws
    exact ⟨(watches_eq_ok hws).imp fun _ _ h => Tool.fluents_of_monitor h.2, (fluents_of_watches hws).1⟩

/-- A domain that has been compiled with `ltl` and with `ltl1`. -/
def recompiled : Domain where
  name := "recompiled"
  predicates := [⟨"sent", []⟩, ⟨"ltl1-seen-a0", []⟩, ⟨"ltl-q0-1", []⟩]
  schemas := [{ name := "send", effect := some (.list [.atom "sent"]) }]

/-- That something is sent twice, and that something else is sent right after it. -/
def sends : List Binding :=
  [⟨⟨.existenceTwo, ["send"], rfl, by decide⟩, .executes "send", .executes "send"⟩,
    ⟨⟨.chainResponse, ["send", "sent"], rfl, by decide⟩, .executes "send", .adds "sent"⟩]

/-- The third stem is free. -/
theorem fluents_named_apart_recompiled :
    Tries recompiled "ltl" 1 2 "ltl2" ∧ (∀ p ∈ recompiled.predicates, ¬ Fluent "ltl2" p.name) ∧
      ∃ ws, watches .lf2f "ltl2" sends = .ok ws ∧ (ws.flatMap (·.monitor.fluents)).Nodup := by
  obtain ⟨-, hfree, hnames⟩ := fluents_named_apart recompiled
  have hstem : fluentStem recompiled = "ltl2" := by decide
  have hrun : Tries recompiled "ltl" 1 2 "ltl2" :=
    .taken (by decide) (.taken (by decide) (.free (by decide)))
  have hws : ∃ ws, watches .lf2f "ltl2" sends = .ok ws := ⟨_, rfl⟩
  obtain ⟨ws, hws⟩ := hws
  exact ⟨hrun, hstem ▸ hfree, ws, hws, ((hnames .lf2f "ltl2").2 sends ws hws).2⟩

/-! ## Compiled domains -/

/-- **The predicates of a compiled domain** are those of the domain and fluents, which differ from each
other and from those of the domain. If all that a task uses has a declaration or a meaning of its own, no
fluent occurs in it. -/
theorem compile_predicates {domain domain' : Domain} {problem problem' : Problem} {formulas : List Formula}
    {tool : Tool} (h : compile domain problem formulas tool = .ok (domain', problem')) :
    ∃ fluents : List String,
      domain'.predicates = domain.predicates ++ fluents.map (fun name => ⟨name, []⟩) ∧ fluents.Nodup ∧
      (∀ f ∈ fluents, Fluent (fluentStem domain) f ∧ f ∉ declared domain) ∧
      ((∀ p ∈ usedPredicates domain problem, p ∈ declared domain ∨ p ∈ reserved) →
        ∀ f ∈ fluents, f ∉ usedPredicates domain problem) := by
  obtain ⟨bs, ws, -, hws, rfl, rfl⟩ := compile_eq_ok h
  obtain ⟨hnodup, hfluents⟩ := fluents_of_watches hws
  obtain ⟨_, hdomain⟩ := monitoredDomain_eq ws domain
  refine ⟨ws.flatMap (·.monitor.fluents), by rw [hdomain], hnodup, fun f hf => ⟨hfluents f hf, ?_⟩, ?_⟩
  · exact fun hdeclared => not_fluent_of_mem_declared hdeclared (hfluents f hf)
  · intro hused f hf hmem
    rcases hused f hmem with hdeclared | hreserved
    · exact not_fluent_of_mem_declared hdeclared (hfluents f hf)
    · exact not_fluent_of_mem_reserved hreserved (hfluents f hf)

theorem compile_predicates_answering :
    ∃ domain' problem', compile answering doing [answered] .lf2f = .ok (domain', problem') ∧
      (∀ p ∈ usedPredicates answering doing, p ∈ declared answering ∨ p ∈ reserved) ∧
      ∃ fluents : List String,
        domain'.predicates = answering.predicates ++ fluents.map (fun name => ⟨name, []⟩) ∧
        fluents.Nodup ∧ (∀ f ∈ fluents, f ∉ declared answering) ∧
        ∀ f ∈ fluents, f ∉ usedPredicates answering doing := by
  have hcompile : ∃ domain' problem',
      compile answering doing [answered] .lf2f = .ok (domain', problem') := ⟨_, _, rfl⟩
  obtain ⟨domain', problem', hcompile⟩ := hcompile
  have hused : ∀ p ∈ usedPredicates answering doing, p ∈ declared answering ∨ p ∈ reserved := by decide
  obtain ⟨fluents, hpredicates, hnodup, hfresh, hfree⟩ := compile_predicates hcompile
  exact ⟨domain', problem', hcompile, hused, fluents, hpredicates, hnodup, fun f hf => (hfresh f hf).2,
    hfree hused⟩

/-- A domain where drafts are noted under a name that no predicate has. -/
def notify : Domain where
  name := "notify"
  predicates := [⟨"drafted", []⟩, ⟨"sent", []⟩]
  schemas :=
    [{ name := "draft"
       effect := some (.list [.atom "and", .list [.atom "drafted"], .list [.atom "ltl-seen-a0"]]) },
     { name := "gmail", condition := some (.list [.atom "drafted"])
       effect := some (.list [.atom "sent"]) },
     { name := "slack", condition := some (.list [.atom "drafted"])
       effect := some (.list [.atom "sent"]) }]

/-- The problem to send. -/
def sending : Problem where
  name := "sending"
  domain := "notify"
  goal := .list [.atom "sent"]

/-- That `gmail` is used. -/
def mailed : Formula := ⟨.existence, ["gmail"], rfl, by decide⟩

/-- **A predicate is taken for a fluent.** The task has a ground task and is compiled, and a fluent that is
declared for the formula is a predicate that the task uses. -/
theorem compile_captures_notify :
    (∃ t : Ground.Task Double, Task.ground notify sending = .ok t) ∧
      ∃ domain' problem', compile notify sending [mailed] .p4p = .ok (domain', problem') ∧
        ∃ fluents : List String,
          domain'.predicates = notify.predicates ++ fluents.map (fun name => ⟨name, []⟩) ∧
          ∃ f ∈ fluents, f ∈ usedPredicates notify sending := by
  constructor
  · have hbare : ∃ n, bareTask (κ := Double) notify sending = some n := ⟨_, rfl⟩
    obtain ⟨n, hn⟩ := hbare
    obtain ⟨facts, -, hfull⟩ := exists_groundFully_of_bare hn
    exact ⟨_, by rw [Task.ground, hfull]; rfl⟩
  · exact ⟨_, _, rfl, ["ltl-seen-a0"], by decide, "ltl-seen-a0", List.mem_singleton_self _, by decide⟩

end Waymark.Encoding
