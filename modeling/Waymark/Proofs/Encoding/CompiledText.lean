import Waymark.Proofs.Encoding.Legible

/-!
# Compiled tasks are read back

The texts of a compiled task have the tokens of its domain and of its problem. A tool joins what it adds to a condition,
an effect or the goal, which are then nested one level deeper than they were. So the texts are read as what was written,
unless a text of the given task is nested as deeply as can be read: then the compiled one can be nested too deeply.

* `legible_of_mem_compile`: a compiled task has names that are read as they are;
* `withConjuncts_within`, `within_compile`: compilation adds one level;
* `compileText_read`: what the texts of a compiled task are read as.
-/

namespace Waymark.Encoding

open Ground Planning Constraint Waymark.Expr

variable {n : Nat} {ι : Type}

/-! ## Conjunctions -/

theorem depth_le_of_mem_conjuncts {x : Expr} (h : x.depth ≤ n) : ∀ y ∈ x.conjuncts, y.depth ≤ n := by
  refine forall_mem_conjuncts (P := fun x => x.depth ≤ n) (fun xs h => ?_) h
  rw [depth, depthAll] at h
  have hxs : depthAll xs ≤ n := by omega
  exact depthAll_le.1 hxs

theorem depth_conjunction_le {xs : List Expr} (h : ∀ x ∈ xs, x.depth ≤ n) : (conjunction xs).depth ≤ n + 1 := by
  unfold conjunction
  split
  · exact (h _ List.mem_cons_self).trans (Nat.le_succ n)
  · exact depth_section_le.2 h

/-- Joining further conjuncts adds one level. -/
theorem depth_withConjuncts_le {whole : Option Expr} {added : List Expr} (hwhole : ∀ x ∈ whole, x.depth ≤ n)
    (hadded : ∀ x ∈ added, x.depth ≤ n) : ∀ x ∈ withConjuncts whole added, x.depth ≤ n + 1 := by
  unfold withConjuncts
  split
  · exact fun x hx => (hwhole x hx).trans (Nat.le_succ n)
  · intro x hx
    obtain rfl := Option.some.inj hx
    refine depth_conjunction_le (List.forall_mem_append.2 ⟨?_, hadded⟩)
    cases whole with
    | none => simp
    | some x => exact depth_le_of_mem_conjuncts (hwhole x rfl)

/-! ## What monitors add -/

section Fluents

variable (name : ι → String)

theorem depth_fluentAtom (a : String) : (fluentAtom a).depth = 1 := by simp [fluentAtom, depth, depthAll]

theorem depth_fluentExpr_le (x : Signed ι) : (fluentExpr name x).depth ≤ 2 := by
  unfold fluentExpr
  split
  · simp [depth_fluentAtom]
  · simp [negation, depth, depthAll, depth_fluentAtom]

/-- An effect under a condition is nested in four levels: the condition, its conjunction, a negation and a fluent. -/
theorem depth_clauseExpr_le (c : Clause ι) : (clauseExpr name c).depth ≤ 4 := by
  cases c with
  | plain x => exact (depth_fluentExpr_le name x).trans (by decide)
  | whenever condition effects =>
    have hexprs (xs : List (Signed ι)) : (conjunction (xs.map (fluentExpr name))).depth ≤ 3 :=
      depth_conjunction_le (List.forall_mem_map.2 fun x _ => depth_fluentExpr_le name x)
    refine depth_section_le.2 (List.forall_mem_cons.2 ⟨hexprs condition, ?_⟩)
    exact List.forall_mem_singleton.2 (hexprs effects)

variable {name} {w : Watcher ι Schema} {ws : List Watch}
  (h : w.Spells name (ws.flatMap (·.monitor.fluents)) (ws.flatMap (·.monitor.init)) (addedGoals ws) (addedConditions ws)
    (addedEffects ws))
include h

theorem within_watched {s : Schema} (hs : s.Within n) (hn : 4 ≤ n) : (watched ws s).Within (n + 1) where
  condition := by
    refine depth_withConjuncts_le hs.condition ?_
    rw [h.condition]
    exact List.forall_mem_map.2 fun x _ => (depth_fluentExpr_le name x).trans (by omega)
  effect := by
    refine depth_withConjuncts_le hs.effect ?_
    rw [h.effect]
    exact List.forall_mem_map.2 fun c _ => (depth_clauseExpr_le name c).trans hn

/-- Monitors add one level to a domain. -/
theorem within_monitoredDomain {d : Domain} (hd : d.Within n) (hn : 4 ≤ n) : (monitoredDomain ws d).Within (n + 1) := by
  obtain ⟨_, heq⟩ := monitoredDomain_eq ws d
  rw [heq]
  refine ⟨fun x hx => (hd.functions x hx).trans (Nat.le_succ _), List.forall_mem_map.2 fun s hs => ?_⟩
  exact within_watched h (hd.schemas s hs) hn

/-- Monitors add one level to a problem. -/
theorem within_monitoredProblem {p : Problem} (hp : p.Within n) (hn : 4 ≤ n) :
    (monitoredProblem ws p).Within (n + 1) where
  init := by
    refine List.forall_mem_append.2 ⟨fun x hx => (hp.init x hx).trans (Nat.le_succ n), ?_⟩
    rw [h.init]
    exact List.forall_mem_map.2 fun c _ => by rw [depth_fluentAtom]; omega
  goal := by
    refine depth_conjunction_le (List.forall_mem_append.2 ⟨depth_le_of_mem_conjuncts hp.goal, ?_⟩)
    rw [h.goal]
    exact List.forall_mem_map.2 fun x _ => (depth_fluentExpr_le name x).trans (by omega)
  metric := fun xs hxs x hx => (hp.metric xs hxs x hx).trans (Nat.le_succ n)

theorem legible_monitoredProblem (hname : ∀ c, IsName (name c)) {p : Problem} (hp : p.Legible) :
    (monitoredProblem ws p).Legible := by
  refine { hp with init := List.forall_mem_append.2 ⟨hp.init, ?_⟩, goal := ?_ }
  · rw [h.init]
    exact List.forall_mem_map.2 fun c _ => .list (List.forall_mem_singleton.2 (.atom (hname c)))
  · refine legible_conjunction (List.forall_mem_append.2 ⟨legible_of_mem_conjuncts hp.goal, ?_⟩)
    rw [h.goal]
    exact legible_fluentExprs hname w.goal

end Fluents

/-! ## Compiled tasks -/

section Compile

variable {tool : Tool} {domain domain' : Domain} {problem problem' : Problem} {formulas : List Formula}
  (h : compile domain problem formulas tool = .ok (domain', problem'))
include h

theorem problem_legible_of_compile (hproblem : problem.Legible) : problem'.Legible := by
  obtain ⟨ι, w, name, k, ws, -, hwrites, -, rfl⟩ := exists_writes_of_compile h
  exact legible_monitoredProblem hwrites.spells hwrites.isName hproblem

/-- **Compilation adds one level** to what a domain and a problem are nested in. -/
theorem within_of_compile (hn : 4 ≤ n) :
    (domain.Within n → domain'.Within (n + 1)) ∧ (problem.Within n → problem'.Within (n + 1)) := by
  obtain ⟨ι, w, name, k, ws, -, hwrites, rfl, rfl⟩ := exists_writes_of_compile h
  exact ⟨fun hd => within_monitoredDomain hwrites.spells hd hn, fun hp => within_monitoredProblem hwrites.spells hp hn⟩

end Compile

/-- **What the texts of a compiled task are read as**: the domain and the problem that were compiled. A text is refused
only as nested too deeply, and only if that of the given task is nested as deeply as can be read. -/
theorem compileText_read {task compiled : TaskText} {formulas : List String} {tool : Tool}
    (h : compileText task formulas tool = .ok compiled) :
    ∃ domain problem fs domain' problem', task.read = .ok (domain, problem) ∧
      formulas.mapM Formula.read = .ok fs ∧ compile domain problem fs tool = .ok (domain', problem') ∧
      compiled = .of domain' problem' ∧
      (Domain.read compiled.domain = .ok domain' ∨
        (∃ line, Domain.read compiled.domain = .error (.task (.unreadable (.tooDeep line)))) ∧
          ∃ x, readExpr task.domain = .ok x ∧ x.depth = maxDepth) ∧
      (Problem.read compiled.problem = .ok problem' ∨
        (∃ line, Problem.read compiled.problem = .error (.task (.unreadable (.tooDeep line)))) ∧
          ∃ x, readExpr task.problem = .ok x ∧ x.depth = maxDepth) := by
  obtain ⟨domain, problem, fs, domain', problem', hdomain, hproblem, hfs, hcompile, rfl⟩ := compileText_eq_ok h
  have htask : task.read = .ok (domain, problem) :=
    bind_eq_ok.2 ⟨domain, hdomain, bind_eq_ok.2 ⟨problem, hproblem, rfl⟩⟩
  have hlegible := (legible_of_compile (Domain.legible_of_read hdomain) hcompile).1
  have hlegible' := problem_legible_of_compile hcompile (Problem.legible_of_read hproblem)
  have hlevels := within_of_compile hcompile (n := 61) (by decide)
  -- A text that is nested less deeply leaves 61 levels for conditions, effects and the goal. Of these 62 can be read.
  have hfull {x : Expr} {text : String} (hx : readExpr text = .ok x) (hnot : ¬ x.depth ≤ 61 + 2) : x.depth = maxDepth :=
    le_antisymm (depth_le_of_readOne (readExpr_eq_ok.1 hx)) (not_le.1 hnot)
  refine ⟨domain, problem, fs, domain', problem', htask, hfs, hcompile, rfl, ?_, ?_⟩
  · by_cases hdepth : domain'.expr.depth ≤ maxDepth
    · exact .inl ((Domain.read_text_eq_ok hlegible).2 ⟨rfl, hdepth⟩)
    · obtain ⟨x, hx, -⟩ := bind_eq_ok.1 hdomain
      refine .inr ⟨Domain.read_text_of_deep hlegible (not_le.1 hdepth), x, hx, hfull hx fun hle => hdepth ?_⟩
      exact Domain.depth_expr_le.2 (hlevels.1 (Domain.within_of_read hdomain hx hle))
  · by_cases hdepth : problem'.expr.depth ≤ maxDepth
    · exact .inl ((Problem.read_text_eq_ok hlegible').2 ⟨rfl, hdepth⟩)
    · obtain ⟨x, hx, -⟩ := bind_eq_ok.1 hproblem
      refine .inr ⟨Problem.read_text_of_deep hlegible' (not_le.1 hdepth), x, hx, hfull hx fun hle => hdepth ?_⟩
      exact Problem.depth_expr_le.2 (hlevels.2 (Problem.within_of_read hproblem hx hle))

/-- That the lamp is lit, in some conjunctions around each other. -/
def lit : Nat → Expr
  | 0 => .call "lit" []
  | n + 1 => .list [.atom "and", lit n]

/-- A lamp that is lit when its button is pressed, if it is armed. -/
def lamp : Domain where
  name := "lamp"
  predicates := [⟨"armed", []⟩, ⟨"lit", []⟩]
  schemas := [{ name := "press", effect := some (.list [.atom "when", .call "armed" [], lit 60]) }]

/-- The problem to light the lamp. -/
def lighting : Problem where
  name := "lighting"
  domain := "lamp"
  init := [.call "armed" []]
  goal := .call "lit" []

/-- That the button is pressed. -/
def pressed : Formula := ⟨.existence, ["press"], rfl, by decide⟩

theorem legible_lit (n : Nat) : (lit n).Legible := by
  have hlit : IsName "lit" := by decide
  have hand : IsName "and" := by decide
  induction n with
  | zero => exact .list (List.forall_mem_singleton.2 (.atom hlit))
  | succ n ih => exact .list (List.forall_mem_cons.2 ⟨.atom hand, List.forall_mem_singleton.2 ih⟩)

theorem legible_lamp : lamp.Legible := by
  have harmed : IsName "armed" := by decide
  have hwhen : IsName "when" := by decide
  have heffect : (Expr.list [.atom "when", .call "armed" [], lit 60]).Legible := by
    refine .list (List.forall_mem_cons.2 ⟨.atom hwhen, List.forall_mem_cons.2 ⟨?_, ?_⟩⟩)
    · exact .list (List.forall_mem_singleton.2 (.atom harmed))
    · exact List.forall_mem_singleton.2 (legible_lit 60)
  have hschema : ∀ s ∈ lamp.schemas, s.Legible := by
    refine List.forall_mem_singleton.2 ⟨by decide, by simp, by simp, fun x hx => ?_⟩
    obtain rfl := Option.some.inj hx
    exact ⟨heffect, nofun⟩
  have hpredicates : ∀ p ∈ lamp.predicates, p.Legible :=
    List.forall_mem_cons.2 ⟨⟨harmed, by simp⟩, List.forall_mem_singleton.2 ⟨by decide, by simp⟩⟩
  exact ⟨by decide, by simp [lamp], by simp [lamp], by simp [lamp], hpredicates, by simp [lamp], hschema⟩

theorem legible_lighting : lighting.Legible := by
  have harmed : IsName "armed" := by decide
  have hinit : ∀ x ∈ lighting.init, x.Legible :=
    List.forall_mem_singleton.2 (.list (List.forall_mem_singleton.2 (.atom harmed)))
  exact ⟨by decide, by decide, by simp [lighting], by simp [lighting], hinit, legible_lit 0, by simp [lighting]⟩

/-- The task can be read, and its formula can be compiled into it. -/
theorem exists_compileText_lamp : ∃ domain' problem', compile lamp lighting [pressed] .p4p = .ok (domain', problem') ∧
    maxDepth < domain'.expr.depth ∧
      compileText (.of lamp lighting) ["Existence press"] .p4p = .ok (.of domain' problem') := by
  have hcompile : ∃ domain' problem', compile lamp lighting [pressed] .p4p = .ok (domain', problem') ∧
      maxDepth < domain'.expr.depth := ⟨_, _, rfl, by decide +kernel⟩
  obtain ⟨domain', problem', hcompile, hdepth⟩ := hcompile
  refine ⟨domain', problem', hcompile, hdepth, ?_⟩
  have hlamp : Domain.read lamp.text = .ok lamp := (Domain.read_text_eq_ok legible_lamp).2 ⟨rfl, by decide +kernel⟩
  have hlighting : Problem.read lighting.text = .ok lighting :=
    (Problem.read_text_eq_ok legible_lighting).2 ⟨rfl, by decide +kernel⟩
  have hread : (TaskText.of lamp lighting).read = .ok (lamp, lighting) :=
    bind_eq_ok.2 ⟨lamp, hlamp, bind_eq_ok.2 ⟨lighting, hlighting, rfl⟩⟩
  have hformula : ["Existence press"].mapM Formula.read = .ok [pressed] := by decide +kernel
  exact bind_eq_ok.2 ⟨(), requirePresent_of lamp lighting, bind_eq_ok.2 ⟨_, hformula, bind_eq_ok.2 ⟨_, hread,
    bind_eq_ok.2 ⟨_, hcompile, rfl⟩⟩⟩⟩

theorem compileText_read_lamp : ∃ compiled domain problem fs domain' problem',
    compileText (.of lamp lighting) ["Existence press"] .p4p = .ok compiled ∧
      (TaskText.of lamp lighting).read = .ok (domain, problem) ∧ ["Existence press"].mapM Formula.read = .ok fs ∧
      compile domain problem fs .p4p = .ok (domain', problem') ∧ compiled = .of domain' problem' ∧
      (Domain.read compiled.domain = .ok domain' ∨
        (∃ line, Domain.read compiled.domain = .error (.task (.unreadable (.tooDeep line)))) ∧
          ∃ x, readExpr lamp.text = .ok x ∧ x.depth = maxDepth) ∧
      (Problem.read compiled.problem = .ok problem' ∨
        (∃ line, Problem.read compiled.problem = .error (.task (.unreadable (.tooDeep line)))) ∧
          ∃ x, readExpr lighting.text = .ok x ∧ x.depth = maxDepth) := by
  obtain ⟨domain', problem', -, -, h⟩ := exists_compileText_lamp
  obtain ⟨d, p, fs, d', p', hread⟩ := compileText_read h
  exact ⟨_, d, p, fs, d', p', h, hread⟩

/-- The effect of pressing the button is joined with that of the monitor, and the text is refused. -/
theorem compileText_unread_lamp : ∃ compiled, compileText (.of lamp lighting) ["Existence press"] .p4p = .ok compiled ∧
    ∃ line, Domain.read compiled.domain = .error (.task (.unreadable (.tooDeep line))) := by
  obtain ⟨domain', problem', hcompile, hdepth, h⟩ := exists_compileText_lamp
  have hlegible := (legible_of_compile legible_lamp hcompile).1
  exact ⟨_, h, Domain.read_text_of_deep hlegible hdepth⟩

end Waymark.Encoding
