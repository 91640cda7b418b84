import Waymark.Proofs.Encoding.Activities
import Waymark.Proofs.Encoding.Exactness
import Waymark.Proofs.Encoding.Legible

/-!
# Compilations compose

Formulas can be compiled into a task that formulas have been compiled into. The second compilation finds the stem of the
first one taken, so it has fluents of its own, and what the first one has added to the schemas is no occurrence of an
activity of the given domain. So the plans are those of all formulas compiled at once.

* `isPlan_compile_iff`: the plans of a compiled task, by either tool;
* `isTaken_of_compile`, `fresh_of_compile`: a compiled task leaves the next stem free;
* `Event.fires_watched`, `Binding.of_watched`: activities in a compiled domain;
* `isPlan_iterated_iff_joint`: compiling twice and compiling at once.
-/

namespace Waymark.Encoding

open Ground Planning Constraint Number Waymark.Expr

variable {ι κ : Type}

/-! ## Conjunctions -/

mutual

/-- A conjunct is not taken apart again. -/
theorem conjuncts_of_mem_conjuncts : ∀ {x y : Expr}, y ∈ x.conjuncts → y.conjuncts = [y]
  | .atom a, y, h => by
    obtain rfl := List.mem_singleton.1 h
    rfl
  | .list [], y, h => by cases h
  | .list (.atom a :: xs), y, h => by
    unfold conjuncts at h
    split at h
    · exact conjuncts_of_mem_conjunctsAll h
    · rename_i hand
      obtain rfl := List.mem_singleton.1 h
      rw [conjuncts, if_neg hand]
  | .list (.list xs :: ys), y, h => by
    obtain rfl := List.mem_singleton.1 h
    rfl

theorem conjuncts_of_mem_conjunctsAll : ∀ {xs : List Expr} {y : Expr}, y ∈ conjunctsAll xs → y.conjuncts = [y]
  | [], y, h => by cases h
  | x :: xs, y, h => by
    rcases List.mem_append.1 h with h | h
    · exact conjuncts_of_mem_conjuncts h
    · exact conjuncts_of_mem_conjunctsAll h

end

/-- A conjunction of conjuncts has these conjuncts. -/
theorem conjuncts_conjunction {xs : List Expr} (h : ∀ x ∈ xs, x.conjuncts = [x]) : (conjunction xs).conjuncts = xs := by
  have hall : conjunctsAll xs = xs := by
    induction xs with
    | nil => rfl
    | cons x xs ih =>
      obtain ⟨hx, hxs⟩ := List.forall_mem_cons.1 h
      rw [conjunctsAll, hx, ih hxs, List.singleton_append]
  unfold conjunction
  split
  · exact h _ List.mem_cons_self
  · rw [conjuncts, if_pos rfl, hall]

theorem mem_predicatesAll {xs : List Expr} {p : String} : p ∈ predicatesAll xs ↔ ∃ x ∈ xs, p ∈ x.predicates := by
  induction xs with
  | nil => simp [predicatesAll]
  | cons x xs ih => rw [predicatesAll, List.mem_append, ih, List.exists_mem_cons_iff]

/-- The predicates of a conjunct are those of the whole. -/
theorem mem_predicates_of_conjuncts {x y : Expr} {p : String} (hy : y ∈ x.conjuncts) (hp : p ∈ y.predicates) :
    p ∈ x.predicates := by
  by_contra hnot
  refine forall_mem_conjuncts (P := fun x => p ∉ x.predicates) (fun xs hxs x hx hmem => hxs ?_) hnot y hy hp
  exact mem_predicates_connective (by decide) (mem_predicatesAll.2 ⟨x, hx, hmem⟩)

/-- The words that join atoms. -/
def connectives : List String := ["and", "not", "when"]

theorem mem_predicates_of_connective {op p : String} {items : List Expr} (hop : op ∈ connectives)
    (h : p ∈ (Expr.list (.atom op :: items)).predicates) : p ∈ connectives ∨ ∃ x ∈ items, p ∈ x.predicates := by
  have hcontains : ["and", "not", "when"].contains op = true := List.contains_iff_mem.2 hop
  rw [predicates, if_pos hcontains] at h
  rcases List.mem_cons.1 h with rfl | h
  · exact .inl hop
  · exact .inr (mem_predicatesAll.1 h)

theorem mem_predicates_conjunction {xs : List Expr} {p : String} (h : p ∈ (conjunction xs).predicates) :
    p ∈ connectives ∨ ∃ x ∈ xs, p ∈ x.predicates := by
  unfold conjunction at h
  split at h
  · exact .inr ⟨_, List.mem_cons_self, h⟩
  · exact mem_predicates_of_connective (by decide) h

/-- Further conjuncts bring their own predicates and no others. -/
theorem mem_predicates_withConjuncts {whole : Option Expr} {added : List Expr} {p : String}
    (h : p ∈ ((withConjuncts whole added).map predicates).getD []) :
    p ∈ (whole.map predicates).getD [] ∨ p ∈ connectives ∨ ∃ x ∈ added, p ∈ x.predicates := by
  unfold withConjuncts at h
  split at h
  · exact .inl h
  · rcases mem_predicates_conjunction h with h | ⟨x, hx, hp⟩
    · exact .inr (.inl h)
    · rcases List.mem_append.1 hx with hx | hx
      · cases whole with
        | none => cases hx
        | some e => exact .inl (mem_predicates_of_conjuncts hx hp)
      · exact .inr (.inr ⟨x, hx, hp⟩)

/-! ## What monitors add -/

section Fluents

variable {name : ι → String}

theorem mem_predicates_fluentExpr {x : Signed ι} {p : String} (h : p ∈ (fluentExpr name x).predicates) :
    p ∈ connectives ∨ p ∈ Set.range name := by
  have hatom {p : String} (h : p ∈ (fluentAtom (name x.2)).predicates) : p ∈ connectives ∨ p ∈ Set.range name := by
    simp only [fluentAtom, predicates, predicatesAll, ite_self, List.mem_singleton] at h
    exact .inr ⟨x.2, h.symm⟩
  unfold fluentExpr at h
  split at h
  · exact hatom h
  · rcases mem_predicates_of_connective (by decide) h with h | ⟨y, hy, h⟩
    · exact .inl h
    · obtain rfl := List.mem_singleton.1 hy
      exact hatom h

theorem mem_predicates_clauseExpr {c : Clause ι} {p : String} (h : p ∈ (clauseExpr name c).predicates) :
    p ∈ connectives ∨ p ∈ Set.range name := by
  have hexprs {xs : List (Signed ι)} (h : p ∈ (conjunction (xs.map (fluentExpr name))).predicates) :
      p ∈ connectives ∨ p ∈ Set.range name := by
    rcases mem_predicates_conjunction h with h | ⟨x, hx, hp⟩
    · exact .inl h
    · obtain ⟨y, -, rfl⟩ := List.mem_map.1 hx
      exact mem_predicates_fluentExpr hp
  cases c with
  | plain x => exact mem_predicates_fluentExpr h
  | whenever condition effects =>
    rcases mem_predicates_of_connective (by decide) h with h | ⟨y, hy, h⟩
    · exact .inl h
    · rcases List.mem_cons.1 hy with rfl | hy
      · exact hexprs h
      · obtain rfl := List.mem_singleton.1 hy
        exact hexprs h

variable {w : Watcher ι Schema} {ws : List Watch}
  (h : w.Spells name (ws.flatMap (·.monitor.fluents)) (ws.flatMap (·.monitor.init)) (addedGoals ws) (addedConditions ws)
    (addedEffects ws))
include h

/-- **The predicates of a task with monitors** are those of the task, connectives, and fluents. -/
theorem mem_usedPredicates_monitored {domain : Domain} {problem : Problem} {p : String}
    (hp : p ∈ usedPredicates (monitoredDomain ws domain) (monitoredProblem ws problem)) :
    p ∈ usedPredicates domain problem ∨ p ∈ connectives ∨ p ∈ Set.range name := by
  obtain ⟨_, hdomain⟩ := monitoredDomain_eq ws domain
  rw [hdomain] at hp
  simp only [usedPredicates, List.mem_append] at hp ⊢
  rcases hp with (hp | hp) | hp
  · obtain ⟨s', hs', hp⟩ := List.mem_flatMap.1 hp
    obtain ⟨s, hs, rfl⟩ := List.mem_map.1 hs'
    have hschema (hp : p ∈ s.predicates) : p ∈ domain.schemas.flatMap Schema.predicates :=
      List.mem_flatMap.2 ⟨s, hs, hp⟩
    rcases List.mem_append.1 hp with hp | hp
    · rcases mem_predicates_withConjuncts hp with hp | hp | ⟨x, hx, hp⟩
      · exact .inl (.inl (.inl (hschema (List.mem_append_left _ hp))))
      · exact .inr (.inl hp)
      · rw [h.condition] at hx
        obtain ⟨y, -, rfl⟩ := List.mem_map.1 hx
        exact .inr (mem_predicates_fluentExpr hp)
    · rcases mem_predicates_withConjuncts hp with hp | hp | ⟨x, hx, hp⟩
      · exact .inl (.inl (.inl (hschema (List.mem_append_right _ hp))))
      · exact .inr (.inl hp)
      · rw [h.effect] at hx
        obtain ⟨c, -, rfl⟩ := List.mem_map.1 hx
        exact .inr (mem_predicates_clauseExpr hp)
  · obtain ⟨x, hx, hp⟩ := List.mem_filterMap.1 hp
    rcases List.mem_append.1 hx with hx | hx
    · exact .inl (.inl (.inr (List.mem_filterMap.2 ⟨x, hx, hp⟩)))
    · rw [h.init] at hx
      obtain ⟨c, -, rfl⟩ := List.mem_map.1 hx
      exact .inr (.inr ⟨c, Option.some.inj hp⟩)
  · rcases mem_predicates_conjunction hp with hp | ⟨x, hx, hp⟩
    · exact .inr (.inl hp)
    · rcases List.mem_append.1 hx with hx | hx
      · exact .inl (.inr (mem_predicates_of_conjuncts hx hp))
      · rw [h.goal] at hx
        obtain ⟨y, -, rfl⟩ := List.mem_map.1 hx
        exact .inr (mem_predicates_fluentExpr hp)

end Fluents

namespace Watcher.Writes

variable {name : ι → String} {k : Nat} {w : Watcher ι Schema} {ws : List Watch} (h : w.Writes name k ws)
  {domain : Domain} {problem : Problem}
include h

/-! ## Stems -/

/-- A task with monitors takes their stem. -/
theorem isTaken (domain : Domain) : isTaken (monitoredDomain ws domain) (stem k) = true := by
  obtain ⟨f, hf⟩ := List.exists_mem_of_ne_nil _ h.fluents_ne_nil
  obtain ⟨c, rfl⟩ := h.spells.fluents f hf
  obtain ⟨_, hdomain⟩ := monitoredDomain_eq ws domain
  rw [hdomain]
  exact isTaken_iff.2 ⟨⟨name c, []⟩, List.mem_append_right _ (List.mem_map_of_mem hf), h.fluent c⟩

/-- **A task with monitors leaves the next stem free**, if no predicate of the task begins like a stem. -/
theorem fresh (hltl : ∀ p ∈ usedPredicates domain problem, ¬ "ltl".toList <+: p.toList) :
    ∀ p ∈ usedPredicates (monitoredDomain ws domain) (monitoredProblem ws problem),
      ¬ Fluent (fluentStem (monitoredDomain ws domain)) p := by
  intro p hp hfluent
  obtain ⟨j, hj⟩ := exists_fluentStem_eq (monitoredDomain ws domain)
  rw [hj] at hfluent
  rcases mem_usedPredicates_monitored h.spells hp with hp | hp | ⟨c, rfl⟩
  · exact hltl p hp (ltl_prefix_of_fluent hfluent)
  · exact not_mem_reserved hfluent ((by decide : ∀ a ∈ connectives, a ∈ reserved) p hp)
  · have hfree := isTaken_fluentStem (monitoredDomain ws domain)
    rw [hj, ← stem_eq_of_fluent (h.fluent c) hfluent, h.isTaken] at hfree
    cases hfree

/-! ## Activities -/

/-- What monitors add to an effect begins with a connective or a fluent. -/
theorem head_of_mem_addedEffects {s : Schema} {x : Expr} (hx : x ∈ addedEffects ws s) :
    ∃ a, x.head? = some a ∧ (a = "not" ∨ a = "when" ∨ Fluent (stem k) a) := by
  rw [h.spells.effect] at hx
  obtain ⟨c, -, rfl⟩ := List.mem_map.1 hx
  cases c with
  | plain y =>
    rw [clauseExpr, fluentExpr]
    split
    · exact ⟨name y.2, rfl, .inr (.inr (h.fluent y.2))⟩
    · exact ⟨"not", rfl, .inl rfl⟩
  | whenever condition effects => exact ⟨"when", rfl, .inr (.inl rfl)⟩

/-- What monitors add to an effect is not taken apart. -/
theorem conjuncts_of_mem_addedEffects {s : Schema} {x : Expr} (hx : x ∈ addedEffects ws s) : x.conjuncts = [x] := by
  obtain ⟨a, ha, hcases⟩ := h.head_of_mem_addedEffects hx
  have hand : a ≠ "and" := by
    rcases hcases with rfl | rfl | hfluent
    · decide
    · decide
    · rintro rfl
      exact not_mem_reserved hfluent (by decide)
  obtain ⟨xs, rfl⟩ := head?_eq_some.1 ha
  rw [conjuncts, if_neg hand]

/-- The conjuncts of the effect of a schema with monitors. -/
theorem conjuncts_watched (s : Schema) : ((watched ws s).effect.map conjuncts).getD [] =
    (s.effect.map conjuncts).getD [] ++ addedEffects ws s := by
  change ((withConjuncts s.effect (addedEffects ws s)).map conjuncts).getD [] = _
  unfold withConjuncts
  split
  · rename_i hempty
    rw [List.isEmpty_iff.1 hempty, List.append_nil]
  · refine conjuncts_conjunction (List.forall_mem_append.2 ⟨?_, fun x hx => h.conjuncts_of_mem_addedEffects hx⟩)
    cases s.effect with
    | none => simp
    | some x => exact fun y hy => conjuncts_of_mem_conjuncts hy

/-- Monitors add nothing but their fluents. -/
theorem addsPredicate_watched {q : String} (hwhen : q ≠ "when") (hnot : q ≠ "not")
    (hltl : ¬ "ltl".toList <+: q.toList) (s : Schema) : addsPredicate (watched ws s) q = addsPredicate s q := by
  have hadds (s : Schema) : addsPredicate s q = ((s.effect.map conjuncts).getD []).any fun e => e.head? = some q := by
    unfold addsPredicate
    cases s.effect <;> rfl
  have hnone : (addedEffects ws s).any (fun e => e.head? = some q) = false := by
    refine List.any_eq_false.2 fun x hx => ?_
    obtain ⟨a, ha, hcases⟩ := h.head_of_mem_addedEffects hx
    rw [ha, decide_eq_true_eq, Option.some.injEq]
    rintro rfl
    rcases hcases with rfl | rfl | hfluent
    · exact hnot rfl
    · exact hwhen rfl
    · exact hltl (ltl_prefix_of_fluent hfluent)
  rw [hadds, hadds, h.conjuncts_watched, List.any_append, hnone, Bool.or_false]

/-- An event is none of what monitors add. -/
theorem fires_watched {e : Event} (he : ∀ p, e = .adds p → (p ≠ "when" ∧ p ≠ "not") ∧ ¬ "ltl".toList <+: p.toList)
    (s : Schema) : e.fires (watched ws s) = e.fires s := by
  cases e with
  | executes n => rfl
  | adds p =>
    obtain ⟨⟨hwhen, hnot⟩, hltl⟩ := he p rfl
    exact h.addsPredicate_watched hwhen hnot hltl s

end Watcher.Writes

/-- An activity names the same in a domain with monitors. -/
theorem resolve_monitored {ws : List Watch} {domain : Domain} {f : Formula} {activity : String} {e : Event}
    (he : resolve domain f activity = .ok e) (hfires : ∀ s, e.fires (watched ws s) = e.fires s) :
    resolve (monitoredDomain ws domain) f activity = .ok e := by
  obtain ⟨_, hdomain⟩ := monitoredDomain_eq ws domain
  have hschema : (domain.schemas.map (watched ws)).find? (fun s => sameName s.name activity) =
      (domain.schemas.find? fun s => sameName s.name activity).map (watched ws) := List.find?_map ..
  rw [hdomain]
  unfold resolve at he ⊢
  dsimp only at he ⊢
  rw [hschema]
  cases hfind : domain.schemas.find? fun s => sameName s.name activity with
  | some s =>
    rw [hfind] at he
    exact he
  | none =>
    rw [hfind] at he
    dsimp only [Option.map_none] at he ⊢
    cases hpredicate : domain.predicates.find? fun p => sameName p.name activity with
    | none =>
      rw [hpredicate] at he
      cases he
    | some p =>
      rw [List.find?_append, hpredicate, Option.some_or]
      rw [hpredicate] at he
      dsimp only at he ⊢
      split at he
      · rename_i hadds
        obtain rfl := Except.ok.inj he
        obtain ⟨s, hs, hp⟩ := List.any_eq_true.1 hadds
        refine if_pos (List.any_eq_true.2 ⟨watched ws s, List.mem_map_of_mem hs, ?_⟩)
        exact (hfires s).trans hp
      · cases he

/-- A predicate that an activity names is one of those that the domain uses. -/
theorem mem_predicates_of_resolve {domain : Domain} {f : Formula} {activity p : String}
    (h : resolve domain f activity = .ok (.adds p)) : p ∈ domain.schemas.flatMap Schema.predicates := by
  unfold resolve at h
  dsimp only at h
  split at h
  · cases h
  split at h
  · split at h
    · rename_i hadds
      obtain rfl := Event.adds.inj (Except.ok.inj h)
      obtain ⟨s, hs, hp⟩ := List.any_eq_true.1 hadds
      refine List.mem_flatMap.2 ⟨s, hs, List.mem_append_right _ ?_⟩
      unfold addsPredicate at hp
      split at hp
      · rename_i effect heffect
        obtain ⟨x, hx, hhead⟩ := List.any_eq_true.1 hp
        obtain ⟨xs, rfl⟩ := head?_eq_some.1 (of_decide_eq_true hhead)
        rw [heffect]
        exact mem_predicates_of_conjuncts hx List.mem_cons_self
      · cases hp
    · cases h
  · cases h

/-- The activities of the formula name actions, or predicates that are not called like a connective. -/
def Nameable (domain : Domain) (f : Formula) : Prop :=
  ∀ activity ∈ f.activities, ∀ p, resolve domain f activity = .ok (.adds p) → p ≠ "when" ∧ p ≠ "not"

/-- **A formula is bound to the same events** in a domain with monitors, and gives schemas the labels that they had. -/
theorem Watcher.Writes.binding_monitored {name : ι → String} {k : Nat} {w : Watcher ι Schema} {ws : List Watch}
    (h : w.Writes name k ws) {domain : Domain} {problem : Problem} {f : Formula} {b : Binding}
    (hltl : ∀ p ∈ usedPredicates domain problem, ¬ "ltl".toList <+: p.toList) (hf : Nameable domain f)
    (hbinding : Binding.of domain f = .ok b) :
    Binding.of (monitoredDomain ws domain) f = .ok b ∧ ∀ s, b.label (watched ws s) = b.label s := by
  obtain ⟨ea, ha, hbinding⟩ := bind_eq_ok.1 hbinding
  obtain ⟨eb, hb, hbinding⟩ := bind_eq_ok.1 hbinding
  obtain rfl := Except.ok.inj hbinding
  have hfires {activity : String} {e : Event} (hactivity : activity ∈ f.activities)
      (he : resolve domain f activity = .ok e) (s : Schema) : e.fires (watched ws s) = e.fires s := by
    refine h.fires_watched (fun p hp => ?_) s
    subst hp
    have hused := List.mem_append_left (problem.init.filterMap Expr.head?) (mem_predicates_of_resolve he)
    exact ⟨hf activity hactivity p he, hltl p (List.mem_append_left _ hused)⟩
  obtain ⟨hmem, hmem'⟩ := mem_activities f
  constructor
  · exact bind_eq_ok.2 ⟨ea, resolve_monitored ha (hfires hmem ha), bind_eq_ok.2
      ⟨eb, resolve_monitored hb (hfires hmem' hb), rfl⟩⟩
  · intro s
    rw [Binding.label, hfires hmem ha, hfires hmem' hb]
    rfl

/-! ## Plans -/

/-- The execution of schemas satisfies a formula. -/
def Meets (domain : Domain) (f : Formula) (schemas : List Schema) : Prop :=
  ∃ binding, Binding.of domain f = .ok binding ∧ f.template.Accepts (schemas.map binding.label)

/-- **The plans of a compiled task**, by either tool. -/
theorem isPlan_compile_iff [Scale κ] {tool : Tool} {domain domain' : Domain} {problem problem' : Problem}
    {formulas : List Formula} (hword : ∀ s ∈ domain.schemas, IsWord s.name)
    (hnodup : (domain.schemas.map (·.name)).Nodup)
    (hfresh : ∀ p ∈ usedPredicates domain problem, ¬ Fluent (fluentStem domain) p)
    (hcompile : compile domain problem formulas tool = .ok (domain', problem')) {t : Ground.Task κ}
    (hground : Task.ground domain problem = .ok t) :
    ∃ t' : Ground.Task κ, Task.ground domain' problem' = .ok t' ∧ ∀ names cost,
      t'.IsPlan names cost ↔ t.IsPlan names cost ∧
        ∃ schemas, names.mapM domain.schemaOf? = some schemas ∧ ∀ f ∈ formulas, Meets domain f schemas := by
  cases tool with
  | lf2f => exact tracking_serves.isPlan_iff_of_isWord hword hnodup hfresh hcompile hground
  | p4p => exact patterns_serves.isPlan_iff_of_isWord hword hnodup hfresh hcompile hground

/-- The schemas of actions in a domain with monitors. -/
theorem mapM_schemaOf?_monitored (ws : List Watch) (domain : Domain) (names : List String) :
    names.mapM (monitoredDomain ws domain).schemaOf? = (names.mapM domain.schemaOf?).map (List.map (watched ws)) := by
  have hschema (n : String) : (monitoredDomain ws domain).schemaOf? n = (domain.schemaOf? n).map (watched ws) := by
    obtain ⟨_, hdomain⟩ := monitoredDomain_eq ws domain
    rw [hdomain]
    exact List.find?_map ..
  induction names with
  | nil => rfl
  | cons n names ih =>
    rw [List.mapM_cons, List.mapM_cons, hschema, ih]
    cases domain.schemaOf? n with
    | none => rfl
    | some s => cases names.mapM domain.schemaOf? <;> rfl

/-- **Compilations compose.** If formulas are compiled into a task, and others into the result, the plans are those of
all formulas compiled into the task at once, whichever the tools are. -/
theorem isPlan_iterated_iff_joint [Scale κ] {text : String} {domain domain₁ domain₂ domain₃ : Domain}
    {problem problem₁ problem₂ problem₃ : Problem} {formulas₁ formulas₂ : List Formula} {tool₁ tool₂ tool₃ : Tool}
    (hread : Domain.read text = .ok domain) (hnodup : (domain.schemas.map (·.name)).Nodup)
    (hltl : ∀ p ∈ usedPredicates domain problem, ¬ "ltl".toList <+: p.toList)
    (hnameable : ∀ f ∈ formulas₂, Nameable domain f) {t : Ground.Task κ} (hground : Task.ground domain problem = .ok t)
    (h₁ : compile domain problem formulas₁ tool₁ = .ok (domain₁, problem₁))
    (h₂ : compile domain₁ problem₁ formulas₂ tool₂ = .ok (domain₂, problem₂))
    (h₃ : compile domain problem (formulas₁ ++ formulas₂) tool₃ = .ok (domain₃, problem₃)) :
    ∃ iterated joint : Ground.Task κ, Task.ground domain₂ problem₂ = .ok iterated ∧
      Task.ground domain₃ problem₃ = .ok joint ∧
      ∀ names cost, iterated.IsPlan names cost ↔ joint.IsPlan names cost := by
  have hword := Domain.isWord_of_read hread
  have hfresh : ∀ p ∈ usedPredicates domain problem, ¬ Fluent (fluentStem domain) p := by
    obtain ⟨k, hk⟩ := exists_fluentStem_eq domain
    exact fun p hp hfluent => hltl p hp (ltl_prefix_of_fluent (hk ▸ hfluent))
  obtain ⟨first, hfirst, hplans₁⟩ := isPlan_compile_iff hword hnodup hfresh h₁ hground
  obtain ⟨joint, hjoint, hplans₃⟩ := isPlan_compile_iff hword hnodup hfresh h₃ hground
  obtain ⟨ι, w, name, k, ws, -, hwrites, rfl, rfl⟩ := exists_writes_of_compile h₁
  -- The schemas of the first compilation have the names that they had.
  obtain ⟨_, hdomain⟩ := monitoredDomain_eq ws domain
  have hschemas : (monitoredDomain ws domain).schemas = domain.schemas.map (watched ws) := by rw [hdomain]
  have hword₁ : ∀ s ∈ (monitoredDomain ws domain).schemas, IsWord s.name := by
    rw [hschemas]
    exact List.forall_mem_map.2 hword
  have hnodup₁ : ((monitoredDomain ws domain).schemas.map (·.name)).Nodup := by
    rw [hschemas, List.map_map]
    exact hnodup
  obtain ⟨iterated, hiterated, hplans₂⟩ := isPlan_compile_iff hword₁ hnodup₁ (hwrites.fresh hltl) h₂ hfirst
  -- So the second compilation watches what it would watch in the given task.
  have hmeets : ∀ f ∈ formulas₂, ∀ ss,
      Meets (monitoredDomain ws domain) f (ss.map (watched ws)) ↔ Meets domain f ss := by
    intro f hf ss
    obtain ⟨bs, -, hbs, -⟩ := compile_eq_ok h₃
    obtain ⟨b, -, hb⟩ := exists_rel_of_mem (mapM_eq_ok.1 hbs).flip (List.mem_append_right _ hf)
    obtain ⟨hb₁, hlabel⟩ := hwrites.binding_monitored hltl (hnameable f hf) hb
    have hlabels : (ss.map (watched ws)).map b.label = ss.map b.label := by
      rw [List.map_map]
      exact List.map_congr_left fun s _ => hlabel s
    unfold Meets
    rw [hb₁, hb]
    simp only [Except.ok.injEq, exists_eq_left', hlabels]
  refine ⟨iterated, joint, hiterated, hjoint, fun names cost => ?_⟩
  rw [hplans₂, hplans₁, hplans₃, mapM_schemaOf?_monitored, and_assoc]
  refine and_congr_right fun _ => ?_
  cases names.mapM domain.schemaOf? with
  | none => simp
  | some ss =>
    simp only [Option.map_some, Option.some.injEq, exists_eq_left', List.forall_mem_append]
    exact and_congr_right fun _ => forall₂_congr fun f hf => hmeets f hf ss

/-- That something is done. -/
def finished : Formula := ⟨.existence, ["done"], rfl, by decide⟩

theorem isPlan_iterated_iff_joint_answered :
    ∃ domain₁ problem₁ domain₂ problem₂ domain₃ problem₃ t, Domain.read answeringText = .ok answering ∧
      (answering.schemas.map (·.name)).Nodup ∧
      (∀ p ∈ usedPredicates answering doing, ¬ "ltl".toList <+: p.toList) ∧
      (∀ f ∈ [finished], Nameable answering f) ∧ Task.ground (κ := Double) answering doing = .ok t ∧
      compile answering doing [answered] .lf2f = .ok (domain₁, problem₁) ∧
      compile domain₁ problem₁ [finished] .p4p = .ok (domain₂, problem₂) ∧
      compile answering doing ([answered] ++ [finished]) .p4p = .ok (domain₃, problem₃) ∧
      ∃ iterated joint : Ground.Task Double, Task.ground domain₂ problem₂ = .ok iterated ∧
        Task.ground domain₃ problem₃ = .ok joint ∧
          ∀ names cost, iterated.IsPlan names cost ↔ joint.IsPlan names cost := by
  obtain ⟨t, ht⟩ := exists_ground_answering
  have hcompile : ∃ domain₁ problem₁ domain₂ problem₂,
      compile answering doing [answered] .lf2f = .ok (domain₁, problem₁) ∧
        compile domain₁ problem₁ [finished] .p4p = .ok (domain₂, problem₂) := ⟨_, _, _, _, rfl, rfl⟩
  obtain ⟨domain₁, problem₁, domain₂, problem₂, h₁, h₂⟩ := hcompile
  have hjoint : ∃ domain₃ problem₃,
      compile answering doing ([answered] ++ [finished]) .p4p = .ok (domain₃, problem₃) := ⟨_, _, rfl⟩
  obtain ⟨domain₃, problem₃, h₃⟩ := hjoint
  have hnodup : (answering.schemas.map (·.name)).Nodup := by decide
  have hltl : ∀ p ∈ usedPredicates answering doing, ¬ "ltl".toList <+: p.toList := by decide
  have hnameable : ∀ f ∈ [finished], Nameable answering f := by
    intro f hf activity hactivity p hp
    obtain rfl := List.mem_singleton.1 hf
    obtain rfl := List.mem_singleton.1 hactivity
    have hdone : resolve answering finished "done" = .ok (.adds "done") := by decide
    obtain rfl := Event.adds.inj (Except.ok.inj (hp.symm.trans hdone))
    decide
  exact ⟨domain₁, problem₁, domain₂, problem₂, domain₃, problem₃, t, read_answeringText, hnodup, hltl, hnameable, ht,
    h₁, h₂, h₃, isPlan_iterated_iff_joint read_answeringText hnodup hltl hnameable ht h₁ h₂ h₃⟩

end Waymark.Encoding
