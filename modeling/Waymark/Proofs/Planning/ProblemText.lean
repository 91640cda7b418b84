import Mathlib.Tactic
import Waymark.Proofs.Planning.DomainText

/-!
# Problems are read back

The text of a problem has the tokens of an expression, and what the sections of this expression are read as is the
problem.

* `Problem.sections`, `Problem.expr`: the expression that is written;
* `Problem.spells_text`: its text;
* `Problem.foldlM_sections`: what it is read as;
* `requirePresent_of`: the texts of a task are not blank.
-/

namespace Waymark.Planning

open Waymark.Expr

/-! ## Expressions -/

/-- The sections of a problem. -/
def Problem.sections (p : Problem) : List Expr :=
  [.list [.atom ":domain", .atom p.domain]] ++ sectionOf ":requirements" (p.requirements.map .atom) ++
    sectionOf ":objects" (typedItems p.objects) ++ [.list (.atom ":init" :: p.init)] ++
    [.list [.atom ":goal", p.goal]] ++ (p.metric.map fun items => .list (.atom ":metric" :: items)).toList

/-- The expression of a problem. -/
def Problem.expr (p : Problem) : Expr :=
  .list (.atom "define" :: .list [.atom "problem", .atom p.name] :: p.sections)

/-! ## Texts -/

/-- The lines of the initial facts. -/
theorem spells_init {init : List Expr} (h : ∀ x ∈ init, x.Legible) :
    Spells (ofLines (init.map fun x => "    " ++ x.display)).toList (tokensAll init) := by
  have hlines := spells_ofLines_flatMap (f := fun x => ["    " ++ x.display]) (g := id) fun x hx => by
    refine spells_ofLines_singleton ?_
    rw [String.toList_append]
    exact Spells.blank rfl (.blank rfl (.blank rfl (.blank rfl (spells_display x (h x hx)))))
  rwa [List.map_id, ← List.map_eq_flatMap] at hlines

/-- The line of a metric, if there is one. -/
theorem spells_metric {metric : Option (List Expr)} (h : ∀ xs ∈ metric, ∀ x ∈ xs, x.Legible) :
    Spells (ofLines (metric.map fun items =>
      "  (:metric " ++ " ".intercalate (items.map display) ++ ")").toList).toList
      (tokensAll (metric.map fun items => .list (.atom ":metric" :: items)).toList) := by
  cases metric with
  | none => exact .nil
  | some items =>
    have hline : Spells ("  (:metric " ++ " ".intercalate (items.map display) ++ ")").toList
        ([.start, .name ":metric"] ++ tokensAll items ++ [.stop]) :=
      spells_between (spells_fixed (by decide)) (by decide) (spells_intercalate_display (h items rfl))
        (spells_fixed (by decide)) (parts_cons.2 rfl)
    refine (spells_ofLines_singleton hline).of_eq ?_
    simp only [Option.map_some, Option.toList_some, tokens, tokensAll, List.cons_append, List.nil_append,
      List.append_nil]

/-- **The text of a problem has the tokens of its expression.** -/
theorem Problem.spells_text {p : Problem} (h : p.Legible) : Spells p.text.toList p.expr.tokens := by
  have hname : Spells ("(define (problem " ++ p.name ++ ")").toList
      ([.start, .name "define", .start, .name "problem"] ++ tokensAll [.atom p.name] ++ [.stop]) :=
    spells_between (spells_fixed (by decide)) (by decide) (spells_name h.name) (spells_fixed (by decide))
      (parts_cons.2 rfl)
  have hdomain : Spells ("  (:domain " ++ p.domain ++ ")").toList
      ([.start, .name ":domain"] ++ tokensAll [.atom p.domain] ++ [.stop]) :=
    spells_between (spells_fixed (by decide)) (by decide) (spells_name h.domain) (spells_fixed (by decide))
      (parts_cons.2 rfl)
  have hrequirements := spells_section "  (:requirements " ":requirements" (spells_fixed (by decide))
    (by decide) (spells_intercalate h.requirements)
  have hobjects := spells_section "  (:objects " ":objects" (spells_fixed (by decide)) (by decide)
    (spells_typedText h.objects)
  rw [List.isEmpty_map] at hrequirements
  rw [isEmpty_typedItems] at hobjects
  have hopen : Spells (ofLines ["  (:init"]).toList [.start, .name ":init"] := spells_fixed (by decide)
  have hinit := spells_init h.init
  have hclose : Spells (ofLines ["  )"]).toList [.stop] := spells_fixed (by decide)
  have hgoal : Spells ("  (:goal " ++ p.goal.display ++ ")").toList
      ([.start, .name ":goal"] ++ p.goal.tokens ++ [.stop]) :=
    spells_between (spells_fixed (by decide)) (by decide) (spells_display p.goal h.goal) (spells_fixed (by decide))
      (parts_cons.2 rfl)
  have hmetric := spells_metric h.metric
  have hend : Spells (ofLines [")"]).toList [.stop] := spells_fixed (by decide)
  have hhead := spells_ofLines_append (spells_ofLines_append
    (spells_ofLines_cons hname (spells_ofLines_singleton hdomain)) hrequirements) hobjects
  have hfacts := spells_ofLines_append (spells_ofLines_append (spells_ofLines_append hhead hopen) hinit) hclose
  have hlines := spells_ofLines_append (spells_ofLines_append
    (spells_ofLines_append hfacts (spells_ofLines_singleton hgoal)) hmetric) hend
  refine hlines.of_eq ?_
  simp only [expr, sections, tokens, tokensAll, tokensAll_append, List.cons_append, List.nil_append, List.append_assoc,
    List.append_nil]

/-! ## Reading -/

section Sections

variable (parts : ProblemParts) (body : List Expr)

theorem addSection_problemRequirements : parts.addSection (.list (.atom ":requirements" :: body)) =
    (fun names => { parts with requirements := names }) <$> readNames ":requirements" body := rfl

theorem addSection_objects : parts.addSection (.list (.atom ":objects" :: body)) =
    (fun objects => { parts with objects }) <$> readTyped body := rfl

end Sections

/-- **The sections of a problem are read as the problem.** -/
theorem Problem.foldlM_sections {p : Problem} (h : p.Legible) : p.sections.foldlM ProblemParts.addSection {} =
    .ok { domain := some p.domain, requirements := p.requirements, objects := p.objects, init := p.init,
          goal := some p.goal, metric := p.metric } := by
  have hdomain : [Expr.list [.atom ":domain", .atom p.domain]].foldlM ProblemParts.addSection {} =
      .ok { domain := some p.domain } := rfl
  have hrequirements : (sectionOf ":requirements" (p.requirements.map .atom)).foldlM ProblemParts.addSection
      { domain := some p.domain } = .ok { domain := some p.domain, requirements := p.requirements } := by
    refine foldlM_sectionOf _ ?_ fun hempty => ?_
    · rw [addSection_problemRequirements, readNames_map]
      rfl
    · rw [List.map_eq_nil_iff.1 hempty]
  have hobjects : (sectionOf ":objects" (typedItems p.objects)).foldlM ProblemParts.addSection
      { domain := some p.domain, requirements := p.requirements } =
        .ok { domain := some p.domain, requirements := p.requirements, objects := p.objects } := by
    refine foldlM_sectionOf _ ?_ fun hempty => ?_
    · rw [addSection_objects, readTyped_typedItems h.objects]
      rfl
    · rw [eq_nil_of_typedItems hempty]
  have hinit : [Expr.list (.atom ":init" :: p.init)].foldlM ProblemParts.addSection
      { domain := some p.domain, requirements := p.requirements, objects := p.objects } =
        .ok { domain := some p.domain, requirements := p.requirements, objects := p.objects, init := p.init } := rfl
  have hgoal : [Expr.list [.atom ":goal", p.goal]].foldlM ProblemParts.addSection
      { domain := some p.domain, requirements := p.requirements, objects := p.objects, init := p.init } =
        .ok { domain := some p.domain, requirements := p.requirements, objects := p.objects, init := p.init,
              goal := some p.goal } := rfl
  have hmetric : (p.metric.map fun items => .list (.atom ":metric" :: items)).toList.foldlM ProblemParts.addSection
      { domain := some p.domain, requirements := p.requirements, objects := p.objects, init := p.init,
        goal := some p.goal } =
        .ok { domain := some p.domain, requirements := p.requirements, objects := p.objects, init := p.init,
              goal := some p.goal, metric := p.metric } := by
    cases p.metric with
    | none => rfl
    | some items => rfl
  exact foldlM_append_ok (foldlM_append_ok (foldlM_append_ok (foldlM_append_ok
    (foldlM_append_ok hdomain hrequirements) hobjects) hinit) hgoal) hmetric

/-! ## Tasks -/

theorem requirePresent_eq_ok {task : TaskText} :
    task.requirePresent = .ok () ↔ Text.allBlank task.domain = false ∧ Text.allBlank task.problem = false := by
  unfold TaskText.requirePresent TaskText.isPresent
  cases Text.allBlank task.domain <;> cases Text.allBlank task.problem <;> simp

/-- The texts of a domain and a problem are not blank. -/
theorem requirePresent_of (domain : Domain) (problem : Problem) :
    (TaskText.of domain problem).requirePresent = .ok () := by
  have hfirst : Text.isBlank '(' = false := rfl
  refine requirePresent_eq_ok.2 ⟨?_, ?_⟩
  · simp [TaskText.of, Text.allBlank, Domain.text, ofLines_cons, hfirst]
  · simp [TaskText.of, Text.allBlank, Problem.text, ofLines_cons, hfirst]

end Waymark.Planning
