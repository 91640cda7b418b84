import Mathlib.Tactic
import Waymark.Proofs.Encoding.Legible
import Waymark.Proofs.Ground.Propositional
import Waymark.Proofs.Landmark.Validity
import Waymark.Proofs.Number.Order
import Waymark.Proofs.Plan.Actions
import Waymark.Proofs.Plan.Walk
import Waymark.Proofs.View.Selection
import Waymark.Scenario.Basic

/-!
# Views of what is found

The plans that a search finds for a task and the landmarks that are extracted from it belong to the task: their actions
are actions of its domain. Formulas that are compiled into a task leave the names and the parameters of its schemas as
they are. So a view of what has been found is never refused, whichever of the domains it is given.

* `Domain.signatures`, `belongs_of_isActionOf`: the actions of domains whose schemas have the same names and parameters;
* `exists_of_mem_achievers`: the actions of landmarks;
* `Searched`, `signatures_of_searched`: tasks with formulas compiled into them;
* `exists_prepare_of_found`: what is found belongs to each domain that the actions of the ground task belong to;
* `exists_view_of_found`: views of what is found.
-/

namespace Waymark.Planning

/-- The name and the parameters of a schema. -/
def Schema.signature (s : Schema) : String × List TypedName := (s.name, s.params)

/-- The names and the parameters of the schemas of a domain. -/
def Domain.signatures (d : Domain) : List (String × List TypedName) := d.schemas.map Schema.signature

end Waymark.Planning

namespace Waymark.View

open Planning Ground Number

variable {κ : Type}

/-! ## Actions -/

section Actions

variable {d d' : Domain} (h : d'.signatures = d.signatures)
include h

theorem map_name_of_signatures : d'.schemas.map (·.name) = d.schemas.map (·.name) := by
  have hnames (d : Domain) : d.schemas.map (·.name) = d.signatures.map Prod.fst := by
    rw [Domain.signatures, List.map_map]
    rfl
  rw [hnames, h, hnames]

/-- An action of a domain belongs to every domain with these schemas. -/
theorem belongs_of_isActionOf (hnodup : (d'.schemas.map (·.name)).Nodup) {action : String}
    (haction : Plan.IsActionOf d action) : belongs d' action = true := by
  obtain ⟨s, hs, args, hwords, hlength⟩ := haction
  have hmem : s.signature ∈ d'.signatures := h ▸ List.mem_map_of_mem hs
  obtain ⟨s', hs', hsignature⟩ := List.mem_map.1 hmem
  obtain ⟨hname, hparams⟩ := Prod.mk.inj hsignature
  unfold belongs
  rw [hwords]
  dsimp only
  rw [← hname, Domain.schema?_name hnodup hs', Option.any_some, hparams]
  exact decide_eq_true hlength.symm

end Actions

/-- The actions that achieve an extracted landmark are actions of the task. -/
theorem exists_of_mem_achievers {t : Ground.Task κ} {category : Landmark.Category} {l : Landmark}
    (hl : l ∈ (Landmark.extract t category).landmarks) {action : String}
    (haction : action ∈ l.possibleAchievers ∨ action ∈ l.firstAchievers) : ∃ a ∈ t.actions, a.name = action := by
  obtain ⟨-, id, c, -, rfl⟩ := Landmark.exists_of_mem_landmarks_extract hl
  have hadder : ∃ i ∈ t.adders c.facts, t.actionName i = action := by
    rcases haction with haction | haction
    · obtain ⟨i, hi, rfl⟩ := List.mem_map.1 haction
      exact ⟨i, hi, rfl⟩
    · obtain ⟨i, hi, rfl⟩ := List.mem_map.1 haction
      exact ⟨i, List.mem_of_mem_filter hi, rfl⟩
  obtain ⟨i, hi, rfl⟩ := hadder
  have hlt : i < t.actions.size := List.mem_range.1 (List.mem_of_mem_filter hi)
  refine ⟨t.actions[i], Array.getElem_mem hlt, ?_⟩
  rw [Task.actionName, Array.getElem?_eq_getElem hlt]
  rfl

/-! ## Tasks -/

/-- The task is searched as it is, or with formulas compiled into it. -/
def Searched (task searched : TaskText) : Prop :=
  searched = task ∨ ∃ formulas tool, Encoding.compileText task formulas tool = .ok searched

theorem requirePresent_of_searched {task searched : TaskText} (h : Searched task searched)
    (hpresent : searched.requirePresent = .ok ()) : task.requirePresent = .ok () := by
  rcases h with rfl | ⟨formulas, tool, h⟩
  · exact hpresent
  · obtain ⟨_, htask, -⟩ := bind_eq_ok.1 h
    exact htask

theorem requirePresent_of_either {task searched viewed : TaskText} (htask : task.requirePresent = .ok ())
    (hsearched : searched.requirePresent = .ok ())
    (hdomain : viewed.domain = task.domain ∨ viewed.domain = searched.domain)
    (hproblem : viewed.problem = task.problem ∨ viewed.problem = searched.problem) :
    viewed.requirePresent = .ok () := by
  rw [requirePresent_eq_ok] at htask hsearched ⊢
  constructor
  · rcases hdomain with h | h <;> rw [h]
    exacts [htask.1, hsearched.1]
  · rcases hproblem with h | h <;> rw [h]
    exacts [htask.2, hsearched.2]

/-- Formulas leave the names and the parameters of the schemas as they are. -/
theorem signatures_of_searched {task searched : TaskText} (h : Searched task searched) {d : Domain}
    (hread : Domain.read searched.domain = .ok d) :
    ∃ given, Domain.read task.domain = .ok given ∧ d.signatures = given.signatures := by
  rcases h with rfl | ⟨formulas, tool, h⟩
  · exact ⟨d, hread, rfl⟩
  · obtain ⟨given, ws, hgiven, hschemas⟩ := Encoding.exists_of_compileText h hread
    refine ⟨given, hgiven, ?_⟩
    rw [Domain.signatures, hschemas, List.map_map]
    rfl

section Found

variable [Scale κ] {searched : TaskText}

/-- The ground actions of a task given as texts are actions of its domain. -/
theorem isActionOf_of_ofText {t : Ground.Task κ} (h : Task.ofText searched = .ok t) :
    ∃ d, Domain.read searched.domain = .ok d ∧ ∀ a ∈ t.actions, Plan.IsActionOf d a.name := by
  obtain ⟨⟨d, problem⟩, hread, hground⟩ := bind_eq_ok.1 h
  obtain ⟨_, hdomain, hread⟩ := bind_eq_ok.1 hread
  obtain ⟨_, hproblem, hread⟩ := bind_eq_ok.1 hread
  obtain ⟨rfl, rfl⟩ := Prod.mk.inj (Except.ok.inj hread)
  exact ⟨_, hdomain, fun a ha =>
    Plan.isActionOf_of_ground (Domain.legible_of_read hdomain) (Problem.legible_of_read hproblem) hground ha⟩

theorem ofText_of_read {domain : Domain} {problem : Problem} {t : Ground.Task κ}
    (hread : searched.read = .ok (domain, problem)) (hground : Task.ground domain problem = .ok t) :
    Task.ofText searched = .ok t :=
  bind_eq_ok.2 ⟨_, hread, hground⟩

/-- The planner that searches the ground task finds the plans of the search, each once. -/
theorem plans_eq_ok {b : Plan.Bounds κ} {ps : List (Plan κ)} :
    (Planner.grounded b).plans searched = .ok ps ↔ searched.requirePresent = .ok () ∧
      ∃ t, Task.ofText searched = .ok t ∧ Plan.distinct (Plan.search t b).1 = ps := by
  constructor
  · intro h
    obtain ⟨_, hpresent, h⟩ := bind_eq_ok.1 h
    obtain ⟨found, hfound, h⟩ := bind_eq_ok.1 h
    obtain ⟨t, ht, hsearch⟩ := bind_eq_ok.1 hfound
    obtain rfl := Except.ok.inj hsearch
    exact ⟨hpresent, t, ht, Except.ok.inj h⟩
  · rintro ⟨hpresent, t, ht, rfl⟩
    exact bind_eq_ok.2 ⟨_, hpresent, bind_eq_ok.2 ⟨_, bind_eq_ok.2 ⟨t, ht, rfl⟩, rfl⟩⟩

/-- The landmarks of a task given as texts are those of its ground task. -/
theorem extractText_eq_ok {name : String} {g : Landmark.Graph} :
    Landmark.extractText κ searched name = .ok g ↔ ∃ category, Landmark.Category.read name = .ok category ∧
      searched.requirePresent = .ok () ∧ ∃ t : Ground.Task κ, Task.ofText searched = .ok t ∧
        (Landmark.extract t category).validate = .ok () ∧ Landmark.extract t category = g := by
  constructor
  · intro h
    obtain ⟨category, hcategory, h⟩ := bind_eq_ok.1 h
    obtain ⟨_, hpresent, h⟩ := bind_eq_ok.1 h
    obtain ⟨t, ht, h⟩ := bind_eq_ok.1 h
    obtain ⟨_, hvalid, h⟩ := bind_eq_ok.1 h
    exact ⟨category, hcategory, hpresent, t, ht, hvalid, Except.ok.inj h⟩
  · rintro ⟨category, hcategory, hpresent, t, ht, hvalid, rfl⟩
    exact bind_eq_ok.2 ⟨category, hcategory, bind_eq_ok.2 ⟨_, hpresent, bind_eq_ok.2 ⟨t, ht, bind_eq_ok.2
      ⟨_, hvalid, rfl⟩⟩⟩⟩

end Found

/-! ## Views -/

/-- Before anything is selected, a request whose data belong together is answered. -/
theorem exists_view_of_prepare {r : Request κ} {c : Context κ} (hprepare : Context.prepare r = .ok (some c))
    (hnone : r.selections = []) :
    (∃ v, select r = .ok (some v)) ∧ ∀ direction, ∃ v, build r direction = .ok (some v) := by
  have hself : r = { r with selections := [] } := by rw [← hnone]
  rw [hself]
  constructor
  · rw [select_of_prepare hprepare]
    split
    · exact ⟨_, rfl⟩
    · exact ⟨_, rfl⟩
  · intro direction
    rw [build_of_prepare hprepare]
    split
    · exact ⟨_, rfl⟩
    · exact ⟨_, rfl⟩

/-- The request to see plans and landmarks before anything is selected. -/
def asked (task : TaskText) (plans : List (Plan κ)) (landmarks : Landmark.Graph) : Request κ :=
  { task, plans, landmarks }

/-- What has been found belongs to a domain that its actions belong to. -/
theorem exists_prepare_of_found [Scale κ] {t : Ground.Task κ} {viewed : TaskText} {d : Domain}
    (hpresent : viewed.requirePresent = .ok ()) (hread : Domain.read viewed.domain = .ok d)
    (hbelongs : ∀ a ∈ t.actions, belongs d a.name = true) (b : Plan.Bounds κ) {category : Landmark.Category}
    (hvalid : (Landmark.extract t category).validate = .ok ()) :
    ∃ c, Context.prepare (asked viewed (Plan.distinct (Plan.search t b).1) (Landmark.extract t category)) =
      .ok (some c) := by
  refine ⟨_, prepare_eq hpresent hread hvalid (List.all_eq_true.2 fun p hp => ?sound)
    (List.all_eq_true.2 fun l hl => ?known)⟩
  case sound =>
    refine Bool.and_eq_true_iff.2 ⟨?_, List.all_eq_true.2 fun action haction => ?_⟩
    · rw [Plan.hash_of_mem_distinct hp]
      exact decide_eq_true rfl
    · obtain ⟨q, hq, hsame⟩ := Plan.exists_of_mem_distinct hp
      obtain ⟨a, ha, rfl⟩ := Plan.exists_of_mem_search hq (hsame ▸ haction)
      exact hbelongs a ha
  case known =>
    refine Bool.and_eq_true_iff.2
      ⟨List.all_eq_true.2 fun action haction => ?_, List.all_eq_true.2 fun action haction => ?_⟩
    · obtain ⟨a, ha, rfl⟩ := exists_of_mem_achievers hl (.inl haction)
      exact hbelongs a ha
    · obtain ⟨a, ha, rfl⟩ := exists_of_mem_achievers hl (.inr haction)
      exact hbelongs a ha

/-- **What is found is never called inconsistent.** If no two schemas of a task have one name, and plans are found and
landmarks extracted for the task as it is or with formulas compiled into it, then they belong together with either of
the domains. All views without selections are answered. -/
theorem exists_view_of_found [Scale κ] {task searched viewed : TaskText} (hsearched : Searched task searched)
    {b : Plan.Bounds κ} {ps : List (Plan κ)} (hplans : (Planner.grounded b).plans searched = .ok ps)
    {category : String} {g : Landmark.Graph} (hgraph : Landmark.extractText κ searched category = .ok g)
    {d : Domain} (hread : Domain.read task.domain = .ok d) (hnames : (d.schemas.map (·.name)).Nodup)
    (hdomain : viewed.domain = task.domain ∨ viewed.domain = searched.domain)
    (hproblem : viewed.problem = task.problem ∨ viewed.problem = searched.problem) :
    (∃ c, Context.prepare (asked viewed ps g) = .ok (some c)) ∧ (∃ v, select (asked viewed ps g) = .ok (some v)) ∧
      ∀ direction, ∃ v, build (asked viewed ps g) direction = .ok (some v) := by
  obtain ⟨hpresent, t, ht, rfl⟩ := plans_eq_ok.1 hplans
  obtain ⟨category, -, -, t', ht', hvalid, rfl⟩ := extractText_eq_ok.1 hgraph
  obtain rfl := Except.ok.inj (ht.symm.trans ht')
  obtain ⟨found, hfound, hactions⟩ := isActionOf_of_ofText ht
  obtain ⟨given, hgiven, hsignatures⟩ := signatures_of_searched hsearched hfound
  obtain rfl := Except.ok.inj (hread.symm.trans hgiven)
  -- Either domain has the schemas of the one that is searched.
  have hviewed : ∃ d', Domain.read viewed.domain = .ok d' ∧ d'.signatures = d.signatures := by
    rcases hdomain with hdomain | hdomain
    · exact ⟨d, hdomain ▸ hread, rfl⟩
    · exact ⟨found, hdomain ▸ hfound, hsignatures⟩
  obtain ⟨d', hd', hsame⟩ := hviewed
  have hbelongs : ∀ a ∈ t.actions, belongs d' a.name = true := by
    refine fun a ha => belongs_of_isActionOf (hsame.trans hsignatures.symm) ?_ (hactions a ha)
    rwa [map_name_of_signatures hsame]
  have htask := requirePresent_of_searched hsearched hpresent
  have hpresentViewed := requirePresent_of_either htask hpresent hdomain hproblem
  obtain ⟨c, hprepare⟩ := exists_prepare_of_found hpresentViewed hd' hbelongs b hvalid
  exact ⟨⟨c, hprepare⟩, exists_view_of_prepare hprepare rfl⟩

/-! ## A note -/

section Note

/-- A domain with one action. -/
def noting : Domain where
  name := "noting"
  schemas := [{ name := "note" }]

/-- A problem in which nothing has to be done. -/
def noted : Problem where
  name := "noted"
  domain := "noting"
  goal := .list []

/-- Their texts. -/
def notingTask : TaskText :=
  ⟨"(define (domain noting) (:action note))", "(define (problem noted) (:domain noting) (:goal ()))"⟩

/-- The fact of the formula that asks for a note. -/
def noteNames : Array String := #["(ltl-seen-a0)"]

/-- The ground task with that formula. -/
def noteTask [Scale κ] (facts : FactTable) : Ground.Task κ where
  facts
  init := []
  actions := #[
    { name := "(note)", needs := [], forbids := [], adds := [0], deletes := [], conditional := []
      cost := Scale.ofNat 1 }]
  goalNeeds := [0]
  goalForbids := []

theorem read_noting : Domain.read notingTask.domain = .ok noting := by decide +kernel

theorem exists_compiled_noting [Scale κ] : ∃ domain problem, ∃ facts : FactTable, facts.names = noteNames ∧
    Encoding.compileText notingTask ["Existence note"] .p4p = .ok (.of domain problem) ∧
    (TaskText.of domain problem).read = .ok (domain, problem) ∧
    Task.ground domain problem = .ok (noteTask (κ := κ) facts) := by
  have hcompile : ∃ domain problem,
      Encoding.compile noting noted [⟨.existence, ["note"], rfl, by decide⟩] .p4p = .ok (domain, problem) ∧
      (TaskText.of domain problem).read = .ok (domain, problem) ∧
      bareTask (κ := κ) domain problem = some {
        init := []
        actions := [⟨"(note)", { effect := [(true, "(ltl-seen-a0)")] }, Scale.ofNat 1⟩]
        goal := [(true, "(ltl-seen-a0)")] } :=
    ⟨_, _, rfl, by decide +kernel, rfl⟩
  obtain ⟨domain, problem, hcompile, hread, hbare⟩ := hcompile
  have hpruned (facts : FactTable) (hnames : facts.names = noteNames) :
      (noteTask (κ := κ) facts).pruned = noteTask facts := by
    obtain ⟨names, numbers, hnumbers⟩ := facts
    subst hnames
    cbv
  obtain ⟨facts, hnames, hground⟩ := exists_ground_of_bare hbare (by
    simp only [NamedTask.places, actionPlaces, splitPlaces,
      List.mapM_cons, List.mapM_nil, Naming.pure_eq, Naming.bind_eq]
    cbv) hpruned
  refine ⟨domain, problem, facts, hnames, ?_, hread, hground⟩
  have hpresent : notingTask.requirePresent = .ok () := by decide +kernel
  have hproblem : Problem.read notingTask.problem = .ok noted := by decide +kernel
  have htask : notingTask.read = .ok (noting, noted) := bind_eq_ok.2 ⟨_, read_noting, bind_eq_ok.2 ⟨_, hproblem, rfl⟩⟩
  have hformulas : ["Existence note"].mapM Constraint.Formula.read = .ok [⟨.existence, ["note"], rfl, by decide⟩] := rfl
  exact bind_eq_ok.2 ⟨_, hpresent, bind_eq_ok.2 ⟨_, hformulas, bind_eq_ok.2 ⟨_, htask, bind_eq_ok.2
    ⟨_, hcompile, rfl⟩⟩⟩⟩

/-- The plan that is found is to do the action. -/
theorem actions_search_noteTask [Scale κ] [Std.TransCmp (Scale.order : κ → κ → Ordering)] {facts : FactTable}
    (h : facts.names = noteNames) :
    (Plan.search (noteTask (κ := κ) facts) .usual).1.map (·.actions) = [["(note)"]] := by
  obtain ⟨names, numbers, hnumbers⟩ := facts
  subst h
  have hstart : (noteTask (κ := κ) ⟨noteNames, numbers, hnumbers⟩).initialState = ⟨#[0]⟩ := by cbv
  exact (Plan.search_of_runWithin 3 hstart (by cbv)).1

/-- The landmark of the task is that the action is done. -/
theorem achievers_extract_noteTask [Scale κ] {facts : FactTable} (h : facts.names = noteNames) :
    (Landmark.extract (noteTask (κ := κ) facts) .zg).landmarks.map (·.possibleAchievers) = [["(note)"]] := by
  obtain ⟨names, numbers, hnumbers⟩ := facts
  subst h
  cbv

theorem exists_view_of_found_noting : ∃ compiled ps g,
    Encoding.compileText notingTask ["Existence note"] .p4p = .ok compiled ∧
    (Planner.grounded (.usual : Plan.Bounds Double)).plans compiled = .ok ps ∧
    Landmark.extractText Double compiled "lm_zg" = .ok g ∧
    (∃ p rest, ps = p :: rest ∧ p.actions = ["(note)"]) ∧ g.landmarks.map (·.possibleAchievers) = [["(note)"]] ∧
    Domain.read notingTask.domain = .ok noting ∧ (noting.schemas.map (·.name)).Nodup ∧
    ∀ viewed, viewed = notingTask ∨ viewed = compiled →
      (∃ c, Context.prepare (asked viewed ps g) = .ok (some c)) ∧ (∃ v, select (asked viewed ps g) = .ok (some v)) ∧
        ∀ direction, ∃ v, build (asked viewed ps g) direction = .ok (some v) := by
  obtain ⟨domain, problem, facts, hfacts, hcompile, hread, hground⟩ := exists_compiled_noting (κ := Double)
  have ht := ofText_of_read hread hground
  have hvalid := (Landmark.regular_extract (Task.needsInRange_of_ground hground) .zg).validate
  have hlandmarks := achievers_extract_noteTask (κ := Double) hfacts
  obtain ⟨p, rest, hsearch, hp, -⟩ := List.map_eq_cons_iff.1 (actions_search_noteTask (κ := Double) hfacts)
  generalize noteTask (κ := Double) facts = t at *
  have hpresent := requirePresent_of domain problem
  have hplans := plans_eq_ok (b := .usual).2 ⟨hpresent, t, ht, rfl⟩
  have hcategory : Landmark.Category.read "lm_zg" = .ok .zg := rfl
  have hgraph := extractText_eq_ok.2 ⟨.zg, hcategory, hpresent, t, ht, hvalid, rfl⟩
  have hnames : (noting.schemas.map (·.name)).Nodup := by decide
  refine ⟨_, _, _, hcompile, hplans, hgraph, ?_, hlandmarks, read_noting, hnames, fun viewed hviewed => ?_⟩
  · rw [hsearch]
    exact ⟨_, _, rfl, hp⟩
  · exact exists_view_of_found (.inr ⟨_, _, hcompile⟩) hplans hgraph read_noting hnames
      (hviewed.imp (congrArg _) (congrArg _)) (hviewed.imp (congrArg _) (congrArg _))

end Note

end Waymark.View
