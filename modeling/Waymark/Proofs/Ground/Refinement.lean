import Mathlib.Tactic
import Waymark.Number.Exact
import Waymark.Proofs.Ground.Instance
import Waymark.Proofs.Ground.Path

/-!
# Grounding keeps the meaning of a task

What the steps of a domain and a problem can do, the actions of its ground task can do, and the other way
round. Nothing is lost when literals are decided while grounding, when constants and objects are merged,
when effects that can never fire are left out, or when unreachable actions are dropped.

* `Regular`: what is asked of a domain and a problem;
* `NamedTask.Refines`, `NamedTask.refines_of`: actions over names do what steps do;
* `Task.Mirrors`: a state of a ground task and a set of atoms say the same;
* `Task.Depicts`: what is kept along the way, with `Task.Depicts.forward`, `Task.Depicts.backward` for one
  step;
* `ground_faithful`: the steps that can be taken in turn are the ones whose ground actions can, and they
  lead through states that say the same, with `ground_faithful_of_read` for texts that are read.
-/

namespace Waymark.Ground

open Planning Number

variable {κ : Type} {domain : Domain} {problem : Problem} {S : Set Atom}

/-- What is asked of a domain and a problem: schemas have different names, parameters are different
variables, and initial entries are atoms or give values to functions. -/
structure Regular (domain : Domain) (problem : Problem) : Prop where
  schemas : (domain.schemas.map (·.name)).Nodup
  params : ∀ s ∈ domain.schemas, ProperParams s.params
  init : ∀ x ∈ problem.init, (∃ p args, x = Expr.call p args) ∨ ∃ items, x = .list (.atom "=" :: items)

/-! ## The initial state -/

section Initially

variable [Scale κ]

/-- The initial facts are the texts of the atoms that hold initially. -/
theorem mem_facts_of_read (hregular : Regular domain problem) {initial : Initial κ}
    (h : Initial.read problem.init ∅ = .ok initial) {m : String} :
    m ∈ initial.facts ↔ m ∈ Atom.text '' initialAtoms problem := by
  rw [facts_of_read h, List.mem_filterMap]
  constructor
  · rintro ⟨x, hx, hfact⟩
    obtain ⟨predicate, items, rfl, hne, rfl⟩ := initialFact?_eq_some.1 hfact
    rcases hregular.init _ hx with ⟨p, args, he⟩ | ⟨others, he⟩
    · injection he with he
      obtain ⟨hp, rfl⟩ := List.cons.inj he
      obtain rfl := Expr.atom.inj hp
      rw [filterMap_atom?]
      exact ⟨⟨predicate, args⟩, ⟨hne, hx⟩, rfl⟩
    · injection he with he
      exact absurd (Expr.atom.inj (List.cons.inj he).1) hne
  · rintro ⟨a, ⟨hne, ha⟩, rfl⟩
    refine ⟨_, ha, initialFact?_eq_some.2 ⟨a.predicate, _, rfl, hne, ?_⟩⟩
    rw [filterMap_atom?]
    rfl

/-- Initially what does not depend on the state is as grounding takes it to be. -/
theorem fits_initialAtoms (hwords : problem.Worded) (hregular : Regular domain problem)
    {initial : Initial κ} (h : Initial.read problem.init ∅ = .ok initial)
    (actions : List (LiftedAction κ)) :
    (Setting.of domain problem actions initial).Fits (initialAtoms problem) := by
  have hproper : ∀ a ∈ initialAtoms problem, a.Proper := by
    rintro a ⟨hne, ha⟩
    obtain ⟨hpredicate, hargs⟩ := List.forall_mem_cons.1 (forall_worded (hwords.init _ ha))
    exact ⟨isWord_of_worded hpredicate,
      fun x hx => isWord_of_worded (hargs _ (List.mem_map_of_mem hx)), hne⟩
  refine ⟨hproper, fun a ha _ => ?_⟩
  show _ ↔ (Std.HashSet.ofList initial.facts).contains a.text = true
  rw [Std.HashSet.contains_ofList, List.contains_iff_mem]
  exact (mem_texts hproper ha).symm.trans (mem_facts_of_read hregular h).symm

end Initially

/-! ## The goal -/

/-- No atom of a state is called like the fact that stands for a false equality. -/
theorem equality_not_mem_texts (hS : ∀ a ∈ S, a.Proper) {x y : String} (hx : IsWord x) (hy : IsWord y) :
    atomName "=" [x, y] ∉ Atom.text '' S := by
  rintro ⟨b, hb, htext⟩
  have hproper := hS b hb
  have hwords : ∀ z ∈ [x, y], IsWord z := by simp [hx, hy]
  exact hproper.ne_eq (atomName_inj hproper.predicate (by decide) hproper.args hwords htext).1

/-- The signed facts of a goal hold exactly if its literals do. -/
theorem allHold_of_goalNamed (hS : ∀ a ∈ S, a.Proper) {ls : List Literal} (hls : ∀ l ∈ ls, l.Worded)
    {xs : List (Signed String)} (h : goalNamed ls = .ok xs) :
    AllHold (Atom.text '' S) xs ↔ ∀ l ∈ ls, l.Holds id S := by
  induction ls generalizing xs with
  | nil =>
    obtain rfl := Except.ok.inj h
    simp [AllHold]
  | cons l ls ih =>
    obtain ⟨hl, htail⟩ := List.forall_mem_cons.1 hls
    rw [List.forall_mem_cons]
    cases l with
    | atom positive predicate args =>
      obtain ⟨x, hx, h⟩ := bind_eq_ok.1 h
      obtain ⟨ys, hys, h⟩ := bind_eq_ok.1 h
      obtain rfl := Except.ok.inj h
      obtain ⟨positive, predicate, args, hatom, rfl⟩ := cases_of_named agrees_nil hx
      cases hatom
      rw [AllHold, List.forall_mem_cons]
      exact and_congr (iff_congr (mem_texts hS (Atom.Proper.map (fun _ hw => hw) hl)) Iff.rfl) (ih htail hys)
    | equality positive x y =>
      unfold goalNamed at h
      split at h
      · rename_i htrue
        rw [ih htail h, and_iff_right (holds_equality.2 htrue)]
      · rename_i hfalse
        obtain ⟨ys, -, rfl⟩ := map_eq_ok.1 h
        refine iff_of_false (fun hall => ?_) fun hall => hfalse (holds_equality.1 hall.1)
        exact equality_not_mem_texts hS hl.1 hl.2 ((hall _ List.mem_cons_self).2 rfl)

/-! ## Actions -/

section Actions

variable [Scale κ]

namespace Setting

variable {setting : Setting κ} {types objects : List TypedName}

/-- The ground actions of several schemas are those of each. -/
theorem mem_instancesAll {actions : List (LiftedAction κ)} {ms : List (NamedAction κ)}
    (h : setting.instancesAll types objects actions = .ok ms) :
    (∀ m ∈ ms, ∃ a ∈ actions, ∃ found, setting.instances types objects a = .ok found ∧ m ∈ found) ∧
      ∀ a ∈ actions, ∃ found, setting.instances types objects a = .ok found ∧ ∀ m ∈ found, m ∈ ms := by
  induction actions generalizing ms with
  | nil =>
    obtain rfl := Except.ok.inj h
    exact ⟨nofun, nofun⟩
  | cons a actions ih =>
    obtain ⟨found, hfound, h⟩ := bind_eq_ok.1 h
    obtain ⟨rest, hrest, h⟩ := bind_eq_ok.1 h
    obtain rfl := Except.ok.inj h
    obtain ⟨hleft, hright⟩ := ih hrest
    refine ⟨fun m hm => ?_, List.forall_mem_cons.2
      ⟨⟨found, hfound, fun m hm => List.mem_append_left _ hm⟩, fun b hb => ?_⟩⟩
    · rcases List.mem_append.1 hm with hm | hm
      · exact ⟨a, List.mem_cons_self, found, hfound, hm⟩
      · obtain ⟨b, hb, others, hothers, hm⟩ := hleft m hm
        exact ⟨b, List.mem_cons_of_mem _ hb, others, hothers, hm⟩
    · obtain ⟨others, hothers, hsub⟩ := hright b hb
      exact ⟨others, hothers, fun m hm => List.mem_append_right _ (hsub m hm)⟩

omit [Scale κ] in
theorem spares_of {domain : Domain} {problem : Problem} {actions : List (LiftedAction κ)}
    {initial : Initial κ} {a : LiftedAction κ} (ha : a ∈ actions) :
    (Setting.of domain problem actions initial).Spares a := by
  intro l hl p hp
  rw [Bool.eq_false_iff, Ne, contains_statics, mem_changedPredicates]
  exact fun h => h.2 ⟨a, ha, l, hl, hp⟩

end Setting

/-- The ground actions of a task are named by steps. -/
theorem NamedTask.exists_isStep_of_mem (hdomain : domain.Worded) {n : NamedTask κ}
    (h : NamedTask.of domain problem = .ok n) {m : NamedAction κ} (hm : m ∈ n.actions) :
    ∃ x, IsStep domain problem x ∧ m.name = x.name := by
  obtain ⟨actions, hactions, h⟩ := bind_eq_ok.1 h
  obtain ⟨initial, -, h⟩ := bind_eq_ok.1 h
  obtain ⟨all, hall, h⟩ := bind_eq_ok.1 h
  obtain ⟨found, hfound, h⟩ := bind_eq_ok.1 h
  obtain ⟨literals, -, h⟩ := bind_eq_ok.1 h
  obtain ⟨goal, -, h⟩ := bind_eq_ok.1 h
  obtain rfl := Except.ok.inj h
  obtain ⟨-, rfl⟩ := limited_eq_ok_iff.1 hfound
  obtain ⟨a, ha, ms, hms, hm⟩ := (Setting.mem_instancesAll hall).1 m hm
  obtain ⟨s, hs, hreads⟩ := exists_rel_of_mem (mapM_eq_ok.1 hactions) ha
  have hrenders := LiftedAction.renders_of_read (hdomain.schemas _ hs) hreads
  obtain ⟨lists, hlists, hms⟩ := bind_eq_ok.1 hms
  obtain ⟨args, hargs, hnamed⟩ := (Setting.mem_namedAll hms).1 m hm
  refine ⟨(s, args), Setting.isStep_of_assignments hs hrenders.params hlists hargs, ?_⟩
  rw [Setting.name_of_named _ hnamed, hrenders.name]
  rfl

theorem Task.exists_isStep_of_mem (hdomain : domain.Worded) {t : Task κ} (h : Task.ground domain problem = .ok t)
    {a : Action κ} (ha : a ∈ t.actions) : ∃ x, IsStep domain problem x ∧ a.name = x.name := by
  obtain ⟨n, hn, full, hnames, rfl⟩ := exists_named_of_ground h
  obtain ⟨m, hm, hnamed⟩ := exists_rel_of_mem hnames.actions.flip (Array.mem_toList_iff.2 (mem_actions_pruned.1 ha).1)
  obtain ⟨x, hx, hname⟩ := NamedTask.exists_isStep_of_mem hdomain hn hm
  exact ⟨x, hx, hnamed.name.trans hname⟩

/-- The actions over names do what the steps of a domain and a problem do, in all states that fit the
setting, as the initial state does. -/
structure NamedTask.Refines (n : NamedTask κ) (domain : Domain) (problem : Problem)
    (setting : Setting κ) : Prop where
  start : setting.Fits (initialAtoms problem)
  initial : n.initial = Atom.text '' initialAtoms problem
  goal : ∀ S, setting.Fits S → (AllHold (Atom.text '' S) n.goal ↔ problem.goal.Holds id S)
  exists_action : ∀ S x, setting.Fits S → IsStep domain problem x → x.1.Allows x.2 S →
    ∃ m ∈ n.actions, m.name = x.name
  action : ∀ S x m, setting.Fits S → IsStep domain problem x → m ∈ n.actions → m.name = x.name →
    setting.Instantiates S x m

theorem NamedTask.refines_of (hregular : Regular domain problem) (hdomain : domain.Worded)
    (hproblem : problem.Worded) {n : NamedTask κ} (h : NamedTask.of domain problem = .ok n) :
    ∃ setting, n.Refines domain problem setting := by
  obtain ⟨actions, hactions, h⟩ := bind_eq_ok.1 h
  obtain ⟨initial, hinitial, h⟩ := bind_eq_ok.1 h
  obtain ⟨all, hall, h⟩ := bind_eq_ok.1 h
  obtain ⟨found, hfound, h⟩ := bind_eq_ok.1 h
  obtain ⟨literals, hliterals, h⟩ := bind_eq_ok.1 h
  obtain ⟨goal, hgoal, h⟩ := bind_eq_ok.1 h
  obtain rfl := Except.ok.inj h
  obtain ⟨-, rfl⟩ := limited_eq_ok_iff.1 hfound
  have hread := mapM_eq_ok.1 hactions
  obtain ⟨hleft, hright⟩ := Setting.mem_instancesAll hall
  refine ⟨Setting.of domain problem actions initial, fits_initialAtoms hproblem hregular hinitial actions,
    ?initial, fun S hS => ?goal, fun S x hS hx hallows => ?exists_action,
    fun S x m hS hx hm hname => ?action⟩
  case initial =>
    ext m
    exact mem_facts_of_read hregular hinitial
  case goal =>
    have hreads := readsAs_readCondition problem.goal hliterals
    rw [allHold_of_goalNamed hS.proper (hreads.worded hproblem.goal) hgoal, hreads.holds]
  case exists_action =>
    obtain ⟨a, ha, hreads⟩ := exists_rel_of_mem hread.flip hx.1
    have hrenders := LiftedAction.renders_of_read (hdomain.schemas _ hx.1) hreads
    obtain ⟨ms, hms, hsub⟩ := hright a ha
    obtain ⟨m, hm, hname⟩ := Setting.exists_instance hdomain hproblem hrenders (hregular.params _ hx.1)
      (Setting.spares_of ha) hms hS hx hallows
    exact ⟨m, hsub m hm, hname⟩
  case action =>
    obtain ⟨a, ha, ms, hms, hm⟩ := hleft m hm
    obtain ⟨s, hs, hreads⟩ := exists_rel_of_mem hread ha
    have hrenders := LiftedAction.renders_of_read (hdomain.schemas _ hs) hreads
    obtain ⟨args, hstep, hinstance⟩ := Setting.instantiates_of_mem hdomain hproblem hrenders
      (hregular.params _ hs) (Setting.spares_of ha) hms hS hs hm
    -- The name of the action says of which schema and of which arguments it is.
    obtain ⟨hschema, hequal⟩ := atomName_inj (hdomain.schemas _ hs).name (hdomain.schemas _ hx.1).name
      (isWord_of_isStep hdomain hproblem hstep) (isWord_of_isStep hdomain hproblem hx)
      (hinstance.name.symm.trans hname)
    have hsame : (s, args) = x :=
      Prod.ext (List.inj_on_of_nodup_map hregular.schemas hs hx.1 hschema) hequal
    exact hsame ▸ hinstance

end Actions

/-! ## States -/

/-- A state of a ground task says the same as a set of atoms: the facts that hold are the atoms of the set,
and the goal holds in both or in neither. -/
structure Task.Mirrors (t : Task κ) (problem : Problem) (s : State) (S : Set Atom) : Prop where
  facts : ∀ i < t.facts.size, s.contains i = true ↔ ∃ a ∈ S, a.text = t.facts.name i
  goal : t.isGoal s = true ↔ problem.goal.Holds id S

/-- A state that a run of the ground task can be in stands for the texts of a set of atoms. -/
structure Task.Depicts (full : Task κ) (setting : Setting κ) (s : State) (S : Set Atom) : Prop where
  sound : full.Sound s
  fits : setting.Fits S
  atoms : full.facts.atoms s = Atom.text '' S

/-- Steps lead through states in one way only. -/
theorem visits_unique {steps : List Step} {Ss Ss' : List (Set Atom)} (h : Visits S steps Ss)
    (h' : Visits S steps Ss') : Ss = Ss' := by
  induction h generalizing Ss' with
  | nil S =>
    cases h'
    rfl
  | cons _ _ ih =>
    rcases h' with _ | ⟨_, hrest⟩
    rw [ih hrest]

section Runs

variable {full : Task κ} {n : NamedTask κ} {setting : Setting κ} (hnames : TaskNames full n)
  (hrefines : n.Refines domain problem setting)
include hnames hrefines

theorem Task.depicts_initialState : full.Depicts setting full.initialState (initialAtoms problem) where
  sound := sound_initialState hnames.inRange
  fits := hrefines.start
  atoms := hnames.atoms_initialState.trans hrefines.initial

variable {s : State} (h : full.Depicts setting s S)
include h

theorem Task.Depicts.mirrors : full.pruned.Mirrors problem s S where
  facts i hi := by
    rw [← FactTable.mem_atoms (names_name hi)]
    exact (Set.ext_iff.1 h.atoms _).trans Iff.rfl
  goal := by
    rw [← hrefines.goal S h.fits, ← h.atoms]
    exact hnames.isGoal_iff

variable {x : Step} (hx : IsStep domain problem x)
include hx

/-- A step that can be taken has a ground action that can be taken. -/
theorem Task.Depicts.forward (hallows : x.1.Allows x.2 S) :
    ∃ i a, full.pruned.actions[i]? = some a ∧ full.pruned.actionName i = x.name ∧ a.applicable s = true := by
  obtain ⟨m, hm, hname⟩ := hrefines.exists_action S x h.fits hx hallows
  obtain ⟨a, ha, ham⟩ := exists_rel_of_mem hnames.actions hm
  have happ : a.applicable s = true := by
    rw [← ham.allows_iff, h.atoms]
    exact (hrefines.action S x m h.fits hx hm hname).allows.2 hallows
  have hpruned := h.sound.mem_pruned (Array.mem_toList_iff.1 ha) happ
  obtain ⟨i, hi, hget⟩ := Array.mem_iff_getElem.1 hpruned
  have hget : full.pruned.actions[i]? = some a := by rw [Array.getElem?_eq_getElem hi, hget]
  refine ⟨i, a, hget, ?_, happ⟩
  rw [actionName, hget]
  exact ham.name.trans hname

/-- A ground action that can be taken is one of a step that can be taken, and both lead on alike. -/
theorem Task.Depicts.backward {i : Nat} {a : Action κ} (ha : full.pruned.actions[i]? = some a)
    (hname : full.pruned.actionName i = x.name) (happ : a.applicable s = true) :
    x.1.Allows x.2 S ∧ full.Depicts setting (a.apply s) (x.1.next x.2 S) := by
  have hmem := (mem_actions_pruned.1 (Array.mem_of_getElem? ha)).1
  obtain ⟨m, hm, ham⟩ := exists_rel_of_mem hnames.actions.flip (Array.mem_toList_iff.2 hmem)
  have ham : ActionNames full.facts a m := ham
  rw [actionName, ha] at hname
  have hinstance := hrefines.action S x m h.fits hx hm (ham.name.symm.trans hname)
  refine ⟨?_, h.sound.apply hnames.inRange hmem happ, hinstance.fits, ?_⟩
  · rw [← hinstance.allows, ← h.atoms, ham.allows_iff]
    exact happ
  · rw [ham.atoms_apply h.sound.size, h.atoms, hinstance.next]

omit h hx in
/-- Steps that can be taken in turn have ground actions that can. -/
theorem exists_visited_of_visits {steps : List Step} {Ss : List (Set Atom)} (hvisits : Visits S steps Ss)
    (hsteps : ∀ x ∈ steps, IsStep domain problem x) {s : State} (h : full.Depicts setting s S) :
    ∃ is ss, is.map full.pruned.actionName = steps.map Step.name ∧ full.pruned.visited s is = some ss := by
  induction hvisits generalizing s with
  | nil S => exact ⟨[], [s], rfl, rfl⟩
  | cons hallows _ ih =>
    obtain ⟨hx, hsteps⟩ := List.forall_mem_cons.1 hsteps
    obtain ⟨i, a, ha, hname, happ⟩ := h.forward hnames hrefines hx hallows
    obtain ⟨is, ss, hrest, hvisited⟩ := ih hsteps (h.backward hnames hrefines hx ha hname happ).2
    refine ⟨i :: is, s :: ss, ?_, Task.visited_cons.2 ⟨a, ha, happ, ss, hvisited, rfl⟩⟩
    rw [List.map_cons, List.map_cons, hname, hrest]

omit h hx in
/-- Ground actions that can be taken in turn are those of steps that can, and both lead through states that
say the same. -/
theorem exists_visits_of_visited {steps : List Step} (hsteps : ∀ x ∈ steps, IsStep domain problem x)
    {is : List Nat} (hmap : is.map full.pruned.actionName = steps.map Step.name) {ss : List State}
    {s : State} (hvisited : full.pruned.visited s is = some ss) (h : full.Depicts setting s S) :
    ∃ Ss, Visits S steps Ss ∧ List.Forall₂ (full.pruned.Mirrors problem) ss Ss := by
  induction steps generalizing is ss s S with
  | nil =>
    obtain rfl := List.map_eq_nil_iff.1 hmap
    obtain rfl := Option.some.inj hvisited
    exact ⟨[S], .nil S, .cons (h.mirrors hnames hrefines) .nil⟩
  | cons x steps ih =>
    obtain ⟨hx, hsteps⟩ := List.forall_mem_cons.1 hsteps
    obtain ⟨i, is, rfl, hname, hmap⟩ := List.map_eq_cons_iff.1 hmap
    obtain ⟨a, ha, happ, rest, hrest, rfl⟩ := Task.visited_cons.1 hvisited
    obtain ⟨hallows, hnext⟩ := h.backward hnames hrefines hx ha hname happ
    obtain ⟨Ss, hvisits, hmirror⟩ := ih hsteps hmap hrest hnext
    exact ⟨S :: Ss, .cons hallows hvisits, .cons (h.mirrors hnames hrefines) hmirror⟩

omit h hx in
/-- Steps can be taken in turn exactly if ground actions that are called like them can. -/
theorem exists_visits_iff {steps : List Step} (hsteps : ∀ x ∈ steps, IsStep domain problem x) :
    (∃ Ss, Visits (initialAtoms problem) steps Ss) ↔ ∃ is ss, is.map full.pruned.actionName = steps.map Step.name ∧
      full.pruned.visited full.pruned.initialState is = some ss := by
  have hstart := Task.depicts_initialState hnames hrefines
  constructor
  · rintro ⟨Ss, hvisits⟩
    exact exists_visited_of_visits hnames hrefines hvisits hsteps hstart
  · rintro ⟨is, ss, hmap, hvisited⟩
    obtain ⟨Ss, hvisits, -⟩ := exists_visits_of_visited hnames hrefines hsteps hmap hvisited hstart
    exact ⟨Ss, hvisits⟩

omit h hx in
/-- Both lead through states that say the same. -/
theorem mirrors_of_visits {steps : List Step} (hsteps : ∀ x ∈ steps, IsStep domain problem x) {Ss : List (Set Atom)}
    {is : List Nat} {ss : List State} (hvisits : Visits (initialAtoms problem) steps Ss)
    (hmap : is.map full.pruned.actionName = steps.map Step.name)
    (hvisited : full.pruned.visited full.pruned.initialState is = some ss) :
    List.Forall₂ (full.pruned.Mirrors problem) ss Ss := by
  have hstart := Task.depicts_initialState hnames hrefines
  obtain ⟨Ss', hvisits', hmirror⟩ := exists_visits_of_visited hnames hrefines hsteps hmap hvisited hstart
  rwa [visits_unique hvisits hvisits']

end Runs

/-- A ground task comes from a named task that refines the domain and the problem. -/
theorem exists_refines_of_ground [Scale κ] {t : Task κ} (hground : Task.ground domain problem = .ok t)
    (hregular : Regular domain problem) (hdomain : domain.Worded) (hproblem : problem.Worded) :
    ∃ (n : NamedTask κ) (full : Task κ) (setting : Setting κ), TaskNames full n ∧
      n.Refines domain problem setting ∧ t = full.pruned := by
  obtain ⟨n, hn, full, hnames, rfl⟩ := exists_named_of_ground hground
  obtain ⟨setting, hrefines⟩ := NamedTask.refines_of hregular hdomain hproblem hn
  exact ⟨n, full, setting, hnames, hrefines, rfl⟩

/-- **Grounding keeps the meaning of a task.** Steps of a domain and a problem can be taken in turn, by what
their expressions say, exactly if there are actions of the ground task that are called like them and are
applicable in turn. Then both lead through states that say the same: the facts that hold in a state of the
ground task are the atoms of the set, and the goal of the ground task is the goal expression. Names are
words, as in all domains and problems that are read from texts. -/
theorem ground_faithful [Scale κ] {t : Task κ} (hground : Task.ground domain problem = .ok t)
    (hregular : Regular domain problem) (hdomain : domain.Worded) (hproblem : problem.Worded)
    (steps : List Step) (hsteps : ∀ x ∈ steps, IsStep domain problem x) :
    ((∃ Ss, Visits (initialAtoms problem) steps Ss) ↔
      ∃ is ss, is.map t.actionName = steps.map Step.name ∧ t.visited t.initialState is = some ss) ∧
    ∀ Ss is ss, Visits (initialAtoms problem) steps Ss → is.map t.actionName = steps.map Step.name →
      t.visited t.initialState is = some ss → List.Forall₂ (t.Mirrors problem) ss Ss := by
  obtain ⟨n, full, setting, hnames, hrefines, rfl⟩ := exists_refines_of_ground hground hregular hdomain hproblem
  exact ⟨exists_visits_iff hnames hrefines hsteps, fun _ _ _ => mirrors_of_visits hnames hrefines hsteps⟩

/-- The same for a domain and a problem that are read from texts, in which all names are words. -/
theorem ground_faithful_of_read [Scale κ] {t : Task κ} {domainText problemText : String}
    (hdomain : Domain.read domainText = .ok domain) (hproblem : Problem.read problemText = .ok problem)
    (hground : Task.ground domain problem = .ok t) (hregular : Regular domain problem)
    (steps : List Step) (hsteps : ∀ x ∈ steps, IsStep domain problem x) :
    ((∃ Ss, Visits (initialAtoms problem) steps Ss) ↔
      ∃ is ss, is.map t.actionName = steps.map Step.name ∧ t.visited t.initialState is = some ss) ∧
    ∀ Ss is ss, Visits (initialAtoms problem) steps Ss → is.map t.actionName = steps.map Step.name →
      t.visited t.initialState is = some ss → List.Forall₂ (t.Mirrors problem) ss Ss := by
  obtain ⟨n, full, setting, hnames, hrefines, rfl⟩ := exists_refines_of_ground hground hregular
    (Domain.worded_of_read hdomain) (Problem.worded_of_read hproblem)
  exact ⟨exists_visits_iff hnames hrefines hsteps, fun _ _ _ => mirrors_of_visits hnames hrefines hsteps⟩

theorem regular_posting : Regular posting letter where
  schemas := by decide
  params s hs := by
    have hnone : s.params = [] := by
      rcases List.mem_pair.1 hs with rfl | rfl <;> rfl
    exact ⟨by simp [hnone], by simp [hnone]⟩
  init := nofun

theorem worded_posting : posting.Worded where
  constants := nofun
  schemas s hs := by
    have hone {a : String} (ha : IsWord a) : Worded (.list [.atom a]) :=
      .list fun x hx => List.mem_singleton.1 hx ▸ .atom ha
    rcases List.mem_pair.1 hs with rfl | rfl
    · exact ⟨by decide, nofun, fun x hx => Option.some.inj hx ▸ hone (by decide)⟩
    · exact ⟨by decide, fun x hx => Option.some.inj hx ▸ hone (by decide),
        fun x hx => Option.some.inj hx ▸ hone (by decide)⟩

theorem worded_letter : letter.Worded where
  objects := nofun
  init := nofun
  goal := .list fun x hx => List.mem_singleton.1 hx ▸ .atom (by decide)

theorem ground_faithful_posting :
    ∃ (t : Task Exact) (is : List Nat) (ss : List State), Task.ground posting letter = .ok t ∧
      is.map t.actionName = ["(draft)", "(send)"] ∧ t.visited t.initialState is = some ss ∧
      ∃ Ss, Visits (initialAtoms letter) (posting.schemas.map (·, [])) Ss ∧
        List.Forall₂ (t.Mirrors letter) ss Ss := by
  obtain ⟨t, ht, -⟩ := exists_plan_posting (κ := Exact)
  obtain ⟨hruns, hmirrors⟩ := ground_faithful ht regular_posting worded_posting worded_letter
    (posting.schemas.map (·, [])) (by simp [posting, IsStep])
  have hvisits : ∃ Ss, Visits (initialAtoms letter) (posting.schemas.map (·, [])) Ss := by
    refine ⟨_, .cons ?_ (.cons ?_ (.nil _))⟩
    · exact nofun
    · rintro _ ⟨⟩
      refine .inl ⟨_, rfl, ?_⟩
      simp [Expr.Causes, groundAtom]
  obtain ⟨is, ss, hnames, hvisited⟩ := hruns.1 hvisits
  obtain ⟨Ss, hSs⟩ := hvisits
  exact ⟨t, is, ss, ht, hnames, hvisited, Ss, hSs, hmirrors Ss is ss hSs hnames hvisited⟩

end Waymark.Ground
