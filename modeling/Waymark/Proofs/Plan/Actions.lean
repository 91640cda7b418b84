import Waymark.Plan.Search
import Waymark.Proofs.Ground.Refinement
import Waymark.Proofs.Plan.Identity
import Waymark.Proofs.Plan.Queue
import Waymark.Proofs.Planning.Legible

/-!
# The actions of plans

A search appends actions of its task, so the plans that it finds are made of names of ground actions. If the domain and
the problem have been read, the words of such a name are the name of a schema and those of its arguments.

* `exists_of_mem_search`: the actions of the plans that are found;
* `actionWords_atomName`: the words of an atom;
* `IsActionOf`, `isActionOf_of_ground`: ground actions and the schemas that their names tell.
-/

namespace Waymark.Plan

open Ground Planning Number Waymark.Expr

variable {κ : Type} [Scale κ]

/-! ## Plans that are found -/

section Search

variable {t : Ground.Task κ}

/-- All actions of the node are actions of the task. -/
def Node.Within (t : Ground.Task κ) (n : Node) : Prop := ∀ i ∈ n.actions, ∃ a, t.actions[i]? = some a

theorem Node.Within.successors {n : Node} (h : n.Within t) (cost : κ) :
    ∀ x ∈ successors t cost n, x.2.Within t := by
  intro x hx
  obtain ⟨i, -, hi⟩ := List.mem_filterMap.1 hx
  split at hi
  · rename_i a ha
    split at hi
    · dsimp only at hi
      split at hi
      · cases hi
      · obtain rfl := Option.some.inj hi
        exact List.forall_mem_cons.2 ⟨⟨a, ha⟩, h⟩
    · cases hi
  · cases hi

theorem forall_pushAll {P : Node → Prop} {agenda : Agenda κ} (h : ∀ e ∈ agenda.frontier.entries, P e.item)
    {nodes : List (κ × Node)} (hnodes : ∀ x ∈ nodes, P x.2) :
    ∀ e ∈ (agenda.pushAll nodes).frontier.entries, P e.item := by
  induction nodes generalizing agenda with
  | nil => exact h
  | cons x nodes ih =>
    obtain ⟨hx, hnodes⟩ := List.forall_mem_cons.1 hnodes
    refine ih (fun e he => ?_) hnodes
    rcases List.mem_cons.1 ((Frontier.entries_push ..).mem_iff.1 he) with rfl | he
    · exact hx
    · exact h e he

/-- The plans that a search finds are those of nodes that continue the ones it starts with. -/
theorem exists_of_mem_searchFrom {b : Bounds κ} {plans expansions : Nat} {best : Option κ} {agenda : Agenda κ}
    (h : ∀ e ∈ agenda.frontier.entries, e.item.Within t) :
    ∀ p ∈ (searchFrom t b plans expansions best agenda).1, ∃ (n : Node) (cost : κ), n.Within t ∧ p = n.plan t cost := by
  have hpop {agenda : Agenda κ} {e : Entry κ Node} {f : Frontier κ Node}
      (h : ∀ e ∈ agenda.frontier.entries, e.item.Within t) (hpop : agenda.frontier.pop? = some (e, f)) :
      e.item.Within t ∧ ∀ x ∈ f.entries, x.item.Within t :=
    List.forall_mem_cons.1 fun x hx => h x ((Frontier.entries_pop hpop).mem_iff.2 hx)
  fun_induction searchFrom t b plans expansions best agenda with
  | case1 => simp
  | case2 => simp
  | case3 => simp
  | case4 _ _ _ _ e f hentry _ _ found ending hfound ih =>
    obtain ⟨he, hf⟩ := hpop h hentry
    rw [hfound] at ih
    exact List.forall_mem_cons.2 ⟨⟨e.item, e.cost, he, rfl⟩, ih hf⟩
  | case5 => simp
  | case6 _ _ _ e f hentry _ _ expansions ih =>
    obtain ⟨he, hf⟩ := hpop h hentry
    exact ih (forall_pushAll hf (he.successors e.cost))

/-- The actions of the plans that a search finds are actions of the task. -/
theorem exists_of_mem_search {b : Bounds κ} {p : Plan κ} (hp : p ∈ (search t b).1) {action : String}
    (haction : action ∈ p.actions) : ∃ a ∈ t.actions, a.name = action := by
  have hnone : ∀ e ∈ (Frontier.empty : Frontier κ Node).entries, e.item.Within t := by simp [Frontier.entries]
  have hstart : ∀ x ∈ [((Scale.ofNat 0 : κ), Node.start t)], x.2.Within t := by simp [Node.Within, Node.start]
  obtain ⟨n, cost, hn, rfl⟩ := exists_of_mem_searchFrom (forall_pushAll hnone hstart) p hp
  obtain ⟨i, hi, rfl⟩ := List.mem_map.1 haction
  obtain ⟨a, ha⟩ := hn i (List.mem_reverse.1 hi)
  exact ⟨a, Array.mem_of_getElem? ha, by rw [Task.actionName, ha]; rfl⟩

end Search

/-! ## Words -/

theorem isLowWord_of_isName {w : String} (h : IsName w) : IsLowWord w := ⟨h.isToken, h.lower_eq⟩

theorem atomName_eq (name : String) (args : List String) :
    atomName name args = "(" ++ " ".intercalate (name :: args) ++ ")" := by
  have hjoin (name : String) : [' '].intercalate ((name :: args).map String.toList) ++ [')'] =
      name.toList ++ argumentChars args := by
    induction args generalizing name with
    | nil => simp [argumentChars]
    | cons a args ih =>
      rw [List.map_cons, List.map_cons, List.intercalate_cons_cons, argumentChars_cons, ← ih a]
      simp
  refine String.toList_inj.1 ?_
  rw [toList_atomName_eq, ← hjoin]
  simp [String.toList_intercalate]

/-- The words of an atom are its predicate and its arguments. -/
theorem actionWords_atomName {name : String} {args : List String} (hname : IsName name)
    (hargs : ∀ a ∈ args, IsName a) : actionWords (atomName name args) = name :: args := by
  rw [atomName_eq]
  refine actionWords_intercalate fun w hw => isLowWord_of_isName ?_
  exact List.forall_mem_cons (p := IsName) |>.2 ⟨hname, hargs⟩ w hw

/-- The words of the action are the name of a schema of the domain and as many arguments as it has parameters. -/
def IsActionOf (domain : Domain) (action : String) : Prop :=
  ∃ s ∈ domain.schemas, ∃ args, actionWords action = s.name :: args ∧ args.length = s.params.length

/-- The name of a ground action tells its schema. -/
theorem isActionOf_of_ground {domain : Domain} {problem : Problem} (hdomain : domain.Legible)
    (hproblem : problem.Legible) {t : Ground.Task κ} (h : Task.ground domain problem = .ok t) {a : Action κ}
    (ha : a ∈ t.actions) : IsActionOf domain a.name := by
  obtain ⟨⟨s, args⟩, hstep, hname⟩ := Task.exists_isStep_of_mem hdomain.worded h ha
  have hargs : ∀ arg ∈ args, IsName arg := by
    intro arg harg
    obtain ⟨o, ho, rfl⟩ := exists_object_of_isStep hstep harg
    rcases List.mem_append.1 ho with ho | ho
    · exact (hproblem.objects o ho).name
    · exact (hdomain.constants o ho).name
  refine ⟨s, hstep.1, args, ?_, hstep.2.length_eq.symm⟩
  rw [hname]
  exact actionWords_atomName (hdomain.schemas s hstep.1).name hargs

end Waymark.Plan
