import Waymark.Proofs.Encoding.Product
import Waymark.Proofs.Ground.Execution
import Waymark.Proofs.Plan.Walk

/-!
# How instances continue a path

A state of the ground task with monitors shows a state of the task and cells. Looked at from such a state,
each instance of the task replies with at most one continuation: it needs that the task allows the instance
and that the monitors do. So what a search has to look at is told, in order, by the instances of the task.

* `Shows`: a state shows facts of the task and cells, with `Shows.unique` and `Shows.eq`;
* `Reply`: the continuation that an instance gives;
* `exists_replies`: the continuations of a path are the replies of the instances.
-/

namespace Waymark.Encoding

open Ground Planning Number Plan

variable {ι κ : Type}

/-! ## States -/

/-- The state of the ground task shows facts of the task without monitors, and cells. -/
structure Shows (t : Ground.Task κ) (name : ι → String) (know : ι → Option Bool) (s : State)
    (S : Set String) (M : Set ι) : Prop where
  sound : t.Sound s
  atoms : t.facts.atoms s = joined name S M
  fresh : ∀ c, fluentFact name c ∉ S
  agrees : Rule.Agrees know M

theorem joined_injective {name : ι → String} (hname : Function.Injective name) {S S' : Set String}
    {M M' : Set ι} (hS : ∀ c, fluentFact name c ∉ S) (hS' : ∀ c, fluentFact name c ∉ S')
    (h : joined name S M = joined name S' M') : S = S' ∧ M = M' := by
  have hf := fluentFact_injective hname
  have hmem (a : String) : a ∈ S ∪ fluentFact name '' M ↔ a ∈ S' ∪ fluentFact name '' M' :=
    Set.ext_iff.1 h a
  constructor
  · ext a
    by_cases ha : a ∈ Set.range (fluentFact name)
    · obtain ⟨c, rfl⟩ := ha
      exact iff_of_false (hS c) (hS' c)
    · have himage (M : Set ι) : a ∉ fluentFact name '' M := fun hm =>
        ha (Set.image_subset_range _ _ hm)
      have ha := hmem a
      rwa [Set.mem_union, Set.mem_union, or_iff_left (himage M), or_iff_left (himage M')] at ha
  · ext c
    have hc := hmem (fluentFact name c)
    rwa [Set.mem_union, Set.mem_union, or_iff_right (hS c), or_iff_right (hS' c),
      hf.mem_set_image, hf.mem_set_image] at hc

section Shows

variable {t : Ground.Task κ} {name : ι → String} {know : ι → Option Bool} {s s' : State}
  {S S' : Set String} {M M' : Set ι}

theorem Shows.unique (hname : Function.Injective name) (h : Shows t name know s S M)
    (h' : Shows t name know s S' M') : S = S' ∧ M = M' :=
  joined_injective hname h.fresh h'.fresh (h.atoms.symm.trans h'.atoms)

theorem Shows.eq (h : Shows t name know s S M) (h' : Shows t name know s' S M) : s = s' :=
  h.sound.eq_of_atoms h'.sound (h.atoms.trans h'.atoms.symm)

end Shows

/-! ## Continuations -/

/-- A list that comes from a filtered one has, for each element before the filter, at most one. -/
theorem exists_options {α β γ δ : Type} {R : α → β → Prop} {f : α → Option γ} {g : δ → Option β}
    {as : List α} {ds : List δ} (h : List.Forall₂ R as (ds.filterMap g)) :
    ∃ os : List (Option γ), as.filterMap f = os.reduceOption ∧
      List.Forall₂ (fun d o => d ∈ ds ∧ (g d = none ∧ o = none ∨
        ∃ b, g d = some b ∧ ∃ a ∈ as, R a b ∧ o = f a)) ds os := by
  induction ds generalizing as with
  | nil =>
    cases h
    exact ⟨[], rfl, .nil⟩
  | cons d ds ih =>
    cases hd : g d with
    | none =>
      rw [List.filterMap_cons_none hd] at h
      obtain ⟨os, hos, hall⟩ := ih h
      exact ⟨none :: os, hos, .cons ⟨List.mem_cons_self, .inl ⟨hd, rfl⟩⟩
        (hall.imp fun d o hdo => ⟨List.mem_cons_of_mem _ hdo.1, hdo.2⟩)⟩
    | some b =>
      rw [List.filterMap_cons_some hd] at h
      cases h with
      | @cons a _ as _ hab hrest =>
        obtain ⟨os, hos, hall⟩ := ih hrest
        refine ⟨f a :: os, ?_, .cons ⟨List.mem_cons_self, .inr ⟨b, hd, a, List.mem_cons_self, hab, rfl⟩⟩
          (hall.imp fun d o hdo => ⟨List.mem_cons_of_mem _ hdo.1, hdo.2.imp_right ?_⟩)⟩
        · rw [List.filterMap_cons, hos]
          cases f a <;> rfl
        · rintro ⟨b', hb', a', ha', hR, ho⟩
          exact ⟨b', hb', a', List.mem_cons_of_mem _ ha', hR, ho⟩

/-- What an instance replies to a path: nothing if the task or the monitors do not allow it, or if the
path returns to a state, and else the path that goes on. -/
structure Reply [Scale κ] (t : Ground.Task κ) (w : Watcher ι Schema) (name : ι → String)
    (know : ι → Option Bool) (S : Set String) (M : Set ι) (cost : κ) (x : Track)
    (p : Schema × NamedAction κ) (o : Option (κ × Track)) : Prop where
  denied : ¬ (p.2.rule.Allows S ∧ (w.rule p.1).Allows M) → o = none
  allowed : p.2.rule.Allows S → (w.rule p.1).Allows M →
    ∃ s, Shows t name know s (p.2.rule.next S) ((w.rule p.1).next M) ∧
      o = if (x.state :: x.before).contains s then none
        else some (Scale.add cost p.2.cost, ⟨s, x.state :: x.before, p.2.name :: x.names⟩)

section Replies

variable {w : Watcher ι Schema} {name : ι → String} {k : Nat} {know : ι → Option Bool}
  {schemas : List Schema} {b : TaggedTask κ} (h : Layered w name k know schemas b)
  {t : Ground.Task κ} (ht : TaskNames t (monitoredTask w name know b))
include h ht

theorem Layered.shows_initialState :
    Shows t name know t.initialState b.toNamed.initial {c | c ∈ w.start} where
  sound := Task.sound_initialState ht.inRange
  atoms := ht.atoms_initialState.trans Layered.initial_eq
  fresh := h.not_mem_initial
  agrees := h.knows.agrees

theorem Layered.isGoal_iff {s : State} {S : Set String} {M : Set ι} (hs : Shows t name know s S M) :
    t.pruned.isGoal s = true ↔ AllHold S b.goal ∧ AllHold M w.goal := by
  rw [← h.goal_iff hs.fresh, ← hs.atoms]
  exact ht.isGoal_iff

variable [Scale κ]

theorem Layered.reply {cost : κ} {x : Track} {S : Set String} {M : Set ι}
    (hx : Shows t name know x.state S M) {p : Schema × NamedAction κ} (hp : p ∈ b.instances) {r : Rule ι}
    (hr : (w.rule p.1).resolve know = some r) {a : Action κ} (ha : a ∈ t.actions)
    (hnames : ActionNames t.facts a (augment name r p.2)) :
    Reply t w name know S M cost x p (x.extend cost a) := by
  have happlicable : a.applicable x.state = true ↔ p.2.rule.Allows S ∧ (w.rule p.1).Allows M := by
    rw [← hnames.allows_iff, hx.atoms, h.allows_augment hx.fresh hp hx.agrees hr]
  constructor
  · intro hnot
    rw [← happlicable] at hnot
    exact if_neg hnot
  · intro hbase hwatch
    have happ := happlicable.2 ⟨hbase, hwatch⟩
    refine ⟨a.apply x.state, ⟨hx.sound.apply ht.inRange ha happ, ?_, h.not_mem_next hx.fresh hp,
      h.agrees_next hp hx.agrees⟩, ?_⟩
    · rw [hnames.atoms_apply hx.sound.size, hx.atoms, h.next_augment hx.fresh hp hx.agrees hr]
    · refine (if_pos happ).trans ?_
      rw [hnames.name, hnames.cost]
      rfl

/-- The continuations of a path are, in order, what the instances of the task reply. -/
theorem Layered.exists_replies (cost : κ) {x : Track} {S : Set String} {M : Set ι}
    (hx : Shows t name know x.state S M) :
    ∃ os, (trackWalk t.pruned).next cost x = os.reduceOption ∧
      List.Forall₂ (Reply t w name know S M cost x) b.instances os := by
  -- Actions that pruning has dropped are not applicable, and would reply nothing.
  have hpruned : (trackWalk t.pruned).next cost x = t.actions.toList.filterMap (x.extend cost) := by
    show (t.pruned.actions.toList).filterMap (x.extend cost) = _
    rw [Task.pruned, Array.toList_filter, List.filterMap_filter]
    refine List.filterMap_congr fun a ha => ?_
    split
    · rfl
    · rename_i hneeds
      have hmem := Array.mem_toList_iff.1 ha
      refine (if_neg fun happ => hneeds ?_).symm
      exact List.all_eq_true.2 (Task.mem_actions_pruned.1 (hx.sound.mem_pruned hmem happ)).2
  obtain ⟨os, hos, hall⟩ := exists_options (f := x.extend cost) ht.actions
  refine ⟨os, hpruned.trans hos, hall.imp ?_⟩
  rintro p o ⟨hp, ⟨hnone, rfl⟩ | ⟨na, hna, a, ha, hnames, rfl⟩⟩
  · have hnot := Rule.not_allows_of_resolve hx.agrees (Option.map_eq_none_iff.1 hnone)
    exact ⟨fun _ => rfl, fun _ hwatch => (hnot hwatch).elim⟩
  · obtain ⟨r, hr, rfl⟩ := Option.map_eq_some_iff.1 hna
    exact h.reply ht hx hp hr (Array.mem_toList_iff.1 ha) hnames

end Replies

end Waymark.Encoding
