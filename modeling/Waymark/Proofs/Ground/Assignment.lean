import Mathlib.Data.List.Forall2
import Mathlib.Tactic
import Waymark.Proofs.Ground.Meaning
import Waymark.Proofs.Ground.Named
import Waymark.Proofs.Planning.SchemaName

/-!
# Which arguments a schema is instantiated with

A literal whose truth does not depend on the state is decided as soon as all parameters that it mentions
have values, and all later values leave it as it is. So the arguments that are found are objects of the
right types, and those of the right types that are not found make such a literal false.

* `Binding.Agrees`: what a binding says that names stand for is right;
* `Setting.Fits`: a state in which what does not depend on the state is as grounding takes it to be, with
  `Setting.holds_of_decide`;
* `Setting.found_or_refused`: arguments of the right types are found, or a literal is false of them;
* `Setting.isStep_of_assignments`, `Setting.mem_assignments_of_isStep`: the arguments that are found are
  those of the steps of a schema, but for such as make a literal false.
-/

namespace Waymark

/-- Each step of a fold that moves along a preorder lies between its start and its end. -/
theorem exists_step_of_foldlM {ε α β : Type} {f : β → α → Except ε β} {R : β → β → Prop}
    (hrefl : ∀ b, R b b) (htrans : ∀ b c d, R b c → R c d → R b d) {xs : List α} {b b' : β}
    (hstep : ∀ x ∈ xs, ∀ b b', f b x = .ok b' → R b b') (h : xs.foldlM f b = .ok b') :
    R b b' ∧ ∀ x ∈ xs, ∃ c c', f c x = .ok c' ∧ R c' b' := by
  induction xs generalizing b with
  | nil =>
    obtain rfl := Except.ok.inj h
    exact ⟨hrefl b, by simp⟩
  | cons x xs ih =>
    rw [List.foldlM_cons] at h
    obtain ⟨c, hc, h⟩ := bind_eq_ok.1 h
    obtain ⟨hx, hxs⟩ := List.forall_mem_cons.1 hstep
    obtain ⟨hR, hsteps⟩ := ih hxs h
    exact ⟨htrans _ _ _ (hx b c hc) hR, List.forall_mem_cons.2 ⟨⟨b, c, hc, hR⟩, hsteps⟩⟩

end Waymark

namespace Waymark.Ground

open Planning

/-! ## Bindings -/

section Bindings

variable {binding : Binding} {σ : Valuation}

/-- What a binding says that names stand for is right. -/
def Binding.Agrees (binding : Binding) (σ : Valuation) : Prop :=
  ∀ name value, binding.resolve name = .ok value → value = σ name

theorem Binding.Agrees.resolveAll (h : binding.Agrees σ) {args values : List String}
    (hargs : binding.resolveAll args = .ok values) : values = args.map σ := by
  rw [← List.forall₂_eq_eq_eq, List.forall₂_map_right_iff]
  refine (mapM_eq_ok.1 hargs).flip.imp fun value name hname => ?_
  exact h name value hname

theorem agrees_nil : Binding.Agrees [] id := by
  intro name value h
  unfold Binding.resolve at h
  split at h
  · cases h
  · exact (Except.ok.inj h).symm

/-- The name starts with a question mark. -/
def IsVariable (name : String) : Prop := name.toList.head? = some '?'

/-- Parameters are different variables. -/
structure ProperParams (params : List TypedName) : Prop where
  nodup : (params.map (·.name)).Nodup
  marked : ∀ p ∈ params, IsVariable p.name

theorem mem_of_lookup {pairs : List (String × String)} {name value : String}
    (h : pairs.lookup name = some value) : (name, value) ∈ pairs := by
  obtain ⟨before, after, rfl, -⟩ := List.lookup_eq_some_iff.1 h
  simp

/-- A list of pairs is looked up at what is in it, unless a key stands twice. -/
theorem lookup_of_mem {pairs : List (String × String)} (hnodup : (pairs.map Prod.fst).Nodup)
    {name value : String} (h : (name, value) ∈ pairs) : pairs.lookup name = some value := by
  obtain ⟨before, after, rfl⟩ := List.append_of_mem h
  refine List.lookup_eq_some_iff.2 ⟨before, after, rfl, fun p hp => ?_⟩
  rw [List.map_append, List.nodup_append] at hnodup
  rw [bne_iff_ne]
  exact (hnodup.2.2 p.1 (List.mem_map_of_mem hp) name (by simp)).symm

variable {s : Schema} {args : List String}

/-- A binding of some parameters to their arguments is right. -/
theorem agrees_of_subset (hs : ProperParams s.params) (hlength : s.params.length = args.length)
    (hbinding : ∀ entry ∈ binding, entry ∈ (s.params.map (·.name)).zip args) :
    binding.Agrees (s.valuation args) := by
  have hkeys : (((s.params.map (·.name)).zip args).map Prod.fst).Nodup := by
    rw [List.map_fst_zip (by rw [List.length_map, hlength])]
    exact hs.nodup
  intro name value h
  unfold Binding.resolve at h
  unfold Schema.valuation
  split at h
  · split at h
    · rename_i found hfound
      rw [lookup_of_mem hkeys (hbinding _ (mem_of_lookup hfound))]
      exact (Except.ok.inj h).symm
    · cases h
  · rename_i hname
    have hnone : ((s.params.map (·.name)).zip args).lookup name = none := by
      rw [Option.eq_none_iff_forall_ne_some]
      intro v hv
      obtain ⟨p, hp, rfl⟩ := List.mem_map.1 (List.of_mem_zip (mem_of_lookup hv)).1
      exact hname (hs.marked p hp)
    rw [hnone]
    exact (Except.ok.inj h).symm

theorem agrees_of (hs : ProperParams s.params) (hlength : s.params.length = args.length) :
    (Binding.of (s.params.map (·.name)) args).Agrees (s.valuation args) :=
  agrees_of_subset hs hlength fun _ hentry => List.mem_reverse.1 hentry

theorem isWord_valuation (hargs : ∀ x ∈ args, IsWord x) {name : String} (h : IsWord name) :
    IsWord (s.valuation args name) := by
  unfold Schema.valuation
  cases hlookup : ((s.params.map (·.name)).zip args).lookup name with
  | none => exact h
  | some value => exact hargs value (List.of_mem_zip (mem_of_lookup hlookup)).2

end Bindings

/-! ## Literals that do not depend on the state -/

namespace Setting

variable {κ : Type} {setting : Setting κ} {S : Set Atom} {σ : Valuation} {binding : Binding} {l : Literal}

/-- A state of atoms that are made of words. Those of static predicates hold exactly if they hold
initially. -/
structure Fits (setting : Setting κ) (S : Set Atom) : Prop where
  proper : ∀ a ∈ S, a.Proper
  statics : ∀ a : Atom, a.Proper → setting.statics.contains a.predicate = true →
    (a ∈ S ↔ setting.initial.contains a.text = true)

theorem holds_of_decide (hS : setting.Fits S) (hbinding : binding.Agrees σ)
    (hσ : ∀ w, IsWord w → IsWord (σ w)) (hl : l.Worded) {b : Bool}
    (h : setting.decide binding l = .ok (some b)) : l.Holds σ S ↔ b = true := by
  cases l with
  | equality positive x y =>
    obtain ⟨x', hx, h⟩ := bind_eq_ok.1 h
    obtain ⟨y', hy, h⟩ := bind_eq_ok.1 h
    obtain rfl := hbinding _ _ hx
    obtain rfl := hbinding _ _ hy
    rw [← Option.some.inj (Except.ok.inj h)]
    exact holds_equality
  | atom positive predicate args =>
    rw [decide] at h
    split at h
    · rename_i hstatic
      obtain ⟨args', hargs, h⟩ := bind_eq_ok.1 h
      obtain rfl := hbinding.resolveAll hargs
      rw [← Option.some.inj (Except.ok.inj h), beq_iff_eq, Bool.eq_iff_iff]
      exact iff_congr (hS.statics _ (Atom.Proper.map hσ hl) hstatic) Iff.rfl
    · cases h

/-- A literal that depends on the state is an atom. -/
theorem isStatic_of_decide (h : setting.decide binding l = .ok none) : setting.isStatic l = false := by
  cases l with
  | equality positive x y =>
    obtain ⟨x', -, h⟩ := bind_eq_ok.1 h
    obtain ⟨y', -, h⟩ := bind_eq_ok.1 h
    cases h
  | atom positive predicate args =>
    rw [decide] at h
    split at h
    · obtain ⟨args', -, h⟩ := bind_eq_ok.1 h
      cases h
    · rename_i hstatic
      exact eq_false_of_ne_true hstatic

/-- The literal is found not to be true. -/
def Rejects (setting : Setting κ) (binding : Binding) (l : Literal) : Prop :=
  ∃ verdict, setting.decide binding l = .ok verdict ∧ verdict ≠ some true

theorem not_holds_of_rejects (hS : setting.Fits S) (hbinding : binding.Agrees σ)
    (hσ : ∀ w, IsWord w → IsWord (σ w)) (hl : l.Worded) (hstatic : setting.isStatic l = true)
    (h : setting.Rejects binding l) : ¬ l.Holds σ S := by
  obtain ⟨verdict, hverdict, hne⟩ := h
  cases verdict with
  | none =>
    rw [isStatic_of_decide hverdict] at hstatic
    cases hstatic
  | some b =>
    rw [holds_of_decide hS hbinding hσ hl hverdict]
    rintro rfl
    exact hne rfl

theorem exists_rejects_of_holdAll {ls : List Literal} (h : setting.holdAll binding ls = .ok false) :
    ∃ l ∈ ls, setting.Rejects binding l := by
  induction ls with
  | nil => cases h
  | cons l ls ih =>
    obtain ⟨verdict, hverdict, h⟩ := bind_eq_ok.1 h
    split at h
    · obtain ⟨l', hl', hrejects⟩ := ih h
      exact ⟨l', List.mem_cons_of_mem _ hl', hrejects⟩
    · rename_i hne
      exact ⟨l, List.mem_cons_self, verdict, hverdict, fun he => hne (beq_iff_eq.2 he)⟩

theorem exists_rejects_of_holdEach {ls : List Literal} (h : setting.holdEach binding ls = .ok false) :
    ∃ l ∈ ls, setting.Rejects binding l := by
  induction ls with
  | nil => cases h
  | cons l ls ih =>
    obtain ⟨verdict, hverdict, h⟩ := bind_eq_ok.1 h
    obtain ⟨rest, hrest, h⟩ := bind_eq_ok.1 h
    cases rest with
    | false =>
      obtain ⟨l', hl', hrejects⟩ := ih hrest
      exact ⟨l', List.mem_cons_of_mem _ hl', hrejects⟩
    | true =>
      refine ⟨l, List.mem_cons_self, verdict, hverdict, ?_⟩
      rintro rfl
      cases h

/-! ## Extending an assignment -/

variable {slots : List Slot} {args : List String} {acc acc' : Nat × List (List String)}

/-- The arguments are ones that the slots admit. -/
def Admits (slots : List Slot) (args : List String) : Prop :=
  List.Forall₂ (fun slot arg => arg ∈ slot.candidates) slots args

/-- What has been found stays found. -/
theorem mem_of_extend (h : setting.extend binding args slots acc = .ok acc') :
    ∀ xs ∈ acc.2, xs ∈ acc'.2 := by
  induction slots generalizing binding args acc acc' with
  | nil =>
    rw [extend] at h
    split at h
    · cases h
    · obtain rfl := Except.ok.inj h
      exact fun xs hxs => List.mem_cons_of_mem _ hxs
  | cons slot slots ih =>
    rw [extend] at h
    refine foldlM_ok (P := fun c => ∀ xs ∈ acc.2, xs ∈ c.2) ?_ (fun _ hxs => hxs) h
    intro object _ c c' hc hstep xs hxs
    obtain ⟨passes, -, hstep⟩ := bind_eq_ok.1 hstep
    cases passes with
    | false =>
      obtain rfl := Except.ok.inj hstep
      exact hc xs hxs
    | true => exact ih hstep xs (hc xs hxs)

/-- What is found is admitted by the slots. -/
theorem admits_of_extend (h : setting.extend binding args slots acc = .ok acc') :
    ∀ xs ∈ acc'.2, xs ∈ acc.2 ∨ ∃ ys, Admits slots ys ∧ xs = args.reverse ++ ys := by
  induction slots generalizing binding args acc acc' with
  | nil =>
    rw [extend] at h
    split at h
    · cases h
    · obtain rfl := Except.ok.inj h
      refine List.forall_mem_cons.2 ⟨.inr ⟨[], .nil, (List.append_nil _).symm⟩, fun xs hxs => .inl hxs⟩
  | cons slot slots ih =>
    rw [extend] at h
    refine foldlM_ok (P := fun c => ∀ xs ∈ c.2, xs ∈ acc.2 ∨
      ∃ ys, Admits (slot :: slots) ys ∧ xs = args.reverse ++ ys) ?_ (fun _ hxs => .inl hxs) h
    intro object hobject c c' hc hstep xs hxs
    obtain ⟨passes, -, hstep⟩ := bind_eq_ok.1 hstep
    cases passes with
    | false =>
      obtain rfl := Except.ok.inj hstep
      exact hc xs hxs
    | true =>
      rcases ih hstep xs hxs with hxs | ⟨ys, hys, rfl⟩
      · exact hc xs hxs
      · exact .inr ⟨object :: ys, .cons hobject hys, by simp⟩

/-- Admitted arguments are found, unless a check refuses them. -/
theorem found_or_refused (h : setting.extend binding args slots acc = .ok acc') {ys : List String}
    (hys : Admits slots ys) :
    args.reverse ++ ys ∈ acc'.2 ∨ ∃ binding' : Binding, ∃ slot ∈ slots, ∃ l ∈ slot.checks,
      setting.Rejects binding' l ∧
        ∀ entry ∈ binding', entry ∈ binding ∨ entry ∈ (slots.map (·.param)).zip ys := by
  induction hys generalizing binding args acc acc' with
  | nil =>
    rw [extend] at h
    split at h
    · cases h
    · obtain rfl := Except.ok.inj h
      rw [List.append_nil]
      exact .inl List.mem_cons_self
  | @cons slot y slots ys hy _ ih =>
    rw [extend] at h
    have hsteps := (exists_step_of_foldlM (R := fun c c' => ∀ xs ∈ c.2, xs ∈ c'.2)
      (fun _ _ hxs => hxs) (fun _ _ _ hc hd xs hxs => hd xs (hc xs hxs)) (by
        intro object _ c c' hstep xs hxs
        obtain ⟨passes, -, hstep⟩ := bind_eq_ok.1 hstep
        cases passes with
        | false =>
          obtain rfl := Except.ok.inj hstep
          exact hxs
        | true => exact mem_of_extend hstep xs hxs) h).2
    obtain ⟨c, c', hstep, hkept⟩ := hsteps y hy
    obtain ⟨passes, hpasses, hstep⟩ := bind_eq_ok.1 hstep
    cases passes with
    | false =>
      obtain ⟨l, hl, hrejects⟩ := exists_rejects_of_holdAll hpasses
      refine .inr ⟨_, slot, List.mem_cons_self, l, hl, hrejects, List.forall_mem_cons.2 ⟨?_, ?_⟩⟩
      · exact .inr List.mem_cons_self
      · exact fun entry hentry => .inl hentry
    | true =>
      rcases ih hstep with hfound | ⟨binding', slot', hslot', l, hl, hrejects, hsub⟩
      · rw [List.reverse_cons, List.append_assoc] at hfound
        exact .inl (hkept _ hfound)
      · refine .inr ⟨binding', slot', List.mem_cons_of_mem _ hslot', l, hl, hrejects, ?_⟩
        intro entry hentry
        rcases hsub entry hentry with hentry | hentry
        · rcases List.mem_cons.1 hentry with rfl | hentry
          · exact .inr List.mem_cons_self
          · exact .inl hentry
        · exact .inr (List.mem_cons_of_mem _ hentry)

/-! ## Assignments -/

variable {closed : List Literal} {found : List (List String)}

theorem admits_of_assignments (h : setting.assignments slots closed = .ok found) :
    ∀ xs ∈ found, Admits slots xs := by
  obtain ⟨passes, -, h⟩ := bind_eq_ok.1 h
  cases passes with
  | false =>
    obtain rfl := Except.ok.inj h
    exact nofun
  | true =>
    obtain ⟨acc, hacc, h⟩ := bind_eq_ok.1 h
    obtain rfl := Except.ok.inj h
    intro xs hxs
    rcases admits_of_extend hacc xs (List.mem_reverse.1 hxs) with hxs | ⟨ys, hys, rfl⟩
    · cases hxs
    · exact hys

theorem mem_or_rejects_of_assignments (h : setting.assignments slots closed = .ok found)
    {ys : List String} (hys : Admits slots ys) :
    ys ∈ found ∨ ∃ (binding : Binding) (l : Literal), (l ∈ closed ∨ ∃ slot ∈ slots, l ∈ slot.checks) ∧
      setting.Rejects binding l ∧ ∀ entry ∈ binding, entry ∈ (slots.map (·.param)).zip ys := by
  obtain ⟨passes, hpasses, h⟩ := bind_eq_ok.1 h
  cases passes with
  | false =>
    obtain ⟨l, hl, hrejects⟩ := exists_rejects_of_holdEach hpasses
    exact .inr ⟨[], l, .inl hl, hrejects, nofun⟩
  | true =>
    obtain ⟨acc, hacc, h⟩ := bind_eq_ok.1 h
    obtain rfl := Except.ok.inj h
    rcases found_or_refused hacc hys with hfound | ⟨binding, slot, hslot, l, hl, hrejects, hsub⟩
    · exact .inl (List.mem_reverse.2 hfound)
    · refine .inr ⟨binding, l, .inr ⟨slot, hslot, hl⟩, hrejects, fun entry hentry => ?_⟩
      exact (hsub entry hentry).resolve_left nofun

end Setting

/-! ## Objects -/

section Objects

variable {names done : List TypedName} {o : TypedName}

theorem mem_foldl_declarations :
    o ∈ names.foldl (fun (done : List TypedName) x =>
        if done.any (·.name = x.name) then done else x :: done) done ↔
      o ∈ done ∨ (∀ x ∈ done, x.name ≠ o.name) ∧ names.find? (·.name = o.name) = some o := by
  induction names generalizing done with
  | nil => simp
  | cons x names ih =>
    rw [List.foldl_cons, ih]
    by_cases hx : x.name = o.name
    · rw [List.find?_cons_of_pos (by simpa using hx)]
      split
      · rename_i hany
        obtain ⟨y, hy, hname⟩ := List.any_eq_true.1 hany
        have hdone : ¬ ∀ z ∈ done, z.name ≠ o.name := fun hall =>
          hall y hy ((of_decide_eq_true hname).trans hx)
        simp [hdone]
      · rename_i hany
        have hdone : ∀ z ∈ done, z.name ≠ o.name := fun z hz hname =>
          hany (List.any_eq_true.2 ⟨z, hz, decide_eq_true (hname.trans hx.symm)⟩)
        have hnone : ¬ ∀ z ∈ x :: done, z.name ≠ o.name := fun hall => hall x List.mem_cons_self hx
        rw [List.mem_cons, or_iff_left fun h => hnone h.1, and_iff_right hdone, Option.some.injEq, or_comm]
        exact or_congr_right eq_comm
    · rw [List.find?_cons_of_neg (by simpa using hx)]
      split
      · exact Iff.rfl
      · have hne : o ≠ x := fun he => hx (congrArg TypedName.name he).symm
        simp [hx, hne]

/-- The first declarations are those that are found first. -/
theorem mem_firstDeclarations : o ∈ firstDeclarations names ↔ names.find? (·.name = o.name) = some o := by
  rw [firstDeclarations, List.mem_reverse, mem_foldl_declarations]
  simp

/-- The objects of a task that can stand where a type is asked for. -/
theorem isOfType_iff {domain : Domain} {problem : Problem} {object target : String} :
    IsOfType domain problem object target ↔
      ∃ o ∈ objectsOf domain problem, isSubtype domain.types o.type target = true ∧ o.name = object := by
  constructor
  · rintro ⟨o, ho, htype⟩
    have hname : o.name = object := by simpa using List.find?_some ho
    subst hname
    exact ⟨o, mem_firstDeclarations.2 ho, htype, rfl⟩
  · rintro ⟨o, ho, htype, rfl⟩
    exact ⟨o, mem_firstDeclarations.1 ho, htype⟩

end Objects

/-! ## The arguments of a schema -/

namespace Setting

variable {κ : Type} {setting : Setting κ} {types objects : List TypedName} {a : LiftedAction κ}
  {args : List String}

theorem map_param_slots : (setting.slots types objects a).map (·.param) = a.params.map (·.name) := by
  rw [slots, List.map_map]
  conv_rhs => rw [← List.zipIdx_map_fst 0 a.params, List.map_map]
  rfl

theorem admits_slots : Admits (setting.slots types objects a) args ↔
    List.Forall₂ (fun (p : TypedName) arg =>
      ∃ o ∈ objects, isSubtype types o.type p.type = true ∧ o.name = arg) a.params args := by
  conv_rhs => rw [← List.zipIdx_map_fst 0 a.params, List.forall₂_map_left_iff]
  rw [Admits, slots, List.forall₂_map_left_iff]
  simp only [List.mem_map, List.mem_filter, and_assoc]

/-- A literal that is decided is a static one of the condition. -/
theorem mem_condition_of_mem_checks {l : Literal}
    (h : l ∈ setting.closedChecks a ∨ ∃ slot ∈ setting.slots types objects a, l ∈ slot.checks) :
    l ∈ a.condition ∧ setting.isStatic l = true := by
  rcases h with h | ⟨slot, hslot, h⟩
  · obtain ⟨hl, h⟩ := List.mem_filter.1 h
    exact ⟨hl, (Bool.and_eq_true_iff.1 h).1⟩
  · obtain ⟨p, -, rfl⟩ := List.mem_map.1 hslot
    obtain ⟨hl, h⟩ := List.mem_filter.1 h
    exact ⟨hl, (Bool.and_eq_true_iff.1 h).1⟩

variable {domain : Domain} {problem : Problem} {s : Schema} {found : List (List String)}
  (hs : s ∈ domain.schemas) (hparams : a.params = s.params)
  (hfound : setting.assignments (setting.slots domain.types (objectsOf domain problem) a)
    (setting.closedChecks a) = .ok found)
include hparams hfound

include hs in
/-- A schema is instantiated with objects of the types of its parameters. -/
theorem isStep_of_assignments (h : args ∈ found) : IsStep domain problem (s, args) := by
  have hadmits := admits_slots.1 (admits_of_assignments hfound args h)
  rw [hparams] at hadmits
  exact ⟨hs, hadmits.imp fun _ _ h => isOfType_iff.2 h⟩

/-- A schema is instantiated with all objects of the types of its parameters that make no static literal
of its condition false. -/
theorem mem_assignments_of_isStep (hproper : ProperParams s.params) {S : Set Atom} (hS : setting.Fits S)
    (hwords : ∀ l ∈ a.condition, l.Worded) (hargs : ∀ x ∈ args, IsWord x)
    (hstep : IsStep domain problem (s, args)) (hholds : ∀ l ∈ a.condition, l.Holds (s.valuation args) S) :
    args ∈ found := by
  have hadmits : Admits (setting.slots domain.types (objectsOf domain problem) a) args := by
    rw [admits_slots, hparams]
    exact hstep.2.imp fun _ _ h => isOfType_iff.1 h
  rcases mem_or_rejects_of_assignments hfound hadmits with h | ⟨binding, l, hl, hrejects, hsub⟩
  · exact h
  · obtain ⟨hmem, hstatic⟩ := mem_condition_of_mem_checks hl
    rw [map_param_slots, hparams] at hsub
    have hagrees := agrees_of_subset hproper hstep.2.length_eq hsub
    exact absurd (hholds l hmem) (not_holds_of_rejects hS hagrees (fun _ hw => isWord_valuation hargs hw)
      (hwords l hmem) hstatic hrejects)

end Setting

end Waymark.Ground
