import Mathlib.Tactic
import Waymark.Plan.Frontier

/-!
# The frontier is a queue

The heap of a search holds a list in the order of costs. What is added goes behind all that costs as
much or less, and what is taken is the first of the list. So the shape of the heap and the numbers of
arrival matter to nobody.

* `enqueue`: adds an element to a list in the order of costs;
* `Frontier.Holds`: a heap holds a list;
* `Frontier.Holds.push`, `Frontier.Holds.pop_some`, `Frontier.Holds.pop_none`: adding and taking.
-/

namespace Waymark.Plan

open Number

variable {κ α β : Type} [Scale κ]

/-- Adds an element behind all that do not come after it. -/
def enqueue (key : α → κ) (x : α) : List α → List α
  | [] => [x]
  | y :: ys => if Scale.order (key y) (key x) = .gt then x :: y :: ys else y :: enqueue key x ys

theorem enqueue_perm (key : α → κ) (x : α) (ys : List α) : (enqueue key x ys).Perm (x :: ys) := by
  induction ys with
  | nil => rfl
  | cons y ys ih =>
    unfold enqueue
    split
    · rfl
    · exact (ih.cons y).trans (.swap x y ys)

theorem map_enqueue {key : α → κ} {key' : β → κ} {f : α → β} (hf : ∀ x, key' (f x) = key x) (x : α)
    (ys : List α) : (enqueue key x ys).map f = enqueue key' (f x) (ys.map f) := by
  induction ys with
  | nil => rfl
  | cons y ys ih =>
    rw [enqueue, List.map_cons, enqueue, hf, hf]
    split
    · rfl
    · rw [List.map_cons, ih]

/-! ## Entries -/

namespace Entry

variable {x y z : Entry κ α}

theorem precedes_iff :
    x.precedes y = true ↔ Scale.order x.cost y.cost = .lt ∨
      Scale.order x.cost y.cost = .eq ∧ x.arrival ≤ y.arrival := by
  unfold precedes
  split <;> simp [*]

/-- The cost and the item of an entry. -/
def pair {κ α : Type} (e : Entry κ α) : κ × α := (e.cost, e.item)

/-- The first entry comes before the second. -/
def Before (x y : Entry κ α) : Prop :=
  Scale.order x.cost y.cost = .lt ∨ Scale.order x.cost y.cost = .eq ∧ x.arrival < y.arrival

variable [Std.TransCmp (Scale.order : κ → κ → Ordering)]

theorem precedes_total (h : ¬ x.precedes y = true) : y.precedes x = true := by
  rw [precedes_iff] at h ⊢
  rw [not_or, not_and] at h
  cases ho : Scale.order x.cost y.cost with
  | lt => exact (h.1 ho).elim
  | eq => exact .inr ⟨Std.OrientedCmp.eq_symm ho, by have := h.2 ho; omega⟩
  | gt => exact .inl (Std.OrientedCmp.lt_of_gt ho)

theorem precedes_trans (hxy : x.precedes y = true) (hyz : y.precedes z = true) :
    x.precedes z = true := by
  rw [precedes_iff] at hxy hyz ⊢
  rcases hxy with hxy | ⟨hxy, ha⟩ <;> rcases hyz with hyz | ⟨hyz, hb⟩
  · exact .inl (Std.TransCmp.lt_trans hxy hyz)
  · exact .inl (Std.TransCmp.lt_of_lt_of_eq hxy hyz)
  · exact .inl (Std.TransCmp.lt_of_eq_of_lt hxy hyz)
  · exact .inr ⟨Std.TransCmp.eq_trans hxy hyz, ha.trans hb⟩

theorem Before.trans_order {c : κ} (hxy : Scale.order c x.cost = .lt) (h : x.Before y) :
    Scale.order c y.cost = .lt := by
  rcases h with h | ⟨h, -⟩
  · exact Std.TransCmp.lt_trans hxy h
  · exact Std.TransCmp.lt_of_lt_of_eq hxy h

theorem Before.not_precedes (h : x.Before y) : ¬ y.precedes x = true := by
  rw [precedes_iff]
  rintro (hyx | ⟨hyx, ha⟩)
  · rcases h with h | ⟨h, -⟩
    · exact absurd (Std.OrientedCmp.gt_of_lt h) (by rw [hyx]; decide)
    · exact absurd (Std.OrientedCmp.eq_symm h) (by rw [hyx]; decide)
  · rcases h with h | ⟨-, hb⟩
    · exact absurd (Std.OrientedCmp.gt_of_lt h) (by rw [hyx]; decide)
    · omega

/-- An entry that arrives last keeps its place behind what costs as much or less. -/
theorem pairwise_enqueue {es : List (Entry κ α)} (hsorted : es.Pairwise Before)
    (harrivals : ∀ e ∈ es, e.arrival < x.arrival) : (enqueue Entry.cost x es).Pairwise Before := by
  induction es with
  | nil => exact List.pairwise_singleton _ _
  | cons y ys ih =>
    obtain ⟨hy, hys⟩ := List.pairwise_cons.1 hsorted
    obtain ⟨ha, has⟩ := List.forall_mem_cons.1 harrivals
    unfold enqueue
    split
    · rename_i hgt
      have hlt : Scale.order x.cost y.cost = .lt := Std.OrientedCmp.lt_of_gt hgt
      refine List.pairwise_cons.2 ⟨fun z hz => ?_, hsorted⟩
      rcases List.mem_cons.1 hz with rfl | hz
      · exact .inl hlt
      · exact .inl ((hy z hz).trans_order hlt)
    · rename_i hne
      refine List.pairwise_cons.2 ⟨fun z hz => ?_, ih hys has⟩
      rcases List.mem_cons.1 ((enqueue_perm ..).mem_iff.1 hz) with rfl | hz
      · cases ho : Scale.order y.cost z.cost with
        | lt => exact .inl ho
        | eq => exact .inr ⟨ho, ha⟩
        | gt => exact (hne ho).elim
      · exact hy z hz

end Entry

/-! ## Heaps -/

namespace Frontier

/-- The entries of a heap. -/
def entries : Frontier κ α → List (Entry κ α)
  | .empty => []
  | .node _ e left right => e :: (left.entries ++ right.entries)

/-- Every entry precedes those below it. -/
inductive Ordered : Frontier κ α → Prop
  | empty : Ordered .empty
  | node {r : Nat} {e : Entry κ α} {left right : Frontier κ α}
      (first : ∀ x ∈ left.entries ++ right.entries, e.precedes x = true) (hl : left.Ordered)
      (hr : right.Ordered) : Ordered (.node r e left right)

omit [Scale κ] in
theorem entries_join (e : Entry κ α) (x y : Frontier κ α) :
    (join e x y).entries.Perm (e :: (x.entries ++ y.entries)) := by
  unfold join
  split
  · exact List.perm_append_comm.cons e
  · rfl

theorem Ordered.join {e : Entry κ α} {x y : Frontier κ α} (hx : x.Ordered) (hy : y.Ordered)
    (h : ∀ z ∈ x.entries ++ y.entries, e.precedes z = true) : (join e x y).Ordered := by
  unfold Frontier.join
  split
  · exact .node (fun z hz => h z (List.perm_append_comm.mem_iff.1 hz)) hy hx
  · exact .node h hx hy

theorem entries_merge (x y : Frontier κ α) : (merge x y).entries.Perm (x.entries ++ y.entries) := by
  fun_induction merge x y with
  | case1 y => rfl
  | case2 x => rw [entries, List.append_nil]
  | case3 r e left right r' e' left' right' h ih =>
    refine (entries_join e _ _).trans (List.Perm.cons e ?_)
    exact (ih.append_left _).trans (.of_eq (List.append_assoc ..).symm)
  | case4 r e left right r' e' left' right' h ih =>
    refine (entries_join e' _ _).trans ?_
    have hinner : (left'.entries ++ (merge (.node r e left right) right').entries).Perm
        ((node r e left right).entries ++ (left'.entries ++ right'.entries)) :=
      (ih.append_left _).trans (List.perm_append_comm_assoc ..)
    exact (hinner.cons e').trans List.perm_middle.symm

theorem entries_push (f : Frontier κ α) (e : Entry κ α) : (f.push e).entries.Perm (e :: f.entries) :=
  (entries_merge ..).trans (List.perm_append_singleton e f.entries)

/-- What is taken from a heap leaves the others. -/
theorem entries_pop {f f' : Frontier κ α} {e : Entry κ α} (h : f.pop? = some (e, f')) :
    f.entries.Perm (e :: f'.entries) := by
  cases f with
  | empty => cases h
  | node r e left right =>
    obtain ⟨rfl, rfl⟩ := Prod.mk.inj (Option.some.inj h)
    exact (entries_merge left right).symm.cons e

variable [Std.TransCmp (Scale.order : κ → κ → Ordering)]

/-- The root precedes all entries of a heap that it precedes the root of. -/
theorem Ordered.precedes {c e : Entry κ α} {r : Nat} {left right : Frontier κ α}
    (h : (Frontier.node r e left right).Ordered) (hc : c.precedes e = true) :
    ∀ x ∈ (Frontier.node r e left right).entries, c.precedes x = true := by
  cases h with
  | node first =>
    intro x hx
    rcases List.mem_cons.1 hx with rfl | hx
    · exact hc
    · exact Entry.precedes_trans hc (first x hx)

theorem Ordered.merge {x y : Frontier κ α} (hx : x.Ordered) (hy : y.Ordered) :
    (merge x y).Ordered := by
  fun_induction Frontier.merge x y with
  | case1 y => exact hy
  | case2 x => exact hx
  | case3 r e left right r' e' left' right' h ih =>
    cases hx with
    | node first hl hr =>
      refine hl.join (ih hr hy) fun z hz => ?_
      rcases List.mem_append.1 hz with hz | hz
      · exact first z (List.mem_append_left _ hz)
      · rcases List.mem_append.1 ((entries_merge ..).mem_iff.1 hz) with hz | hz
        · exact first z (List.mem_append_right _ hz)
        · exact hy.precedes h z hz
  | case4 r e left right r' e' left' right' h ih =>
    have hyroot := hx.precedes (Entry.precedes_total h)
    cases hy with
    | node first hl hr =>
      refine hl.join (ih hx hr) fun z hz => ?_
      rcases List.mem_append.1 hz with hz | hz
      · exact first z (List.mem_append_left _ hz)
      · rcases List.mem_append.1 ((entries_merge ..).mem_iff.1 hz) with hz | hz
        · exact hyroot z hz
        · exact first z (List.mem_append_right _ hz)

/-! ## Queues -/

/-- The heap holds the list: its entries, sorted, have the costs and the items of the list. All arrivals
so far are below the given number. -/
structure Holds (f : Frontier κ α) (arrivals : Nat) (q : List (κ × α)) : Prop where
  ordered : f.Ordered
  sorted : ∃ es, f.entries.Perm es ∧ es.Pairwise Entry.Before ∧ (∀ e ∈ es, e.arrival < arrivals) ∧
    es.map Entry.pair = q

variable {f f' : Frontier κ α} {arrivals : Nat} {q : List (κ × α)}

omit [Std.TransCmp (Scale.order : κ → κ → Ordering)] in
theorem holds_empty : Holds (.empty : Frontier κ α) 0 [] :=
  ⟨.empty, [], .refl _, .nil, by simp, rfl⟩

omit [Std.TransCmp (Scale.order : κ → κ → Ordering)] in
theorem Holds.pop_none (h : Holds f arrivals q) (hpop : f.pop? = none) : q = [] := by
  cases f with
  | node => cases hpop
  | empty =>
    obtain ⟨es, hperm, -, -, rfl⟩ := h.sorted
    rw [List.nil_perm.1 hperm, List.map_nil]

/-- What is taken from the heap is the first of the list. -/
theorem Holds.pop_some (h : Holds f arrivals q) {e : Entry κ α} (hpop : f.pop? = some (e, f')) :
    ∃ rest, q = (e.cost, e.item) :: rest ∧ Holds f' arrivals rest := by
  cases f with
  | empty => cases hpop
  | node r e left right =>
    obtain ⟨rfl, rfl⟩ := Prod.mk.inj (Option.some.inj hpop)
    obtain ⟨es, hperm, hsorted, harrivals, rfl⟩ := h.sorted
    obtain ⟨first, hl, hr⟩ : (∀ x ∈ left.entries ++ right.entries, e.precedes x = true) ∧
        left.Ordered ∧ right.Ordered := by
      cases h.ordered with
      | node first hl hr => exact ⟨first, hl, hr⟩
    cases es with
    | nil => cases List.perm_nil.1 hperm
    | cons x es =>
      obtain ⟨hx, hes⟩ := List.pairwise_cons.1 hsorted
      -- The root precedes the first of the list, which comes before all others.
      have heq : e = x := by
        rcases List.mem_cons.1 (hperm.mem_iff.1 List.mem_cons_self) with he | he
        · exact he
        · rcases List.mem_cons.1 (hperm.mem_iff.2 List.mem_cons_self) with hxe | hxe
          · exact hxe.symm
          · exact ((hx e he).not_precedes (first x hxe)).elim
      subst heq
      exact ⟨es.map Entry.pair, rfl, hl.merge hr, es, (entries_merge left right).trans hperm.cons_inv,
        hes, fun y hy => harrivals y (List.mem_cons_of_mem _ hy), rfl⟩

/-- What is added goes behind all that costs as much or less. -/
theorem Holds.push (h : Holds f arrivals q) (cost : κ) (item : α) :
    Holds (f.push ⟨cost, arrivals, item⟩) (arrivals + 1) (enqueue Prod.fst (cost, item) q) := by
  obtain ⟨es, hperm, hsorted, harrivals, rfl⟩ := h.sorted
  have hone : (Frontier.node 1 ⟨cost, arrivals, item⟩ .empty .empty : Frontier κ α).Ordered :=
    .node (by simp [entries]) .empty .empty
  have hkey : ∀ e : Entry κ α, Prod.fst e.pair = Entry.cost e := fun _ => rfl
  refine ⟨h.ordered.merge hone, enqueue Entry.cost ⟨cost, arrivals, item⟩ es, ?perm, ?pairwise,
    ?arrivals, map_enqueue hkey _ _⟩
  case perm =>
    exact ((entries_push f _).trans (hperm.cons _)).trans (enqueue_perm ..).symm
  case pairwise => exact Entry.pairwise_enqueue hsorted harrivals
  case arrivals =>
    intro e he
    rcases List.mem_cons.1 ((enqueue_perm ..).mem_iff.1 he) with rfl | he
    · exact Nat.lt_succ_self _
    · exact Nat.lt_succ_of_lt (harrivals e he)

end Frontier

end Waymark.Plan
