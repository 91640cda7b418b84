import Mathlib.Tactic
import Waymark.Proofs.Landmark.StackSearch

/-!
# Topological orders

The depth-first search of any graph is done with a landmark only after all that follow it, except for those that lead
back to it. So where its order puts a landmark before one that it follows, the later of the two is on a cycle, and a
graph without cycles is put in order.

* `Precedes`, `OnCycle`: the orderings as a relation, and its cycles;
* `failsOnly_visit`: what the search fails of;
* `Traced`, `traced_of_visit`, `traced_of_visitAll`: what the search keeps;
* `onCycle_of_firstMisplaced?`: what the test of the order reports;
* `Graph.sorts_iff`: the search with a stack;
* `Graph.topologicalOrder_exact`: when there is a topological order, what it is, and what is reported otherwise.
-/

namespace Waymark.Landmark

open Relation

variable {orders : List Order} {id : Nat} {ids : List Nat} {w w' : Walk}

/-! ## Cycles -/

/-- An ordering puts the second landmark directly after the first. -/
def Precedes (orders : List Order) (x y : Nat) : Prop := ∃ o ∈ orders, o.first = x ∧ o.second = y

/-- The orderings lead from the landmark back to it. -/
def OnCycle (orders : List Order) (id : Nat) : Prop := TransGen (Precedes orders) id id

theorem precedes_of_mem_following {next : Nat} (h : next ∈ following orders id) : Precedes orders id next :=
  mem_following.1 h

theorem Graph.Ranked.rank_lt {g : Graph} {rank : Nat → Nat} {bound : Nat} (h : g.Ranked rank bound) {x y : Nat}
    (hpath : TransGen (Precedes g.orders) x y) : rank x < rank y := by
  induction hpath with
  | single hedge =>
    obtain ⟨o, ho, rfl, rfl⟩ := hedge
    exact (h.ascending o ho).1
  | tail _ hedge ih =>
    obtain ⟨o, ho, rfl, rfl⟩ := hedge
    exact ih.trans (h.ascending o ho).1

/-- A ranked graph has no cycles. -/
theorem Graph.Ranked.not_onCycle {g : Graph} {rank : Nat → Nat} {bound : Nat} (h : g.Ranked rank bound) (id : Nat) :
    ¬ OnCycle g.orders id := fun hcycle => lt_irrefl _ (h.rank_lt hcycle)

/-! ## Lists that a search leaves -/

/-- Every landmark of the list stands there once, and each that follows it stands behind it or leads back to it. -/
inductive Traced (orders : List Order) : List Nat → Prop
  | nil : Traced orders []
  | cons {id : Nat} {rest : List Nat}
      (following : ∀ next ∈ following orders id, next ∈ rest ∨ ReflTransGen (Precedes orders) next id)
      (new : id ∉ rest) (traced : Traced orders rest) : Traced orders (id :: rest)

theorem Traced.nodup (h : Traced orders ids) : ids.Nodup := by
  induction h with
  | nil => exact List.nodup_nil
  | cons _ hnew _ ih => exact List.nodup_cons.2 ⟨hnew, ih⟩

theorem Traced.of_append {before : List Nat} (h : Traced orders (before ++ ids)) : Traced orders ids := by
  induction before with
  | nil => exact h
  | cons x before ih =>
    cases h with
    | cons _ _ htraced => exact ih htraced

/-- Without cycles, all that follow a landmark stand behind it. -/
theorem Traced.sorted (h : Traced orders ids) (hacyclic : ∀ x, ¬ OnCycle orders x) : Sorted orders ids := by
  induction h with
  | nil => exact .nil
  | @cons id rest hfollowing hnew _ ih =>
    refine .cons (fun next hnext => ?_) hnew ih
    refine (hfollowing next hnext).resolve_right fun hback => hacyclic id ?_
    exact TransGen.head' (precedes_of_mem_following hnext) hback

/-- In a sorted list, a landmark stands before those that follow it. -/
theorem Sorted.sublist (h : Sorted orders ids) {o : Order} (ho : o ∈ orders) (hid : o.first ∈ ids) :
    [o.first, o.second].Sublist ids := by
  induction h with
  | nil => cases hid
  | @cons id rest hfollowing _ _ ih =>
    rcases List.mem_cons.1 hid with rfl | hid
    · exact (List.singleton_sublist.2 (hfollowing _ (mem_following.2 ⟨o, ho, rfl, rfl⟩))).cons_cons _
    · exact (ih hid).cons _

/-! ## The search -/

/-- A search fails only of landmarks that follow themselves. -/
theorem failsOnly_visit (depth : Nat) (w : Walk) (id : Nat) :
    FailsOnly (fun x => x ∈ following orders x) (visit orders depth w id) := by
  induction depth generalizing w id with
  | zero => exact failsOnly_ok w
  | succ depth ih =>
    unfold visit
    split
    · exact failsOnly_ok w
    dsimp only
    split
    · rename_i hself
      exact failsOnly_error.2 (List.contains_iff_mem.1 hself)
    · rw [failsOnly_bind]
      exact ⟨.foldlM fun next _ w => ih w next, fun _ _ => failsOnly_pure _⟩

/-- What is done has been met, and is traced. -/
structure Walk.IsTraced (orders : List Order) (w : Walk) : Prop where
  traced : Traced orders w.done
  met : ∀ x ∈ w.done, x ∈ w.met

/-- All that a walk has met but is not done with leads to the landmark. -/
def Walk.Approaches (orders : List Order) (w : Walk) (id : Nat) : Prop :=
  ∀ x ∈ w.met, x ∉ w.done → ReflTransGen (Precedes orders) x id

theorem Walk.Approaches.extend (h : w.Approaches orders id) (hextends : w.Extends w') : w'.Approaches orders id := by
  intro x hx hnot
  have hmet : x ∈ w.met := (hextends.finished x hx).resolve_right hnot
  exact h x hmet fun hdone => hnot (hextends.done x hdone)

/-- A walk that meets a landmark which it approaches, approaches those that follow it. -/
theorem Walk.Approaches.meet (h : w.Approaches orders id) {next : Nat} (hnext : next ∈ following orders id) :
    Walk.Approaches orders { w with met := id :: w.met } next := by
  intro x hx hnot
  rcases List.mem_cons.1 hx with rfl | hx
  · exact .single (precedes_of_mem_following hnext)
  · exact (h x hx hnot).tail (precedes_of_mem_following hnext)

section Search

variable (hknown : ∀ x ∈ ids, ∀ next ∈ following orders x, next ∈ ids)
include hknown

/-- What a search of some landmarks in turn keeps, if a visit does so. -/
theorem traced_of_visitAll {depth : Nat} {chosen : List Nat} (hchosen : ∀ x ∈ chosen, x ∈ ids)
    (hvisit : ∀ id ∈ ids, ∀ w w' : Walk, w.Within ids → ids.length < depth + w.met.length → w.IsTraced orders →
      w.Approaches orders id → visit orders depth w id = .ok w' → w'.IsTraced orders)
    (hw : w.Within ids) (hdepth : ids.length < depth + w.met.length) (htraced : w.IsTraced orders)
    (happroaches : ∀ x ∈ chosen, w.Approaches orders x) (h : chosen.foldlM (visit orders depth) w = .ok w') :
    w'.IsTraced orders := by
  induction chosen generalizing w with
  | nil =>
    obtain rfl := Except.ok.inj h
    exact htraced
  | cons id rest ih =>
    obtain ⟨hid, hrest⟩ := List.forall_mem_cons.1 hchosen
    obtain ⟨hfirst, hothers⟩ := List.forall_mem_cons.1 happroaches
    rw [List.foldlM_cons] at h
    obtain ⟨next, hnext, h⟩ := bind_eq_ok.1 h
    obtain ⟨hleads, -⟩ := leads_of_visit hknown depth id hid w next hw hdepth hnext
    have hlength := hleads.length_le hw
    exact ih hrest hleads.within (by omega) (hvisit id hid w next hw hdepth htraced hfirst hnext)
      (fun x hx => (hothers x hx).extend hleads.further) h

/-- **What a visit keeps.** When it is done with a landmark, it is done with all that follow it, or is still visiting
some of them: these lead to the landmark. -/
theorem traced_of_visit (depth : Nat) : ∀ id ∈ ids, ∀ w w' : Walk, w.Within ids →
    ids.length < depth + w.met.length → w.IsTraced orders → w.Approaches orders id →
    visit orders depth w id = .ok w' → w'.IsTraced orders := by
  induction depth with
  | zero =>
    intro id _ w w' hw hdepth _ _ _
    have hlength := hw.nodup.length_le_of_subset hw.subset
    omega
  | succ depth ih =>
    intro id hid w w' hw hdepth htraced happroaches h
    rcases cases_of_visit h with ⟨-, rfl⟩ | ⟨hnew, -, w₁, hw₁, rfl⟩
    · exact htraced
    have hstart : Walk.Within ids { w with met := id :: w.met } := hw.meet hid hnew
    have hdeeper : ids.length < depth + (id :: w.met).length := by
      rw [List.length_cons]
      omega
    obtain ⟨hleads, hmet⟩ := leads_of_visitAll (hknown id hid) (leads_of_visit hknown depth) hstart hdeeper hw₁
    have hinner : w₁.IsTraced orders :=
      traced_of_visitAll hknown (hknown id hid) ih hstart hdeeper
        ⟨htraced.traced, fun x hx => List.mem_cons_of_mem _ (htraced.met x hx)⟩ (fun next => happroaches.meet) hw₁
    have hopen : Walk.Approaches orders { w with met := id :: w.met } id := by
      intro x hx hnot
      rcases List.mem_cons.1 hx with rfl | hx
      · exact .refl
      · exact happroaches x hx hnot
    refine ⟨.cons (fun next hnext => ?_) ?_ hinner.traced, ?_⟩
    · by_cases hdone : next ∈ w₁.done
      · exact .inl hdone
      · exact .inr (hopen.extend hleads.further next (hmet next hnext) hdone)
    · intro hdone
      rcases hleads.further.fresh id hdone with hdone | hfresh
      · exact hnew (htraced.met id hdone)
      · exact hfresh List.mem_cons_self
    · exact List.forall_mem_cons.2 ⟨hleads.met id List.mem_cons_self, hinner.met⟩

end Search

/-! ## The test of the order -/

theorem exists_of_firstMisplaced? {before : List Nat} {x : Nat} (h : firstMisplaced? orders before ids = some x) :
    ∃ xs id ys, ids = xs ++ id :: ys ∧ Precedes orders x id ∧ x ∉ xs ∧ x ≠ id ∧ x ∉ before := by
  induction ids generalizing before with
  | nil => cases h
  | cons id rest ih =>
    unfold firstMisplaced? at h
    dsimp only at h
    split at h
    · rename_i o ho
      obtain rfl := Option.some.inj h
      have hmisplaced := List.find?_some ho
      simp only [Bool.and_eq_true, decide_eq_true_eq, Bool.not_eq_true', List.contains_eq_mem,
        decide_eq_false_iff_not, List.mem_cons, not_or] at hmisplaced
      obtain ⟨hsecond, hne, hbefore⟩ := hmisplaced
      exact ⟨[], id, rest, rfl, ⟨o, List.mem_of_find?_eq_some ho, rfl, hsecond⟩, List.not_mem_nil, hne, hbefore⟩
    · obtain ⟨xs, y, ys, rfl, hprecedes, hxs, hne, hnot⟩ := ih h
      obtain ⟨hid, hbefore⟩ := not_or.1 (mt List.mem_cons.2 hnot)
      exact ⟨id :: xs, y, ys, rfl, hprecedes, mt List.mem_cons.1 (not_or.2 ⟨hid, hxs⟩), hne, hbefore⟩

/-- **A landmark that is missing before another is on a cycle**, in the order that a search leaves. -/
theorem onCycle_of_firstMisplaced? (htraced : Traced orders ids) {x : Nat} (hx : x ∈ ids)
    (h : firstMisplaced? orders [] ids = some x) : OnCycle orders x := by
  obtain ⟨xs, id, ys, rfl, hprecedes, hxs, hne, -⟩ := exists_of_firstMisplaced? h
  have hys : x ∈ ys := by simpa [hxs, hne] using hx
  -- The landmark stands behind one that follows it, and so leads back to it.
  obtain ⟨ys₁, ys₂, rfl⟩ := List.append_of_mem hys
  have hid : id ∉ ys₁ ++ x :: ys₂ := (List.nodup_cons.1 htraced.of_append.nodup).1
  have hsplit : Traced orders ((xs ++ id :: ys₁) ++ x :: ys₂) := by rwa [List.append_assoc, List.cons_append]
  cases hsplit.of_append with
  | cons hfollowing _ _ =>
    rcases hfollowing id (mem_following.2 hprecedes) with hmem | hback
    · exact absurd (List.mem_append_right _ (List.mem_cons_of_mem _ hmem)) hid
    · exact TransGen.head' hprecedes hback

/-! ## Graphs -/

namespace Graph

variable {g : Graph}

/-- All orderings are between landmarks of the graph. -/
def IsClosed (g : Graph) : Prop := ∀ o ∈ g.orders, o.first ∈ g.ids ∧ o.second ∈ g.ids

theorem IsClosed.following (h : g.IsClosed) : ∀ x ∈ g.ids, ∀ next ∈ following g.orders x, next ∈ g.ids := by
  intro x _ next hnext
  obtain ⟨o, ho, -, rfl⟩ := mem_following.1 hnext
  exact (h o ho).2

/-- The order in which the search of a graph is done with its landmarks. -/
theorem finishOrder_eq_ok (hclosed : g.IsClosed) {order : List Nat} (hnodup : g.ids.Nodup)
    (h : g.finishOrder = .ok order) : order.Perm g.ids ∧ Traced g.orders order := by
  obtain ⟨w, hw, rfl⟩ := map_eq_ok.1 h
  have hknown := hclosed.following
  have hstart : Walk.Within g.ids {} := ⟨List.nodup_nil, nofun⟩
  have hdepth : g.ids.length < g.ids.length + 1 + ([] : List Nat).length := by simp
  obtain ⟨hleads, hmet⟩ := leads_of_visitAll (fun _ hx => hx) (leads_of_visit hknown _) hstart hdepth hw
  have htraced := traced_of_visitAll hknown (fun _ hx => hx) (traced_of_visit hknown _) hstart hdepth ⟨.nil, nofun⟩
    (fun _ _ => nofun) hw
  refine ⟨(List.perm_ext_iff_of_nodup htraced.traced.nodup hnodup).2 fun x => ⟨fun hx => ?_, fun hx => ?_⟩,
    htraced.traced⟩
  · exact hleads.within.subset x (htraced.met x hx)
  · exact (hleads.further.finished x (hmet x hx)).resolve_left nofun

/-- What the search leaves, unless something is misplaced. -/
def tested (g : Graph) (order : List Nat) : Except Nat (List Nat) :=
  match firstMisplaced? g.orders [] order with
  | some id => .error id
  | none => .ok order

/-- The topological order of a graph with distinct numbers and known landmarks. -/
theorem topologicalOrder_eq (hnodup : g.ids.Nodup) (hclosed : g.IsClosed) :
    g.topologicalOrder = (g.finishOrder >>= g.tested).mapError .cycle := by
  have hunknown : (g.orders.find? fun o => !(g.ids.contains o.first && g.ids.contains o.second)) = none := by
    rw [List.find?_eq_none]
    intro o ho
    simpa using hclosed o ho
  unfold topologicalOrder
  rw [firstRepeated?_eq_none hnodup (fun _ _ => List.not_mem_nil)]
  dsimp only
  rw [hunknown]
  dsimp only
  cases hfinish : g.finishOrder with
  | error id => rfl
  | ok order =>
    have hbind : Except.ok order >>= g.tested = g.tested order := rfl
    rw [hbind, tested]
    dsimp only
    cases firstMisplaced? g.orders [] order with
    | none => rfl
    | some id => rfl

/-- A graph with distinct numbers and known landmarks is put in the order of the search, or has a cycle that is
reported by a landmark on it. -/
theorem topologicalOrder_cases (hnodup : g.ids.Nodup) (hclosed : g.IsClosed) :
    (∃ order, g.topologicalOrder = .ok order ∧ order.Perm g.ids ∧ Traced g.orders order) ∨
      ∃ id, g.topologicalOrder = .error (.cycle id) ∧ OnCycle g.orders id := by
  rw [topologicalOrder_eq hnodup hclosed]
  cases hfinish : g.finishOrder with
  | error id =>
    have hloop : FailsOnly (fun x => x ∈ following g.orders x) g.finishOrder := by
      unfold finishOrder
      rw [failsOnly_map]
      exact .foldlM fun next _ w => failsOnly_visit _ w next
    exact .inr ⟨id, rfl, .single (precedes_of_mem_following (hloop id hfinish))⟩
  | ok order =>
    obtain ⟨hperm, htraced⟩ := finishOrder_eq_ok hclosed hnodup hfinish
    have hbind : Except.ok order >>= g.tested = g.tested order := rfl
    rw [hbind, tested]
    cases hmisplaced : firstMisplaced? g.orders [] order with
    | none => exact .inl ⟨order, rfl, hperm, htraced⟩
    | some id =>
      obtain ⟨-, -, -, -, ⟨o, ho, rfl, -⟩, -⟩ := exists_of_firstMisplaced? hmisplaced
      exact .inr ⟨_, rfl, onCycle_of_firstMisplaced? htraced (hperm.mem_iff.2 (hclosed o ho).1) hmisplaced⟩

/-- The search with a stack and the searches against the edges find what the visits and the test of the order do. -/
theorem sorts_tested (hnodup : g.ids.Nodup) (hclosed : g.IsClosed) : g.Sorts (g.finishOrder >>= g.tested) := by
  refine ⟨_, covers_of_visitAll hclosed.following (g.ids.length + 1) (w := {}) (fun _ hx => hx)
    ⟨List.nodup_nil, nofun⟩ (by simp) nofun nofun, ?_⟩
  unfold finishOrder
  cases hw : g.ids.foldlM (visit g.orders (g.ids.length + 1)) {} with
  | error id => rfl
  | ok w =>
    have hfinish : g.finishOrder = .ok w.done := map_eq_ok.2 ⟨w, hw, rfl⟩
    have hdone := (finishOrder_eq_ok hclosed hnodup hfinish).2.nodup
    change Search.order (edgesOf g.orders) ⟨[], w.met, w.done⟩ = g.tested w.done
    have hreached : firstReached? (edgesOf g.orders) [] w.done = firstMisplaced? g.orders [] w.done :=
      firstReached?_eq hdone fun _ _ => List.not_mem_nil
    unfold Search.order tested
    dsimp only
    cases hmisplaced : firstMisplaced? g.orders [] w.done with
    | none => rw [hreached, hmisplaced]
    | some id => rw [hreached, hmisplaced]

/-- **The search with a stack** comes to an end, and finds the order of the graph or the landmark that is reported. -/
theorem sorts_iff (hnodup : g.ids.Nodup) (hclosed : g.IsClosed) (r : Except Nat (List Nat)) :
    g.Sorts r ↔ g.topologicalOrder = r.mapError .cycle := by
  have hsorts := sorts_tested hnodup hclosed
  rw [topologicalOrder_eq hnodup hclosed]
  constructor
  · intro h
    rw [hsorts.unique h]
  · intro h
    have hsame : g.finishOrder >>= g.tested = r := by
      revert h
      cases g.finishOrder >>= g.tested with
      | error id => cases r with
        | error id' => exact fun h => congrArg _ (Failure.cycle.inj (Except.error.inj h))
        | ok order => exact nofun
      | ok order => cases r with
        | error id => exact nofun
        | ok order' => exact fun h => congrArg _ (Except.ok.inj h)
    exact hsame ▸ hsorts

/-- A graph with a topological order has distinct numbers and known landmarks, and no cycles. -/
theorem of_topologicalOrder {order : List Nat} (h : g.topologicalOrder = .ok order) :
    g.ids.Nodup ∧ g.IsClosed ∧ ∀ id, ¬ OnCycle g.orders id := by
  obtain ⟨rank, bound, hranked⟩ := exists_ranked_of_validate (map_eq_ok.2 ⟨order, h, rfl⟩)
  exact ⟨hranked.nodup, hranked.known, hranked.not_onCycle⟩

/-- **Topological orders.** There is one just if the numbers are distinct, all orderings are between landmarks of the
graph and no landmark is on a cycle. It lists the landmarks, each once, and of each ordering the first before the
second. If only cycles stand in the way, a landmark on one of them is reported. In either case the search with a stack
comes to an end and finds just this. -/
theorem topologicalOrder_exact (g : Graph) :
    ((∃ order, g.topologicalOrder = .ok order) ↔
      g.ids.Nodup ∧ g.IsClosed ∧ ∀ id, ¬ OnCycle g.orders id) ∧
    (∀ order, g.topologicalOrder = .ok order →
      order.Perm g.ids ∧ order.Nodup ∧ ∀ o ∈ g.orders, [o.first, o.second].Sublist order) ∧
    (g.ids.Nodup → g.IsClosed → (∃ id, OnCycle g.orders id) →
      ∃ id, g.topologicalOrder = .error (.cycle id) ∧ OnCycle g.orders id) ∧
    (g.ids.Nodup → g.IsClosed → ∀ r, g.Sorts r ↔ g.topologicalOrder = r.mapError .cycle) := by
  refine ⟨⟨fun ⟨order, h⟩ => of_topologicalOrder h, fun ⟨hnodup, hclosed, hacyclic⟩ => ?_⟩, fun order h => ?_,
    fun hnodup hclosed ⟨id, hcycle⟩ => ?_, sorts_iff⟩
  · rcases topologicalOrder_cases hnodup hclosed with ⟨order, h, -⟩ | ⟨id, -, hcycle⟩
    · exact ⟨order, h⟩
    · exact absurd hcycle (hacyclic id)
  · obtain ⟨hnodup, hclosed, hacyclic⟩ := of_topologicalOrder h
    rcases topologicalOrder_cases hnodup hclosed with ⟨found, hfound, hperm, htraced⟩ | ⟨id, -, hcycle⟩
    · obtain rfl := Except.ok.inj (h.symm.trans hfound)
      exact ⟨hperm, htraced.nodup,
        fun o ho => (htraced.sorted hacyclic).sublist ho (hperm.mem_iff.2 (hclosed o ho).1)⟩
    · exact absurd hcycle (hacyclic id)
  · rcases topologicalOrder_cases hnodup hclosed with ⟨order, h, -⟩ | hreported
    · exact absurd hcycle ((of_topologicalOrder h).2.2 id)
    · exact hreported

/-- Four landmarks with some orderings. -/
def four (orders : List Order) : Graph where
  landmarks := (List.range 4).map fun id => { id, facts := [] }
  orders

/-- Orderings with a cycle of two landmarks between two others. -/
def knot : List Order := [⟨0, 1, .natural⟩, ⟨1, 2, .natural⟩, ⟨2, 1, .natural⟩, ⟨2, 3, .natural⟩]

/-- Orderings by which one landmark comes before another in two ways. -/
def detour : List Order := [⟨3, 1, .natural⟩, ⟨1, 0, .natural⟩, ⟨3, 0, .natural⟩, ⟨3, 2, .natural⟩]

/-- The orders of four landmarks, with a cycle and without one. -/
theorem topologicalOrder_exact_four :
    (∃ id, (four knot).topologicalOrder = .error (.cycle id) ∧ OnCycle knot id) ∧
    (four detour).topologicalOrder = .ok [3, 2, 1, 0] ∧ [3, 0].Sublist [3, 2, 1, 0] ∧
    (four detour).Sorts (.ok [3, 2, 1, 0]) := by
  have hcycle : OnCycle (four knot).orders 1 :=
    .tail (.single ⟨⟨1, 2, .natural⟩, by decide, rfl, rfl⟩) ⟨⟨2, 1, .natural⟩, by decide, rfl, rfl⟩
  have hknot : (four knot).IsClosed := by
    unfold IsClosed
    decide
  have hdetour : (four detour).IsClosed := by
    unfold IsClosed
    decide
  have horder : (four detour).topologicalOrder = .ok [3, 2, 1, 0] := by decide
  obtain ⟨-, -, hreported, -⟩ := topologicalOrder_exact (four knot)
  obtain ⟨-, hordered, -, hsorts⟩ := topologicalOrder_exact (four detour)
  exact ⟨hreported (by decide) hknot ⟨1, hcycle⟩, horder, (hordered _ horder).2.2 ⟨3, 0, .natural⟩ (by decide),
    (hsorts (by decide) hdetour _).2 horder⟩

end Graph

end Waymark.Landmark
