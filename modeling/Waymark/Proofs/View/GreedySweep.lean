import Mathlib.Tactic
import Waymark.Proofs.View.Selection
import Waymark.Proofs.View.SweepOrder

/-!
# A traversal takes up the best landmark each time

A sweep counts down the predecessors of each landmark, never below zero, and takes up the least of the landmarks whose
predecessors have all been taken up. Together with the numbers this leaves it no choice.

* `Sweep.Counts`, `Sweep.Runs`: the loop of a sweep, with counters that must not go below zero;
* `Sweep.Fed`, `Sweep.Fed.take`: what every step keeps;
* `Sweep.Fed.runs`, `Sweep.Fed.exists_of_run`: the loop comes to an end, and what it takes up at each place;
* `Context.standing`, `Context.MayFollow`: the order among landmarks, and which may come next;
* `Context.traversal_greedy`: the traversal of a valid graph.
-/

namespace Waymark.View

variable {d : Direction} {s s' : Sweep} {links : List (Nat × Nat)} {taken : List Nat} {stop : Stop}

/-! ## The loop -/

/-- The number of predecessors that a landmark waits for. -/
def Sweep.counter (s : Sweep) (id : Nat) : Nat := ((s.waiting.find? (·.1.id = id)).map (·.2)).getD 0

/-- Counts down for one landmark after another. A counter at zero cannot be counted down. -/
inductive Sweep.Counts : Sweep → List Nat → Sweep → Prop
  | nil (s : Sweep) : Sweep.Counts s [] s
  | cons {s s' : Sweep} {id : Nat} {ids : List Nat} (hpos : 0 < s.counter id)
      (hrest : Sweep.Counts (s.release id) ids s') : Sweep.Counts s (id :: ids) s'

/-- Takes up landmarks until none may come next, and counts down for all that follow each. -/
inductive Sweep.Runs (d : Direction) (links : List (Nat × Nat)) : Sweep → List Nat → Prop
  | stop {s : Sweep} (hready : s.ready = []) : Sweep.Runs d links s []
  | next {s s' : Sweep} {stop : Stop} {ids : List Nat} (hfirst : Stop.first? d s.ready = some stop)
      (hcounts : Sweep.Counts { s with ready := s.ready.erase stop } ((links.filter (·.1 = stop.id)).map (·.2)) s')
      (hrest : Sweep.Runs d links s' ids) : Sweep.Runs d links s (stop.id :: ids)

theorem Sweep.counter_pos {x : Stop × Nat} (hx : x ∈ s.waiting) (hne : ∀ y ∈ s.waiting, y.2 ≠ 0) :
    0 < s.counter x.1.id := by
  unfold counter
  cases hfind : s.waiting.find? (·.1.id = x.1.id) with
  | none => exact absurd (decide_eq_true rfl) (List.find?_eq_none.1 hfind x hx)
  | some y => exact Nat.pos_of_ne_zero (hne y (List.mem_of_find?_eq_some hfind))

/-- Counters can be counted down as often as landmarks are owed. -/
theorem Sweep.Settled.counts {owed : Nat → Nat} {ids : List Nat} (h : s.Settled owed)
    (hleft : ∀ id ∈ ids, id ∈ s.left.map (·.id)) (howed : ∀ id ∈ ids, ids.count id ≤ owed id) :
    s.Counts ids (ids.foldl Sweep.release s) := by
  induction ids generalizing s owed with
  | nil => exact .nil s
  | cons id ids ih =>
    refine .cons ?_ (ih (h.release id) (fun x hx => ?_) fun x hx => ?_)
    · obtain ⟨x, hx, rfl⟩ := List.mem_map.1 (hleft id List.mem_cons_self)
      have hpos := howed x.id List.mem_cons_self
      rw [List.count_cons_self] at hpos
      rcases List.mem_append.1 hx with hx | hx
      · -- What may come next is owed nothing.
        rw [h.ready x hx] at hpos
        omega
      · obtain ⟨y, hy, rfl⟩ := List.mem_map.1 hx
        exact counter_pos hy fun z hz => (h.owes z hz).2
    · exact ((s.left_release id).map _).mem_iff.2 (hleft x (List.mem_cons_of_mem _ hx))
    · have hle := howed x (List.mem_cons_of_mem _ hx)
      rw [List.count_cons] at hle
      simp only [beq_iff_eq, eq_comm (a := id)] at hle
      omega

/-! ## What every step keeps -/

theorem owed_eq_zero {id : Nat} : owed links taken id = 0 ↔ ∀ a ∈ links, a.2 = id → a.1 ∈ taken := by
  simp [owed, List.countP_eq_zero]

/-- A sweep that has taken up no landmark before one of its predecessors, and that has taken up or keeps all
landmarks to which arrows lead. -/
structure Sweep.Fed (links : List (Nat × Nat)) (taken : List Nat) (s : Sweep) : Prop where
  underway : s.Underway links taken
  closed : ∀ a ∈ links, a.2 ∈ taken → a.1 ∈ taken
  known : ∀ a ∈ links, a.2 ∈ taken ∨ a.2 ∈ s.left.map (·.id)

namespace Sweep.Fed

variable (h : s.Fed links taken)
include h

/-- All predecessors of a landmark that may come next have been taken up. -/
theorem mem_taken (hstop : stop ∈ s.ready) {a : Nat × Nat} (ha : a ∈ links) (hid : a.2 = stop.id) : a.1 ∈ taken :=
  owed_eq_zero.1 (h.underway.settled.ready stop hstop) a ha hid

theorem not_mem_taken (hstop : stop ∈ s.ready) : stop.id ∉ taken :=
  h.underway.isNew stop (List.mem_append_left _ hstop)

/-- What every step keeps. -/
theorem take (hstop : stop ∈ s.ready) : (s.take links stop).Fed links (stop.id :: taken) where
  underway := h.underway.take hstop
  closed a ha hmem := by
    rcases List.mem_cons.1 hmem with hid | hmem
    · exact List.mem_cons_of_mem _ (h.mem_taken hstop ha hid)
    · exact List.mem_cons_of_mem _ (h.closed a ha hmem)
  known a ha := by
    have hids := (left_take links hstop).map (·.id)
    rw [List.map_cons] at hids
    rcases h.known a ha with hmem | hmem
    · exact .inl (List.mem_cons_of_mem _ hmem)
    · rcases List.mem_cons.1 (hids.mem_iff.2 hmem) with hid | hmem
      · exact .inl (hid ▸ List.mem_cons_self)
      · exact .inr hmem

/-- **No counter goes below zero** when a landmark is taken up: all that follow it wait for it. -/
theorem counts (hstop : stop ∈ s.ready) : Sweep.Counts { s with ready := s.ready.erase stop }
    ((links.filter (·.1 = stop.id)).map (·.2)) (s.take links stop) := by
  have hnew := h.not_mem_taken hstop
  have hstart : Sweep.Settled (owed links taken) { s with ready := s.ready.erase stop } :=
    ⟨h.underway.settled.owes, fun x hx => h.underway.settled.ready x (List.mem_of_mem_erase hx)⟩
  refine hstart.counts (List.forall_mem_map.2 fun a ha => ?_) fun x _ => ?_
  · obtain ⟨ha, hfirst⟩ := List.mem_filter.1 ha
    have hfirst : a.1 = stop.id := of_decide_eq_true hfirst
    have hmem : a.2 ∈ s.left.map (·.id) := (h.known a ha).resolve_left fun hmem => hnew (hfirst ▸ h.closed a ha hmem)
    have hne : a.2 ≠ stop.id := fun hid => hnew (hfirst ▸ h.mem_taken hstop ha hid)
    have hleft : (stop :: Sweep.left { s with ready := s.ready.erase stop }).Perm s.left :=
      (List.perm_cons_erase hstop).symm.append_right _
    exact (List.mem_cons.1 ((hleft.map (·.id)).mem_iff.2 hmem)).resolve_left hne
  · rw [owed_eq_add hnew]
    exact Nat.le_add_left _ _

/-- **The loop comes to an end**, and what it takes up is what the program takes up. -/
theorem runs {steps : Nat} (hsteps : s.left.length ≤ steps) : Sweep.Runs d links s (Sweep.run d links steps s) := by
  induction steps generalizing s taken with
  | zero =>
    have hleft : s.left = [] := List.length_eq_zero_iff.1 (Nat.le_zero.1 hsteps)
    exact .stop (List.append_eq_nil_iff.1 hleft).1
  | succ steps ih =>
    unfold Sweep.run
    split
    · rename_i hnone
      exact .stop (Stop.first?_eq_none hnone)
    · rename_i stop hfirst
      have hstop := Stop.mem_of_first? hfirst
      have hlength := (left_take links hstop).length_eq
      rw [List.length_cons] at hlength
      exact .next hfirst (h.counts hstop) (ih (h.take hstop) (by omega))

/-- What is left after a step is what was left but the landmark that is taken up. -/
theorem mem_left_take (hstop : stop ∈ s.ready) {x : Stop} :
    x ∈ (s.take links stop).left ↔ x ∈ s.left ∧ x.id ≠ stop.id := by
  have hperm := left_take links hstop
  obtain ⟨hnot, -⟩ := List.nodup_cons.1 ((hperm.map (·.id)).nodup_iff.2 h.underway.nodup)
  constructor
  · intro hx
    exact ⟨hperm.mem_iff.1 (List.mem_cons_of_mem _ hx), fun hid => hnot (List.mem_map.2 ⟨x, hx, hid⟩)⟩
  · rintro ⟨hx, hne⟩
    exact (List.mem_cons.1 (hperm.mem_iff.2 hx)).resolve_left fun heq => hne (congrArg Stop.id heq)

/-- **What a sweep takes up at each place** is the first of what may come next at that place. -/
theorem exists_of_run {steps : Nat} {before after : List Nat} {id : Nat}
    (hrun : Sweep.run d links steps s = before ++ id :: after) : ∃ (s' : Sweep) (stop : Stop),
      s'.Fed links (before.reverse ++ taken) ∧ Stop.first? d s'.ready = some stop ∧ stop.id = id ∧
      ∀ x, x ∈ s'.left ↔ x ∈ s.left ∧ x.id ∉ before := by
  induction steps generalizing s taken before with
  | zero => exact absurd hrun.symm (by simp [Sweep.run])
  | succ steps ih =>
    unfold Sweep.run at hrun
    split at hrun
    · exact absurd hrun.symm (by simp)
    rename_i stop hfirst
    have hstop := Stop.mem_of_first? hfirst
    cases before with
    | nil =>
      obtain ⟨hid, -⟩ := List.cons.inj hrun
      exact ⟨s, stop, h, hfirst, hid, fun x => by simp⟩
    | cons first before =>
      obtain ⟨rfl, hrest⟩ := List.cons.inj hrun
      obtain ⟨s', next, hfed, hnext, hid, hleft⟩ := ih (h.take hstop) hrest
      refine ⟨s', next, ?_, hnext, hid, fun x => ?_⟩
      · rwa [List.reverse_cons, List.append_assoc]
      · rw [hleft, h.mem_left_take hstop, List.mem_cons, not_or, and_assoc]

end Sweep.Fed

/-! ## Traversals -/

variable {κ : Type} {c : Context κ} {live : List Nat}

/-- What an ordering puts first in a direction, and what it puts second. -/
def Direction.ends (d : Direction) (o : Landmark.Order) : Nat × Nat :=
  match d with
  | .forward => (o.first, o.second)
  | .backward => (o.second, o.first)

theorem ends_mem_arrows {g : Landmark.Graph} {o : Landmark.Order} (ho : o ∈ g.orders) : d.ends o ∈ arrows d g :=
  mem_arrows.2 ⟨o, ho, rfl⟩

/-- The positions at which plans achieve a landmark. -/
def Context.positions (c : Context κ) (live : List Nat) (landmark : Nat) : List Nat :=
  live.filterMap fun p => (c.choice landmark p).map (·.2)

/-- Where a landmark stands among others: by the average position at which plans achieve it, an exact quotient, the
smallest first when going forward and the greatest first when going backward; behind these if no plan achieves it;
and by its number between equals. -/
def Context.standing (c : Context κ) (live : List Nat) (d : Direction) (landmark : Nat) : WithTop ℚ ×ₗ ℕ :=
  let positions := c.positions live landmark
  let average : ℚ := positions.sum / positions.length
  toLex (if positions = [] then ⊤ else match d with
    | .forward => (average : WithTop ℚ)
    | .backward => ((-average : ℚ) : WithTop ℚ), landmark)

/-- A landmark that may come next when some are taken up: it is not one of them, and all that belong before it are. -/
structure Context.MayFollow (c : Context κ) (d : Direction) (taken : List Nat) (id : Nat) : Prop where
  known : id ∈ c.graph.ids
  isNew : id ∉ taken
  released : ∀ o ∈ c.graph.orders, (d.ends o).2 = id → (d.ends o).1 ∈ taken

/-- The program compares landmarks by where they stand. -/
theorem Context.key_eq (c : Context κ) (live : List Nat) (d : Direction) (id : Nat) :
    Stop.key d ⟨id, c.mean? live id⟩ = c.standing live d id := by
  unfold Stop.key standing mean? positions
  dsimp only
  split
  · rename_i hnil
    rw [if_pos hnil]
    rfl
  · rename_i hne
    rw [if_neg hne, ← List.sum_eq_foldl]
    cases d <;> rfl

theorem Context.standing_injective (c : Context κ) (live : List Nat) (d : Direction) {x y : Nat}
    (h : c.standing live d x = c.standing live d y) : x = y := congrArg (·.2) (toLex.injective h)

/-- A sweep before its first step has taken up nothing. -/
theorem Context.fed_start (hvalid : c.graph.validate = .ok ()) (live : List Nat) (d : Direction) :
    (Sweep.start (arrows d c.graph) (c.stops live)).Fed (arrows d c.graph) [] where
  underway := underway_start hvalid live _
  closed _ _ hmem := absurd hmem List.not_mem_nil
  known a ha := by
    obtain ⟨rank, bound, hranked⟩ := Landmark.Graph.exists_ranked_of_validate hvalid
    have hleft := (left_start (arrows d c.graph) (c.stops live)).map (·.id)
    rw [map_id_stops] at hleft
    obtain ⟨o, ho, rfl⟩ := mem_arrows.1 ha
    refine .inr (hleft.mem_iff.2 ?_)
    cases d with
    | forward => exact (hranked.known o ho).2
    | backward => exact (hranked.known o ho).1

/-- At each place stands the least of the landmarks that may come next. -/
theorem Context.least_of_traversal (hvalid : c.graph.validate = .ok ()) {before after : List Nat} {id : Nat}
    (h : c.traversal live d = before ++ id :: after) : c.MayFollow d before id ∧
      ∀ other, c.MayFollow d before other → other ≠ id → c.standing live d id < c.standing live d other := by
  obtain ⟨s, stop, hfed, hfirst, rfl, hleft⟩ := (fed_start hvalid live d).exists_of_run h
  have hleft {x : Stop} : x ∈ s.left ↔ x ∈ c.stops live ∧ x.id ∉ before := by
    rw [hleft, (left_start _ _).mem_iff]
  have howed {id : Nat} : owed (arrows d c.graph) (before.reverse ++ []) id = 0 ↔
      ∀ o ∈ c.graph.orders, (d.ends o).2 = id → (d.ends o).1 ∈ before := by
    rw [owed_eq_zero]
    simp only [List.append_nil, List.mem_reverse]
    constructor
    · exact fun hall o ho => hall _ (ends_mem_arrows ho)
    · intro hall a ha
      obtain ⟨o, ho, rfl⟩ := mem_arrows.1 ha
      exact hall o ho
  have hready := hfed.underway.settled.ready_eq
  have hstop := Stop.mem_of_first? hfirst
  obtain ⟨hstops, hbefore⟩ := hleft.1 (List.mem_append_left _ hstop)
  obtain ⟨id, hid, rfl⟩ := List.mem_map.1 hstops
  refine ⟨⟨hid, hbefore, howed.1 (hfed.underway.settled.ready _ hstop)⟩, fun other hother hne => ?_⟩
  have hmem : (⟨other, c.mean? live other⟩ : Stop) ∈ s.ready := by
    rw [← hready]
    exact List.mem_filter.2 ⟨hleft.2 ⟨List.mem_map.2 ⟨other, hother.known, rfl⟩, hother.isNew⟩,
      decide_eq_true (howed.2 hother.released)⟩
  have hcounted : ∀ x ∈ s.ready, x.IsCounted := fun x hx =>
    isCounted_of_mem_stops (hleft.1 (List.mem_append_left _ hx)).1
  have hle := Stop.key_le_of_first? hcounted hfirst _ hmem
  rw [key_eq, key_eq] at hle
  exact lt_of_le_of_ne hle fun heq => hne (c.standing_injective live d heq).symm

/-- **The traversal of a valid graph.** The loop comes to an end and counts no predecessor below zero. It takes up each
landmark once, and of each ordering the end first that the direction puts first. At each place it takes up the least
of the landmarks that may come next, by their average positions and then by their numbers. -/
theorem Context.traversal_greedy (hvalid : c.graph.validate = .ok ()) (live : List Nat) (d : Direction) :
    Sweep.Runs d (arrows d c.graph) (.start (arrows d c.graph) (c.stops live)) (c.traversal live d) ∧
    (c.traversal live d).Perm c.graph.ids ∧ (c.traversal live d).Nodup ∧
    (∀ o ∈ c.graph.orders, [(d.ends o).1, (d.ends o).2].Sublist (c.traversal live d)) ∧
    ∀ before id after, c.traversal live d = before ++ id :: after → c.MayFollow d before id ∧
      ∀ other, c.MayFollow d before other → other ≠ id → c.standing live d id < c.standing live d other := by
  obtain ⟨rank, bound, hranked⟩ := Landmark.Graph.exists_ranked_of_validate hvalid
  have hperm := c.traversal_perm hvalid live d
  refine ⟨?_, hperm, hperm.nodup_iff.2 hranked.nodup, fun o ho => ?_, fun _ _ _ => least_of_traversal hvalid⟩
  · exact (fed_start hvalid live d).runs (left_start _ _).length_eq.le
  · have hsecond : (d.ends o).2 ∈ c.traversal live d := by
      refine hperm.mem_iff.2 ?_
      cases d with
      | forward => exact (hranked.known o ho).2
      | backward => exact (hranked.known o ho).1
    obtain ⟨before, after, hsplit⟩ := List.append_of_mem hsecond
    have hfirst := (least_of_traversal hvalid hsplit).1.released o ho rfl
    rw [hsplit]
    exact (List.singleton_sublist.2 hfirst).append (List.singleton_sublist.2 List.mem_cons_self)

/-- Two signposts, of which the plan that is left achieves only the first: the other comes last, also going backward. If
it stands behind the first, it comes first then, because the first may not come before it. -/
theorem Context.traversal_greedy_signposted : ∃ c row : Context Number.Double,
    Context.prepare (signposted (.number 1)) = .ok (some c) ∧ c.traversal [0] .backward = [0, 1] ∧
    c.MayFollow .backward [] 1 ∧ c.standing [0] .backward 0 < c.standing [0] .backward 1 ∧
    Context.prepare (signpostedRow (.number 1)) = .ok (some row) ∧ row.graph.orders = [⟨0, 1, .natural⟩] ∧
    row.traversal [0] .backward = [1, 0] ∧ row.standing [0] .backward 0 < row.standing [0] .backward 1 ∧
    ¬ row.MayFollow .backward [] 0 ∧ row.MayFollow .backward [] 1 ∧ row.MayFollow .backward [1] 0 := by
  have hprepare := prepare_signposted (Number.Double.number 1)
  have hprepareRow := prepare_signpostedRow (Number.Double.number 1)
  have htraversal (left right : String) :
      (signpostContext (Number.Double.number 1) left right).traversal [0] .backward = [0, 1] := rfl
  have htraversalRow (left right : String) :
      (signpostRowContext (Number.Double.number 1) left right).traversal [0] .backward = [1, 0] := rfl
  have hmay : (signpostContext (Number.Double.number 1) (Plan.fingerprint ["(left)"])
      (Plan.fingerprint ["(right)"])).MayFollow .backward [] 1 :=
    ⟨by decide, List.not_mem_nil, fun _ ho => absurd ho List.not_mem_nil⟩
  obtain ⟨-, -, -, -, hleast⟩ := traversal_greedy (validate_of_prepare hprepare) [0] .backward
  obtain ⟨-, -, -, -, hleastRow⟩ := traversal_greedy (validate_of_prepare hprepareRow) [0] .backward
  have hfirst := (hleast [] 0 [1] (htraversal _ _)).2 1 hmay (by decide)
  have hbehind := (hleastRow [] 1 [0] (htraversalRow _ _)).1
  have hbefore := (hleastRow [1] 0 [] (htraversalRow _ _)).1
  have hblocked (c : Context Number.Double) (hc : c.graph = signpostRow) : ¬ c.MayFollow .backward [] 0 := by
    intro h
    exact absurd (h.released ⟨0, 1, .natural⟩ (hc ▸ List.mem_singleton_self _) rfl) List.not_mem_nil
  exact ⟨_, _, hprepare, htraversal _ _, hmay, hfirst, hprepareRow, rfl, htraversalRow _ _, hfirst,
    hblocked _ rfl, hbehind, hbefore⟩

end Waymark.View
