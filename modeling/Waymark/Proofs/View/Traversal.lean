import Mathlib.Tactic
import Waymark.Proofs.Landmark.Ranking
import Waymark.View.Traversal

/-!
# Every landmark is taken up

A landmark waits for as many predecessors as have not been taken up. When the orderings lead to higher ranks, one of
the landmarks that are left waits for none, so a traversal takes up every landmark, and none twice.

* `Sweep.Owes`, `Sweep.Settled`: how many predecessors landmarks wait for;
* `left_take`, `Sweep.Underway.take`: what taking up a landmark changes, and what it keeps;
* `Sweep.Underway.run_perm`: a sweep takes up all that is left;
* `Context.traversal_perm`: a traversal of a valid graph.
-/

namespace Waymark.View

variable {d : Direction} {s : Sweep} {links : List (Nat × Nat)} {taken : List Nat} {stop : Stop}

/-! ## The next landmark -/

theorem Stop.mem_of_first? {stops : List Stop} (h : Stop.first? d stops = some stop) : stop ∈ stops := by
  induction stops generalizing stop with
  | nil => cases h
  | cons x rest ih =>
    unfold first? at h
    split at h
    · obtain rfl := Option.some.inj h
      exact List.mem_cons_self
    · rename_i y hy
      split at h
      · obtain rfl := Option.some.inj h
        exact List.mem_cons_of_mem _ (ih hy)
      · obtain rfl := Option.some.inj h
        exact List.mem_cons_self

theorem Stop.first?_eq_none {stops : List Stop} (h : Stop.first? d stops = none) : stops = [] := by
  cases stops with
  | nil => rfl
  | cons x rest =>
    unfold first? at h
    split at h <;> cases h

/-! ## What is left -/

/-- The landmarks that have not been taken up. -/
def Sweep.left (s : Sweep) : List Stop := s.ready ++ s.waiting.map (·.1)

/-- Each landmark that waits does so for some predecessors, as many as it is owed. -/
def Sweep.Owes (s : Sweep) (owed : Nat → Nat) : Prop := ∀ x ∈ s.waiting, x.2 = owed x.1.id ∧ x.2 ≠ 0

theorem filter_zero_perm (waiting : List (Stop × Nat)) :
    ((waiting.filter (·.2 = 0)).map (·.1) ++ (waiting.filter (·.2 ≠ 0)).map (·.1)).Perm (waiting.map (·.1)) := by
  have hnot : (waiting.filter fun x => decide (x.2 ≠ 0)) = waiting.filter fun x => !decide (x.2 = 0) :=
    List.filter_congr fun x _ => decide_not
  rw [hnot, ← List.map_append]
  exact (List.filter_append_perm _ waiting).map _

/-- A landmark that is released stays among those that are left. -/
theorem Sweep.left_release (s : Sweep) (id : Nat) : (s.release id).left.Perm s.left := by
  unfold left release
  dsimp only
  rw [List.append_assoc]
  refine ((filter_zero_perm _).trans (.of_eq ?_)).append_left _
  -- The landmarks that wait are the same, whatever they wait for.
  rw [List.map_map]
  refine List.map_congr_left fun x _ => ?_
  obtain ⟨stop, n⟩ := x
  dsimp only [Function.comp_apply]
  split <;> rfl

/-- A landmark that is released waits for one predecessor less. -/
theorem Sweep.Owes.release {owed : Nat → Nat} (h : s.Owes owed) (id : Nat) :
    (s.release id).Owes fun x => owed x - if x = id then 1 else 0 := by
  intro x hx
  obtain ⟨hx, hne⟩ := List.mem_filter.1 hx
  obtain ⟨⟨stop, n⟩, hmem, rfl⟩ := List.mem_map.1 hx
  refine ⟨?_, of_decide_eq_true hne⟩
  have howed : n = owed stop.id := (h _ hmem).1
  dsimp only
  split <;> simp_all

theorem Sweep.left_releaseAll (s : Sweep) (ids : List Nat) : (ids.foldl Sweep.release s).left.Perm s.left := by
  induction ids generalizing s with
  | nil => exact .refl _
  | cons id ids ih => exact (ih (s.release id)).trans (s.left_release id)

/-- What waits does so for some predecessors, as many as it is owed, and what may come next is owed none. -/
structure Sweep.Settled (owed : Nat → Nat) (s : Sweep) : Prop where
  owes : s.Owes owed
  ready : ∀ x ∈ s.ready, owed x.id = 0

theorem Sweep.Settled.release {owed : Nat → Nat} (h : s.Settled owed) (id : Nat) :
    (s.release id).Settled fun x => owed x - if x = id then 1 else 0 where
  owes := h.owes.release id
  ready := by
    intro x hx
    rcases List.mem_append.1 hx with hx | hx
    · simp only [h.ready x hx, Nat.zero_sub]
    · -- What now waits for none was owed at most this landmark.
      obtain ⟨⟨stop, n⟩, hmem, rfl⟩ := List.mem_map.1 hx
      obtain ⟨hmem, hzero⟩ := List.mem_filter.1 hmem
      obtain ⟨⟨waits, m⟩, hwaits, heq⟩ := List.mem_map.1 hmem
      obtain rfl : n = 0 := of_decide_eq_true hzero
      have howed : m = owed waits.id := (h.owes _ hwaits).1
      dsimp only at heq ⊢
      split at heq
      · rename_i hid
        obtain ⟨rfl, hone⟩ := Prod.mk.inj heq
        rw [if_pos hid, ← howed, hone]
      · rename_i hid
        obtain ⟨rfl, hnone⟩ := Prod.mk.inj heq
        rw [if_neg hid, ← howed, hnone]

theorem Sweep.Settled.releaseAll {owed : Nat → Nat} (h : s.Settled owed) (ids : List Nat) :
    (ids.foldl Sweep.release s).Settled fun x => owed x - ids.count x := by
  induction ids generalizing s owed with
  | nil => exact h
  | cons id ids ih =>
    have hcount (x : Nat) : owed x - (if x = id then 1 else 0) - ids.count x = owed x - (id :: ids).count x := by
      rw [List.count_cons, Nat.sub_sub, Nat.add_comm, Bool.beq_comm]
      simp only [beq_iff_eq]
    have hrest := ih (h.release id)
    simp only [hcount] at hrest
    exact hrest

/-! ## Taking up landmarks -/

/-- The number of arrows to a landmark from landmarks that have not been taken up. -/
def owed (links : List (Nat × Nat)) (taken : List Nat) (id : Nat) : Nat :=
  links.countP fun a => a.2 = id && !taken.contains a.1

/-- A landmark that is taken up is no longer left. -/
theorem left_take (links : List (Nat × Nat)) (hstop : stop ∈ s.ready) :
    (stop :: (s.take links stop).left).Perm s.left := by
  have hleft : (s.take links stop).left.Perm (s.ready.erase stop ++ s.waiting.map (·.1)) :=
    Sweep.left_releaseAll { s with ready := s.ready.erase stop } _
  exact (hleft.cons stop).trans ((List.perm_cons_erase hstop).symm.append_right _)

/-- Of the arrows to a landmark, those from one that is taken up are counted apart. -/
theorem owed_eq_add {id : Nat} (hnew : id ∉ taken) (x : Nat) : owed links taken x =
    owed links (id :: taken) x + ((links.filter (·.1 = id)).map (·.2)).count x := by
  unfold owed
  rw [List.count, List.countP_map, List.countP_filter, List.countP_eq_countP_filter_add links _ (·.1 ≠ id),
    List.countP_filter, List.countP_filter]
  refine congrArg₂ (· + ·) (List.countP_congr fun a _ => ?_) (List.countP_congr fun a _ => ?_)
  · simp only [List.contains_cons, Bool.and_eq_true, decide_eq_true_eq, Bool.not_eq_true', Bool.or_eq_false_iff,
      beq_eq_false_iff_ne]
    tauto
  · simp only [Bool.and_eq_true, decide_eq_true_eq, Bool.not_eq_true', Function.comp_apply, beq_iff_eq,
      ne_eq, decide_not, Bool.not_not]
    constructor
    · exact fun h => ⟨h.1.1, h.2⟩
    · rintro ⟨hsecond, hfirst⟩
      exact ⟨⟨hsecond, by simpa [hfirst] using hnew⟩, hfirst⟩

/-- Of the arrows to a landmark, those from one that is taken up no longer count. -/
theorem owed_cons {id : Nat} (hnew : id ∉ taken) (x : Nat) :
    owed links (id :: taken) x = owed links taken x - ((links.filter (·.1 = id)).map (·.2)).count x := by
  rw [owed_eq_add hnew, Nat.add_sub_cancel_right]

/-- A sweep that has taken up some landmarks, and none of those that are left. -/
structure Sweep.Underway (links : List (Nat × Nat)) (taken : List Nat) (s : Sweep) : Prop where
  settled : s.Settled (owed links taken)
  nodup : (s.left.map (·.id)).Nodup
  isNew : ∀ x ∈ s.left, x.id ∉ taken

namespace Sweep.Underway

variable (h : s.Underway links taken)
include h

/-- What every step keeps. -/
theorem take (hstop : stop ∈ s.ready) : (s.take links stop).Underway links (stop.id :: taken) := by
  have hperm := left_take links hstop
  have hstart : Sweep.Settled (owed links taken) { s with ready := s.ready.erase stop } :=
    ⟨h.settled.owes, fun x hx => h.settled.ready x (List.mem_of_mem_erase hx)⟩
  have hnew : stop.id ∉ taken := h.isNew stop (hperm.mem_iff.1 List.mem_cons_self)
  -- The landmarks that follow the one which is taken up wait for one predecessor less.
  have hnext := hstart.releaseAll ((links.filter (·.1 = stop.id)).map (·.2))
  rw [← funext fun x => owed_cons hnew x] at hnext
  obtain ⟨hnot, hnodup⟩ := List.nodup_cons.1 ((hperm.map (·.id)).nodup_iff.2 h.nodup)
  refine ⟨hnext, hnodup, fun x hx hmem => ?_⟩
  rcases List.mem_cons.1 hmem with heq | hmem
  · exact hnot (List.mem_map.2 ⟨x, hx, heq⟩)
  · exact h.isNew x (hperm.mem_iff.1 (List.mem_cons_of_mem _ hx)) hmem

variable {rank : Nat → Nat} (hrank : ∀ a ∈ links, rank a.1 < rank a.2)
include hrank

/-- While a landmark is left, one that is left waits for none. -/
theorem waiting_eq_nil (hsources : ∀ a ∈ links, a.1 ∈ taken ∨ a.1 ∈ s.left.map (·.id)) (hready : s.ready = []) :
    s.waiting = [] := by
  have hleft : s.left = s.waiting.map (·.1) := by rw [Sweep.left, hready, List.nil_append]
  have hnone (n : Nat) : ∀ x ∈ s.waiting, rank x.1.id ≠ n := by
    induction n using Nat.strong_induction_on with
    | _ n ih =>
      rintro x hx rfl
      obtain ⟨heq, hne⟩ := h.settled.owes x hx
      obtain ⟨a, ha, hcounted⟩ := List.countP_pos_iff.1 (Nat.pos_of_ne_zero (heq ▸ hne))
      obtain ⟨hsecond, hfirst⟩ := Bool.and_eq_true_iff.1 hcounted
      have hsecond : a.2 = x.1.id := of_decide_eq_true hsecond
      have hfirst : a.1 ∉ taken := by simpa using hfirst
      have hmem := (hsources a ha).resolve_left hfirst
      rw [hleft, List.map_map] at hmem
      obtain ⟨y, hy, hid⟩ := List.mem_map.1 hmem
      have hid : y.1.id = a.1 := hid
      have hlower := hrank a ha
      rw [← hid, hsecond] at hlower
      exact ih _ hlower y hy rfl
  exact List.eq_nil_iff_forall_not_mem.2 fun x hx => hnone _ x hx rfl

/-- **A sweep takes up all that is left**, each landmark once. -/
theorem run_perm (d : Direction) {steps : Nat} (hsources : ∀ a ∈ links, a.1 ∈ taken ∨ a.1 ∈ s.left.map (·.id))
    (hsteps : s.left.length ≤ steps) : (Sweep.run d links steps s).Perm (s.left.map (·.id)) := by
  induction steps generalizing s taken with
  | zero =>
    have hnil : s.left = [] := List.length_eq_zero_iff.1 (Nat.le_zero.1 hsteps)
    rw [hnil]
    exact .refl _
  | succ steps ih =>
    unfold Sweep.run
    split
    · rename_i hfirst
      have hready := Stop.first?_eq_none hfirst
      have hnil : s.left = [] := by
        rw [Sweep.left, hready, h.waiting_eq_nil hrank hsources hready]
        rfl
      rw [hnil]
      exact .refl _
    · rename_i stop hfirst
      have hstop := Stop.mem_of_first? hfirst
      have hperm := left_take links hstop
      have hids := hperm.map (·.id)
      rw [List.map_cons] at hids
      have hlength := hperm.length_eq
      rw [List.length_cons] at hlength
      refine ((ih (h.take hstop) (fun a ha => ?_) (by omega)).cons stop.id).trans hids
      rcases hsources a ha with hsource | hsource
      · exact .inl (List.mem_cons_of_mem _ hsource)
      · rcases List.mem_cons.1 (hids.mem_iff.2 hsource) with heq | hsource
        · exact .inl (heq ▸ List.mem_cons_self)
        · exact .inr hsource

end Sweep.Underway

/-! ## The traversal -/

theorem left_start (links : List (Nat × Nat)) (stops : List Stop) : (Sweep.start links stops).left.Perm stops := by
  have hperm := filter_zero_perm (stops.map fun stop => (stop, links.countP (·.2 = stop.id)))
  have hstops : (stops.map fun stop => (stop, links.countP (·.2 = stop.id))).map (·.1) = stops := by
    rw [List.map_map]
    exact List.map_id _
  rwa [hstops] at hperm

theorem settled_start (links : List (Nat × Nat)) (stops : List Stop) :
    (Sweep.start links stops).Settled (owed links []) where
  owes := by
    intro x hx
    obtain ⟨hx, hne⟩ := List.mem_filter.1 hx
    obtain ⟨stop, -, rfl⟩ := List.mem_map.1 hx
    refine ⟨?_, of_decide_eq_true hne⟩
    simp [owed]
  ready := by
    intro x hx
    obtain ⟨y, hy, rfl⟩ := List.mem_map.1 hx
    obtain ⟨hy, hzero⟩ := List.mem_filter.1 hy
    obtain ⟨stop, -, rfl⟩ := List.mem_map.1 hy
    simpa [owed] using hzero

theorem mem_arrows {g : Landmark.Graph} {a : Nat × Nat} : a ∈ arrows d g ↔ ∃ o ∈ g.orders,
    (match d with | .forward => (o.first, o.second) | .backward => (o.second, o.first)) = a := by
  unfold arrows
  exact List.mem_eraseDups.trans List.mem_map

/-- The arrows of a ranked graph lead to higher ranks, counted from either end. -/
theorem exists_rank_arrows {g : Landmark.Graph} {rank : Nat → Nat} {bound : Nat} (h : g.Ranked rank bound)
    (d : Direction) : ∃ rank : Nat → Nat, ∀ a ∈ arrows d g, rank a.1 < rank a.2 := by
  cases d with
  | forward =>
    refine ⟨rank, fun a ha => ?_⟩
    obtain ⟨o, ho, rfl⟩ := mem_arrows.1 ha
    exact (h.ascending o ho).1
  | backward =>
    refine ⟨fun id => bound - rank id, fun a ha => ?_⟩
    obtain ⟨o, ho, rfl⟩ := mem_arrows.1 ha
    have hlt := h.ascending o ho
    dsimp only
    omega

variable {κ : Type} {c : Context κ} {live : List Nat}

/-- The landmarks of a graph with their average positions. -/
def Context.stops (c : Context κ) (live : List Nat) : List Stop := c.graph.ids.map fun id => ⟨id, c.mean? live id⟩

theorem Context.traversal_eq (c : Context κ) (live : List Nat) (d : Direction) : c.traversal live d =
    Sweep.run d (arrows d c.graph) (c.stops live).length (.start (arrows d c.graph) (c.stops live)) := rfl

theorem Context.map_id_stops (c : Context κ) (live : List Nat) : (c.stops live).map (·.id) = c.graph.ids := by
  rw [stops, List.map_map]
  exact List.map_id _

/-- The sweep of a traversal before its first step. -/
theorem Context.underway_start (hvalid : c.graph.validate = .ok ()) (live : List Nat) (links : List (Nat × Nat)) :
    (Sweep.start links (c.stops live)).Underway links [] := by
  obtain ⟨rank, bound, hranked⟩ := Landmark.Graph.exists_ranked_of_validate hvalid
  refine ⟨settled_start links _, ?_, fun _ _ => List.not_mem_nil⟩
  rw [((left_start links (c.stops live)).map _).nodup_iff, map_id_stops]
  exact hranked.nodup

/-- **A traversal of a valid graph takes up every landmark**, each of them once. -/
theorem Context.traversal_perm (hvalid : c.graph.validate = .ok ()) (live : List Nat) (d : Direction) :
    (c.traversal live d).Perm c.graph.ids := by
  obtain ⟨rank, bound, hranked⟩ := Landmark.Graph.exists_ranked_of_validate hvalid
  obtain ⟨rank, hrank⟩ := exists_rank_arrows hranked d
  have hleft := (left_start (arrows d c.graph) (c.stops live)).map (·.id)
  rw [map_id_stops] at hleft
  refine ((underway_start hvalid live _).run_perm hrank d (fun a ha => .inr (hleft.mem_iff.2 ?_))
    (left_start _ _).length_eq.le).trans hleft
  obtain ⟨o, ho, rfl⟩ := mem_arrows.1 ha
  cases d with
  | forward => exact (hranked.known o ho).1
  | backward => exact (hranked.known o ho).2

/-- The traversals of a valid graph take up the same landmarks, whichever plans are left. -/
theorem Context.mem_traversal (hvalid : c.graph.validate = .ok ()) {id : Nat} :
    id ∈ c.traversal live d ↔ id ∈ c.graph.ids :=
  (c.traversal_perm hvalid live d).mem_iff

end Waymark.View
