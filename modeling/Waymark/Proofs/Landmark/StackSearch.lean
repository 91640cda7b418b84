import Mathlib.Tactic
import Waymark.Proofs.Landmark.Ranking

/-!
# The search with a stack

The search that puts a graph in order can be run without recursion: a stack holds the landmarks to be visited and,
below those that follow them, the landmarks that are being visited. A landmark can stand on the stack several times.
It is discovered where it first comes to the top, and is finished where it comes to the top again. What is finished is
then searched against the edges, and each of these searches must come to an end at once.

* `Search`, `Search.step`, `Search.Runs`, `Search.Covers`: the loops of the search;
* `nextAgainst?`, `firstReached?`: the searches against the edges;
* `Graph.Sorts`: what the two find together;
* `runs_of_visit`, `runs_of_visitAll`, `covers_of_visitAll`: the search runs as visits do;
* `firstReached?_eq`: the searches against the edges find what is misplaced.
-/

namespace Waymark.Landmark

variable {orders : List Order} {edges : List (Nat × Nat)} {id : Nat} {ids chosen stack marked : List Nat}
  {w w' : Walk}

/-! ## The search -/

/-- A search with a stack, its top first, with the landmarks that are discovered and those that are finished, the last
one first. -/
structure Search where
  stack : List Nat := []
  discovered : List Nat := []
  finished : List Nat := []

/-- The edges of a graph: orderings between the same landmarks are one edge. -/
def edgesOf (orders : List Order) : List (Nat × Nat) := (orders.map fun o => (o.first, o.second)).eraseDups

/-- Where the edges from a landmark lead. -/
def successors (edges : List (Nat × Nat)) (id : Nat) : List Nat := (edges.filter (·.1 = id)).map (·.2)

/-- Where the edges to a landmark come from. -/
def predecessors (edges : List (Nat × Nat)) (id : Nat) : List Nat := (edges.filter (·.2 = id)).map (·.1)

/-- What a search does with the landmark on top of the stack. It discovers it and puts above it all that follow it
and are not discovered, and takes it off when it finds it again. A landmark that follows itself is the fault. -/
def Search.step (edges : List (Nat × Nat)) (s : Search) : Except Nat (Option Search) :=
  match s.stack with
  | [] => .ok none
  | id :: rest =>
    if s.discovered.contains id then
      .ok (some { s with
        stack := rest
        finished := if s.finished.contains id then s.finished else id :: s.finished })
    else if (successors edges id).contains id then .error id
    else
      let discovered := id :: s.discovered
      .ok (some { s with
        stack := (successors edges id).filter (!discovered.contains ·) ++ s.stack
        discovered })

/-- Steps until the stack is empty. -/
inductive Search.Runs (edges : List (Nat × Nat)) : Search → Except Nat Search → Prop
  | stop {s : Search} (h : s.step edges = .ok none) : Search.Runs edges s (.ok s)
  | fail {s : Search} {id : Nat} (h : s.step edges = .error id) : Search.Runs edges s (.error id)
  | next {s s' : Search} {r : Except Nat Search} (h : s.step edges = .ok (some s')) (rest : Search.Runs edges s' r) :
      Search.Runs edges s r

/-- Searches from one landmark after another, those left out that are discovered. -/
inductive Search.Covers (edges : List (Nat × Nat)) : List Nat → Search → Except Nat Search → Prop
  | nil (s : Search) : Search.Covers edges [] s (.ok s)
  | skip {s : Search} {id : Nat} {ids : List Nat} {r : Except Nat Search} (h : id ∈ s.discovered)
      (rest : Search.Covers edges ids s r) : Search.Covers edges (id :: ids) s r
  | fail {s : Search} {id fault : Nat} {ids : List Nat} (hnew : id ∉ s.discovered)
      (h : Search.Runs edges { s with stack := [id] } (.error fault)) : Search.Covers edges (id :: ids) s (.error fault)
  | next {s s' : Search} {id : Nat} {ids : List Nat} {r : Except Nat Search} (hnew : id ∉ s.discovered)
      (h : Search.Runs edges { s with stack := [id] } (.ok s')) (rest : Search.Covers edges ids s' r) :
      Search.Covers edges (id :: ids) s r

/-- The next landmark that a search against the edges discovers, with what is discovered then and the stack. -/
def nextAgainst? (edges : List (Nat × Nat)) (discovered : List Nat) : List Nat → Option (Nat × List Nat × List Nat)
  | [] => none
  | id :: rest =>
    if discovered.contains id then nextAgainst? edges discovered rest
    else
      let discovered := id :: discovered
      some (id, discovered, (predecessors edges id).filter (!discovered.contains ·) ++ rest)

/-- The second landmark that the first search against the edges with more than one landmark discovers. -/
def firstReached? (edges : List (Nat × Nat)) (discovered : List Nat) : List Nat → Option Nat
  | [] => none
  | id :: rest => match nextAgainst? edges discovered [id] with
    | none => firstReached? edges discovered rest
    | some (_, discovered, stack) => match nextAgainst? edges discovered stack with
      | none => firstReached? edges discovered rest
      | some (reached, _) => some reached

/-- What is finished, unless a search against the edges discovers more than one landmark. The second one is the
fault. -/
def Search.order (edges : List (Nat × Nat)) (s : Search) : Except Nat (List Nat) :=
  match firstReached? edges [] s.finished with
  | some id => .error id
  | none => .ok s.finished

/-- What the search with a stack and the searches against the edges find. -/
def Graph.Sorts (g : Graph) (r : Except Nat (List Nat)) : Prop :=
  ∃ found, Search.Covers (edgesOf g.orders) g.ids {} found ∧ found >>= Search.order (edgesOf g.orders) = r

/-! ## One outcome -/

theorem Search.Runs.unique {s : Search} {r r' : Except Nat Search} (h : Search.Runs edges s r)
    (h' : Search.Runs edges s r') : r = r' := by
  induction h with
  | stop hstep => cases h' <;> simp_all
  | fail hstep => cases h' <;> simp_all
  | next hstep _ ih =>
    cases h' with
    | stop hstop => exact nomatch hstep.symm.trans hstop
    | fail hfail => exact nomatch hstep.symm.trans hfail
    | next hnext hrest =>
      obtain rfl := Option.some.inj (Except.ok.inj (hstep.symm.trans hnext))
      exact ih hrest

theorem Search.Covers.unique {s : Search} {r r' : Except Nat Search} (h : Search.Covers edges ids s r)
    (h' : Search.Covers edges ids s r') : r = r' := by
  induction h with
  | nil => cases h'; rfl
  | skip hmem _ ih =>
    cases h' with
    | skip _ hrest => exact ih hrest
    | fail hnew _ => exact absurd hmem hnew
    | next hnew _ _ => exact absurd hmem hnew
  | fail hnew hfail =>
    cases h' with
    | skip hmem _ => exact absurd hmem hnew
    | fail _ hfail' => exact congrArg _ (Except.error.inj (hfail.unique hfail'))
    | next _ hok _ => exact nomatch hfail.unique hok
  | next hnew hok _ ih =>
    cases h' with
    | skip hmem _ => exact absurd hmem hnew
    | fail _ hfail => exact nomatch hok.unique hfail
    | next _ hok' hrest =>
      obtain rfl := Except.ok.inj (hok.unique hok')
      exact ih hrest

theorem Graph.Sorts.unique {g : Graph} {r r' : Except Nat (List Nat)} (h : g.Sorts r) (h' : g.Sorts r') : r = r' := by
  obtain ⟨found, hfound, rfl⟩ := h
  obtain ⟨found', hfound', rfl⟩ := h'
  rw [hfound.unique hfound']

/-! ## Neighbours -/

theorem successors_edgesOf (orders : List Order) (id : Nat) :
    successors (edgesOf orders) id = (following orders id).eraseDups := by
  have hinj : ∀ x ∈ (orders.map fun o => (o.first, o.second)).filter (·.1 = id),
      ∀ y ∈ (orders.map fun o => (o.first, o.second)).filter (·.1 = id), x.2 = y.2 → x = y := by
    intro x hx y hy heq
    have hx : x.1 = id := of_decide_eq_true (List.mem_filter.1 hx).2
    have hy : y.1 = id := of_decide_eq_true (List.mem_filter.1 hy).2
    exact Prod.ext (hx.trans hy.symm) heq
  rw [successors, edgesOf, filter_eraseDups, map_eraseDups hinj, List.filter_map, List.map_map]
  rfl

theorem predecessors_edgesOf (orders : List Order) (id : Nat) :
    predecessors (edgesOf orders) id = ((orders.filter (·.second = id)).map (·.first)).eraseDups := by
  have hinj : ∀ x ∈ (orders.map fun o => (o.first, o.second)).filter (·.2 = id),
      ∀ y ∈ (orders.map fun o => (o.first, o.second)).filter (·.2 = id), x.1 = y.1 → x = y := by
    intro x hx y hy heq
    have hx : x.2 = id := of_decide_eq_true (List.mem_filter.1 hx).2
    have hy : y.2 = id := of_decide_eq_true (List.mem_filter.1 hy).2
    exact Prod.ext heq (hx.trans hy.symm)
  rw [predecessors, edgesOf, filter_eraseDups, map_eraseDups hinj, List.filter_map, List.map_map]
  rfl

/-! ## Visits -/

/-- What is put on the stack of the landmarks to be visited: those that are not marked, the first of equal ones. -/
inductive Pushed : List Nat → List Nat → List Nat → Prop
  | nil (marked : List Nat) : Pushed marked [] []
  | skip {marked chosen pushed : List Nat} {x : Nat} (h : x ∈ marked) (rest : Pushed marked chosen pushed) :
      Pushed marked (x :: chosen) pushed
  | push {marked chosen pushed : List Nat} {x : Nat} (h : x ∉ marked) (rest : Pushed (x :: marked) chosen pushed) :
      Pushed marked (x :: chosen) (x :: pushed)

theorem pushed_eraseDups (marked chosen : List Nat) :
    Pushed marked chosen (chosen.eraseDups.filter (!marked.contains ·)) := by
  induction chosen generalizing marked with
  | nil => exact .nil marked
  | cons x chosen ih =>
    have hrest : ((chosen.filter (!· == x)).eraseDups.filter (!marked.contains ·)) =
        chosen.eraseDups.filter (!(x :: marked).contains ·) := by
      rw [← filter_eraseDups, List.filter_filter]
      refine List.filter_congr fun y _ => ?_
      by_cases hy : y = x <;> simp [hy]
    rw [List.eraseDups_cons]
    by_cases hx : x ∈ marked
    · have hsame : chosen.eraseDups.filter (!(x :: marked).contains ·) =
          chosen.eraseDups.filter (!marked.contains ·) := by
        refine List.filter_congr fun y _ => ?_
        by_cases hy : y = x <;> simp [hy, hx]
      rw [List.filter_cons_of_neg (by simpa using hx), hrest, hsame]
      exact .skip hx (ih marked)
    · rw [List.filter_cons_of_pos (by simpa using hx), hrest]
      exact .push hx (ih (x :: marked))

/-- How a search goes on when a visit has come to its end. -/
def After (edges : List (Nat × Nat)) (stack : List Nat) : Except Nat Walk → Except Nat Search → Prop
  | .ok w, r => Search.Runs edges ⟨stack, w.met, w.done⟩ r
  | .error fault, r => r = .error fault

theorem visit_of_mem {depth : Nat} (hmet : id ∈ w.met) : visit orders depth w id = .ok w := by
  cases depth with
  | zero => rfl
  | succ depth =>
    unfold visit
    exact if_pos (List.contains_iff_mem.2 hmet)

section Simulation

variable (hknown : ∀ x ∈ ids, ∀ next ∈ following orders x, next ∈ ids)
include hknown

/-- The search goes through what is pushed as visits go through all that are chosen, if it does so for a visit. -/
theorem runs_of_visitAll {depth : Nat} {pushed : List Nat} {r : Except Nat Search} (hchosen : ∀ x ∈ chosen, x ∈ ids)
    (hvisit : ∀ id ∈ ids, ∀ w : Walk, w.Within ids → ids.length < depth + w.met.length →
      (∀ x ∈ w.done, x ∈ w.met) → (id ∈ w.met → id ∈ w.done) → ∀ stack r,
      After (edgesOf orders) stack (visit orders depth w id) r →
        Search.Runs (edgesOf orders) ⟨id :: stack, w.met, w.done⟩ r)
    (hw : w.Within ids) (hdepth : ids.length < depth + w.met.length) (hmet : ∀ x ∈ w.done, x ∈ w.met)
    (hmarked : ∀ x ∈ marked, x ∈ w.met) (hfinished : ∀ x ∈ w.met, x ∈ marked ∨ x ∈ w.done)
    (hpushed : Pushed marked chosen pushed)
    (h : After (edgesOf orders) stack (chosen.foldlM (visit orders depth) w) r) :
    Search.Runs (edgesOf orders) ⟨pushed ++ stack, w.met, w.done⟩ r := by
  induction hpushed generalizing w with
  | nil => exact h
  | skip hx _ ih =>
    rw [List.foldlM_cons, visit_of_mem (hmarked _ hx)] at h
    exact ih (List.forall_mem_cons.1 hchosen).2 hw hdepth hmet hmarked hfinished h
  | @push marked chosen pushed x hx _ ih =>
    obtain ⟨hid, hrest⟩ := List.forall_mem_cons.1 hchosen
    refine hvisit x hid w hw hdepth hmet (fun hmem => (hfinished x hmem).resolve_left hx) _ _ ?_
    rw [List.foldlM_cons] at h
    cases hnext : visit orders depth w x with
    | error fault =>
      rw [hnext] at h
      exact h
    | ok w₁ =>
      rw [hnext] at h
      obtain ⟨hleads, hmem⟩ := leads_of_visit hknown depth x hid w w₁ hw hdepth hnext
      have hlength := hleads.length_le hw
      refine ih hrest hleads.within (by omega) (hleads.doneMet hmet) ?_ (fun y hy => ?_) h
      · exact List.forall_mem_cons.2 ⟨hmem, fun y hy => hleads.met y (hmarked y hy)⟩
      · rcases hleads.further.finished y hy with hy | hy
        · exact (hfinished y hy).imp (List.mem_cons_of_mem _) (hleads.further.done y)
        · exact .inr hy

/-- **The search runs as a visit does** with the landmark on top of the stack, unless that is still being visited. -/
theorem runs_of_visit (depth : Nat) : ∀ id ∈ ids, ∀ w : Walk, w.Within ids → ids.length < depth + w.met.length →
    (∀ x ∈ w.done, x ∈ w.met) → (id ∈ w.met → id ∈ w.done) → ∀ stack r,
    After (edgesOf orders) stack (visit orders depth w id) r →
      Search.Runs (edgesOf orders) ⟨id :: stack, w.met, w.done⟩ r := by
  induction depth with
  | zero =>
    intro id _ w hw hdepth
    have hlength := hw.nodup.length_le_of_subset hw.subset
    omega
  | succ depth ih =>
    intro id hid w hw hdepth hmet hdone stack r h
    by_cases hmem : id ∈ w.met
    · rw [visit_of_mem hmem] at h
      exact .next (by simp [Search.step, hmem, hdone hmem]) h
    unfold visit at h
    rw [if_neg fun hcontains => hmem (List.contains_iff_mem.1 hcontains)] at h
    dsimp only at h
    by_cases hself : id ∈ following orders id
    · rw [if_pos (List.contains_iff_mem.2 hself)] at h
      obtain rfl : r = .error id := h
      exact .fail (by simp [Search.step, hmem, hself, successors_edgesOf])
    rw [if_neg fun hcontains => hself (List.contains_iff_mem.1 hcontains)] at h
    have hstep : Search.step (edgesOf orders) ⟨id :: stack, w.met, w.done⟩ = .ok (some
        ⟨(following orders id).eraseDups.filter (!(id :: w.met).contains ·) ++ id :: stack, id :: w.met, w.done⟩) := by
      simp [Search.step, hmem, hself, successors_edgesOf]
    have hstart : Walk.Within ids { w with met := id :: w.met } := hw.meet hid hmem
    have hdeeper : ids.length < depth + (id :: w.met).length := by
      rw [List.length_cons]
      omega
    refine .next hstep (runs_of_visitAll hknown (w := { w with met := id :: w.met }) (hknown id hid) ih hstart hdeeper
      (fun x hx => List.mem_cons_of_mem _ (hmet x hx)) (fun x hx => hx) (fun x hx => .inl hx) (pushed_eraseDups _ _) ?_)
    -- When all that follow the landmark are visited, it is on top again.
    cases hnext : (following orders id).foldlM (visit orders depth) { w with met := id :: w.met } with
    | error fault =>
      rw [hnext] at h
      exact h
    | ok w₁ =>
      rw [hnext] at h
      obtain ⟨hleads, -⟩ := leads_of_visitAll (hknown id hid) (leads_of_visit hknown depth) hstart hdeeper hnext
      have hid₁ : id ∈ w₁.met := hleads.met id List.mem_cons_self
      have hnot : id ∉ w₁.done := by
        intro hdone
        rcases hleads.further.fresh id hdone with hdone | hfresh
        · exact hmem (hmet id hdone)
        · exact hfresh List.mem_cons_self
      exact .next (by simp [Search.step, hid₁, hnot]) h

/-- The search covers landmarks as visits to them do. -/
theorem covers_of_visitAll (depth : Nat) (hchosen : ∀ x ∈ chosen, x ∈ ids) (hw : w.Within ids)
    (hdepth : ids.length < depth + w.met.length) (hmet : ∀ x ∈ w.done, x ∈ w.met) (hdone : ∀ x ∈ w.met, x ∈ w.done) :
    Search.Covers (edgesOf orders) chosen ⟨[], w.met, w.done⟩
      ((fun w => ⟨[], w.met, w.done⟩) <$> chosen.foldlM (visit orders depth) w) := by
  induction chosen generalizing w with
  | nil => exact .nil _
  | cons id chosen ih =>
    obtain ⟨hid, hrest⟩ := List.forall_mem_cons.1 hchosen
    rw [List.foldlM_cons]
    by_cases hmem : id ∈ w.met
    · rw [visit_of_mem hmem]
      exact .skip hmem (ih hrest hw hdepth hmet hdone)
    have hruns := runs_of_visit hknown depth id hid w hw hdepth hmet (hdone id) []
    cases hnext : visit orders depth w id with
    | error fault =>
      rw [hnext] at hruns
      exact .fail hmem (hruns _ rfl)
    | ok w₁ =>
      rw [hnext] at hruns
      obtain ⟨hleads, -⟩ := leads_of_visit hknown depth id hid w w₁ hw hdepth hnext
      have hlength := hleads.length_le hw
      refine .next hmem (hruns _ (.stop rfl)) (ih hrest hleads.within (by omega) (hleads.doneMet hmet) fun x hx => ?_)
      rcases hleads.further.finished x hx with hx | hx
      · exact hleads.further.done x (hdone x hx)
      · exact hx

end Simulation

/-! ## The test of the order -/

theorem head?_predecessors (orders : List Order) (q : Nat → Bool) (id : Nat) :
    ((predecessors (edgesOf orders) id).filter q).head? =
      (orders.find? fun o => o.second = id && q o.first).map (·.first) := by
  rw [predecessors_edgesOf, filter_eraseDups, head?_eraseDups, List.filter_map, List.head?_map, List.filter_filter,
    List.head?_filter]
  congr 2
  funext o
  exact Bool.and_comm _ _

/-- **The searches against the edges** find what is misplaced in an order. -/
theorem firstReached?_eq {before : List Nat} (hnodup : ids.Nodup) (hbefore : ∀ x ∈ ids, x ∉ before) :
    firstReached? (edgesOf orders) before ids = firstMisplaced? orders before ids := by
  induction ids generalizing before with
  | nil => rfl
  | cons id rest ih =>
    obtain ⟨hnot, hnodup⟩ := List.nodup_cons.1 hnodup
    obtain ⟨hid, hrest⟩ := List.forall_mem_cons.1 hbefore
    have hfirst : nextAgainst? (edgesOf orders) before [id] = some (id, id :: before,
        (predecessors (edgesOf orders) id).filter (!(id :: before).contains ·)) := by
      simp [nextAgainst?, hid]
    have hhead := head?_predecessors orders (!(id :: before).contains ·) id
    unfold firstReached? firstMisplaced?
    rw [hfirst]
    dsimp only
    cases hstack : (predecessors (edgesOf orders) id).filter (!(id :: before).contains ·) with
    | nil =>
      rw [hstack, List.head?_nil] at hhead
      rw [Option.map_eq_none_iff.1 hhead.symm]
      refine ih hnodup fun x hx hmem => ?_
      rcases List.mem_cons.1 hmem with rfl | hmem
      · exact hnot hx
      · exact hrest x hx hmem
    | cons reached stack =>
      rw [hstack, List.head?_cons] at hhead
      obtain ⟨o, ho, rfl⟩ := Option.map_eq_some_iff.1 hhead.symm
      have hnew : o.first ∉ id :: before := by
        have hmem : o.first ∈ (predecessors (edgesOf orders) id).filter (!(id :: before).contains ·) :=
          hstack ▸ List.mem_cons_self
        simpa using (List.mem_filter.1 hmem).2
      rw [ho, nextAgainst?, if_neg fun hcontains => hnew (List.contains_iff_mem.1 hcontains)]

end Waymark.Landmark
