import Mathlib.Tactic
import Waymark.Proofs.Repetition
import Waymark.Proofs.View.Traversal

/-!
# A traversal has one outcome

Of the landmarks that may come next one precedes all others: averages are compared, and between equals the numbers,
which differ. So nothing depends on the order in which a sweep keeps the landmarks that may come next and those that
wait, and nothing on the order in which a graph lists its landmarks and its orderings.

* `Stop.key`, `Stop.first?_eq_of_perm`: the next landmark of several in any order;
* `Sweep.Settled.ready_eq`: what may come next is what waits for nothing;
* `Sweep.Underway.run_eq_of_perm`: sweeps of the same landmarks;
* `Sweep.Visits`, `Sweep.Visits.eq_run`: a sweep that keeps its landmarks in any order;
* `Context.visits_iff`, `Context.traversal_eq_of_alike`: the traversals of a graph.
-/

namespace Waymark.View

variable {d : Direction} {s s' : Sweep} {links links' : List (Nat × Nat)} {taken : List Nat} {stop x y : Stop}
  {xs ys : List Stop}

/-! ## The next landmark -/

/-- An average as a number, which is the lower the sooner the average is taken up. -/
def Mean.value (d : Direction) (m : Mean) : ℚ :=
  match d with
  | .forward => m.sum / m.count
  | .backward => -(m.sum / m.count)

/-- Where an average stands: none stands above all others. -/
def place (d : Direction) : Option Mean → WithTop ℚ
  | some m => (m.value d : ℚ)
  | none => ⊤

theorem Mean.lt_iff {m n : Mean} (hm : m.count ≠ 0) (hn : n.count ≠ 0) :
    m.lt n = true ↔ (m.sum / m.count : ℚ) < n.sum / n.count := by
  have hm' : (0 : ℚ) < m.count := by exact_mod_cast Nat.pos_of_ne_zero hm
  have hn' : (0 : ℚ) < n.count := by exact_mod_cast Nat.pos_of_ne_zero hn
  rw [lt, decide_eq_true_eq, div_lt_div_iff₀ hm' hn']
  exact_mod_cast Iff.rfl

/-- The average of a landmark, if it has one, is over some positions. -/
def Stop.IsCounted (x : Stop) : Prop := ∀ m ∈ x.mean, m.count ≠ 0

theorem isSooner_iff (hx : x.IsCounted) (hy : y.IsCounted) :
    isSooner d x.mean y.mean = true ↔ place d x.mean < place d y.mean := by
  cases hxm : x.mean with
  | none => exact iff_of_false Bool.false_ne_true not_top_lt
  | some m =>
    cases hym : y.mean with
    | none => exact iff_of_true rfl (WithTop.coe_lt_top (m.value d))
    | some n =>
      have hm := hx m hxm
      have hn := hy n hym
      refine Iff.trans ?_ WithTop.coe_lt_coe.symm
      cases d with
      | forward => exact Mean.lt_iff hm hn
      | backward => exact (Mean.lt_iff hn hm).trans neg_lt_neg_iff.symm

/-- Where a landmark stands: numbers decide between averages that stand at the same place. -/
def Stop.key (d : Direction) (x : Stop) : WithTop ℚ ×ₗ ℕ := toLex (place d x.mean, x.id)

theorem Stop.precedes_iff (hx : x.IsCounted) (hy : y.IsCounted) : x.precedes d y = true ↔ x.key d < y.key d := by
  rw [precedes, Bool.or_eq_true, Bool.and_eq_true, Bool.not_eq_true', ← Bool.not_eq_true, isSooner_iff hx hy,
    isSooner_iff hy hx, decide_eq_true_eq, key, key, Prod.Lex.toLex_lt_toLex]
  constructor
  · rintro (hlt | ⟨hle, hid⟩)
    · exact .inl hlt
    · exact (not_lt.1 hle).lt_or_eq.imp_right fun heq => ⟨heq, hid⟩
  · rintro (hlt | ⟨heq, hid⟩)
    · exact .inl hlt
    · exact .inr ⟨not_lt.2 heq.le, hid⟩

/-- The landmark to take up first stands below all others. -/
theorem Stop.key_le_of_first? (hcounted : ∀ x ∈ xs, x.IsCounted) (h : first? d xs = some stop) :
    ∀ x ∈ xs, stop.key d ≤ x.key d := by
  induction xs generalizing stop with
  | nil => cases h
  | cons x rest ih =>
    obtain ⟨hx, hrest⟩ := List.forall_mem_cons.1 hcounted
    unfold first? at h
    split at h
    · rename_i hnone
      obtain rfl := Option.some.inj h
      obtain rfl := first?_eq_none hnone
      exact List.forall_mem_singleton.2 le_rfl
    · rename_i y hy
      have hle := ih hrest hy
      have hprecedes := precedes_iff (d := d) (hrest y (mem_of_first? hy)) hx
      split at h
      · rename_i hlt
        obtain rfl := Option.some.inj h
        exact List.forall_mem_cons.2 ⟨(hprecedes.1 hlt).le, hle⟩
      · rename_i hnot
        obtain rfl := Option.some.inj h
        have hxy : x.key d ≤ y.key d := not_lt.1 fun hlt => hnot (hprecedes.2 hlt)
        exact List.forall_mem_cons.2 ⟨le_rfl, fun z hz => hxy.trans (hle z hz)⟩

/-- **The landmark to take up first does not depend on the order** in which landmarks are listed. -/
theorem Stop.first?_eq_of_perm (hperm : ys.Perm xs) (hnodup : (xs.map (·.id)).Nodup)
    (hcounted : ∀ x ∈ xs, x.IsCounted) : first? d ys = first? d xs := by
  have hcounted' : ∀ x ∈ ys, x.IsCounted := fun x hx => hcounted x (hperm.mem_iff.1 hx)
  cases hfirst : first? d xs with
  | none =>
    obtain rfl := first?_eq_none hfirst
    rw [hperm.eq_nil]
    rfl
  | some x =>
    cases hfirst' : first? d ys with
    | none =>
      obtain rfl := first?_eq_none hfirst'
      rw [hperm.symm.eq_nil] at hfirst
      cases hfirst
    | some y =>
      have hx : x ∈ xs := mem_of_first? hfirst
      have hy : y ∈ xs := hperm.mem_iff.1 (mem_of_first? hfirst')
      have hkey : y.key d = x.key d := le_antisymm (key_le_of_first? hcounted' hfirst' x (hperm.mem_iff.2 hx))
        (key_le_of_first? hcounted hfirst y hy)
      have hid : y.id = x.id := (Prod.mk.inj hkey).2
      rw [List.inj_on_of_nodup_map hnodup hy hx hid]

/-! ## Sweeps -/

/-- What may come next is what is left and owed nothing. -/
theorem Sweep.Settled.ready_eq {owed : Nat → Nat} (h : s.Settled owed) :
    s.left.filter (fun x => owed x.id = 0) = s.ready := by
  have hwaiting : (s.waiting.map (·.1)).filter (fun x => owed x.id = 0) = [] := by
    refine List.filter_eq_nil_iff.2 (List.forall_mem_map.2 fun x hx hzero => ?_)
    obtain ⟨heq, hne⟩ := h.owes x hx
    exact hne (heq.trans (of_decide_eq_true hzero))
  rw [left, List.filter_append, hwaiting, List.append_nil]
  exact List.filter_eq_self.2 fun x hx => decide_eq_true (h.ready x hx)

/-- What is owed does not depend on the order of the arrows. -/
theorem owed_eq_of_perm (h : links'.Perm links) : owed links' = owed links :=
  funext fun _ => funext fun _ => h.countP_eq _

/-- Two sweeps keep the same landmarks, in any order. -/
structure Sweep.Same (s s' : Sweep) : Prop where
  ready : s'.ready.Perm s.ready
  waiting : s'.waiting.Perm s.waiting

theorem Sweep.Same.left (h : s.Same s') : s'.left.Perm s.left := h.ready.append (h.waiting.map _)

/-- The averages of all landmarks that are left are over some positions. -/
def Sweep.IsCounted (s : Sweep) : Prop := ∀ x ∈ s.left, x.IsCounted

theorem Sweep.IsCounted.take (h : s.IsCounted) (hstop : stop ∈ s.ready) : (s.take links stop).IsCounted :=
  fun x hx => h x ((left_take links hstop).mem_iff.1 (List.mem_cons_of_mem _ hx))

namespace Sweep.Underway

variable (h : s.Underway links taken)
include h

/-- A sweep of the same landmarks has come as far. -/
theorem of_same (hsame : s.Same s') : s'.Underway links taken where
  settled := ⟨fun x hx => h.settled.owes x (hsame.waiting.mem_iff.1 hx),
    fun x hx => h.settled.ready x (hsame.ready.mem_iff.1 hx)⟩
  nodup := (hsame.left.map _).nodup_iff.2 h.nodup
  isNew x hx := h.isNew x (hsame.left.mem_iff.1 hx)

/-- Sweeps with the same landmarks left take up the same one next. -/
theorem first?_eq (hcounted : s.IsCounted) (hlinks : links'.Perm links) (h' : s'.Underway links' taken)
    (hleft : s'.left.Perm s.left) : Stop.first? d s'.ready = Stop.first? d s.ready := by
  have hready : s'.ready.Perm s.ready := by
    rw [← h.settled.ready_eq, ← h'.settled.ready_eq, owed_eq_of_perm hlinks]
    exact hleft.filter _
  have hsublist : s.ready.Sublist s.left := List.sublist_append_left _ _
  exact Stop.first?_eq_of_perm hready (h.nodup.sublist (hsublist.map _)) fun x hx => hcounted x (hsublist.subset hx)

/-- **Sweeps of the same landmarks take them up in the same order.** -/
theorem run_eq_of_perm (hcounted : s.IsCounted) (hlinks : links'.Perm links) (h' : s'.Underway links' taken)
    (hleft : s'.left.Perm s.left) (steps : Nat) : Sweep.run d links' steps s' = Sweep.run d links steps s := by
  induction steps generalizing s s' taken with
  | zero => rfl
  | succ steps ih =>
    have hnext := h.first?_eq (d := d) hcounted hlinks h' hleft
    unfold Sweep.run
    rw [hnext]
    split
    · rfl
    · rename_i stop hfirst
      have hstop := Stop.mem_of_first? hfirst
      have hstop' := Stop.mem_of_first? (hnext.trans hfirst)
      have hrest := ((left_take links' hstop').trans (hleft.trans (left_take links hstop).symm)).cons_inv
      exact congrArg _ (ih (h.take hstop) (hcounted.take hstop) (h'.take hstop') hrest)

end Sweep.Underway

/-- A sweep that keeps its landmarks in any order, and in another one after every step: the landmarks that it takes
up until none may come next. -/
inductive Sweep.Visits (d : Direction) (links : List (Nat × Nat)) : Sweep → List Nat → Prop
  | stop {s : Sweep} (hready : s.ready = []) : Sweep.Visits d links s []
  | next {s s' : Sweep} {stop : Stop} {ids : List Nat} (hsame : s.Same s')
      (hfirst : Stop.first? d s'.ready = some stop) (hrest : Sweep.Visits d links (s'.take links stop) ids) :
      Sweep.Visits d links s (stop.id :: ids)

/-- However a sweep keeps its landmarks, it takes them up in the order of the program. -/
theorem Sweep.Visits.eq_run {ids : List Nat} (hvisits : Sweep.Visits d links s ids) (h : s.Underway links taken)
    (hcounted : s.IsCounted) {steps : Nat} (hsteps : s.left.length ≤ steps) : ids = Sweep.run d links steps s := by
  induction hvisits generalizing taken steps with
  | stop hready => cases steps <;> simp [Sweep.run, hready, Stop.first?]
  | @next s s' stop ids hsame hfirst hrest ih =>
    have h' := h.of_same hsame
    have hcounted' : s'.IsCounted := fun x hx => hcounted x (hsame.left.mem_iff.1 hx)
    have hstop := Stop.mem_of_first? hfirst
    have hlength := (left_take links hstop).length_eq
    rw [List.length_cons, hsame.left.length_eq] at hlength
    obtain ⟨rest, rfl⟩ : ∃ rest, steps = rest + 1 := Nat.exists_eq_add_of_le' (by omega)
    rw [← h.run_eq_of_perm hcounted (.refl links) h' hsame.left, Sweep.run, hfirst]
    exact congrArg _ (ih (h'.take hstop) (hcounted'.take hstop) (by omega))

/-- The program takes up landmarks until none may come next. -/
theorem Sweep.visits_run {steps : Nat} (hsteps : s.left.length ≤ steps) :
    Sweep.Visits d links s (Sweep.run d links steps s) := by
  induction steps generalizing s with
  | zero =>
    have hleft : s.left = [] := List.length_eq_zero_iff.1 (Nat.le_zero.1 hsteps)
    exact .stop (List.append_eq_nil_iff.1 hleft).1
  | succ steps ih =>
    unfold Sweep.run
    split
    · rename_i hnone
      exact .stop (Stop.first?_eq_none hnone)
    · rename_i stop hfirst
      have hlength := (left_take links (Stop.mem_of_first? hfirst)).length_eq
      rw [List.length_cons] at hlength
      exact .next ⟨.refl _, .refl _⟩ hfirst (ih (by omega))

/-! ## Traversals -/

variable {κ : Type} {c c' : Context κ} {live live' : List Nat}

theorem Context.isCounted_of_mem_stops (hx : x ∈ c.stops live) : x.IsCounted := by
  obtain ⟨id, -, rfl⟩ := List.mem_map.1 hx
  intro m hm
  have hm : c.mean? live id = some m := hm
  unfold mean? at hm
  split at hm
  · cases hm
  · rename_i positions hnil
    obtain rfl := Option.some.inj hm
    exact fun hzero => hnil (List.length_eq_zero_iff.1 hzero)

theorem Context.isCounted_start (c : Context κ) (live : List Nat) (links : List (Nat × Nat)) :
    (Sweep.start links (c.stops live)).IsCounted :=
  fun _ hx => isCounted_of_mem_stops ((left_start links (c.stops live)).mem_iff.1 hx)

/-- **A traversal has one outcome**, in whichever order its sweep keeps the landmarks. -/
theorem Context.visits_iff (hvalid : c.graph.validate = .ok ()) {ids : List Nat} :
    Sweep.Visits d (arrows d c.graph) (.start (arrows d c.graph) (c.stops live)) ids ↔ ids = c.traversal live d := by
  have hsteps := (left_start (arrows d c.graph) (c.stops live)).length_eq.le
  constructor
  · exact fun hvisits => hvisits.eq_run (underway_start hvalid live _) (c.isCounted_start live _) hsteps
  · rintro rfl
    exact Sweep.visits_run hsteps

theorem arrows_perm {g g' : Landmark.Graph} (h : g.Alike g') (d : Direction) : (arrows d g').Perm (arrows d g) := by
  refine (List.perm_ext_iff_of_nodup (nodup_eraseDups _) (nodup_eraseDups _)).2 fun a => ?_
  exact mem_arrows.trans ((exists_congr fun o => and_congr_left' (h.orders o)).trans mem_arrows.symm)

/-- **A traversal depends only on what the graph lists**, and on the averages. -/
theorem Context.traversal_eq_of_alike (hvalid : c.graph.validate = .ok ()) (h : c.graph.Alike c'.graph)
    (hmean : ∀ id, c'.mean? live' id = c.mean? live id) (d : Direction) :
    c'.traversal live' d = c.traversal live d := by
  have hstops : (c'.stops live').Perm (c.stops live) := by
    unfold stops
    simp only [hmean]
    exact h.ids_perm.map _
  have hleft := (left_start (arrows d c'.graph) (c'.stops live')).trans
    (hstops.trans (left_start (arrows d c.graph) (c.stops live)).symm)
  rw [traversal_eq, traversal_eq, hstops.length_eq]
  exact (underway_start hvalid live _).run_eq_of_perm (c.isCounted_start live _) (arrows_perm h d)
    (underway_start (h.validate_iff.2 hvalid) live' _) hleft _

end Waymark.View
