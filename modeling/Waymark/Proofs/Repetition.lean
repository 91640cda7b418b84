import Mathlib.Data.List.Destutter
import Mathlib.Tactic

/-!
# Lists without repetitions

What is left of a list when of equal neighbours only one is kept. A list in ascending order is then in
strictly ascending order.

* `mem_eraseReps`: nothing is lost;
* `pairwise_lt_eraseReps`: nothing stands twice if the list is in ascending order;
* `nodup_eraseDups`: nothing stands twice if only the first of equal members is kept;
* `filter_eraseDups`, `map_eraseDups`, `head?_eraseDups`: what is done to a list and to what is left of it;
* `find?_eq_some_of_nodup`: what is found by a key that nothing else has;
* `two_le_length`, `exists_ne_of_two_le_length`: lists with two different members;
* `exists_places_of_perm`: where the members of a list stand in another order of it.
-/

namespace Waymark

variable {α : Type} [BEq α] [LawfulBEq α] {xs : List α} {x : α}

theorem mem_eraseReps : x ∈ xs.eraseReps ↔ x ∈ xs := by
  have hloop (a : α) (as acc : List α) :
      x ∈ List.eraseRepsBy.loop (· == ·) a as acc ↔ x ∈ a :: as ∨ x ∈ acc := by
    induction as generalizing a acc with
    | nil =>
      rw [List.eraseRepsBy.loop, List.mem_reverse, List.mem_cons, List.mem_singleton]
    | cons b as ih =>
      rw [List.eraseRepsBy.loop]
      split
      · rename_i hab
        obtain rfl := eq_of_beq hab
        rw [ih, List.mem_cons, List.mem_cons, List.mem_cons, or_self_left]
      · rw [ih, List.mem_cons (l := b :: as), List.mem_cons (l := acc)]
        tauto
  cases xs with
  | nil => rfl
  | cons a as =>
    refine (hloop a as []).trans ?_
    rw [or_iff_left List.not_mem_nil]

/-- Of equal neighbours the last one is kept, which is as good as the first. -/
theorem eraseReps_eq_destutter [DecidableEq α] (xs : List α) : xs.eraseReps = xs.destutter (· ≠ ·) := by
  have hloop (a : α) (as acc : List α) :
      List.eraseRepsBy.loop (· == ·) a as acc = acc.reverse ++ as.destutter' (· ≠ ·) a := by
    induction as generalizing a acc with
    | nil => simp [List.eraseRepsBy.loop]
    | cons b as ih =>
      rw [List.eraseRepsBy.loop]
      by_cases hab : a = b
      · subst hab
        simp [ih]
      · have hbeq : (a == b) = false := beq_false_of_ne hab
        rw [hbeq]
        simp [hab, ih]
  cases xs with
  | nil => rfl
  | cons a as => exact hloop a as []

theorem pairwise_lt_eraseReps [LinearOrder α] (h : xs.Pairwise (· ≤ ·)) : xs.eraseReps.Pairwise (· < ·) := by
  rw [eraseReps_eq_destutter]
  have hle : (xs.destutter (· ≠ ·)).IsChain (· ≤ ·) := (h.sublist (List.destutter_sublist _ xs)).isChain
  have hne : (xs.destutter (· ≠ ·)).IsChain (· ≠ ·) := List.isChain_destutter _ xs
  rw [List.isChain_iff_forall_rel_of_append_cons_cons] at hle hne
  have hlt : (xs.destutter (· ≠ ·)).IsChain (· < ·) := by
    rw [List.isChain_iff_forall_rel_of_append_cons_cons]
    intro a b l₁ l₂ heq
    exact lt_of_le_of_ne (hle heq) (hne heq)
  exact hlt.pairwise

theorem nodup_eraseDups (xs : List α) : xs.eraseDups.Nodup := by
  induction xs using List.reverseRecOn with
  | nil => exact List.nodup_nil
  | append_singleton xs x ih =>
    rw [List.eraseDups_append]
    by_cases hx : x ∈ xs
    · simpa [List.removeAll, hx] using ih
    · have hnew : [x].removeAll xs = [x] := by simp [List.removeAll, hx]
      rw [hnew, List.nodup_append']
      exact ⟨ih, List.nodup_singleton x, List.disjoint_singleton.2 fun hmem => hx (List.mem_eraseDups.1 hmem)⟩

/-- A filter keeps all of some equal members or none. -/
theorem filter_eraseDups (p : α → Bool) (xs : List α) : xs.eraseDups.filter p = (xs.filter p).eraseDups := by
  induction xs using List.reverseRecOn with
  | nil => rfl
  | append_singleton xs x ih =>
    rw [List.eraseDups_append, List.filter_append, ih, List.filter_append]
    by_cases hp : p x = true
    · rw [List.filter_cons_of_pos hp, List.filter_nil, List.eraseDups_append]
      by_cases hx : x ∈ xs
      · simp [List.removeAll, hx, hp]
      · simp [List.removeAll, hx, hp]
    · have hnone : ([x].removeAll xs).eraseDups.filter p = [] := by
        rw [List.filter_eq_nil_iff]
        intro y hy
        rw [List.mem_singleton.1 (List.mem_filter.1 (List.mem_eraseDups.1 hy)).1]
        exact hp
      rw [List.filter_cons_of_neg hp, List.filter_nil, List.append_nil, hnone, List.append_nil]

/-- If different members are mapped to different ones, the same of them are equal. -/
theorem map_eraseDups {β : Type} [BEq β] [LawfulBEq β] {f : α → β} {xs : List α}
    (hf : ∀ x ∈ xs, ∀ y ∈ xs, f x = f y → x = y) : xs.eraseDups.map f = (xs.map f).eraseDups := by
  induction xs using List.reverseRecOn with
  | nil => rfl
  | append_singleton xs x ih =>
    have hbefore : ∀ y ∈ xs, ∀ z ∈ xs, f y = f z → y = z := fun y hy z hz =>
      hf y (List.mem_append_left _ hy) z (List.mem_append_left _ hz)
    have hmem : f x ∈ xs.map f ↔ x ∈ xs := by
      constructor
      · intro h
        obtain ⟨y, hy, heq⟩ := List.mem_map.1 h
        exact hf y (List.mem_append_left _ hy) x (by simp) heq ▸ hy
      · exact List.mem_map_of_mem
    rw [List.eraseDups_append, List.map_append, ih hbefore, List.map_append, List.eraseDups_append]
    by_cases hx : x ∈ xs
    · simp [List.removeAll, hx, hmem.2 hx]
    · simp [List.removeAll, hx, mt hmem.1 hx, List.eraseDups_cons]

omit [LawfulBEq α] in
theorem head?_eraseDups (xs : List α) : xs.eraseDups.head? = xs.head? := by
  cases xs with
  | nil => rfl
  | cons x xs => rw [List.eraseDups_cons, List.head?_cons, List.head?_cons]

omit [BEq α] [LawfulBEq α] in
/-- What is found by a key is what has it, if no key stands twice. -/
theorem find?_eq_some_of_nodup {β : Type} [DecidableEq β] {f : α → β} {k : β} (hnodup : (xs.map f).Nodup) :
    xs.find? (fun y => f y = k) = some x ↔ x ∈ xs ∧ f x = k := by
  have hkey {y : α} (hy : xs.find? (fun y => f y = k) = some y) : f y = k := by simpa using List.find?_some hy
  constructor
  · exact fun h => ⟨List.mem_of_find?_eq_some h, hkey h⟩
  · rintro ⟨hx, rfl⟩
    cases hfind : xs.find? (fun y => f y = f x) with
    | none => exact absurd (decide_eq_true rfl) (List.find?_eq_none.1 hfind x hx)
    | some y => rw [List.inj_on_of_nodup_map hnodup (List.mem_of_find?_eq_some hfind) hx (hkey hfind)]

omit [BEq α] [LawfulBEq α] in
/-- A list with two different members is longer than one. -/
theorem two_le_length {y : α} (hx : x ∈ xs) (hy : y ∈ xs) (hne : x ≠ y) : 2 ≤ xs.length := by
  have hpair : [x, y].Nodup := by simpa using hne
  have hsubset : [x, y] ⊆ xs := List.cons_subset.2 ⟨hx, List.cons_subset.2 ⟨hy, List.nil_subset _⟩⟩
  exact (List.subperm_of_subset hpair hsubset).length_le

omit [BEq α] [LawfulBEq α] in
/-- A list without repetitions that is longer than one has two different members. -/
theorem exists_ne_of_two_le_length (hnodup : xs.Nodup) (h : 2 ≤ xs.length) : ∃ x ∈ xs, ∃ y ∈ xs, x ≠ y := by
  refine ⟨_, List.getElem_mem (n := 0) (by omega), _, List.getElem_mem (n := 1) (by omega), fun heq => ?_⟩
  cases (List.Nodup.getElem_inj_iff hnodup).1 heq

omit [BEq α] [LawfulBEq α] in
/-- The members of a list without repetitions stand at other places in another order of the list. -/
theorem exists_places_of_perm {ys : List α} (hperm : ys.Perm xs) (hnodup : xs.Nodup) : ∃ old : Nat → Nat,
    (∀ i < ys.length, ys[i]? = xs[old i]?) ∧ ((List.range ys.length).map old).Perm (List.range xs.length) := by
  have hplace (i : Nat) : ∃ j : Nat, i < ys.length → ys[i]? = xs[j]? := by
    by_cases hi : i < ys.length
    · obtain ⟨j, hj, heq⟩ := List.mem_iff_getElem.1 (hperm.mem_iff.1 (List.getElem_mem hi))
      exact ⟨j, fun _ => by rw [List.getElem?_eq_getElem hi, List.getElem?_eq_getElem hj, heq]⟩
    · exact ⟨0, fun h => absurd h hi⟩
  choose old hold using hplace
  refine ⟨old, hold, ?_⟩
  have hinjective : ((List.range ys.length).map old).Nodup := by
    refine List.nodup_range.map_on fun i hi j hj heq => ?_
    have hi := List.mem_range.1 hi
    refine (List.getElem?_inj hi (hperm.nodup_iff.2 hnodup)).1 ?_
    rw [hold i hi, hold j (List.mem_range.1 hj), heq]
  have hrange : (List.range ys.length).map old ⊆ List.range xs.length := by
    refine List.forall_mem_map.2 fun i hi => List.mem_range.2 ?_
    have hi := List.mem_range.1 hi
    obtain ⟨hlt, -⟩ := List.getElem?_eq_some_iff.1 ((hold i hi).symm.trans (List.getElem?_eq_getElem hi))
    exact hlt
  refine (List.subperm_of_subset hinjective hrange).perm_of_length_le ?_
  rw [List.length_map, List.length_range, List.length_range, hperm.length_eq]

end Waymark
