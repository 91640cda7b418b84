import Mathlib.Algebra.Order.Floor.Div
import Mathlib.Data.Finset.Powerset
import Mathlib.Order.Basic
import Mathlib.Tactic
import Waymark.Ground.State

/-!
# States are finite sets

A bit set behaves as the set of the facts that it contains, up to the last bit of its last word. A state that starts
empty and changes fact by fact contains the facts whose last change was an insertion, and nothing else remains of its
history: a search meets a state again just if it meets its facts again.

* `contains_insert`, `contains_erase`: one equation for each operation;
* `contains_insertAll`, `contains_eraseAll`: the same for lists of facts;
* `State.ext_contains`: two states of one size that contain the same facts are equal;
* `State.length_le_of_nodup`: there are finitely many states of one size;
* `State.after`, `State.contains_after`: states with a history, and what they contain;
* `State.state_is_set_of_facts`: all that a state is.
-/

namespace Waymark.Ground

namespace State

/-! ## Words -/

/-- Bit `i` of a word is set. -/
def hasBit (word : UInt64) (i : Nat) : Bool := word.toBitVec.getLsbD i

theorem toBitVec_bit (fact : Nat) : (bit fact).toBitVec = BitVec.twoPow 64 (fact % 64) := by
  have h : fact % 64 < 64 := Nat.mod_lt _ (by decide)
  have hmod : (fact % 64).toUInt64.toBitVec.toNat = fact % 64 := by
    simp [Nat.toUInt64]
    omega
  rw [bit, UInt64.toBitVec_shiftLeft, BitVec.twoPow_eq]
  apply BitVec.eq_of_toNat_eq
  simp only [BitVec.shiftLeft_eq', BitVec.toNat_umod, hmod]
  simp [Nat.mod_eq_of_lt h]

theorem getLsbD_bit (fact i : Nat) : (bit fact).toBitVec.getLsbD i = decide (i = fact % 64) := by
  have h : fact % 64 < 64 := Nat.mod_lt _ (by decide)
  rw [toBitVec_bit, BitVec.getLsbD_twoPow]
  by_cases hi : fact % 64 = i
  · simp [hi]
    omega
  · simp [hi, Ne.symm hi]

theorem and_bit_ne_zero (word : UInt64) (fact : Nat) :
    (word &&& bit fact != 0) = hasBit word (fact % 64) := by
  have h : fact % 64 < 64 := Nat.mod_lt _ (by decide)
  have hz : (word &&& bit fact = 0) ↔ hasBit word (fact % 64) = false := by
    rw [← UInt64.toBitVec_inj, UInt64.toBitVec_and, toBitVec_bit, BitVec.and_twoPow, hasBit]
    by_cases hb : word.toBitVec.getLsbD (fact % 64)
    · have hne : BitVec.twoPow 64 (fact % 64) ≠ 0#64 := fun h0 => by
        have := congrArg (fun x => x.getLsbD (fact % 64)) h0
        simp [h] at this
      simp [hb, hne]
    · simp [hb]
  by_cases hb : hasBit word (fact % 64)
  · simp [hb, hz]
  · simp [hb, hz]

theorem hasBit_or_bit (word : UInt64) (fact i : Nat) :
    hasBit (word ||| bit fact) i = (hasBit word i || decide (i = fact % 64)) := by
  simp [hasBit, getLsbD_bit]

theorem hasBit_and_not_bit (word : UInt64) (fact i : Nat) :
    hasBit (word &&& ~~~ bit fact) i = (hasBit word i && !decide (i = fact % 64)) := by
  by_cases hi : i < 64
  · have hbit := getLsbD_bit fact i
    rw [BitVec.getLsbD_eq_getElem hi] at hbit
    simp [hasBit, hi, hbit]
  · simp [hasBit, BitVec.getLsbD_of_ge, Nat.le_of_not_lt hi]

theorem word_ext {v w : UInt64} (h : ∀ i, i < 64 → hasBit v i = hasBit w i) : v = w := by
  rw [← UInt64.toBitVec_inj]
  exact BitVec.eq_of_getLsbD_eq h

/-! ## Operations -/

theorem contains_eq (s : State) (fact : Nat) :
    s.contains fact = (s.words[fact / 64]?.any (hasBit · (fact % 64))) := by
  unfold contains
  cases s.words[fact / 64]? with
  | none => rfl
  | some word => simp [and_bit_ne_zero]

@[simp] theorem size_insert (s : State) (fact : Nat) :
    (s.insert fact).words.size = s.words.size := by simp [insert]

@[simp] theorem size_erase (s : State) (fact : Nat) :
    (s.erase fact).words.size = s.words.size := by simp [erase]

@[simp] theorem size_empty (n : Nat) : (empty n).words.size = (n + 63) / 64 := by simp [empty]

/-- Two facts are the same bit of the same word only if they are one fact. -/
private theorem eq_of_div_of_mod {f g : Nat} (hd : f / 64 = g / 64) (hm : f % 64 = g % 64) :
    f = g := by
  rw [← Nat.div_add_mod f 64, ← Nat.div_add_mod g 64, hd, hm]

theorem contains_insert (s : State) (fact other : Nat) :
    (s.insert fact).contains other =
      (s.contains other || decide (other = fact ∧ other / 64 < s.words.size)) := by
  rw [contains_eq, contains_eq, insert, Array.getElem?_modify]
  by_cases hd : fact / 64 = other / 64
  · rw [if_pos hd]
    cases hw : s.words[other / 64]? with
    | none =>
      have := Array.getElem?_eq_none_iff.1 hw
      simp
      omega
    | some w =>
      have hlt := (Array.getElem?_eq_some_iff.1 hw).1
      have hiff : other % 64 = fact % 64 ↔ other = fact :=
        ⟨fun hm => eq_of_div_of_mod hd.symm hm, fun he => by rw [he]⟩
      simp [hasBit_or_bit, hlt, hiff]
  · have hne : other ≠ fact := fun he => hd (by rw [he])
    simp [hd, hne]

theorem contains_erase (s : State) (fact other : Nat) :
    (s.erase fact).contains other = (s.contains other && !decide (other = fact)) := by
  rw [contains_eq, contains_eq, erase, Array.getElem?_modify]
  by_cases hd : fact / 64 = other / 64
  · rw [if_pos hd]
    have hiff : other % 64 = fact % 64 ↔ other = fact :=
      ⟨fun hm => eq_of_div_of_mod hd.symm hm, fun he => by rw [he]⟩
    cases hw : s.words[other / 64]? <;> simp [hasBit_and_not_bit, hiff]
  · have hne : other ≠ fact := fun he => hd (by rw [he])
    simp [hd, hne]

@[simp] theorem contains_empty (n fact : Nat) : (empty n).contains fact = false := by
  rw [contains_eq, empty, Array.getElem?_replicate]
  by_cases h : fact / 64 < (n + 63) / 64 <;> simp [h, hasBit]

/-! ## Lists of facts -/

@[simp] theorem size_insertAll (s : State) (facts : List Nat) :
    (facts.foldl insert s).words.size = s.words.size := by
  induction facts generalizing s with
  | nil => rfl
  | cons f facts ih => rw [List.foldl_cons, ih, size_insert]

@[simp] theorem size_eraseAll (s : State) (facts : List Nat) :
    (facts.foldl erase s).words.size = s.words.size := by
  induction facts generalizing s with
  | nil => rfl
  | cons f facts ih => rw [List.foldl_cons, ih, size_erase]

theorem contains_insertAll (s : State) (facts : List Nat) (fact : Nat) :
    (facts.foldl insert s).contains fact = true ↔
      s.contains fact = true ∨ fact ∈ facts ∧ fact / 64 < s.words.size := by
  induction facts generalizing s with
  | nil => simp
  | cons f facts ih =>
    rw [List.foldl_cons, ih, contains_insert, size_insert]
    simp only [Bool.or_eq_true, decide_eq_true_eq, List.mem_cons]
    tauto

theorem contains_eraseAll (s : State) (facts : List Nat) (fact : Nat) :
    (facts.foldl erase s).contains fact = true ↔ s.contains fact = true ∧ fact ∉ facts := by
  induction facts generalizing s with
  | nil => simp
  | cons f facts ih =>
    rw [List.foldl_cons, ih, contains_erase]
    simp only [Bool.and_eq_true, Bool.not_eq_true', decide_eq_false_iff_not, List.mem_cons]
    tauto

theorem containsAll_iff {s : State} {facts : List Nat} :
    s.containsAll facts = true ↔ ∀ f ∈ facts, s.contains f = true := by
  simp [containsAll]

theorem containsNone_iff {s : State} {facts : List Nat} :
    s.containsNone facts = true ↔ ∀ f ∈ facts, s.contains f = false := by
  simp [containsNone]

/-! ## Extensionality -/

/-- Two states of one size that contain the same facts are equal. -/
theorem ext_contains {s s' : State} (hsize : s.words.size = s'.words.size)
    (h : ∀ f, s.contains f = s'.contains f) : s = s' := by
  obtain ⟨words⟩ := s
  obtain ⟨words'⟩ := s'
  congr 1
  refine Array.ext hsize fun k hk hk' => word_ext fun i hi => ?_
  have hd : (64 * k + i) / 64 = k := by omega
  have hm : (64 * k + i) % 64 = i := by omega
  have := h (64 * k + i)
  rw [contains_eq, contains_eq, hd, hm] at this
  simpa [Array.getElem?_eq_getElem hk, Array.getElem?_eq_getElem hk'] using this

/-! ## Counting states -/

theorem lt_of_contains {s : State} {fact : Nat} (h : s.contains fact = true) :
    fact < 64 * s.words.size := by
  rw [contains_eq] at h
  cases hword : s.words[fact / 64]? with
  | none => simp [hword] at h
  | some word =>
    have hlt := (Array.getElem?_eq_some_iff.1 hword).1
    omega

/-- The facts that a state with `size` words contains. -/
def held (size : Nat) (s : State) : Finset Nat := (Finset.range (64 * size)).filter (s.contains ·)

theorem held_inj {size : Nat} {s s' : State} (hs : s.words.size = size) (hs' : s'.words.size = size)
    (h : s.held size = s'.held size) : s = s' := by
  have hmem {x : State} (hx : x.words.size = size) (f : Nat) : f ∈ x.held size ↔ x.contains f = true := by
    rw [held, Finset.mem_filter, Finset.mem_range]
    exact and_iff_right_of_imp fun hf => hx ▸ lt_of_contains hf
  refine ext_contains (hs.trans hs'.symm) fun f => ?_
  rw [Bool.eq_iff_iff, ← hmem hs, ← hmem hs', h]

/-- States of one size are determined by the facts that they contain, so there are only so many. -/
theorem length_le_of_nodup {size : Nat} {ss : List State} (hnodup : ss.Nodup)
    (hsize : ∀ s ∈ ss, s.words.size = size) : ss.length ≤ 2 ^ (64 * size) := by
  have hheld : (ss.map (held size)).Nodup :=
    hnodup.map_on fun s hs s' hs' h => held_inj (hsize s hs) (hsize s' hs') h
  have hsub : (ss.map (held size)).toFinset ⊆ (Finset.range (64 * size)).powerset := by
    intro x hx
    obtain ⟨s, -, rfl⟩ := List.mem_map.1 (List.mem_toFinset.1 hx)
    exact Finset.mem_powerset.2 (Finset.filter_subset ..)
  calc ss.length = (ss.map (held size)).toFinset.card := by
        rw [List.toFinset_card_of_nodup hheld, List.length_map]
    _ ≤ (Finset.range (64 * size)).powerset.card := Finset.card_le_card hsub
    _ = 2 ^ (64 * size) := by rw [Finset.card_powerset, Finset.card_range]

/-! ## Histories -/

/-- A change of one fact. -/
inductive Change where
  | insert (fact : Nat)
  | erase (fact : Nat)
  deriving DecidableEq, Repr

/-- The fact that changes. -/
def Change.fact : Change → Nat
  | .insert fact => fact
  | .erase fact => fact

/-- The state after a change. -/
def changed (s : State) : Change → State
  | .insert fact => s.insert fact
  | .erase fact => s.erase fact

/-- The state for `factCount` facts after changes. In the beginning nothing holds. -/
def after (factCount : Nat) (changes : List Change) : State := changes.foldl changed (empty factCount)

/-- The last change of a fact. -/
def lastChange? (changes : List Change) (fact : Nat) : Option Change :=
  (changes.filter (·.fact = fact)).getLast?

@[simp] theorem size_changed (s : State) (c : Change) : (s.changed c).words.size = s.words.size := by
  cases c with
  | insert fact => exact size_insert s fact
  | erase fact => exact size_erase s fact

/-- A change decides about its own fact, if there is room for it, and leaves all others. -/
theorem contains_changed (s : State) (c : Change) (fact : Nat) : (s.changed c).contains fact =
    if c.fact = fact then decide (c = .insert fact ∧ fact < 64 * s.words.size) else s.contains fact := by
  cases c with
  | insert f =>
    have hroom : fact / 64 < s.words.size ↔ fact < 64 * s.words.size := by omega
    rw [changed, contains_insert, Change.fact]
    by_cases hf : f = fact
    · cases hs : s.contains fact with
      | false => simp [hf, hroom]
      | true => simp [hf, lt_of_contains hs]
    · simp [hf, Ne.symm hf]
  | erase f =>
    rw [changed, contains_erase, Change.fact]
    by_cases hf : f = fact
    · simp [hf]
    · simp [hf, Ne.symm hf]

theorem after_concat (factCount : Nat) (changes : List Change) (c : Change) :
    after factCount (changes ++ [c]) = (after factCount changes).changed c := by
  rw [after, List.foldl_concat, after]

@[simp] theorem size_after (factCount : Nat) (changes : List Change) :
    (after factCount changes).words.size = factCount ⌈/⌉ 64 := by
  induction changes using List.reverseRecOn with
  | nil => rw [after, List.foldl_nil, size_empty, Nat.ceilDiv_eq_add_pred_div, Nat.add_sub_assoc (by decide)]
  | append_singleton changes c ih => rw [after_concat, size_changed, ih]

theorem lastChange?_concat (changes : List Change) (c : Change) (fact : Nat) :
    lastChange? (changes ++ [c]) fact = if c.fact = fact then some c else lastChange? changes fact := by
  unfold lastChange?
  rw [List.filter_append]
  by_cases h : c.fact = fact
  · simp [h]
  · simp [h]

/-- A state contains the facts that were inserted last, up to the last bit of its last word. -/
theorem contains_after (factCount : Nat) (changes : List Change) (fact : Nat) :
    (after factCount changes).contains fact = true ↔
      fact < 64 * (factCount ⌈/⌉ 64) ∧ lastChange? changes fact = some (.insert fact) := by
  induction changes using List.reverseRecOn with
  | nil => simp [after, lastChange?]
  | append_singleton changes c ih =>
    rw [after_concat, contains_changed, lastChange?_concat, size_after]
    split
    · rw [decide_eq_true_eq, Option.some_inj, and_comm]
    · exact ih

/-- Histories do not matter beyond the facts that they leave. -/
theorem after_eq_iff {factCount : Nat} {changes changes' : List Change} :
    after factCount changes = after factCount changes' ↔
      ∀ fact, (after factCount changes).contains fact = (after factCount changes').contains fact := by
  constructor
  · exact fun h fact => congrArg (contains · fact) h
  · exact ext_contains ((size_after ..).trans (size_after ..).symm)

/-- **A state is a finite set of facts.** After any changes it contains the facts that it has room for and whose last
change was an insertion. Two states for the same number of facts are equal just if they contain the same facts, and so
a state is found among others just if one of them contains the same facts. -/
theorem state_is_set_of_facts (factCount : Nat) :
    (∀ changes fact, (after factCount changes).contains fact = true ↔
      fact < 64 * (factCount ⌈/⌉ 64) ∧ lastChange? changes fact = some (.insert fact)) ∧
    (∀ changes changes', after factCount changes = after factCount changes' ↔
      ∀ fact, (after factCount changes).contains fact = (after factCount changes').contains fact) ∧
    ∀ (histories : List (List Change)) changes,
      (histories.map (after factCount)).contains (after factCount changes) = true ↔ ∃ changes' ∈ histories, ∀ fact,
        (after factCount changes').contains fact = (after factCount changes).contains fact := by
  refine ⟨contains_after factCount, fun _ _ => after_eq_iff, fun histories changes => ?_⟩
  rw [List.contains_iff_mem, List.mem_map]
  exact exists_congr fun changes' => and_congr_right fun _ => after_eq_iff

/-- Insertions at both ends of a word, one beyond the last word, and one that is taken back. -/
example : [0, 63, 64, 127, 128].filter (after 65
    [.insert 63, .insert 64, .insert 128, .insert 0, .erase 0]).contains = [63, 64] := by decide

end State

end Waymark.Ground
