import Waymark.Encoding.Pattern
import Waymark.Encoding.Tracker
import Waymark.Proofs.Planning.SchemaName

/-!
# Names of fluents

The fluents of monitors have names of their own: they begin with a stem and a hyphen, and tell the
formula and what the fluent is for.

* `Fluent`: a name that begins with a stem and a hyphen;
* `stem_eq_of_fluent`, `isTaken_fluentStem`: a name has one stem at most, and a domain has one that is free;
* `atomName_ne`: an atom of another predicate is not the atom of a fluent;
* `trackName_injective`, `memoryName_injective`: different fluents have different names.
-/

namespace Waymark.Encoding

open Planning Constraint Ground

/-! ## Stems -/

/-- The name begins with the stem and a hyphen. -/
def Fluent (stem name : String) : Prop := (stem ++ "-").toList <+: name.toList

instance (stem name : String) : Decidable (Fluent stem name) :=
  inferInstanceAs (Decidable (_ <+: _))

theorem exists_fluentStem_eq (domain : Domain) : ∃ i, fluentStem domain = stem i := by
  unfold fluentStem
  cases h : ((List.range (domain.predicates.length + 1)).map stem).find?
      (fun s => !isTaken domain s) with
  | none => exact ⟨_, rfl⟩
  | some s =>
    obtain ⟨i, -, rfl⟩ := List.mem_map.1 (List.mem_of_find?_eq_some h)
    exact ⟨i, rfl⟩

theorem isDigit_of_mem_toString {n : Nat} {c : Char} (h : c ∈ (toString n).toList) :
    c.isDigit = true := by
  rw [Nat.toString_eq_ofList_toDigits, String.toList_ofList] at h
  exact Nat.isDigit_of_mem_toDigits (by decide) (by decide) h

theorem toString_injective {m n : Nat} (h : (toString m).toList = (toString n).toList) : m = n := by
  rw [Nat.toString_eq_ofList_toDigits, Nat.toString_eq_ofList_toDigits, String.toList_ofList,
    String.toList_ofList] at h
  rw [← Nat.ofDigitChars_ten_toDigits (n := m), h, Nat.ofDigitChars_ten_toDigits]

theorem mem_stem {i : Nat} {c : Char} (h : c ∈ (stem i ++ "-").toList) :
    c = 'l' ∨ c = 't' ∨ c = '-' ∨ c.isDigit = true := by
  unfold stem at h
  split at h
  · simp at h
    tauto
  · rw [String.toList_append, String.toList_append, List.mem_append, List.mem_append] at h
    rcases h with (h | h) | h
    · simp at h
      tauto
    · exact .inr (.inr (.inr (isDigit_of_mem_toString h)))
    · simp at h
      tauto

theorem head_stem (i : Nat) : (stem i).toList.head? = some 'l' := by
  unfold stem
  split
  · decide
  · rw [String.toList_append]
    rfl

theorem hyphen_notMem_stem (i : Nat) : '-' ∉ (stem i).toList := by
  have hltl : '-' ∉ "ltl".toList := by decide
  unfold stem
  split
  · exact hltl
  · rw [String.toList_append, List.mem_append]
    rintro (h | h)
    · exact hltl h
    · exact absurd (isDigit_of_mem_toString h) (by decide)

theorem stem_injective : Function.Injective stem := by
  have hne {i : Nat} : (toString i).toList ≠ [] := by
    rw [Nat.toString_eq_ofList_toDigits, String.toList_ofList]
    exact List.ne_nil_of_length_pos Nat.length_toDigits_pos
  intro i j h
  have h := congrArg String.toList h
  unfold stem at h
  split at h <;> split at h
  · omega
  · rw [String.toList_append] at h
    exact absurd (List.self_eq_append_right.1 h) hne
  · rw [String.toList_append] at h
    exact absurd (List.append_right_eq_self.1 h) hne
  · rw [String.toList_append, String.toList_append] at h
    exact toString_injective (List.append_cancel_left h)

/-- The stem of a fluent ends at the first hyphen of its name. -/
theorem stem_eq_of_fluent {i j : Nat} {name : String} (hi : Fluent (stem i) name) (hj : Fluent (stem j) name) :
    i = j := by
  have hstem {i : Nat} (h : Fluent (stem i) name) : name.toList.takeWhile (· ≠ '-') = (stem i).toList := by
    obtain ⟨rest, hrest⟩ := h
    have hall : ∀ c ∈ (stem i).toList, decide (c ≠ '-') = true := by
      intro c hc
      exact decide_eq_true fun heq => hyphen_notMem_stem i (heq ▸ hc)
    rw [← hrest, String.toList_append, List.append_assoc, List.takeWhile_append_of_pos hall]
    exact List.append_nil _
  exact stem_injective (String.toList_inj.1 ((hstem hi).symm.trans (hstem hj)))

theorem ltl_prefix_of_fluent {i : Nat} {name : String} (h : Fluent (stem i) name) : "ltl".toList <+: name.toList := by
  refine List.IsPrefix.trans ?_ h
  unfold stem
  split
  · rw [String.toList_append]
    exact List.prefix_append _ _
  · rw [String.toList_append, String.toList_append, List.append_assoc]
    exact List.prefix_append _ _

theorem isTaken_iff {domain : Domain} {s : String} :
    isTaken domain s = true ↔ ∃ p ∈ domain.predicates, Fluent s p.name := by
  simp only [isTaken, List.any_eq_true, List.isPrefixOf_iff_prefix, Fluent]

/-- **The stem of a domain is not taken.** No predicate takes two stems, so not all that are tried are. -/
theorem isTaken_fluentStem (domain : Domain) : isTaken domain (fluentStem domain) = false := by
  unfold fluentStem
  cases h : ((List.range (domain.predicates.length + 1)).map stem).find? (fun s => !isTaken domain s) with
  | some s => simpa using List.find?_some h
  | none =>
    exfalso
    have htaken : ∀ i : Fin (domain.predicates.length + 1), ∃ j : Fin domain.predicates.length,
        Fluent (stem i) domain.predicates[j].name := by
      intro i
      have hnone := List.find?_eq_none.1 h (stem i) (List.mem_map_of_mem (List.mem_range.2 i.isLt))
      obtain ⟨p, hp, hfluent⟩ := isTaken_iff.1 (by simpa using hnone)
      obtain ⟨j, hj, rfl⟩ := List.mem_iff_getElem.1 hp
      exact ⟨⟨j, hj⟩, hfluent⟩
    choose f hf using htaken
    obtain ⟨i, j, hne, heq⟩ := Fintype.exists_ne_map_eq_of_card_lt f (by simp)
    exact hne (Fin.ext (stem_eq_of_fluent (hf i) (heq ▸ hf j)))

/-- The words that have a meaning of their own where a predicate could stand. -/
def reserved : List String :=
  ["and", "not", "or", "imply", "forall", "exists", "when", "=", "<", ">", "<=", ">=", "increase",
    "decrease", "assign"]

theorem not_mem_reserved {i : Nat} {name : String} (h : Fluent (stem i) name) : name ∉ reserved := by
  intro hmem
  obtain ⟨rest, hrest⟩ := h
  have hhead : name.toList.head? = some 'l' := by
    rw [← hrest, String.toList_append, List.append_assoc, List.head?_append, head_stem]
    rfl
  exact absurd hhead ((by decide : ∀ r ∈ reserved, r.toList.head? ≠ some 'l') name hmem)

/-! ## Atoms -/

/-- Atoms of other predicates are not atoms of fluents. -/
theorem atomName_ne {i : Nat} {predicate name : String} (hp : ¬ Fluent (stem i) predicate)
    (hn : Fluent (stem i) name) (args : List String) :
    atomName predicate args ≠ atomName name [] := by
  intro heq
  obtain ⟨c, rest, hc, hlist⟩ := toList_atomName predicate args
  obtain ⟨tail, htail⟩ := hn
  have hname : (atomName name []).toList = '(' :: ((stem i ++ "-").toList ++ (tail ++ [')'])) := by
    rw [← List.append_assoc, htail]
    simp [atomName]
  rw [heq, hname] at hlist
  obtain ⟨-, hlist⟩ := List.cons.inj hlist
  have hpre : (stem i ++ "-").toList <+: predicate.toList ++ c :: rest := ⟨_, hlist⟩
  rcases List.prefix_or_prefix_of_prefix hpre (List.prefix_append _ _) with h | h
  · exact hp h
  · obtain ⟨u, hu⟩ := h
    rw [← hu, List.append_assoc, List.append_cancel_left_eq] at hlist
    cases u with
    | nil =>
      rw [List.append_nil] at hu
      exact hp ⟨[], by rw [List.append_nil, hu]⟩
    | cons d u =>
      obtain ⟨rfl, -⟩ := List.cons.inj hlist
      have hmem : d ∈ (stem i ++ "-").toList := hu ▸ List.mem_append_right _ List.mem_cons_self
      rcases hc with rfl | rfl <;> exact absurd (mem_stem hmem) (by decide)

theorem atomName_nil_injective {m n : String} (h : atomName m [] = atomName n []) : m = n := by
  have := congrArg String.toList h
  simpa [atomName, String.toList_inj] using this

/-! ## Fluents -/

/-- What a fluent of a tracked automaton says: that it is in a state, or in an accepting one. -/
inductive TrackCell where
  | state (n : Nat)
  | accept
  deriving DecidableEq

/-- The fluent of a cell of the automaton of a formula. -/
def trackName (stem : String) : Nat × TrackCell → String
  | (i, .state n) => stateFluent stem i n
  | (i, .accept) => acceptFluent stem i

/-- The fluent of a cell of the pattern of a formula. -/
def memoryName (stem : String) (c : Nat × Memory) : String := memoryFluent stem c.1 c.2

theorem fluent_trackName (stem : String) (c : Nat × TrackCell) : Fluent stem (trackName stem c) := by
  obtain ⟨i, n | _⟩ := c
  · exact ⟨'q' :: (toString i ++ "-" ++ toString n).toList, by simp [trackName, stateFluent]⟩
  · exact ⟨"acc".toList ++ (toString i).toList, by simp [trackName, acceptFluent]⟩

theorem fluent_memoryName (stem : String) (c : Nat × Memory) : Fluent stem (memoryName stem c) :=
  ⟨c.2.word.toList ++ (toString c.1).toList, by simp [memoryName, memoryFluent]⟩

/-- Where the characters of one kind end, two texts part in the same way. -/
private theorem append_inj_of_kind {p : Char → Bool} {u u' v v' : List Char}
    (hu : ∀ c ∈ u, p c = true) (hu' : ∀ c ∈ u', p c = true) (hv : v.takeWhile p = [])
    (hv' : v'.takeWhile p = []) (h : u ++ v = u' ++ v') : u = u' ∧ v = v' := by
  have htake := congrArg (List.takeWhile p) h
  rw [List.takeWhile_append_of_pos hu, List.takeWhile_append_of_pos hu', hv, hv', List.append_nil,
    List.append_nil] at htake
  subst htake
  exact ⟨rfl, List.append_cancel_left h⟩

theorem trackName_injective (stem : String) : Function.Injective (trackName stem) := by
  rintro ⟨i, n | _⟩ ⟨j, m | _⟩ h <;> have h := congrArg String.toList h <;>
    simp only [trackName, stateFluent, acceptFluent, String.toList_append, List.append_assoc,
      List.append_cancel_left_eq] at h
  · have hcut : ∀ k : Nat, ("-".toList ++ (toString k).toList).takeWhile Char.isDigit = [] :=
      fun _ => rfl
    obtain ⟨hi, hrest⟩ := append_inj_of_kind (fun c => isDigit_of_mem_toString)
      (fun c => isDigit_of_mem_toString) (hcut n) (hcut m) h
    rw [toString_injective hi, toString_injective (List.append_cancel_left hrest)]
  · simp at h
  · simp at h
  · rw [toString_injective h]

theorem memoryName_injective (stem : String) : Function.Injective (memoryName stem) := by
  rintro ⟨i, m⟩ ⟨j, k⟩ h
  have h := congrArg String.toList h
  simp only [memoryName, memoryFluent, String.toList_append, List.append_assoc,
    List.append_cancel_left_eq] at h
  have hword (m : Memory) : ∀ c ∈ m.word.toList, (!c.isDigit) = true := by
    have hall : m.word.toList.all (fun c => !c.isDigit) = true := by cases m <;> rfl
    exact List.all_eq_true.1 hall
  have hcut : ∀ i : Nat, (toString i).toList.takeWhile (fun c => !c.isDigit) = [] := by
    intro i
    cases hl : (toString i).toList with
    | nil => rfl
    | cons c cs =>
      have hc : c.isDigit = true := isDigit_of_mem_toString (n := i) (hl ▸ List.mem_cons_self)
      rw [List.takeWhile_cons_of_neg (by simp [hc])]
  obtain ⟨hw, hi⟩ := append_inj_of_kind (hword m) (hword k) (hcut i) (hcut j) h
  have hm : m = k := by
    revert hw
    cases m <;> cases k <;> decide
  rw [toString_injective hi, hm]

end Waymark.Encoding
