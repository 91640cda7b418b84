import Mathlib.Tactic
import Waymark.Text.Blank
import Waymark.Text.Lower

/-!
# Lower-case texts

What lower-casing yields is in lower case: no character of it has another lower-case form. So a text that is
lower-cased twice is as if lower-cased once.

* `IsLow`: a character that is its own lower-case form;
* `isLow_of_mem_lower`, `lower_lower`: lower-cased texts;
* `mem_of_mem_lower`, `isBlank_of_mem_lower`, `lower_eq_nil`: lower-casing a word yields a word.
-/

namespace Waymark.Text

/-! ## Characters -/

/-- A property of all ASCII characters, checked one by one. -/
theorem ascii_forall {P : Char → Prop} (h : ∀ n, n < 128 → P (Char.ofNat n)) {c : Char} (hc : c.toNat < 128) :
    P c := by
  have := h c.toNat hc
  rwa [Char.ofNat_toNat] at this

theorem toNat_ofNat (n : Nat) : (Char.ofNat n).toNat = n ∨ (Char.ofNat n).toNat = 0 := by
  by_cases h : n.isValidChar
  · exact .inl (congrArg Char.toNat (dif_pos h))
  · exact .inr (congrArg Char.toNat (dif_neg h))

/-- The character is its own lower-case form. -/
def IsLow (c : Char) : Prop := lowerChar [] c [] = [c]

instance : DecidablePred IsLow := fun c => inferInstanceAs (Decidable (lowerChar [] c [] = [c]))

/-- A character outside ASCII and without a rule of its own is in lower case if the table leaves it. -/
theorem isLow_of_lowerByTable {c : Char} (hascii : ¬ c.toNat < 0x80) (hsigma : c ≠ 'Σ') (hdotted : c ≠ 'İ')
    (htable : lowerByTable c = c) : IsLow c := by
  rw [IsLow, lowerChar, if_neg hascii, if_neg hsigma, if_neg hdotted, htable]

/-- A character in lower case stays as it is, whatever stands around it. -/
theorem IsLow.lowerChar_eq {c : Char} (h : IsLow c) (before after : List Char) : lowerChar before c after = [c] := by
  unfold IsLow at h
  by_cases hsigma : c = 'Σ'
  · subst hsigma
    exact absurd h (by decide)
  · rw [← h]
    simp only [lowerChar, if_neg hsigma]

/-- The character is blank, or is an ASCII character before the letters. -/
def IsPlain (c : Char) : Prop := isBlank c = true ∨ 0 < c.toNat ∧ c.toNat < 0x41

instance : DecidablePred IsPlain := fun c =>
  inferInstanceAs (Decidable (isBlank c = true ∨ 0 < c.toNat ∧ c.toNat < 0x41))

/-! ## The table -/

/-- The distances of the members of a run from its first one. -/
def distances : Nat × Nat × Nat × Nat → List Nat
  | (first, last, step, _) => (List.range (last - first + 1)).filter (· % step = 0)

/-- The code points of a run. -/
def sources (r : Nat × Nat × Nat × Nat) : List Nat := (distances r).map (r.1 + ·)

/-- The code points of the lower-case forms of a run. -/
def targets (r : Nat × Nat × Nat × Nat) : List Nat := (distances r).map (r.2.2.2 + ·)

/-- A set of code points as a number, each being one of its bits. -/
def bits (codes : List Nat) : Nat := codes.foldr (fun n set => 1 <<< n ||| set) 0

/-- The union of such sets. -/
def unionOf (sets : List Nat) : Nat := sets.foldr (· ||| ·) 0

theorem testBit_bits {codes : List Nat} {n : Nat} : (bits codes).testBit n = true ↔ n ∈ codes := by
  induction codes with
  | nil => simp [bits]
  | cons m codes ih =>
    have hcons : bits (m :: codes) = 1 <<< m ||| bits codes := rfl
    rw [hcons, Nat.testBit_or, Bool.or_eq_true, ih, List.mem_cons, Nat.one_shiftLeft, Nat.testBit_two_pow,
      decide_eq_true_eq, eq_comm]

theorem testBit_unionOf {sets : List Nat} {set n : Nat} (hset : set ∈ sets) (hn : set.testBit n = true) :
    (unionOf sets).testBit n = true := by
  induction sets with
  | nil => cases hset
  | cons other sets ih =>
    have hcons : unionOf (other :: sets) = other ||| unionOf sets := rfl
    rw [hcons, Nat.testBit_or, Bool.or_eq_true]
    rcases List.mem_cons.1 hset with rfl | hset
    · exact .inl hn
    · exact .inr (ih hset)

/-- No lower-case form of the table has itself one by the table. Runs are too many to be compared pair by pair. -/
theorem sources_and_targets :
    unionOf (lowerRuns.toList.map fun r => bits (sources r)) &&&
      unionOf (lowerRuns.toList.map fun r => bits (targets r)) = 0 := by
  decide +kernel

theorem not_mem_sources_of_mem_targets {r r' : Nat × Nat × Nat × Nat} (hr : r ∈ lowerRuns.toList)
    (hr' : r' ∈ lowerRuns.toList) {n : Nat} (hn : n ∈ targets r) : n ∉ sources r' := by
  intro hn'
  have htarget : (unionOf (lowerRuns.toList.map fun r => bits (targets r))).testBit n = true :=
    testBit_unionOf (List.mem_map.2 ⟨r, hr, rfl⟩) (testBit_bits.2 hn)
  have hsource : (unionOf (lowerRuns.toList.map fun r => bits (sources r))).testBit n = true :=
    testBit_unionOf (List.mem_map.2 ⟨r', hr', rfl⟩) (testBit_bits.2 hn')
  have hboth := congrArg (Nat.testBit · n) sources_and_targets
  simp only [Nat.testBit_and, hsource, htarget, Nat.zero_testBit] at hboth
  cases hboth

/-- Code points that are no lower-case forms of the table: ASCII characters but one, characters with rules of
their own, and blank characters. -/
def foreign : List (Nat × Nat) :=
  [(0, 0x6A), (0x6C, 0xA0), (0x130, 0x130), (0x3A3, 0x3A3), (0x1680, 0x1680), (0x2000, 0x205F), (0x3000, 0x3000)]

theorem targets_not_foreign : ∀ r ∈ lowerRuns.toList, ∀ range ∈ foreign,
    r.2.2.2 + (r.2.1 - r.1) < range.1 ∨ range.2 < r.2.2.2 := by
  decide +kernel

/-- The code point of a lower-case form of the table. -/
theorem not_foreign_of_mem_targets {r : Nat × Nat × Nat × Nat} (hr : r ∈ lowerRuns.toList) {n : Nat}
    (hn : n ∈ targets r) : ∀ range ∈ foreign, n < range.1 ∨ range.2 < n := by
  intro range hrange
  have howned := targets_not_foreign r hr range hrange
  obtain ⟨k, hk, rfl⟩ := List.mem_map.1 hn
  have hle : k < r.2.1 - r.1 + 1 := List.mem_range.1 (List.mem_filter.1 hk).1
  omega

/-- A character stays as it is, or the table has it with its lower-case form. -/
theorem lowerByTable_cases (c : Char) : lowerByTable c = c ∨
    ∃ r ∈ lowerRuns.toList, c.toNat ∈ sources r ∧ ∃ n ∈ targets r, lowerByTable c = Char.ofNat n := by
  unfold lowerByTable
  split
  · rename_i first last step target hfind
    have hmem := Array.mem_of_find?_eq_some hfind
    have hin := Array.find?_some hfind
    simp only [Bool.and_eq_true, decide_eq_true_eq] at hin
    have hdistance : c.toNat - first ∈ distances (first, last, step, target) :=
      List.mem_filter.2 ⟨List.mem_range.2 (by omega), decide_eq_true hin.2⟩
    have hsource : c.toNat ∈ sources (first, last, step, target) :=
      List.mem_map.2 ⟨c.toNat - first, hdistance, Nat.add_sub_of_le hin.1.1⟩
    have htarget : target + (c.toNat - first) ∈ targets (first, last, step, target) :=
      List.mem_map.2 ⟨c.toNat - first, hdistance, rfl⟩
    exact .inr ⟨(first, last, step, target), Array.mem_toList_iff.2 hmem, hsource, _, htarget, rfl⟩
  · exact .inl rfl

/-- A lower-case form of the table is in lower case and not plain. -/
theorem lowerByTable_spec {c : Char} (hne : lowerByTable c ≠ c) :
    IsLow (lowerByTable c) ∧ ¬ IsPlain (lowerByTable c) := by
  obtain h | ⟨r, hr, -, n, hn, heq⟩ := lowerByTable_cases c
  · exact absurd h hne
  rw [heq]
  have hforeign := not_foreign_of_mem_targets hr hn
  simp only [foreign, List.forall_mem_cons] at hforeign
  rcases toNat_ofNat n with hcode | hcode
  · constructor
    · by_cases hascii : n < 0x80
      · obtain rfl : n = 0x6B := by omega
        rfl
      · refine isLow_of_lowerByTable (by omega) ?_ ?_ ?_
        · intro hsigma
          have : n = 0x3A3 := hcode.symm.trans (congrArg Char.toNat hsigma)
          omega
        · intro hdotted
          have : n = 0x130 := hcode.symm.trans (congrArg Char.toNat hdotted)
          omega
        · obtain hsame | ⟨r', hr', hsource, -⟩ := lowerByTable_cases (Char.ofNat n)
          · exact hsame
          · rw [hcode] at hsource
            exact absurd hsource (not_mem_sources_of_mem_targets hr hr' hn)
    · simp only [IsPlain, isBlank, hcode, Bool.or_eq_true, Bool.and_eq_true, decide_eq_true_eq]
      omega
  · have hzero : Char.ofNat n = '\x00' := by
      rw [← Char.ofNat_toNat (Char.ofNat n), hcode]
    rw [hzero]
    exact ⟨rfl, by decide⟩

/-- What the table makes of a character without a rule of its own is in lower case, and plain only if it is that
character. -/
theorem isLow_lowerByTable {c : Char} (hascii : ¬ c.toNat < 0x80) (hsigma : c ≠ 'Σ') (hdotted : c ≠ 'İ') :
    IsLow (lowerByTable c) ∧ (IsPlain (lowerByTable c) → lowerByTable c = c) := by
  by_cases hsame : lowerByTable c = c
  · exact ⟨hsame.symm ▸ isLow_of_lowerByTable hascii hsigma hdotted hsame, fun _ => hsame⟩
  · obtain ⟨hlow, hplain⟩ := lowerByTable_spec hsame
    exact ⟨hlow, fun h => absurd h hplain⟩

/-! ## Texts -/

/-- What a character is lower-cased to is in lower case, and plain only if it is that character. -/
theorem isLow_of_mem_lowerChar {before after : List Char} {c d : Char} (hd : d ∈ lowerChar before c after) :
    IsLow d ∧ (IsPlain d → d = c) := by
  unfold lowerChar at hd
  split at hd
  · rename_i hascii
    rw [List.mem_singleton.1 hd]
    exact ascii_forall (P := fun c => IsLow c.toLower ∧ (IsPlain c.toLower → c.toLower = c)) (by decide) hascii
  rename_i hascii
  split at hd
  · have hfinal : IsLow 'ς' ∧ ¬ IsPlain 'ς' := by decide +kernel
    have hinner : IsLow 'σ' ∧ ¬ IsPlain 'σ' := by decide +kernel
    split at hd
    · rw [List.mem_singleton.1 hd]
      exact hfinal.imp id fun hnot h => absurd h hnot
    · rw [List.mem_singleton.1 hd]
      exact hinner.imp id fun hnot h => absurd h hnot
  rename_i hsigma
  split at hd
  · have hi : IsLow 'i' ∧ ¬ IsPlain 'i' := by decide
    have hdot : IsLow (Char.ofNat 0x307) ∧ ¬ IsPlain (Char.ofNat 0x307) := by decide +kernel
    rcases List.mem_cons.1 hd with rfl | hd
    · exact hi.imp id fun hnot h => absurd h hnot
    · rw [List.mem_singleton.1 hd]
      exact hdot.imp id fun hnot h => absurd h hnot
  rename_i hdotted
  rw [List.mem_singleton.1 hd]
  exact isLow_lowerByTable hascii hsigma hdotted

theorem lowerFrom_eq (before cs done : List Char) :
    lowerFrom before cs done = done.reverse ++ lowerFrom before cs [] := by
  induction cs generalizing before done with
  | nil => simp [lowerFrom]
  | cons c cs ih =>
    unfold lowerFrom
    rw [ih, ih (c :: before) (_ ++ [])]
    simp

theorem lowerFrom_cons (before : List Char) (c : Char) (cs : List Char) :
    lowerFrom before (c :: cs) [] = lowerChar before c cs ++ lowerFrom (c :: before) cs [] := by
  rw [lowerFrom, lowerFrom_eq]
  simp

theorem exists_of_mem_lowerFrom {before cs : List Char} {d : Char} (hd : d ∈ lowerFrom before cs []) :
    ∃ c ∈ cs, ∃ before after, d ∈ lowerChar before c after := by
  induction cs generalizing before with
  | nil => cases hd
  | cons c cs ih =>
    rw [lowerFrom_cons] at hd
    rcases List.mem_append.1 hd with hd | hd
    · exact ⟨c, List.mem_cons_self, before, cs, hd⟩
    · obtain ⟨c', hc', hd⟩ := ih hd
      exact ⟨c', List.mem_cons_of_mem _ hc', hd⟩

/-- Lower-cased texts are in lower case. -/
theorem isLow_of_mem_lower {cs : List Char} {d : Char} (hd : d ∈ lower cs) : IsLow d := by
  obtain ⟨_, -, _, _, hd⟩ := exists_of_mem_lowerFrom hd
  exact (isLow_of_mem_lowerChar hd).1

/-- Plain characters of a lower-cased text stood in the text. -/
theorem mem_of_mem_lower {cs : List Char} {d : Char} (hd : d ∈ lower cs) (hplain : IsPlain d) : d ∈ cs := by
  obtain ⟨c, hc, _, _, hd⟩ := exists_of_mem_lowerFrom hd
  exact (isLow_of_mem_lowerChar hd).2 hplain ▸ hc

/-- A text without blanks stays so when it is lower-cased. -/
theorem isBlank_of_mem_lower {cs : List Char} (h : ∀ c ∈ cs, isBlank c = false) {d : Char} (hd : d ∈ lower cs) :
    isBlank d = false := by
  rw [Bool.eq_false_iff]
  intro hblank
  exact Bool.eq_false_iff.1 (h d (mem_of_mem_lower hd (.inl hblank))) hblank

theorem lowerChar_ne_nil (before : List Char) (c : Char) (after : List Char) : lowerChar before c after ≠ [] := by
  fun_cases lowerChar before c after <;> exact List.cons_ne_nil _ _

/-- Nothing is lost when a text is lower-cased. -/
theorem lower_eq_nil {cs : List Char} : lower cs = [] ↔ cs = [] := by
  cases cs with
  | nil => exact iff_of_true rfl rfl
  | cons c cs =>
    refine iff_of_false ?_ (List.cons_ne_nil c cs)
    rw [lower, lowerFrom_cons]
    exact fun h => lowerChar_ne_nil _ _ _ (List.append_eq_nil_iff.1 h).1

/-- A text in lower case stays as it is. -/
theorem lower_of_isLow {cs : List Char} (h : ∀ c ∈ cs, IsLow c) : lower cs = cs := by
  have hfrom (before : List Char) : lowerFrom before cs [] = cs := by
    induction cs generalizing before with
    | nil => rfl
    | cons c cs ih =>
      obtain ⟨hc, hcs⟩ := List.forall_mem_cons.1 h
      rw [lowerFrom_cons, hc.lowerChar_eq, ih hcs]
      rfl
  exact hfrom []

/-- **Lower-casing twice is lower-casing once.** -/
theorem lower_lower (cs : List Char) : lower (lower cs) = lower cs :=
  lower_of_isLow fun _ => isLow_of_mem_lower

end Waymark.Text
