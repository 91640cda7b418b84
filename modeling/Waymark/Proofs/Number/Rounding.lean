import Mathlib.Data.Int.Log
import Mathlib.Tactic
import Waymark.Proofs.Number.Order

/-!
# Rounding keeps the order

A sum or a product of floats is the float nearest to the exact result. The rank of that float depends on
the exact result alone, and larger results have larger ranks, so sums and products of floats that are not
negative ascend with their operands.

* `toEven`, `nearestRank`: rounding a number to an integer, and the rank of the float nearest to one;
* `roundWithAccuracy_spec`: rounding a mantissa and an exponent gives the float of that rank;
* `bitsRank_add`, `bitsRank_mul`: the rank of a sum and of a product;
* `Double.zero_le_add`, `Double.lt_of_factor_le`: sums and multiples of doubles that are not negative.
-/

namespace Waymark.Number

open Float.Model Float.Model.UnpackedFloat

/-! ## Rounding rational numbers -/

/-- The nearest integer, the even one if two are equally near. -/
def toEven (x : ℚ) : ℤ :=
  if x - ⌊x⌋ < 1 / 2 then ⌊x⌋ else if 1 / 2 < x - ⌊x⌋ then ⌊x⌋ + 1 else ⌊x⌋ + ⌊x⌋ % 2

theorem floor_le_toEven (x : ℚ) : ⌊x⌋ ≤ toEven x := by
  unfold toEven
  split_ifs <;> omega

theorem toEven_le_floor_add_one (x : ℚ) : toEven x ≤ ⌊x⌋ + 1 := by
  unfold toEven
  split_ifs <;> omega

@[simp] theorem toEven_intCast (n : ℤ) : toEven n = n := by
  simp [toEven]

theorem toEven_two_pow (n : ℕ) : toEven (2 ^ n) = 2 ^ n := by
  simpa using toEven_intCast (2 ^ n)

theorem toEven_mono : Monotone toEven := by
  intro x y h
  rcases (Int.floor_mono h).lt_or_eq with hlt | heq
  · exact (toEven_le_floor_add_one x).trans (le_trans hlt (floor_le_toEven y))
  · unfold toEven
    rw [heq]
    split_ifs <;> first | exact le_rfl | omega | (exfalso; linarith)

/-- The exponent of the last binary digit of the float nearest to a positive number. -/
def unit (x : ℚ) : ℤ := max (Int.log 2 x - 52) (-1074)

theorem neg_le_unit (x : ℚ) : -1074 ≤ unit x := le_max_right _ _

theorem unit_mono {x y : ℚ} (hx : 0 < x) (h : x ≤ y) : unit x ≤ unit y := by
  have := Int.log_mono_right (b := 2) hx h
  unfold unit
  omega

/-- A number in units of its last digit, rounded. -/
def nearestMantissa (x : ℚ) : ℤ := toEven (x / 2 ^ unit x)

theorem nearestMantissa_nonneg {x : ℚ} (hx : 0 < x) : 0 ≤ nearestMantissa x :=
  (Int.floor_nonneg.2 (by positivity)).trans (floor_le_toEven _)

theorem nearestMantissa_le (x : ℚ) : nearestMantissa x ≤ 2 ^ 53 := by
  have hlog : x < (2 : ℚ) ^ (Int.log 2 x + 1) := by
    exact_mod_cast Int.lt_zpow_succ_log_self (by norm_num) x
  have hquotient : x / 2 ^ unit x ≤ 2 ^ 53 := by
    rw [div_le_iff₀ (by positivity)]
    calc x ≤ 2 ^ (Int.log 2 x + 1) := hlog.le
      _ ≤ 2 ^ ((53 : ℤ) + unit x) := zpow_le_zpow_right₀ (by norm_num) (by unfold unit; omega)
      _ = 2 ^ 53 * 2 ^ unit x := by rw [zpow_add₀ (by norm_num)]; norm_cast
  exact (toEven_mono hquotient).trans_eq (toEven_two_pow 53)

/-- The mantissa is long, unless the unit is the smallest one. -/
theorem le_nearestMantissa {x : ℚ} (hx : 0 < x) (h : unit x ≠ -1074) : 2 ^ 52 ≤ nearestMantissa x := by
  have hlog : (2 : ℚ) ^ Int.log 2 x ≤ x := by exact_mod_cast Int.zpow_log_le_self (by norm_num) hx
  have hunit : Int.log 2 x = 52 + unit x := by unfold unit at h ⊢; omega
  have hquotient : 2 ^ 52 ≤ x / 2 ^ unit x := by
    rw [le_div_iff₀ (by positivity)]
    rw [hunit, zpow_add₀ (by norm_num)] at hlog
    exact_mod_cast hlog
  exact (toEven_two_pow 52).symm.trans_le (toEven_mono hquotient)

/-- The rank of the float nearest to a number that is not negative, were exponents unbounded above. -/
def wideRank (x : ℚ) : ℤ := if x ≤ 0 then 0 else (unit x + 1074) * 2 ^ 52 + nearestMantissa x

/-- The rank of the float nearest to a number that is not negative. -/
def nearestRank (x : ℚ) : ℤ := min (wideRank x) (2047 * 2 ^ 52)

theorem wideRank_of_pos {x : ℚ} (hx : 0 < x) :
    wideRank x = (unit x + 1074) * 2 ^ 52 + nearestMantissa x := if_neg hx.not_ge

theorem nearestRank_zero : nearestRank 0 = 0 := by simp [nearestRank, wideRank]

theorem wideRank_nonneg (x : ℚ) : 0 ≤ wideRank x := by
  rcases le_or_gt x 0 with hx | hx
  · exact (if_pos hx).ge
  · have := neg_le_unit x
    have := nearestMantissa_nonneg hx
    rw [wideRank_of_pos hx]
    omega

theorem wideRank_mono : Monotone wideRank := by
  intro x y h
  rcases le_or_gt x 0 with hx | hx
  · rw [wideRank, if_pos hx]
    exact wideRank_nonneg y
  have hy : 0 < y := hx.trans_le h
  rw [wideRank_of_pos hx, wideRank_of_pos hy]
  rcases (unit_mono hx h).lt_or_eq with hlt | heq
  · -- A larger unit outweighs every mantissa.
    have := neg_le_unit x
    have := nearestMantissa_le x
    have := le_nearestMantissa hy (by omega)
    omega
  · have hmantissa : nearestMantissa x ≤ nearestMantissa y := by
      unfold nearestMantissa
      rw [heq]
      exact toEven_mono (div_le_div_of_nonneg_right h (by positivity))
    omega

theorem nearestRank_mono : Monotone nearestRank :=
  fun _ _ h => min_le_min_right _ (wideRank_mono h)

/-! ## Shifting mantissas -/

/-- What a mantissa and its two bits for rounding say about a number: its integral part, whether the rest
is at least one half, and whether the rest is neither zero nor one half. -/
def Represents (em : ExtendedMantissa) (x : ℚ) : Prop :=
  ∃ r : ℚ, 0 ≤ r ∧ r < 1 / 2 ∧ (em.stickyBit = true ↔ 0 < r) ∧
    x = em.mantissa + (if em.roundBit then 1 / 2 else 0) + r

theorem represents_exact (m : ℕ) : Represents (.ofMantissaAndAccuracy m .exact) m :=
  ⟨0, le_rfl, by norm_num, by simp [ExtendedMantissa.ofMantissaAndAccuracy],
    by simp [ExtendedMantissa.ofMantissaAndAccuracy]⟩

theorem Represents.shiftRightOne {em : ExtendedMantissa} {x : ℚ} (h : Represents em x) :
    Represents em.shiftRightOne (x / 2) := by
  obtain ⟨r, hr, hr', hsticky, rfl⟩ := h
  have hdiv : (em.mantissa : ℚ) = (em.mantissa % 2 : ℕ) + 2 * (em.mantissa / 2 : ℕ) := by
    exact_mod_cast (Nat.mod_add_div em.mantissa 2).symm
  refine ⟨(if em.roundBit then 1 / 4 else 0) + r / 2, ?_, ?_, ?_, ?_⟩
  · split_ifs <;> linarith
  · split_ifs <;> linarith
  · show (em.roundBit || em.stickyBit) = true ↔ _
    rw [Bool.or_eq_true, hsticky]
    split_ifs with hround
    · exact iff_of_true (.inl hround) (by linarith)
    · simp [hround]
  · show _ = ((em.mantissa / 2 : ℕ) : ℚ) + (if em.mantissa % 2 != 0 then 1 / 2 else 0) + _
    rw [hdiv]
    rcases Nat.mod_two_eq_zero_or_one em.mantissa with hm | hm <;> rw [hm] <;> split_ifs <;>
      simp_all <;> ring

theorem Represents.shiftRight {em : ExtendedMantissa} {x : ℚ} (h : Represents em x) (n : ℕ) :
    Represents (em >>> n) (x / 2 ^ n) := by
  show Represents (n.repeat ExtendedMantissa.shiftRightOne em) _
  induction n with
  | zero => simpa [Nat.repeat] using h
  | succ n ih =>
    rw [pow_succ, ← div_div]
    exact ih.shiftRightOne

theorem Represents.roundedMantissa {em : ExtendedMantissa} {x : ℚ} (h : Represents em x) :
    (em.roundedMantissa : ℤ) = toEven x := by
  obtain ⟨r, hr, hr', hsticky, rfl⟩ := h
  obtain ⟨m, round, sticky⟩ := em
  have hfloor : ⌊(m : ℚ) + (if round then 1 / 2 else 0) + r⌋ = m := by
    rw [Int.floor_eq_iff]
    constructor <;> push_cast <;> split_ifs <;> linarith
  unfold toEven
  rw [hfloor]
  cases sticky with
  | false =>
    obtain rfl : r = 0 := le_antisymm (not_lt.1 fun h => by simpa using hsticky.2 h) hr
    cases round <;>
      simp [ExtendedMantissa.roundedMantissa, ExtendedMantissa.accuracy, Accuracy.roundToNearestEven]
  | true =>
    have hpos : 0 < r := hsticky.1 rfl
    cases round with
    | false =>
      rw [if_pos (by push_cast; simp; linarith)]
      rfl
    | true =>
      rw [if_neg (by push_cast; simp; linarith), if_pos (by push_cast; simp; linarith)]
      rfl

/-! ## Rounding mantissas and exponents -/

/-- The parts of a float without a sign, or of a number that is too large for a float. -/
def Unsigned : UnpackedFloat → Prop
  | .infinity s => s = .positive
  | .notANumber => False
  | .zero _ => True
  | .finite s m e _ => s = .positive ∧ -1074 ≤ e ∧ m < 2 ^ 53 ∧ (e = -1074 ∨ 2 ^ 52 ≤ m)

theorem log_mul_two_zpow {m : ℕ} (hm : 0 < m) (e : ℤ) :
    Int.log 2 ((m : ℚ) * 2 ^ e) = m.log2 + e := by
  have hpos : (0 : ℚ) < m * 2 ^ e := by positivity
  have hlow : (2 : ℚ) ^ m.log2 ≤ m := by exact_mod_cast Nat.log2_self_le hm.ne'
  have hhigh : (m : ℚ) < 2 ^ (m.log2 + 1) := by exact_mod_cast Nat.lt_log2_self
  refine le_antisymm (Int.lt_add_one_iff.1 ?_) ?_
  · rw [← Int.lt_zpow_iff_log_lt (by norm_num) hpos]
    push_cast
    rw [add_right_comm, zpow_add₀ (by norm_num)]
    exact mul_lt_mul_of_pos_right (mod_cast hhigh) (by positivity)
  · rw [← Int.zpow_le_iff_le_log (by norm_num) hpos]
    push_cast
    rw [zpow_add₀ (by norm_num)]
    exact mul_le_mul_of_nonneg_right (mod_cast hlow) (by positivity)

theorem targetExponent_eq {m : ℕ} (hm : 0 < m) (e : ℤ) :
    Format.binary64.targetExponent (totalExponent m e) = unit (m * 2 ^ e) := by
  rw [unit, log_mul_two_zpow hm]
  show max ((m.log2 : ℤ) + 1 + e - 53) (-1074) = _
  congr 1
  omega

theorem shiftToTargetExponent_eq {m : ℕ} {e : ℤ} {k : ℕ}
    (h : (Format.binary64.targetExponent (totalExponent m e) - e).toNat = k) :
    shiftToTargetExponent Format.binary64 m e .exact =
      (ExtendedMantissa.ofMantissaAndAccuracy m .exact >>> k, e + k) := by
  subst h
  rfl

/-- A mantissa that fits is not shifted. -/
theorem shiftToTargetExponent_of_lt {m : ℕ} {e : ℤ} (hm : m < 2 ^ 53) (he : -1074 ≤ e) :
    shiftToTargetExponent Format.binary64 m e .exact = (⟨m, false, false⟩, e) := by
  have hlog : m.log2 ≤ 52 := by
    rcases Nat.eq_zero_or_pos m with rfl | hpos
    · simp
    · exact Nat.lt_add_one_iff.1 ((Nat.log2_lt hpos.ne').2 hm)
  rw [shiftToTargetExponent_eq (k := 0)]
  · simp [HShiftRight.hShiftRight, Nat.repeat, ExtendedMantissa.ofMantissaAndAccuracy]
  · show (max ((m.log2 : ℤ) + 1 + e - 53) (-1074) - e).toNat = 0
    omega

/-- A mantissa that rounding has made too long is shifted by one digit. -/
theorem shiftToTargetExponent_carry {e : ℤ} (he : -1074 ≤ e) :
    shiftToTargetExponent Format.binary64 (2 ^ 53) e .exact = (⟨2 ^ 52, false, false⟩, e + 1) := by
  rw [shiftToTargetExponent_eq (k := 1)]
  · rfl
  · show (max (((2 ^ 53 : ℕ).log2 : ℤ) + 1 + e - 53) (-1074) - e).toNat = 1
    rw [Nat.log2_two_pow]
    omega

/-- The first shift: what is left of the mantissa, once it is rounded, is that of the nearest float. -/
theorem exists_shifted {m : ℕ} {e : ℤ} (hm : 0 < m) (he : e ≤ unit (m * 2 ^ e)) :
    ∃ em, shiftToTargetExponent Format.binary64 m e .exact = (em, unit (m * 2 ^ e)) ∧
      (em.roundedMantissa : ℤ) = nearestMantissa (m * 2 ^ e) := by
  set u := unit (m * 2 ^ e) with hu
  obtain ⟨k, hk⟩ : ∃ k : ℕ, u = e + k := ⟨(u - e).toNat, by omega⟩
  refine ⟨ExtendedMantissa.ofMantissaAndAccuracy m .exact >>> k, ?_, ?_⟩
  · rw [shiftToTargetExponent_eq (k := k), ← hk]
    rw [targetExponent_eq hm, ← hu]
    omega
  · have hquotient : (m : ℚ) / 2 ^ k = m * 2 ^ e / 2 ^ u := by
      rw [hk, zpow_add₀ (by norm_num), zpow_natCast]
      field_simp
    rw [((represents_exact m).shiftRight k).roundedMantissa, hquotient]
    rfl

/-- Rounding a mantissa and an exponent that is not too large gives the float that is nearest. -/
theorem roundWithAccuracy_spec {m : ℕ} {e : ℤ} (hm : 0 < m) (he : e ≤ unit (m * 2 ^ e)) :
    Unsigned (roundWithAccuracy Format.binary64 .positive m e .exact) ∧
      rank (roundWithAccuracy Format.binary64 .positive m e .exact) = wideRank (m * 2 ^ e) := by
  have hpos : (0 : ℚ) < m * 2 ^ e := by positivity
  have hmin := neg_le_unit (m * 2 ^ e)
  have hhigh := nearestMantissa_le (m * 2 ^ e)
  have hlow : unit (m * 2 ^ e) = -1074 ∨ 2 ^ 52 ≤ nearestMantissa (m * 2 ^ e) :=
    or_iff_not_imp_left.2 (le_nearestMantissa hpos)
  obtain ⟨em, hfirst, hrounded⟩ := exists_shifted hm he
  unfold roundWithAccuracy
  rw [wideRank_of_pos hpos, hfirst]
  dsimp only
  rw [← hrounded] at hhigh hlow ⊢
  generalize em.roundedMantissa = r at *
  generalize unit (m * 2 ^ e) = u at *
  rcases (show r ≤ 2 ^ 53 by exact_mod_cast hhigh).lt_or_eq with hlt | rfl
  · rw [shiftToTargetExponent_of_lt hlt hmin]
    dsimp only
    by_cases hzero : r = 0
    · rw [dif_pos hzero]
      refine ⟨trivial, ?_⟩
      show (0 : ℤ) = _
      omega
    · rw [dif_neg hzero]
      exact ⟨⟨rfl, hmin, hlt, hlow.imp_right fun h => by omega⟩, rfl⟩
  · rw [shiftToTargetExponent_carry hmin]
    refine ⟨⟨rfl, by omega, by norm_num, .inr le_rfl⟩, ?_⟩
    show (u + 1 + 1074) * 2 ^ 52 + ((2 ^ 52 : ℕ) : ℤ) = _
    omega

theorem round_spec {m : ℕ} (hm : 0 < m) (e : ℤ) :
    Unsigned (UnpackedFloat.round Format.binary64 .positive m e) ∧
      rank (UnpackedFloat.round Format.binary64 .positive m e) = wideRank (m * 2 ^ e) := by
  unfold UnpackedFloat.round decreaseExponent
  rw [targetExponent_eq hm]
  dsimp only
  set k := (e - unit (m * 2 ^ e)).toNat with hk
  have hvalue : ((m <<< k : ℕ) : ℚ) * 2 ^ (e - k) = m * 2 ^ e := by
    rw [Nat.shiftLeft_eq, zpow_sub₀ (by norm_num), zpow_natCast]
    push_cast
    field_simp
  have hspec := @roundWithAccuracy_spec (m <<< k) (e - k)
    (by rw [Nat.shiftLeft_eq]; positivity) (by rw [hvalue]; omega)
  rwa [hvalue] at hspec

/-! ## Sizes -/

/-- The size of an unpacked float. An infinity counts as the power of two that follows the largest
finite float. -/
def size : UnpackedFloat → ℚ
  | .infinity _ => 2 ^ 1024
  | .finite _ m e _ => m * 2 ^ e
  | _ => 0

@[simp] theorem size_infinity (s : Sign) : size (.infinity s) = 2 ^ 1024 := rfl

@[simp] theorem size_zero (s : Sign) : size (.zero s) = 0 := rfl

theorem size_finite (s : Sign) (m : ℕ) (e : ℤ) (hm : 0 < m) : size (.finite s m e hm) = m * 2 ^ e := rfl

/-- Mantissa and exponent of a float without a sign, also of zero and infinity. -/
theorem Unsigned.exists_parts {u : UnpackedFloat} (h : Unsigned u) :
    ∃ (m : ℕ) (e : ℤ), -1074 ≤ e ∧ m < 2 ^ 53 ∧ (e = -1074 ∨ 2 ^ 52 ≤ m) ∧
      size u = m * 2 ^ e ∧ rank u = (e + 1074) * 2 ^ 52 + m := by
  cases u with
  | notANumber => exact h.elim
  | infinity s =>
    obtain rfl : s = .positive := h
    refine ⟨2 ^ 52, 972, by norm_num, by norm_num, .inr le_rfl, ?_, by rfl⟩
    rw [size_infinity, Nat.cast_pow, Nat.cast_ofNat, zpow_ofNat, ← pow_add]
  | zero s => exact ⟨0, -1074, le_rfl, by norm_num, .inl rfl, by simp, by rfl⟩
  | finite s m e hm =>
    obtain ⟨rfl, he, hm', hl⟩ := h
    exact ⟨m, e, he, hm', hl, rfl, rfl⟩

theorem size_nonneg {u : UnpackedFloat} (h : Unsigned u) : 0 ≤ size u := by
  obtain ⟨m, e, -, -, -, hsize, -⟩ := h.exists_parts
  rw [hsize]
  positivity

theorem rank_eq_wideRank {u : UnpackedFloat} (h : Unsigned u) : rank u = wideRank (size u) := by
  obtain ⟨m, e, he, hm, hl, hsize, hrank⟩ := h.exists_parts
  rw [hsize, hrank]
  rcases Nat.eq_zero_or_pos m with rfl | hpos
  · obtain rfl := hl.resolve_right (by norm_num)
    simp [wideRank]
  · have hlog : m.log2 ≤ 52 := Nat.lt_add_one_iff.1 ((Nat.log2_lt hpos.ne').2 hm)
    have hunit : unit (m * 2 ^ e) = e := by
      unfold unit
      rw [log_mul_two_zpow hpos]
      rcases hl with rfl | hl
      · omega
      · have := (Nat.le_log2 hpos.ne').2 hl
        omega
    rw [wideRank_of_pos (by positivity), nearestMantissa, hunit, mul_div_cancel_right₀ _ (by positivity)]
    exact congrArg _ (toEven_intCast m).symm

/-- Sizes ascend with ranks. -/
theorem size_le_size {u v : UnpackedFloat} (hu : Unsigned u) (hv : Unsigned v)
    (h : rank u ≤ rank v) : size u ≤ size v := by
  obtain ⟨m, e, he, hm, hl, hsize, hrank⟩ := hu.exists_parts
  obtain ⟨n, f, hf, hn, hk, hsize', hrank'⟩ := hv.exists_parts
  rw [hsize, hsize']
  rw [hrank, hrank'] at h
  rcases lt_trichotomy e f with hlt | rfl | hgt
  · have hn : 2 ^ 52 ≤ n := hk.resolve_left (by omega)
    calc (m : ℚ) * 2 ^ e ≤ 2 ^ (53 : ℤ) * 2 ^ e := by gcongr; exact_mod_cast hm.le
      _ = 2 ^ (53 + e) := (zpow_add₀ (by norm_num) _ _).symm
      _ ≤ 2 ^ (52 + f) := zpow_le_zpow_right₀ (by norm_num) (by omega)
      _ = 2 ^ (52 : ℤ) * 2 ^ f := zpow_add₀ (by norm_num) _ _
      _ ≤ n * 2 ^ f := by gcongr; exact_mod_cast hn
  · have : (m : ℚ) ≤ n := by exact_mod_cast (show (m : ℤ) ≤ n by omega)
    gcongr
  · omega

theorem nearestRank_of_large {x : ℚ} (h : 2 ^ 1024 ≤ x) : nearestRank x = 2047 * 2 ^ 52 := by
  have hinfinity : wideRank (2 ^ 1024) = 2047 * 2 ^ 52 :=
    (rank_eq_wideRank (u := .infinity .positive) rfl).symm
  exact min_eq_right (hinfinity.symm.trans_le (wideRank_mono h))

/-! ## Sums and products -/

/-- A sum of finite floats is rounded from an exact mantissa in the smaller of their units. -/
theorem exists_add_eq_round {m n : ℕ} {e f : ℤ} (hm : 0 < m) (hn : 0 < n) :
    ∃ (k : ℕ) (g : ℤ), 0 < k ∧ (k : ℚ) * 2 ^ g = m * 2 ^ e + n * 2 ^ f ∧
      add Format.binary64 (.finite .positive m e hm) (.finite .positive n f hn) =
        UnpackedFloat.round Format.binary64 .positive k g := by
  set g := min e f with hg
  set k := m <<< (e - g).toNat + n <<< (f - g).toNat with hk
  have hpos : 0 < k := by
    rw [hk, Nat.shiftLeft_eq]
    positivity
  refine ⟨k, g, hpos, ?_, ?_⟩
  · have hscale {a : ℤ} (h : g ≤ a) : (2 : ℚ) ^ (a - g).toNat * 2 ^ g = 2 ^ a := by
      rw [← zpow_natCast, ← zpow_add₀ (by norm_num)]
      congr 1
      omega
    rw [hk, Nat.shiftLeft_eq, Nat.shiftLeft_eq, ← hscale (min_le_left e f), ← hscale (min_le_right e f)]
    push_cast
    ring
  · show UnpackedFloat.normalize Format.binary64 (k : ℤ) g .positive = _
    unfold UnpackedFloat.normalize
    rw [compare_gt_iff_gt.2 (show (k : ℤ) > 0 by omega)]
    rfl

theorem add_spec {u v : UnpackedFloat} (hu : Unsigned u) (hv : Unsigned v) :
    Unsigned (add Format.binary64 u v) ∧
      min (rank (add Format.binary64 u v)) (2047 * 2 ^ 52) = nearestRank (size u + size v) := by
  have hu' := size_nonneg hu
  have hv' := size_nonneg hv
  cases u with
  | notANumber => exact hu.elim
  | infinity s =>
    obtain rfl : s = .positive := hu
    rw [size_infinity, nearestRank_of_large (le_add_of_nonneg_right hv')]
    cases v with
    | notANumber => exact hv.elim
    | infinity t =>
      obtain rfl : t = .positive := hv
      exact ⟨rfl, rfl⟩
    | zero t => exact ⟨rfl, rfl⟩
    | finite t n f hn => exact ⟨rfl, rfl⟩
  | zero s =>
    cases v with
    | notANumber => exact hv.elim
    | infinity t =>
      obtain rfl : t = .positive := hv
      rw [size_infinity, nearestRank_of_large (le_add_of_nonneg_left hu')]
      exact ⟨rfl, rfl⟩
    | zero t =>
      rw [size_zero, size_zero, add_zero, nearestRank_zero]
      cases s <;> cases t <;> exact ⟨trivial, rfl⟩
    | finite t n f hn =>
      refine ⟨hv, ?_⟩
      rw [size_zero, zero_add, nearestRank, ← rank_eq_wideRank hv]
      rfl
  | finite s m e hm =>
    cases v with
    | notANumber => exact hv.elim
    | infinity t =>
      obtain rfl : t = .positive := hv
      rw [size_infinity, nearestRank_of_large (le_add_of_nonneg_left hu')]
      exact ⟨rfl, rfl⟩
    | zero t =>
      refine ⟨hu, ?_⟩
      rw [size_zero, add_zero, nearestRank, ← rank_eq_wideRank hu]
      rfl
    | finite t n f hn =>
      obtain ⟨rfl, -⟩ := hu
      obtain ⟨rfl, -⟩ := hv
      obtain ⟨k, g, hpos, hvalue, hround⟩ := exists_add_eq_round (e := e) (f := f) hm hn
      obtain ⟨hunsigned, hrank⟩ := round_spec hpos g
      rw [hround]
      exact ⟨hunsigned, by rw [hrank, hvalue]; rfl⟩

/-- A product of mantissas is long enough, unless both are of the smallest unit. -/
theorem add_le_unit_mul {m n : ℕ} {e f : ℤ} (hm : 0 < m) (hn : 0 < n) (hl : e = -1074 ∨ 2 ^ 52 ≤ m)
    (hk : f = -1074 ∨ 2 ^ 52 ≤ n) : e + f ≤ unit ((m * n : ℕ) * 2 ^ (e + f)) := by
  have hpos : 0 < m * n := Nat.mul_pos hm hn
  unfold unit
  rw [log_mul_two_zpow hpos]
  by_cases hsmall : e = -1074 ∧ f = -1074
  · omega
  · have hlarge : 2 ^ 52 ≤ m * n := by
      rcases hl with rfl | hl
      · exact (hk.resolve_left fun h => hsmall ⟨rfl, h⟩).trans (Nat.le_mul_of_pos_left n hm)
      · exact hl.trans (Nat.le_mul_of_pos_right m hn)
    have := (Nat.le_log2 hpos.ne').2 hlarge
    omega

theorem mul_spec {u v : UnpackedFloat} (hu : Unsigned u) (hv : Unsigned v) (hfinite : v.isInf = false)
    (hone : 1 ≤ size v) :
    Unsigned (mul Format.binary64 u v) ∧
      min (rank (mul Format.binary64 u v)) (2047 * 2 ^ 52) = nearestRank (size u * size v) := by
  cases v with
  | notANumber => exact hv.elim
  | infinity t => cases hfinite
  | zero t => exact absurd hone (by norm_num)
  | finite t n f hn =>
    cases u with
    | notANumber => exact hu.elim
    | infinity s =>
      obtain rfl : s = .positive := hu
      obtain ⟨rfl, -⟩ := hv
      rw [size_infinity, nearestRank_of_large (le_mul_of_one_le_right (by positivity) hone)]
      exact ⟨rfl, rfl⟩
    | zero s =>
      obtain ⟨rfl, -⟩ := hv
      refine ⟨trivial, ?_⟩
      rw [size_zero, zero_mul, nearestRank_zero]
      rfl
    | finite s m e hm =>
      obtain ⟨rfl, he, -, hl⟩ := hu
      obtain ⟨rfl, hf, -, hk⟩ := hv
      have hpos : 0 < m * n := Nat.mul_pos hm hn
      have hvalue : ((m * n : ℕ) : ℚ) * 2 ^ (e + f) = m * 2 ^ e * (n * 2 ^ f) := by
        rw [zpow_add₀ (by norm_num)]
        push_cast
        ring
      have hunit := add_le_unit_mul hm hn hl hk
      have hspec := roundWithAccuracy_spec hpos hunit
      rw [hvalue] at hspec
      exact ⟨hspec.1, congrArg (min · (2047 * 2 ^ 52)) hspec.2⟩

/-! ## Packing -/

/-- The signed number that packed bits give. -/
theorem signedBits_packComponents (s : Sign) (e : BitVec 11) (m : BitVec 52) :
    signedBits (packComponents Format.binary64 s e m).toNat = s.apply (e.toNat * 2 ^ 52 + m.toNat) := by
  have hbits : (packComponents Format.binary64 s e m).toNat =
      s.toBitVec.toNat * 2 ^ 63 + (e.toNat * 2 ^ 52 + m.toNat) := by
    show (s.toBitVec ++ e ++ m).toNat = _
    rw [BitVec.toNat_append, BitVec.toNat_append, ← Nat.shiftLeft_add_eq_or_of_lt (BitVec.isLt _),
      ← Nat.shiftLeft_add_eq_or_of_lt (BitVec.isLt _), Nat.shiftLeft_eq, Nat.shiftLeft_eq]
    ring
  have he := e.isLt
  have hm := m.isLt
  rw [hbits, signedBits]
  cases s with
  | positive =>
    rw [show Sign.positive.toBitVec.toNat = 0 from rfl, if_pos (by omega), Sign.apply]
    omega
  | negative =>
    rw [show Sign.negative.toBitVec.toNat = 1 from rfl, if_neg (by omega), Sign.apply]
    omega

/-- Packing keeps the rank, and numbers that are too large become infinite. -/
theorem signedBits_pack {u : UnpackedFloat} (h : Unsigned u) :
    signedBits (UnpackedFloat.pack Format.binary64 u).toNat = min (rank u) (2047 * 2 ^ 52) := by
  have hinfinity : signedBits (packedInfinity Format.binary64 .positive).toNat = 2047 * 2 ^ 52 := by
    rw [packedInfinity, signedBits_packComponents]
    rfl
  cases u with
  | notANumber => exact h.elim
  | infinity s =>
    obtain rfl : s = .positive := h
    exact hinfinity.trans (min_self _).symm
  | zero s =>
    unfold UnpackedFloat.pack
    rw [packedZero, signedBits_packComponents]
    change s.apply _ = min 0 _
    cases s <;> simp [Sign.apply]
  | finite s m e hm =>
    obtain ⟨rfl, he, hm', hl⟩ := h
    have hbiased : (e + Format.binary64.exponentBias +
        Format.binary64.mantissaBitsWithoutImplicit).toNat = (e + 1075).toNat := by
      show (e + 1023 + 52).toNat = _
      omega
    have hlog : m.log2 + 1 = Format.binary64.mantissaBits ↔ 2 ^ 52 ≤ m := by
      show m.log2 + 1 = 53 ↔ _
      rw [← Nat.le_log2 hm.ne']
      have := (Nat.log2_lt hm.ne').2 hm'
      omega
    rw [rank_finite, Sign.apply]
    unfold UnpackedFloat.pack
    dsimp only
    rw [hbiased]
    split_ifs with hlarge hnormal
    · have : 2 ^ 11 ≤ (e + 1075).toNat + 1 := hlarge
      rw [min_eq_right (by omega), hinfinity]
    · have : ¬ 2 ^ 11 ≤ (e + 1075).toNat + 1 := hlarge
      have hnormal := hlog.1 hnormal
      rw [signedBits_packComponents, Sign.apply, BitVec.toNat_ofNat, BitVec.toNat_ofNat,
        Nat.mod_eq_of_lt (a := (e + 1075).toNat) (by omega), min_eq_left (by omega)]
      omega
    · have hsmall : m < 2 ^ 52 := not_le.1 fun h => hnormal (hlog.2 h)
      rw [signedBits_packComponents, Sign.apply, BitVec.toNat_ofNat, BitVec.toNat_ofNat,
        min_eq_left (by omega)]
      omega

/-- Bits that are not beyond those of the infinities are those of a number. -/
theorem isNaN_unpack {bits : BitVec 64} (hlow : 0 ≤ signedBits bits.toNat)
    (hhigh : signedBits bits.toNat ≤ 2047 * 2 ^ 52) : (unpack Format.binary64 bits).isNaN = false := by
  have hmantissa : (@unpackMantissa Format.binary64 bits).toNat = bits.toNat % 2 ^ 52 := by
    simp [unpackMantissa]
  have hexponent : (@unpackExponent Format.binary64 bits).toNat = bits.toNat / 2 ^ 52 % 2 ^ 11 := by
    simp [unpackExponent, Nat.shiftRight_eq_div_pow]
  unfold UnpackedFloat.unpack
  dsimp only
  by_cases hexp : @unpackExponent Format.binary64 bits = -BitVec.ofNat _ 1
  · rw [if_pos hexp, if_pos]
    · rfl
    · -- Other mantissas would be beyond the infinities.
      by_contra hman
      have hexp := congrArg BitVec.toNat hexp
      have hne : bits.toNat % 2 ^ 52 ≠ 0 := fun h => hman (BitVec.eq_of_toNat_eq (hmantissa.trans h))
      rw [hexponent] at hexp
      simp only [signedBits] at hlow hhigh
      simp at hexp
      split_ifs at hlow hhigh <;> omega
  · rw [if_neg hexp]
    by_cases hzero : @unpackExponent Format.binary64 bits = BitVec.ofNat _ 0
    · rw [if_pos hzero]
      by_cases hman : @unpackMantissa Format.binary64 bits = BitVec.ofNat _ 0
      · rw [dif_pos hman]
        rfl
      · rw [dif_neg hman]
        rfl
    · rw [if_neg hzero]
      rfl

/-! ## Floats that are not negative -/

/-- A float that is a number and not negative. -/
def NonNegative (x : Float) : Prop := x.isNaN = false ∧ 0 ≤ bitsRank x

/-- The size of a float. -/
def floatSize (x : Float) : ℚ := size x.toModel.unpack

theorem NonNegative.unsigned {x : Float} (h : NonNegative x) :
    Unsigned x.toModel.unpack ∧ rank x.toModel.unpack = bitsRank x := by
  obtain ⟨hcanonical, hrank⟩ := unpack_spec x.toBits.toBitVec
  have hrank : rank x.toModel.unpack = bitsRank x := hrank h.1
  refine ⟨?_, hrank⟩
  have hnan : x.toModel.unpack.isNaN = false := h.1
  have hcanonical : Canonical x.toModel.unpack := hcanonical
  have hnonneg : 0 ≤ rank x.toModel.unpack := hrank ▸ h.2
  clear hrank
  generalize x.toModel.unpack = u at *
  cases u with
  | notANumber => cases hnan
  | infinity s =>
    cases s
    · exact absurd hnonneg (by decide)
    · rfl
  | zero s => trivial
  | finite s m e hm =>
    obtain ⟨-, -, hneg, -⟩ := rank_finite_lt hcanonical
    obtain ⟨he, -, hm', hl⟩ := hcanonical
    cases s with
    | negative => exact absurd hnonneg (not_le.2 (hneg rfl))
    | positive => exact ⟨rfl, he, hm', hl⟩

theorem NonNegative.floatSize_le {x y : Float} (hx : NonNegative x) (hy : NonNegative y)
    (h : bitsRank x ≤ bitsRank y) : floatSize x ≤ floatSize y :=
  size_le_size hx.unsigned.1 hy.unsigned.1 (by rwa [hx.unsigned.2, hy.unsigned.2])

/-- A float that is packed has the rank of its parts, up to that of infinity. -/
theorem nonNegative_pack {u : UnpackedFloat} (h : Unsigned u) :
    NonNegative (.ofModel (.pack u)) ∧ bitsRank (.ofModel (.pack u)) = min (rank u) (2047 * 2 ^ 52) := by
  have hrank : bitsRank (.ofModel (.pack u)) = min (rank u) (2047 * 2 ^ 52) := signedBits_pack h
  have hnonneg : 0 ≤ bitsRank (.ofModel (.pack u)) := by
    rw [hrank, rank_eq_wideRank h]
    exact le_min (wideRank_nonneg _) (by norm_num)
  exact ⟨⟨isNaN_unpack hnonneg (hrank.trans_le (min_le_right _ _)), hnonneg⟩, hrank⟩

/-- The sum of two floats is the float that is nearest to the sum of their sizes. -/
theorem bitsRank_add {x y : Float} (hx : NonNegative x) (hy : NonNegative y) :
    NonNegative (x + y) ∧ bitsRank (x + y) = nearestRank (floatSize x + floatSize y) := by
  obtain ⟨hunsigned, hrank⟩ := add_spec hx.unsigned.1 hy.unsigned.1
  obtain ⟨hnonneg, hpacked⟩ := nonNegative_pack hunsigned
  exact ⟨hnonneg, hpacked.trans hrank⟩

theorem bitsRank_add_le {x y z : Float} (hx : NonNegative x) (hy : NonNegative y) (hz : NonNegative z)
    (h : bitsRank x ≤ bitsRank y) : bitsRank (x + z) ≤ bitsRank (y + z) := by
  rw [(bitsRank_add hx hz).2, (bitsRank_add hy hz).2]
  exact nearestRank_mono (add_le_add_left (hx.floatSize_le hy h) _)

/-- A finite float that is at least one. -/
structure Factor (x : Float) : Prop where
  nonNegative : NonNegative x
  finite : x.isFinite = true
  one_le : 1 ≤ floatSize x

/-- The product of a float and a factor is the float that is nearest to the product of their sizes. -/
theorem bitsRank_mul {x y : Float} (hx : NonNegative x) (hy : Factor y) :
    NonNegative (x * y) ∧ bitsRank (x * y) = nearestRank (floatSize x * floatSize y) := by
  have hinf : y.toModel.unpack.isInf = false := by
    have hfinite : y.toModel.unpack.isFinite = true := hy.finite
    generalize y.toModel.unpack = v at hfinite
    cases v <;> first | rfl | cases hfinite
  obtain ⟨hunsigned, hrank⟩ := mul_spec hx.unsigned.1 hy.nonNegative.unsigned.1 hinf hy.one_le
  obtain ⟨hnonneg, hpacked⟩ := nonNegative_pack hunsigned
  exact ⟨hnonneg, hpacked.trans hrank⟩

theorem bitsRank_mul_le {x y z : Float} (hx : Factor x) (hy : Factor y) (hz : NonNegative z)
    (h : bitsRank x ≤ bitsRank y) : bitsRank (z * x) ≤ bitsRank (z * y) := by
  rw [(bitsRank_mul hz hx).2, (bitsRank_mul hz hy).2]
  have hsize := hx.nonNegative.floatSize_le hy.nonNegative h
  exact nearestRank_mono (mul_le_mul_of_nonneg_left hsize (size_nonneg hz.unsigned.1))

/-! ## Doubles that are not negative -/

namespace Double

theorem zero_le_iff {c : Double} :
    Scale.le (Scale.ofNat 0) c = true ↔ ∃ x, c = .number x ∧ NonNegative x := by
  have hnan : (nearest 0 1).isNaN = false := rfl
  have hzero : bitsRank (nearest 0 1) = 0 := rfl
  cases c with
  | undefined negative => simp [Scale.le, Scale.ofNat, Scale.ofQuotient, related]
  | number x =>
    show decide (nearest 0 1 ≤ x) = true ↔ _
    rw [decide_eq_true_iff]
    refine ⟨fun h => ⟨x, rfl, ?_⟩, ?_⟩
    · have hx := (isNaN_of_le h).2
      exact ⟨hx, hzero ▸ (le_iff_bitsRank_le hnan hx).1 h⟩
    · rintro ⟨x', h, hx⟩
      cases h
      exact (le_iff_bitsRank_le hnan hx.1).2 (hzero ▸ hx.2)

theorem add_number {x y : Float} (h : NonNegative (x + y)) :
    Scale.add (.number x) (.number y) = Double.number (x + y) := by
  show ofResult (x + y) = _
  rw [ofResult, if_neg (ne_true_of_eq_false h.1)]

theorem mul_number {x y : Float} (h : NonNegative (x * y)) :
    Scale.mul (.number x) (.number y) = Double.number (x * y) := by
  show ofResult (x * y) = _
  rw [ofResult, if_neg (ne_true_of_eq_false h.1)]

/-- A sum of doubles that are not negative is not negative. -/
theorem zero_le_add {c d : Double} (hc : Scale.le (Scale.ofNat 0) c = true)
    (hd : Scale.le (Scale.ofNat 0) d = true) : Scale.le (Scale.ofNat 0) (Scale.add c d) = true := by
  obtain ⟨x, rfl, hx⟩ := zero_le_iff.1 hc
  obtain ⟨y, rfl, hy⟩ := zero_le_iff.1 hd
  have hsum := (bitsRank_add hx hy).1
  exact zero_le_iff.2 ⟨x + y, add_number hsum, hsum⟩

/-- The larger of a finite number and one is a factor. -/
theorem exists_factor {q : Double} (hq : Scale.isFinite q = true) :
    ∃ x y, q = .number x ∧ Scale.max q (Scale.ofNat 1) = .number y ∧ Factor y ∧
      bitsRank y = max (bitsRank x) (bitsRank (nearest 1 1)) := by
  cases q with
  | undefined => cases hq
  | number x =>
    have hone : NonNegative (nearest 1 1) := ⟨rfl, by decide⟩
    have hsize : floatSize (nearest 1 1) = 1 := by
      have hparts : (nearest 1 1).toModel.unpack = .finite .positive (2 ^ 52) (-52) (by norm_num) := rfl
      rw [floatSize, hparts, size_finite]
      norm_num
    have hnan : x.isNaN = false := by
      have hfinite : x.toModel.unpack.isFinite = true := hq
      show x.toModel.unpack.isNaN = false
      generalize x.toModel.unpack = u at hfinite
      cases u <;> first | rfl | cases hfinite
    by_cases hlt : x < nearest 1 1
    · have hmax : max (bitsRank x) (bitsRank (nearest 1 1)) = bitsRank (nearest 1 1) :=
        max_eq_right ((lt_iff_bitsRank_lt hnan hone.1).1 hlt).le
      exact ⟨x, nearest 1 1, rfl, if_pos (decide_eq_true hlt), ⟨hone, rfl, hsize.ge⟩, hmax.symm⟩
    · have hle : bitsRank (nearest 1 1) ≤ bitsRank x :=
        not_lt.1 fun h => hlt ((lt_iff_bitsRank_lt hnan hone.1).2 h)
      have hnonneg : NonNegative x := ⟨hnan, hone.2.trans hle⟩
      have hfactor : Factor x := ⟨hnonneg, hq, hsize.symm.trans_le (hone.floatSize_le hnonneg hle)⟩
      exact ⟨x, x, rfl, if_neg fun h => hlt (of_decide_eq_true h), hfactor, (max_eq_left hle).symm⟩

/-- What exceeds a multiple of a double that is not negative exceeds smaller multiples as well. -/
theorem lt_of_factor_le {best c tolerance q₁ q₂ : Double}
    (hbest : Scale.le (Scale.ofNat 0) best = true) (htolerance : Scale.le (Scale.ofNat 0) tolerance = true)
    (hq₁ : Scale.isFinite q₁ = true) (hq₂ : Scale.isFinite q₂ = true) (hle : Scale.le q₁ q₂ = true)
    (hlt : Scale.lt (Scale.add (Scale.mul best (Scale.max q₂ (Scale.ofNat 1))) tolerance) c = true) :
    Scale.lt (Scale.add (Scale.mul best (Scale.max q₁ (Scale.ofNat 1))) tolerance) c = true := by
  obtain ⟨b, rfl, hb⟩ := zero_le_iff.1 hbest
  obtain ⟨z, rfl, hz⟩ := zero_le_iff.1 htolerance
  obtain ⟨x₁, y₁, rfl, hmax₁, hy₁, hrank₁⟩ := exists_factor hq₁
  obtain ⟨x₂, y₂, rfl, hmax₂, hy₂, hrank₂⟩ := exists_factor hq₂
  have hproduct {y : Float} (hy : Factor y) : NonNegative (b * y) := (bitsRank_mul hb hy).1
  have hsum {y : Float} (hy : Factor y) : NonNegative (b * y + z) := (bitsRank_add (hproduct hy) hz).1
  rw [hmax₂, mul_number (hproduct hy₂), add_number (hsum hy₂)] at hlt
  rw [hmax₁, mul_number (hproduct hy₁), add_number (hsum hy₁)]
  cases c with
  | undefined => cases hlt
  | number c =>
    have hlt : b * y₂ + z < c := of_decide_eq_true hlt
    have hfactors : bitsRank y₁ ≤ bitsRank y₂ := by
      have hle : x₁ ≤ x₂ := of_decide_eq_true hle
      obtain ⟨hn₁, hn₂⟩ := isNaN_of_le hle
      rw [hrank₁, hrank₂]
      exact max_le_max_right _ ((le_iff_bitsRank_le hn₁ hn₂).1 hle)
    have hbounds : bitsRank (b * y₁ + z) ≤ bitsRank (b * y₂ + z) :=
      bitsRank_add_le (hproduct hy₁) (hproduct hy₂) hz (bitsRank_mul_le hy₁ hy₂ hb hfactors)
    have hc := (isNaN_of_lt hlt).2
    refine decide_eq_true ((lt_iff_bitsRank_lt (hsum hy₁).1 hc).2 ?_)
    exact hbounds.trans_lt ((lt_iff_bitsRank_lt (hsum hy₂).1 hc).1 hlt)

end Double

end Waymark.Number
