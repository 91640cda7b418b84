import Mathlib.Tactic
import Waymark.Number.Double

/-!
# The order of doubles

Doubles are sorted by a number that their bits give, and compared by their parts. Both agree on numbers:
the bits after the sign, read as a natural number, ascend with the size, since a larger exponent
outweighs every mantissa.

* `rank`: an unpacked float as a signed number, with `compare_eq_rank`;
* `unpack_spec`: the bits of a float say its rank, so floats compare like their bits
  (`lt_iff_bitsRank_lt`);
* `lt_of_lt_of_place_le`: what is smaller than a number is smaller than all that are sorted after it;
* `Double.Regular`: what sums of numbers are, and `Double.order` is a total preorder.
-/

namespace Waymark.Number

open Float.Model Float.Model.UnpackedFloat

/-! ## Parts of a float -/

/-- The place of an unpacked float on the line of signed numbers. -/
def rank : UnpackedFloat → Int
  | .infinity s => s.apply (2047 * 2 ^ 52)
  | .notANumber => 0
  | .zero _ => 0
  | .finite s m e _ => s.apply ((e + 1074) * 2 ^ 52 + m)

theorem rank_finite (s : Sign) (m : Nat) (e : Int) (hm : 0 < m) :
    rank (.finite s m e hm) = s.apply ((e + 1074) * 2 ^ 52 + m) := rfl

/-- The parts are those of a float: only the smallest exponent goes with a small mantissa. -/
def Canonical : UnpackedFloat → Prop
  | .finite _ m e _ => -1074 ≤ e ∧ e ≤ 971 ∧ m < 2 ^ 53 ∧ (e = -1074 ∨ 2 ^ 52 ≤ m)
  | _ => True

theorem compare_finite {e₁ e₂ : Int} {m₁ m₂ : Nat} (h₁ : -1074 ≤ e₁) (h₂ : -1074 ≤ e₂)
    (hm₁ : m₁ < 2 ^ 53) (hm₂ : m₂ < 2 ^ 53) (hl₁ : e₁ = -1074 ∨ 2 ^ 52 ≤ m₁)
    (hl₂ : e₂ = -1074 ∨ 2 ^ 52 ≤ m₂) :
    (compare e₁ e₂).then (compare m₁ m₂) =
      compare ((e₁ + 1074) * 2 ^ 52 + m₁) ((e₂ + 1074) * 2 ^ 52 + (m₂ : Int)) := by
  rcases lt_trichotomy e₁ e₂ with h | rfl | h
  · have hr : (e₁ + 1074) * 2 ^ 52 + m₁ < (e₂ + 1074) * 2 ^ 52 + (m₂ : Int) := by omega
    rw [compare_lt_iff_lt.2 h, compare_lt_iff_lt.2 hr]
    rfl
  · rw [compare_eq_iff_eq.2 rfl]
    show compare m₁ m₂ = _
    rcases lt_trichotomy m₁ m₂ with h | rfl | h
    · rw [compare_lt_iff_lt.2 h, compare_lt_iff_lt.2 (by omega)]
    · rw [compare_eq_iff_eq.2 rfl, compare_eq_iff_eq.2 rfl]
    · rw [compare_gt_iff_gt.2 h, compare_gt_iff_gt.2 (by omega)]
  · have hr : (e₂ + 1074) * 2 ^ 52 + m₂ < (e₁ + 1074) * 2 ^ 52 + (m₁ : Int) := by omega
    rw [compare_gt_iff_gt.2 h, compare_gt_iff_gt.2 hr]
    rfl

theorem swap_compare_neg (x y : Int) : (compare x y).swap = compare (-x) (-y) := by
  rcases lt_trichotomy x y with h | rfl | h
  · rw [compare_lt_iff_lt.2 h, compare_gt_iff_gt.2 (by omega)]
    rfl
  · rw [compare_eq_iff_eq.2 rfl, compare_eq_iff_eq.2 rfl]
    rfl
  · rw [compare_gt_iff_gt.2 h, compare_lt_iff_lt.2 (by omega)]
    rfl

/-- The rank of a number with a sign. -/
theorem rank_finite_lt {s : Sign} {m : Nat} {e : Int} {hm : 0 < m}
    (h : Canonical (.finite s m e hm)) :
    -(2047 * 2 ^ 52) < rank (.finite s m e hm) ∧ rank (.finite s m e hm) < 2047 * 2 ^ 52 ∧
      (s = .negative → rank (.finite s m e hm) < 0) ∧ (s = .positive → 0 < rank (.finite s m e hm)) := by
  obtain ⟨he, he', hm', -⟩ := h
  rw [rank_finite]
  cases s
  · refine ⟨?_, ?_, fun _ => ?_, fun h => by cases h⟩ <;> simp only [Sign.apply] <;> omega
  · refine ⟨?_, ?_, (fun h => by cases h), fun _ => ?_⟩ <;> simp only [Sign.apply] <;> omega

/-- Numbers compare like their ranks. -/
theorem compare_eq_rank {u v : UnpackedFloat} (hu : Canonical u) (hv : Canonical v)
    (hnu : u.isNaN = false) (hnv : v.isNaN = false) :
    u.compare v = some (compare (rank u) (rank v)) := by
  have hlt {x y : Int} (h : x < y) : some Ordering.lt = some (compare x y) := by
    rw [compare_lt_iff_lt.2 h]
  have hgt {x y : Int} (h : y < x) : some Ordering.gt = some (compare x y) := by
    rw [compare_gt_iff_gt.2 h]
  cases u with
  | notANumber => cases hnu
  | infinity s =>
    cases v with
    | notANumber => cases hnv
    | infinity t => cases s <;> cases t <;> rfl
    | zero t => cases s <;> cases t <;> rfl
    | finite t n f hn =>
      obtain ⟨hf, hf', -, -⟩ := rank_finite_lt hv
      cases s
      · exact hlt hf
      · exact hgt hf'
  | zero s =>
    cases v with
    | notANumber => cases hnv
    | infinity t => cases s <;> cases t <;> rfl
    | zero t => cases s <;> cases t <;> rfl
    | finite t n f hn =>
      obtain ⟨-, -, hneg, hpos⟩ := rank_finite_lt hv
      cases t
      · exact hgt (hneg rfl)
      · exact hlt (hpos rfl)
  | finite s m e hm =>
    obtain ⟨hlow, hhigh, hneg, hpos⟩ := rank_finite_lt hu
    cases v with
    | notANumber => cases hnv
    | infinity t =>
      cases t
      · cases s <;> exact hgt hlow
      · cases s <;> exact hlt hhigh
    | zero t =>
      cases s
      · exact hlt (hneg rfl)
      · exact hgt (hpos rfl)
    | finite t n f hn =>
      obtain ⟨-, -, hneg', hpos'⟩ := rank_finite_lt hv
      obtain ⟨he, -, hm', hl⟩ := hu
      obtain ⟨hf, -, hn', hk⟩ := hv
      have hsizes := compare_finite he hf hm' hn' hl hk
      cases s <;> cases t
      · show some ((compare e f).then (compare m n)).swap = some (compare (-_) (-_))
        rw [hsizes, swap_compare_neg]
      · exact hlt ((hneg rfl).trans (hpos' rfl))
      · exact hgt ((hneg' rfl).trans (hpos rfl))
      · exact congrArg some hsizes

/-! ## Bits -/

/-- The signed number that the bits of a float give, those after the sign being its size. -/
def signedBits (n : Nat) : Int := if n < 2 ^ 63 then n else -(n - 2 ^ 63 : Int)

theorem apply_sign (bits : BitVec 64) (n : Nat) (h : bits.toNat % 2 ^ 63 = n) :
    (Sign.ofBitVec (@unpackSign Format.binary64 bits)).apply n = signedBits bits.toNat := by
  have hs : (@unpackSign Format.binary64 bits).toNat = bits.toNat / 2 ^ 63 := by
    show (bits.extractLsb 63 63).toNat = _
    simp [Nat.shiftRight_eq_div_pow]
    omega
  have hlt := bits.isLt
  unfold Sign.ofBitVec signedBits
  split
  · rename_i hzero
    rw [← BitVec.toNat_inj, hs] at hzero
    have hpos : bits.toNat < 2 ^ 63 := by simp at hzero; omega
    rw [if_pos hpos, Sign.apply]
    omega
  · rename_i hone
    rw [← BitVec.toNat_inj, hs] at hone
    have hneg : ¬ bits.toNat < 2 ^ 63 := by simp at hone; omega
    rw [if_neg hneg, Sign.apply]
    omega

/-- Unpacking the bits of a float gives parts of the rank that the bits say. -/
theorem unpack_spec (bits : BitVec 64) :
    Canonical (unpack Format.binary64 bits) ∧
      ((unpack Format.binary64 bits).isNaN = false →
        rank (unpack Format.binary64 bits) = signedBits bits.toNat) := by
  have hm : (@unpackMantissa Format.binary64 bits).toNat = bits.toNat % 2 ^ 52 := by
    simp [unpackMantissa]
  have he : (@unpackExponent Format.binary64 bits).toNat = bits.toNat / 2 ^ 52 % 2 ^ 11 := by
    simp [unpackExponent, Nat.shiftRight_eq_div_pow]
  have hsign := apply_sign bits
  have hbias : (Format.binary64.exponentBias : Int) + (52 : Nat) = 1075 := rfl
  generalize hu : unpack Format.binary64 bits = u
  unfold UnpackedFloat.unpack at hu
  dsimp only at hu
  rw [hbias] at hu
  generalize Sign.ofBitVec _ = s at hu hsign
  by_cases hexp : @unpackExponent Format.binary64 bits = -1#_
  · rw [if_pos hexp] at hu
    have hexp := congrArg BitVec.toNat hexp
    rw [he] at hexp
    by_cases hman : @unpackMantissa Format.binary64 bits = 0#_
    · rw [if_pos hman] at hu
      have hman := congrArg BitVec.toNat hman
      rw [hm] at hman
      subst hu
      refine ⟨trivial, fun _ => hsign (2047 * 2 ^ 52) ?_⟩
      simp at hexp hman
      omega
    · rw [if_neg hman] at hu
      subst hu
      exact ⟨trivial, fun h => absurd h (by decide)⟩
  rw [if_neg hexp] at hu
  by_cases hzero : @unpackExponent Format.binary64 bits = 0#_
  · rw [if_pos hzero] at hu
    have hzero := congrArg BitVec.toNat hzero
    rw [he] at hzero
    by_cases hman : @unpackMantissa Format.binary64 bits = 0#_
    · rw [dif_pos hman] at hu
      have hman := congrArg BitVec.toNat hman
      rw [hm] at hman
      subst hu
      refine ⟨trivial, fun _ => ?_⟩
      rw [← hsign 0 (by simp at hzero hman; omega)]
      cases s <;> rfl
    · rw [dif_neg hman] at hu
      subst hu
      simp at hzero
      refine ⟨⟨by omega, by omega, by omega, .inl (by omega)⟩, fun _ => ?_⟩
      rw [← hsign (bits.toNat % 2 ^ 52) (by omega), rank_finite]
      congr 1
      omega
  · rw [if_neg hzero] at hu
    have hmax : bits.toNat / 2 ^ 52 % 2 ^ 11 ≠ 2047 := fun h =>
      hexp (BitVec.eq_of_toNat_eq (by rw [he, h]; rfl))
    have hmin : bits.toNat / 2 ^ 52 % 2 ^ 11 ≠ 0 := fun h =>
      hzero (BitVec.eq_of_toNat_eq (by rw [he, h]; rfl))
    have happend : (1#1 ++ @unpackMantissa Format.binary64 bits).toNat =
        2 ^ 52 + bits.toNat % 2 ^ 52 := by
      rw [BitVec.toNat_append, ← Nat.shiftLeft_add_eq_or_of_lt (BitVec.isLt _), hm]
      rfl
    subst hu
    refine ⟨⟨by omega, by omega, by omega, .inr (by omega)⟩, fun _ => ?_⟩
    rw [← hsign (bits.toNat % 2 ^ 63) rfl, rank_finite]
    congr 1
    omega

/-! ## Comparing and sorting -/

/-- The bits of a float as a signed number. -/
def bitsRank (x : Float) : Int := signedBits x.toBits.toNat

theorem lt_iff_unpack {x y : Float} : x < y ↔ x.toModel.unpack.lt y.toModel.unpack = true := by
  show decide (x.toModel < y.toModel) = true ↔ _
  rw [decide_eq_true_iff]
  rfl

theorem le_iff_unpack {x y : Float} : x ≤ y ↔ x.toModel.unpack.le y.toModel.unpack = true := by
  show decide (x.toModel ≤ y.toModel) = true ↔ _
  rw [decide_eq_true_iff]
  rfl

theorem compare_unpack {x y : Float} (hx : x.isNaN = false) (hy : y.isNaN = false) :
    x.toModel.unpack.compare y.toModel.unpack = some (compare (bitsRank x) (bitsRank y)) := by
  have hux := unpack_spec x.toBits.toBitVec
  have huy := unpack_spec y.toBits.toBitVec
  have hcompare := compare_eq_rank hux.1 huy.1 hx hy
  rw [hux.2 hx, huy.2 hy] at hcompare
  exact hcompare

/-- Numbers compare like their bits. -/
theorem lt_iff_bitsRank_lt {x y : Float} (hx : x.isNaN = false) (hy : y.isNaN = false) :
    x < y ↔ bitsRank x < bitsRank y := by
  rw [lt_iff_unpack, UnpackedFloat.lt, compare_unpack hx hy, beq_iff_eq, Option.some.injEq,
    compare_lt_iff_lt]

theorem le_iff_bitsRank_le {x y : Float} (hx : x.isNaN = false) (hy : y.isNaN = false) :
    x ≤ y ↔ bitsRank x ≤ bitsRank y := by
  rw [le_iff_unpack, UnpackedFloat.le, compare_unpack hx hy, Option.any_some, Std.isLE_compare]

theorem isNaN_of_lt {x y : Float} (h : x < y) : x.isNaN = false ∧ y.isNaN = false := by
  rw [lt_iff_unpack] at h
  show x.toModel.unpack.isNaN = false ∧ y.toModel.unpack.isNaN = false
  generalize x.toModel.unpack = u at h ⊢
  generalize y.toModel.unpack = v at h ⊢
  cases u <;> cases v <;> first | exact ⟨rfl, rfl⟩ | cases h

theorem isNaN_of_le {x y : Float} (h : x ≤ y) : x.isNaN = false ∧ y.isNaN = false := by
  rw [le_iff_unpack] at h
  show x.toModel.unpack.isNaN = false ∧ y.toModel.unpack.isNaN = false
  generalize x.toModel.unpack = u at h ⊢
  generalize y.toModel.unpack = v at h ⊢
  cases u <;> cases v <;> first | exact ⟨rfl, rfl⟩ | cases h

theorem toNat_place (x : Float) :
    (Double.place x).toNat =
      if x.toBits.toNat < 2 ^ 63 then x.toBits.toNat + 2 ^ 63 else 2 ^ 64 - 1 - x.toBits.toNat := by
  have hx := x.toBits.toNat_lt
  have hsplit : x.toBits < 0x8000000000000000 ↔ x.toBits.toNat < 2 ^ 63 := UInt64.lt_iff_toNat_lt
  unfold Double.place
  simp only [hsplit]
  split
  · rw [UInt64.toNat_add, Nat.mod_eq_of_lt]
    · rfl
    · show x.toBits.toNat + 2 ^ 63 < 2 ^ 64
      omega
  · rw [UInt64.toNat_not]
    rfl

theorem bitsRank_le_of_place_le {x y : Float} (h : Double.place x ≤ Double.place y) :
    bitsRank x ≤ bitsRank y := by
  have hx := x.toBits.toNat_lt
  have hy := y.toBits.toNat_lt
  rw [UInt64.le_iff_toNat_le, toNat_place, toNat_place] at h
  unfold bitsRank signedBits
  split at h <;> split at h <;> simp only [*, if_true, if_false] <;> omega

/-- What is smaller than a number is smaller than the numbers that are sorted after it. -/
theorem lt_of_lt_of_place_le {z x y : Float} (hy : y.isNaN = false) (h : z < x)
    (hplace : Double.place x ≤ Double.place y) : z < y := by
  obtain ⟨hz, hx⟩ := isNaN_of_lt h
  rw [lt_iff_bitsRank_lt hz hx] at h
  rw [lt_iff_bitsRank_lt hz hy]
  exact h.trans_le (bitsRank_le_of_place_le hplace)

/-! ## Doubles -/

namespace Double

/-- A number, or the undefined value that is sorted before all numbers. Sums of numbers are such. -/
def Regular : Double → Prop
  | .number x => x.isNaN = false
  | .undefined negative => negative = true

theorem regular_ofResult (x : Float) : Regular (ofResult x) := by
  unfold ofResult
  split
  · rfl
  · rename_i h
    simpa [Regular] using h

/-- Adding a number to a regular double gives a regular one. -/
theorem Regular.add {x y z : Double} (hx : x.Regular) (hy : Scale.le z y = true) :
    (Scale.add x y).Regular := by
  cases x with
  | undefined negative => exact hx
  | number x =>
    cases y with
    | number y => exact regular_ofResult _
    | undefined negative => cases z <;> cases hy

theorem lt_of_lt_of_order_ne_gt {z x y : Double} (hy : y.Regular) (h : Scale.lt z x = true)
    (horder : Scale.order x y ≠ .gt) : Scale.lt z y = true := by
  cases z with
  | undefined => cases h
  | number z =>
    cases x with
    | undefined => cases h
    | number x =>
      cases y with
      | undefined negative =>
        rw [show negative = true from hy] at horder
        exact (horder rfl).elim
      | number y =>
        have hplace : place x ≤ place y := Std.isLE_compare.1 (Ordering.isLE_iff_ne_gt.2 horder)
        exact decide_eq_true (lt_of_lt_of_place_le hy (of_decide_eq_true h) hplace)

/-- What numbers are sorted by. -/
def key : Double → UInt64
  | .number x => place x
  | .undefined _ => 0

theorem order_eq : order = compareLex (compareOn side) (compareOn key) := by
  funext x y
  cases x with
  | number x =>
    cases y with
    | number y => rfl
    | undefined s => cases s <;> rfl
  | undefined s =>
    cases y with
    | number y => cases s <;> rfl
    | undefined t => cases s <;> cases t <;> rfl

instance : Std.TransCmp order := order_eq ▸ inferInstance

end Double

instance : Std.TransCmp (Scale.order (κ := Double)) := inferInstanceAs (Std.TransCmp Double.order)

end Waymark.Number
