import ParallelRsp.Simd.Masks
import Mathlib.Tactic.Ring
import Mathlib.Tactic.Linarith

/-!
# Limbs

A 48-bit number kept in three 16-bit lanes. The limbs are joined to one number, whose
value is linear in the limbs; addition limb by limb, with the carries handed on, is
addition of the numbers; and the two halves of a 16-bit product, signed, unsigned or
mixed, join to the product.
-/

namespace ParallelRsp.Simd

/-- The 48-bit number with the given limbs, high limb first. -/
def join3 (hi md lo : BitVec 16) : BitVec 48 := hi ++ md ++ lo

theorem toNat_append16 {n : ℕ} (x : BitVec n) (y : BitVec 16) :
    (x ++ y).toNat = 2 ^ 16 * x.toNat + y.toNat := by
  rw [BitVec.toNat_append, ← Nat.shiftLeft_add_eq_or_of_lt y.isLt, Nat.shiftLeft_eq, Nat.mul_comm]

theorem toInt_append16 {n : ℕ} (x : BitVec n) (y : BitVec 16) (hn : 0 < n) :
    (x ++ y).toInt = 2 ^ 16 * x.toInt + y.toNat := by
  rw [BitVec.toInt_append, if_neg (by simp; omega)]

theorem toNat_join3 (hi md lo : BitVec 16) :
    (join3 hi md lo).toNat = 2 ^ 32 * hi.toNat + 2 ^ 16 * md.toNat + lo.toNat := by
  unfold join3
  rw [toNat_append16, toNat_append16]
  omega

theorem toInt_join3 (hi md lo : BitVec 16) :
    (join3 hi md lo).toInt = 2 ^ 32 * hi.toInt + 2 ^ 16 * md.toNat + lo.toNat := by
  unfold join3
  rw [toInt_append16 _ _ (by omega), toInt_append16 _ _ (by omega)]
  omega

/-- The upper 32 bits of the joined number. -/
theorem extractLsb'_join3 (hi md lo : BitVec 16) :
    (join3 hi md lo).extractLsb' 16 32 = hi ++ md := by
  unfold join3
  exact BitVec.extractLsb'_append_eq_left

theorem extractLsb'_join3_lo (hi md lo : BitVec 16) : (join3 hi md lo).extractLsb' 0 16 = lo := by
  unfold join3
  exact BitVec.extractLsb'_append_eq_right

/-- Limbs that add up to `p` join to `p`. -/
theorem join3_eq_ofInt {hi md lo : BitVec 16} {p : ℤ}
    (h : 2 ^ 32 * hi.toInt + 2 ^ 16 * md.toNat + lo.toNat = p) :
    join3 hi md lo = BitVec.ofInt 48 p := by
  rw [← h, ← toInt_join3, BitVec.ofInt_toInt]

/-! ### Addition with carries -/

/-- Whether an addition carries. -/
def carries (x y : BitVec 16) : Prop := 2 ^ 16 ≤ x.toNat + y.toNat

instance (x y : BitVec 16) : Decidable (carries x y) := inferInstanceAs (Decidable (_ ≤ _))

/-- A wrapping sum and its carry. -/
theorem toNat_add_carries (x y : BitVec 16) :
    (x + y).toNat + 2 ^ 16 * (if carries x y then 1 else 0) = x.toNat + y.toNat := by
  have hx := x.isLt
  have hy := y.isLt
  rw [BitVec.toNat_add]
  by_cases h : carries x y
  · rw [if_pos h]
    unfold carries at h
    omega
  · rw [if_neg h]
    unfold carries at h
    omega

/-- The carries of a lane-wise addition, as masks. -/
def carryLanes (a b : M128i) : M128i := fun i => maskOf (carries (a i) (b i))

/-- The carries, as the saturating sum tells them. -/
theorem carryLanes_eq (a b : M128i) :
    mmCmpeqEpi16 (mmCmpeqEpi16 (mmAddEpi16 a b) (mmAddsEpu16 a b)) mmSetzeroSi128 =
      carryLanes a b :=
  funext fun i => carryMask_eq (a i) (b i)

/-- Adding limb by limb is adding: `h1` and `m1` are the upper limbs of the second
number with the carry of the low limbs already folded in. -/
theorem join3_add {hi md lo phi pmd plo h1 m1 : BitVec 16}
    (h : (2 ^ 16 * h1.toNat + m1.toNat) % 2 ^ 32 =
      (2 ^ 16 * phi.toNat + pmd.toNat + (if carries lo plo then 1 else 0)) % 2 ^ 32) :
    join3 (hi + h1 - maskOf (carries md m1)) (md + m1) (lo + plo) =
      join3 hi md lo + join3 phi pmd plo := by
  have elo := toNat_add_carries lo plo
  have emd := toNat_add_carries md m1
  have ehi := toNat_sub_maskOf (hi + h1) (carries md m1)
  have hlo := (lo + plo).isLt
  have hmd := (md + m1).isLt
  rw [BitVec.toNat_add] at ehi
  apply BitVec.eq_of_toNat_eq
  rw [BitVec.toNat_add, toNat_join3, toNat_join3, toNat_join3]
  generalize (hi + h1 - maskOf (carries md m1)).toNat = hi' at *
  generalize (md + m1).toNat = md' at *
  generalize (lo + plo).toNat = lo' at *
  generalize (if carries lo plo then 1 else 0) = c1 at *
  generalize (if carries md m1 then 1 else 0) = c2 at *
  omega

/-! ### Products -/

theorem toInt_eq_toNat16 (x : BitVec 16) :
    x.toInt = x.toNat - 2 ^ 16 * (if x.toInt < 0 then 1 else 0) := by
  rw [BitVec.toInt_eq_toNat_cond]
  have := x.isLt
  split <;> split <;> omega

/-- A shift by 15 is the sign, as a number. -/
theorem toInt_sshiftRight_fifteen (x : BitVec 16) :
    (x.sshiftRight 15).toInt = -(if x.toInt < 0 then 1 else 0) := by
  rw [sshiftRight_fifteen]
  unfold maskOf
  split <;> rfl

/-- The low half of a product does not depend on the signs. -/
theorem toNat_mul_mod (x y : BitVec 16) : ((x * y).toNat : ℤ) = (x.toInt * y.toInt) % 2 ^ 16 := by
  have h : x * y = BitVec.ofInt 16 (x.toInt * y.toInt) := by
    rw [BitVec.ofInt_mul, BitVec.ofInt_toInt, BitVec.ofInt_toInt]
  rw [h, BitVec.toNat_ofInt]
  omega

theorem toNat_mul_mod_mixed (x y : BitVec 16) :
    ((x * y).toNat : ℤ) = (x.toInt * y.toNat) % 2 ^ 16 := by
  have h : x * y = BitVec.ofInt 16 (x.toInt * y.toNat) := by
    rw [BitVec.ofInt_mul, BitVec.ofInt_toInt, BitVec.ofInt_natCast, BitVec.ofNat_toNat,
      BitVec.setWidth_eq]
  rw [h, BitVec.toNat_ofInt]
  omega

/-- A signed product fits 31 bits and a sign. -/
theorem signed_product_bounds (x y : BitVec 16) :
    -2 ^ 30 + 2 ^ 15 ≤ x.toInt * y.toInt ∧ x.toInt * y.toInt ≤ 2 ^ 30 := by
  have h1 := BitVec.toInt_lt (x := x)
  have h2 := BitVec.le_toInt (x := x)
  have h3 := BitVec.toInt_lt (x := y)
  have h4 := BitVec.le_toInt (x := y)
  norm_num at h1 h2 h3 h4 ⊢
  constructor <;> nlinarith

/-- A product of a signed and an unsigned factor leaves room for a carry. -/
theorem mixed_product_bounds (x y : BitVec 16) :
    -2 ^ 31 + 2 ^ 15 ≤ x.toInt * y.toNat ∧ x.toInt * y.toNat ≤ 2 ^ 31 - 2 ^ 16 - 2 ^ 15 + 1 := by
  have h1 := BitVec.toInt_lt (x := x)
  have h2 := BitVec.le_toInt (x := x)
  have h3 : (y.toNat : ℤ) < 2 ^ 16 := by exact_mod_cast y.isLt
  have h4 : (0 : ℤ) ≤ y.toNat := by positivity
  norm_num at h1 h2 h3 ⊢
  constructor <;> nlinarith

/-- The two halves of a signed product. -/
theorem mulhi_signed (x y : BitVec 16) :
    (BitVec.ofInt 16 (x.toInt * y.toInt / 2 ^ 16)).toInt = x.toInt * y.toInt / 2 ^ 16 := by
  have := signed_product_bounds x y
  exact BitVec.toInt_ofInt_eq_self (by omega) (by omega) (by omega)

theorem ofInt_sub (a b : ℤ) : BitVec.ofInt 16 (a - b) = BitVec.ofInt 16 a - BitVec.ofInt 16 b := by
  rw [Int.sub_eq_add_neg, BitVec.ofInt_add, BitVec.ofInt_neg, BitVec.sub_eq_add_neg]

/-- The high half of an unsigned product, corrected where the signed factor is negative,
is the high half of the mixed product. -/
theorem mulhi_mixed (x y : BitVec 16) :
    (BitVec.ofNat 16 (x.toNat * y.toNat / 2 ^ 16) - (y &&& x.sshiftRight 15)).toInt =
      x.toInt * y.toNat / 2 ^ 16 := by
  have hb := mixed_product_bounds x y
  have hx := toInt_eq_toNat16 x
  have key : BitVec.ofNat 16 (x.toNat * y.toNat / 2 ^ 16) - (y &&& x.sshiftRight 15) =
      BitVec.ofInt 16 (x.toInt * y.toNat / 2 ^ 16) := by
    rw [sshiftRight_fifteen]
    by_cases hn : x.toInt < 0
    · have hm : y &&& maskOf (x.toInt < 0) = y := by
        rw [maskOf, if_pos hn]
        exact BitVec.and_allOnes
      have hp : x.toInt * y.toNat = (x.toNat * y.toNat : ℕ) - 2 ^ 16 * (y.toNat : ℤ) := by
        rw [hx, if_pos hn]
        push_cast
        ring
      rw [hm, hp, Int.sub_mul_ediv_left _ _ (by norm_num), ofInt_sub, BitVec.ofInt_natCast,
        BitVec.ofNat_toNat, BitVec.setWidth_eq]
      rfl
    · have hm : y &&& maskOf (x.toInt < 0) = 0#16 := by
        rw [maskOf, if_neg hn]
        exact BitVec.and_zero
      have hp : x.toInt * y.toNat = (x.toNat * y.toNat : ℕ) := by
        rw [hx, if_neg hn]
        push_cast
        ring
      rw [hm, hp, BitVec.sub_zero]
      rfl
  rw [key]
  exact BitVec.toInt_ofInt_eq_self (by omega) (by omega) (by omega)

/-- The two halves of a number, the high one extended by its sign, join to the number. -/
theorem join3_halves {h lo : BitVec 16} {p : ℤ} (hh : h.toInt = p / 2 ^ 16)
    (hlo : (lo.toNat : ℤ) = p % 2 ^ 16) : join3 (h.sshiftRight 15) h lo = BitVec.ofInt 48 p := by
  apply join3_eq_ofInt
  rw [toInt_sshiftRight_fifteen]
  have := toInt_eq_toNat16 h
  generalize (if h.toInt < 0 then (1 : ℤ) else 0) = s at *
  omega

/-- A limb under its own sign is the limb's value, modulo `2 ^ 32`. -/
theorem signed_limb (h : BitVec 16) :
    (2 ^ 16 * ((h.sshiftRight 15).toNat : ℤ) + h.toNat) % 2 ^ 32 = h.toInt % 2 ^ 32 := by
  have hn := toInt_eq_toNat16 h
  have hs := toInt_eq_toNat16 (h.sshiftRight 15)
  rw [toInt_sshiftRight_fifteen] at hs
  by_cases hh : h.toInt < 0
  · simp only [hh, if_true] at hn hs
    omega
  · simp only [hh, if_false] at hn hs
    omega

/-- A carry folded into a high half that has room for it is a carry into the number. -/
theorem fold_carry {h : BitVec 16} (p : Prop) [Decidable p] (hb : h.toInt < 2 ^ 15 - 1) :
    (2 ^ 16 * ((h - maskOf p).sshiftRight 15).toNat + (h - maskOf p).toNat) % 2 ^ 32 =
      (2 ^ 16 * (h.sshiftRight 15).toNat + h.toNat + if p then 1 else 0) % 2 ^ 32 := by
  have hsub : (h - maskOf p).toInt = h.toInt + if p then 1 else 0 := by
    have hlow := BitVec.le_toInt (x := h)
    have hm : (maskOf p).toInt = -if p then 1 else 0 := by
      unfold maskOf
      split <;> rfl
    rw [BitVec.toInt_sub, hm, Int.bmod_eq_of_le]
    · omega
    · split <;> omega
    · split <;> omega
  have h1 := signed_limb h
  have h2 := signed_limb (h - maskOf p)
  rw [hsub] at h2
  by_cases hp : p
  · simp only [hp, if_true] at h2 ⊢
    omega
  · simp only [hp, if_false] at h2 ⊢
    omega

/-- The same after doubling the number. -/
theorem join3_doubled {h lo : BitVec 16} {p : ℤ} (hh : h.toInt = p / 2 ^ 16)
    (hlo : (lo.toNat : ℤ) = p % 2 ^ 16) (hb : -2 ^ 30 ≤ p ∧ p ≤ 2 ^ 30) :
    join3 (h.sshiftRight 15) (h <<< 1 ||| lo >>> 15) (lo <<< 1) = BitVec.ofInt 48 (2 * p) := by
  apply join3_eq_ofInt
  have hn := toInt_eq_toNat16 h
  have hl := lo.isLt
  have hor : (h <<< 1 ||| lo >>> 15).toNat = 2 * h.toNat % 2 ^ 16 + lo.toNat / 2 ^ 15 := by
    rw [BitVec.toNat_or, BitVec.toNat_shiftLeft, BitVec.toNat_ushiftRight, Nat.shiftLeft_eq,
      Nat.shiftRight_eq_div_pow]
    have h2 : h.toNat * 2 ^ 1 % 2 ^ 16 = (h.toNat % 2 ^ 15) <<< 1 := by
      rw [Nat.shiftLeft_eq]
      omega
    rw [h2, ← Nat.shiftLeft_add_eq_or_of_lt (by omega), Nat.shiftLeft_eq]
    omega
  have hshift : (lo <<< 1).toNat = 2 * lo.toNat % 2 ^ 16 := by
    rw [BitVec.toNat_shiftLeft, Nat.shiftLeft_eq, Nat.mul_comm]
  rw [toInt_sshiftRight_fifteen, hor, hshift]
  split at hn <;> omega

end ParallelRsp.Simd
