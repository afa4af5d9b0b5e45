import Mathlib.Data.Nat.Bitwise
import Mathlib.Tactic.NormNum

/-!
# Masks and alignment

The value of a machine word under the masks that programs use for it: keeping the low
bits is a remainder, clearing them is rounding down, and flipping some of them stays
within the aligned window.
-/

namespace ParallelRsp.Bits

variable {w : ℕ}

/-- Keeping the low `n` bits. -/
theorem toNat_and_ones (x : BitVec w) (n : ℕ) (hn : n ≤ w) :
    (x &&& BitVec.ofNat w (2 ^ n - 1)).toNat = x.toNat % 2 ^ n := by
  have hlt : 2 ^ n - 1 < 2 ^ w := by
    have := Nat.pow_le_pow_right (n := 2) (by norm_num) hn
    have := Nat.two_pow_pos n
    omega
  rw [BitVec.toNat_and, BitVec.toNat_ofNat, Nat.mod_eq_of_lt hlt, Nat.and_two_pow_sub_one_eq_mod]

/-- Clearing the low `n` bits. -/
theorem and_not_ones (x : BitVec w) (n : ℕ) :
    x &&& ~~~BitVec.ofNat w (2 ^ n - 1) = (x >>> n) <<< n := by
  apply BitVec.eq_of_getLsbD_eq
  intro i hi
  rw [BitVec.getLsbD_and, BitVec.getLsbD_not, BitVec.getLsbD_ofNat, Nat.testBit_two_pow_sub_one,
    BitVec.getLsbD_shiftLeft, BitVec.getLsbD_ushiftRight]
  by_cases h : i < n
  · simp [hi, h]
  · simp [hi, h, show n + (i - n) = i by omega]

theorem toNat_and_not_ones (x : BitVec w) (n : ℕ) :
    (x &&& ~~~BitVec.ofNat w (2 ^ n - 1)).toNat = x.toNat / 2 ^ n * 2 ^ n := by
  rw [and_not_ones x n, BitVec.toNat_shiftLeft, BitVec.toNat_ushiftRight, Nat.shiftLeft_eq,
    Nat.shiftRight_eq_div_pow, Nat.mod_eq_of_lt]
  exact lt_of_le_of_lt (Nat.div_mul_le_self _ _) x.isLt

/-- Flipping bits below `n` stays within the window of size `2 ^ n`. -/
theorem toNat_xor_lt_iff (x y : BitVec w) (n : ℕ) (hy : y.toNat < 2 ^ n) :
    (x ^^^ y).toNat < 2 ^ n ↔ x.toNat < 2 ^ n := by
  rw [BitVec.toNat_xor]
  constructor
  · intro h
    have := Nat.xor_lt_two_pow h hy
    rwa [Nat.xor_assoc, Nat.xor_self, Nat.xor_zero] at this
  · intro h
    exact Nat.xor_lt_two_pow h hy

/-- The complement, as a signed number. -/
theorem toInt_not (x : BitVec w) (hw : 0 < w) : (~~~x).toInt = -x.toInt - 1 := by
  obtain ⟨n, rfl⟩ := Nat.exists_eq_add_of_lt hw
  have hlt := x.isLt
  have htwo : 2 ^ (0 + n + 1) = 2 * 2 ^ (0 + n) := Nat.pow_succ'
  rw [BitVec.toInt_eq_toNat_cond, BitVec.toInt_eq_toNat_cond, BitVec.toNat_not]
  split <;> split <;> omega

/-- Flipping the low bit swaps the two numbers of a pair. -/
theorem nat_xor_one (x : ℕ) : x ^^^ 1 = x / 2 * 2 + (1 - x % 2) := by
  have hmod : (x ^^^ 1) % 2 ^ 1 = (x % 2 ^ 1) ^^^ (1 % 2 ^ 1) := Nat.xor_mod_two_pow
  have hdiv : (x ^^^ 1) / 2 ^ 1 = (x / 2 ^ 1) ^^^ (1 / 2 ^ 1) := Nat.xor_div_two_pow
  have hr : ∀ r < 2, r ^^^ 1 = 1 - r := by decide
  have hr := hr (x % 2 ^ 1) (Nat.mod_lt _ (by norm_num))
  simp only [Nat.reducePow, Nat.reduceDiv, Nat.reduceMod, Nat.xor_zero] at hmod hdiv hr
  omega

/-- Flipping the two low bits reverses the four numbers of a group. -/
theorem nat_xor_three (x : ℕ) : x ^^^ 3 = x / 4 * 4 + (3 - x % 4) := by
  have hmod : (x ^^^ 3) % 2 ^ 2 = (x % 2 ^ 2) ^^^ (3 % 2 ^ 2) := Nat.xor_mod_two_pow
  have hdiv : (x ^^^ 3) / 2 ^ 2 = (x / 2 ^ 2) ^^^ (3 / 2 ^ 2) := Nat.xor_div_two_pow
  have hr : ∀ r < 4, r ^^^ 3 = 3 - r := by decide
  have hr := hr (x % 2 ^ 2) (Nat.mod_lt _ (by norm_num))
  simp only [Nat.reducePow, Nat.reduceDiv, Nat.reduceMod, Nat.xor_zero] at hmod hdiv hr
  omega

/-- Flipping the second bit swaps the halves of a group of four. -/
theorem nat_xor_two (x : ℕ) : x ^^^ 2 = x / 4 * 4 + (x % 4 + 2) % 4 := by
  have hmod : (x ^^^ 2) % 2 ^ 2 = (x % 2 ^ 2) ^^^ (2 % 2 ^ 2) := Nat.xor_mod_two_pow
  have hdiv : (x ^^^ 2) / 2 ^ 2 = (x / 2 ^ 2) ^^^ (2 / 2 ^ 2) := Nat.xor_div_two_pow
  have hr : ∀ r < 4, r ^^^ 2 = (r + 2) % 4 := by decide
  have hr := hr (x % 2 ^ 2) (Nat.mod_lt _ (by norm_num))
  simp only [Nat.reducePow, Nat.reduceDiv, Nat.reduceMod, Nat.xor_zero] at hmod hdiv hr
  omega

/-! ### The masks of 32-bit addresses -/

theorem toNat_and_fff (x : BitVec 32) : (x &&& 0xfff#32).toNat = x.toNat % 4096 :=
  toNat_and_ones x 12 (by norm_num)

theorem toNat_and_15 (x : BitVec 32) : (x &&& 0xf#32).toNat = x.toNat % 16 :=
  toNat_and_ones x 4 (by norm_num)

theorem toNat_and_7 (x : BitVec 32) : (x &&& 7#32).toNat = x.toNat % 8 :=
  toNat_and_ones x 3 (by norm_num)

theorem toNat_and_3 (x : BitVec 32) : (x &&& 3#32).toNat = x.toNat % 4 :=
  toNat_and_ones x 2 (by norm_num)

theorem toNat_and_1 (x : BitVec 32) : (x &&& 1#32).toNat = x.toNat % 2 :=
  toNat_and_ones x 1 (by norm_num)

theorem toNat_and_not_3 (x : BitVec 32) : (x &&& ~~~3#32).toNat = x.toNat / 4 * 4 :=
  toNat_and_not_ones x 2

theorem toNat_and_not_7 (x : BitVec 32) : (x &&& ~~~7#32).toNat = x.toNat / 8 * 8 :=
  toNat_and_not_ones x 3

theorem toNat_and_not_15 (x : BitVec 32) : (x &&& ~~~0xf#32).toNat = x.toNat / 16 * 16 :=
  toNat_and_not_ones x 4

theorem toNat_xor_3 (x : BitVec 32) : (x ^^^ 3#32).toNat = x.toNat / 4 * 4 + (3 - x.toNat % 4) := by
  rw [BitVec.toNat_xor]
  exact nat_xor_three _

end ParallelRsp.Bits
