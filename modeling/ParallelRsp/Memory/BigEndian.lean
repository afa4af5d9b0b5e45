import Mathlib.Order.Basic
import Mathlib.Tactic.NormNum

/-!
# Big-endian numbers

A number of `n` bytes with the first byte on top (`bigEndian`), and the bytes of a number
(`byteOf`), for machine words of any width. A number is put together again from its bytes
(`setWidth_bigEndian_byteOf`).
-/

namespace ParallelRsp.BigEndian

variable {w : ℕ}

/-- The number of the `n` bytes `b 0`, `b 1`, …, the first one on top. -/
def bigEndian (w : ℕ) (b : ℕ → BitVec 8) : ℕ → BitVec w
  | 0 => 0#w
  | n + 1 => bigEndian w b n <<< 8 ||| (b n).setWidth w

/-- Byte `k` of the `n` low bytes of a word. -/
def byteOf (x : BitVec w) (n k : ℕ) : BitVec 8 := (x >>> (8 * (n - 1 - k))).setWidth 8

theorem bigEndian_congr {b b' : ℕ → BitVec 8} {n : ℕ} (h : ∀ k < n, b k = b' k) :
    bigEndian w b n = bigEndian w b' n := by
  induction n with
  | zero => rfl
  | succ n ih => rw [bigEndian, bigEndian, ih fun k hk => h k (by omega), h n (by omega)]

/-- The bits of a number, from those of its bytes. -/
theorem getLsbD_bigEndian (b : ℕ → BitVec 8) (n : ℕ) {i : ℕ} (hi : i < w) :
    (bigEndian w b n).getLsbD i = (decide (i < 8 * n) && (b (n - 1 - i / 8)).getLsbD (i % 8)) := by
  induction n generalizing i with
  | zero => simp [bigEndian]
  | succ n ih =>
    rw [bigEndian, BitVec.getLsbD_or, BitVec.getLsbD_shiftLeft, BitVec.getLsbD_setWidth]
    by_cases h8 : i < 8
    · simp [h8, hi, show i / 8 = 0 by omega, Nat.mod_eq_of_lt h8, show i < 8 * (n + 1) by omega]
    · rw [ih (show i - 8 < w by omega)]
      simp [h8, hi, show (i - 8) % 8 = i % 8 by omega,
        show n - 1 - (i - 8) / 8 = n - i / 8 by omega,
        show i - 8 < 8 * n ↔ i < 8 * (n + 1) by omega, BitVec.getLsbD_of_ge (b n) i (by omega)]

/-- A number put together again from its bytes. -/
theorem setWidth_bigEndian_byteOf (x : BitVec w) {n : ℕ} (hn : 8 * n ≤ w) :
    (bigEndian w (byteOf x n) n).setWidth (8 * n) = x.setWidth (8 * n) := by
  apply BitVec.eq_of_getLsbD_eq
  intro i hi
  have hbyte : 8 * (n - 1 - (n - 1 - i / 8)) + i % 8 = i := by omega
  simp [getLsbD_bigEndian _ n (show i < w by omega), byteOf, hi, hbyte, show i % 8 < 8 by omega]

end ParallelRsp.BigEndian
