import Mathlib.Data.BitVec

/-!
# Multiply-and-xor hashes

A hash of a list of words that multiplies its state by a constant and then xors a word in,
as the FNV-1 hashes do. When the constant has an inverse, a step loses nothing: it is
injective in the state and in the word. So two lists that differ in one word have different
digests, and a collision needs a second word that undoes what the first one did.
-/

namespace MulXor

variable {w : ℕ}

/-- One word is hashed. -/
def step (p h x : BitVec w) : BitVec w := h * p ^^^ x

/-- The state after the words of a list. -/
def digest (p h : BitVec w) (xs : List (BitVec w)) : BitVec w := xs.foldl (step p) h

@[simp] theorem digest_nil (p h : BitVec w) : digest p h [] = h := rfl

@[simp] theorem digest_cons (p h x : BitVec w) (xs : List (BitVec w)) :
    digest p h (x :: xs) = digest p (step p h x) xs := rfl

theorem digest_append (p h : BitVec w) (xs ys : List (BitVec w)) :
    digest p h (xs ++ ys) = digest p (digest p h xs) ys := List.foldl_append ..

theorem step_word_inj {p h x y : BitVec w} : step p h x = step p h y ↔ x = y :=
  BitVec.xor_right_inj _

theorem xor_eq_xor_iff {a b y z : BitVec w} : a ^^^ y = b ^^^ z ↔ a ^^^ b = y ^^^ z := by
  have hswap : (a ^^^ y) ^^^ (b ^^^ z) = (a ^^^ b) ^^^ (y ^^^ z) := by ac_rfl
  rw [← BitVec.xor_eq_zero_iff, hswap, BitVec.xor_eq_zero_iff]

section Inverse

variable {p q : BitVec w} (hpq : p * q = 1#w)
include hpq

theorem mul_inj {h k : BitVec w} : h * p = k * p ↔ h = k := by
  constructor
  · intro heq
    calc h = h * (p * q) := by rw [hpq, BitVec.mul_one]
      _ = k * p * q := by rw [← BitVec.mul_assoc, heq]
      _ = k := by rw [BitVec.mul_assoc, hpq, BitVec.mul_one]
  · rintro rfl
    rfl

theorem step_state_inj {h k x : BitVec w} : step p h x = step p k x ↔ h = k :=
  (BitVec.xor_left_inj _).trans (mul_inj hpq)

/-- The states before the same words can be told from the digests. -/
theorem digest_state_inj {h k : BitVec w} (xs : List (BitVec w)) :
    digest p h xs = digest p k xs ↔ h = k := by
  induction xs generalizing h k with
  | nil => exact Iff.rfl
  | cons x xs ih => rw [digest_cons, digest_cons, ih, step_state_inj hpq]

/-- Two lists that differ in one word have different digests. -/
theorem digest_one_word {h x y : BitVec w} (pre post : List (BitVec w)) :
    digest p h (pre ++ x :: post) = digest p h (pre ++ y :: post) ↔ x = y := by
  rw [digest_append, digest_append, digest_cons, digest_cons, digest_state_inj hpq, step_word_inj]

/-- Two lists that differ in two adjacent words collide exactly where the second words make up for
the product of the states that the first ones left. -/
theorem digest_two_words {h x y x' y' : BitVec w} (pre post : List (BitVec w)) :
    digest p h (pre ++ x :: y :: post) = digest p h (pre ++ x' :: y' :: post) ↔
      digest p h (pre ++ [x]) * p ^^^ digest p h (pre ++ [x']) * p = y ^^^ y' := by
  simp only [digest_append, digest_cons, digest_state_inj hpq, digest_nil]
  exact xor_eq_xor_iff

end Inverse

end MulXor
