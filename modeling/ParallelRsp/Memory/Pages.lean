import Mathlib.Algebra.Order.Group.Nat
import Mathlib.Algebra.GroupWithZero.Divisibility
import Mathlib.Tactic.NormNum

/-!
# Pages

An address space divided into pages of `P` bytes. A range touches the pages that hold one
of its bytes. What is set for a range is set for the pages that it touches, so a range that
starts within a page reaches beyond its own bytes; two ranges that start with a page and
share no byte share no page (`not_touches_of_apart`).
-/

namespace ParallelRsp.Pages

variable {α : Type*} {P n m ptr size ptr' size' page : ℕ}

/-! ### Rounding -/

/-- The least multiple of the page size that is no less. -/
def roundUp (P n : ℕ) : ℕ := (n + P - 1) / P * P

theorem dvd_roundUp (P n : ℕ) : P ∣ roundUp P n := Dvd.intro_left _ rfl

theorem le_roundUp (hP : 0 < P) (n : ℕ) : n ≤ roundUp P n := by
  have hmod := Nat.mod_lt (n + P - 1) hP
  have hdiv := Nat.div_add_mod (n + P - 1) P
  rw [roundUp, Nat.mul_comm]
  omega

theorem roundUp_le (hP : 0 < P) (h : n ≤ m) (hm : P ∣ m) : roundUp P n ≤ m := by
  obtain ⟨k, rfl⟩ := hm
  have hlt : (n + P - 1) / P < k + 1 := by
    rw [Nat.div_lt_iff_lt_mul hP, Nat.add_mul, Nat.mul_comm k, Nat.one_mul]
    omega
  rw [roundUp, Nat.mul_comm P]
  exact Nat.mul_le_mul_right P (Nat.le_of_lt_succ hlt)

theorem roundUp_of_dvd (hP : 0 < P) (h : P ∣ n) : roundUp P n = n :=
  Nat.le_antisymm (roundUp_le hP le_rfl h) (le_roundUp hP n)

/-! ### Ranges -/

/-- The range of `size` bytes at `ptr` has a byte in the page. -/
def Touches (P ptr size page : ℕ) : Prop := 0 < size ∧ ptr / P ≤ page ∧ page * P < ptr + size

instance : Decidable (Touches P ptr size page) := inferInstanceAs (Decidable (_ ∧ _))

/-- No byte, no page. -/
@[simp] theorem not_touches_zero : ¬Touches P ptr 0 page := fun h => absurd h.1 (lt_irrefl 0)

/-- The page of the first byte. -/
theorem touches_first (hptr : P ∣ ptr) (hsize : 0 < size) : Touches P ptr size (ptr / P) :=
  ⟨hsize, le_rfl, by rw [Nat.div_mul_cancel hptr]; omega⟩

/-- A range from the start of a page on, rounded up or not. -/
theorem touches_roundUp (hP : 0 < P) (hptr : P ∣ ptr) :
    Touches P ptr (roundUp P size) page ↔ Touches P ptr size page := by
  have hle := le_roundUp hP size
  obtain ⟨k, rfl⟩ := hptr
  constructor
  · rintro ⟨h0, hlo, hhi⟩
    refine ⟨?_, hlo, ?_⟩
    · by_contra hsize
      obtain rfl : size = 0 := by omega
      rw [roundUp_of_dvd hP (dvd_zero P)] at h0
      exact lt_irrefl 0 h0
    · by_contra hle
      have hdvd : P ∣ page * P - P * k := Nat.dvd_sub (Dvd.intro_left _ rfl) (Dvd.intro _ rfl)
      have := roundUp_le hP (show size ≤ page * P - P * k by omega) hdvd
      omega
  · rintro ⟨h0, hlo, hhi⟩
    exact ⟨by omega, hlo, by omega⟩

/-- Two ranges without a common byte. -/
def Apart (ptr size ptr' size' : ℕ) : Prop := ptr + size ≤ ptr' ∨ ptr' + size' ≤ ptr

instance : Decidable (Apart ptr size ptr' size') := inferInstanceAs (Decidable (_ ∨ _))

theorem Apart.symm (h : Apart ptr size ptr' size') : Apart ptr' size' ptr size := Or.symm h

/-- Ranges that start with a page and have no common byte have no common page. -/
theorem not_touches_of_apart (hP : 0 < P) (hptr : P ∣ ptr)
    (hptr' : P ∣ ptr') (h : Apart ptr size ptr' size') :
    ¬(Touches P ptr size page ∧ Touches P ptr' size' page) := by
  obtain ⟨a, rfl⟩ := hptr
  obtain ⟨b, rfl⟩ := hptr'
  rintro ⟨⟨-, hlo, hhi⟩, -, hlo', hhi'⟩
  rw [Nat.mul_div_cancel_left _ hP] at hlo hlo'
  have ha := Nat.mul_le_mul_left P hlo
  have hb := Nat.mul_le_mul_left P hlo'
  rw [Nat.mul_comm page] at hhi hhi'
  rcases h with h | h <;> omega

/-! ### What is set for pages -/

/-- Every page that the range touches is set to `x`. -/
def setRange (P ptr size : ℕ) (x : α) (f : ℕ → α) : ℕ → α :=
  fun page => if Touches P ptr size page then x else f page

theorem setRange_of_touches {x : α} {f : ℕ → α} (h : Touches P ptr size page) :
    setRange P ptr size x f page = x := if_pos h

theorem setRange_of_not {x : α} {f : ℕ → α} (h : ¬Touches P ptr size page) :
    setRange P ptr size x f page = f page :=
  if_neg h

end ParallelRsp.Pages
