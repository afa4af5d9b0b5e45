import ParallelRsp.Simd.Masks
import Mathlib.Data.Set.Defs

/-!
# Lane by lane

Most intrinsics compute each lane of their result from the same lane of their operands.
What that means for two computations is said with a renaming of lanes: when the
operands of one hold on lane `i` what those of the other hold on lane `σ i`, so do the
results.

This module is general: it mentions no program that uses it.
-/

namespace ParallelRsp.Simd

/-! ### Single lanes -/

/-- One lane of a byte-wise blend. -/
def blendLane (x y m : BitVec 16) : BitVec 16 :=
  (if (m.extractLsb' 8 8).msb then y.extractLsb' 8 8 else x.extractLsb' 8 8) ++
    (if (m.extractLsb' 0 8).msb then y.extractLsb' 0 8 else x.extractLsb' 0 8)

/-- One lane of a comparison for equality. -/
def maskEq (x y : BitVec 16) : BitVec 16 := maskOf (x = y)

/-- One lane of a signed comparison. -/
def maskLt (x y : BitVec 16) : BitVec 16 := maskOf (x.slt y)

/-- One lane of a signed minimum. -/
def minLane (x y : BitVec 16) : BitVec 16 := if x.slt y then x else y

/-- One lane of a signed maximum. -/
def maxLane (x y : BitVec 16) : BitVec 16 := if y.slt x then x else y

section Lanes

variable (a b m : M128i) (n : ℕ) (i : Fin 8)

@[simp] theorem mmAddEpi16_lane : mmAddEpi16 a b i = a i + b i := rfl

@[simp] theorem mmSubEpi16_lane : mmSubEpi16 a b i = a i - b i := rfl

@[simp] theorem mmAddsEpi16_lane : mmAddsEpi16 a b i = satS 16 ((a i).toInt + (b i).toInt) := rfl

@[simp] theorem mmSubsEpi16_lane : mmSubsEpi16 a b i = satS 16 ((a i).toInt - (b i).toInt) := rfl

@[simp] theorem mmAddsEpu16_lane : mmAddsEpu16 a b i = satU 16 ((a i).toNat + (b i).toNat) := rfl

@[simp] theorem mmSubsEpu16_lane : mmSubsEpu16 a b i = satU 16 ((a i).toNat - (b i).toNat) := rfl

@[simp] theorem mmMulloEpi16_lane : mmMulloEpi16 a b i = a i * b i := rfl

@[simp] theorem mmMulhiEpi16_lane :
    mmMulhiEpi16 a b i = BitVec.ofInt 16 ((a i).toInt * (b i).toInt / 2 ^ 16) := rfl

@[simp] theorem mmMulhiEpu16_lane :
    mmMulhiEpu16 a b i = BitVec.ofNat 16 ((a i).toNat * (b i).toNat / 2 ^ 16) := rfl

@[simp] theorem mmSlliEpi16_lane : mmSlliEpi16 a n i = a i <<< n := rfl

@[simp] theorem mmSrliEpi16_lane : mmSrliEpi16 a n i = a i >>> n := rfl

@[simp] theorem mmSraiEpi16_lane : mmSraiEpi16 a n i = (a i).sshiftRight n := rfl

@[simp] theorem mmMinEpi16_lane : mmMinEpi16 a b i = minLane (a i) (b i) := rfl

@[simp] theorem mmMaxEpi16_lane : mmMaxEpi16 a b i = maxLane (a i) (b i) := rfl

@[simp] theorem mmCmpeqEpi16_lane : mmCmpeqEpi16 a b i = maskEq (a i) (b i) := rfl

@[simp] theorem mmCmpgtEpi16_lane : mmCmpgtEpi16 a b i = maskLt (b i) (a i) := rfl

@[simp] theorem mmCmpltEpi16_lane : mmCmpltEpi16 a b i = maskLt (a i) (b i) := rfl

@[simp] theorem mmAndSi128_lane : mmAndSi128 a b i = a i &&& b i := rfl

@[simp] theorem mmAndnotSi128_lane : mmAndnotSi128 a b i = ~~~a i &&& b i := rfl

@[simp] theorem mmOrSi128_lane : mmOrSi128 a b i = a i ||| b i := rfl

@[simp] theorem mmXorSi128_lane : mmXorSi128 a b i = a i ^^^ b i := rfl

@[simp] theorem mmSetzeroSi128_lane : mmSetzeroSi128 i = 0#16 := rfl

@[simp] theorem mmBlendvEpi8_lane : mmBlendvEpi8 a b m i = blendLane (a i) (b i) (m i) := by
  simp only [mmBlendvEpi8, ofBytes, byteAt_lo, byteAt_hi, blendLane]

/-- All words ones are all lanes ones. -/
@[simp] theorem mmSet1Epi32_ones_lane : mmSet1Epi32 0xffffffff#32 i = 0xffff#16 := by
  revert i
  decide

end Lanes

/-! ### Along a renaming of lanes -/

/-- On the lanes of `L`, `y` holds at `σ i` what `x` holds at `i`. -/
def Along (L : Set (Fin 8)) (σ : Fin 8 → Fin 8) (x y : M128i) : Prop := ∀ i ∈ L, x i = y (σ i)

namespace Along

variable {L : Set (Fin 8)} {σ : Fin 8 → Fin 8} {x y : M128i}

theorem zero : Along L σ mmSetzeroSi128 mmSetzeroSi128 := fun _ _ => rfl

/-- One lane overwritten, the same for both sides. -/
theorem update (h : Along L σ x y) {k : Fin 8} (hk : ∀ i ∈ L, σ i = k ↔ i = k) {u v : BitVec 16}
    (huv : k ∈ L → u = v) : Along L σ (Function.update x k u) (Function.update y k v) := by
  intro i hi
  by_cases hik : i = k
  · subst hik
    rw [(hk i hi).mpr rfl, Function.update_self, Function.update_self, huv hi]
  · rw [Function.update_of_ne hik, Function.update_of_ne (mt (hk i hi).mp hik), h i hi]

/-- Lanes picked by `p` on both sides, when `p` keeps to the renamed lanes. -/
theorem comp (h : Along L σ x y) {p : Fin 8 → Fin 8}
    (hp : ∀ i ∈ L, p i ∈ L ∧ σ (p i) = p (σ i)) :
    Along L σ (fun i => x (p i)) (fun i => y (p i)) := by
  intro i hi
  obtain ⟨hmem, hcomm⟩ := hp i hi
  show x (p i) = y (p (σ i))
  rw [h (p i) hmem, hcomm]

end Along

end ParallelRsp.Simd
