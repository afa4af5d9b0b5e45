import Mathlib.Data.Fin.Basic
import Mathlib.Logic.Function.Basic
import Mathlib.Tactic.Ring

/-!
# 128-bit vectors and the SSE intrinsics on them

A vector register is eight 16-bit lanes. The same 128 bits are also read as sixteen
bytes (lane `k` holds bytes `2k` and `2k+1`, low byte first) and as four 32-bit words,
and each intrinsic is given on the view its name says: `_mm_add_epi16` lane by lane,
`_mm_shuffle_epi8` byte by byte, `_mm_packs_epi32` word by word. The definitions follow
the documented pseudocode of the intrinsics.

This module is general: it is about the vector unit of the host, and mentions no
program that uses it.
-/

namespace ParallelRsp.Simd

/-- A 128-bit vector, as eight 16-bit lanes. -/
abbrev M128i := Fin 8 → BitVec 16

/-! ### Indices -/

instance neZero_four : NeZero 4 := ⟨by decide⟩

instance neZero_eight : NeZero 8 := ⟨by decide⟩

instance neZero_sixteen : NeZero 16 := ⟨by decide⟩

theorem half_lt_eight (j : Fin 16) : j.val / 2 < 8 := by omega

theorem half_lt_four (i : Fin 8) : i.val / 2 < 4 := by omega

theorem even_lt (i : Fin 8) : 2 * i.val < 16 := by omega

theorem odd_lt (i : Fin 8) : 2 * i.val + 1 < 16 := by omega

theorem sub_eight_lt (j : Fin 16) : j.val - 8 < 8 := by omega

theorem mod_eight_lt (j : Fin 16) : j.val % 8 < 8 := by omega

/-! ### Views -/

/-- Byte `j` of a vector: the low half of a lane comes first. -/
def byteAt (v : M128i) (j : Fin 16) : BitVec 8 :=
  (v ⟨j.val / 2, half_lt_eight j⟩).extractLsb' (8 * (j.val % 2)) 8

/-- The vector with the given bytes. -/
def ofBytes (f : Fin 16 → BitVec 8) : M128i := fun i =>
  f ⟨2 * i.val + 1, odd_lt i⟩ ++ f ⟨2 * i.val, even_lt i⟩

/-- The 32-bit word `k` of a vector. -/
def wordAt (v : M128i) (k : Fin 4) : BitVec 32 :=
  v ⟨2 * k.val + 1, by omega⟩ ++ v ⟨2 * k.val, by omega⟩

/-- The vector with the given 32-bit words. -/
def ofWords (f : Fin 4 → BitVec 32) : M128i := fun i =>
  (f ⟨i.val / 2, half_lt_four i⟩).extractLsb' (16 * (i.val % 2)) 16

/-! ### Saturation -/

/-- `x` saturated to a signed `n`-bit number. -/
def satS (n : ℕ) (x : ℤ) : BitVec n := BitVec.ofInt n (max (-2 ^ (n - 1)) (min x (2 ^ (n - 1) - 1)))

/-- `x` saturated to an unsigned `n`-bit number. -/
def satU (n : ℕ) (x : ℕ) : BitVec n := BitVec.ofNat n (min x (2 ^ n - 1))

/-- A mask: all ones when `p` holds, all zeros when it does not. -/
def maskOf (p : Prop) [Decidable p] : BitVec 16 := if p then 0xFFFF#16 else 0#16

/-! ### Lane-wise arithmetic -/

section Lanes

variable (a b : M128i)

/-- `_mm_add_epi16`. -/
def mmAddEpi16 : M128i := fun i => a i + b i

/-- `_mm_sub_epi16`. -/
def mmSubEpi16 : M128i := fun i => a i - b i

/-- `_mm_adds_epi16`. -/
def mmAddsEpi16 : M128i := fun i => satS 16 ((a i).toInt + (b i).toInt)

/-- `_mm_subs_epi16`. -/
def mmSubsEpi16 : M128i := fun i => satS 16 ((a i).toInt - (b i).toInt)

/-- `_mm_adds_epu16`. -/
def mmAddsEpu16 : M128i := fun i => satU 16 ((a i).toNat + (b i).toNat)

/-- `_mm_subs_epu16`. -/
def mmSubsEpu16 : M128i := fun i => satU 16 ((a i).toNat - (b i).toNat)

/-- `_mm_mullo_epi16`: the low half of the product. -/
def mmMulloEpi16 : M128i := fun i => a i * b i

/-- `_mm_mulhi_epi16`: the high half of the signed product. -/
def mmMulhiEpi16 : M128i := fun i => BitVec.ofInt 16 ((a i).toInt * (b i).toInt / 2 ^ 16)

/-- `_mm_mulhi_epu16`: the high half of the unsigned product. -/
def mmMulhiEpu16 : M128i := fun i => BitVec.ofNat 16 ((a i).toNat * (b i).toNat / 2 ^ 16)

/-- `_mm_slli_epi16`. -/
def mmSlliEpi16 (n : ℕ) : M128i := fun i => a i <<< n

/-- `_mm_srli_epi16`. -/
def mmSrliEpi16 (n : ℕ) : M128i := fun i => a i >>> n

/-- `_mm_srai_epi16`. -/
def mmSraiEpi16 (n : ℕ) : M128i := fun i => (a i).sshiftRight n

/-- `_mm_min_epi16`. -/
def mmMinEpi16 : M128i := fun i => if (a i).slt (b i) then a i else b i

/-- `_mm_max_epi16`. -/
def mmMaxEpi16 : M128i := fun i => if (b i).slt (a i) then a i else b i

/-- `_mm_cmpeq_epi16`. -/
def mmCmpeqEpi16 : M128i := fun i => maskOf (a i = b i)

/-- `_mm_cmpgt_epi16`. -/
def mmCmpgtEpi16 : M128i := fun i => maskOf ((b i).slt (a i))

/-- `_mm_cmplt_epi16`. -/
def mmCmpltEpi16 : M128i := fun i => maskOf ((a i).slt (b i))

/-- `_mm_and_si128`. -/
def mmAndSi128 : M128i := fun i => a i &&& b i

/-- `_mm_andnot_si128`: the complement of the first operand, and the second. -/
def mmAndnotSi128 : M128i := fun i => ~~~a i &&& b i

/-- `_mm_or_si128`. -/
def mmOrSi128 : M128i := fun i => a i ||| b i

/-- `_mm_xor_si128`. -/
def mmXorSi128 : M128i := fun i => a i ^^^ b i

/-- `_mm_setzero_si128`. -/
def mmSetzeroSi128 : M128i := fun _ => 0#16

/-- `_mm_set1_epi32`. -/
def mmSet1Epi32 (x : BitVec 32) : M128i := ofWords fun _ => x

/-! ### Byte-wise selection and data movement -/

/-- `_mm_blendv_epi8`: a byte of `b` where the top bit of the mask's byte is set, else of `a`. -/
def mmBlendvEpi8 (mask : M128i) : M128i :=
  ofBytes fun j => if (byteAt mask j).msb then byteAt b j else byteAt a j

/-- `_mm_shuffle_epi8`: byte `j` is byte `key j mod 16`, or zero when the top bit of
`key j` is set. -/
def mmShuffleEpi8 (key : M128i) : M128i :=
  ofBytes fun j =>
    if (byteAt key j).msb then 0#8 else byteAt a ⟨(byteAt key j).toNat % 16, by omega⟩

/-- The selector `k` of an immediate built by `_MM_SHUFFLE(z, y, x, w)`. -/
def mmShuffle (z y x w : Fin 4) : Fin 4 → Fin 4 := fun k =>
  match k with
  | 0 => w
  | 1 => x
  | 2 => y
  | 3 => z

/-- `_mm_shufflelo_epi16`. -/
def mmShuffleloEpi16 (imm : Fin 4 → Fin 4) : M128i := fun i =>
  if h : i.val < 4 then a ⟨(imm ⟨i.val, h⟩).val, by omega⟩ else a i

/-- `_mm_shufflehi_epi16`. -/
def mmShufflehiEpi16 (imm : Fin 4 → Fin 4) : M128i := fun i =>
  if 4 ≤ i.val then a ⟨4 + (imm ⟨i.val - 4, by omega⟩).val, by omega⟩ else a i

/-- `_mm_shuffle_epi32`. -/
def mmShuffleEpi32 (imm : Fin 4 → Fin 4) : M128i := ofWords fun k => wordAt a (imm k)

/-- `_mm_insert_epi16`. -/
def mmInsertEpi16 (x : BitVec 16) (k : Fin 8) : M128i := Function.update a k x

/-- `_mm_unpacklo_epi16`: the low four lanes of both, interleaved. -/
def mmUnpackloEpi16 : M128i := fun i =>
  if i.val % 2 = 0 then a ⟨i.val / 2, by omega⟩ else b ⟨i.val / 2, by omega⟩

/-- `_mm_unpackhi_epi16`: the high four lanes of both, interleaved. -/
def mmUnpackhiEpi16 : M128i := fun i =>
  if i.val % 2 = 0 then a ⟨4 + i.val / 2, by omega⟩ else b ⟨4 + i.val / 2, by omega⟩

/-- `_mm_packs_epi32`: the words of `a`, then those of `b`, saturated to 16 bits. -/
def mmPacksEpi32 : M128i := fun i =>
  if h : i.val < 4 then satS 16 (wordAt a ⟨i.val, h⟩).toInt
  else satS 16 (wordAt b ⟨i.val - 4, by omega⟩).toInt

/-- `_mm_packs_epi16`: the lanes of `a`, then those of `b`, saturated to 8 bits. -/
def mmPacksEpi16 : M128i :=
  ofBytes fun j => if h : j.val < 8 then satS 8 (a ⟨j.val, h⟩).toInt
    else satS 8 (b ⟨j.val - 8, sub_eight_lt j⟩).toInt

/-- `_mm_movemask_epi8`: bit `j` is the top bit of byte `j`. -/
def mmMovemaskEpi8 : BitVec 16 :=
  (BitVec.iunfoldr (fun (j : Fin 16) _ => ((), (byteAt a j).msb)) ()).2

end Lanes

end ParallelRsp.Simd
