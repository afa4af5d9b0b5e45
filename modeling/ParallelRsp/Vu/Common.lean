import ParallelRsp.State
import Mathlib.Data.Fin.VecNotation

/-!
# Operands and flags of the vector unit

`rsp_common.h` and the parts of `rsp_core.cpp` every vector operation uses: the load
of an operand with its element selector, in the table-driven form of the SSSE3 build
and in the form of the plain SSE2 build, and the conversion between the lanes of a flag
register and its 16-bit scalar value.

`Build` says which of the preprocessor's branches are compiled.
-/

namespace ParallelRsp

open Simd

/-- The instruction sets the sources distinguish. -/
inductive Build where
  /-- Neither `__SSSE3__` nor `__SSE4_1__`. -/
  | sse2
  /-- `__SSSE3__` only. -/
  | ssse3
  /-- Both. -/
  | sse41
  deriving DecidableEq

/-- `__SSSE3__`. -/
def Build.hasSsse3 : Build → Bool
  | .sse2 => false
  | _ => true

/-- `__SSE4_1__`. -/
def Build.hasSse41 : Build → Bool
  | .sse41 => true
  | _ => false

/-! ### Loading an operand -/

/-- `shuffle_keys`. -/
def shuffleKeys : Fin 16 → M128i := ![
  ![0x0100#16, 0x0302#16, 0x0504#16, 0x0706#16, 0x0908#16, 0x0B0A#16, 0x0D0C#16, 0x0F0E#16],
  ![0x0100#16, 0x0302#16, 0x0504#16, 0x0706#16, 0x0908#16, 0x0B0A#16, 0x0D0C#16, 0x0F0E#16],
  -- 0q, 1q
  ![0x0100#16, 0x0100#16, 0x0504#16, 0x0504#16, 0x0908#16, 0x0908#16, 0x0D0C#16, 0x0D0C#16],
  ![0x0302#16, 0x0302#16, 0x0706#16, 0x0706#16, 0x0B0A#16, 0x0B0A#16, 0x0F0E#16, 0x0F0E#16],
  -- 0h .. 3h
  ![0x0100#16, 0x0100#16, 0x0100#16, 0x0100#16, 0x0908#16, 0x0908#16, 0x0908#16, 0x0908#16],
  ![0x0302#16, 0x0302#16, 0x0302#16, 0x0302#16, 0x0B0A#16, 0x0B0A#16, 0x0B0A#16, 0x0B0A#16],
  ![0x0504#16, 0x0504#16, 0x0504#16, 0x0504#16, 0x0D0C#16, 0x0D0C#16, 0x0D0C#16, 0x0D0C#16],
  ![0x0706#16, 0x0706#16, 0x0706#16, 0x0706#16, 0x0F0E#16, 0x0F0E#16, 0x0F0E#16, 0x0F0E#16],
  -- 0w .. 7w
  ![0x0100#16, 0x0100#16, 0x0100#16, 0x0100#16, 0x0100#16, 0x0100#16, 0x0100#16, 0x0100#16],
  ![0x0302#16, 0x0302#16, 0x0302#16, 0x0302#16, 0x0302#16, 0x0302#16, 0x0302#16, 0x0302#16],
  ![0x0504#16, 0x0504#16, 0x0504#16, 0x0504#16, 0x0504#16, 0x0504#16, 0x0504#16, 0x0504#16],
  ![0x0706#16, 0x0706#16, 0x0706#16, 0x0706#16, 0x0706#16, 0x0706#16, 0x0706#16, 0x0706#16],
  ![0x0908#16, 0x0908#16, 0x0908#16, 0x0908#16, 0x0908#16, 0x0908#16, 0x0908#16, 0x0908#16],
  ![0x0B0A#16, 0x0B0A#16, 0x0B0A#16, 0x0B0A#16, 0x0B0A#16, 0x0B0A#16, 0x0B0A#16, 0x0B0A#16],
  ![0x0D0C#16, 0x0D0C#16, 0x0D0C#16, 0x0D0C#16, 0x0D0C#16, 0x0D0C#16, 0x0D0C#16, 0x0D0C#16],
  ![0x0F0E#16, 0x0F0E#16, 0x0F0E#16, 0x0F0E#16, 0x0F0E#16, 0x0F0E#16, 0x0F0E#16, 0x0F0E#16]]

/-- `rsp_vect_load_and_shuffle_operand` of the SSSE3 build. -/
def loadAndShuffleSsse3 (src : M128i) (element : Fin 16) : M128i :=
  mmShuffleEpi8 src (shuffleKeys element)

/-- `rsp_vect_load_and_shuffle_operand` of the plain build. `undef` is what the vector
register holds where the source leaves it uninitialised. -/
def loadAndShuffleSse2 (undef src : M128i) (element : Fin 16) : M128i :=
  if element.val ≤ 1 then src
  else if element.val = 2 then
    mmShufflehiEpi16 (mmShuffleloEpi16 src (mmShuffle 2 2 0 0)) (mmShuffle 2 2 0 0)
  else if element.val = 3 then
    mmShufflehiEpi16 (mmShuffleloEpi16 src (mmShuffle 3 3 1 1)) (mmShuffle 3 3 1 1)
  else if h : element.val < 8 then
    -- 0h .. 3h
    let v := mmInsertEpi16 undef (src ⟨element.val - 4, by omega⟩) 0
    let v := mmInsertEpi16 v (src ⟨element.val - 0, by omega⟩) 1
    let v := mmShuffleloEpi16 v (mmShuffle 1 1 0 0)
    mmShuffleEpi32 v (mmShuffle 1 1 0 0)
  else
    -- 0w .. 7w
    let v := mmInsertEpi16 undef (src ⟨element.val - 8, sub_eight_lt element⟩) 0
    let v := mmUnpackloEpi16 v v
    mmShuffleEpi32 v (mmShuffle 0 0 0 0)

/-- `rsp_vect_load_and_shuffle_operand`. -/
def rspVectLoadAndShuffleOperand (b : Build) (src : M128i) (element : Fin 16) : M128i :=
  if b.hasSsse3 then loadAndShuffleSsse3 src element
  else loadAndShuffleSse2 mmSetzeroSi128 src element

/-! ### Flag registers as scalars -/

/-- `rsp_get_flags`: the lanes of a flag register as bits, `lo` first. -/
def rspGetFlags (flags : FlagVector) : BitVec 16 :=
  mmMovemaskEpi8 (mmPacksEpi16 flags.lo flags.hi)

/-- The table of `rsp_set_flags`: four lanes from four bits. -/
def setFlagsArray : Fin 16 → Fin 4 → BitVec 16 := ![
  ![0x0000#16, 0x0000#16, 0x0000#16, 0x0000#16], ![0xFFFF#16, 0x0000#16, 0x0000#16, 0x0000#16],
  ![0x0000#16, 0xFFFF#16, 0x0000#16, 0x0000#16], ![0xFFFF#16, 0xFFFF#16, 0x0000#16, 0x0000#16],
  ![0x0000#16, 0x0000#16, 0xFFFF#16, 0x0000#16], ![0xFFFF#16, 0x0000#16, 0xFFFF#16, 0x0000#16],
  ![0x0000#16, 0xFFFF#16, 0xFFFF#16, 0x0000#16], ![0xFFFF#16, 0xFFFF#16, 0xFFFF#16, 0x0000#16],
  ![0x0000#16, 0x0000#16, 0x0000#16, 0xFFFF#16], ![0xFFFF#16, 0x0000#16, 0x0000#16, 0xFFFF#16],
  ![0x0000#16, 0xFFFF#16, 0x0000#16, 0xFFFF#16], ![0xFFFF#16, 0xFFFF#16, 0x0000#16, 0xFFFF#16],
  ![0x0000#16, 0x0000#16, 0xFFFF#16, 0xFFFF#16], ![0xFFFF#16, 0x0000#16, 0xFFFF#16, 0xFFFF#16],
  ![0x0000#16, 0xFFFF#16, 0xFFFF#16, 0xFFFF#16], ![0xFFFF#16, 0xFFFF#16, 0xFFFF#16, 0xFFFF#16]]

/-- Two groups of four lanes, from the low eight bits of `rt`. -/
def setFlagsHalf (rt : BitVec 16) : M128i := fun i =>
  setFlagsArray ((rt >>> (4 * (i.val / 4))).extractLsb' 0 4).toFin ⟨i.val % 4, by omega⟩

/-- `rsp_set_flags`. The register is shifted by four bits after each group of lanes, the
groups of `lo` first. -/
def rspSetFlags (rt : BitVec 16) : FlagVector where
  lo := setFlagsHalf rt
  hi := setFlagsHalf (rt >>> 8)

end ParallelRsp
