import ParallelRsp.Simd.Intrinsics

/-!
# The state of the RSP

The data of `state.hpp`: the vector unit `CP2`, the registers of `CP0` with the
plugin's globals that the helpers touch, and the `CPUState` that compiled code and
helpers share.

Memories are kept as the code addresses them. `dmem` is the byte memory behind the
pointer `state.dmem`: index `4096` and above is whatever lies behind the 4 KB buffer,
so a store that leaves the buffer is visible. `imem` and `rdram` are arrays of words.
The scalar registers `sr` are an array indexed by number, entry 32 being the pending
branch condition of compiled code.

`CPUState` is split in two: `Arch`, all that the helpers of `rsp/` read and write, and
the three control words `pc`, `hasDelaySlot` and `branchTarget`, which only compiled
code and its thunks touch.
-/

namespace ParallelRsp

open Simd

/-- A byte. -/
abbrev Byte := BitVec 8

/-- A 32-bit word. -/
abbrev Word := BitVec 32

/-! ### Sizes -/

instance neZero_thirtyTwo : NeZero 32 := ⟨by decide⟩

instance neZero_sixtyFour : NeZero 64 := ⟨by decide⟩

/-- `DMEM_SIZE`, in bytes. -/
def dmemSize : ℕ := 4096

/-- `IMEM_WORDS`. -/
abbrev imemWords : ℕ := 1024

/-- `CODE_BLOCK_WORDS`. -/
abbrev codeBlockWords : ℕ := 64

/-- `CODE_BLOCKS`. -/
def codeBlocks : ℕ := 16

/-! ### The vector unit -/

/-- A flag register, `AlignedRSPVector<2>`: lanes `0..7` are `hi`, lanes `8..15` are `lo`. -/
@[ext]
structure FlagVector where
  /-- Lanes `0..7`. -/
  hi : M128i
  /-- Lanes `8..15`. -/
  lo : M128i

/-- The accumulator, `AlignedRSPVector<3>`: 48 bits a lane, in three vectors. -/
@[ext]
structure AccVector where
  /-- Bits `47..32`. -/
  hi : M128i
  /-- Bits `31..16`. -/
  md : M128i
  /-- Bits `15..0`. -/
  lo : M128i

/-- The flag registers, `RSPFlags`. -/
abbrev FlagReg := Fin 3

/-- `RSP_VCO`. -/
abbrev rspVCO : FlagReg := 0

/-- `RSP_VCC`. -/
abbrev rspVCC : FlagReg := 1

/-- `RSP_VCE`. -/
abbrev rspVCE : FlagReg := 2

/-- `CP2`. -/
@[ext]
structure CP2 where
  /-- The vector registers. -/
  regs : Fin 32 → M128i
  /-- `VCO`, `VCC`, `VCE`. -/
  flags : FlagReg → FlagVector
  /-- The accumulator. -/
  acc : AccVector
  /-- The high half of the last quotient. -/
  divOut : BitVec 16
  /-- The high half of the next divisor. -/
  divIn : BitVec 16
  /-- Whether `divIn` is to be used by the next division. -/
  dpFlag : BitVec 8

/-- The zero-initialised `CP2`. -/
def CP2.zero : CP2 where
  regs := fun _ _ => 0#16
  flags := fun _ => ⟨fun _ => 0#16, fun _ => 0#16⟩
  acc := ⟨fun _ => 0#16, fun _ => 0#16, fun _ => 0#16⟩
  divOut := 0#16
  divIn := 0#16
  dpFlag := 0#8

/-! ### The system control registers -/

/-- The registers `CP0` points to, and the globals of the plugin that `rsp/cp0.cpp` uses. -/
@[ext]
structure CP0 where
  /-- The sixteen registers. -/
  cr : Fin 16 → Word
  /-- The interrupt register of the host. -/
  irq : Word
  /-- `MFC0_count`: how often each register has polled the status. -/
  mfc0Count : Fin 32 → BitVec 16
  /-- `SP_STATUS_TIMEOUT`. -/
  spStatusTimeout : Word
  /-- `graphics_hle`. -/
  graphicsHle : Bool

/-! ### The processor -/

/-- What the helpers of `rsp/` see of `CPUState`. -/
@[ext]
structure Arch where
  /-- The scalar registers; entry 32 belongs to compiled code. -/
  sr : ℕ → Word
  /-- The bytes behind the pointer `dmem`. -/
  dmem : ℕ → Byte
  /-- The words of IMEM. -/
  imem : ℕ → Word
  /-- The words of RDRAM. -/
  rdram : ℕ → Word
  /-- One bit for each code block whose compiled code is stale. -/
  dirtyBlocks : Word
  /-- The vector unit. -/
  cp2 : CP2
  /-- The system control registers. -/
  cp0 : CP0

/-- The registers and memories before anything is loaded. -/
def Arch.zero : Arch where
  sr := fun _ => 0#32
  dmem := fun _ => 0#8
  imem := fun _ => 0#32
  rdram := fun _ => 0#32
  dirtyBlocks := 0#32
  cp2 := CP2.zero
  cp0 :=
    { cr := fun _ => 0#32, irq := 0#32, mfc0Count := fun _ => 0#16, spStatusTimeout := 0x7fff#32,
           graphicsHle := false }

/-- `CPUState`. -/
@[ext]
structure CPUState extends Arch where
  /-- The program counter, when no compiled code runs. -/
  pc : Word
  /-- Nonzero when a branch is pending between two regions. -/
  hasDelaySlot : Word
  /-- Where the pending branch goes. -/
  branchTarget : Word

/-- `ReturnMode`. -/
inductive ReturnMode where
  /-- `MODE_ENTER`. -/
  | enter
  /-- `MODE_CONTINUE`. -/
  | continue
  /-- `MODE_BREAK`. -/
  | break
  /-- `MODE_DMA_READ`. -/
  | dmaRead
  /-- `MODE_CHECK_FLAGS`. -/
  | checkFlags
  deriving DecidableEq

end ParallelRsp
