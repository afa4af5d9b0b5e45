import ParallelRsp.CLang.Semantics
import ParallelRsp.Mips.Instr

/-!
# The reference code generator

`CPU::jit_region` of `debug_rsp.cpp` prints a C function for a region and has it compiled.
Here is what it prints for one scalar instruction, as C statements: the macros of the
helper code are functions on expressions, and `r0` is the constant that it is `#define`d as.
The vector unit, `COP0`, `COP2`, `LWC2` and `SWC2` are calls of the helpers that compiled
code calls too, and are left out.

The text is compiled as C with `int`s that wrap. `UNLIKELY` and `LIKELY`, which are hints,
are not written.
-/

namespace ParallelRsp.Debug

open CLang

/-! ### The C text -/

/-- The variables of the text. -/
inductive Var where
  /-- `STATE->sr[r]`. -/
  | sr (r : Fin 32)
  /-- `STATE->pc`. -/
  | pc
  /-- `STATE->has_delay_slot`. -/
  | hasDelaySlot
  /-- `STATE->branch_target`. -/
  | branchTarget
  | branch
  | branchDelay
  | pipeBranch
  | pipeBranchDelay
  | addr
  deriving DecidableEq

/-- A number printed with `%u` or `%d`; it fits in an `int`. -/
def num (x : Word) : Expr Var := .const (.int x)

/-- `r0` to `r31`. -/
def reg (r : Fin 32) : Expr Var := if r = 0 then num 0#32 else .var (.sr r)

/-- `MASK_SA`. -/
def maskSA (x : Expr Var) : Expr Var := x &&& num 31#32

/-- `ADVANCE_DELAY_SLOT`. -/
def advanceDelaySlot : Stmt Var :=
  .block [.assign .branch (.var .pipeBranch), .assign .pipeBranch (num 0#32),
    .assign .branchDelay (.var .pipeBranchDelay)]

/-- `BRANCH`. -/
def branch : Stmt Var := .assign .pipeBranch (num 1#32)

/-- `BRANCH_IF`. -/
def branchIf (x : Expr Var) : Stmt Var := .ite x branch .skip

/-- `BRANCH_INDIRECT`. -/
def branchIndirect (pc : Expr Var) : Stmt Var :=
  .block [.assign .pipeBranchDelay pc, .assign .pipeBranch (num 1#32)]

/-- `HES`. -/
def hes (x : Expr Var) : Expr Var := x ^^^ num 2#32

/-- `BES`. -/
def bes (x : Expr Var) : Expr Var := x ^^^ num 3#32

/-- `READ_MEM_U8`. -/
def readMemU8 (addr : Expr Var) : Expr Var := .elem .uchar (bes addr)

/-- `READ_MEM_U16`. -/
def readMemU16 (addr : Expr Var) : Expr Var := .elem .ushort (hes addr >>> num 1#32)

/-- `READ_MEM_U32`. -/
def readMemU32 (addr : Expr Var) : Expr Var := .elem .uint (addr >>> num 2#32)

/-- `(addr + k) & 0xfff`. -/
def behind (addr : Expr Var) (k : Word) : Expr Var := (addr + num k) &&& num 0xfff#32

/-- `READ_MEM_U16_UNALIGNED`. The macro has no parentheses around it, so a conversion in front of it
is one of its first operand. -/
def readMemU16Unaligned (convert : Expr Var → Expr Var) (addr : Expr Var) : Expr Var :=
  convert (readMemU8 addr <<< num 8#32) ||| readMemU8 (behind addr 1#32)

/-- `READ_MEM_U32_UNALIGNED`. -/
def readMemU32Unaligned (addr : Expr Var) : Expr Var :=
  readMemU8 addr <<< num 24#32 ||| readMemU8 (behind addr 1#32) <<< num 16#32 |||
    readMemU8 (behind addr 2#32) <<< num 8#32 ||| readMemU8 (behind addr 3#32)

/-- `WRITE_MEM_U8`. -/
def writeMemU8 (addr data : Expr Var) : Stmt Var := .store .uchar (bes addr) data

/-- `WRITE_MEM_U16_UNALIGNED`. -/
def writeMemU16Unaligned (addr data : Expr Var) : Stmt Var :=
  .block [writeMemU8 addr (data >>> num 8#32), writeMemU8 (behind addr 1#32) (data &&& num 0xff#32)]

/-- `WRITE_MEM_U32_UNALIGNED`. -/
def writeMemU32Unaligned (addr data : Expr Var) : Stmt Var :=
  .block [writeMemU8 addr (data >>> num 24#32),
    writeMemU8 (behind addr 1#32) ((data >>> num 16#32) &&& num 0xff#32),
    writeMemU8 (behind addr 2#32) ((data >>> num 8#32) &&& num 0xff#32),
    writeMemU8 (behind addr 3#32) (data &&& num 0xff#32)]

/-- `WRITE_MEM_U16`. -/
def writeMemU16 (addr data : Expr Var) : Stmt Var := .store .ushort (hes addr >>> num 1#32) data

/-- `WRITE_MEM_U32`. -/
def writeMemU32 (addr data : Expr Var) : Stmt Var := .store .uint (addr >>> num 2#32) data

/-! ### What the generator keeps -/

/-- What the generator knows of the branch of an instruction: the variables `pipe_pending_*` and
`pipe_branch_delay`, and one instruction later `pending_*` and `branch_delay`. -/
structure Pipe where
  /-- `pending_local_branch_delay`. -/
  localBranchDelay : Bool := false
  /-- `pending_branch_delay`. -/
  branchDelay : Bool := false
  /-- `branch_delay`, in words. -/
  target : Word := 0#32

/-- What is printed for an instruction, and what is kept for the next one. -/
structure Emitted where
  /-- The statements. -/
  code : List (Stmt Var) := []
  /-- The branch. -/
  pipe : Pipe := {}

/-- `APPEND_RD_NOT_R0` and `APPEND_RT_NOT_R0` of an assignment to the register. -/
def notR0 (r : Fin 32) (e : Expr Var) : Emitted :=
  { code := if r ≠ 0 then [.assign (.sr r) e] else [] }

section Generator

variable (pc count i : Word) (pending : Pipe) (instr : Word)

/-- `set_pc`: a target within the region is a `goto`, and known to the generator only. -/
def setPc (nextPc : Word) : Emitted :=
  let nextPc := nextPc &&& 0x3ff#32
  if pc ≤ nextPc ∧ nextPc < pc + count then
    { pipe := { localBranchDelay := true, target := nextPc } }
  else
    { code := [.assign .pipeBranchDelay (num nextPc)]
      pipe := { branchDelay := true, target := nextPc } }

/-- `set_pc_indirect`. -/
def setPcIndirect (r : Fin 32) : Emitted :=
  { code := [branchIndirect ((reg r &&& num 0xfff#32) >>> num 2#32)]
    pipe := { branchDelay := true } }

/-- The return address. -/
def link (r : Fin 32) : Stmt Var := .assign (.sr r) (num (((pc + i + 2#32) <<< 2) &&& 0xffc#32))

/-- A branch to `next`: the statements before it, `set_pc` and the decision. -/
def branchTo (before : List (Stmt Var)) (nextPc : Word) (decision : Stmt Var) : Emitted :=
  let p := setPc pc count nextPc
  { p with code := before ++ p.code ++ [decision] }

/-- `EXIT_WITH_DELAY`. -/
def exitWithDelay (mode : Word) : Emitted :=
  let following := num (((pc + i + 1#32) <<< 2) &&& 0xfff#32)
  let exit := .exit (num mode)
  if pending.localBranchDelay then
    { code := [.assign .pc (.cond (.var .branch) (num (pending.target * 4#32)) following), exit] }
  else if pending.branchDelay then
    { code := [
        .assign .pc
          (.cond (.var .branch) ((.var .branchDelay <<< num 2#32) &&& num 0xfff#32) following),
        exit] }
  else
    { code := [.ite (.var .hasDelaySlot)
        (.block [.assign .pc (.var .branchTarget), .assign .hasDelaySlot (num 0#32), exit])
        (.block [.assign .pc following, exit])] }

/-- `int16_t simm = instr`, printed. -/
def simm : Expr Var := num ((instr.extractLsb' 0 16).signExtend 32)

/-- `imm = instr & 0xffff`, printed. -/
def imm : Expr Var := num (instr &&& 0xffff#32)

/-- `(int)r%u`. -/
def int (r : Fin 32) : Expr Var := .cast .int (reg r)

/-- The address of a load or store. -/
def address (rs : Fin 32) : Expr Var := (reg rs + simm instr) &&& num 0xfff#32

/-- A load under `if (rt != 0)`, in two ways: `mask` are the bits of the address that are not
zero when it is not aligned. -/
def loadAddr (rt rs : Fin 32) (mask : Word) (unaligned aligned : Expr Var → Expr Var) : Emitted :=
  { code :=
      if rt ≠ 0 then
        [.assign .addr (address instr rs),
          .ite (.var .addr &&& num mask) (.assign (.sr rt) (unaligned (.var .addr)))
            (.assign (.sr rt) (aligned (.var .addr)))]
      else [] }

/-- A store, in two ways. -/
def storeAddr (rt rs : Fin 32) (mask : Word)
    (unaligned aligned : Expr Var → Expr Var → Stmt Var) : Emitted :=
  { code := [.assign .addr (address instr rs),
      .ite (.var .addr &&& num mask) (unaligned (.var .addr) (reg rt))
        (aligned (.var .addr) (reg rt))] }

/-- The instructions under opcode 0. -/
def special : Emitted :=
  let rd := field5 instr 11
  let rt := field5 instr 16
  let shift := num ((instr >>> 6) &&& 31#32)
  let rs := field5 instr 21
  match (instr &&& 63#32).toNat with
  | 0o00 => notR0 rd (reg rt <<< shift)
  | 0o02 => notR0 rd (reg rt >>> shift)
  | 0o03 => notR0 rd (int rt >>> .cast .int shift)
  | 0o04 => notR0 rd (reg rt <<< maskSA (reg rs))
  | 0o06 => notR0 rd (reg rt >>> maskSA (reg rs))
  | 0o07 => notR0 rd (int rt >>> .cast .int (maskSA (reg rs)))
  | 0o11 =>
    let p := setPcIndirect rs
    { p with code := (if rd ≠ 0 then [link pc i rd] else []) ++ p.code }
  | 0o10 => setPcIndirect rs
  | 0o15 => exitWithDelay pc i pending 2#32
  | 0o40 | 0o41 => notR0 rd (reg rs + reg rt)
  | 0o42 | 0o43 => notR0 rd (reg rs - reg rt)
  | 0o44 => notR0 rd (reg rs &&& reg rt)
  | 0o45 => notR0 rd (reg rs ||| reg rt)
  | 0o46 => notR0 rd (reg rs ^^^ reg rt)
  | 0o47 => notR0 rd (.not (reg rs ||| reg rt))
  | 0o52 => notR0 rd (.bin .lt (int rs) (int rt))
  | 0o53 => notR0 rd (.bin .lt (reg rs) (reg rt))
  | _ => {}

/-- The instructions under opcode 1. -/
def regimm : Emitted :=
  let rs := field5 instr 21
  let next := pc + i + 1#32 + instr
  let ltz := branchIf (.bin .lt (int rs) (num 0#32))
  let gez := branchIf (.bin .ge (int rs) (num 0#32))
  match (field5 instr 16).val with
  | 0o20 => branchTo pc count [link pc i 31] next ltz
  | 0o00 => branchTo pc count [] next ltz
  | 0o21 => branchTo pc count [link pc i 31] next gez
  | 0o01 => branchTo pc count [] next gez
  | _ => {}

/-- What `jit_region` prints for instruction `i` of the region of `count` words at `pc`, or
`none` where it calls a helper. -/
def instruction : Option Emitted :=
  let rs := field5 instr 21
  let rt := field5 instr 16
  let next := pc + i + 1#32 + instr
  match (instr >>> 26).toNat with
  | 0o00 => some (special pc i pending instr)
  | 0o01 => some (regimm pc count i instr)
  | 0o03 => some (branchTo pc count [link pc i 31] (instr &&& 0x3ff#32) branch)
  | 0o02 => some (branchTo pc count [] (instr &&& 0x3ff#32) branch)
  | 0o04 => some (branchTo pc count [] next (branchIf (.bin .eq (reg rs) (reg rt))))
  | 0o05 => some (branchTo pc count [] next (branchIf (.bin .ne (reg rs) (reg rt))))
  | 0o06 => some (branchTo pc count [] next (branchIf (.bin .le (int rs) (num 0#32))))
  | 0o07 => some (branchTo pc count [] next (branchIf (.bin .gt (int rs) (num 0#32))))
  | 0o10 | 0o11 => some (notR0 rt (int rs + simm instr))
  | 0o12 => some (notR0 rt (.bin .lt (int rs) (simm instr)))
  | 0o13 => some (notR0 rt (.bin .lt (reg rs) (imm instr)))
  | 0o14 => some (notR0 rt (reg rs &&& imm instr))
  | 0o15 => some (notR0 rt (reg rs ||| imm instr))
  | 0o16 => some (notR0 rt (reg rs ^^^ imm instr))
  | 0o17 => some (notR0 rt (.const ⟨.unsigned, instr &&& 0xffff#32⟩ <<< .const ⟨.unsigned, 16#32⟩))
  | 0o20 | 0o22 | 0o62 | 0o72 => none
  | 0o40 => some (notR0 rt (.narrow 8 (readMemU8 (address instr rs))))
  | 0o41 =>
      some (loadAddr instr rt rs 1#32 (readMemU16Unaligned (.narrow 16)) fun a =>
        .narrow 16 (readMemU16 a))
  | 0o43 => some (loadAddr instr rt rs 3#32 readMemU32Unaligned readMemU32)
  | 0o44 => some (notR0 rt (readMemU8 (address instr rs)))
  | 0o45 => some (loadAddr instr rt rs 1#32 (readMemU16Unaligned id) readMemU16)
  | 0o50 => some { code := [writeMemU8 (address instr rs) (reg rt)] }
  | 0o51 => some (storeAddr instr rt rs 1#32 writeMemU16Unaligned writeMemU16)
  | 0o53 => some (storeAddr instr rt rs 3#32 writeMemU32Unaligned writeMemU32)
  | _ => some {}

end Generator

/-! ### What an instruction does -/

/-- What an instruction leaves behind: what `main` compares of two
processors, and how control goes on. -/
@[ext]
structure Effect where
  /-- The registers. -/
  sr : Fin 32 → Word
  /-- DMEM. -/
  dmem : ℕ → Byte
  /-- Where the branch goes that is taken, as a byte address. -/
  branch : Option Word
  /-- The mode with which the code is left. -/
  exit : Option Word

/-- Where the branch goes, as `CHECK_BRANCH_DELAY` has it behind the next instruction. -/
def Pipe.goesTo (p : Pipe) (s : State Var) : Option Word :=
  if s.vars .pipeBranch = 0#32 then none
  else if p.localBranchDelay then some (p.target * 4#32)
  else if p.branchDelay then some ((s.vars .pipeBranchDelay <<< 2) &&& 0xfff#32)
  else none

/-- The effect of what is printed, behind `PIPELINE_BRANCH`. -/
def Emitted.effect (e : Emitted) (s : State Var) : Effect :=
  match (Stmt.block (advanceDelaySlot :: e.code)).exec s with
  | .fall s' => ⟨fun r => s'.vars (.sr r), s'.mem, e.pipe.goesTo s', none⟩
  | .exit mode s' => ⟨fun r => s'.vars (.sr r), s'.mem, none, some mode⟩

end ParallelRsp.Debug
