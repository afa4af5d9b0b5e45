import ParallelRsp.Codegen.Emit
import ParallelRsp.Rsp.Locality

/-!
# The host

The machine that Lightning's primitives are instructions of, as far as `rsp_jit.cpp` uses
them. Registers are words of 32 or 64 bits. `R` registers are lost in every call, `V`
registers are kept. Two `V` registers hold the addresses of `CPUState` and of DMEM all
the time and are left out; accesses through them name the field of the state, or the
index into DMEM.

The C functions that compiled code calls are those of `rsp/` and the five
`rsp_unaligned_*`. What a call leaves in the `R` registers is arbitrary.

The arguments of `rsp_unaligned_*` are pushed on the stack, where `__stdcall` functions take
them from. Only hosts of 32 bits have such functions: elsewhere arguments are passed in registers,
so the functions do not get theirs, and what they do then is arbitrary.

`trace` marks the start of an instruction and only records it, as the call to
`rsp_report_pc` in a build with `TRACE` does.
-/

namespace ParallelRsp.Jit

open Codegen

/-- The host that code is compiled for: the size of a word, and the numbers of `R` and `V`
registers that the register cache may use. -/
structure Target where
  /-- `__WORDSIZE`. -/
  wordSize : ℕ
  /-- `JIT_R_NUM`. -/
  numR : ℕ
  /-- `JIT_V_NUM - 3`. -/
  numV : ℕ
  /-- A MIPS register fits. -/
  wide : 32 ≤ wordSize
  /-- Three operands fit. -/
  enough : 3 ≤ numR + numV

/-- The host has the calling conventions of `jit_decl.h`, `__fastcall` and `__stdcall`. -/
class Target.Stdcall (T : Target) : Prop where
  /-- They are those of 32 bits. -/
  wordSize_eq : T.wordSize = 32

/-- A host register. -/
inductive HReg where
  /-- `JIT_R(i)`. -/
  | R (i : ℕ)
  /-- `JIT_V(i)`. -/
  | V (i : ℕ)
  deriving DecidableEq

/-- `JIT_REGISTER_INDIRECT_PC`. -/
abbrev registerIndirectPc : HReg := .V 2

/-- `JIT_REGISTER_MODE`. -/
abbrev registerMode : HReg := .R 1

/-- `JIT_REGISTER_NEXT_PC`. -/
abbrev registerNextPc : HReg := .R 0

/-! ### Instructions -/

/-- The operations of Lightning, on two registers or a register and an immediate. -/
inductive BinOp where
  | add | sub | and | or | xor | lsh | rsh | rshU | lt | ltU | le | ge | gt | eq | ne
  deriving DecidableEq

/-- The C functions that compiled code calls, with their arguments. -/
inductive Callee where
  | vu (op : Fin 64) (e : Fin 16) (vd vs vt : Fin 32)
  | mfc0 (rt rd : Fin 32)
  | mtc0 (rt rd : Fin 32)
  | mfc2 (rt rd : Fin 32) (e : Fin 16)
  | mtc2 (rt rd : Fin 32) (e : Fin 16)
  | cfc2 (rt rd : Fin 32)
  | ctc2 (rt rd : Fin 32)
  | lwc2 (op : LS.LsOp) (e : Fin 16) (rt rs : Fin 32) (offset : Word)
  | swc2 (op : LS.LsOp) (e : Fin 16) (rt rs : Fin 32) (offset : Word)

/-- The C functions that an access calls when it is not aligned. -/
inductive UnalignedFunc where
  /-- `rsp_unaligned_lh`, `rsp_unaligned_lw` and `rsp_unaligned_lhu`. -/
  | load (o : LoadOp)
  /-- `rsp_unaligned_sh` and `rsp_unaligned_sw`. -/
  | store (o : StoreOp)

/-- The control words of `CPUState`. -/
inductive Field where
  | hasDelaySlot | branchTarget
  deriving DecidableEq

/-- An instruction of the host. -/
inductive Op (T : Target) where
  /-- `jit_movi`. -/
  | movi (d : HReg) (x : BitVec T.wordSize)
  /-- `jit_movr`. -/
  | movr (d a : HReg)
  /-- `jit_addr` and the like. -/
  | binr (o : BinOp) (d a b : HReg)
  /-- `jit_addi` and the like. -/
  | bini (o : BinOp) (d a : HReg) (x : BitVec T.wordSize)
  /-- `jit_extr_i`, and `jit_extr_ui` when not signed. -/
  | extr (signed : Bool) (d a : HReg)
  /-- `jit_ldxi_i` or `jit_ldxi_ui` of a scalar register. -/
  | ldSr (signed : Bool) (d : HReg) (r : ℕ)
  /-- `jit_stxi_i` to a scalar register. -/
  | stSr (r : ℕ) (a : HReg)
  /-- `jit_ldxi_i` of a control word. -/
  | ldField (d : HReg) (f : Field)
  /-- `jit_stxi_i` to a control word. -/
  | stField (f : Field) (a : HReg)
  /-- `jit_ldxi` of a slot of the stack frame. -/
  | ldFrame (d : HReg) (slot : ℕ)
  /-- `jit_stxi` to a slot of the stack frame. -/
  | stFrame (slot : ℕ) (a : HReg)
  /-- `jit_ldxr_c` and the like, from DMEM. -/
  | ldDmem (o : LoadOp) (d a : HReg)
  /-- `jit_stxr_c` and the like, to DMEM. -/
  | stDmem (o : StoreOp) (a b : HReg)
  /-- A call of a helper. -/
  | call (f : Callee)
  /-- `jit_pushr`. -/
  | pushr (a : HReg)
  /-- `jit_pushr` of `JIT_REGISTER_DMEM`. -/
  | pushDmem
  /-- A call of a function whose arguments have been pushed. -/
  | callUnaligned (f : UnalignedFunc)
  /-- `jit_retval`. -/
  | retval (d : HReg)
  /-- `rsp_report_pc`. -/
  | trace (pc instr : Word)

/-- A condition of a branch. -/
inductive Cond (T : Target) where
  /-- `jit_beqi`. -/
  | eqi (a : HReg) (x : BitVec T.wordSize)
  /-- `jit_bnei`. -/
  | nei (a : HReg) (x : BitVec T.wordSize)
  /-- `jit_bmsi`. -/
  | msi (a : HReg) (x : BitVec T.wordSize)

/-! ### Values -/

section Values

variable {w : ℕ}

/-- A truth value as a host word. -/
def flag (b : Bool) : BitVec w := if b then 1#w else 0#w

/-- What an operation computes. -/
def BinOp.eval : BinOp → BitVec w → BitVec w → BitVec w
  | .add, x, y => x + y
  | .sub, x, y => x - y
  | .and, x, y => x &&& y
  | .or, x, y => x ||| y
  | .xor, x, y => x ^^^ y
  | .lsh, x, y => x <<< y.toNat
  | .rsh, x, y => x.sshiftRight y.toNat
  | .rshU, x, y => x >>> y.toNat
  | .lt, x, y => flag (x.slt y)
  | .ltU, x, y => flag (x.ult y)
  | .le, x, y => flag (x.sle y)
  | .ge, x, y => flag (y.sle x)
  | .gt, x, y => flag (y.slt x)
  | .eq, x, y => flag (x == y)
  | .ne, x, y => flag (x != y)

/-- What the host loads from its byte memory, the low byte first. -/
def hostLoad (w : ℕ) (mem : ℕ → Byte) (i : ℕ) : LoadOp → BitVec w
  | .lb => (mem i).signExtend w
  | .lbu => (mem i).setWidth w
  | .lh => (mem (i + 1) ++ mem i).signExtend w
  | .lhu => (mem (i + 1) ++ mem i).setWidth w
  | .lw => (mem (i + 3) ++ mem (i + 2) ++ mem (i + 1) ++ mem i).signExtend w

/-- What the host stores to its byte memory, the low byte first. -/
def hostStore (mem : ℕ → Byte) (i : ℕ) (x : BitVec w) : StoreOp → ℕ → Byte
  | .sb => Function.update mem i (x.setWidth 8)
  | .sh => Function.update (Function.update mem i (x.setWidth 8)) (i + 1) (x.extractLsb' 8 8)
  | .sw =>
    Function.update (Function.update (Function.update (Function.update mem i (x.setWidth 8))
      (i + 1) (x.extractLsb' 8 8)) (i + 2) (x.extractLsb' 16 8)) (i + 3) (x.extractLsb' 24 8)

end Values

/-! ### Unaligned accesses -/

section Unaligned

variable {w : ℕ} (dram : ℕ → Byte) (addr : BitVec w)

/-- `BYTE_ENDIAN_FIXUP`. -/
def byteEndianFixup (off : ℕ) : ℕ := (((addr + BitVec.ofNat w off) ^^^ 3#w) &&& 0xfff#w).toNat

/-- `rsp_unaligned_lh`, `rsp_unaligned_lhu` and `rsp_unaligned_lw`; a byte needs none. -/
def rspUnalignedLoad : LoadOp → BitVec w
  | .lh => (dram (byteEndianFixup addr 0) ++ dram (byteEndianFixup addr 1)).signExtend w
  | .lhu => (dram (byteEndianFixup addr 0) ++ dram (byteEndianFixup addr 1)).setWidth w
  | .lw => (dram (byteEndianFixup addr 0) ++ dram (byteEndianFixup addr 1) ++
      dram (byteEndianFixup addr 2) ++ dram (byteEndianFixup addr 3)).signExtend w
  | .lb | .lbu => 0#w

/-- `rsp_unaligned_sh` and `rsp_unaligned_sw`; a byte needs none. -/
def rspUnalignedStore (data : BitVec w) : StoreOp → ℕ → Byte
  | .sh =>
    Function.update (Function.update dram (byteEndianFixup addr 0) (data.extractLsb' 8 8))
      (byteEndianFixup addr 1) (data.extractLsb' 0 8)
  | .sw =>
    Function.update (Function.update (Function.update (Function.update dram
      (byteEndianFixup addr 0) (data.extractLsb' 24 8))
        (byteEndianFixup addr 1) (data.extractLsb' 16 8))
      (byteEndianFixup addr 2) (data.extractLsb' 8 8)) (byteEndianFixup addr 3)
        (data.extractLsb' 0 8)
  | .sb => dram

end Unaligned

/-! ### Execution -/

/-- The value of a `ReturnMode`. -/
def modeCode : ReturnMode → ℕ
  | .enter => 0
  | .continue => 1
  | .break => 2
  | .dmaRead => 3
  | .checkFlags => 4

theorem modeCode_injective : Function.Injective modeCode := by
  intro a b h
  cases a <;> cases b <;> first | rfl | cases h

/-- What a helper does. -/
def Callee.run (H : Helpers) : Callee → Arch → Arch × ReturnMode
  | .vu op e vd vs vt, a => ({ a with cp2 := VU.vuop H.build e vd vs vt a.cp2 op }, .continue)
  | .mfc0 rt rd, a => CP.rspMFC0 rt rd a
  | .mtc0 rt rd, a => CP.rspMTC0 H.rdp rd rt a
  | .mfc2 rt rd e, a => (CP.rspMFC2 rt rd e a, .continue)
  | .mtc2 rt rd e, a => (CP.rspMTC2 rt rd e a, .continue)
  | .cfc2 rt rd, a => (CP.rspCFC2 rt rd a, .continue)
  | .ctc2 rt rd, a => (CP.rspCTC2 rt rd a, .continue)
  | .lwc2 op e rt rs offset, a => (LS.lwc2 H.build op e rt rs offset a, .continue)
  | .swc2 op e rt rs offset, a => (LS.swc2 op e rt rs offset a, .continue)

/-- A word on the stack. -/
inductive Pushed (T : Target) where
  /-- The address of DMEM. -/
  | dmem
  /-- What was in a register. -/
  | word (x : BitVec T.wordSize)

/-- The state of the host. -/
@[ext]
structure Host (T : Target) where
  /-- The registers. -/
  regs : HReg → BitVec T.wordSize
  /-- The stack frame, in words from its lower end. -/
  frame : ℕ → BitVec T.wordSize
  /-- The words pushed, the last one first. -/
  stack : List (Pushed T)
  /-- The result of the last call. -/
  ret : BitVec T.wordSize
  /-- `CPUState`. -/
  st : CPUState
  /-- The instructions recorded so far, the last one first. -/
  log : List (Word × Word)

/-- The helpers, and what the code does not determine. -/
structure Env (T : Target) extends Helpers where
  /-- The contents of `R(i)` after a call. -/
  clobber : Host T → ℕ → BitVec T.wordSize
  /-- The host after a call of a function that looks elsewhere for its arguments. -/
  stray : UnalignedFunc → Host T → Host T

variable {T : Target}

namespace Host

/-- The host before anything has run. -/
def zero : Host T where
  regs := fun _ => 0#_
  frame := fun _ => 0#_
  stack := []
  ret := 0#_
  st := { Arch.zero with pc := 0#32, hasDelaySlot := 0#32, branchTarget := 0#32 }
  log := []

/-- The host with a register written. -/
def set (h : Host T) (d : HReg) (x : BitVec T.wordSize) : Host T :=
  { h with regs := Function.update h.regs d x }

/-- The host after a call. -/
def lose (h : Host T) (E : Env T) : Host T :=
  { h with regs := fun r => match r with | .R i => E.clobber h i | .V i => h.regs (.V i) }

/-- The host after a `__stdcall` function, which takes its arguments off the stack: `dram`, `addr`
and, for a store, `data`. -/
def stdcall (h : Host T) (f : UnalignedFunc) : Host T :=
  match f, h.stack with
  | .load o, .dmem :: .word addr :: stack =>
    { h with stack, ret := rspUnalignedLoad h.st.dmem addr o }
  | .store o, .dmem :: .word addr :: .word data :: stack =>
    { h with stack, st := { h.st with dmem := rspUnalignedStore h.st.dmem addr data o } }
  -- no code calls without pushing them
  | _, _ => h

/-- A control word. -/
def field (h : Host T) : Field → Word
  | .hasDelaySlot => h.st.hasDelaySlot
  | .branchTarget => h.st.branchTarget

/-- A control word written. -/
def setField (h : Host T) (f : Field) (x : Word) : Host T :=
  match f with
  | .hasDelaySlot => { h with st := { h.st with hasDelaySlot := x } }
  | .branchTarget => { h with st := { h.st with branchTarget := x } }

end Host

/-- A register seen as a MIPS register. -/
def low (x : BitVec T.wordSize) : Word := x.setWidth 32

/-- A MIPS register in a host register. -/
def extend (T : Target) (signed : Bool) (x : Word) : BitVec T.wordSize :=
  if signed then x.signExtend T.wordSize else x.setWidth T.wordSize

/-- One instruction of the host. -/
def stepOp (E : Env T) (i : Op T) (h : Host T) : Host T :=
  match i with
  | .movi d x => h.set d x
  | .movr d a => h.set d (h.regs a)
  | .binr o d a b => h.set d (o.eval (h.regs a) (h.regs b))
  | .bini o d a x => h.set d (o.eval (h.regs a) x)
  | .extr signed d a => h.set d (extend T signed (low (h.regs a)))
  | .ldSr signed d r => h.set d (extend T signed (h.st.sr r))
  | .stSr r a => { h with st := { h.st with sr := Function.update h.st.sr r (low (h.regs a)) } }
  | .ldField d f => h.set d (extend T true (h.field f))
  | .stField f a => h.setField f (low (h.regs a))
  | .ldFrame d slot => h.set d (h.frame slot)
  | .stFrame slot a => { h with frame := Function.update h.frame slot (h.regs a) }
  | .ldDmem o d a => h.set d (hostLoad T.wordSize h.st.dmem (h.regs a).toNat o)
  | .stDmem o a b =>
      { h with st := { h.st with dmem := hostStore h.st.dmem (h.regs a).toNat (h.regs b) o } }
  | .call f =>
    let r := f.run E.toHelpers h.st.toArch
    { h.lose E with st := { h.st with toArch := r.1 }, ret := BitVec.ofNat _ (modeCode r.2) }
  | .pushr a => { h with stack := .word (h.regs a) :: h.stack }
  | .pushDmem => { h with stack := .dmem :: h.stack }
  | .callUnaligned f => if T.wordSize = 32 then (h.lose E).stdcall f else E.stray f h
  | .retval d => h.set d h.ret
  | .trace pc instr => { h with log := (pc, instr) :: h.log }

/-- The functions for unaligned accesses find their arguments. -/
class Env.Stdcall (E : Env T) : Prop where
  /-- On the stack. -/
  stepOp_callUnaligned : ∀ f h, stepOp E (.callUnaligned f) h = (h.lose E).stdcall f

instance [T.Stdcall] (E : Env T) : E.Stdcall := ⟨fun _ _ => if_pos Target.Stdcall.wordSize_eq⟩

/-- The functions for unaligned accesses write nothing of the state but DMEM. -/
class Env.SparesState (E : Env T) : Prop where
  /-- Wherever they find their arguments. -/
  stepOp_callUnaligned : ∀ f h, ∃ dmem, (stepOp E (.callUnaligned f) h).st = { h.st with dmem }

theorem Host.stdcall_st (h : Host T) (f : UnalignedFunc) :
    ∃ dmem, (h.stdcall f).st = { h.st with dmem } := by
  unfold Host.stdcall
  split <;> exact ⟨_, rfl⟩

instance (E : Env T) [E.Stdcall] : E.SparesState where
  stepOp_callUnaligned f h := by
    rw [Env.Stdcall.stepOp_callUnaligned]
    exact (h.lose E).stdcall_st f

/-- A condition of the host. -/
def holdsCond (c : Cond T) (h : Host T) : Bool :=
  match c with
  | .eqi a x => h.regs a == x
  | .nei a x => h.regs a != x
  | .msi a x => (h.regs a &&& x) != 0#_

/-- The host as a machine. -/
def lightning (E : Env T) : Interp (Op T) (Cond T) (Host T) where
  step := stepOp E
  holds := holdsCond

@[simp] theorem lightning_step (E : Env T) : (lightning E).step = stepOp E := rfl

@[simp] theorem lightning_holds (E : Env T) : (lightning E).holds = holdsCond := rfl

end ParallelRsp.Jit
