import ParallelRsp.Mips.Instr
import ParallelRsp.Rsp.Cp0
import ParallelRsp.Rsp.Cp2
import ParallelRsp.Vu.Functions

/-!
# The reference machine

A MIPS machine that executes one instruction at a time, with one branch delay slot. It is
what compiled code is compared with: registers and DMEM are memory, a taken branch is
pending while the next instruction executes, and control then goes to its target.

The scalar instructions are defined here on 32-bit registers and on the big-endian byte
view of DMEM; the helpers of `rsp/` are the same functions that compiled code calls.
-/

namespace ParallelRsp

open Simd

/-- What the helpers depend on besides the state: the build, and the plugin that
processes display lists. -/
structure Helpers where
  /-- The instruction set the vector unit is built for. -/
  build : Build
  /-- `ProcessRdpList`. -/
  rdp : CP.ProcessRdpList

namespace Mips

/-! ### Registers -/

/-- Register `r`; register 0 reads as zero. -/
def read (a : Arch) (r : Fin 32) : Word := if r = 0 then 0#32 else a.sr r

/-- Register `r` written; register 0 ignores it. -/
def write (a : Arch) (r : Fin 32) (x : Word) : Arch := if r = 0 then a else CP.setSr a r x

/-- The address of a load or store. -/
def address (a : Arch) (rs : Fin 32) (x : BitVec 16) : Word := read a rs + x.signExtend 32

/-! ### The byte view of DMEM -/

/-- The byte at an RSP address. -/
def readByte (mem : ℕ → Byte) (addr : Word) : Byte := mem ((addr.toNat % 4096) ^^^ 3)

/-- The halfword at an RSP address. -/
def readHalf (mem : ℕ → Byte) (addr : Word) : BitVec 16 :=
  readByte mem addr ++ readByte mem (addr + 1#32)

/-- The word at an RSP address. -/
def readWord (mem : ℕ → Byte) (addr : Word) : Word :=
  readHalf mem addr ++ readHalf mem (addr + 2#32)

/-- A byte written. -/
def writeByte (mem : ℕ → Byte) (addr : Word) (x : Byte) : ℕ → Byte :=
  Function.update mem ((addr.toNat % 4096) ^^^ 3) x

/-- A halfword written, high byte first. -/
def writeHalf (mem : ℕ → Byte) (addr : Word) (x : BitVec 16) : ℕ → Byte :=
  writeByte (writeByte mem addr (x.extractLsb' 8 8)) (addr + 1#32) (x.extractLsb' 0 8)

/-- A word written, high byte first. -/
def writeWord (mem : ℕ → Byte) (addr : Word) (x : Word) : ℕ → Byte :=
  writeHalf (writeHalf mem addr (x.extractLsb' 16 16)) (addr + 2#32) (x.extractLsb' 0 16)

/-! ### The scalar operations -/

/-- A truth value as a register. -/
def ofBool (b : Bool) : Word := if b then 1#32 else 0#32

/-- A shift. -/
def shift : ShiftOp → Word → ℕ → Word
  | .sll, x, n => x <<< n
  | .srl, x, n => x >>> n
  | .sra, x, n => x.sshiftRight n

/-- An operation on two registers. -/
def alu : AluOp → Word → Word → Word
  | .add, x, y => x + y
  | .sub, x, y => x - y
  | .and, x, y => x &&& y
  | .or, x, y => x ||| y
  | .xor, x, y => x ^^^ y
  | .nor, x, y => ~~~(x ||| y)
  | .slt, x, y => ofBool (x.slt y)
  | .sltu, x, y => ofBool (x.ult y)

/-- An operation on a register and an immediate. -/
def imm : ImmOp → Word → BitVec 16 → Word
  | .addi, x, y => x + y.signExtend 32
  | .slti, x, y => ofBool (x.slt (y.signExtend 32))
  | .sltiu, x, y => ofBool (x.ult (y.signExtend 32))
  | .andi, x, y => x &&& y.setWidth 32
  | .ori, x, y => x ||| y.setWidth 32
  | .xori, x, y => x ^^^ y.setWidth 32

/-- A load. -/
def load : LoadOp → (ℕ → Byte) → Word → Word
  | .lb, mem, addr => (readByte mem addr).signExtend 32
  | .lbu, mem, addr => (readByte mem addr).setWidth 32
  | .lh, mem, addr => (readHalf mem addr).signExtend 32
  | .lhu, mem, addr => (readHalf mem addr).setWidth 32
  | .lw, mem, addr => readWord mem addr

/-- A store. -/
def store : StoreOp → (ℕ → Byte) → Word → Word → ℕ → Byte
  | .sb, mem, addr, x => writeByte mem addr (x.setWidth 8)
  | .sh, mem, addr, x => writeHalf mem addr (x.setWidth 16)
  | .sw, mem, addr, x => writeWord mem addr x

/-! ### Branches -/

/-- The return address of an instruction at `pc`. -/
def linkPc (pc : Word) : Word := (pc + 8#32) &&& 0xffc#32

/-- A comparison with zero. -/
def zeroCond : ZeroCond → Word → Bool
  | .ltz, x => x.slt 0#32
  | .gez, x => !x.slt 0#32

/-- Whether an instruction branches. -/
def taken (i : Instr) (a : Arch) : Bool :=
  match i with
  | .jr _ | .jalr _ _ | .j _ | .jal _ => true
  | .regimm c _ rs _ => zeroCond c (read a rs)
  | .beq rs rt _ => read a rs == read a rt
  | .bne rs rt _ => read a rs != read a rt
  | .blez rs _ => (read a rs).sle 0#32
  | .bgtz rs _ => !(read a rs).sle 0#32
  | _ => false

/-- Where it goes. -/
def target (pc : Word) (i : Instr) (a : Arch) : Word :=
  match i with
  | .jr rs | .jalr _ rs => read a rs
  | i => (i.directTarget pc).getD 0#32

/-! ### One instruction -/

/-- What an instruction at byte address `pc` does to registers and memories, and how its
helper returns. -/
def exec (H : Helpers) (pc : Word) (i : Instr) (a : Arch) : Arch × ReturnMode :=
  match i with
  | .vu op e vd vs vt => ({ a with cp2 := VU.vuop H.build e vd vs vt a.cp2 op }, .continue)
  | .shift op rd rt sa => (write a rd (shift op (read a rt) sa), .continue)
  | .shiftv op rd rt rs => (write a rd (shift op (read a rt) ((read a rs).toNat % 32)), .continue)
  | .alu op rd rs rt => (write a rd (alu op (read a rs) (read a rt)), .continue)
  | .imm op rt rs x => (write a rt (imm op (read a rs) x), .continue)
  | .lui rt x => (write a rt (x.setWidth 32 <<< 16), .continue)
  | .jalr rd _ => (write a rd (linkPc pc), .continue)
  | .jal _ => (write a 31 (linkPc pc), .continue)
  | .regimm _ link _ _ => (if link then write a 31 (linkPc pc) else a, .continue)
  | .jr _ | .j _ | .beq _ _ _ | .bne _ _ _ | .blez _ _ | .bgtz _ _ | .nop => (a, .continue)
  | .break => (a, .break)
  | .mfc0 rt rd => CP.rspMFC0 rt rd a
  | .mtc0 rt rd => CP.rspMTC0 H.rdp rd rt a
  | .mfc2 rt rd e => (CP.rspMFC2 rt rd e a, .continue)
  | .mtc2 rt rd e => (CP.rspMTC2 rt rd e a, .continue)
  | .cfc2 rt rd => (CP.rspCFC2 rt rd a, .continue)
  | .ctc2 rt rd => (CP.rspCTC2 rt rd a, .continue)
  | .load op rt rs x => (write a rt (load op a.dmem (address a rs x)), .continue)
  | .store op rt rs x =>
      ({ a with dmem := store op a.dmem (address a rs x) (read a rt) }, .continue)
  | .lwc2 op e rt rs offset => (LS.lwc2 H.build op e rt rs offset a, .continue)
  | .swc2 op e rt rs offset => (LS.swc2 op e rt rs offset a, .continue)

/-! ### The machine -/

/-- A taken branch. -/
structure Branch where
  /-- Where it goes. -/
  target : Word
  /-- Whether a register says so. -/
  indirect : Bool

/-- The state of the machine. -/
structure State where
  /-- Registers and memories. -/
  arch : Arch
  /-- The address of the next instruction; its low two bits and what exceeds IMEM do not count. -/
  pc : Word
  /-- The branch in whose delay slot that instruction is. -/
  pending : Option Branch
  /-- The instructions executed so far with their addresses, the last one first. -/
  log : List (Word × Word)

/-- The address of an instruction in IMEM. -/
def fetchPc (pc : Word) : Word := pc &&& 0xffc#32

/-- The instruction word at an address. -/
def fetch (a : Arch) (pc : Word) : Word := a.imem (fetchPc pc >>> 2).toNat

/-- The instruction about to execute. -/
def State.instr (m : State) : Instr := decode (fetch m.arch m.pc)

/-- The address after the next instruction. -/
def State.next (m : State) : Word :=
  match m.pending with
  | some b => b.target
  | none => fetchPc m.pc + 4#32

/-- How the next instruction's helper returns. -/
def State.mode (H : Helpers) (m : State) : ReturnMode := (exec H (fetchPc m.pc) m.instr m.arch).2

/-- The branch that the next instruction takes. -/
def State.branch (m : State) : Option Branch :=
  if taken m.instr m.arch then some ⟨target (fetchPc m.pc) m.instr m.arch, m.instr.isIndirect⟩
  else none

/-- One step. -/
def step (H : Helpers) (m : State) : State where
  arch := (exec H (fetchPc m.pc) m.instr m.arch).1
  pc := m.next
  pending := m.branch
  log := (fetchPc m.pc, fetch m.arch m.pc) :: m.log

/-- The state after `n` steps. -/
def steps (H : Helpers) (n : ℕ) (m : State) : State := (step H)^[n] m

theorem steps_succ (H : Helpers) (n : ℕ) (m : State) : steps H (n + 1) m = step H (steps H n m) :=
  Function.iterate_succ_apply' _ _ _

theorem steps_add (H : Helpers) (n k : ℕ) (m : State) :
    steps H (n + k) m = steps H k (steps H n m) := by
  rw [steps, Nat.add_comm]
  exact Function.iterate_add_apply _ _ _ _

end Mips

end ParallelRsp
