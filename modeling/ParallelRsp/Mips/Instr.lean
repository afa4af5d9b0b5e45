import ParallelRsp.Rsp.LoadStore

/-!
# Instructions

The instruction words, taken apart as `jit_instruction`, `analyze_static_end` and
`jit_mark_block_entries` do: first the vector operations (`instr >> 25 == 0x25`), then by
the upper six bits. Everything that `jit_instruction` gives no meaning is a `nop`.

Branches keep the whole word: the source computes `pc + 4 + (instr << 2)` from it and
masks the result.
-/

namespace ParallelRsp

/-- `SLL`, `SRL`, `SRA` and their variable forms. -/
inductive ShiftOp where
  | sll | srl | sra
  deriving DecidableEq

/-- The operations on two registers. -/
inductive AluOp where
  | add | sub | and | or | xor | nor | slt | sltu
  deriving DecidableEq

/-- The operations on a register and an immediate. -/
inductive ImmOp where
  | addi | slti | sltiu | andi | ori | xori
  deriving DecidableEq

/-- The conditions of the branches that compare with zero. -/
inductive ZeroCond where
  | ltz | gez
  deriving DecidableEq

/-- The scalar loads. -/
inductive LoadOp where
  | lb | lh | lw | lbu | lhu
  deriving DecidableEq

/-- The scalar stores. -/
inductive StoreOp where
  | sb | sh | sw
  deriving DecidableEq

/-- An instruction. -/
inductive Instr where
  /-- A vector operation. -/
  | vu (op : Fin 64) (e : Fin 16) (vd vs vt : Fin 32)
  /-- `SLL`, `SRL`, `SRA`. -/
  | shift (op : ShiftOp) (rd rt : Fin 32) (sa : Fin 32)
  /-- `SLLV`, `SRLV`, `SRAV`. -/
  | shiftv (op : ShiftOp) (rd rt rs : Fin 32)
  /-- `ADD` to `SLTU`. -/
  | alu (op : AluOp) (rd rs rt : Fin 32)
  /-- `ADDI` to `XORI`. -/
  | imm (op : ImmOp) (rt rs : Fin 32) (x : BitVec 16)
  /-- `LUI`. -/
  | lui (rt : Fin 32) (x : BitVec 16)
  /-- `JR`. -/
  | jr (rs : Fin 32)
  /-- `JALR`. -/
  | jalr (rd rs : Fin 32)
  /-- `J`. -/
  | j (instr : Word)
  /-- `JAL`. -/
  | jal (instr : Word)
  /-- `BLTZ`, `BGEZ`, and with `link` `BLTZAL`, `BGEZAL`. -/
  | regimm (c : ZeroCond) (link : Bool) (rs : Fin 32) (instr : Word)
  /-- `BEQ`. -/
  | beq (rs rt : Fin 32) (instr : Word)
  /-- `BNE`. -/
  | bne (rs rt : Fin 32) (instr : Word)
  /-- `BLEZ`. -/
  | blez (rs : Fin 32) (instr : Word)
  /-- `BGTZ`. -/
  | bgtz (rs : Fin 32) (instr : Word)
  /-- `BREAK`. -/
  | break
  /-- `MFC0`. -/
  | mfc0 (rt rd : Fin 32)
  /-- `MTC0`. -/
  | mtc0 (rt rd : Fin 32)
  /-- `MFC2`. -/
  | mfc2 (rt rd : Fin 32) (e : Fin 16)
  /-- `MTC2`. -/
  | mtc2 (rt rd : Fin 32) (e : Fin 16)
  /-- `CFC2`. -/
  | cfc2 (rt rd : Fin 32)
  /-- `CTC2`. -/
  | ctc2 (rt rd : Fin 32)
  /-- `LB` to `LHU`. -/
  | load (op : LoadOp) (rt rs : Fin 32) (x : BitVec 16)
  /-- `SB`, `SH`, `SW`. -/
  | store (op : StoreOp) (rt rs : Fin 32) (x : BitVec 16)
  /-- A vector load. -/
  | lwc2 (op : LS.LsOp) (e : Fin 16) (rt rs : Fin 32) (offset : Word)
  /-- A vector store. -/
  | swc2 (op : LS.LsOp) (e : Fin 16) (rt rs : Fin 32) (offset : Word)
  /-- Anything else. -/
  | nop

/-! ### Fields -/

/-- `(instr >> lo) & 31`. -/
def field5 (instr : Word) (lo : ℕ) : Fin 32 := (instr.extractLsb' lo 5).toFin

/-- `(instr >> lo) & 15`. -/
def field4 (instr : Word) (lo : ℕ) : Fin 16 := (instr.extractLsb' lo 4).toFin

/-- The seven low bits, sign-extended. -/
def offset7 (instr : Word) : Word := (instr.extractLsb' 0 7).signExtend 32

/-- `pc + 4 + (instr << 2)`, the target of a branch. -/
def branchTarget (pc instr : Word) : Word := (pc + 4#32 + instr <<< 2) &&& 0xffc#32

/-- `(instr & 0x3ff) << 2`, the target of a jump. -/
def jumpTarget (instr : Word) : Word := (instr &&& 0x3ff#32) <<< 2

/-- The instructions under opcode 0. -/
def decodeSpecial (instr : Word) : Instr :=
  let rd := field5 instr 11
  let rt := field5 instr 16
  let sa := field5 instr 6
  let rs := field5 instr 21
  match (instr.extractLsb' 0 6).toNat with
  | 0o00 => .shift .sll rd rt sa
  | 0o02 => .shift .srl rd rt sa
  | 0o03 => .shift .sra rd rt sa
  | 0o04 => .shiftv .sll rd rt rs
  | 0o06 => .shiftv .srl rd rt rs
  | 0o07 => .shiftv .sra rd rt rs
  | 0o10 => .jr rs
  | 0o11 => .jalr rd rs
  | 0o15 => .break
  | 0o40 => .alu .add rd rs rt
  | 0o41 => .alu .add rd rs rt
  | 0o42 => .alu .sub rd rs rt
  | 0o43 => .alu .sub rd rs rt
  | 0o44 => .alu .and rd rs rt
  | 0o45 => .alu .or rd rs rt
  | 0o46 => .alu .xor rd rs rt
  | 0o47 => .alu .nor rd rs rt
  | 0o52 => .alu .slt rd rs rt
  | 0o53 => .alu .sltu rd rs rt
  | _ => .nop

/-- The instructions under opcode 1. -/
def decodeRegimm (instr : Word) : Instr :=
  let rs := field5 instr 21
  match (field5 instr 16).val with
  | 0o00 => .regimm .ltz false rs instr
  | 0o01 => .regimm .gez false rs instr
  | 0o20 => .regimm .ltz true rs instr
  | 0o21 => .regimm .gez true rs instr
  | _ => .nop

/-- The instructions under opcode 16. -/
def decodeCop0 (instr : Word) : Instr :=
  let rd := field5 instr 11
  let rt := field5 instr 16
  match (field5 instr 21).val with
  | 0o00 => .mfc0 rt rd
  | 0o04 => .mtc0 rt rd
  | _ => .nop

/-- The instructions under opcode 18 that are not vector operations. -/
def decodeCop2 (instr : Word) : Instr :=
  let rd := field5 instr 11
  let rt := field5 instr 16
  let e := field4 instr 7
  match (field5 instr 21).val with
  | 0o00 => .mfc2 rt rd e
  | 0o02 => .cfc2 rt rd
  | 0o04 => .mtc2 rt rd e
  | 0o06 => .ctc2 rt rd
  | _ => .nop

/-- `LWC2` and `SWC2`: an opcode without an entry in the table does nothing. -/
def decodeLs (ops : Fin 32 → Option LS.LsOp)
    (mk : LS.LsOp → Fin 16 → Fin 32 → Fin 32 → Word → Instr) (instr : Word) : Instr :=
  match ops (field5 instr 11) with
  | some op => mk op (field4 instr 7) (field5 instr 16) (field5 instr 21) (offset7 instr)
  | none => .nop

/-- The instruction of a word. -/
def decode (instr : Word) : Instr :=
  let rt := field5 instr 16
  let rs := field5 instr 21
  let x := instr.extractLsb' 0 16
  if (instr >>> 25).toNat = 0x25 then
    .vu (instr.extractLsb' 0 6).toFin (field4 instr 21) (field5 instr 6) (field5 instr 11) rt
  else
    match (instr >>> 26).toNat with
    | 0o00 => decodeSpecial instr
    | 0o01 => decodeRegimm instr
    | 0o02 => .j instr
    | 0o03 => .jal instr
    | 0o04 => .beq rs rt instr
    | 0o05 => .bne rs rt instr
    | 0o06 => .blez rs instr
    | 0o07 => .bgtz rs instr
    | 0o10 => .imm .addi rt rs x
    | 0o11 => .imm .addi rt rs x
    | 0o12 => .imm .slti rt rs x
    | 0o13 => .imm .sltiu rt rs x
    | 0o14 => .imm .andi rt rs x
    | 0o15 => .imm .ori rt rs x
    | 0o16 => .imm .xori rt rs x
    | 0o17 => .lui rt x
    | 0o20 => decodeCop0 instr
    | 0o22 => decodeCop2 instr
    | 0o40 => .load .lb rt rs x
    | 0o41 => .load .lh rt rs x
    | 0o43 => .load .lw rt rs x
    | 0o44 => .load .lbu rt rs x
    | 0o45 => .load .lhu rt rs x
    | 0o47 => .load .lw rt rs x
    | 0o50 => .store .sb rt rs x
    | 0o51 => .store .sh rt rs x
    | 0o53 => .store .sw rt rs x
    | 0o62 => decodeLs LS.lwc2Ops .lwc2 instr
    | 0o72 => decodeLs LS.swc2Ops .swc2 instr
    | _ => .nop

/-! ### Branches -/

/-- Whether `jit_instruction` makes a branch of the instruction: `BGTZ $0` never branches. -/
def Instr.isBranch : Instr → Bool
  | .jr _ | .jalr _ _ | .j _ | .jal _ | .regimm _ _ _ _ | .beq _ _ _ | .bne _ _ _ | .blez _ _ =>
      true
  | .bgtz rs _ => rs.val ≠ 0
  | _ => false

/-- Whether the target of a branch is a register. -/
def Instr.isIndirect : Instr → Bool
  | .jr _ | .jalr _ _ => true
  | _ => false

/-- The target that the analysis of a region sees, of an instruction at byte address `pc`.
It counts `BGTZ $0` among the branches. -/
def Instr.directTarget (pc : Word) : Instr → Option Word
  | .j instr | .jal instr => some (jumpTarget instr)
  | .regimm _ _ _ instr | .beq _ _ instr | .bne _ _ instr | .blez _ instr | .bgtz _ instr =>
    some (branchTarget pc instr)
  | _ => none

end ParallelRsp
