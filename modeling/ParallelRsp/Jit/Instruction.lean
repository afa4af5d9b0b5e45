import ParallelRsp.Jit.RegisterCache

/-!
# One instruction compiled

`CPU::jit_instruction` of `rsp_jit.cpp` and the functions it calls. An instruction tells
the next one, by `InstructionInfo`, whether it is a branch: direct or through
`JIT_REGISTER_INDIRECT_PC`, unconditional or on the pseudo register `COND_BRANCH_TAKEN`.

The instructions of one form are compiled by one generator, with the Lightning operation
and the extension of its operands as parameters. A forward branch that is patched right
behind a piece of code is an `ite`.
-/

namespace ParallelRsp.Jit

open Codegen

variable {T : Target}

/-- `CPU::InstructionInfo`. -/
structure InstructionInfo where
  /-- `branch_target`. -/
  branchTarget : Word := 0#32
  /-- `indirect`. -/
  indirect : Bool := false
  /-- `branch`. -/
  branch : Bool := false
  /-- `conditional`. -/
  conditional : Bool := false
  /-- `handles_delay_slot`. -/
  handlesDelaySlot : Bool := false

/-- The code of a region. -/
abbrev HostCode (T : Target) : Type := Code (Op T) (Cond T) Label Exit

/-- A 32-bit number as an immediate. -/
def immediate (x : Word) : BitVec T.wordSize := x.setWidth T.wordSize

/-- `pc + 4`, kept within IMEM. -/
def followingPc (pc : Word) : Word := (pc + 4#32) &&& 0xffc#32

/-! ### Indirect branches and branches in delay slots -/

/-- `jit_save_indirect_register`. -/
def jitSaveIndirectRegister (r : Fin 32) : Gen T Unit := do
  let d ← loadMipsRegisterNoext r
  Emit.op (.movr registerIndirectPc d)
  unlockMipsRegister r

/-- The slot of the first branch's condition, when a branch is in the delay slot of another. -/
abbrev illegalCondSlot : ℕ := 1

/-- The slot of the first branch's target. -/
abbrev illegalIndirectSlot : ℕ := 3

/-- `jit_save_illegal_indirect_register`. -/
def jitSaveIllegalIndirectRegister : Gen T Unit :=
  Emit.op (.stFrame illegalIndirectSlot registerIndirectPc)

/-- `jit_save_illegal_cond_branch_taken`. -/
def jitSaveIllegalCondBranchTaken : Gen T Unit := do
  let d ← loadMipsRegisterNoext condBranchTaken
  Emit.op (.stFrame illegalCondSlot d)
  unlockMipsRegister condBranchTaken

/-- `FLUSH_IMPOSSIBLE_DELAY_SLOT`. -/
def flushImpossibleDelaySlot (last : InstructionInfo) : Gen T Unit := do
  Emit.when (last.branch ∧ last.conditional) jitSaveIllegalCondBranchTaken
  Emit.when (last.branch ∧ last.indirect) jitSaveIllegalIndirectRegister

/-! ### Leaving -/

/-- Load the target of a branch. -/
def loadTarget (d : HReg) (info : InstructionInfo) : HostCode T :=
  .op (if info.indirect then .movr d registerIndirectPc else .movi d (immediate info.branchTarget))

/-- `jit_exit_dynamic`. -/
def jitExitDynamic (pc : Word) (last : InstructionInfo) (first : Bool) : HostCode T :=
  let following : HostCode T := .op (.movi registerNextPc (immediate (followingPc pc)))
  if first then
    .block [.op (.ldField registerNextPc .hasDelaySlot),
      .ite (.nei registerNextPc 0#_) .nil (.block [following, .leave .returnThunk]),
      .op (.movi registerNextPc 0#_),
      .op (.stField .hasDelaySlot registerNextPc),
      .op (.ldField registerNextPc .branchTarget),
      .leave .returnThunk]
  else if !last.branch then .block [following, .leave .returnThunk]
  else if !last.conditional then .block [loadTarget registerNextPc last, .leave .returnThunk]
  else
    .block [.op (.ldSr true registerNextPc condBranchTaken),
      .ite (.eqi registerNextPc 0#_) following (loadTarget registerNextPc last),
      .leave .returnThunk]

/-- `jit_exit`. -/
def jitExit (pc : Word) (last : InstructionInfo) (mode : ReturnMode) (first : Bool) :
    Gen T Unit := do
  flushRegisterWindow
  Emit.op (.movi registerMode (BitVec.ofNat _ (modeCode mode)))
  Emit.code (jitExitDynamic pc last first)

/-! ### Loads and stores -/

/-- `endian_flip` of the loads. -/
def LoadOp.endianFlip : LoadOp → ℕ
  | .lb | .lbu => 3
  | .lh | .lhu => 2
  | .lw => 0

/-- `endian_flip` of the stores. -/
def StoreOp.endianFlip : StoreOp → ℕ
  | .sb => 3
  | .sh => 2
  | .sw => 0

/-- The effective address, in a scratch register. -/
def emitAddress (t a : HReg) (x : BitVec 16) : Gen T Unit := do
  Emit.op (.bini .add t a (x.signExtend T.wordSize))
  Emit.op (.bini .and t t 0xfff#_)

/-- The code calls a function for the access of an instruction, since it is not aligned. -/
def CallsUnaligned (i : Instr) (a : Arch) : Prop :=
  match i with
  | .load op rt rs x =>
    rt ≠ 0 ∧ Mips.address a rs x &&& BitVec.ofNat 32 (LoadOp.endianFlip op ^^^ 3) ≠ 0#32
  | .store op _ rs x => Mips.address a rs x &&& BitVec.ofNat 32 (3 - StoreOp.endianFlip op) ≠ 0#32
  | _ => False

/-- The address flipped for byte and halfword accesses, and the access. -/
def flipped (flip : ℕ) (t : HReg) (access : Op T) : HostCode T :=
  .seq (if flip ≠ 0 then .op (.bini .xor t t (BitVec.ofNat _ flip)) else .nil) (.op access)

/-- `jit_emit_store_operation`. -/
def jitEmitStoreOperation (op : StoreOp) (rt rs : Fin 32) (x : BitVec 16) : Gen T Unit := do
  let mask := 3 - StoreOp.endianFlip op
  let d ← loadMipsRegisterNoext rt
  let a ← loadMipsRegisterNoext rs
  let t ← modifyMipsRegister scratchRegister0
  emitAddress t a x
  if mask ≠ 0 then do
    unlockMipsRegister rt
    unlockMipsRegister rs
    unlockMipsRegister scratchRegister0
    flushCallerSaveRegisters
    Emit.code (.ite (.msi t (BitVec.ofNat _ mask))
      (.block [.op (.pushr d), .op (.pushr t), .op .pushDmem, .op (.callUnaligned (.store op))])
      (flipped (StoreOp.endianFlip op) t (.stDmem op t d)))
  else do
    Emit.code (flipped (StoreOp.endianFlip op) t (.stDmem op t d))
    unlockMipsRegister rt
    unlockMipsRegister rs
    unlockMipsRegister scratchRegister0

/-- The access of a load, with its result in the second scratch register. -/
def emitLoadAccess (op : LoadOp) (rs : Fin 32) (t ret : HReg) : Gen T Unit :=
  let mask := LoadOp.endianFlip op ^^^ 3
  if mask ≠ 0 then do
    unlockMipsRegister rs
    unlockMipsRegister scratchRegister0
    unlockMipsRegister scratchRegister1
    flushCallerSaveRegisters
    Emit.code (.ite (.msi t (BitVec.ofNat _ mask))
      (.block [.op (.pushr t), .op .pushDmem, .op (.callUnaligned (.load op)), .op (.retval ret)])
      (flipped (LoadOp.endianFlip op) t (.ldDmem op ret t)))
  else do
    Emit.code (flipped (LoadOp.endianFlip op) t (.ldDmem op ret t))
    unlockMipsRegister rs
    unlockMipsRegister scratchRegister0
    unlockMipsRegister scratchRegister1

/-- `jit_emit_load_operation`. -/
def jitEmitLoadOperation (op : LoadOp) (rt rs : Fin 32) (x : BitVec 16) : Gen T Unit :=
  Emit.when (rt ≠ 0) do
    let a ← loadMipsRegisterNoext rs
    let t ← modifyMipsRegister scratchRegister0
    emitAddress t a x
    let ret ← modifyMipsRegister scratchRegister1
    emitLoadAccess op rs t ret
    let d ← modifyMipsRegister rt
    Emit.op (.movr d ret)
    unlockMipsRegister rt

/-! ### Shifts, operations on registers, immediates -/

/-- How the shifted register is extended. -/
def ShiftOp.extension : ShiftOp → Extension
  | .sll => .noext
  | .srl => .zext
  | .sra => .sext

/-- The operation. -/
def ShiftOp.binOp : ShiftOp → BinOp
  | .sll => .lsh
  | .srl => .rshU
  | .sra => .rsh

/-- `SLL`, `SRL`, `SRA`. -/
def emitShift (op : ShiftOp) (rd rt sa : Fin 32) : Gen T Unit :=
  Emit.when (rd ≠ 0) do
    let b ← loadMipsRegister (ShiftOp.extension op) rt
    let d ← modifyMipsRegister rd
    Emit.op (.bini (ShiftOp.binOp op) d b (BitVec.ofNat _ sa))
    unlockMipsRegister rt
    unlockMipsRegister rd

/-- `SLLV`, `SRLV`, `SRAV`. -/
def emitShiftv (op : ShiftOp) (rd rt rs : Fin 32) : Gen T Unit :=
  Emit.when (rd ≠ 0) do
    let b ← loadMipsRegister (ShiftOp.extension op) rt
    let a ← loadMipsRegisterNoext rs
    let t ← modifyMipsRegister scratchRegister0
    Emit.op (.bini .and t a 31#_)
    unlockMipsRegister rs
    let d ← modifyMipsRegister rd
    Emit.op (.binr (ShiftOp.binOp op) d b t)
    unlockMipsRegister rt
    unlockMipsRegister rd
    unlockMipsRegister scratchRegister0

/-- `THREE_REG_OP`. -/
def threeRegOp (o : BinOp) (ext : Extension) (rd rs rt : Fin 32) : Gen T Unit :=
  Emit.when (rd ≠ 0) do
    let a ← loadMipsRegister ext rs
    let b ← loadMipsRegister ext rt
    let d ← modifyMipsRegister rd
    Emit.op (.binr o d a b)
    unlockMipsRegister rs
    unlockMipsRegister rt
    unlockMipsRegister rd

/-- `NOR`. -/
def emitNor (rd rs rt : Fin 32) : Gen T Unit :=
  Emit.when (rd ≠ 0) do
    let b ← loadMipsRegisterNoext rt
    let a ← loadMipsRegisterNoext rs
    let d ← modifyMipsRegister rd
    Emit.op (.binr .or d b a)
    Emit.op (.bini .xor d d (BitVec.allOnes _))
    unlockMipsRegister rt
    unlockMipsRegister rs
    unlockMipsRegister rd

/-- The operations on two registers. -/
def emitAlu (op : AluOp) (rd rs rt : Fin 32) : Gen T Unit :=
  match op with
  | .add => threeRegOp .add .noext rd rs rt
  | .sub => threeRegOp .sub .noext rd rs rt
  | .and => threeRegOp .and .noext rd rs rt
  | .or => threeRegOp .or .noext rd rs rt
  | .xor => threeRegOp .xor .noext rd rs rt
  | .nor => emitNor rd rs rt
  | .slt => threeRegOp .lt .sext rd rs rt
  | .sltu => threeRegOp .ltU .zext rd rs rt

/-- `TWO_REG_IMM_OP`. -/
def twoRegImmOp (o : BinOp) (x : BitVec T.wordSize) (ext : Extension) (rt rs : Fin 32) :
    Gen T Unit :=
  Emit.when (rt ≠ 0) do
    let a ← loadMipsRegister ext rs
    let d ← modifyMipsRegister rt
    Emit.op (.bini o d a x)
    unlockMipsRegister rs
    unlockMipsRegister rt

/-- A constant into a register. -/
def emitConstant (rt : Fin 32) (x : BitVec T.wordSize) : Gen T Unit :=
  Emit.when (rt ≠ 0) do
    let _ ← immediateMipsRegister rt x
    unlockMipsRegister rt

/-- The operations on a register and an immediate; `ADDI` and `ORI` of `$0` load a constant. -/
def emitImm (op : ImmOp) (rt rs : Fin 32) (x : BitVec 16) : Gen T Unit :=
  match op with
  | .addi =>
    if rs = 0 then emitConstant rt (x.signExtend _)
      else twoRegImmOp .add (x.signExtend _) .noext rt rs
  | .slti => twoRegImmOp .lt (x.signExtend _) .sext rt rs
  | .sltiu => twoRegImmOp .ltU (x.signExtend _) .sext rt rs
  | .andi => twoRegImmOp .and (x.setWidth _) .noext rt rs
  | .ori =>
      if rs = 0 then emitConstant rt (x.setWidth _) else twoRegImmOp .or (x.setWidth _) .noext rt rs
  | .xori => twoRegImmOp .xor (x.setWidth _) .noext rt rs

/-! ### Branches -/

/-- A condition on one register and zero. -/
def emitZeroBranch (o : BinOp) (rs : Fin 32) : Gen T Unit := do
  let a ← loadMipsRegisterSext rs
  let d ← modifyMipsRegister condBranchTaken
  Emit.op (.bini o d a 0#_)
  unlockMipsRegister rs
  unlockMipsRegister condBranchTaken

/-- A condition on two registers. -/
def emitRegBranch (o : BinOp) (rs rt : Fin 32) : Gen T Unit := do
  let a ← loadMipsRegisterSext rs
  let b ← loadMipsRegisterSext rt
  let d ← modifyMipsRegister condBranchTaken
  Emit.op (.binr o d a b)
  unlockMipsRegister rs
  unlockMipsRegister rt
  unlockMipsRegister condBranchTaken

/-- The condition of a jump: when the delay slot can be branched to, the jump is conditional. -/
def emitJumpCondition (nextIsTarget : Bool) : Gen T Unit := do
  let _ ← immediateMipsRegister condBranchTaken (if nextIsTarget then 1#_ else 0#_)
  unlockMipsRegister condBranchTaken

/-- The link register. -/
def emitLink (r : Fin 32) (pc : Word) : Gen T Unit := do
  let _ ← immediateMipsRegister r (immediate (Mips.linkPc pc))
  unlockMipsRegister r

/-- The operation of a comparison with zero. -/
def ZeroCond.binOp : ZeroCond → BinOp
  | .ltz => .lt
  | .gez => .ge

/-! ### Calls -/

/-- A call of a helper that sees at most register `r`. -/
def emitCall (f : Callee) (r : Option (Fin 32)) : Gen T Unit := do
  flushCallerSaveRegisters
  match r with
  | some r => flushMipsRegister r
  | none => pure ()
  Emit.op (.call f)

/-- `MFC0` and `MTC0`: the helper's result decides whether to leave. -/
def emitCop0 (f : Callee) (pc : Word) (last : InstructionInfo) (first : Bool) : Gen T Unit := do
  flushRegisterWindow
  Emit.op (.call f)
  Emit.op (.retval registerMode)
  Emit.code (.ite (.eqi registerMode (BitVec.ofNat _ (modeCode .continue))) .nil
    (jitExitDynamic pc last first))

/-! ### `jit_instruction` -/

/-- `jit_instruction`. -/
def jitInstruction (pc : Word) (i : Instr) (last : InstructionInfo) (first nextIsTarget : Bool) :
    Gen T InstructionInfo :=
  match i with
  | .vu op e vd vs vt => do
    emitCall (.vu op e vd vs vt) none
    pure {}
  | .shift op rd rt sa => do
    emitShift op rd rt sa
    pure {}
  | .shiftv op rd rt rs => do
    emitShiftv op rd rt rs
    pure {}
  | .alu op rd rs rt => do
    emitAlu op rd rs rt
    pure {}
  | .imm op rt rs x => do
    emitImm op rt rs x
    pure {}
  | .lui rt x => do
    emitConstant rt ((x.setWidth 32 <<< 16).signExtend _)
    pure {}
  | .jr rs => do
    flushImpossibleDelaySlot last
    jitSaveIndirectRegister rs
    emitJumpCondition nextIsTarget
    pure { branch := true, indirect := true, conditional := nextIsTarget }
  | .jalr rd rs => do
    flushImpossibleDelaySlot last
    jitSaveIndirectRegister rs
    Emit.when (rd ≠ 0) (emitLink rd pc)
    emitJumpCondition nextIsTarget
    pure { branch := true, indirect := true, conditional := nextIsTarget }
  | .j instr => do
    flushImpossibleDelaySlot last
    emitJumpCondition nextIsTarget
    pure { branch := true, branchTarget := jumpTarget instr, conditional := nextIsTarget }
  | .jal instr => do
    flushImpossibleDelaySlot last
    let _ ← immediateMipsRegister 31 (immediate (Mips.linkPc pc))
    let _ ← immediateMipsRegister condBranchTaken (if nextIsTarget then 1#_ else 0#_)
    unlockMipsRegister 31
    unlockMipsRegister condBranchTaken
    pure { branch := true, branchTarget := jumpTarget instr, conditional := nextIsTarget }
  | .regimm c link rs instr => do
    flushImpossibleDelaySlot last
    emitZeroBranch (ZeroCond.binOp c) rs
    Emit.when link (emitLink 31 pc)
    pure { branch := true, branchTarget := branchTarget pc instr, conditional := true }
  | .beq rs rt instr => do
    flushImpossibleDelaySlot last
    emitRegBranch .eq rs rt
    pure { branch := true, branchTarget := branchTarget pc instr, conditional := true }
  | .bne rs rt instr => do
    flushImpossibleDelaySlot last
    emitRegBranch .ne rs rt
    pure { branch := true, branchTarget := branchTarget pc instr, conditional := true }
  | .blez rs instr => do
    flushImpossibleDelaySlot last
    Emit.when (rs ≠ 0) (emitZeroBranch .le rs)
    pure { branch := true, branchTarget := branchTarget pc instr, conditional := rs ≠ 0 }
  | .bgtz rs instr => do
    flushImpossibleDelaySlot last
    if rs = 0 then pure {}
    else do
      emitZeroBranch .gt rs
      pure { branch := true, branchTarget := branchTarget pc instr, conditional := true }
  | .break => do
    jitExit pc last .break first
    pure { handlesDelaySlot := true }
  | .mfc0 rt rd => do
    emitCop0 (.mfc0 rt rd) pc last first
    pure {}
  | .mtc0 rt rd => do
    emitCop0 (.mtc0 rt rd) pc last first
    pure {}
  | .mfc2 rt rd e => do
    emitCall (.mfc2 rt rd e) (some rt)
    pure {}
  | .mtc2 rt rd e => do
    emitCall (.mtc2 rt rd e) (some rt)
    pure {}
  | .cfc2 rt rd => do
    emitCall (.cfc2 rt rd) (some rt)
    pure {}
  | .ctc2 rt rd => do
    emitCall (.ctc2 rt rd) (some rt)
    pure {}
  | .load op rt rs x => do
    jitEmitLoadOperation op rt rs x
    pure {}
  | .store op rt rs x => do
    jitEmitStoreOperation op rt rs x
    pure {}
  | .lwc2 op e rt rs offset => do
    emitCall (.lwc2 op e rt rs offset) (some rs)
    pure {}
  | .swc2 op e rt rs offset => do
    emitCall (.swc2 op e rt rs offset) (some rs)
    pure {}
  | .nop => pure {}

end ParallelRsp.Jit
