import ParallelRsp.Jit.Calls
import ParallelRsp.Jit.RegionTargets

/-!
# The emissions of a region, call by call

The plan of each function of `rsp_jit.cpp` that emits code, under the function's name, and that the
function follows it. `Region.emissions` lists the plans of a region in the order of `jit_region`.

In the code of a plan `h 0` is the host register handed out last, `h 1` the one before.
-/

namespace ParallelRsp.Jit

open Codegen

variable {T : Target}

/-! ### Plans -/

namespace Plan

/-- A scratch register unlocked with two registers of the instruction. -/
def unlockThree (r s t : ℕ) : Plan T := [.unlock r, .unlock s, .unlock t]

/-- `jit_save_indirect_register`. -/
def jitSaveIndirectRegister (r : Fin 32) : Plan T :=
  [.load .noext r, .code fun h => .op (.movr registerIndirectPc (h 0)), .unlock r]

/-- `jit_save_illegal_cond_branch_taken`. -/
def jitSaveIllegalCondBranchTaken : Plan T :=
  [.load .noext condBranchTaken, .code fun h => .op (.stFrame illegalCondSlot (h 0)),
    .unlock condBranchTaken]

/-- `FLUSH_IMPOSSIBLE_DELAY_SLOT`. -/
def flushImpossibleDelaySlot (last : InstructionInfo) : Plan T :=
  (if last.branch ∧ last.conditional then jitSaveIllegalCondBranchTaken else []) ++
    if last.branch ∧ last.indirect then
      [.code fun _ => .op (.stFrame illegalIndirectSlot registerIndirectPc)]
    else []

/-- `jit_exit`. -/
def jitExit (pc : Word) (last : InstructionInfo) (mode : ReturnMode) (first : Bool) : Plan T :=
  [.flushWindow, .code fun _ => .op (.movi registerMode (BitVec.ofNat _ (modeCode mode))),
    .code fun _ => jitExitDynamic pc last first]

/-- `jit_emit_store_operation`. -/
def jitEmitStoreOperation (op : StoreOp) (rt rs : Fin 32) (x : BitVec 16) : Plan T :=
  let mask := 3 - StoreOp.endianFlip op
  [.load .noext rt, .load .noext rs, .modify scratchRegister0,
    .code fun h => .op (.bini .add (h 0) (h 1) (x.signExtend T.wordSize)),
    .code fun h => .op (.bini .and (h 0) (h 0) 0xfff#_)] ++
  if mask ≠ 0 then
    unlockThree rt rs scratchRegister0 ++
      [.flushCallerSave, .code fun h =>
        .ite (.msi (h 0) (BitVec.ofNat _ mask))
          (.block [.op (.pushr (h 2)), .op (.pushr (h 0)), .op .pushDmem,
            .op (.callUnaligned (.store op))])
          (flipped (StoreOp.endianFlip op) (h 0) (.stDmem op (h 0) (h 2)))]
  else
    (.code fun h => flipped (StoreOp.endianFlip op) (h 0) (.stDmem op (h 0) (h 2))) ::
      unlockThree rt rs scratchRegister0

/-- The access of a load. -/
def emitLoadAccess (op : LoadOp) (rs : Fin 32) : Plan T :=
  let mask := LoadOp.endianFlip op ^^^ 3
  if mask ≠ 0 then
    unlockThree rs scratchRegister0 scratchRegister1 ++
      [.flushCallerSave, .code fun h => .ite (.msi (h 1) (BitVec.ofNat _ mask))
        (.block [.op (.pushr (h 1)), .op .pushDmem, .op (.callUnaligned (.load op)),
          .op (.retval (h 0))])
        (flipped (LoadOp.endianFlip op) (h 1) (.ldDmem op (h 0) (h 1)))]
  else
    (.code fun h => flipped (LoadOp.endianFlip op) (h 1) (.ldDmem op (h 0) (h 1))) ::
      unlockThree rs scratchRegister0 scratchRegister1

/-- `jit_emit_load_operation`. -/
def jitEmitLoadOperation (op : LoadOp) (rt rs : Fin 32) (x : BitVec 16) : Plan T :=
  if rt ≠ 0 then
    [.load .noext rs, .modify scratchRegister0,
      .code fun h => .op (.bini .add (h 0) (h 1) (x.signExtend T.wordSize)),
      .code fun h => .op (.bini .and (h 0) (h 0) 0xfff#_), .modify scratchRegister1] ++
    emitLoadAccess op rs ++
    [.modify rt, .code fun h => .op (.movr (h 0) (h 1)), .unlock rt]
  else []

/-- `SLL`, `SRL`, `SRA`. -/
def emitShift (op : ShiftOp) (rd rt sa : Fin 32) : Plan T :=
  if rd ≠ 0 then
    [.load (ShiftOp.extension op) rt, .modify rd,
      .code fun h => .op (.bini (ShiftOp.binOp op) (h 0) (h 1) (BitVec.ofNat _ sa)),
      .unlock rt, .unlock rd]
  else []

/-- `SLLV`, `SRLV`, `SRAV`. -/
def emitShiftv (op : ShiftOp) (rd rt rs : Fin 32) : Plan T :=
  if rd ≠ 0 then
    [.load (ShiftOp.extension op) rt, .load .noext rs, .modify scratchRegister0,
      .code fun h => .op (.bini .and (h 0) (h 1) 31#_), .unlock rs, .modify rd,
      .code fun h => .op (.binr (ShiftOp.binOp op) (h 0) (h 3) (h 1))] ++
    unlockThree rt rd scratchRegister0
  else []

/-- `THREE_REG_OP`. -/
def threeRegOp (o : BinOp) (ext : Extension) (rd rs rt : Fin 32) : Plan T :=
  if rd ≠ 0 then
    [.load ext rs, .load ext rt, .modify rd, .code fun h => .op (.binr o (h 0) (h 2) (h 1))] ++
    unlockThree rs rt rd
  else []

/-- `NOR`. -/
def emitNor (rd rs rt : Fin 32) : Plan T :=
  if rd ≠ 0 then
    [.load .noext rt, .load .noext rs, .modify rd,
      .code fun h => .op (.binr .or (h 0) (h 2) (h 1)),
      .code fun h => .op (.bini .xor (h 0) (h 0) (BitVec.allOnes _))] ++
    unlockThree rt rs rd
  else []

/-- The operations on two registers. -/
def emitAlu (op : AluOp) (rd rs rt : Fin 32) : Plan T :=
  match op with
  | .add => threeRegOp .add .noext rd rs rt
  | .sub => threeRegOp .sub .noext rd rs rt
  | .and => threeRegOp .and .noext rd rs rt
  | .or => threeRegOp .or .noext rd rs rt
  | .xor => threeRegOp .xor .noext rd rs rt
  | .nor => emitNor rd rs rt
  | .slt => threeRegOp .lt .sext rd rs rt
  | .sltu => threeRegOp .ltU .zext rd rs rt

/-- `TWO_REG_IMM_OP`. -/
def twoRegImmOp (o : BinOp) (x : BitVec T.wordSize) (ext : Extension) (rt rs : Fin 32) : Plan T :=
  if rt ≠ 0 then
    [.load ext rs, .modify rt, .code fun h => .op (.bini o (h 0) (h 1) x), .unlock rs, .unlock rt]
  else []

/-- A constant into a register. -/
def emitConstant (rt : Fin 32) (x : BitVec T.wordSize) : Plan T :=
  if rt ≠ 0 then [.immediate rt x, .unlock rt] else []

/-- The operations on a register and an immediate. -/
def emitImm (op : ImmOp) (rt rs : Fin 32) (x : BitVec 16) : Plan T :=
  match op with
  | .addi =>
    if rs = 0 then emitConstant rt (x.signExtend _)
      else twoRegImmOp .add (x.signExtend _) .noext rt rs
  | .slti => twoRegImmOp .lt (x.signExtend _) .sext rt rs
  | .sltiu => twoRegImmOp .ltU (x.signExtend _) .sext rt rs
  | .andi => twoRegImmOp .and (x.setWidth _) .noext rt rs
  | .ori =>
      if rs = 0 then emitConstant rt (x.setWidth _) else twoRegImmOp .or (x.setWidth _) .noext rt rs
  | .xori => twoRegImmOp .xor (x.setWidth _) .noext rt rs

/-- A condition on one register and zero. -/
def emitZeroBranch (o : BinOp) (rs : Fin 32) : Plan T :=
  [.load .sext rs, .modify condBranchTaken, .code fun h => .op (.bini o (h 0) (h 1) 0#_),
    .unlock rs, .unlock condBranchTaken]

/-- A condition on two registers. -/
def emitRegBranch (o : BinOp) (rs rt : Fin 32) : Plan T :=
  [.load .sext rs, .load .sext rt, .modify condBranchTaken,
    .code fun h => .op (.binr o (h 0) (h 2) (h 1))] ++
  unlockThree rs rt condBranchTaken

/-- The condition of a jump. -/
def emitJumpCondition (nextIsTarget : Bool) : Plan T :=
  [.immediate condBranchTaken (if nextIsTarget then 1#_ else 0#_), .unlock condBranchTaken]

/-- The link register. -/
def emitLink (r : Fin 32) (pc : Word) : Plan T :=
  [.immediate r (immediate (Mips.linkPc pc)), .unlock r]

/-- A call of a helper that sees at most register `r`. -/
def emitCall (f : Callee) (r : Option (Fin 32)) : Plan T :=
  .flushCallerSave :: (match r with
    | some r => [.flushMips r, .code fun _ => .op (.call f)]
    | none => [.code fun _ => .op (.call f)])

/-- `MFC0` and `MTC0`. -/
def emitCop0 (f : Callee) (pc : Word) (last : InstructionInfo) (first : Bool) : Plan T :=
  [.flushWindow, .code fun _ => .op (.call f), .code fun _ => .op (.retval registerMode),
    .code fun _ => .ite (.eqi registerMode (BitVec.ofNat _ (modeCode .continue))) .nil
      (jitExitDynamic pc last first)]

/-- `jit_instruction`. -/
def jitInstruction (pc : Word) (i : Instr) (last : InstructionInfo) (first nextIsTarget : Bool) :
    Plan T :=
  match i with
  | .vu op e vd vs vt => emitCall (.vu op e vd vs vt) none
  | .shift op rd rt sa => emitShift op rd rt sa
  | .shiftv op rd rt rs => emitShiftv op rd rt rs
  | .alu op rd rs rt => emitAlu op rd rs rt
  | .imm op rt rs x => emitImm op rt rs x
  | .lui rt x => emitConstant rt ((x.setWidth 32 <<< 16).signExtend _)
  | .jr rs =>
    flushImpossibleDelaySlot last ++ (jitSaveIndirectRegister rs ++ emitJumpCondition nextIsTarget)
  | .jalr rd rs =>
    flushImpossibleDelaySlot last ++ (jitSaveIndirectRegister rs ++
      ((if rd ≠ 0 then emitLink rd pc else []) ++ emitJumpCondition nextIsTarget))
  | .j _ => flushImpossibleDelaySlot last ++ emitJumpCondition nextIsTarget
  | .jal _ =>
    flushImpossibleDelaySlot last ++
      [.immediate 31 (immediate (Mips.linkPc pc)),
        .immediate condBranchTaken (if nextIsTarget then 1#_ else 0#_),
        .unlock 31, .unlock condBranchTaken]
  | .regimm c link rs _ =>
    flushImpossibleDelaySlot last ++ (emitZeroBranch (ZeroCond.binOp c) rs ++
      if link then emitLink 31 pc else [])
  | .beq rs rt _ => flushImpossibleDelaySlot last ++ emitRegBranch .eq rs rt
  | .bne rs rt _ => flushImpossibleDelaySlot last ++ emitRegBranch .ne rs rt
  | .blez rs _ =>
    flushImpossibleDelaySlot last ++ if rs ≠ 0 then emitZeroBranch .le rs else []
  | .bgtz rs _ => flushImpossibleDelaySlot last ++ if rs = 0 then [] else emitZeroBranch .gt rs
  | .break => jitExit pc last .break first
  | .mfc0 rt rd => emitCop0 (.mfc0 rt rd) pc last first
  | .mtc0 rt rd => emitCop0 (.mtc0 rt rd) pc last first
  | .mfc2 rt rd e => emitCall (.mfc2 rt rd e) (some rt)
  | .mtc2 rt rd e => emitCall (.mtc2 rt rd e) (some rt)
  | .cfc2 rt rd => emitCall (.cfc2 rt rd) (some rt)
  | .ctc2 rt rd => emitCall (.ctc2 rt rd) (some rt)
  | .load op rt rs x => jitEmitLoadOperation op rt rs x
  | .store op rt rs x => jitEmitStoreOperation op rt rs x
  | .lwc2 op e rt rs offset => emitCall (.lwc2 op e rt rs offset) (some rs)
  | .swc2 op e rt rs offset => emitCall (.swc2 op e rt rs offset) (some rs)
  | .nop => []

/-! #### Behind delay slots and between regions -/

/-- `jit_handle_delay_slot`. -/
def jitHandleDelaySlot (R : Region) (last : InstructionInfo) : Plan T :=
  if last.conditional then
    [.load .noext condBranchTaken, .modify condBranchTaken, .modify scratchRegister0,
      .code fun h => .op (.movr (h 0) (h 1)), .code fun h => .op (.movi (h 1) 0#_)] ++
    unlockThree condBranchTaken condBranchTaken scratchRegister0 ++
    [.flushWindow, .code fun h => match R.localLabel last with
      | some l => .br (.nei (h 0) 0#_) l
      | none =>
          .ite (.eqi (h 0) 0#_) .nil (.block [loadTarget registerNextPc last, .leave .enterThunk])]
  else
    [.modify condBranchTaken, .code fun h => .op (.movi (h 0) 0#_), .unlock condBranchTaken,
      .flushWindow, .code fun _ => match R.localLabel last with
      | some l => .jmp l
      | none => .block [loadTarget registerNextPc last, .leave .enterThunk]]

/-- `jit_handle_impossible_delay_slot`. -/
def jitHandleImpossibleDelaySlot (info last : InstructionInfo) : Plan T :=
  [.load .noext condBranchTaken, .modify scratchRegister0, .modify scratchRegister1] ++
  unlockThree condBranchTaken scratchRegister0 scratchRegister1 ++
  [.flushWindow, .code fun h => if last.conditional then
      .block [.op (.ldFrame (h 0) illegalCondSlot), .op (.movi (h 1) 0#_),
        .op (.stFrame illegalCondSlot (h 1)),
        .ite (.eqi (h 0) 0#_) .nil (takeIllegalBranch info last (h 2))]
    else
      .block [.op (.movi (h 2) 0#_), .op (.stFrame illegalCondSlot (h 2)),
        takeIllegalBranch info last (h 2)]]

/-- The register of a conditional branch's condition, if there is one. -/
def loadCondition (last : InstructionInfo) : Plan T :=
  if last.branch ∧ last.conditional then
    [.load .noext condBranchTaken, .unlock condBranchTaken]
  else []

/-- `jit_end_of_block`. -/
def jitEndOfBlock (pc : Word) (last : InstructionInfo) : Plan T :=
  loadCondition last ++
  [.modify scratchRegister0, .unlock scratchRegister0, .flushWindow,
    .code fun h =>
      .block [handOver last (if last.branch ∧ last.conditional then h 1 else .R 0) (h 0),
        .op (.movi registerNextPc (immediate pc)), .leave .enterThunk]]

/-- The check behind the first instruction of a region. -/
def jitCheckDelaySlot : Plan T :=
  [.modify scratchRegister0, .code fun h => .op (.ldField (h 0) .hasDelaySlot),
    .unlock scratchRegister0, .flushWindow, .code fun h => .br (.nei (h 0) 0#_) .latent]

/-- `jit_handle_latent_delay_slot`. -/
def jitHandleLatentDelaySlot (last : InstructionInfo) : Plan T :=
  loadCondition last ++
  [.flushWindow, .code fun h =>
    let cond := if last.branch ∧ last.conditional then h 0 else registerNextPc
    if last.branch then
      .block [if last.conditional then .nil else .op (.movi cond 1#_),
        .op (.stField .hasDelaySlot cond),
        .op (.ldField registerNextPc .branchTarget),
        loadTarget registerMode last,
        .op (.stField .branchTarget registerMode),
        .leave .enterThunk]
    else
      .block [.op (.movi registerNextPc 0#_),
        .op (.stField .hasDelaySlot registerNextPc),
        .op (.ldField registerNextPc .branchTarget),
        .leave .enterThunk]]

/-- The start of a block entry. -/
def enterBlock (i : ℕ) : Plan T := [.flushWindow, .reset, .code fun _ => .label (.instr i)]

/-- What follows an instruction. -/
def handleDelaySlot (R : Region) (i : ℕ) (info last : InstructionInfo) : Plan T :=
  if i = 0 ∧ ¬info.handlesDelaySlot then jitCheckDelaySlot
  else if info.branch ∧ last.branch then jitHandleImpossibleDelaySlot info last
  else if ¬info.handlesDelaySlot ∧ last.branch then jitHandleDelaySlot R last
  else []

end Plan

namespace Region

variable (R : Region)

/-- The emissions of one round of the loop of `jit_region`. -/
def roundEmissions (i : ℕ) : List (Plan T) :=
  [if R.blockEntry i then Plan.enterBlock i else [],
    (.code fun _ => .op (.trace (R.pc i) (R.word i))) ::
      Plan.jitInstruction (R.pc i) (R.instr i) (R.lastInfo i) (decide (i = 0)) (R.nextIsTarget i),
    Plan.handleDelaySlot R i (R.info i) (R.lastInfo i)]

/-- `first_info`, when there is a `latent_delay_slot`. -/
def firstInfo : Option InstructionInfo :=
  if ¬(R.info 0).handlesDelaySlot then some (R.info 0) else none

/-- The emissions at the end of `jit_region`. -/
def finishEmissions (last : InstructionInfo) (first : Option InstructionInfo) : List (Plan T) :=
  (.flushWindow :: Plan.jitEndOfBlock (R.pc R.count) last) ::
    match first with
    | some info => [(.code fun _ => .label .latent) :: Plan.jitHandleLatentDelaySlot info]
    | none => []

/-- The emissions of `jit_region`, in their order. -/
def emissions : List (Plan T) :=
  [.reset] :: ((List.range R.count).flatMap R.roundEmissions ++
    R.finishEmissions (R.lastInfo R.count) R.firstInfo)

end Region

/-! ### The functions follow their plans -/

namespace Follows

variable {hs : List HReg}

theorem unlockThree (r s t : ℕ) : Follows (T := T) (do
    unlockMipsRegister r
    unlockMipsRegister s
    unlockMipsRegister t) hs (Plan.unlockThree r s t) () :=
  .call rfl (.call rfl (.last rfl))

theorem jitSaveIndirectRegister (r : Fin 32) :
    Follows (T := T) (jitSaveIndirectRegister r) hs (Plan.jitSaveIndirectRegister r) () :=
  .load fun _ => .call rfl (.last rfl)

theorem flushImpossibleDelaySlot (last : InstructionInfo) :
    Follows (T := T) (flushImpossibleDelaySlot last) hs
      (Plan.flushImpossibleDelaySlot last) () := by
  refine .bind (.when fun _ => ?_) fun _ => .when fun _ => .last rfl
  exact .load fun _ => .call rfl (.last rfl)

theorem jitExit (pc : Word) (last : InstructionInfo) (mode : ReturnMode) (first : Bool) :
    Follows (T := T) (jitExit pc last mode first) hs (Plan.jitExit pc last mode first) () :=
  .call rfl (.call rfl (.last rfl))

theorem jitEmitStoreOperation (op : StoreOp) (rt rs : Fin 32) (x : BitVec 16) :
    Follows (T := T) (jitEmitStoreOperation op rt rs x) hs
      (Plan.jitEmitStoreOperation op rt rs x) () := by
  refine .load fun d => .load fun a => .modify fun t => .assoc (.call rfl (.call rfl ?_))
  refine .ite (fun _ => ?_) fun _ => .call rfl (unlockThree _ _ _)
  exact .call rfl (.call rfl (.call rfl (.call rfl (.last rfl))))

theorem jitEmitLoadOperation (op : LoadOp) (rt rs : Fin 32) (x : BitVec 16) :
    Follows (T := T) (jitEmitLoadOperation op rt rs x) hs
      (Plan.jitEmitLoadOperation op rt rs x) () := by
  refine .when fun _ => .load fun a => .modify fun t => .assoc (.call rfl (.call rfl
    (.modify fun ret => ?_)))
  have hlast : Follows (T := T) (do
      let d ← modifyMipsRegister rt
      Emit.op (.movr d ret)
      unlockMipsRegister rt) (ret :: t :: a :: hs)
      [.modify rt, .code fun h => .op (.movr (h 0) (h 1)), .unlock rt] () :=
    .modify fun _ => .call rfl (.last rfl)
  rw [emitLoadAccess, Plan.emitLoadAccess]
  split
  · exact .assoc (.call rfl (.assoc (.call rfl (.assoc (.call rfl (.assoc (.call rfl
      (.call rfl hlast))))))))
  · exact .assoc (.call rfl (.assoc (.call rfl (.assoc (.call rfl (.call rfl hlast))))))

theorem emitShift (op : ShiftOp) (rd rt sa : Fin 32) :
    Follows (T := T) (emitShift op rd rt sa) hs (Plan.emitShift op rd rt sa) () :=
  .when fun _ => .load fun _ => .modify fun _ => .call rfl (.call rfl (.last rfl))

theorem emitShiftv (op : ShiftOp) (rd rt rs : Fin 32) :
    Follows (T := T) (emitShiftv op rd rt rs) hs (Plan.emitShiftv op rd rt rs) () := by
  refine .when fun _ => .load fun _ => .load fun _ => .modify fun _ => .call rfl (.call rfl ?_)
  exact .modify fun _ => .call rfl (unlockThree _ _ _)

theorem threeRegOp (o : BinOp) (ext : Extension) (rd rs rt : Fin 32) :
    Follows (T := T) (threeRegOp o ext rd rs rt) hs (Plan.threeRegOp o ext rd rs rt) () :=
  .when fun _ => .load fun _ => .load fun _ => .modify fun _ => .call rfl (unlockThree _ _ _)

theorem emitNor (rd rs rt : Fin 32) :
    Follows (T := T) (emitNor rd rs rt) hs (Plan.emitNor rd rs rt) () :=
  .when fun _ => .load fun _ => .load fun _ => .modify fun _ =>
    .call rfl (.call rfl (unlockThree _ _ _))

theorem emitAlu (op : AluOp) (rd rs rt : Fin 32) :
    Follows (T := T) (emitAlu op rd rs rt) hs (Plan.emitAlu op rd rs rt) () := by
  cases op with
  | nor => exact emitNor rd rs rt
  | _ => exact threeRegOp _ _ rd rs rt

theorem twoRegImmOp (o : BinOp) (x : BitVec T.wordSize) (ext : Extension) (rt rs : Fin 32) :
    Follows (twoRegImmOp o x ext rt rs) hs (Plan.twoRegImmOp o x ext rt rs) () :=
  .when fun _ => .load fun _ => .modify fun _ => .call rfl (.call rfl (.last rfl))

theorem emitConstant (rt : Fin 32) (x : BitVec T.wordSize) :
    Follows (emitConstant rt x) hs (Plan.emitConstant rt x) () :=
  .when fun _ => .immediate fun _ => .last rfl

theorem emitImm (op : ImmOp) (rt rs : Fin 32) (x : BitVec 16) :
    Follows (T := T) (emitImm op rt rs x) hs (Plan.emitImm op rt rs x) () := by
  cases op with
  | addi | ori => exact .ite (fun _ => emitConstant rt _) fun _ => twoRegImmOp _ _ _ rt rs
  | _ => exact twoRegImmOp _ _ _ rt rs

theorem emitZeroBranch (o : BinOp) (rs : Fin 32) :
    Follows (T := T) (emitZeroBranch o rs) hs (Plan.emitZeroBranch o rs) () :=
  .load fun _ => .modify fun _ => .call rfl (.call rfl (.last rfl))

theorem emitRegBranch (o : BinOp) (rs rt : Fin 32) :
    Follows (T := T) (emitRegBranch o rs rt) hs (Plan.emitRegBranch o rs rt) () :=
  .load fun _ => .load fun _ => .modify fun _ => .call rfl (unlockThree _ _ _)

theorem emitJumpCondition (nextIsTarget : Bool) :
    Follows (T := T) (emitJumpCondition nextIsTarget) hs (Plan.emitJumpCondition nextIsTarget) () :=
  .immediate fun _ => .last rfl

theorem emitLink (r : Fin 32) (pc : Word) :
    Follows (T := T) (emitLink r pc) hs (Plan.emitLink r pc) () :=
  .immediate fun _ => .last rfl

theorem emitCall (f : Callee) (r : Option (Fin 32)) :
    Follows (T := T) (emitCall f r) hs (Plan.emitCall f r) () := by
  refine .call rfl ?_
  cases r with
  | none => exact .last rfl
  | some r => exact .call rfl (.last rfl)

theorem emitCop0 (f : Callee) (pc : Word) (last : InstructionInfo) (first : Bool) :
    Follows (T := T) (emitCop0 f pc last first) hs (Plan.emitCop0 f pc last first) () :=
  .call rfl (.call rfl (.call rfl (.last rfl)))

/-- An emission that the information about the instruction follows. -/
theorem info {m : Gen T Unit} {xs : Plan T} (h : Follows m hs xs ()) (info : InstructionInfo) :
    Follows (do m; Pure.pure info) hs xs info := by
  have hbind := Follows.bind (f := fun _ => Pure.pure info) h fun _ => .pure
  rwa [List.append_nil] at hbind

/-- A branch: the branch before is saved first. -/
theorem branch {m : Gen T InstructionInfo} {xs : Plan T} {info : InstructionInfo}
    (last : InstructionInfo) (h : ∀ hs, Follows m hs xs info) :
    Follows (do Jit.flushImpossibleDelaySlot last; m) hs
      (Plan.flushImpossibleDelaySlot last ++ xs) info :=
  .bind (flushImpossibleDelaySlot last) h

theorem jitInstruction (pc : Word) (i : Instr) (last : InstructionInfo)
    (first nextIsTarget : Bool) :
    Follows (T := T) (jitInstruction pc i last first nextIsTarget) hs
      (Plan.jitInstruction pc i last first nextIsTarget) (instructionInfo pc i nextIsTarget) := by
  cases i with
  | vu op e vd vs vt => exact (emitCall _ _).info _
  | shift op rd rt sa => exact (emitShift op rd rt sa).info _
  | shiftv op rd rt rs => exact (emitShiftv op rd rt rs).info _
  | alu op rd rs rt => exact (emitAlu op rd rs rt).info _
  | imm op rt rs x => exact (emitImm op rt rs x).info _
  | lui rt x => exact (emitConstant rt _).info _
  | jr rs =>
    exact .branch last fun _ => .bind (jitSaveIndirectRegister rs) fun _ =>
      (emitJumpCondition nextIsTarget).info _
  | jalr rd rs =>
    exact .branch last fun _ => .bind (jitSaveIndirectRegister rs) fun _ =>
      .bind (.when fun _ => emitLink rd pc) fun _ => (emitJumpCondition nextIsTarget).info _
  | j instr => exact .branch last fun _ => (emitJumpCondition nextIsTarget).info _
  | jal instr =>
    exact .branch last fun _ => .immediate fun _ => .immediate fun _ =>
      .call rfl ((Follows.last rfl).info _)
  | regimm c link rs instr =>
    exact .branch last fun _ => .bind (emitZeroBranch _ rs) fun _ =>
      (Follows.when fun _ => emitLink 31 pc).info _
  | beq rs rt instr | bne rs rt instr =>
    exact .branch last fun _ => (emitRegBranch _ rs rt).info _
  | blez rs instr =>
    exact .branch last fun _ => (Follows.when fun _ => emitZeroBranch _ rs).info _
  | bgtz rs instr =>
    refine .branch last fun _ => ?_
    rw [instructionInfo]
    split
    · exact .pure
    · exact (emitZeroBranch _ rs).info _
  | «break» => exact (jitExit pc last .break first).info _
  | mfc0 rt rd | mtc0 rt rd => exact (emitCop0 _ pc last first).info _
  | mfc2 rt rd e | mtc2 rt rd e | cfc2 rt rd | ctc2 rt rd => exact (emitCall _ _).info _
  | load op rt rs x => exact (jitEmitLoadOperation op rt rs x).info _
  | store op rt rs x => exact (jitEmitStoreOperation op rt rs x).info _
  | lwc2 op e rt rs offset | swc2 op e rt rs offset => exact (emitCall _ _).info _
  | nop => exact .pure

/-! #### Behind delay slots and between regions -/

theorem jitHandleDelaySlot (R : Region) (last : InstructionInfo) :
    Follows (T := T) (jitHandleDelaySlot R last) hs (Plan.jitHandleDelaySlot R last) () := by
  refine .ite (fun _ => ?_) fun _ => .modify fun _ => .call rfl (.call rfl (.call rfl (.last rfl)))
  refine .load fun _ => .modify fun _ => .modify fun _ => .call rfl (.call rfl ?_)
  exact .call rfl (.call rfl (.call rfl (.call rfl (.last rfl))))

theorem jitHandleImpossibleDelaySlot (info last : InstructionInfo) :
    Follows (T := T) (jitHandleImpossibleDelaySlot info last) hs
      (Plan.jitHandleImpossibleDelaySlot info last) () := by
  refine .load fun _ => .modify fun _ => .modify fun _ => ?_
  exact .call rfl (.call rfl (.call rfl (.call rfl (.last rfl))))

theorem jitEndOfBlock (pc : Word) (last : InstructionInfo) :
    Follows (T := T) (jitEndOfBlock pc last) hs (Plan.jitEndOfBlock pc last) () := by
  rw [Jit.jitEndOfBlock, loadCondition, Plan.jitEndOfBlock, Plan.loadCondition]
  split
  · refine .assoc (.load fun _ => .assoc (.call rfl (.pure_bind ?_)))
    exact .modify fun _ => .call rfl (.call rfl (.last rfl))
  · exact .pure_bind (.modify fun _ => .call rfl (.call rfl (.last rfl)))

theorem jitCheckDelaySlot :
    Follows (T := T) jitCheckDelaySlot hs Plan.jitCheckDelaySlot () :=
  .modify fun _ => .call rfl (.call rfl (.call rfl (.last rfl)))

theorem jitHandleLatentDelaySlot (last : InstructionInfo) :
    Follows (T := T) (jitHandleLatentDelaySlot last) hs
      (Plan.jitHandleLatentDelaySlot last) () := by
  rw [Jit.jitHandleLatentDelaySlot, loadCondition, Plan.jitHandleLatentDelaySlot,
    Plan.loadCondition]
  split
  · exact .assoc (.load fun _ => .assoc (.call rfl (.pure_bind (.call rfl (.last rfl)))))
  · exact .pure_bind (.call rfl (.last rfl))

/-! #### `jit_region` -/

variable (R : Region)

theorem handleDelaySlot (i : ℕ) (info last : InstructionInfo) :
    Follows (T := T) (R.handleDelaySlot i info last) hs
      (Plan.handleDelaySlot R i info last) () := by
  refine .ite (fun _ => jitCheckDelaySlot) fun _ =>
    .ite (fun _ => jitHandleImpossibleDelaySlot info last) fun _ => ?_
  exact .ite (fun _ => jitHandleDelaySlot R last) fun _ => .pure

theorem round (i : ℕ) :
    Follows (T := T) (R.round i (R.lastInfo i)) hs (R.roundEmissions i).flatten (R.info i) := by
  refine .bind (.when fun _ => .call rfl (.call rfl (.last rfl))) fun _ => .call rfl ?_
  exact .bind (jitInstruction _ _ _ _ _) fun _ => .bind (handleDelaySlot R i _ _) fun _ => .pure

theorem finish (last : InstructionInfo) (first : Option InstructionInfo) :
    Follows (T := T) (R.finish last first) hs (R.finishEmissions last first).flatten () := by
  refine .call rfl (.bind (jitEndOfBlock _ last) fun _ => ?_)
  cases first with
  | none => exact .pure
  | some info =>
    rw [List.flatten_cons, List.flatten_nil, List.append_nil]
    exact .call rfl (jitHandleLatentDelaySlot info)

/-- The rounds left, behind the first one. -/
theorem rounds (i n : ℕ) (first : Option InstructionInfo) :
    Follows (T := T) (R.rounds (List.range' (i + 1) n) (R.info i) first) hs
      ((List.range' (i + 1) n).flatMap R.roundEmissions ++
        R.finishEmissions (R.info (i + n)) first).flatten () := by
  induction n generalizing i hs with
  | zero => exact finish R _ first
  | succ n ih =>
    have hfirst (info : InstructionInfo) :
        (if i + 1 = 0 ∧ ¬info.handlesDelaySlot then some info else first) = first :=
      if_neg fun hn => Nat.succ_ne_zero i hn.1
    rw [List.range'_succ, List.flatMap_cons, List.append_assoc, List.flatten_append,
      show i + (n + 1) = i + 1 + n by omega, Region.rounds]
    refine .bind (round R (i + 1)) fun _ => ?_
    rw [hfirst]
    exact ih (i + 1)

/-- `jit_region` follows the plan of its emissions. -/
theorem jitRegion : (jitRegion R : Option (HostCode T)).map Code.pieces =
    ((Plan.run (T := T) R.emissions.flatten []).flat {}).map fun r => r.2.1 := by
  have hrange : List.range R.count = 0 :: List.range' 1 (R.count - 1) := by
    obtain ⟨n, hn⟩ := Nat.exists_eq_succ_of_ne_zero R.pos.ne'
    rw [hn, List.range_eq_range', List.range'_succ]
    rfl
  have hlast : R.lastInfo R.count = R.info (0 + (R.count - 1)) := by
    rw [Region.lastInfo, if_neg R.pos.ne', Nat.zero_add]
  have hrounds : Follows (T := T) (R.rounds (List.range R.count) {} none) []
      ((List.range R.count).flatMap R.roundEmissions ++
        R.finishEmissions (R.lastInfo R.count) R.firstInfo).flatten () := by
    rw [hrange, hlast, List.flatMap_cons, List.append_assoc, List.flatten_append, Region.rounds]
    refine .bind (round R 0) fun _ => ?_
    have hfirst : (if 0 = 0 ∧ ¬(R.info 0).handlesDelaySlot then some (R.info 0) else none) =
        R.firstInfo := if_congr (and_iff_right rfl) rfl rfl
    rw [hfirst]
    exact rounds R 0 _ _
  have hassert : (Emit.assert (R.count ≤ codeBlockWords * 2) : Gen T Unit) = Pure.pure () :=
    funext fun _ => if_pos R.small
  have hall : Follows (T := T) (do
      reset
      Emit.assert (R.count ≤ codeBlockWords * 2)
      R.rounds (List.range R.count) {} none) [] R.emissions.flatten () := by
    rw [hassert]
    exact .call rfl (.pure_bind hrounds)
  rw [Jit.jitRegion, Option.map_map]
  have hflat := congrArg (Option.map fun r => r.2.1) (hall {})
  rw [Emit.flat, Option.map_map, Option.map_map] at hflat
  exact hflat

end Follows

end ParallelRsp.Jit
