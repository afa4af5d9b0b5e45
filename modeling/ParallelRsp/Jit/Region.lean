import ParallelRsp.Jit.Instruction

/-!
# Regions

`CPU::jit_region` of `rsp_jit.cpp`: the instructions of a piece of IMEM, one after another,
with the code that performs a branch behind its delay slot.

A branch into the region is a jump to a label. The addresses patched in at the end are the
label names here. A branch that is pending at the end of the region is handed over in
`has_delay_slot` and `branch_target`, and the next region performs it behind its first
instruction, at the label `latent`.
-/

namespace ParallelRsp.Jit

open Codegen

variable {T : Target}

/-- The words that a region is compiled from. -/
structure Region where
  /-- `state.imem`. -/
  imem : ℕ → Word
  /-- `pc_word`. -/
  pcWord : ℕ
  /-- `instruction_count`. -/
  count : ℕ
  /-- There is an instruction. -/
  pos : 0 < count
  /-- The region is in IMEM. -/
  inside : pcWord + count ≤ imemWords
  /-- The assertion of `jit_region`. -/
  small : count ≤ codeBlockWords * 2

/-- The word index a static branch at word `pc` goes to. -/
def staticTarget (pc : ℕ) (instr : Word) : Option ℕ :=
  match decode instr with
  | .j w | .jal w => some (w &&& 0x3ff#32).toNat
  | .regimm _ _ _ w | .beq _ _ w | .bne _ _ w | .blez _ w | .bgtz _ w =>
    some ((BitVec.ofNat 32 (pc + 1) + w) &&& 0x3ff#32).toNat
  | _ => none

/-- `jit_mark_block_entries` for the words from `pc` to `stop`: the value of
`block_entries[j]`. -/
def jitMarkBlockEntries (imem : ℕ → Word) (pc stop j : ℕ) : Bool :=
  decide (pc + j < stop) &&
    (List.range (stop - pc)).any fun i => staticTarget (pc + i) (imem (pc + i)) == some (pc + j)

namespace Region

variable (R : Region)

/-- An instruction word. -/
def word (i : ℕ) : Word := R.imem (R.pcWord + i)

/-- `(pc_word + i) << 2`. -/
def pc (i : ℕ) : Word := BitVec.ofNat 32 (4 * (R.pcWord + i))

/-- An instruction. -/
def instr (i : ℕ) : Instr := decode (R.word i)

/-- `block_entry`. -/
def blockEntry (i : ℕ) : Bool := jitMarkBlockEntries R.imem R.pcWord (R.pcWord + R.count) i

/-- `next_instruction_is_branch_target`. -/
def nextIsTarget (i : ℕ) : Bool := decide (i + 1 < R.count) && R.blockEntry (i + 1)

/-- Whether a byte address is in the region. -/
def Has (target : Word) : Prop :=
  4 * R.pcWord ≤ target.toNat ∧ target.toNat < 4 * (R.pcWord + R.count)

instance (target : Word) : Decidable (R.Has target) := inferInstanceAs (Decidable (_ ∧ _))

/-- The label a branch within the region goes to. -/
def localLabel (info : InstructionInfo) : Option Label :=
  if ¬info.indirect ∧ R.Has info.branchTarget then
    some (.instr ((info.branchTarget.toNat - 4 * R.pcWord) / 4))
  else none

end Region

/-! ### Behind a delay slot -/

/-- `jit_handle_delay_slot`: perform the branch of the instruction before. -/
def jitHandleDelaySlot (R : Region) (last : InstructionInfo) : Gen T Unit :=
  if last.conditional then do
    let _ ← loadMipsRegisterNoext condBranchTaken
    let d ← modifyMipsRegister condBranchTaken
    let s ← modifyMipsRegister scratchRegister0
    Emit.op (.movr s d)
    Emit.op (.movi d 0#_)
    unlockMipsRegister condBranchTaken
    unlockMipsRegister condBranchTaken
    unlockMipsRegister scratchRegister0
    flushRegisterWindow
    Emit.code (match R.localLabel last with
      | some l => .br (.nei s 0#_) l
      | none =>
          .ite (.eqi s 0#_) .nil (.block [loadTarget registerNextPc last, .leave .enterThunk]))
  else do
    let d ← modifyMipsRegister condBranchTaken
    Emit.op (.movi d 0#_)
    unlockMipsRegister condBranchTaken
    flushRegisterWindow
    Emit.code (match R.localLabel last with
      | some l => .jmp l
      | none => .block [loadTarget registerNextPc last, .leave .enterThunk])

/-- The code of `jit_handle_impossible_delay_slot` that takes the first branch. -/
def takeIllegalBranch (info last : InstructionInfo) (cond : HReg) : HostCode T :=
  .block [if info.conditional then .nil else .op (.movi cond 1#_),
    .op (.stField .hasDelaySlot cond),
    loadTarget cond info,
    .op (.stField .branchTarget cond),
    .op (if last.indirect then .ldFrame registerNextPc illegalIndirectSlot
      else .movi registerNextPc (immediate last.branchTarget)),
    .leave .enterThunk]

/-- `jit_handle_impossible_delay_slot`: the instruction is a branch, and so is the one before. -/
def jitHandleImpossibleDelaySlot (info last : InstructionInfo) : Gen T Unit := do
  let cond ← loadMipsRegisterNoext condBranchTaken
  let s ← modifyMipsRegister scratchRegister0
  let illegal ← modifyMipsRegister scratchRegister1
  unlockMipsRegister condBranchTaken
  unlockMipsRegister scratchRegister0
  unlockMipsRegister scratchRegister1
  flushRegisterWindow
  Emit.code (if last.conditional then
      .block [.op (.ldFrame illegal illegalCondSlot), .op (.movi s 0#_),
        .op (.stFrame illegalCondSlot s),
        .ite (.eqi illegal 0#_) .nil (takeIllegalBranch info last cond)]
    else
      .block [.op (.movi cond 0#_), .op (.stFrame illegalCondSlot cond),
        takeIllegalBranch info last cond])

/-! ### Between regions -/

/-- The register of a conditional branch's condition, else the one given. -/
def loadCondition (last : InstructionInfo) (other : HReg) : Gen T HReg :=
  if last.branch ∧ last.conditional then do
    let d ← loadMipsRegisterNoext condBranchTaken
    unlockMipsRegister condBranchTaken
    pure d
  else pure other

/-- Hand a pending branch over to the next region. -/
def handOver (last : InstructionInfo) (cond s : HReg) : HostCode T :=
  let save : HostCode T :=
    .block [loadTarget s last, .op (.stField .branchTarget s), .op (.movi s 1#_),
    .op (.stField .hasDelaySlot s)]
  if last.branch then if last.conditional then .ite (.eqi cond 0#_) .nil save else save
  else .nil

/-- `jit_end_of_block`. -/
def jitEndOfBlock (pc : Word) (last : InstructionInfo) : Gen T Unit := do
  let cond ← loadCondition last (.R 0)
  let s ← modifyMipsRegister scratchRegister0
  unlockMipsRegister scratchRegister0
  flushRegisterWindow
  Emit.code (.block [handOver last cond s, .op (.movi registerNextPc (immediate pc)),
    .leave .enterThunk])

/-- The check behind the first instruction of a region for a branch handed over. -/
def jitCheckDelaySlot : Gen T Unit := do
  let s ← modifyMipsRegister scratchRegister0
  Emit.op (.ldField s .hasDelaySlot)
  unlockMipsRegister scratchRegister0
  flushRegisterWindow
  Emit.code (.br (.nei s 0#_) .latent)

/-- `jit_handle_latent_delay_slot`: perform the branch handed over, behind an instruction
that may be a branch itself. -/
def jitHandleLatentDelaySlot (last : InstructionInfo) : Gen T Unit := do
  let cond ← loadCondition last registerNextPc
  flushRegisterWindow
  Emit.code (if last.branch then
      .block [if last.conditional then .nil else .op (.movi cond 1#_),
        .op (.stField .hasDelaySlot cond),
        .op (.ldField registerNextPc .branchTarget),
        loadTarget registerMode last,
        .op (.stField .branchTarget registerMode),
        .leave .enterThunk]
    else
      .block [.op (.movi registerNextPc 0#_),
        .op (.stField .hasDelaySlot registerNextPc),
        .op (.ldField registerNextPc .branchTarget),
        .leave .enterThunk])

/-! ### `jit_region` -/

namespace Region

/-- The start of a block entry: what jumps there finds all registers in memory. -/
def enterBlock (i : ℕ) : Gen T Unit := do
  flushRegisterWindow
  reset
  Emit.code (.label (.instr i))

/-- What follows an instruction. -/
def handleDelaySlot (R : Region) (i : ℕ) (info last : InstructionInfo) : Gen T Unit :=
  if i = 0 ∧ ¬info.handlesDelaySlot then jitCheckDelaySlot
  else if info.branch ∧ last.branch then jitHandleImpossibleDelaySlot info last
  else if ¬info.handlesDelaySlot ∧ last.branch then jitHandleDelaySlot R last
  else pure ()

/-- An instruction and what follows it. -/
def body (R : Region) (i : ℕ) (last : InstructionInfo) : Gen T InstructionInfo := do
  Emit.op (.trace (R.pc i) (R.word i))
  let info ← jitInstruction (R.pc i) (R.instr i) last (decide (i = 0)) (R.nextIsTarget i)
  R.handleDelaySlot i info last
  pure info

/-- One round of the loop of `jit_region`. -/
def round (R : Region) (i : ℕ) (last : InstructionInfo) : Gen T InstructionInfo := do
  Emit.when (R.blockEntry i) (enterBlock i)
  R.body i last

/-- The end of `jit_region`: the code to leave, and the code to perform a branch inherited
if the first instruction did not leave. -/
def finish (R : Region) (last : InstructionInfo) (first : Option InstructionInfo) : Gen T Unit := do
  flushRegisterWindow
  jitEndOfBlock (R.pc R.count) last
  match first with
  | some info => do
    Emit.code (.label .latent)
    jitHandleLatentDelaySlot info
  | none => pure ()

/-- The loop of `jit_region` over the instructions left, with `last_info` and, when there is
a `latent_delay_slot`, `first_info`. -/
def rounds (R : Region) : List ℕ → InstructionInfo → Option InstructionInfo → Gen T Unit
  | [], last, first => R.finish last first
  | i :: is, last, first => do
    let info ← R.round i last
    R.rounds is info (if i = 0 ∧ ¬info.handlesDelaySlot then some info else first)

end Region

/-- `jit_region`. The register cache has no entries, and its timestamp is zero, as every
region leaves it. -/
def jitRegion (R : Region) : Option (HostCode T) :=
  ((do
    reset
    Emit.assert (R.count ≤ codeBlockWords * 2)
    R.rounds (List.range R.count) {} none : Gen T Unit) {}).map fun r => r.2.1

end ParallelRsp.Jit
