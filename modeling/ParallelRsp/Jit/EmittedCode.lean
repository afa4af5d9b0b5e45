import ParallelRsp.Codegen.Steps
import ParallelRsp.Jit.Region

/-!
# The instructions that are emitted

Whatever is compiled from whatever contents of the register cache, some instructions are never
emitted, and one only together with others.

* Compiled code writes a scalar register to memory only where the register cache writes an
  entry back, and an entry of register 0 is never written back.
* `RSP_MTC0` is called in one place only (`Guarded`). Behind the call its result is looked at,
  and unless it is `MODE_CONTINUE`, the code leaves without executing another instruction.
-/

namespace ParallelRsp.Jit

open Codegen

variable {T : Target}

/-- The instruction does not store to the place of register 0. -/
def Op.SparesZero : Op T → Prop
  | .stSr r _ => r ≠ 0
  | _ => True

/-- The instruction neither stores to the place of register 0 nor calls `RSP_MTC0`. -/
def Op.Plain : Op T → Prop
  | .stSr r _ => r ≠ 0
  | .call (.mtc0 _ _) => False
  | _ => True

/-- The generator emits such instructions only. -/
abbrev EmitsPlain {α : Type} (m : Gen T α) : Prop := Emit.Only (Code.All Op.Plain) m

/-- Plain instructions, forward branches and ways out, without a label or a jump to one. -/
def Jumpless : HostCode T → Prop
  | .nil | .leave _ => True
  | .op i => i.Plain
  | .seq a b | .ite _ a b => Jumpless a ∧ Jumpless b
  | .label _ | .br _ _ | .jmp _ => False

/-- A property of code that such code has. -/
class OfJumpless (Q : HostCode T → Prop) : Prop extends Code.Closed Q where
  /-- A piece of such code. -/
  code : ∀ {k : HostCode T}, Jumpless k → Q k

instance : OfJumpless (Code.All Op.Plain : HostCode T → Prop) where
  code {k} hk := by
    induction k with
    | op i => exact hk
    | seq a b iha ihb | ite c a b iha ihb => exact ⟨iha hk.1, ihb hk.2⟩
    | _ => trivial

/-- The property allows jumps to a label. -/
structure AllowsJump (Q : HostCode T → Prop) (l : Label) : Prop where
  /-- A jump. -/
  jmp : Q (.jmp l)
  /-- A conditional jump. -/
  br : ∀ c, Q (.br c l)

/-! ### Pieces of code -/

namespace Jumpless

theorem flipped (flip : ℕ) (t : HReg) {access : Op T} (h : access.Plain) :
    Jumpless (flipped flip t access) := by
  rw [Jit.flipped]
  split <;> exact ⟨trivial, h⟩

theorem loadTarget (d : HReg) (info : InstructionInfo) :
    Jumpless (T := T) (loadTarget d info) := by
  rw [Jit.loadTarget, Jumpless]
  split <;> trivial

theorem jitExitDynamic (pc : Word) (last : InstructionInfo) (first : Bool) :
    Jumpless (T := T) (jitExitDynamic pc last first) := by
  have hl := loadTarget (T := T) registerNextPc last
  rw [Jit.jitExitDynamic]
  split
  · simp [Code.block, Jumpless, Op.Plain]
  · split
    · simp [Code.block, Jumpless, Op.Plain]
    · split
      · exact ⟨hl, trivial, trivial⟩
      · exact ⟨trivial, ⟨trivial, hl⟩, trivial, trivial⟩

theorem loadTarget_leave (last : InstructionInfo) :
    Jumpless (T := T) (.block [Jit.loadTarget registerNextPc last, .leave .enterThunk]) :=
  ⟨loadTarget _ last, trivial, trivial⟩

theorem takeIllegalBranch (info last : InstructionInfo) (cond : HReg) :
    Jumpless (T := T) (takeIllegalBranch info last cond) := by
  refine ⟨?_, trivial, loadTarget cond info, trivial, ?_, trivial, trivial⟩
  · split <;> trivial
  · change (if _ then _ else _ : Op T).Plain
    split <;> trivial

theorem handOver (last : InstructionInfo) (cond s : HReg) :
    Jumpless (T := T) (handOver last cond s) := by
  have hsave : Jumpless (T := T) (.block [Jit.loadTarget s last,
      .op (.stField .branchTarget s), .op (.movi s 1#_), .op (.stField .hasDelaySlot s)]) :=
    ⟨loadTarget s last, trivial, trivial, trivial, trivial⟩
  rw [Jit.handOver]
  split
  · split
    · exact ⟨trivial, hsave⟩
    · exact hsave
  · trivial

end Jumpless

/-! ### The register cache -/

namespace EmitsPlain

variable {Q : HostCode T → Prop} [hQ : OfJumpless Q]
include hQ

/-- A piece of code. -/
theorem piece {k : HostCode T} (hk : Jumpless k) :
    Emit.Only Q (Emit.code k : Gen T Unit) := .code (hQ.code hk)

/-- An instruction. -/
theorem plainOp {i : Op T} (hi : i.Plain) : Emit.Only Q (Emit.op i : Gen T Unit) := piece hi

theorem setEntry (i : Fin T.numFree) (f : CacheEntry → CacheEntry) :
    Emit.Only Q (setEntry i f) := .change _

/-- Here is the guard. -/
theorem writebackRegister (i : Fin T.numFree) : Emit.Only Q (writebackRegister i) := by
  refine .bind .look fun _ => .assert_bind fun h0 => ?_
  exact .bind (.when fun _ => plainOp h0) fun _ => setEntry i _

theorem evictRegister (r : ℕ) (i : Fin T.numFree) : Emit.Only Q (evictRegister r i) :=
  .bind .look fun _ => .when fun _ => writebackRegister i

theorem fillRegister (ext : Extension) (r : ℕ) (i : Fin T.numFree) :
    Emit.Only Q (fillRegister ext r i) :=
  .bind (.ite (fun _ => plainOp trivial) fun _ => plainOp trivial) fun _ => setEntry i _

theorem extendRegister (ext : Extension) (r : ℕ) (i : Fin T.numFree) :
    Emit.Only Q (extendRegister ext r i) :=
  .bind .look fun _ => .when fun _ => .bind (.when fun _ => plainOp trivial) fun _ => setEntry i _

theorem loadMipsRegister (ext : Extension) (r : ℕ) :
    Emit.Only Q (loadMipsRegister ext r) := by
  refine .bind .look fun _ => .bind (.force _) fun i =>
    .bind (.assert _) fun _ => .bind (evictRegister r i) fun _ => ?_
  refine .bind (.ite (fun _ => extendRegister ext r i) fun _ => fillRegister ext r i) fun _ => ?_
  exact .bind (.change _) fun _ => .pure _

theorem modifyEntry (r : ℕ) : Emit.Only Q (modifyEntry r) := by
  refine .bind .look fun _ => .bind (.force _) fun i => .bind (evictRegister r i) fun _ => ?_
  exact .bind (setEntry i _) fun _ => .bind (.change _) fun _ => .pure i

theorem modifyMipsRegister (r : ℕ) : Emit.Only Q (modifyMipsRegister r) :=
  .bind (modifyEntry r) fun _ => .pure _

theorem immediateMipsRegister (r : ℕ) (x : BitVec T.wordSize) :
    Emit.Only Q (immediateMipsRegister r x) :=
  .bind (modifyEntry r) fun _ => .bind (plainOp trivial) fun _ =>
    .bind (setEntry _ _) fun _ => .pure _

theorem unlockMipsRegister (r : ℕ) : Emit.Only Q (unlockMipsRegister r) :=
  .bind .look fun _ => .bind (.force _) fun i => .bind (.assert _) fun _ => setEntry i _

theorem flushEntry (i : Fin T.numFree) : Emit.Only Q (flushEntry i) := by
  refine .bind .look fun _ => .when fun _ => .bind (.when fun _ => writebackRegister i) fun _ => ?_
  exact .bind (.assert _) fun _ => setEntry i _

theorem flushRegisterWindow : Emit.Only Q flushRegisterWindow :=
  .bind (.each _ flushEntry) fun _ => .change _

theorem flushCallerSaveRegisters : Emit.Only Q flushCallerSaveRegisters :=
  .each _ flushEntry

theorem flushMipsRegister (r : ℕ) : Emit.Only Q (flushMipsRegister r) := by
  refine .bind .look fun c => ?_
  cases c.findLive r with
  | none => exact .pure ()
  | some i => exact flushEntry i

/-! ### Instructions -/

theorem emitAddress (t a : HReg) (x : BitVec 16) : Emit.Only Q (emitAddress t a x) :=
  .bind (plainOp trivial) fun _ => plainOp trivial

theorem unlockThree (r s t : ℕ) : Emit.Only Q (do
    Jit.unlockMipsRegister r
    Jit.unlockMipsRegister s
    Jit.unlockMipsRegister t) :=
  .bind (unlockMipsRegister r) fun _ => .bind (unlockMipsRegister s) fun _ => unlockMipsRegister t

theorem jitEmitStoreOperation (op : StoreOp) (rt rs : Fin 32) (x : BitVec 16) :
    Emit.Only Q (jitEmitStoreOperation op rt rs x) := by
  refine .bind (loadMipsRegister _ _) fun d => .bind (loadMipsRegister _ _) fun a => ?_
  refine .bind (modifyMipsRegister _) fun t => .bind (emitAddress t a x) fun _ =>
    .ite (fun _ => ?_) fun _ => ?_
  · refine .bind (unlockMipsRegister _) fun _ => .bind (unlockMipsRegister _) fun _ => ?_
    refine .bind (unlockMipsRegister _) fun _ => .bind flushCallerSaveRegisters fun _ => ?_
    exact piece ⟨⟨trivial, trivial, trivial, trivial, trivial⟩, .flipped _ t trivial⟩
  · exact .bind (piece (.flipped _ t trivial)) fun _ => unlockThree _ _ _

theorem emitLoadAccess (op : LoadOp) (rs : Fin 32) (t ret : HReg) :
    Emit.Only Q (emitLoadAccess op rs t ret) := by
  refine .ite (fun _ => ?_) fun _ => ?_
  · refine .bind (unlockMipsRegister _) fun _ => .bind (unlockMipsRegister _) fun _ => ?_
    refine .bind (unlockMipsRegister _) fun _ => .bind flushCallerSaveRegisters fun _ => ?_
    exact piece ⟨⟨trivial, trivial, trivial, trivial, trivial⟩, .flipped _ t trivial⟩
  · exact .bind (piece (.flipped _ t trivial)) fun _ => unlockThree _ _ _

theorem jitEmitLoadOperation (op : LoadOp) (rt rs : Fin 32) (x : BitVec 16) :
    Emit.Only Q (jitEmitLoadOperation op rt rs x) := by
  refine .when fun _ => .bind (loadMipsRegister _ _) fun a =>
    .bind (modifyMipsRegister _) fun t => ?_
  refine .bind (emitAddress t a x) fun _ => .bind (modifyMipsRegister _) fun ret => ?_
  refine .bind (emitLoadAccess op rs t ret) fun _ => .bind (modifyMipsRegister _) fun d => ?_
  exact .bind (plainOp trivial) fun _ => unlockMipsRegister _

theorem emitShift (op : ShiftOp) (rd rt sa : Fin 32) :
    Emit.Only Q (emitShift op rd rt sa) := by
  refine .when fun _ => .bind (loadMipsRegister _ _) fun _ =>
    .bind (modifyMipsRegister _) fun _ => ?_
  exact .bind (plainOp trivial) fun _ => .bind (unlockMipsRegister _) fun _ => unlockMipsRegister _

theorem emitShiftv (op : ShiftOp) (rd rt rs : Fin 32) :
    Emit.Only Q (emitShiftv op rd rt rs) := by
  refine .when fun _ => .bind (loadMipsRegister _ _) fun _ =>
    .bind (loadMipsRegister _ _) fun _ => ?_
  refine .bind (modifyMipsRegister _) fun _ => .bind (plainOp trivial) fun _ =>
    .bind (unlockMipsRegister _) fun _ => ?_
  exact .bind (modifyMipsRegister _) fun _ => .bind (plainOp trivial) fun _ => unlockThree _ _ _

theorem threeRegOp (o : BinOp) (ext : Extension) (rd rs rt : Fin 32) :
    Emit.Only Q (threeRegOp o ext rd rs rt) := by
  refine .when fun _ => .bind (loadMipsRegister _ _) fun _ =>
    .bind (loadMipsRegister _ _) fun _ => ?_
  exact .bind (modifyMipsRegister _) fun _ => .bind (plainOp trivial) fun _ => unlockThree _ _ _

theorem emitNor (rd rs rt : Fin 32) : Emit.Only Q (emitNor rd rs rt) := by
  refine .when fun _ => .bind (loadMipsRegister _ _) fun _ =>
    .bind (loadMipsRegister _ _) fun _ => ?_
  refine .bind (modifyMipsRegister _) fun _ => .bind (plainOp trivial) fun _ =>
    .bind (plainOp trivial) fun _ => ?_
  exact unlockThree _ _ _

theorem emitAlu (op : AluOp) (rd rs rt : Fin 32) : Emit.Only Q (emitAlu op rd rs rt) := by
  cases op with
  | nor => exact emitNor rd rs rt
  | _ => exact threeRegOp _ _ rd rs rt

theorem twoRegImmOp (o : BinOp) (x : BitVec T.wordSize) (ext : Extension) (rt rs : Fin 32) :
    Emit.Only Q (twoRegImmOp o x ext rt rs) := by
  refine .when fun _ => .bind (loadMipsRegister _ _) fun _ =>
    .bind (modifyMipsRegister _) fun _ => ?_
  exact .bind (plainOp trivial) fun _ => .bind (unlockMipsRegister _) fun _ => unlockMipsRegister _

theorem emitConstant (rt : Fin 32) (x : BitVec T.wordSize) : Emit.Only Q (emitConstant rt x) :=
  .when fun _ => .bind (immediateMipsRegister _ x) fun _ => unlockMipsRegister _

theorem emitImm (op : ImmOp) (rt rs : Fin 32) (x : BitVec 16) :
    Emit.Only Q (emitImm op rt rs x) := by
  cases op with
  | addi | ori => exact .ite (fun _ => emitConstant rt _) fun _ => twoRegImmOp _ _ _ rt rs
  | _ => exact twoRegImmOp _ _ _ rt rs

/-! ### Branches -/

theorem emitZeroBranch (o : BinOp) (rs : Fin 32) : Emit.Only Q (emitZeroBranch o rs) := by
  refine .bind (loadMipsRegister _ _) fun _ => .bind (modifyMipsRegister _) fun _ =>
    .bind (plainOp trivial) fun _ => ?_
  exact .bind (unlockMipsRegister _) fun _ => unlockMipsRegister _

theorem emitRegBranch (o : BinOp) (rs rt : Fin 32) :
    Emit.Only Q (emitRegBranch o rs rt) := by
  refine .bind (loadMipsRegister _ _) fun _ => .bind (loadMipsRegister _ _) fun _ => ?_
  exact .bind (modifyMipsRegister _) fun _ => .bind (plainOp trivial) fun _ => unlockThree _ _ _

theorem emitJumpCondition (nextIsTarget : Bool) :
    Emit.Only Q (emitJumpCondition nextIsTarget) :=
  .bind (immediateMipsRegister _ _) fun _ => unlockMipsRegister _

theorem emitLink (r : Fin 32) (pc : Word) : Emit.Only Q (emitLink r pc) :=
  .bind (immediateMipsRegister _ _) fun _ => unlockMipsRegister _

theorem flushImpossibleDelaySlot (last : InstructionInfo) :
    Emit.Only Q (flushImpossibleDelaySlot last) := by
  refine .bind (.when fun _ => ?_) fun _ => .when fun _ => plainOp trivial
  exact .bind (loadMipsRegister _ _) fun _ => .bind (plainOp trivial) fun _ => unlockMipsRegister _

theorem jitSaveIndirectRegister (r : Fin 32) : Emit.Only Q (jitSaveIndirectRegister r) :=
  .bind (loadMipsRegister _ _) fun _ => .bind (plainOp trivial) fun _ => unlockMipsRegister _

/-! ### Calls and ways out -/

theorem emitCall (f : Callee) (hf : (Op.call f : Op T).Plain) (r : Option (Fin 32)) :
    Emit.Only Q (emitCall f r) := by
  refine .bind flushCallerSaveRegisters fun _ => ?_
  have hcall : Emit.Only Q (Emit.op (.call f)) := plainOp hf
  cases r with
  | none => exact hcall
  | some r => exact .bind (flushMipsRegister r) fun _ => hcall

theorem emitCop0 (f : Callee) (hf : Q (.op (.call f)))
    (pc : Word) (last : InstructionInfo) (first : Bool) :
    Emit.Only Q (emitCop0 f pc last first) := by
  refine .bind flushRegisterWindow fun _ => .bind (.op hf) fun _ =>
    .bind (plainOp trivial) fun _ => ?_
  exact piece ⟨trivial, .jitExitDynamic pc last first⟩

theorem jitExit (pc : Word) (last : InstructionInfo) (mode : ReturnMode) (first : Bool) :
    Emit.Only Q (jitExit pc last mode first) :=
  .bind flushRegisterWindow fun _ => .bind (plainOp trivial) fun _ =>
    piece (.jitExitDynamic pc last first)

theorem jitInstruction (pc : Word) (i : Instr) (hi : ∀ rt rd, i ≠ .mtc0 rt rd)
    (last : InstructionInfo) (first nextIsTarget : Bool) :
    Emit.Only Q (jitInstruction pc i last first nextIsTarget) := by
  have hf := flushImpossibleDelaySlot (Q := Q) last
  cases i with
  | vu op e vd vs vt => exact .bind (emitCall _ (by trivial) _) fun _ => .pure _
  | shift op rd rt sa => exact .bind (emitShift op rd rt sa) fun _ => .pure _
  | shiftv op rd rt rs => exact .bind (emitShiftv op rd rt rs) fun _ => .pure _
  | alu op rd rs rt => exact .bind (emitAlu op rd rs rt) fun _ => .pure _
  | imm op rt rs x => exact .bind (emitImm op rt rs x) fun _ => .pure _
  | lui rt x => exact .bind (emitConstant rt _) fun _ => .pure _
  | jr rs =>
    exact .bind hf fun _ => .bind (jitSaveIndirectRegister rs) fun _ =>
      .bind (emitJumpCondition _) fun _ => .pure _
  | jalr rd rs =>
    refine .bind hf fun _ => .bind (jitSaveIndirectRegister rs) fun _ =>
      .bind (.when fun _ => emitLink rd pc) fun _ => ?_
    exact .bind (emitJumpCondition _) fun _ => .pure _
  | j instr => exact .bind hf fun _ => .bind (emitJumpCondition _) fun _ => .pure _
  | jal instr =>
    refine .bind hf fun _ => .bind (immediateMipsRegister _ _) fun _ =>
      .bind (immediateMipsRegister _ _) fun _ => ?_
    exact .bind (unlockMipsRegister _) fun _ => .bind (unlockMipsRegister _) fun _ => .pure _
  | regimm c link rs instr =>
    exact .bind hf fun _ => .bind (emitZeroBranch _ rs) fun _ =>
      .bind (.when fun _ => emitLink 31 pc) fun _ => .pure _
  | beq rs rt instr | bne rs rt instr =>
      exact .bind hf fun _ => .bind (emitRegBranch _ rs rt) fun _ => .pure _
  | blez rs instr =>
      exact .bind hf fun _ => .bind (.when fun _ => emitZeroBranch _ rs) fun _ => .pure _
  | bgtz rs instr =>
    exact .bind hf fun _ => .ite (fun _ => .pure _) fun _ =>
      .bind (emitZeroBranch _ rs) fun _ => .pure _
  | «break» => exact .bind (jitExit pc last .break first) fun _ => .pure _
  | mfc0 rt rd => exact .bind (emitCop0 _ (hQ.code (by trivial)) pc last first) fun _ => .pure _
  | mtc0 rt rd => exact absurd rfl (hi rt rd)
  | mfc2 rt rd e | mtc2 rt rd e | cfc2 rt rd | ctc2 rt rd =>
      exact .bind (emitCall _ (by trivial) _) fun _ => .pure _
  | load op rt rs x => exact .bind (jitEmitLoadOperation op rt rs x) fun _ => .pure _
  | store op rt rs x => exact .bind (jitEmitStoreOperation op rt rs x) fun _ => .pure _
  | lwc2 op e rt rs offset | swc2 op e rt rs offset =>
      exact .bind (emitCall _ (by trivial) _) fun _ => .pure _
  | nop => exact .pure _

/-! ### Behind delay slots and between regions -/

theorem jitHandleDelaySlot (R : Region) (last : InstructionInfo)
    (hl : ∀ l, R.localLabel last = some l → AllowsJump Q l) :
    Emit.Only Q (jitHandleDelaySlot R last) := by
  have hleave := Jumpless.loadTarget_leave (T := T) last
  refine .ite (fun _ => ?_) fun _ => ?_
  · refine .bind (loadMipsRegister _ _) fun _ => .bind (modifyMipsRegister _) fun d =>
      .bind (modifyMipsRegister _) fun s => ?_
    refine .bind (plainOp trivial) fun _ => .bind (plainOp trivial) fun _ =>
      .bind (unlockMipsRegister _) fun _ => ?_
    refine .bind (unlockMipsRegister _) fun _ => .bind (unlockMipsRegister _) fun _ =>
      .bind flushRegisterWindow fun _ => ?_
    cases hlocal : R.localLabel last with
    | some l => exact .code ((hl l hlocal).br _)
    | none => exact piece ⟨trivial, hleave⟩
  · refine .bind (modifyMipsRegister _) fun d => .bind (plainOp trivial) fun _ =>
      .bind (unlockMipsRegister _) fun _ => ?_
    refine .bind flushRegisterWindow fun _ => ?_
    cases hlocal : R.localLabel last with
    | some l => exact .code (hl l hlocal).jmp
    | none => exact piece hleave

theorem jitHandleImpossibleDelaySlot (info last : InstructionInfo) :
    Emit.Only Q (jitHandleImpossibleDelaySlot info last) := by
  refine .bind (loadMipsRegister _ _) fun cond => .bind (modifyMipsRegister _) fun s =>
    .bind (modifyMipsRegister _) fun _ => ?_
  refine .bind (unlockMipsRegister _) fun _ => .bind (unlockMipsRegister _) fun _ =>
    .bind (unlockMipsRegister _) fun _ => ?_
  refine .bind flushRegisterWindow fun _ => piece ?_
  have htake := Jumpless.takeIllegalBranch (T := T) info last cond
  split
  · exact ⟨trivial, trivial, trivial, ⟨trivial, htake⟩, trivial⟩
  · exact ⟨trivial, trivial, htake, trivial⟩

theorem loadCondition (last : InstructionInfo) (other : HReg) :
    Emit.Only Q (loadCondition last other) := by
  refine .ite (fun _ => ?_) fun _ => .pure _
  exact .bind (loadMipsRegister _ _) fun _ => .bind (unlockMipsRegister _) fun _ => .pure _

theorem jitEndOfBlock (pc : Word) (last : InstructionInfo) :
    Emit.Only Q (jitEndOfBlock pc last) := by
  refine .bind (loadCondition last _) fun cond => .bind (modifyMipsRegister _) fun s =>
    .bind (unlockMipsRegister _) fun _ => ?_
  exact .bind flushRegisterWindow fun _ => piece ⟨.handOver last cond s, trivial, trivial, trivial⟩

theorem jitCheckDelaySlot (hl : AllowsJump Q .latent) : Emit.Only Q jitCheckDelaySlot := by
  refine .bind (modifyMipsRegister _) fun s => .bind (plainOp trivial) fun _ =>
    .bind (unlockMipsRegister _) fun _ => ?_
  exact .bind flushRegisterWindow fun _ => .code (hl.br _)

theorem jitHandleLatentDelaySlot (last : InstructionInfo) :
    Emit.Only Q (jitHandleLatentDelaySlot last) := by
  refine .bind (loadCondition last _) fun cond => .bind flushRegisterWindow fun _ => piece ?_
  have hl := Jumpless.loadTarget (T := T) registerMode last
  split
  · refine ⟨?_, trivial, trivial, hl, trivial, trivial, trivial⟩
    split <;> trivial
  · exact ⟨trivial, trivial, trivial, trivial, trivial⟩

theorem handleDelaySlot (R : Region) (i : ℕ) (info last : InstructionInfo)
    (h0 : i = 0 → ¬info.handlesDelaySlot → AllowsJump Q .latent)
    (hl : last.branch → ∀ l, R.localLabel last = some l → AllowsJump Q l) :
    Emit.Only Q (R.handleDelaySlot i info last) := by
  refine .ite (fun h => jitCheckDelaySlot (h0 h.1 h.2)) fun _ =>
    .ite (fun _ => jitHandleImpossibleDelaySlot info last) fun _ => ?_
  exact .ite (fun h => jitHandleDelaySlot R last (hl h.2)) fun _ => .pure ()

theorem finish (R : Region) (last : InstructionInfo) (first : Option InstructionInfo)
    (hl : Q (.label .latent)) : Emit.Only Q (R.finish last first) := by
  refine .bind flushRegisterWindow fun _ => .bind (jitEndOfBlock _ last) fun _ => ?_
  cases first with
  | none => exact .pure ()
  | some info => exact .bind (.code hl) fun _ => jitHandleLatentDelaySlot info

end EmitsPlain

/-! ### The call of `RSP_MTC0` -/

/-- The instruction leaves the mode and memory alone. -/
def Op.Quiet : Op T → Prop
  | .movi d _ | .movr d _ | .ldSr _ d _ | .ldField d _ => d ≠ registerMode
  | .stField _ _ => True
  | _ => False

/-- Pieces of code that leave through the return thunk, with quiet instructions on the way. -/
inductive ExitPath : List (HostCode T) → Prop where
  /-- The exit. -/
  | leave {ks : List (HostCode T)} : ExitPath (.leave .returnThunk :: ks)
  /-- No code. -/
  | nil {ks : List (HostCode T)} (h : ExitPath ks) : ExitPath (.nil :: ks)
  /-- An instruction. -/
  | op {i : Op T} {ks : List (HostCode T)} (hi : i.Quiet) (h : ExitPath ks) : ExitPath (.op i :: ks)
  /-- One piece after another. -/
  | seq {a b : HostCode T} {ks : List (HostCode T)} (h : ExitPath (a :: b :: ks)) :
      ExitPath (.seq a b :: ks)
  /-- A branch. -/
  | ite {c : Cond T} {a b : HostCode T} {ks : List (HostCode T)}
      (ha : ExitPath (a :: ks)) (hb : ExitPath (b :: ks)) :
    ExitPath (.ite c a b :: ks)

theorem ExitPath.loadTarget {ks : List (HostCode T)} (last : InstructionInfo) (h : ExitPath ks) :
    ExitPath (loadTarget registerNextPc last :: ks) := by
  have hne : registerNextPc ≠ registerMode := by decide
  rw [Jit.loadTarget]
  split
  · exact .op hne h
  · exact .op hne h

theorem ExitPath.jitExitDynamic (pc : Word) (last : InstructionInfo)
    (first : Bool) (ks : List (HostCode T)) :
    ExitPath (jitExitDynamic pc last first :: ks) := by
  have hne : registerNextPc ≠ registerMode := by decide
  have hleave {ks : List (HostCode T)} :
      ExitPath (.seq (.op (.movi registerNextPc (immediate (followingPc pc))))
      (.seq (.leave .returnThunk) .nil) :: ks) := .seq (.op hne (.seq .leave))
  rw [Jit.jitExitDynamic]
  split
  · refine .seq (.op hne (.seq (.ite ?_ hleave)))
    exact .nil (.seq (.op hne (.seq (.op trivial (.seq (.op hne (.seq .leave)))))))
  · split
    · exact hleave
    · split
      · exact .seq (.loadTarget last (.seq .leave))
      · exact .seq (.op hne (.seq (.ite (.op hne (.seq .leave)) (.loadTarget last (.seq .leave)))))

/-- What follows a call of `RSP_MTC0`: the way out, unless it returned `MODE_CONTINUE`. -/
def lookAtMode (x : HostCode T) : HostCode T :=
  .seq (.op (.retval registerMode))
    (.ite (.eqi registerMode (BitVec.ofNat _ (modeCode .continue))) .nil x)

/-- Code in which every call of `RSP_MTC0` is followed by a look at the mode. -/
inductive Guarded : HostCode T → Prop where
  /-- Without a call. -/
  | plain {k : HostCode T} (hk : k.All Op.Plain) : Guarded k
  /-- One piece after another. -/
  | seq {a b : HostCode T} (ha : Guarded a) (hb : Guarded b) : Guarded (.seq a b)
  /-- A call. -/
  | call {rt rd : Fin 32} {x : HostCode T} (hx : x.All Op.Plain) (he : ∀ ks, ExitPath (x :: ks)) :
    Guarded (.seq (.op (.call (.mtc0 rt rd))) (lookAtMode x))

instance : Code.Closed (Guarded (T := T)) where
  nil := .plain trivial
  seq := .seq

theorem Guarded.atLabel {k k' : HostCode T} {l : Label}
    (h : Guarded k) (hl : atLabel l k = some k') : Guarded k' := by
  induction h generalizing k' with
  | plain hk => exact .plain (hk.atLabel hl)
  | @seq a b ha hb iha ihb =>
    cases hat : Codegen.atLabel l a with
    | some k =>
      rw [atLabel_seq_of_some hat] at hl
      obtain rfl := Option.some.inj hl
      exact .seq (iha hat) hb
    | none =>
      rw [atLabel_seq_of_none hat] at hl
      exact ihb hl
  | call hx he => cases hl

/-- The generator emits guarded code only. -/
abbrev EmitsGuarded {α : Type} (m : Gen T α) : Prop := Emit.Only Guarded m

namespace EmitsGuarded

theorem plain {α : Type} {m : Gen T α} (h : EmitsPlain m) : EmitsGuarded m := h.mono fun _ => .plain

/-- Here is the look at the mode. -/
theorem emitCop0 (rt rd : Fin 32) (pc : Word) (last : InstructionInfo) (first : Bool) :
    EmitsGuarded (T := T) (emitCop0 (.mtc0 rt rd) pc last first) := by
  refine .bind (plain EmitsPlain.flushRegisterWindow) fun _ => ?_
  rintro c _ _ _ ⟨⟩
  exact .call (OfJumpless.code (.jitExitDynamic pc last first))
    (ExitPath.jitExitDynamic pc last first)

theorem jitInstruction (pc : Word) (i : Instr) (last : InstructionInfo)
    (first nextIsTarget : Bool) :
    EmitsGuarded (T := T) (jitInstruction pc i last first nextIsTarget) := by
  by_cases hi : ∃ rt rd, i = .mtc0 rt rd
  · obtain ⟨rt, rd, rfl⟩ := hi
    exact .bind (emitCop0 rt rd pc last first) fun _ => .pure _
  · exact plain (EmitsPlain.jitInstruction pc i (fun rt rd h =>
      hi ⟨rt, rd, h⟩) last first nextIsTarget)

/-! ### Regions -/

theorem body (R : Region) (i : ℕ) (last : InstructionInfo) :
    EmitsGuarded (T := T) (R.body i last) := by
  refine .bind (plain (.op trivial)) fun _ => .bind (jitInstruction _ _ _ _ _) fun info => ?_
  have hjump (l : Label) : AllowsJump (T := T) (Code.All Op.Plain) l := ⟨trivial, fun _ => trivial⟩
  have hslot := EmitsPlain.handleDelaySlot R i info last (fun _ _ => hjump _) fun _ l _ => hjump l
  exact .bind (plain hslot) fun _ => .pure _

theorem round (R : Region) (i : ℕ) (last : InstructionInfo) :
    EmitsGuarded (T := T) (R.round i last) := by
  refine .bind (plain (.when fun _ => ?_)) fun _ => body R i last
  exact .bind EmitsPlain.flushRegisterWindow fun _ => .bind (.change _) fun _ => .code trivial

theorem rounds (R : Region) (is : List ℕ) (last : InstructionInfo)
    (first : Option InstructionInfo) :
    EmitsGuarded (T := T) (R.rounds is last first) := by
  induction is generalizing last first with
  | nil => exact plain (EmitsPlain.finish R last first trivial)
  | cons i is ih => exact .bind (round R i last) fun info => ih _ _

/-- The code of a region is guarded. -/
theorem jitRegion {R : Region} {code : HostCode T} (h : jitRegion R = some code) :
    Guarded code := by
  obtain ⟨⟨a, k, c⟩, hk, rfl⟩ := Option.map_eq_some_iff.mp h
  have hall : EmitsGuarded (T := T) (do
      reset
      Emit.assert (R.count ≤ codeBlockWords * 2)
      R.rounds (List.range R.count) {} none) :=
    .bind (.change _) fun _ => .bind (.assert _) fun _ => rounds R _ _ _
  exact hall _ _ _ _ hk

end EmitsGuarded

end ParallelRsp.Jit
