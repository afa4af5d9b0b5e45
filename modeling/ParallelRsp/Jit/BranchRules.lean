import ParallelRsp.Jit.AccessRules

/-!
# Compiled branches and exits

A branch leaves its condition in the pseudo register and its target in the instruction's
`InstructionInfo` or in `JIT_REGISTER_INDIRECT_PC`; `pendingTarget` puts the two together.
The exits go where the pending branch goes, or where a branch goes that was inherited
from the region before. `wp_jitInstruction` then says for every instruction what its code
does.
-/

namespace ParallelRsp.Jit

open Codegen

variable {T : Target} {E : Env T} {c : RegisterCache T} {h : Host T} {v : View T}

/-! ### The control part of a state -/

namespace View

/-- The state with another branch condition. -/
def setCond (v : View T) (x : Word) : View T := { v with cond := x }

/-- The state with another indirect target. -/
def setIndirectPc (v : View T) (x : BitVec T.wordSize) : View T :=
  { v with control := { v.control with indirectPc := x } }

/-- The state with another stack frame. -/
def setFrame (v : View T) (frame : ℕ → BitVec T.wordSize) : View T :=
  { v with control := { v.control with frame := frame } }

/-- The state with another control word. -/
def setField (v : View T) (f : Field) (x : Word) : View T :=
  match f with
  | .hasDelaySlot => { v with control := { v.control with hasDelaySlot := x } }
  | .branchTarget => { v with control := { v.control with branchTarget := x } }

/-- A control word. -/
def field (v : View T) : Field → Word
  | .hasDelaySlot => v.control.hasDelaySlot
  | .branchTarget => v.control.branchTarget

theorem put_cond (v : View T) (x : Word) : v.put condBranchTaken x = v.setCond x := if_pos rfl

end View

theorem Rep.field_eq (hR : Rep c h v) (f : Field) : h.field f = v.field f := by
  cases f with
  | hasDelaySlot => exact congrArg Control.hasDelaySlot hR.control
  | branchTarget => exact congrArg Control.branchTarget hR.control

theorem Rep.frame_eq (hR : Rep c h v) : h.frame = v.control.frame :=
  congrArg Control.frame hR.control

theorem Rep.indirectPc_eq (hR : Rep c h v) : h.regs registerIndirectPc = v.control.indirectPc :=
  congrArg Control.indirectPc hR.control

/-- A host that differs in the control part only. -/
theorem Rep.setControl {h' : Host T} {k : Control T} (hR : Rep c h v) (hk : h'.control = k)
    (hregs : ∀ i, h'.regs (home i) = h.regs (home (T := T) i)) (hst : h'.st.toArch = h.st.toArch) :
    Rep c h' { v with control := k } where
  distinct := hR.distinct
  entry i hil := by
    have hE := hR.entry i hil
    exact ⟨by rw [hregs]; exact hE.zero, by rw [hregs]; exact hE.value,
      by rw [hregs]; exact hE.sign,
      by rw [hregs]; exact hE.cond⟩
  memory r hr hno := by
    rw [hst]
    exact hR.memory r hr hno
  rest := by
    rw [hst]
    exact hR.rest
  control := hk

theorem Rep.setIndirectPc (hR : Rep c h v) (x : BitVec T.wordSize) :
    Rep c (h.set registerIndirectPc x) (v.setIndirectPc x) := by
  refine hR.setControl ?_ (fun i => h.set_regs_of_ne x (home_ne_indirectPc i)) rfl
  rw [← hR.control, Host.control, Host.control, h.set_regs_self]
  rfl

theorem Rep.setFrame (hR : Rep c h v) (slot : ℕ) (x : BitVec T.wordSize) :
    Rep c { h with frame := Function.update h.frame slot x }
      (v.setFrame (Function.update v.control.frame slot x)) := by
  refine hR.setControl ?_ (fun _ => rfl) rfl
  rw [← hR.control]
  rfl

theorem Rep.setField (hR : Rep c h v) (f : Field) (x : Word) :
    Rep c (h.setField f x) (v.setField f x) := by
  cases f <;>
  · refine hR.setControl ?_ (fun _ => rfl) rfl
    rw [← hR.control]
    rfl

/-- Every register is in memory when nothing is in the cache. -/
theorem Rep.sr_eq (hR : Rep c h v) (hC : Clean c) {r : ℕ} (hr : r ≤ condBranchTaken) :
    h.st.sr r = v.mem r :=
  hR.memory r hr fun i ⟨hil, _⟩ => hC i hil

theorem Rep.sr_cond (hR : Rep c h v) (hC : Clean c) : h.st.sr condBranchTaken = v.cond :=
  (hR.sr_eq hC le_rfl).trans (if_pos rfl)

theorem Rep.sr_of_lt (hR : Rep c h v) (hC : Clean c) {r : ℕ} (hr : r < condBranchTaken) :
    h.st.sr r = v.arch.sr r :=
  (hR.sr_eq hC hr.le).trans (if_neg hr.ne)

theorem Clean.free (hC : Clean c) (d : HReg) : Free c d := fun i hil => absurd hil (hC i)

/-- Caches without entries are all the same. -/
theorem Rep.clean_congr {c' : RegisterCache T} (hR : Rep c h v) (hC : Clean c) (hC' : Clean c') :
    Rep c' h v where
  distinct i _ hil := absurd hil (hC' i)
  entry i hil := absurd hil (hC' i)
  memory _ hr _ := hR.sr_eq hC hr
  rest := hR.rest
  control := hR.control

/-- The branch condition in a host register: zero as a host word when it is zero. -/
theorem Rep.at_cond {d : HReg} {s : SignState} (hR : Rep c h v) (hA : At c condBranchTaken d s) :
    low (h.regs d) = v.cond ∧ (h.regs d = 0#_ ↔ v.cond = 0#32) := by
  obtain ⟨i, hil, hir, rfl, -⟩ := hA
  have hE := hR.entry i hil
  have hlow : low (h.regs (home i)) = v.cond := (hE.value hir.le).trans (by rw [hir]; rfl)
  refine ⟨hlow, ?_⟩
  rw [← hlow]
  constructor
  · intro h0
    rw [h0]
    exact BitVec.setWidth_zero _ _
  · intro h0
    rw [hE.cond hir, h0]
    exact extend_zero true

theorem extend_eq_zero (x : Word) : extend T true x = 0#_ ↔ x = 0#32 := by
  constructor
  · intro h0
    rw [← low_extend (T := T) true x, h0]
    exact BitVec.setWidth_zero _ _
  · rintro rfl
    exact extend_zero true

/-! ### Where control goes -/

/-- Where the branch goes that the last instruction has taken. -/
def pendingTarget (last : InstructionInfo) (v : View T) : Option Word :=
  if last.branch ∧ (last.conditional → v.cond ≠ 0#32) then
    some (if last.indirect then low v.control.indirectPc else last.branchTarget)
  else none

/-- Where the branch goes that the region has inherited. -/
def inheritedTarget (v : View T) : Option Word :=
  if v.control.hasDelaySlot = 0#32 then none else some v.control.branchTarget

/-- The branch in whose delay slot an instruction is. -/
def slotTarget (last : InstructionInfo) (first : Bool) (v : View T) : Option Word :=
  if first then inheritedTarget v else pendingTarget last v

theorem pendingTarget_of_taken {last : InstructionInfo}
    (hb : last.branch) (hc : last.conditional → v.cond ≠ 0#32) :
    pendingTarget last v = some (if last.indirect then low v.control.indirectPc
      else last.branchTarget) :=
  if_pos ⟨hb, hc⟩

theorem pendingTarget_of_not_taken {last : InstructionInfo}
    (hc : last.branch → last.conditional ∧ v.cond = 0#32) :
    pendingTarget last v = none :=
  if_neg fun ⟨hb, hn⟩ => hn (hc hb).1 (hc hb).2

/-- The inherited branch is consumed. -/
def View.settle (v : View T) (first : Bool) : View T :=
  if first then v.setField .hasDelaySlot 0#32 else v

theorem low_immediate (x : Word) : low (immediate x : BitVec T.wordSize) = x := low_extend false x

/-- The target of a taken branch, loaded. -/
theorem exec_loadTarget (last : InstructionInfo) (d : HReg) (h : Host T) (hR : Rep c h v) :
    ∃ x, exec (lightning E) (loadTarget d last) h = .fall (h.set d x) ∧
      low x = if last.indirect then low v.control.indirectPc else last.branchTarget := by
  rw [loadTarget]
  split
  · exact ⟨_, rfl, congrArg low hR.indirectPc_eq⟩
  · exact ⟨_, rfl, low_immediate _⟩

theorem nextPc_ne_indirectPc : registerNextPc ≠ registerIndirectPc := nofun

theorem mode_ne_indirectPc : registerMode ≠ registerIndirectPc := nofun

theorem mode_ne_nextPc : registerMode ≠ registerNextPc := by decide

/-- An exit that is not from the first instruction, and from behind no branch. -/
theorem exec_exitFollowing (h : Host T) (pc : Word) {last : InstructionInfo} (hb : ¬last.branch) :
    exec (lightning E) (jitExitDynamic pc last false) h =
      .leave .returnThunk (h.set registerNextPc (immediate (followingPc pc))) := by
  simp [jitExitDynamic, hb, Code.block, exec, stepOp]

/-- From behind a branch whose condition is in memory. -/
theorem exec_exitBranch (hR : Rep c h v) (hC : Clean c)
    (pc : Word) {last : InstructionInfo} (hb : last.branch) :
    ∃ x, exec (lightning E) (jitExitDynamic pc last false) h =
      .leave .returnThunk (h.set registerNextPc x) ∧
      low x = (pendingTarget last v).getD (followingPc pc) := by
  by_cases hcond : last.conditional
  · have hsr := hR.sr_cond hC
    by_cases h0 : v.cond = 0#32
    · refine ⟨immediate (followingPc pc), ?_, ?_⟩
      · simp [jitExitDynamic, hb, hcond, Code.block, exec, stepOp, holdsCond, hsr, h0, extend_zero]
      · rw [low_immediate, pendingTarget_of_not_taken fun _ => ⟨hcond, h0⟩]
        rfl
    · obtain ⟨x, hx, hlow⟩ :=
        exec_loadTarget (E := E) last registerNextPc (h.set registerNextPc (extend T true v.cond))
        (hR.setFree (hC.free _) nextPc_ne_indirectPc _)
      refine ⟨x, ?_, ?_⟩
      · simp [jitExitDynamic, hb, hcond, Code.block, exec, stepOp, holdsCond, hsr, extend_eq_zero,
          h0, hx]
      · rw [hlow, pendingTarget_of_taken hb fun _ => h0]
        rfl
  · obtain ⟨x, hx, hlow⟩ := exec_loadTarget (E := E) last registerNextPc h hR
    refine ⟨x, ?_, ?_⟩
    · simp [jitExitDynamic, hb, hcond, Code.block, exec, hx]
    · rw [hlow, pendingTarget_of_taken hb fun hn => absurd hn hcond]
      rfl

theorem jitExitDynamic_labelFree (pc : Word) (last : InstructionInfo) (first : Bool) :
    (jitExitDynamic pc last first : HostCode T).labelFree := by
  rw [jitExitDynamic]
  repeat' split
  all_goals simp [Code.block, Code.labelFree, loadTarget]

/-- `jit_exit_dynamic` leaves to where the machine goes next and does not touch the mode. -/
theorem exec_jitExitDynamic (hR : Rep c h v) (hC : Clean c)
    (pc : Word) (last : InstructionInfo) (first : Bool) :
    ∃ h', exec (lightning E) (jitExitDynamic pc last first) h = .leave .returnThunk h' ∧
      low (h'.regs registerNextPc) = (slotTarget last first v).getD (followingPc pc) ∧
      h'.regs registerMode = h.regs registerMode ∧ Rep c h' (v.settle first) := by
  have hset (x : BitVec T.wordSize) : Rep c (h.set registerNextPc x) v :=
    hR.setFree (hC.free _) nextPc_ne_indirectPc x
  have hmode (x : BitVec T.wordSize) :
      (h.set registerNextPc x).regs registerMode = h.regs registerMode :=
    h.set_regs_of_ne x mode_ne_nextPc
  cases first with
  | true =>
    have hhds : h.field .hasDelaySlot = v.control.hasDelaySlot := hR.field_eq .hasDelaySlot
    by_cases h0 : v.control.hasDelaySlot = 0#32
    · refine ⟨h.set registerNextPc (immediate (followingPc pc)), ?_, ?_, hmode _, ?_⟩
      · simp [jitExitDynamic, Code.block, exec, stepOp, holdsCond, hhds, h0, extend_zero]
      · rw [slotTarget, if_pos rfl, inheritedTarget, if_pos h0, h.set_regs_self, low_immediate]
        rfl
      · have hv : v.settle true = v := by
          rw [View.settle, if_pos rfl, View.setField, ← h0]
        rw [hv]
        exact hset _
    · have hbt : ((h.set registerNextPc 0#_).setField .hasDelaySlot 0#32).field .branchTarget =
          v.control.branchTarget :=
        hR.field_eq .branchTarget
      have hlow : low (0#T.wordSize) = 0#32 := BitVec.setWidth_zero _ _
      refine ⟨((h.set registerNextPc 0#_).setField .hasDelaySlot 0#32).set registerNextPc
        (extend T true v.control.branchTarget), ?_, ?_, ?_, ?_⟩
      · simp [jitExitDynamic, Code.block, exec, stepOp, holdsCond, hhds, extend_eq_zero, h0, hlow,
          hbt]
      · rw [slotTarget, if_pos rfl, inheritedTarget, if_neg h0, Host.set_regs_self, low_extend]
        rfl
      · exact (Host.set_regs_of_ne _ _ mode_ne_nextPc).trans (hmode 0#_)
      · exact ((hset _).setField .hasDelaySlot 0#32).setFree (hC.free _) nextPc_ne_indirectPc _
  | false =>
    by_cases hb : last.branch
    · obtain ⟨x, hx, hlow⟩ := exec_exitBranch (E := E) hR hC pc hb
      exact ⟨_, hx, (congrArg low (h.set_regs_self _ _)).trans hlow, hmode _, hset _⟩
    · refine ⟨_, exec_exitFollowing h pc hb, ?_, hmode _, hset _⟩
      rw [h.set_regs_self, low_immediate, slotTarget, if_neg Bool.false_ne_true,
        pendingTarget_of_not_taken fun hn => absurd hn hb]
      rfl

/-! ### Conditions -/

theorem falls_jitSaveIndirectRegister (hS : Ready c h v) (r : Fin 32) :
    falls (lightning E) (jitSaveIndirectRegister r)
      (fun _ c' h' => ∃ x, low x = Mips.read v.arch r ∧ Ready c' h' (v.setIndirectPc x)) c h := by
  refine falls_bind ((falls_loadFin hS.rep hS.locked (by simp)).mono ?_)
  rintro d c₁ h₁ ⟨hR₁, hL₁, hA₁, -⟩
  refine falls_bind (falls_op ?_)
  refine (falls_unlock (hR₁.setIndirectPc (h₁.regs d)) hL₁).mono ?_
  exact fun _ _ _ hS' => ⟨h₁.regs d, (hR₁.at_fin hA₁).1, hS'⟩

/-- The branch condition is loaded. -/
theorem falls_loadCond {ks : List ℕ} (hR : Rep c h v) (hL : Locked c ks) (hk : ks.length < 3) :
    falls (lightning E) (loadMipsRegisterNoext condBranchTaken)
      (fun d c' h' => Rep c' h' v ∧ Locked c' (ks ++ [condBranchTaken]) ∧
        At c' condBranchTaken d .unknown ∧
        Kept c c' ks condBranchTaken Extension.noext.Keeps) c h :=
  falls_loadMipsRegister hR hL le_rfl hk fun _ => by decide

/-- The slots of the frame hold the condition and the target of the branch before. -/
structure Saved (last : InstructionInfo) (v : View T) (frame : ℕ → BitVec T.wordSize) : Prop where
  /-- The condition. -/
  cond : last.branch → last.conditional → (frame illegalCondSlot = 0#_ ↔ v.cond = 0#32)
  /-- The target. -/
  indirect : last.branch → last.indirect → frame illegalIndirectSlot = v.control.indirectPc

theorem falls_jitSaveIllegalCondBranchTaken (hS : Ready c h v) :
    falls (lightning E) jitSaveIllegalCondBranchTaken
      (fun _ c' h' => ∃ x, (x = 0#_ ↔ v.cond = 0#32) ∧
        Ready c' h' (v.setFrame (Function.update v.control.frame illegalCondSlot x))) c h := by
  refine falls_bind ((falls_loadCond hS.rep hS.locked (by simp)).mono ?_)
  rintro d c₁ h₁ ⟨hR₁, hL₁, hA₁, -⟩
  refine falls_bind (falls_op ?_)
  refine (falls_unlock (hR₁.setFrame illegalCondSlot (h₁.regs d)) hL₁).mono ?_
  exact fun _ _ _ hS' => ⟨h₁.regs d, (hR₁.at_cond hA₁).2, hS'⟩

theorem falls_jitSaveIllegalIndirectRegister (hS : Ready c h v) :
    falls (lightning E) jitSaveIllegalIndirectRegister
      (fun _ c' h' => Ready c' h'
        (v.setFrame (Function.update v.control.frame illegalIndirectSlot v.control.indirectPc)))
          c h := by
  have hR := hS.rep.setFrame illegalIndirectSlot v.control.indirectPc
  rw [← hS.rep.indirectPc_eq] at hR ⊢
  exact falls_op ⟨hR, hS.locked⟩

theorem falls_flushImpossibleDelaySlot (hS : Ready c h v) (last : InstructionInfo) :
    falls (lightning E) (flushImpossibleDelaySlot last)
      (fun _ c' h' => ∃ frame, Saved last v frame ∧ Ready c' h' (v.setFrame frame)) c h := by
  have hcond : falls (lightning E)
      (Emit.when (last.branch ∧ last.conditional) jitSaveIllegalCondBranchTaken)
      (fun _ c' h' => ∃ frame, (last.branch → last.conditional →
        (frame illegalCondSlot = 0#_ ↔ v.cond = 0#32)) ∧
        Ready c' h' (v.setFrame frame)) c h := by
    refine falls_when (fun _ => ?_) fun hn => ?_
    · refine (falls_jitSaveIllegalCondBranchTaken hS).mono ?_
      rintro _ c' h' ⟨x, hx, hS'⟩
      exact ⟨_, fun _ _ => by rwa [Function.update_self], hS'⟩
    · exact ⟨v.control.frame, fun hb hc => absurd ⟨hb, hc⟩ hn, hS⟩
  refine falls_bind (hcond.mono ?_)
  rintro _ c₁ h₁ ⟨frame, hframe, hS₁⟩
  refine falls_when (fun _ => ?_) fun hn => ?_
  · refine (falls_jitSaveIllegalIndirectRegister hS₁).mono ?_
    intro _ c' h' hS'
    refine ⟨_, ⟨fun hb hc => ?_, fun _ _ => Function.update_self _ _ _⟩, hS'⟩
    rw [Function.update_of_ne (by decide)]
    exact hframe hb hc
  · exact ⟨frame, ⟨hframe, fun hb hi => absurd ⟨hb, hi⟩ hn⟩, hS₁⟩

/-- The condition of a branch is computed into its pseudo register. -/
theorem Writable.flag {d : HReg} (hW : Writable c h v condBranchTaken d) (b : Bool) :
    Rep c (h.set d (flag b)) (v.setCond (Mips.ofBool b)) := by
  have hR := hW (Jit.flag b) fun _ => hasSign_flag b
  rwa [low_flag, v.put_cond] at hR

theorem falls_emitZeroBranch (hS : Ready c h v) {o : BinOp} {p : Word → Bool} (rs : Fin 32)
    (hp : ∀ (a : BitVec T.wordSize) (x : Word), Holds .sExt a x → o.eval a 0#_ = flag (p x)) :
    falls (lightning E) (emitZeroBranch o rs)
      (fun _ c' h' => Ready c' h' (v.setCond (Mips.ofBool (p (Mips.read v.arch rs))))) c h := by
  refine falls_bind ((falls_loadFin hS.rep hS.locked (by simp)).mono ?_)
  rintro a c₁ h₁ ⟨hR₁, hL₁, hA₁, -⟩
  refine falls_bind ((falls_modifyMipsRegister hR₁ hL₁ (by simp) (by simp)).mono ?_)
  rintro d c₂ h₂ ⟨hregs, hW, hL₂, -, -⟩
  have hR₂ := hW.flag (p (Mips.read v.arch rs))
  rw [← hp _ _ (hR₁.at_fin hA₁), ← hregs] at hR₂
  exact falls_bind (falls_op (falls_unlock2 hR₂ hL₂))

theorem falls_emitRegBranch (hS : Ready c h v) {o : BinOp} {p : Word → Word → Bool} (rs rt : Fin 32)
    (hp : ∀ (a b : BitVec T.wordSize) (x y : Word), Holds .sExt a x →
      Holds .sExt b y → o.eval a b = flag (p x y)) :
    falls (lightning E) (emitRegBranch o rs rt)
      (fun _ c' h' => Ready c' h'
        (v.setCond (Mips.ofBool (p (Mips.read v.arch rs) (Mips.read v.arch rt))))) c h := by
  refine falls_bind ((falls_loadFin hS.rep hS.locked (by simp)).mono ?_)
  rintro a c₁ h₁ ⟨hR₁, hL₁, hA₁, -⟩
  refine falls_bind ((falls_loadFin hR₁ hL₁ (by simp)).mono ?_)
  rintro b c₂ h₂ ⟨hR₂, hL₂, hB₂, hK₂⟩
  have hA₂ := hK₂.stay rs (.inl (by simp)) a _ hA₁ fun _ => .inr (.inr rfl)
  refine falls_bind ((falls_modifyMipsRegister hR₂ hL₂ (by simp) (by simp)).mono ?_)
  rintro d c₃ h₃ ⟨hregs, hW, hL₃, -, -⟩
  have hR₃ := hW.flag (p (Mips.read v.arch rs) (Mips.read v.arch rt))
  rw [← hp _ _ _ _ (hR₂.at_fin hA₂) (hR₂.at_fin hB₂), ← hregs] at hR₃
  exact falls_bind (falls_op (falls_unlock3 hR₃ hL₃))

theorem falls_emitJumpCondition (hS : Ready c h v) (nextIsTarget : Bool) :
    falls (lightning E) (emitJumpCondition nextIsTarget)
      (fun _ c' h' => Ready c' h' (v.setCond (Mips.ofBool nextIsTarget))) c h := by
  refine falls_bind ((falls_immediateMipsRegister hS.rep hS.locked (by simp) (by simp)
    (hasSign_flag nextIsTarget)).mono ?_)
  rintro _ c₁ h₁ ⟨hR₁, hL₁⟩
  rw [low_flag, v.put_cond] at hR₁
  exact falls_unlock hR₁ hL₁

/-- A return address is its own sign extension. -/
theorem hasSign_linkPc (pc : Word) :
    HasSign .sExt (immediate (Mips.linkPc pc) : BitVec T.wordSize) := by
  have hmsb : (Mips.linkPc pc).msb = false := by
    rw [Mips.linkPc, BitVec.msb_and]
    exact Bool.and_false _
  rw [HasSign, low_immediate, extend, if_pos rfl, BitVec.signExtend_eq_setWidth_of_msb_false hmsb]
  rfl

theorem falls_emitLink (hS : Ready c h v) {r : Fin 32} (h0 : r ≠ 0) (pc : Word) :
    falls (lightning E) (emitLink r pc) (fun _ c' h' =>
      Ready c' h' (v.write r (Mips.linkPc pc))) c h := by
  refine falls_bind ((falls_immediateMipsRegister hS.rep hS.locked
    (fun h => h0 (Fin.ext h)) (by simp)
    (hasSign_linkPc pc)).mono ?_)
  rintro _ c₁ h₁ ⟨hR₁, hL₁⟩
  rw [v.put_fin h0, low_immediate] at hR₁
  exact falls_unlock hR₁ hL₁

theorem zeroCond_eval (z : ZeroCond) (a : BitVec T.wordSize) (x : Word) (ha : Holds .sExt a x) :
    (ZeroCond.binOp z).eval a 0#_ = flag (Mips.zeroCond z x) := by
  have h0 : Holds .sExt (0#T.wordSize) 0#32 := .zero .sExt
  cases z with
  | ltz => exact congrArg flag (ha.slt h0)
  | gez =>
    refine congrArg flag ((h0.sle ha).trans ?_)
    rw [Mips.zeroCond, BitVec.sle_eq_not_slt]

/-! ### Every instruction -/

/-- What `jit_instruction` says of an instruction. -/
def instructionInfo (pc : Word) (i : Instr) (nextIsTarget : Bool) : InstructionInfo :=
  match i with
  | .jr _ | .jalr _ _ => { branch := true, indirect := true, conditional := nextIsTarget }
  | .j instr | .jal instr =>
      { branch := true, branchTarget := jumpTarget instr, conditional := nextIsTarget }
  | .regimm _ _ _ instr | .beq _ _ instr | .bne _ _ instr =>
    { branch := true, branchTarget := branchTarget pc instr, conditional := true }
  | .blez rs instr =>
      { branch := true, branchTarget := branchTarget pc instr, conditional := rs ≠ 0 }
  | .bgtz rs instr =>
    if rs = 0 then {} else
      { branch := true, branchTarget := branchTarget pc instr, conditional := true }
  | .break => { handlesDelaySlot := true }
  | _ => {}

/-- What an instruction does that control passes. -/
structure Executed (H : Helpers) (pc : Word) (i : Instr)
    (last : InstructionInfo) (nextIsTarget : Bool)
    (v v' : View T) : Prop where
  /-- Registers and memories. -/
  arch : v'.arch = (Mips.exec H pc i v.arch).1
  /-- The branch it takes. -/
  pending : pendingTarget (instructionInfo pc i nextIsTarget) v' =
    if Mips.taken i v.arch then some (Mips.target pc i v.arch) else none
  /-- The condition, where there is one. -/
  cond : (instructionInfo pc i nextIsTarget).conditional →
    v'.cond = Mips.ofBool (Mips.taken i v.arch)
  /-- The branch before is left alone by what is not a branch, -/
  slot : ¬(instructionInfo pc i nextIsTarget).branch →
    v'.cond = v.cond ∧ v'.control.indirectPc = v.control.indirectPc
  /-- and saved by what is one. -/
  saved : (instructionInfo pc i nextIsTarget).branch → Saved last v v'.control.frame
  /-- Nothing else happens. -/
  control : v'.control =
    { v.control with indirectPc := v'.control.indirectPc, frame := v'.control.frame }

/-- How the code of an instruction ends: behind it, or outside of the region with the mode
that the instruction returns. -/
def InstructionPost (E : Env T) (pc : Word) (i : Instr)
    (last : InstructionInfo) (first nextIsTarget : Bool)
    (v : View T) (info : InstructionInfo) (c' : RegisterCache T) (o : Outcome Label Exit (Host T)) :
    Prop :=
  info = instructionInfo pc i nextIsTarget ∧
    match o with
    | .fall h' => (Mips.exec E.toHelpers pc i v.arch).2 = .continue ∧
        ∃ v', Ready c' h' v' ∧ Executed E.toHelpers pc i last nextIsTarget v v'
    | .leave .returnThunk h' =>
        (Mips.exec E.toHelpers pc i v.arch).2 ≠ .continue ∧ Clean c' ∧ Locked c' [] ∧
        h'.regs registerMode = BitVec.ofNat _ (modeCode (Mips.exec E.toHelpers pc i v.arch).2) ∧
        low (h'.regs registerNextPc) = (slotTarget last first v).getD (followingPc pc) ∧
        Rep c' h' (View.settle { v with arch := (Mips.exec E.toHelpers pc i v.arch).1 } first)
    | _ => False

section Instructions

variable {pc : Word} {last : InstructionInfo} {first nextIsTarget : Bool} {i : Instr}

/-- An instruction that `jit_instruction` makes no branch of. -/
theorem Executed.plain {H : Helpers} {v' : View T} (hi : instructionInfo pc i nextIsTarget = {})
    (ht : Mips.taken i v.arch = false) (harch : v'.arch = (Mips.exec H pc i v.arch).1)
    (hcond : v'.cond = v.cond)
    (hcontrol : v'.control = { v.control with frame := v'.control.frame }) :
    Executed H pc i last nextIsTarget v v' where
  arch := harch
  pending := by
    rw [hi, ht]
    exact pendingTarget_of_not_taken nofun
  cond hc := by
    rw [hi] at hc
    cases hc
  slot _ := ⟨hcond, by rw [hcontrol]⟩
  saved hb := by
    rw [hi] at hb
    cases hb
  control := by rw [hcontrol]

/-- A branch. -/
theorem Executed.branch {H : Helpers} {v' : View T}
    (hb : (instructionInfo pc i nextIsTarget).branch)
    (harch : v'.arch = (Mips.exec H pc i v.arch).1)
    (hcond : (instructionInfo pc i nextIsTarget).conditional →
      v'.cond = Mips.ofBool (Mips.taken i v.arch))
    (huncond : ¬(instructionInfo pc i nextIsTarget).conditional → Mips.taken i v.arch)
    (htarget : (if (instructionInfo pc i nextIsTarget).indirect then low v'.control.indirectPc
      else (instructionInfo pc i nextIsTarget).branchTarget) = Mips.target pc i v.arch)
    (hsaved : Saved last v v'.control.frame)
    (hcontrol : v'.control =
      { v.control with indirectPc := v'.control.indirectPc, frame := v'.control.frame }) :
    Executed H pc i last nextIsTarget v v' where
  arch := harch
  pending := by
    by_cases ht : Mips.taken i v.arch
    · rw [if_pos ht, ← htarget]
      refine pendingTarget_of_taken hb fun hc => ?_
      rw [hcond hc, ht]
      decide
    · rw [if_neg ht]
      have hc : (instructionInfo pc i nextIsTarget).conditional := by
        by_contra hn
        exact ht (huncond hn)
      refine pendingTarget_of_not_taken fun _ => ⟨hc, ?_⟩
      rw [hcond hc, eq_false_of_ne_true ht]
      rfl
  cond := hcond
  slot hn := absurd hb hn
  saved _ := hsaved
  control := hcontrol

theorem wp_of_falls {m : Gen T InstructionInfo} {info : InstructionInfo}
    (hi : info = instructionInfo pc i nextIsTarget)
    (hm : (Mips.exec E.toHelpers pc i v.arch).2 = .continue)
    (hf : falls (lightning E) m (fun a c' h' => a = info ∧
      ∃ v', Ready c' h' v' ∧ Executed E.toHelpers pc i last nextIsTarget v v') c h) :
    wp (lightning E) m (InstructionPost E pc i last first nextIsTarget v) c h := by
  refine wp.mono hf ?_
  rintro a c' o ⟨h', rfl, rfl, hv'⟩
  exact ⟨hi, hm, hv'⟩

/-- An instruction without branch or exit. -/
theorem wp_plain {m : Gen T Unit} (hi : {} = instructionInfo pc i nextIsTarget)
    (ht : Mips.taken i v.arch = false) (hm : (Mips.exec E.toHelpers pc i v.arch).2 = .continue)
    (hf : falls (lightning E) m
      (fun _ c' h' => Ready c' h' { v with arch := (Mips.exec E.toHelpers pc i v.arch).1 }) c h) :
    wp (lightning E) (do m; pure {}) (InstructionPost E pc i last first nextIsTarget v) c h := by
  refine wp_of_falls hi hm (falls_bind (hf.mono ?_))
  intro _ c' h' hS'
  exact falls_pure ⟨rfl, _, hS', .plain hi.symm ht rfl rfl rfl⟩

/-- A branch that is not indirect. -/
theorem wp_branch {m : Gen T InstructionInfo} {info : InstructionInfo}
    (hi : info = instructionInfo pc i nextIsTarget)
    (hb : info.branch) (hind : info.indirect = false)
    (hm : (Mips.exec E.toHelpers pc i v.arch).2 = .continue)
    (huncond : ¬info.conditional → Mips.taken i v.arch)
    (htarget : info.branchTarget = Mips.target pc i v.arch) (hS : Ready c h v)
    (hf : ∀ (v₁ : View T) (c₁ : RegisterCache T) (h₁ : Host T), v₁.arch = v.arch → Ready c₁ h₁ v₁ →
      falls (lightning E) m (fun a c' h' => a = info ∧
        ∃ x, (info.conditional → x = Mips.ofBool (Mips.taken i v.arch)) ∧
          Ready c' h'
            (View.setCond { v₁ with arch := (Mips.exec E.toHelpers pc i v.arch).1 } x)) c₁ h₁) :
    wp (lightning E) (do flushImpossibleDelaySlot last; m)
      (InstructionPost E pc i last first nextIsTarget v) c h := by
  subst hi
  refine wp_of_falls rfl hm (falls_bind ((falls_flushImpossibleDelaySlot hS last).mono ?_))
  rintro _ c₁ h₁ ⟨frame, hsaved, hS₁⟩
  refine (hf (v.setFrame frame) c₁ h₁ rfl hS₁).mono ?_
  rintro a c₂ h₂ ⟨rfl, x, hx, hS₂⟩
  refine ⟨rfl, _, hS₂, .branch hb rfl hx huncond ?_ hsaved rfl⟩
  rw [hind]
  exact htarget

/-- An indirect jump, behind the move of its target. -/
theorem wp_indirect {m : Gen T InstructionInfo} {info : InstructionInfo} {rs : Fin 32}
    (hi : info = instructionInfo pc i nextIsTarget) (hb : info.branch) (hind : info.indirect)
    (hm : (Mips.exec E.toHelpers pc i v.arch).2 = .continue) (ht : Mips.taken i v.arch)
    (htarget : Mips.read v.arch rs = Mips.target pc i v.arch) (hS : Ready c h v)
    (hf : ∀ (v₁ : View T) (c₁ : RegisterCache T) (h₁ : Host T), v₁.arch = v.arch → Ready c₁ h₁ v₁ →
      falls (lightning E) m (fun a c' h' => a = info ∧
        ∃ x, (info.conditional → x = 1#32) ∧
          Ready c' h'
            (View.setCond { v₁ with arch := (Mips.exec E.toHelpers pc i v.arch).1 } x)) c₁ h₁) :
    wp (lightning E) (do flushImpossibleDelaySlot last; jitSaveIndirectRegister rs; m)
      (InstructionPost E pc i last first nextIsTarget v) c h := by
  subst hi
  refine wp_of_falls rfl hm (falls_bind ((falls_flushImpossibleDelaySlot hS last).mono ?_))
  rintro _ c₁ h₁ ⟨frame, hsaved, hS₁⟩
  refine falls_bind ((falls_jitSaveIndirectRegister hS₁ rs).mono ?_)
  rintro _ c₂ h₂ ⟨y, hy, hS₂⟩
  refine (hf ((v.setFrame frame).setIndirectPc y) c₂ h₂ rfl hS₂).mono ?_
  rintro a c₃ h₃ ⟨rfl, x, hx, hS₃⟩
  refine ⟨rfl, _, hS₃, .branch hb rfl (fun hc => (hx hc).trans ?_) (fun _ => ht) ?_ hsaved rfl⟩
  · rw [ht]
    rfl
  · rw [if_pos hind]
    exact hy.trans htarget

theorem wp_jitExit (hS : Ready c h v) :
    wp (lightning E) (do jitExit pc last .break first; pure { handlesDelaySlot := true })
      (InstructionPost E pc .break last first nextIsTarget v) c h := by
  refine wp_bind_outcome ?_
  refine wp_bind ((falls_flushRegisterWindow hS.rep hS.locked).mono ?_)
  rintro _ c₁ h₁ ⟨-, hR₁, hL₁, hC₁, -⟩
  refine wp_bind (falls_op ?_)
  have hR₂ := hR₁.setFree (hC₁.free registerMode) mode_ne_indirectPc
    (BitVec.ofNat _ (modeCode .break))
  obtain ⟨h₃, hx, hnext, hmode, hR₃⟩ := exec_jitExitDynamic (E := E) hR₂ hC₁ pc last first
  refine wp_code (jitExitDynamic_labelFree pc last first) ?_
  have hx' : exec (lightning E) (jitExitDynamic pc last first)
      ((lightning E).step (.movi registerMode (BitVec.ofNat _ (modeCode .break))) h₁) =
        .leave .returnThunk h₃ := hx
  rw [hx']
  exact ⟨_, .nil, c₁, rfl, trivial, rfl, nofun, hC₁, hL₁,
    hmode.trans (Host.set_regs_self _ _ _), hnext, hR₃⟩

/-- The mode as a host word tells the modes apart. -/
theorem ofNat_modeCode_eq {m m' : ReturnMode}
    (hm : BitVec.ofNat T.wordSize (modeCode m) = BitVec.ofNat _ (modeCode m')) :
    m = m' := by
  have hlt (m : ReturnMode) : modeCode m < 4096 := by cases m <;> decide
  have hn := congrArg BitVec.toNat hm
  rw [toNat_ofNat_small (hlt m), toNat_ofNat_small (hlt m')] at hn
  exact modeCode_injective hn

/-- `MFC0` and `MTC0`. -/
theorem wp_emitCop0 {f : Callee} (hf : f.run E.toHelpers v.arch = Mips.exec E.toHelpers pc i v.arch)
    (hi : {} = instructionInfo pc i nextIsTarget) (ht : Mips.taken i v.arch = false)
    (hS : Ready c h v) :
    wp (lightning E) (do emitCop0 f pc last first; pure {})
      (InstructionPost E pc i last first nextIsTarget v) c h := by
  refine wp_bind_outcome ?_
  refine wp_bind ((falls_flushRegisterWindow hS.rep hS.locked).mono ?_)
  rintro _ c₁ h₁ ⟨-, hR₁, hL₁, hC₁, -⟩
  refine wp_bind (falls_op (wp_bind (falls_op ?_)))
  have hu : Uncached c₁ f := fun r _ j hj => absurd hj (hC₁ j)
  have hR₂ := (hR₁.call (E := E) (fun j _ => hC₁ j) hu).setFree
    (hC₁.free registerMode) mode_ne_indirectPc
    (BitVec.ofNat _ (modeCode (f.run E.toHelpers v.arch).2))
  have hmode : (f.run E.toHelpers h₁.st.toArch).2 = (f.run E.toHelpers v.arch).2 := by
    rw [hR₁.rest]
    exact f.run_mode E.toHelpers v.arch h₁.st.sr (hR₁.sr_of_uncached hu)
  have hcall : (lightning E).step (.retval registerMode) ((lightning E).step (.call f) h₁) =
      (stepOp E (.call f) h₁).set registerMode
        (BitVec.ofNat _ (modeCode (f.run E.toHelpers v.arch).2)) := by
    rw [← hmode]
    rfl
  rw [hcall]
  refine wp_code ⟨trivial, jitExitDynamic_labelFree pc last first⟩ ?_
  by_cases hc : (f.run E.toHelpers v.arch).2 = .continue
  · have hcond : (lightning E).holds (.eqi registerMode (BitVec.ofNat _ (modeCode .continue)))
        ((stepOp E (.call f) h₁).set registerMode
          (BitVec.ofNat _ (modeCode (f.run E.toHelpers v.arch).2))) = true := by
      rw [hc]
      exact beq_iff_eq.2 (Host.set_regs_self _ _ _)
    rw [exec, if_pos hcond]
    refine ⟨_, .nil, c₁, rfl, trivial, hi, hf ▸ hc, _, ⟨hR₂, hL₁⟩, .plain hi.symm ht ?_ rfl rfl⟩
    exact congrArg Prod.fst hf
  · have hcond : ¬(lightning E).holds (.eqi registerMode (BitVec.ofNat _ (modeCode .continue)))
        ((stepOp E (.call f) h₁).set registerMode
          (BitVec.ofNat _ (modeCode (f.run E.toHelpers v.arch).2))) := by
      intro hh
      have heq := beq_iff_eq.1 hh
      rw [Host.set_regs_self] at heq
      exact hc (ofNat_modeCode_eq heq)
    obtain ⟨h₃, hx, hnext, hmode₃, hR₃⟩ := exec_jitExitDynamic (E := E) hR₂ hC₁ pc last first
    rw [exec, if_neg hcond, hx]
    rw [hf] at hc hmode₃
    rw [View.call, hf] at hR₃
    exact ⟨_, .nil, c₁, rfl, trivial, hi, hc, hC₁, hL₁,
      hmode₃.trans (Host.set_regs_self _ _ _), hnext, hR₃⟩

theorem ofBool_eq_one {b : Bool} (hb : b) : Mips.ofBool b = 1#32 := by
  rw [hb]
  rfl

/-- The code of every instruction does what the machine does, or leaves
as the machine would go on. -/
theorem wp_jitInstruction (hS : Ready c h v) (pc : Word) (i : Instr) (last : InstructionInfo)
    (first nextIsTarget : Bool) (hserves : E.Serves i v.arch) :
    wp (lightning E) (jitInstruction pc i last first nextIsTarget)
      (InstructionPost E pc i last first nextIsTarget v) c h := by
  cases i with
  | vu op e vd vs vt =>
    exact wp_plain rfl rfl rfl
      ((falls_emitCall (f := .vu op e vd vs vt) hS).mono fun _ _ _ hc => hc.1)
  | shift op rd rt sa => exact wp_plain rfl rfl rfl (falls_emitShift hS op rd rt sa)
  | shiftv op rd rt rs => exact wp_plain rfl rfl rfl (falls_emitShiftv hS op rd rt rs)
  | alu op rd rs rt => exact wp_plain rfl rfl rfl (falls_emitAlu hS op rd rs rt)
  | imm op rt rs x => exact wp_plain rfl rfl rfl (falls_emitImm hS op rt rs x)
  | lui rt x =>
    have hx := holds_signExtend (T := T) (x.setWidth 32 <<< 16) le_rfl
    have hf := falls_emitConstant (E := E) hS rt hx.2
    rw [hx.1, BitVec.signExtend_eq] at hf
    exact wp_plain rfl rfl rfl hf
  | jr rs =>
    refine wp_indirect rfl rfl rfl rfl rfl rfl hS fun v₁ c₁ h₁ harch hS₁ => ?_
    refine falls_bind ((falls_emitJumpCondition hS₁ nextIsTarget).mono fun _ c₂ h₂ hS₂ => ?_)
    refine falls_pure ⟨rfl, _, ofBool_eq_one, ?_⟩
    rwa [Mips.exec, ← harch]
  | jalr rd rs =>
    refine wp_indirect rfl rfl rfl rfl rfl rfl hS fun v₁ c₁ h₁ harch hS₁ => ?_
    have hlink : falls (lightning E) (Emit.when (rd ≠ 0) (emitLink rd pc))
        (fun _ c' h' => Ready c' h' (v₁.write rd (Mips.linkPc pc))) c₁ h₁ := by
      refine falls_when (fun h0 => falls_emitLink hS₁ h0 pc) fun h0 => ?_
      rw [not_not.1 h0]
      exact hS₁
    refine falls_bind (hlink.mono fun _ c₂ h₂ hS₂ => ?_)
    refine falls_bind ((falls_emitJumpCondition hS₂ nextIsTarget).mono fun _ c₃ h₃ hS₃ => ?_)
    refine falls_pure ⟨rfl, _, ofBool_eq_one, ?_⟩
    rwa [Mips.exec, ← harch]
  | j instr =>
    refine wp_branch rfl rfl rfl rfl (fun _ => rfl) rfl hS fun v₁ c₁ h₁ harch hS₁ => ?_
    refine falls_bind ((falls_emitJumpCondition hS₁ nextIsTarget).mono fun _ c₂ h₂ hS₂ => ?_)
    refine falls_pure ⟨rfl, _, ofBool_eq_one, ?_⟩
    rwa [Mips.exec, ← harch]
  | jal instr =>
    refine wp_branch rfl rfl rfl rfl (fun _ => rfl) rfl hS fun v₁ c₁ h₁ harch hS₁ => ?_
    refine falls_bind ((falls_immediateMipsRegister hS₁.rep hS₁.locked
      (by simp) (by simp) (hasSign_linkPc pc)).mono ?_)
    rintro _ c₂ h₂ ⟨hR₂, hL₂⟩
    refine falls_bind ((falls_immediateMipsRegister hR₂ hL₂
      (by simp) (by simp) (hasSign_flag nextIsTarget)).mono ?_)
    rintro _ c₃ h₃ ⟨hR₃, hL₃⟩
    rw [low_flag, View.put_cond, low_immediate] at hR₃
    refine falls_bind ((falls_unlockMipsRegister hR₃ hL₃ (.refl _)).mono ?_)
    rintro _ c₄ h₄ ⟨rfl, hR₄, hL₄, -, -⟩
    refine falls_bind ((falls_unlock hR₄ hL₄).mono fun _ c₅ h₅ hS₅ => ?_)
    refine falls_pure ⟨rfl, _, ofBool_eq_one, ?_⟩
    rw [Mips.exec, ← harch]
    exact hS₅
  | regimm z link rs instr =>
    refine wp_branch rfl rfl rfl rfl (fun hn => absurd rfl hn) rfl hS fun v₁ c₁ h₁ harch hS₁ => ?_
    refine falls_bind ((falls_emitZeroBranch hS₁ rs (zeroCond_eval z)).mono fun _ c₂ h₂ hS₂ => ?_)
    refine falls_bind (falls_when (fun hl => ?_) fun hl => ?_)
    · refine (falls_emitLink hS₂ (by decide) pc).mono fun _ c₃ h₃ hS₃ => ?_
      refine falls_pure ⟨rfl, _, fun _ => rfl, ?_⟩
      rw [Mips.exec, if_pos hl, ← harch]
      exact hS₃
    · refine falls_pure ⟨rfl, _, fun _ => rfl, ?_⟩
      rw [Mips.exec, if_neg hl, ← harch]
      exact hS₂
  | beq rs rt instr =>
    refine wp_branch rfl rfl rfl rfl (fun hn => absurd rfl hn) rfl hS fun v₁ c₁ h₁ harch hS₁ => ?_
    have heq (a b : BitVec T.wordSize) (x y : Word) (ha : Holds .sExt a x) (hb : Holds .sExt b y) :
        BinOp.eq.eval a b = flag (x == y) := congrArg flag (ha.beq hb)
    refine falls_bind ((falls_emitRegBranch hS₁ rs rt heq).mono fun _ c₂ h₂ hS₂ => ?_)
    refine falls_pure ⟨rfl, _, fun _ => rfl, ?_⟩
    rwa [Mips.exec, Mips.taken, ← harch]
  | bne rs rt instr =>
    refine wp_branch rfl rfl rfl rfl (fun hn => absurd rfl hn) rfl hS fun v₁ c₁ h₁ harch hS₁ => ?_
    have hne (a b : BitVec T.wordSize) (x y : Word) (ha : Holds .sExt a x) (hb : Holds .sExt b y) :
        BinOp.ne.eval a b = flag (x != y) := congrArg (fun p => flag !p) (ha.beq hb)
    refine falls_bind ((falls_emitRegBranch hS₁ rs rt hne).mono fun _ c₂ h₂ hS₂ => ?_)
    refine falls_pure ⟨rfl, _, fun _ => rfl, ?_⟩
    rwa [Mips.exec, Mips.taken, ← harch]
  | blez rs instr =>
    refine wp_branch rfl rfl rfl rfl ?_ rfl hS fun v₁ c₁ h₁ harch hS₁ => ?_
    · intro hn
      have h0 : rs = 0 := not_not.1 fun h0 => hn (decide_eq_true h0)
      rw [Mips.taken, h0]
      rfl
    · refine falls_bind (falls_when (fun h0 => ?_) fun h0 => ?_)
      · have hle (a : BitVec T.wordSize) (x : Word) (ha : Holds .sExt a x) :
            BinOp.le.eval a 0#_ = flag (x.sle 0#32) :=
          congrArg flag (ha.sle (.zero .sExt))
        refine (falls_emitZeroBranch hS₁ rs hle).mono fun _ c₂ h₂ hS₂ => ?_
        refine falls_pure ⟨rfl, _, fun _ => rfl, ?_⟩
        rwa [Mips.exec, Mips.taken, ← harch]
      · refine falls_pure ⟨rfl, v₁.cond, fun hn => absurd (of_decide_eq_true hn) h0, ?_⟩
        rwa [Mips.exec, ← harch]
  | bgtz rs instr =>
    by_cases h0 : rs = 0
    · have hinfo : {} = instructionInfo pc (.bgtz rs instr) nextIsTarget := by
        rw [instructionInfo, if_pos h0]
      refine wp_of_falls hinfo rfl ?_
      refine falls_bind ((falls_flushImpossibleDelaySlot hS last).mono ?_)
      rintro _ c₁ h₁ ⟨frame, -, hS₁⟩
      rw [if_pos h0]
      refine falls_pure ⟨rfl, _, hS₁, .plain (by rw [instructionInfo, if_pos h0]) ?_ rfl rfl rfl⟩
      rw [Mips.taken, h0]
      rfl
    · refine wp_branch
        (Eq.refl (instructionInfo pc (.bgtz rs instr) nextIsTarget)) ?_ ?_ rfl ?_ ?_ hS
        fun v₁ c₁ h₁ harch hS₁ => ?_
      · rw [instructionInfo, if_neg h0]
      · rw [instructionInfo, if_neg h0]
      · rw [instructionInfo, if_neg h0]
        exact fun hn => absurd rfl hn
      · rw [instructionInfo, if_neg h0]
        rfl
      · rw [if_neg h0, instructionInfo, if_neg h0]
        have hgt (a : BitVec T.wordSize) (x : Word) (ha : Holds .sExt a x) :
            BinOp.gt.eval a 0#_ = flag (!x.sle 0#32) := by
          refine congrArg flag (((Holds.zero .sExt).slt ha).trans ?_)
          rw [BitVec.sle_eq_not_slt, Bool.not_not]
        refine falls_bind ((falls_emitZeroBranch hS₁ rs hgt).mono fun _ c₂ h₂ hS₂ => ?_)
        refine falls_pure ⟨rfl, _, fun _ => rfl, ?_⟩
        rwa [Mips.exec, Mips.taken, ← harch]
  | «break» => exact wp_jitExit hS
  | mfc0 rt rd => exact wp_emitCop0 (f := .mfc0 rt rd) rfl rfl rfl hS
  | mtc0 rt rd => exact wp_emitCop0 (f := .mtc0 rt rd) rfl rfl rfl hS
  | mfc2 rt rd e =>
      exact wp_plain rfl rfl rfl
        ((falls_emitCall (f := .mfc2 rt rd e) hS).mono fun _ _ _ hc => hc.1)
  | mtc2 rt rd e =>
      exact wp_plain rfl rfl rfl
        ((falls_emitCall (f := .mtc2 rt rd e) hS).mono fun _ _ _ hc => hc.1)
  | cfc2 rt rd =>
      exact wp_plain rfl rfl rfl ((falls_emitCall (f := .cfc2 rt rd) hS).mono fun _ _ _ hc => hc.1)
  | ctc2 rt rd =>
      exact wp_plain rfl rfl rfl ((falls_emitCall (f := .ctc2 rt rd) hS).mono fun _ _ _ hc => hc.1)
  | load op rt rs x => exact wp_plain rfl rfl rfl (falls_jitEmitLoadOperation hS op rt rs x hserves)
  | store op rt rs x =>
    exact wp_plain rfl rfl rfl (falls_jitEmitStoreOperation hS op rt rs x hserves)
  | lwc2 op e rt rs offset =>
    exact wp_plain rfl rfl rfl
      ((falls_emitCall (f := .lwc2 op e rt rs offset) hS).mono fun _ _ _ hc => hc.1)
  | swc2 op e rt rs offset =>
    exact wp_plain rfl rfl rfl
      ((falls_emitCall (f := .swc2 op e rt rs offset) hS).mono fun _ _ _ hc => hc.1)
  | nop => exact wp_of_falls rfl rfl (falls_pure ⟨rfl, _, hS, .plain rfl rfl rfl rfl rfl⟩)

end Instructions

end ParallelRsp.Jit
