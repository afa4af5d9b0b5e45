import ParallelRsp.Jit.BranchRules
import ParallelRsp.Jit.Region

/-!
# Behind a delay slot and between regions

What the code does that performs branches. Each piece first flushes the register cache and
then works with the registers that it had loaded before: a flush leaves the host registers
as they are, so their values can still be used, and any register may be overwritten.

`HandsOver` is what a region that is left tells the next one.
-/

namespace ParallelRsp.Jit

open Codegen

variable {T : Target} {E : Env T} {c c' : RegisterCache T} {h h' : Host T} {v v' : View T}

/-- The host is about to enter the region at `next`, with a branch to `slot` pending. -/
structure HandsOver (h' : Host T) (v : View T) (next : Word) (slot : Option Word) : Prop where
  /-- Where to go. -/
  next : low (h'.regs registerNextPc) = next
  /-- Registers, memories and the branch. -/
  state : ∃ c' v', Clean c' ∧ Rep c' h' v' ∧ v'.arch = v.arch ∧ v'.control.log = v.control.log ∧
    inheritedTarget v' = slot

/-- `has_delay_slot` is a truth value, if the condition of the branch handed over is one. -/
def Flagged (info : InstructionInfo) (v : View T) (h' : Host T) : Prop :=
  (info.conditional → v.cond = 0#32 ∨ v.cond = 1#32) → h'.st.hasDelaySlot = 0#32 ∨
    h'.st.hasDelaySlot = 1#32

theorem Rep.flagged {info : InstructionInfo} {y : Word}
    (hR : Rep c h v') (hf : v'.control.hasDelaySlot = y)
    (hy : y = 0#32 ∨ y = 1#32 ∨ (info.conditional ∧ y = v.cond)) : Flagged info v h := by
  intro hc
  rw [show h.st.hasDelaySlot = y from (hR.field_eq .hasDelaySlot).trans hf]
  rcases hy with hy | hy | ⟨hi, rfl⟩
  · exact .inl hy
  · exact .inr hy
  · exact hc hi

/-- Nothing is in the cache, and nothing is locked. -/
structure Empty (c : RegisterCache T) : Prop where
  /-- No entries. -/
  clean : Clean c
  /-- No locks. -/
  locked : Locked c []

theorem falls_flush (hS : Ready c h v) :
    falls (lightning E) flushRegisterWindow (fun _ c' h' => h'.regs = h.regs ∧
      Rep c' h' v ∧ Empty c') c h := by
  refine (falls_flushRegisterWindow hS.rep hS.locked).mono ?_
  rintro _ c₁ h₁ ⟨hregs, hR, hL, hC, -⟩
  exact ⟨hregs, hR, hC, hL⟩

theorem Empty.ready (he : Empty c) (hR : Rep c h v) : Ready c h v := ⟨hR, he.locked⟩

theorem Rep.setAny (hR : Rep c h v) (he : Empty c) {d : HReg}
    (hd : d ≠ registerIndirectPc) (x : BitVec T.wordSize) :
    Rep c (h.set d x) v := hR.setFree (he.clean.free d) hd x

theorem At.ne_indirectPc {r : ℕ} {d : HReg} {s : SignState} (hA : At c r d s) :
    d ≠ registerIndirectPc := by
  obtain ⟨i, -, -, rfl, -⟩ := hA
  exact home_ne_indirectPc i

theorem low_zero : low (0#T.wordSize) = 0#32 := BitVec.setWidth_zero _ _

theorem low_one : low (1#T.wordSize) = 1#32 := low_flag true

/-! ### The check behind the first instruction -/

theorem wp_jitCheckDelaySlot (hS : Ready c h v) :
    wp (lightning E) jitCheckDelaySlot
      (fun _ c' o => Empty c' ∧ ∃ h', Rep c' h' v ∧
        o = if v.control.hasDelaySlot = 0#32 then .fall h' else .goto .latent h') c h := by
  refine wp_bind ((falls_modifyScratch hS.rep hS.locked cond_lt_scratch0 (by simp)).mono ?_)
  rintro s c₁ h₁ ⟨-, hW, hL₁, -, -⟩
  have hhds : h₁.field .hasDelaySlot = v.control.hasDelaySlot := (hW 0#_).field_eq .hasDelaySlot
  refine wp_bind (falls_op (wp_bind ((falls_unlockMipsRegister (hW _) hL₁ (.refl _)).mono ?_)))
  rintro _ c₂ h₂ ⟨rfl, hR₂, hL₂, -, -⟩
  refine wp_bind ((falls_flush ⟨hR₂, hL₂⟩).mono ?_)
  rintro _ c₃ h₃ ⟨hregs₃, hR₃, he⟩
  have hs : h₃.regs s = extend T true v.control.hasDelaySlot := by
    rw [hregs₃, ← hhds]
    exact Host.set_regs_self _ _ _
  refine wp_code trivial ⟨he, h₃, hR₃, ?_⟩
  by_cases h0 : v.control.hasDelaySlot = 0#32
  · rw [if_pos h0]
    simp [exec, holdsCond, hs, h0, extend_zero]
  · rw [if_neg h0]
    simp [exec, holdsCond, hs, h0, extend_eq_zero]

/-! ### Delay slots -/

/-- Go where a branch goes, through the thunk. -/
theorem exec_loadTarget_leave (hR : Rep c h v) (he : Empty c) (last : InstructionInfo) :
    ∃ h', exec (lightning E) (.block [loadTarget registerNextPc last, .leave .enterThunk]) h =
      .leave .enterThunk h' ∧
      low (h'.regs registerNextPc) = (if last.indirect then low v.control.indirectPc
        else last.branchTarget) ∧
      Rep c h' v := by
  obtain ⟨x, hx, hlow⟩ := exec_loadTarget (E := E) last registerNextPc h hR
  refine ⟨h.set registerNextPc x, ?_, ?_, hR.setAny he nextPc_ne_indirectPc x⟩
  · simp [Code.block, exec, hx]
  · rw [h.set_regs_self, hlow]

/-- The condition of the branch before, moved to a scratch register and cleared. -/
theorem falls_clearCondition {α : Type} {m : HReg → Gen T α}
    {Q : α → RegisterCache T → Outcome Label Exit (Host T) → Prop} (hS : Ready c h v)
    (hQ : ∀ s c' h', (h'.regs s = 0#_ ↔ v.cond = 0#32) → Rep c' h' (v.setCond 0#32) → Empty c' →
      wp (lightning E) (m s) Q c' h') :
    wp (lightning E) (do
      let _ ← loadMipsRegisterNoext condBranchTaken
      let d ← modifyMipsRegister condBranchTaken
      let s ← modifyMipsRegister scratchRegister0
      Emit.op (.movr s d)
      Emit.op (.movi d 0#_)
      unlockMipsRegister condBranchTaken
      unlockMipsRegister condBranchTaken
      unlockMipsRegister scratchRegister0
      flushRegisterWindow
      m s) Q c h := by
  refine wp_bind ((falls_loadCond hS.rep hS.locked (by simp)).mono ?_)
  rintro d₁ c₁ h₁ ⟨hR₁, hL₁, hA₁, -⟩
  have hzero := (hR₁.at_cond hA₁).2
  refine wp_bind ((falls_modifyMipsRegister hR₁ hL₁ (by simp) (by simp)).mono ?_)
  rintro d c₂ h₂ ⟨hregs₂, hW₂, hL₂, hO₂, hK₂⟩
  -- the entry is the one just loaded, so it holds the condition
  have hd : d₁ = d := by
    obtain ⟨i, hil, hir, rfl, -⟩ := hK₂.stay condBranchTaken (.inl (by simp)) d₁ _ hA₁ fun _ => rfl
    obtain ⟨j, hjl, hjr, rfl, -⟩ := hO₂
    rw [(hW₂ 0#_ fun _ => hasSign_zero _).distinct i j hil hjl (hir.trans hjr.symm)]
  subst hd
  have hR₂ : Rep c₂ h₂ v := by
    obtain ⟨i, hil, hir, rfl, -⟩ := hA₁
    have hR := hW₂ (h₁.regs (home i)) fun _ => (hR₁.entry i hil).cond hir
    rwa [(hR₁.entry i hil).value hir.le, hir, ← hregs₂, Host.set_self, View.put_cond] at hR
  refine wp_bind ((falls_modifyScratch hR₂ hL₂ cond_lt_scratch0 (by simp)).mono ?_)
  rintro s c₃ h₃ ⟨hregs₃, hW₃, hL₃, hO₃, hK₃⟩
  have hD₃ := hK₃.owned condBranchTaken (.inl (by simp)) (by decide) d₁ hO₂
  have hds : s ≠ d₁ := hO₃.at.ne hD₃.at (by decide)
  refine wp_bind (falls_op (wp_bind (falls_op ?_)))
  have hR₄ := hD₃.writable (hW₃ (h₃.regs d₁)) (by decide) 0#_ fun _ => hasSign_zero _
  rw [View.put_cond, low_zero] at hR₄
  refine wp_bind ((falls_unlockMipsRegister hR₄ hL₃ (.refl _)).mono ?_)
  rintro _ c₄ h₄ ⟨rfl, hR₅, hL₄, -, -⟩
  refine wp_bind ((falls_unlockMipsRegister hR₅ hL₄ (.refl _)).mono ?_)
  rintro _ c₅ h₅ ⟨rfl, hR₆, hL₅, -, -⟩
  refine wp_bind ((falls_unlockMipsRegister hR₆ hL₅ (.refl _)).mono ?_)
  rintro _ c₆ h₆ ⟨rfl, hR₇, hL₆, -, -⟩
  refine wp_bind ((falls_flush ⟨hR₇, hL₆⟩).mono ?_)
  rintro _ c₇ h₇ ⟨hregs₇, hR₈, he⟩
  refine hQ s c₇ h₇ ?_ hR₈ he
  rw [hregs₇, Host.set_regs_of_ne _ _ hds, Host.set_regs_self, hregs₃, hregs₂]
  exact hzero

/-- The branch before is performed, and its condition cleared. -/
theorem wp_jitHandleDelaySlot (hS : Ready c h v) (R : Region)
    {last : InstructionInfo} (hb : last.branch) :
    wp (lightning E) (jitHandleDelaySlot R last)
      (fun _ c' o => Empty c' ∧ ∃ h', Rep c' h' (v.setCond 0#32) ∧
        match pendingTarget last v with
        | none => o = .fall h'
        | some t =>
          match R.localLabel last with
          | some l => o = .goto l h'
          | none => o = .leave .enterThunk h' ∧ low (h'.regs registerNextPc) = t) c h := by
  rw [jitHandleDelaySlot]
  by_cases hc : last.conditional
  · rw [if_pos hc]
    refine falls_clearCondition hS fun s c₁ h₁ hzero hR₁ he => ?_
    cases hl : R.localLabel last with
    | some l =>
      refine wp_code trivial ⟨he, h₁, hR₁, ?_⟩
      by_cases h0 : v.cond = 0#32
      · rw [pendingTarget_of_not_taken fun _ => ⟨hc, h0⟩]
        simp [exec, holdsCond, hzero.2 h0]
      · rw [pendingTarget_of_taken hb fun _ => h0]
        have hne : h₁.regs s ≠ 0#_ := fun hn => h0 (hzero.1 hn)
        simp [exec, holdsCond, hne]
    | none =>
      refine wp_code ⟨trivial, trivial, trivial, trivial⟩ ⟨he, ?_⟩
      by_cases h0 : v.cond = 0#32
      · rw [pendingTarget_of_not_taken fun _ => ⟨hc, h0⟩]
        refine ⟨h₁, hR₁, ?_⟩
        simp [exec, holdsCond, hzero.2 h0]
      · rw [pendingTarget_of_taken hb fun _ => h0]
        have hne : ¬(lightning E).holds (.eqi s 0#_) h₁ := fun hn => h0 (hzero.1 (beq_iff_eq.1 hn))
        obtain ⟨h₂, hx, hlow, hR₂⟩ := exec_loadTarget_leave (E := E) hR₁ he last
        refine ⟨h₂, hR₂, ?_, hlow⟩
        rw [exec, if_neg hne]
        exact hx
  · rw [if_neg hc]
    refine wp_bind ((falls_modifyMipsRegister hS.rep hS.locked (by simp) (by simp)).mono ?_)
    rintro d c₁ h₁ ⟨-, hW₁, hL₁, -, -⟩
    have hR₁ := hW₁ 0#_ fun _ => hasSign_zero _
    rw [View.put_cond, low_zero] at hR₁
    refine wp_bind (falls_op (wp_bind ((falls_unlock hR₁ hL₁).mono fun _ c₂ h₂ hS₂ => ?_)))
    refine wp_bind ((falls_flush hS₂).mono ?_)
    rintro _ c₃ h₃ ⟨-, hR₃, he⟩
    rw [pendingTarget_of_taken hb fun hn => absurd hn hc]
    cases hl : R.localLabel last with
    | some l => exact wp_code trivial ⟨he, h₃, hR₃, rfl⟩
    | none =>
      obtain ⟨h₄, hx, hlow, hR₄⟩ := exec_loadTarget_leave (E := E) hR₃ he last
      exact wp_code ⟨trivial, trivial, trivial⟩ ⟨he, h₄, hR₄, hx, hlow⟩

/-! ### Between regions -/

/-- One register taken up leaves entries to spare. -/
theorem Clean.spare (hC : Clean c) (hone : ∃ i, ∀ j, j ≠ i → c'.entries j = c.entries j) :
    Spare c' := by
  obtain ⟨i, hi⟩ := hone
  have h3 : 3 ≤ T.numFree := T.enough
  obtain ⟨j, hj⟩ : ∃ j : Fin T.numFree, j ≠ i := by
    by_cases h0 : i.val = 0
    · exact ⟨⟨1, by omega⟩, fun hji =>
        absurd (congrArg Fin.val hji) (by rw [h0]; exact Nat.one_ne_zero)⟩
    · exact ⟨⟨0, by omega⟩, fun hji => h0 (congrArg Fin.val hji).symm⟩
  exact ⟨j, by rw [hi j hj]; exact hC j⟩

/-- The condition is in a register, and stays there when another one is taken up. -/
theorem falls_loadCondition (hR : Rep c h v) (he : Empty c)
    (last : InstructionInfo) (other : HReg) :
    falls (lightning E) (loadCondition last other)
      (fun d c' h' => Ready c' h' v ∧
        if last.branch ∧ last.conditional then At c' condBranchTaken d .unknown ∧
          Spare c' else d = other) c h := by
  by_cases hb : last.branch ∧ last.conditional
  · rw [loadCondition, if_pos hb]
    refine falls_bind ((falls_loadCond hR he.locked (by simp)).mono ?_)
    rintro d c₁ h₁ ⟨hR₁, hL₁, hA₁, hK₁⟩
    refine falls_bind ((falls_unlockMipsRegister hR₁ hL₁ (.refl _)).mono ?_)
    rintro _ c₂ h₂ ⟨rfl, hR₂, hL₂, hA₂, hSp₂⟩
    refine falls_pure ⟨⟨hR₂, hL₂⟩, ?_⟩
    rw [if_pos hb]
    exact ⟨hA₂ _ _ _ hA₁, hSp₂ (he.clean.spare hK₁.one)⟩
  · rw [loadCondition, if_neg hb]
    refine falls_pure ⟨he.ready hR, ?_⟩
    rw [if_neg hb]

/-- The state with a pending branch handed over. -/
def View.handOver (v : View T) (slot : Option Word) : View T :=
  match slot with
  | none => v
  | some t => (v.setField .branchTarget t).setField .hasDelaySlot 1#32

theorem inheritedTarget_handOver (h0 : v.control.hasDelaySlot = 0#32) (slot : Option Word) :
    inheritedTarget (v.handOver slot) = slot := by
  cases slot with
  | none => exact if_pos h0
  | some t => exact if_neg (show (1#32 : Word) ≠ 0#32 by decide)

theorem exec_handOver (hR : Rep c h v) (he : Empty c) (last : InstructionInfo) {cond s : HReg}
    (hs : s ≠ registerIndirectPc) (hcond : last.branch →
      last.conditional → (h.regs cond = 0#_ ↔ v.cond = 0#32)) :
    ∃ h', exec (lightning E) (handOver last cond s) h = .fall h' ∧
      Rep c h' (v.handOver (pendingTarget last v)) := by
  obtain ⟨x, hx, hlow⟩ := exec_loadTarget (E := E) last s h hR
  have hsave (ht : pendingTarget last v = some (low x)) :
      ∃ h', exec (lightning E)
        (.block [loadTarget s last, .op (.stField .branchTarget s), .op (.movi s 1#_),
        .op (.stField .hasDelaySlot s)]) h = .fall h' ∧
          Rep c h' (v.handOver (pendingTarget last v)) := by
    refine ⟨(((h.set s x).setField .branchTarget (low x)).set s 1#_).setField
      .hasDelaySlot 1#32, ?_, ?_⟩
    · simp [Code.block, exec, hx, stepOp, low_one]
    · rw [ht]
      exact (((hR.setAny he hs x).setField .branchTarget (low x)).setAny he hs 1#_).setField
        .hasDelaySlot 1#32
  by_cases hb : last.branch
  · by_cases hc : last.conditional
    · by_cases h0 : v.cond = 0#32
      · refine ⟨h, ?_, ?_⟩
        · simp [handOver, hb, hc, exec, holdsCond, (hcond hb hc).2 h0]
        · rw [pendingTarget_of_not_taken fun _ => ⟨hc, h0⟩]
          exact hR
      · obtain ⟨h', hx', hR'⟩ := hsave (by rw [pendingTarget_of_taken hb fun _ => h0, hlow])
        refine ⟨h', ?_, hR'⟩
        have hne : ¬(lightning E).holds (.eqi cond 0#_) h :=
          fun hn => h0 ((hcond hb hc).1 (beq_iff_eq.1 hn))
        rw [handOver, if_pos hb, if_pos hc, exec, if_neg hne]
        exact hx'
    · obtain ⟨h', hx', hR'⟩ :=
        hsave (by rw [pendingTarget_of_taken hb fun hn => absurd hn hc, hlow])
      refine ⟨h', ?_, hR'⟩
      rw [handOver, if_pos hb, if_neg hc]
      exact hx'
  · refine ⟨h, ?_, ?_⟩
    · rw [handOver, if_neg hb]
      rfl
    · rw [pendingTarget_of_not_taken fun hn => absurd hn hb]
      exact hR

theorem handOver_labelFree (last : InstructionInfo) (cond s : HReg) :
    (handOver last cond s : HostCode T).labelFree := by
  rw [handOver]
  repeat' split
  all_goals simp [Code.block, Code.labelFree, loadTarget]

theorem HandsOver.of_rep {next : Word} {slot : Option Word}
    (hn : low (h.regs registerNextPc) = next) (hR : Rep c h v')
    (he : Empty c) (harch : v'.arch = v.arch) (hlog : v'.control.log = v.control.log)
    (hslot : inheritedTarget v' = slot) : HandsOver h v next slot :=
  ⟨hn, c, v', he.clean, hR, harch, hlog, hslot⟩

theorem View.handOver_arch (v : View T) (slot : Option Word) : (v.handOver slot).arch = v.arch := by
  cases slot <;> rfl

theorem View.handOver_log (v : View T) (slot : Option Word) :
    (v.handOver slot).control.log = v.control.log := by
  cases slot <;> rfl

/-- The end of a region hands a pending branch over. -/
theorem wp_jitEndOfBlock (hR : Rep c h v) (he : Empty c)
    (h0 : v.control.hasDelaySlot = 0#32) (pc : Word) (last : InstructionInfo) :
    wp (lightning E) (jitEndOfBlock pc last)
      (fun _ c' o => Empty c' ∧ ∃ h', o = .leave .enterThunk h' ∧
        HandsOver h' v pc (pendingTarget last v)) c h := by
  refine wp_bind ((falls_loadCondition hR he last (.R 0)).mono ?_)
  rintro d c₁ h₁ ⟨hS₁, hd₁⟩
  refine wp_bind ((falls_modifyScratch hS₁.rep hS₁.locked cond_lt_scratch0 (by simp)).mono ?_)
  rintro s c₂ h₂ ⟨hregs₂, hW₂, hL₂, hO₂, hK₂⟩
  have hR₂ := hW₂ (h₂.regs s)
  rw [Host.set_self] at hR₂
  refine wp_bind ((falls_unlockMipsRegister hR₂ hL₂ (.refl _)).mono ?_)
  rintro _ c₃ h₃ ⟨rfl, hR₃, hL₃, -, -⟩
  refine wp_bind ((falls_flush ⟨hR₃, hL₃⟩).mono ?_)
  rintro _ c₄ h₄ ⟨hregs₄, hR₄, he₄⟩
  have hcond : last.branch → last.conditional → (h₄.regs d = 0#_ ↔ v.cond = 0#32) := by
    intro hb hc
    rw [if_pos ⟨hb, hc⟩] at hd₁
    rw [hregs₄]
    exact (hR₂.at_cond (hK₂.stay _ (.inr hd₁.2) d _ hd₁.1 fun _ => rfl)).2
  obtain ⟨h₅, hx, hR₅⟩ := exec_handOver (E := E) hR₄ he₄ last hO₂.at.ne_indirectPc hcond
  refine wp_code ⟨handOver_labelFree _ _ _, trivial, trivial, trivial⟩
    ⟨he₄, h₅.set registerNextPc (immediate pc), ?_, ?_⟩
  · rw [Code.block, exec, hx]
    rfl
  · refine .of_rep ?_ (hR₅.setAny he₄ nextPc_ne_indirectPc _) he₄
      (v.handOver_arch _) (v.handOver_log _)
      (inheritedTarget_handOver h0 _)
    rw [h₅.set_regs_self, low_immediate]

/-- The target of a branch, taken or not. -/
def branchTo (last : InstructionInfo) (v : View T) : Word :=
  if last.indirect then low v.control.indirectPc else last.branchTarget

/-- A branch handed over is performed, and another one takes its place. -/
theorem exec_passOn (hR : Rep c h v) (he : Empty c) (last : InstructionInfo) {d : HReg} {y : Word}
    (hd : low (h.regs d) = y) :
    ∃ h', exec (lightning E)
      (.block [.op (.stField .hasDelaySlot d), .op (.ldField registerNextPc .branchTarget),
        loadTarget registerMode last, .op (.stField .branchTarget registerMode),
        .leave .enterThunk]) h =
      .leave .enterThunk h' ∧ low (h'.regs registerNextPc) = v.control.branchTarget ∧
      Rep c h' ((v.setField .hasDelaySlot y).setField .branchTarget (branchTo last v)) := by
  have hR₁ := (hR.setField .hasDelaySlot y).setAny he nextPc_ne_indirectPc
    (extend T true v.control.branchTarget)
  have hbt : (h.setField .hasDelaySlot y).field .branchTarget = v.control.branchTarget :=
    (hR.setField .hasDelaySlot y).field_eq .branchTarget
  obtain ⟨x, hx, hlow⟩ := exec_loadTarget (E := E) last registerMode
    ((h.setField .hasDelaySlot y).set registerNextPc (extend T true v.control.branchTarget)) hR₁
  have hlow' : low x = branchTo last v := hlow
  have hR₂ := (hR₁.setAny he mode_ne_indirectPc x).setField .branchTarget (branchTo last v)
  refine ⟨_, ?_, ?_, hR₂⟩
  · simp [Code.block, exec, stepOp, hd, hbt, hx, hlow']
  · have hnext :
      (((h.setField .hasDelaySlot y).set registerNextPc (extend T true v.control.branchTarget)).set
        registerMode x).regs registerNextPc = extend T true v.control.branchTarget := by
      rw [Host.set_regs_of_ne _ x mode_ne_nextPc.symm, Host.set_regs_self]
    exact (congrArg low hnext).trans (low_extend true _)

theorem pendingTarget_eq {last : InstructionInfo} (hb : last.branch) :
    pendingTarget last v =
      if (if last.conditional then v.cond else 1#32) = 0#32 then none
      else some (branchTo last v) := by
  by_cases hc : last.conditional
  · rw [if_pos hc]
    by_cases h0 : v.cond = 0#32
    · rw [if_pos h0]
      exact pendingTarget_of_not_taken fun _ => ⟨hc, h0⟩
    · rw [if_neg h0]
      exact pendingTarget_of_taken hb fun _ => h0
  · rw [if_neg hc]
    exact pendingTarget_of_taken hb fun hn => absurd hn hc

/-- The branch handed over is performed behind the first instruction. -/
theorem wp_jitHandleLatentDelaySlot (hR : Rep c h v) (he : Empty c) (last : InstructionInfo) :
    wp (lightning E) (jitHandleLatentDelaySlot last)
      (fun _ c' o => Empty c' ∧ ∃ h', o = .leave .enterThunk h' ∧
        HandsOver h' v v.control.branchTarget (pendingTarget last v) ∧ Flagged last v h') c h := by
  refine wp_bind ((falls_loadCondition hR he last registerNextPc).mono ?_)
  rintro d c₁ h₁ ⟨hS₁, hd₁⟩
  refine wp_bind ((falls_flush hS₁).mono ?_)
  rintro _ c₂ h₂ ⟨hregs₂, hR₂, he₂⟩
  by_cases hb : last.branch
  · rw [if_pos hb]
    by_cases hc : last.conditional
    · rw [if_pos hc]
      rw [if_pos ⟨hb, hc⟩] at hd₁
      have hd : low (h₂.regs d) = v.cond := by
        rw [hregs₂]
        exact (hS₁.rep.at_cond hd₁.1).1
      obtain ⟨h₃, hx, hnext, hR₃⟩ := exec_passOn (E := E) hR₂ he₂ last hd
      refine wp_code (by simp [Code.block, Code.labelFree, loadTarget])
        ⟨he₂, h₃, hx, .of_rep hnext hR₃ he₂ rfl rfl ?_, hR₃.flagged rfl (.inr (.inr ⟨hc, rfl⟩))⟩
      rw [pendingTarget_eq hb, if_pos hc]
      rfl
    · rw [if_neg hc]
      rw [if_neg fun hn => hc hn.2] at hd₁
      subst hd₁
      have hd : low ((h₂.set registerNextPc 1#_).regs registerNextPc) = 1#32 := by
        rw [Host.set_regs_self, low_one]
      obtain ⟨h₃, hx, hnext, hR₃⟩ :=
        exec_passOn (E := E) (hR₂.setAny he₂ nextPc_ne_indirectPc 1#_) he₂ last hd
      refine wp_code (by simp [Code.block, Code.labelFree, loadTarget])
        ⟨he₂, h₃, hx, .of_rep hnext hR₃ he₂ rfl rfl ?_, hR₃.flagged rfl (.inr (.inl rfl))⟩
      rw [pendingTarget_eq hb, if_neg hc]
      rfl
  · rw [if_neg hb]
    have hR₃ := (((hR₂.setAny he₂ nextPc_ne_indirectPc 0#_).setField .hasDelaySlot 0#32)).setAny he₂
      nextPc_ne_indirectPc (extend T true v.control.branchTarget)
    have hbt : ((h₂.set registerNextPc 0#_).setField .hasDelaySlot 0#32).field .branchTarget =
        v.control.branchTarget :=
      hR₂.field_eq .branchTarget
    refine wp_code (by simp [Code.block, Code.labelFree])
      ⟨he₂, _, ?_, .of_rep ?_ hR₃ he₂ rfl rfl ?_, hR₃.flagged rfl (.inl rfl)⟩
    · simp [Code.block, exec, stepOp, low_zero, hbt]
    · rw [Host.set_regs_self, low_extend]
    · rw [pendingTarget_of_not_taken fun hn => absurd hn hb]
      rfl

/-! ### A branch in the delay slot of a branch -/

/-- The first branch is taken, and the second one becomes pending if the register says so. -/
theorem exec_takeIllegalBranch (info : InstructionInfo)
    (hR : Rep c h v) (he : Empty c) {last : InstructionInfo} {cond : HReg} {t y : Word}
    (hi : cond ≠ registerIndirectPc) (hy : low (h.regs cond) = y)
    (ht : t = if last.indirect then low (v.control.frame illegalIndirectSlot)
      else last.branchTarget) :
    ∃ h', exec (lightning E) (takeIllegalBranch info last cond) h = .leave .enterThunk h' ∧
      HandsOver h' v t
        (if (if info.conditional then y else 1#32) = 0#32 then none else some (branchTo info v)) ∧
      (y = 0#32 ∨ y = v.cond → Flagged info v h') := by
  let z : BitVec T.wordSize := if info.conditional then h.regs cond else 1#_
  have hz : low z = if info.conditional then y else 1#32 := by
    by_cases hc : info.conditional
    · simp only [z, if_pos hc, hy]
    · simp only [z, if_neg hc, low_one]
  have hR₁ := (hR.setAny he hi z).setField .hasDelaySlot (low z)
  obtain ⟨x, hx, hlow⟩ :=
    exec_loadTarget (E := E) info cond ((h.set cond z).setField .hasDelaySlot (low z)) hR₁
  have hlow' : low x = branchTo info v := hlow
  have hR₂ := (hR₁.setAny he hi x).setField .branchTarget (branchTo info v)
  let n : BitVec T.wordSize :=
    if last.indirect then v.control.frame illegalIndirectSlot else immediate last.branchTarget
  have hn : low n = t := by
    rw [ht]
    by_cases hl : last.indirect
    · simp only [n, if_pos hl]
    · simp only [n, if_neg hl, low_immediate]
  have hR₃ := hR₂.setAny he nextPc_ne_indirectPc n
  refine ⟨_, ?_, .of_rep
    ((congrArg low (Host.set_regs_self _ _ _)).trans hn) hR₃ he rfl rfl ?_, fun hy0 => ?_⟩
  · have hfirst : exec (lightning E)
        (if info.conditional then .nil else .op (.movi cond 1#_) : HostCode T) h =
          .fall (h.set cond z) := by
      by_cases hc : info.conditional
      · simp [exec, hc, z]
      · simp [exec, hc, z, stepOp]
    have hframe : h.frame = v.control.frame := hR.frame_eq
    have hlast (h₁ : Host T) (hf : h₁.frame = h.frame) :
        stepOp E (if last.indirect then .ldFrame registerNextPc illegalIndirectSlot
          else .movi registerNextPc (immediate last.branchTarget)) h₁ =
            h₁.set registerNextPc n := by
      by_cases hl : last.indirect
      · simp [hl, n, stepOp, hf, hframe]
      · simp [hl, n, stepOp]
    have hstore (f : Field) (a : HReg) (h₁ : Host T) :
        stepOp E (.stField f a) h₁ = h₁.setField f (low (h₁.regs a)) := rfl
    simp only [takeIllegalBranch, Code.block, exec, hfirst, Outcome.fall_andThen, lightning_step,
      hstore, Host.set_regs_self, hx, hlow']
    rw [hlast ((((h.set cond z).setField .hasDelaySlot (low z)).set cond x).setField .branchTarget
      (branchTo info v)) rfl]
    rfl
  · rw [← hz]
    rfl
  · refine hR₃.flagged (y := if info.conditional then y else 1#32) hz ?_
    by_cases hc : info.conditional
    · rw [if_pos hc]
      exact hy0.imp id fun hyv => .inr ⟨hc, hyv⟩
    · rw [if_neg hc]
      exact .inr (.inl rfl)

theorem takeIllegalBranch_labelFree (info last : InstructionInfo) (cond : HReg) :
    (takeIllegalBranch info last cond : HostCode T).labelFree := by
  rw [takeIllegalBranch]
  by_cases hc : info.conditional <;> simp [hc, Code.block, Code.labelFree, loadTarget]

theorem falls_loadIllegal {α : Type} {m : HReg → HReg → HReg → Gen T α}
    {Q : α → RegisterCache T → Outcome Label Exit (Host T) → Prop} (hS : Ready c h v)
    (hQ : ∀ cond s illegal c' h', cond ≠ s → cond ≠ illegal →
      cond ≠ registerIndirectPc → s ≠ registerIndirectPc →
      illegal ≠ registerIndirectPc → s ≠ illegal → low (h'.regs cond) = v.cond →
        Rep c' h' v → Empty c' →
      wp (lightning E) (m cond s illegal) Q c' h') :
    wp (lightning E) (do
      let cond ← loadMipsRegisterNoext condBranchTaken
      let s ← modifyMipsRegister scratchRegister0
      let illegal ← modifyMipsRegister scratchRegister1
      unlockMipsRegister condBranchTaken
      unlockMipsRegister scratchRegister0
      unlockMipsRegister scratchRegister1
      flushRegisterWindow
      m cond s illegal) Q c h := by
  refine wp_bind ((falls_loadCond hS.rep hS.locked (by simp)).mono ?_)
  rintro cond c₁ h₁ ⟨hR₁, hL₁, hA₁, -⟩
  have hcond := (hR₁.at_cond hA₁).1
  refine wp_bind ((falls_modifyScratch hR₁ hL₁ cond_lt_scratch0 (by simp)).mono ?_)
  rintro s c₂ h₂ ⟨hregs₂, hW₂, hL₂, hO₂, hK₂⟩
  have hA₂ := hK₂.stay condBranchTaken (.inl (by simp)) cond _ hA₁ fun _ => rfl
  have hR₂ := hW₂ (h₂.regs s)
  rw [Host.set_self] at hR₂
  refine wp_bind ((falls_modifyScratch hR₂ hL₂ cond_lt_scratch1 (by simp)).mono ?_)
  rintro illegal c₃ h₃ ⟨hregs₃, hW₃, hL₃, hO₃, hK₃⟩
  have hA₃ := hK₃.stay condBranchTaken (.inl (by simp)) cond _ hA₂ fun _ => rfl
  have hO₂' := hK₃.owned scratchRegister0 (.inl (by simp)) (by decide) s hO₂
  have hR₃ := hW₃ (h₃.regs illegal)
  rw [Host.set_self] at hR₃
  refine wp_bind ((falls_unlockMipsRegister hR₃ hL₃ (.refl _)).mono ?_)
  rintro _ c₄ h₄ ⟨rfl, hR₄, hL₄, -, -⟩
  refine wp_bind ((falls_unlockMipsRegister hR₄ hL₄ (.refl _)).mono ?_)
  rintro _ c₅ h₅ ⟨rfl, hR₅, hL₅, -, -⟩
  refine wp_bind ((falls_unlockMipsRegister hR₅ hL₅ (.refl _)).mono ?_)
  rintro _ c₆ h₆ ⟨rfl, hR₆, hL₆, -, -⟩
  refine wp_bind ((falls_flush ⟨hR₆, hL₆⟩).mono ?_)
  rintro _ c₇ h₇ ⟨hregs₇, hR₇, he₇⟩
  refine hQ cond s illegal c₇ h₇ (hA₃.ne hO₂'.at (by decide))
    (hA₃.ne hO₃.at (by decide)) hA₃.ne_indirectPc
    hO₂'.at.ne_indirectPc hO₃.at.ne_indirectPc (hO₂'.at.ne hO₃.at (by decide)) ?_ hR₇ he₇
  rw [hregs₇, hregs₃, hregs₂, hcond]

/-- The branch that is pending behind a branch in a delay slot. An unconditional first branch
clears the condition of the second one before it is handed over. -/
def illegalSlot (info last : InstructionInfo) (v : View T) : Option Word :=
  if ¬last.conditional ∧ info.conditional then none else pendingTarget info v

theorem branchTo_saved {last : InstructionInfo} {v₀ : View T}
    {frame : ℕ → BitVec T.wordSize} (hb : last.branch)
    (hs : Saved last v₀ frame) (x : BitVec T.wordSize) :
    branchTo last v₀ =
      if last.indirect then low ((Function.update frame illegalCondSlot x) illegalIndirectSlot)
      else last.branchTarget := by
  rw [branchTo]
  split
  · rename_i hi
    rw [Function.update_of_ne (by decide), hs.indirect hb hi]
  · rfl

/-- A branch behind a branch: the first one, if taken, is performed at once. -/
theorem wp_jitHandleImpossibleDelaySlot (hS : Ready c h v)
    {info last : InstructionInfo} {v₀ : View T}
    (hb : info.branch) (hbl : last.branch) (hs : Saved last v₀ v.control.frame) :
    wp (lightning E) (jitHandleImpossibleDelaySlot info last)
      (fun _ c' o => Empty c' ∧ ∃ h',
        match pendingTarget last v₀ with
        | none => o = .fall h' ∧ ∃ frame, Rep c' h' (v.setFrame frame)
        | some t => o = .leave .enterThunk h' ∧ HandsOver h' v t (illegalSlot info last v) ∧
          Flagged info v h') c h := by
  refine falls_loadIllegal hS fun cond s illegal c₁ h₁ hcs hci hcond hsi hill hne hval hR he => ?_
  have htake := takeIllegalBranch_labelFree (T := T) info last cond
  by_cases hc : last.conditional
  · rw [if_pos hc]
    have hR₂ :=
      (((hR.setAny he hill (h₁.frame illegalCondSlot)).setAny he hsi 0#_).setFrame
        illegalCondSlot 0#_)
    refine wp_code ⟨trivial, trivial, trivial, ⟨trivial, htake⟩, trivial⟩ ⟨he, ?_⟩
    let h₂ : Host T := { (h₁.set illegal (h₁.frame illegalCondSlot)).set s 0#_ with
      frame := Function.update h₁.frame illegalCondSlot 0#_ }
    have hill₂ : h₂.regs illegal = v.control.frame illegalCondSlot := by
      refine (Host.set_regs_of_ne _ _ hne.symm).trans ((Host.set_regs_self _ _ _).trans ?_)
      rw [hR.frame_eq]
    have hcond₂ : low (h₂.regs cond) = v.cond := by
      refine (congrArg low
        ((Host.set_regs_of_ne _ _ hcs).trans (Host.set_regs_of_ne _ _ hci))).trans hval
    have hexec (k : HostCode T) :
        exec (lightning E) (.block [.op (.ldFrame illegal illegalCondSlot), .op (.movi s 0#_),
        .op (.stFrame illegalCondSlot s), k]) h₁ = (exec (lightning E) k h₂).andThen .fall := by
      simp [Code.block, exec, stepOp, h₂]
      rfl
    rw [hexec, exec]
    by_cases h0 : v₀.cond = 0#32
    · rw [pendingTarget_of_not_taken fun _ => ⟨hc, h0⟩]
      have hholds : (lightning E).holds (.eqi illegal 0#_) h₂ :=
        beq_iff_eq.2 (hill₂.trans ((hs.cond hbl hc).2 h0))
      rw [if_pos hholds]
      exact ⟨h₂, rfl, _, hR₂⟩
    · rw [pendingTarget_of_taken hbl fun _ => h0]
      have hholds : ¬(lightning E).holds (.eqi illegal 0#_) h₂ := by
        intro hn
        exact h0 ((hs.cond hbl hc).1 (hill₂.symm.trans (beq_iff_eq.1 hn)))
      rw [if_neg hholds]
      obtain ⟨h₃, hx, hh, hflag⟩ :=
        exec_takeIllegalBranch (E := E) info hR₂ he hcond hcond₂ (branchTo_saved hbl hs 0#_)
      refine ⟨h₃, congrArg (Outcome.andThen · .fall) hx, ?_, hflag (.inr rfl)⟩
      have hslot : illegalSlot info last v = pendingTarget info v := if_neg fun hn => hn.1 hc
      rw [hslot, pendingTarget_eq hb]
      exact ⟨hh.next, hh.state⟩
  · rw [if_neg hc, pendingTarget_of_taken hbl fun hn => absurd hn hc]
    have hR₂ := ((hR.setAny he hcond 0#_).setFrame illegalCondSlot 0#_)
    refine wp_code ⟨trivial, trivial, htake, trivial⟩ ⟨he, ?_⟩
    let h₂ : Host T :=
      { h₁.set cond 0#_ with frame := Function.update h₁.frame illegalCondSlot 0#_ }
    have hcond₂ : low (h₂.regs cond) = 0#32 :=
      (congrArg low (Host.set_regs_self _ _ _)).trans low_zero
    have hexec (k : HostCode T) :
        exec (lightning E) (.block [.op (.movi cond 0#_), .op (.stFrame illegalCondSlot cond),
        k]) h₁ = (exec (lightning E) k h₂).andThen .fall := by
      simp [Code.block, exec, stepOp, h₂]
      rfl
    rw [hexec]
    obtain ⟨h₃, hx, hh, hflag⟩ :=
      exec_takeIllegalBranch (E := E) info hR₂ he hcond hcond₂ (branchTo_saved hbl hs 0#_)
    refine ⟨h₃, congrArg (Outcome.andThen · .fall) hx, ⟨hh.next, ?_⟩, hflag (.inl rfl)⟩
    have hslot : illegalSlot info last v =
        if (if info.conditional then 0#32 else 1#32) = 0#32 then none
        else some (branchTo info v) := by
      rw [illegalSlot, pendingTarget_eq hb]
      by_cases hi : info.conditional
      · rw [if_pos ⟨hc, hi⟩, if_pos hi, if_pos rfl]
      · rw [if_neg fun hn => hi hn.2, if_neg hi, if_neg hi]
    rw [hslot]
    exact hh.state

end ParallelRsp.Jit
