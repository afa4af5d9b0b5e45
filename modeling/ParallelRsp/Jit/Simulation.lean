import ParallelRsp.Jit.Rounds
import ParallelRsp.Rsp.CodeWrites

/-!
# Compiled code and the reference machine

`Meets R i v m` relates the state that a host represents in front of instruction `i` of a
region to a state of the reference machine. The branch in whose delay slot the instruction
is may be known at compile time only in part: its condition is in the pseudo register, and
its target in `last_info` or a register; in front of the first instruction it is in memory.

A round of `jit_region` takes both one step further (`Meets.round`). A pass, from a place
where compiled code is entered to the next jump, is a sequence of rounds.
-/

namespace ParallelRsp.Jit

open Codegen

variable {T : Target} {E : Env T} {R : Region} {c c' : RegisterCache T}
  {h h' : Host T} {v v' : View T}
  {m : Mips.State} {i j : ℕ}

/-! ### Addresses -/

/-- Equal modulo `0x1000`. -/
def SamePc (x y : Word) : Prop := x &&& 0xfff#32 = y &&& 0xfff#32

theorem SamePc.refl (x : Word) : SamePc x x := rfl

theorem SamePc.symm {x y : Word} (h : SamePc x y) : SamePc y x := Eq.symm h

theorem SamePc.trans {x y z : Word} (h : SamePc x y) (h' : SamePc y z) : SamePc x z := Eq.trans h h'

theorem fetchPc_eq (x : Word) : Mips.fetchPc x = (x &&& 0xfff#32) &&& 0xffc#32 := by
  rw [BitVec.and_assoc]
  rfl

theorem SamePc.fetch {x y : Word} (h : SamePc x y) : Mips.fetchPc x = Mips.fetchPc y := by
  rw [fetchPc_eq, fetchPc_eq, h]

theorem samePc_of_toNat {x y : Word} (h : x.toNat % 4096 = y.toNat % 4096) : SamePc x y := by
  apply BitVec.eq_of_toNat_eq
  rw [Bits.toNat_and_fff, Bits.toNat_and_fff, h]

theorem samePc_followingPc (i : ℕ) (hi : i < R.count) :
    SamePc (followingPc (R.pc i)) (R.pc (i + 1)) := by
  have hw := R.word_lt hi
  apply samePc_of_toNat
  rw [R.pc_eq, followingPc_wordPc hw, toNat_wordPc (Nat.mod_lt _ (by norm_num)).le, R.pc_eq,
    toNat_wordPc (by simp only [imemWords] at hw ⊢; omega)]
  simp only [imemWords] at hw ⊢
  omega

theorem fetchPc_pc (hi : i < R.count) : Mips.fetchPc (R.pc i) = R.pc i :=
  fetchPc_wordPc (R.word_lt hi)

theorem pc_succ (hi : i < R.count) : R.pc i + 4#32 = R.pc (i + 1) := by
  have hw := R.word_lt hi
  simp only [imemWords] at hw
  apply BitVec.eq_of_toNat_eq
  rw [BitVec.toNat_add, R.pc_eq, R.pc_eq, toNat_wordPc (by simp only [imemWords]; omega),
    toNat_wordPc (by simp only [imemWords]; omega), show (4#32 : Word).toNat = 4 from rfl]
  omega

/-! ### The relations -/

/-- Registers, memories and executed instructions of host and machine agree. -/
structure Agree (h : Host T) (m : Mips.State) : Prop where
  /-- Memories. -/
  arch : h.st.toArch = m.arch.withSr h.st.sr
  /-- Registers. -/
  sr : ∀ r < 32, h.st.sr r = m.arch.sr r
  /-- Instructions. -/
  log : h.log = m.log

/-- The branch handed over in `has_delay_slot` and `branch_target`. -/
def Host.inherited (h : Host T) : Option Word :=
  if h.st.hasDelaySlot = 0#32 then none else some h.st.branchTarget

/-- The host has left a region where the machine goes on. -/
structure Left (h : Host T) (m : Mips.State) : Prop where
  /-- Registers, memories and instructions. -/
  agree : Agree h m
  /-- The address. -/
  pc : SamePc (low (h.regs registerNextPc)) m.pc
  /-- The branch in whose delay slot that is. -/
  pending : m.pending.map Mips.Branch.target = h.inherited

/-- The words of the region are in IMEM. -/
def Region.In (R : Region) (a : Arch) : Prop := ∀ k < R.count, a.imem (R.pcWord + k) = R.word k

/-- The branch in whose delay slot instruction `i` is. A branch to the instruction behind the
delay slot is as good as none. -/
def SlotOk (R : Region) (i : ℕ) (v : View T) (m : Mips.State) : Prop :=
  if i = 0 then m.pending.map Mips.Branch.target = inheritedTarget v
  else m.pending = (pendingTarget (R.lastInfo i) v).map (⟨·, (R.lastInfo i).indirect⟩) ∨
    (i < R.count ∧ m.pending = none ∧ ¬(R.lastInfo i).indirect ∧
      pendingTarget (R.lastInfo i) v = some (followingPc (R.pc i)))

/-- The state `v` in front of instruction `i` is that of the machine. -/
structure Meets (R : Region) (i : ℕ) (v : View T) (m : Mips.State) : Prop where
  /-- Registers and memories. -/
  arch : v.arch = m.arch
  /-- Instructions. -/
  log : v.control.log = m.log
  /-- IMEM. -/
  code : R.In m.arch
  /-- The address, whose low bits do not count. -/
  pc : Mips.fetchPc m.pc = Mips.fetchPc (R.pc i)
  /-- Within the region it is aligned. -/
  aligned : 0 < i → SamePc m.pc (R.pc i)
  /-- Nothing is inherited within the region. -/
  settled : 0 < i → v.control.hasDelaySlot = 0#32
  /-- The branch. -/
  slot : SlotOk R i v m

/-- The next instruction is the last one that the machine executes in the region. -/
def Region.Leaves (R : Region) (H : Helpers) (m : Mips.State) : Prop :=
  m.mode H ≠ .continue ∨
    match m.pending with
    | none => Mips.fetchPc m.pc = R.pc (R.count - 1)
    | some b => b.indirect ∨ ¬R.Has b.target

/-- No branch is in the delay slot of another. -/
def Region.NoBranchInSlot (R : Region) : Prop :=
  ∀ i, i + 1 < R.count → (R.instr i).isBranch → ¬(R.instr (i + 1)).isBranch

theorem Region.NoBranchInSlot.info (hN : R.NoBranchInSlot) (hi : i < R.count) :
    ¬((R.info i).branch ∧ (R.lastInfo i).branch) := by
  rw [R.info_branch, Region.lastInfo]
  split
  · exact fun hn => Bool.false_ne_true hn.2
  · rw [R.info_branch]
    have hsucc : i - 1 + 1 = i := by omega
    rintro ⟨hb, hl⟩
    refine hN (i - 1) (by omega) hl ?_
    rwa [hsucc]

/-! ### Hosts that hold all registers in memory -/

theorem Rep.agree (hR : Rep c h v) (hC : Clean c) (harch : v.arch = m.arch)
    (hlog : v.control.log = m.log) :
    Agree h m where
  arch := by
    rw [← harch]
    exact hR.rest
  sr r hr := by
    rw [← harch]
    exact hR.sr_of_lt hC hr
  log := by rw [← hlog, ← hR.control]; rfl

theorem Rep.inherited (hR : Rep c h v) : h.inherited = inheritedTarget v := by
  have h1 : h.st.hasDelaySlot = v.control.hasDelaySlot := hR.field_eq .hasDelaySlot
  have h2 : h.st.branchTarget = v.control.branchTarget := hR.field_eq .branchTarget
  rw [Host.inherited, inheritedTarget, h1, h2]

theorem HandsOver.left {next : Word} {slot : Option Word}
    (hh : HandsOver h v next slot) (harch : v.arch = m.arch)
    (hlog : v.control.log = m.log) (hpc : SamePc next m.pc)
    (hp : m.pending.map Mips.Branch.target = slot) : Left h m := by
  obtain ⟨hnext, c', v', hC, hR, harch', hlog', hslot⟩ := hh
  refine ⟨hR.agree hC (harch'.trans harch) (hlog'.trans hlog), by rwa [hnext], ?_⟩
  rw [hp, hR.inherited, hslot]

/-! ### One step of the machine -/

namespace Meets

theorem fetchPc_eq (hM : Meets R i v m) (hi : i < R.count) : Mips.fetchPc m.pc = R.pc i :=
  hM.pc.trans (fetchPc_pc hi)

theorem fetch_eq (hM : Meets R i v m) (hi : i < R.count) : Mips.fetch m.arch m.pc = R.word i := by
  rw [Mips.fetch, hM.fetchPc_eq hi, R.pc_eq, wordPc_shift (R.word_lt hi).le, hM.code i hi]

theorem instr_eq (hM : Meets R i v m) (hi : i < R.count) : m.instr = R.instr i :=
  congrArg decode (hM.fetch_eq hi)

theorem mode_eq (hM : Meets R i v m) (hi : i < R.count) (H : Helpers) :
    m.mode H = (Mips.exec H (R.pc i) (R.instr i) v.arch).2 := by
  rw [Mips.State.mode, hM.fetchPc_eq hi, hM.instr_eq hi, hM.arch]

theorem step_arch (hM : Meets R i v m) (hi : i < R.count) (H : Helpers) :
    (Mips.step H m).arch = (Mips.exec H (R.pc i) (R.instr i) v.arch).1 := by
  rw [Mips.step, hM.fetchPc_eq hi, hM.instr_eq hi, hM.arch]

theorem step_log (hM : Meets R i v m) (hi : i < R.count) (H : Helpers) :
    (Mips.step H m).log = (R.pc i, R.word i) :: m.log := by
  rw [Mips.step, hM.fetchPc_eq hi, hM.fetch_eq hi]

theorem step_pending (hM : Meets R i v m) (hi : i < R.count) (H : Helpers) :
    (Mips.step H m).pending =
      (if Mips.taken (R.instr i) v.arch then some (Mips.target (R.pc i) (R.instr i) v.arch)
        else none).map (⟨·, (R.instr i).isIndirect⟩) := by
  rw [Mips.step, Mips.State.branch, hM.fetchPc_eq hi, hM.instr_eq hi, hM.arch]
  dsimp only
  split <;> rfl

/-- IMEM is left alone while control goes on. -/
theorem step_code (hM : Meets R i v m) {H : Helpers} (hm : m.mode H = .continue) :
    R.In (Mips.step H m).arch := by
  have himem : (Mips.step H m).arch.imem = m.arch.imem := (Mips.exec_marks H _ _ _).2 hm
  intro k hk
  rw [himem]
  exact hM.code k hk

/-- Where the machine goes is where compiled code goes. -/
theorem next (hM : Meets R i v m) (hi : i < R.count) :
    SamePc ((slotTarget (R.lastInfo i) (decide (i = 0)) v).getD (followingPc (R.pc i))) m.next := by
  have hnone (hp : m.pending = none) : SamePc (followingPc (R.pc i)) m.next := by
    rw [Mips.State.next, hp, hM.fetchPc_eq hi, pc_succ hi]
    exact samePc_followingPc i hi
  have hsome {b : Mips.Branch} (hp : m.pending = some b) : m.next = b.target := by
    rw [Mips.State.next, hp]
  have hslot := hM.slot
  rw [SlotOk] at hslot
  by_cases h0 : i = 0
  · rw [if_pos h0] at hslot
    rw [slotTarget, if_pos (decide_eq_true h0), ← hslot]
    cases hp : m.pending with
    | none => exact hnone hp
    | some b => exact (hsome hp).symm ▸ SamePc.refl _
  · rw [if_neg h0] at hslot
    rw [slotTarget, if_neg fun hd => h0 (of_decide_eq_true hd)]
    rcases hslot with hslot | ⟨-, hp, -, ht⟩
    · cases ht : pendingTarget (R.lastInfo i) v with
      | none =>
        rw [ht] at hslot
        exact hnone hslot
      | some t =>
        rw [ht] at hslot
        exact (hsome hslot).symm ▸ SamePc.refl _
    · rw [ht]
      exact hnone hp

end Meets

/-- What is not `MODE_CONTINUE` is not returned by a branch. -/
theorem not_taken_of_mode {H : Helpers} {pc : Word} {x : Instr}
    {a : Arch} (hm : (Mips.exec H pc x a).2 ≠ .continue) :
    Mips.taken x a = false := by
  cases x with
  | «break» | mfc0 _ _ | mtc0 _ _ => rfl
  | _ => exact absurd rfl hm

/-- Behind a local jump, which the machine in state `m` performs. -/
structure Lands (E : Env T) (R : Region) (j : ℕ) (h' : Host T) (m : Mips.State) : Prop where
  /-- The label is in the region. -/
  lt : j < R.count
  /-- It is defined. -/
  entry : R.blockEntry j
  /-- The state; no branch is pending. -/
  state : ∃ c' v', Clean c' ∧ Rep c' h' v' ∧ v'.arch = (Mips.step E.toHelpers m).arch ∧
    v'.control.log = (Mips.step E.toHelpers m).log ∧ v'.cond = 0#32 ∧ v'.control.hasDelaySlot = 0#32
  /-- The machine is there. -/
  pc : SamePc (Mips.step E.toHelpers m).pc (R.pc j)
  /-- No branch is pending in the machine. -/
  pending : (Mips.step E.toHelpers m).pending = none
  /-- IMEM. -/
  code : R.In (Mips.step E.toHelpers m).arch
  /-- It was a branch, or a branch could not be in front of the label. -/
  origin : (∃ b, m.pending = some b ∧ b.indirect = false ∧ b.target = R.pc j) ∨
    (m.pending = none ∧ ∃ k, j = k + 1 ∧ ¬(R.instr k).isBranch)

/-- How a round ends, and what the machine does. -/
inductive RoundPost (E : Env T) (R : Region) (i : ℕ) (m : Mips.State) (c' : RegisterCache T)
    (o : Outcome Label Exit (Host T)) : Prop where
  /-- The instruction leaves. -/
  | exit (h' : Host T) (ho : o = .leave .returnThunk h') (hm : m.mode E.toHelpers ≠ .continue)
      (hmode : h'.regs registerMode = BitVec.ofNat _ (modeCode (m.mode E.toHelpers)))
      (hl : Left h' (Mips.step E.toHelpers m)) (hs : h'.st.hasDelaySlot = 0#32)
  /-- Control passes to the next instruction. -/
  | next (h' : Host T) (v' : View T) (ho : o = .fall h')
      (hm : m.mode E.toHelpers = .continue) (hp : m.pending = none)
      (hS : Ready c' h' v') (hM : Meets R (i + 1) v' (Mips.step E.toHelpers m))
  /-- A branch goes to a label. -/
  | jump (h' : Host T) (j : ℕ) (ho : o = .goto (.instr j) h') (hm : m.mode E.toHelpers = .continue)
      (hn : ¬R.Leaves E.toHelpers m) (hL : Lands E R j h' m)
  /-- The inherited branch is to be performed. -/
  | latent (h' : Host T) (v' : View T) (ho : o = .goto .latent h')
      (hm : m.mode E.toHelpers = .continue)
      (hd : ¬(R.info 0).handlesDelaySlot) (hR : ∃ c', Clean c' ∧
        Rep c' h' v') (ht : m.pending.map Mips.Branch.target = some v'.control.branchTarget)
      (harch : v'.arch = (Mips.step E.toHelpers m).arch)
      (hlog : v'.control.log = (Mips.step E.toHelpers m).log)
      (hp : (Mips.step E.toHelpers m).pending.map Mips.Branch.target = pendingTarget (R.info 0) v')
  /-- A branch leaves the region. -/
  | thunk (h' : Host T) (ho : o = .leave .enterThunk h') (hm : m.mode E.toHelpers = .continue)
      (hl : Left h' (Mips.step E.toHelpers m))

/-! ### A round -/

theorem taken_isBranch {x : Instr} {a : Arch} (ht : Mips.taken x a) : x.isBranch := by
  cases x with
  | bgtz rs w =>
    by_cases h0 : rs.val = 0
    · have h0' : rs = 0 := Fin.ext h0
      rw [Mips.taken, Mips.read, if_pos h0'] at ht
      cases ht
    · exact decide_eq_true h0
  | jr _ | jalr _ _ | j _ | jal _ | regimm _ _ _ _ | beq _ _ _ | bne _ _ _ | blez _ _ => rfl
  | _ => cases ht

theorem not_taken {x : Instr} {a : Arch} (hb : ¬x.isBranch) : Mips.taken x a = false :=
  Bool.eq_false_iff.2 fun ht => hb (taken_isBranch ht)

theorem pendingTarget_not_branch {last : InstructionInfo} (hb : ¬last.branch) :
    pendingTarget last v = none :=
  pendingTarget_of_not_taken fun hn => absurd hn hb

/-- What is not a branch leaves the branch alone in whose delay slot it is. -/
theorem Executed.pendingTarget_last {H : Helpers} {pc : Word}
    {x : Instr} {last : InstructionInfo} {nextIsTarget : Bool}
    (hx : Executed H pc x last nextIsTarget v v')
    (hno : ¬((instructionInfo pc x nextIsTarget).branch ∧ last.branch)) :
    pendingTarget last v' = pendingTarget last v := by
  by_cases hl : last.branch
  · obtain ⟨hcond, hind⟩ := hx.slot fun hb => hno ⟨hb, hl⟩
    rw [pendingTarget, pendingTarget, hcond, hind]
  · rw [pendingTarget_not_branch hl, pendingTarget_not_branch hl]

theorem pendingTarget_some {last : InstructionInfo} {t : Word}
    (ht : pendingTarget last v = some t) :
    t = branchTo last v := by
  rw [pendingTarget] at ht
  split at ht
  · exact (Option.some.inj ht).symm
  · cases ht

theorem inheritedTarget_none (h0 : v.control.hasDelaySlot = 0#32) :
    inheritedTarget v = none := if_pos h0

theorem inheritedTarget_some (h0 : v.control.hasDelaySlot ≠ 0#32) :
    inheritedTarget v = some v.control.branchTarget := if_neg h0

/-- Behind the first instruction, or behind another one without a pending branch,
the next instruction is met. -/
theorem Meets.succ (hM : Meets R i v m) (hi : i < R.count) {H : Helpers} (hm : m.mode H = .continue)
    (hp : m.pending = none) (harch : v'.arch = (Mips.exec H (R.pc i) (R.instr i) v.arch).1)
    (hlog : v'.control.log = (R.pc i, R.word i) :: v.control.log)
    (hds : v'.control.hasDelaySlot = 0#32)
    (hpend : pendingTarget (R.info i) v' = if Mips.taken (R.instr i) v.arch then
      some (Mips.target (R.pc i) (R.instr i) v.arch) else none) :
    Meets R (i + 1) v' (Mips.step H m) where
  arch := by rw [harch, hM.step_arch hi]
  log := by rw [hlog, hM.log, hM.step_log hi]
  code := hM.step_code hm
  pc := by
    have hnext : (Mips.step H m).pc = R.pc (i + 1) := by
      rw [Mips.step, Mips.State.next, hp, hM.fetchPc_eq hi]
      exact pc_succ hi
    rw [hnext]
  aligned _ := by
    have hnext : (Mips.step H m).pc = R.pc (i + 1) := by
      rw [Mips.step, Mips.State.next, hp, hM.fetchPc_eq hi]
      exact pc_succ hi
    rw [hnext]
    exact SamePc.refl _
  settled _ := hds
  slot := by
    rw [SlotOk, if_neg (Nat.succ_ne_zero i)]
    refine .inl ?_
    have hlast : R.lastInfo (i + 1) = R.info i := by
      rw [Region.lastInfo, if_neg (Nat.succ_ne_zero i), Nat.add_sub_cancel]
    rw [hlast, hpend, Region.info_indirect, hM.step_pending hi]

theorem Region.pc_injective (hi : i < R.count) (hj : j < R.count) (h : R.pc i = R.pc j) : i = j :=
  Nat.add_left_cancel (wordPc_injective (R.word_lt hi).le (R.word_lt hj).le h)

/-- Within a region the instruction behind another one is the next one. -/
theorem Region.pc_eq_followingPc (hi : i < R.count) (hj : j < R.count)
    (h : R.pc j = followingPc (R.pc i)) : j = i + 1 := by
  have hlt := R.word_lt hi
  have hs := R.small
  rw [R.pc_eq, R.pc_eq, followingPc_wordPc hlt] at h
  have hw := wordPc_injective (R.word_lt hj).le (Nat.mod_lt _ (by norm_num)).le h
  simp only [imemWords, codeBlockWords] at hlt hs hw
  -- the region does not go around IMEM
  omega

/-- An instruction that leaves, leaves to where the machine is then, and no branch is pending. -/
theorem Meets.exit (hM : Meets R i v m) (hi : i < R.count)
    (hm : (Mips.exec E.toHelpers (R.pc i) (R.instr i) v.arch).2 ≠ .continue)
    (hnext : low (h'.regs registerNextPc) =
      (slotTarget (R.lastInfo i) (decide (i = 0)) v).getD (followingPc (R.pc i)))
    (hR : ∃ c', Clean c' ∧ Rep c' h' (View.settle { v.record (R.pc i) (R.word i) with
      arch := (Mips.exec E.toHelpers (R.pc i) (R.instr i) v.arch).1 } (decide (i = 0)))) :
    Left h' (Mips.step E.toHelpers m) ∧ h'.st.hasDelaySlot = 0#32 := by
  obtain ⟨c', hC, hR⟩ := hR
  have hds : h'.st.hasDelaySlot = 0#32 := by
    rw [show h'.st.hasDelaySlot = _ from hR.field_eq .hasDelaySlot]
    by_cases h0 : i = 0
    · rw [View.settle, if_pos (decide_eq_true h0)]
      rfl
    · rw [View.settle, if_neg fun hd => h0 (of_decide_eq_true hd)]
      exact hM.settled (Nat.pos_of_ne_zero h0)
  have hsettle (w : View T) (b : Bool) :
      (w.settle b).arch = w.arch ∧ (w.settle b).control.log = w.control.log := by
    cases b <;> exact ⟨rfl, rfl⟩
  refine ⟨⟨hR.agree hC ?_ ?_, ?_, ?_⟩, hds⟩
  · rw [(hsettle _ _).1, hM.step_arch hi]
  · rw [(hsettle _ _).2, hM.step_log hi, ← hM.log]
    rfl
  · rw [hnext]
    exact hM.next hi
  · rw [hM.step_pending hi, not_taken_of_mode hm, Host.inherited, if_pos hds]
    rfl

/-- Where the branch of the instruction before goes when it is performed. -/
theorem Meets.performs (hM : Meets R i v m) (h0 : i ≠ 0)
    {t : Word} (ht : pendingTarget (R.lastInfo i) v = some t) :
    m.pending = some ⟨t, (R.lastInfo i).indirect⟩ ∨
      (i < R.count ∧ m.pending = none ∧ ¬(R.lastInfo i).indirect ∧ t = followingPc (R.pc i)) := by
  have hslot := hM.slot
  rw [SlotOk, if_neg h0, ht] at hslot
  exact hslot.imp id fun ⟨hi, hp, hind, hf⟩ => ⟨hi, hp, hind, Option.some.inj hf⟩

/-- Behind the first instruction: the branch inherited is to be performed, or there is none. -/
theorem Meets.round_first (hM : Meets R 0 v m)
    (hm : (Mips.exec E.toHelpers (R.pc 0) (R.instr 0) v.arch).2 = .continue)
    (hx : Executed E.toHelpers (R.pc 0) (R.instr 0) (R.lastInfo 0)
      (R.nextIsTarget 0) (v.record (R.pc 0) (R.word 0)) v')
    (hR : Rep c' h' v') (he : Empty c') :
    RoundPost E R 0 m c'
      (if v'.control.hasDelaySlot = 0#32 then .fall h' else .goto .latent h') := by
  have hi := R.pos
  have hmode := (hM.mode_eq hi E.toHelpers).trans hm
  have hslot : m.pending.map Mips.Branch.target = inheritedTarget v := hM.slot
  have hcontrol := hx.control
  have hlog : v'.control.log = (R.pc 0, R.word 0) :: v.control.log := by
    rw [hcontrol]
    rfl
  have hds : v'.control.hasDelaySlot = v.control.hasDelaySlot := by
    rw [hcontrol]
    rfl
  have hbt : v'.control.branchTarget = v.control.branchTarget := by
    rw [hcontrol]
    rfl
  by_cases h0 : v'.control.hasDelaySlot = 0#32
  · rw [if_pos h0]
    rw [inheritedTarget_none (hds ▸ h0)] at hslot
    have hp : m.pending = none := Option.map_eq_none_iff.1 hslot
    exact .next h' v' rfl hmode hp (he.ready hR) (hM.succ hi hmode hp hx.arch hlog h0 hx.pending)
  · rw [if_neg h0]
    rw [inheritedTarget_some (hds ▸ h0), ← hbt] at hslot
    refine .latent h' v' rfl hmode (handlesDelaySlot_mode hm) ⟨c', he.clean, hR⟩ hslot ?_ ?_ ?_
    · rw [hx.arch, hM.step_arch hi]
      rfl
    · rw [hlog, hM.log, hM.step_log hi]
    · have hpend : pendingTarget (R.info 0) v' = _ := hx.pending
      rw [hpend, hM.step_pending hi, Option.map_map]
      exact Option.map_id'

/-- Without a pending branch control passes to the next instruction. -/
theorem Meets.round_next (hM : Meets R i v m) (hi : i < R.count) (h0 : i ≠ 0)
    (hno : ¬((R.info i).branch ∧ (R.lastInfo i).branch))
    (hm : (Mips.exec E.toHelpers (R.pc i) (R.instr i) v.arch).2 = .continue)
    (hx : Executed E.toHelpers (R.pc i) (R.instr i) (R.lastInfo i)
      (R.nextIsTarget i) (v.record (R.pc i) (R.word i)) v')
    (ht : pendingTarget (R.lastInfo i) v = none) (hS : Ready c' h' (v'.resolved (R.lastInfo i))) :
    RoundPost E R i m c' (.fall h') := by
  have hmode := (hM.mode_eq hi E.toHelpers).trans hm
  have hp : m.pending = none := by
    have hslot := hM.slot
    rw [SlotOk, if_neg h0, ht] at hslot
    rcases hslot with hp | ⟨-, -, -, hn⟩
    · exact hp
    · cases hn
  have hresolve : (v'.resolved (R.lastInfo i)).arch = v'.arch ∧
      (v'.resolved (R.lastInfo i)).control = v'.control := by
    rw [View.resolved]
    split <;> exact ⟨rfl, rfl⟩
  refine .next h' _ rfl hmode hp hS (hM.succ hi hmode hp (hresolve.1.trans hx.arch) ?_ ?_ ?_)
  · rw [hresolve.2, hx.control]
    rfl
  · rw [hresolve.2, hx.control]
    exact hM.settled (Nat.pos_of_ne_zero h0)
  · rw [View.resolved]
    split
    · -- the branch before is behind us, and this instruction is none
      rename_i hl
      have hb : ¬(R.info i).branch := fun hb => hno ⟨hb, hl⟩
      rw [pendingTarget_not_branch hb, not_taken (by rwa [← R.info_branch])]
      rfl
    · exact hx.pending

/-- A branch is performed behind its delay slot. -/
theorem Meets.round_branch (hM : Meets R i v m) (hi : i < R.count) (h0 : i ≠ 0)
    (hno : ¬((R.info i).branch ∧ (R.lastInfo i).branch))
    (hm : (Mips.exec E.toHelpers (R.pc i) (R.instr i) v.arch).2 = .continue)
    (hx : Executed E.toHelpers (R.pc i) (R.instr i) (R.lastInfo i)
      (R.nextIsTarget i) (v.record (R.pc i) (R.word i)) v')
    {t : Word} (ht : pendingTarget (R.lastInfo i) v = some t)
    (he : Empty c') (hR : Rep c' h' (v'.setCond 0#32)) {o : Outcome Label Exit (Host T)}
    (ho : match R.localLabel (R.lastInfo i) with
      | some l => o = .goto l h'
      | none => o = .leave .enterThunk h' ∧ low (h'.regs registerNextPc) = t) :
    RoundPost E R i m c' o := by
  have hmode := (hM.mode_eq hi E.toHelpers).trans hm
  have hlog : v'.control.log = (R.pc i, R.word i) :: v.control.log := by
    rw [hx.control]
    rfl
  have hds : v'.control.hasDelaySlot = 0#32 := by
    rw [hx.control]
    exact hM.settled (Nat.pos_of_ne_zero h0)
  have hl : (R.lastInfo i).branch := by
    by_contra hl
    rw [pendingTarget_not_branch hl] at ht
    cases ht
  have hplain : ¬(R.instr i).isBranch := fun hb => hno ⟨by rwa [R.info_branch], hl⟩
  have hstep : (Mips.step E.toHelpers m).pending = none := by
    rw [hM.step_pending hi, not_taken hplain]
    rfl
  have harch' : (v'.setCond 0#32).arch = (Mips.step E.toHelpers m).arch := by
    rw [hM.step_arch hi]
    exact hx.arch
  have hlog' : (v'.setCond 0#32).control.log = (Mips.step E.toHelpers m).log := by
    rw [hM.step_log hi, ← hM.log]
    exact hlog
  have hnext : SamePc t (Mips.step E.toHelpers m).pc := by
    have hn := hM.next hi
    rw [slotTarget, if_neg fun hd => h0 (of_decide_eq_true hd), ht] at hn
    exact hn
  have hlast : R.lastInfo i = R.info (i - 1) := if_neg h0
  cases hlab : R.localLabel (R.lastInfo i) with
  | none =>
    rw [hlab] at ho
    obtain ⟨rfl, hpc⟩ := ho
    refine .thunk h' rfl hmode ⟨hR.agree he.clean harch' hlog', hpc ▸ hnext, ?_⟩
    have hds' : (v'.setCond 0#32).control.hasDelaySlot = 0#32 := hds
    rw [hstep, hR.inherited, inheritedTarget_none hds']
    rfl
  | some l =>
    rw [hlab] at ho
    subst ho
    rw [hlast] at hlab hl
    obtain ⟨j, rfl, hj, hentry, htarget, hind⟩ := R.localLabel_some (by omega) hl hlab
    have htj : t = R.pc j := by
      rw [pendingTarget_some ht, branchTo, hlast, if_neg hind, htarget]
    have hpend := hM.performs h0 ht
    rw [hlast, Bool.eq_false_iff.2 hind, htj] at hpend
    have hbehind (hf : R.pc j = followingPc (R.pc i)) : j = i + 1 := R.pc_eq_followingPc hi hj hf
    have hgo : ¬R.Leaves E.toHelpers m := by
      rintro (hn | hn)
      · exact hn hmode
      · rcases hpend with hp | ⟨-, hp, -, hf⟩
        · rw [hp] at hn
          rcases hn with hn | hn
          · cases hn
          · exact hn ((R.has_wordPc (R.word_lt hj)).2 ⟨Nat.le_add_right _ _, by omega⟩)
        · rw [hp] at hn
          have hlasti : i = R.count - 1 :=
            R.pc_injective hi (by omega) ((hM.fetchPc_eq hi).symm.trans hn)
          have hji := hbehind hf
          omega
    refine .jump h' j rfl hmode hgo ⟨hj, hentry, ⟨c', _, he.clean, hR, harch', hlog', rfl, hds⟩,
      htj ▸ hnext.symm, hstep,
      hM.step_code hmode, ?_⟩
    rcases hpend with hp | ⟨-, hp, -, hf⟩
    · exact .inl ⟨_, hp, rfl, rfl⟩
    · exact .inr ⟨hp, i, hbehind hf, hplain⟩

/-- **A round of `jit_region` is a step of the machine.** -/
theorem Meets.round (hM : Meets R i v m) (hi : i < R.count)
    (hno : ¬((R.info i).branch ∧ (R.lastInfo i).branch))
    {o : Outcome Label Exit (Host T)} (hb : BodyPost E R i (R.lastInfo i) v c' o) :
    RoundPost E R i m c' o := by
  cases hb with
  | exit h' ho hm hmode hnext hR =>
    obtain ⟨hl, hs⟩ := hM.exit hi hm hnext hR
    have hmi := hM.mode_eq hi E.toHelpers
    exact .exit h' ho (hmi ▸ hm) (hmi ▸ hmode) hl hs
  | go v' hm hx hb =>
    rw [Behind] at hb
    by_cases h0 : i = 0
    · subst h0
      rw [if_pos rfl] at hb
      obtain ⟨he, h', hR, rfl⟩ := hb
      exact hM.round_first hm hx hR he
    · rw [if_neg h0] at hb
      have hpend := hx.pendingTarget_last hno
      cases ht : pendingTarget (R.lastInfo i) v' with
      | none =>
        rw [ht] at hb
        obtain ⟨h', hS, rfl⟩ := hb
        exact hM.round_next hi h0 hno hm hx (hpend ▸ ht) hS
      | some t =>
        rw [ht] at hb
        obtain ⟨he, h', hR, ho⟩ := hb
        exact hM.round_branch hi h0 hno hm hx (hpend ▸ ht) he hR ho

end ParallelRsp.Jit
