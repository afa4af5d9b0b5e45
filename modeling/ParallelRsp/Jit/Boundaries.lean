import ParallelRsp.Jit.CodeCache
import ParallelRsp.Jit.DelaySlots
import ParallelRsp.Jit.Dispatch

/-!
# Where regions are cut

Regions run one after another: each leaves through the entry thunk, which enters the region
of the next program counter, until one leaves through the return thunk. What a region tells
the next one, a taken branch in `has_delay_slot` and `branch_target`, is what is pending in
the machine, so every such chain executes what the machine executes, wherever the regions are
cut. IMEM stays the same, since what writes to it leaves.
-/

namespace ParallelRsp.Jit

open Codegen

variable {T : Target} {E : Env T} {R : Region} {h h' h₁ h₂ : Host T}
  {m : Mips.State} {x : Exit} {n : ℕ}

/-! ### From one region to the next -/

/-- The region at the program counter, compiled from IMEM. -/
def Region.At (R : Region) (h : Host T) : Prop :=
  R.pcWord = (low (h.regs registerNextPc) &&& 0xfff#32).toNat / 4 ∧ R.In h.st.toArch

theorem Agree.imem (ha : Agree h m) : h.st.imem = m.arch.imem := by
  rw [ha.arch]
  rfl

/-- The entry thunk changes nothing that the machine has. -/
theorem Agree.enterThunk (ha : Agree h m) : Agree (h.enterThunk E) m where
  arch := congrArg (fun a => a.withSr (Function.update h.st.sr condBranchTaken 0#32)) ha.arch
  sr r hr := (Function.update_of_ne (Nat.ne_of_lt hr) _ _).trans (ha.sr r hr)
  log := ha.log

/-- The region starts at the program counter. -/
theorem Region.At.pc_zero (hR : R.At h) : R.pc 0 = Mips.fetchPc (low (h.regs registerNextPc)) := by
  have hlt : (low (h.regs registerNextPc) &&& 0xfff#32).toNat / 4 ≤ imemWords := by
    rw [Bits.toNat_and_fff]
    simp only [imemWords]
    omega
  rw [R.pc_eq, Nat.add_zero, hR.1]
  apply BitVec.eq_of_toNat_eq
  rw [Mips.fetchPc, toNat_and_ffc, toNat_wordPc hlt, Bits.toNat_and_fff, Nat.mul_comm]

/-- A region is entered where the one before was left. -/
theorem Left.enters (hl : Left h m) (hR : R.At h) : Enters R (h.enterThunk E) m where
  agree := hl.agree.enterThunk
  pc := by rw [← hl.pc.fetch, hR.pc_zero]
  pending := hl.pending
  code := by
    intro k hk
    rw [← hl.agree.imem]
    exact hR.2 k hk

/-- Regions run one after another, from in front of the entry thunk on. -/
inductive Chain (E : Env T) (h : Host T) : Exit → Host T → Prop where
  /-- No region yet. -/
  | start : Chain E h .enterThunk h
  /-- One more. -/
  | region {h₁ h₂ : Host T} {x : Exit} {R : Region} {code : HostCode T} {fuel : ℕ}
      (hc : Chain E h .enterThunk h₁)
    (hR : R.At h₁) (hcode : jitRegion R = some code)
    (hrun : run (lightning E) code fuel code (h₁.enterThunk E) = .left x h₂) : Chain E h x h₂

/-! ### Programs without branches and labels in delay slots -/

/-- An instruction of IMEM. -/
def imemInstr (imem : ℕ → Word) (w : ℕ) : Instr := decode (imem (w % imemWords))

/-- No branch is in the delay slot of another, and none goes to a delay slot. -/
structure Regular (imem : ℕ → Word) : Prop where
  /-- What is behind a branch is none. -/
  noBranch : ∀ w < imemWords, (imemInstr imem w).isBranch → ¬(imemInstr imem (w + 1)).isBranch
  /-- No branch goes there. -/
  noTarget : ∀ w < imemWords, (imemInstr imem w).isBranch → ∀ w' < imemWords,
    staticTarget w' (imem w') ≠ some ((w + 1) % imemWords)

theorem Region.instr_of_in {a : Arch} (hin : R.In a) {i : ℕ} (hi : i < R.count) :
    R.instr i = imemInstr a.imem (R.pcWord + i) := by
  rw [imemInstr, Nat.mod_eq_of_lt (R.word_lt hi), hin i hi]
  rfl

theorem Regular.noBranchInSlot {a : Arch} (hr : Regular a.imem)
    (hin : R.In a) : R.NoBranchInSlot := by
  intro i hi hb
  rw [R.instr_of_in hin (Nat.lt_of_succ_lt hi)] at hb
  rw [R.instr_of_in hin hi]
  exact hr.noBranch _ (R.word_lt (Nat.lt_of_succ_lt hi)) hb

theorem Regular.clear {a : Arch} (hr : Regular a.imem) (hin : R.In a) : R.Clear := by
  intro k w hk hentry hw
  have hk' : k < R.count := Nat.lt_of_succ_lt hk
  -- the label is there since a branch of the region goes to it
  rw [Region.blockEntry, jitMarkBlockEntries, Bool.and_eq_true, List.any_eq_true] at hentry
  obtain ⟨-, i, hi, ht⟩ := hentry
  have hi' : i < R.count := by
    have := List.mem_range.1 hi
    omega
  have hb : (imemInstr a.imem (R.pcWord + k)).isBranch := by
    rw [← R.instr_of_in hin hk', hw]
    rfl
  refine hr.noTarget (R.pcWord + k) (R.word_lt hk') hb (R.pcWord + i) (R.word_lt hi') ?_
  rw [hin i hi', Nat.add_assoc, Nat.mod_eq_of_lt (R.word_lt hk)]
  exact beq_iff_eq.1 ht

/-! ### A chain and the machine -/

/-- The first step that leaves compiled code is the next one after `n`. -/
def Continues (H : Helpers) (n : ℕ) (m : Mips.State) : Prop :=
  ∀ k < n, (Mips.steps H k m).mode H = .continue

theorem Continues.imem {H : Helpers} (hc : Continues H n m) :
    (Mips.steps H n m).arch.imem = m.arch.imem := by
  induction n with
  | zero => rfl
  | succ n ih =>
    have hm := hc n (Nat.lt_succ_self n)
    rw [Mips.steps_succ]
    exact ((Mips.exec_marks H _ _ _).2 hm).trans (ih fun k hk => hc k (Nat.lt_succ_of_lt hk))

/-- What the machine has done when a chain has come to an exit. -/
def ChainPost (E : Env T) (m : Mips.State) (h' : Host T) : Exit → Prop
  | .enterThunk => ∃ n, Continues E.toHelpers n m ∧ Left h' (Mips.steps E.toHelpers n m)
  | .returnThunk =>
      ∃ n, Continues E.toHelpers n m ∧ (Mips.steps E.toHelpers n m).mode E.toHelpers ≠ .continue ∧
      Left h' (Mips.steps E.toHelpers (n + 1) m)

/-- In a regular program nothing misleads compiled code. -/
theorem Enters.follows_eq_steps (hm : Enters R h m) (hr : Regular m.arch.imem)
    (hs : R.Inside E.toHelpers n m) {k : ℕ}
    (hk : k ≤ n) : R.follows E.toHelpers k m = Mips.steps E.toHelpers k m :=
  R.follows_eq_steps_of_not_misled fun j hj => hs.clear (hr.clear hm.code) j (hj.trans_le hk)

/-- A region takes the machine from where it is entered to where it is left. -/
theorem Enters.steps [E.Stdcall] {code : HostCode T} {fuel : ℕ} (hm : Enters R h m)
    (hr : Regular m.arch.imem) (hcode : jitRegion R = some code)
    (hrun : run (lightning E) code fuel code h = .left x h') :
    ∃ n, Continues E.toHelpers n m ∧ LeavesBy E x h' (Mips.steps E.toHelpers n m) := by
  have hpost := hm.post hcode (hr.noBranchInSlot hm.code) (E := E) R.served fuel
  rw [hrun] at hpost
  obtain ⟨n, hs, hl⟩ := hpost
  refine ⟨n, fun k hk => ?_, hm.follows_eq_steps hr hs le_rfl ▸ hl⟩
  by_contra hne
  exact hs.stays k hk (.inl (hm.follows_eq_steps hr hs hk.le ▸ hne))

theorem Continues.add {H : Helpers} {j : ℕ} (hn : Continues H n m)
    (hj : Continues H j (Mips.steps H n m)) :
    Continues H (n + j) m := by
  intro k hk
  by_cases hkn : k < n
  · exact hn k hkn
  · have hk' := hj (k - n) (by omega)
    rwa [← Mips.steps_add, Nat.add_sub_cancel' (by omega)] at hk'

theorem Continues.succ {H : Helpers} (hn : Continues H n m)
    (hm : (Mips.steps H n m).mode H = .continue) :
    Continues H (n + 1) m := by
  intro k hk
  rcases Nat.lt_succ_iff_lt_or_eq.1 hk with hk | rfl
  · exact hn k hk
  · exact hm

/-- **Chains of regions execute what the machine executes.** -/
theorem Chain.machine [E.Stdcall] (hc : Chain E h x h') (hl : Left h m) (hr : Regular m.arch.imem) :
    ChainPost E m h' x := by
  induction hc with
  | start => exact ⟨0, nofun, hl⟩
  | @region h₁ h₂ x R code fuel hc hR hcode hrun ih =>
    obtain ⟨n, hcont, hleft⟩ := ih
    have hr' : Regular (Mips.steps E.toHelpers n m).arch.imem := by
      rw [hcont.imem]
      exact hr
    obtain ⟨j, hj, hleft, hx⟩ := (hleft.enters hR).steps hr' hcode hrun
    rw [← Mips.steps_add] at hleft hx
    rw [← Mips.steps_succ] at hleft
    cases x with
    | enterThunk => exact ⟨n + j + 1, (hcont.add hj).succ hx, hleft⟩
    | returnThunk => exact ⟨n + j, hcont.add hj, hx.1, hleft⟩

/-- The machine leaves once. -/
theorem Continues.unique {H : Helpers} {n' : ℕ} (hn : Continues H n m)
    (hm : (Mips.steps H n m).mode H ≠ .continue)
    (hn' : Continues H n' m) (hm' : (Mips.steps H n' m).mode H ≠ .continue) : n = n' := by
  rcases Nat.lt_trichotomy n n' with hlt | rfl | hlt
  · exact absurd (hn' n hlt) hm
  · rfl
  · exact absurd (hn n' hlt) hm'

/-- The machine where the host is in front of the entry thunk. -/
def Host.entryMachine (h : Host T) : Mips.State := h.machine (low (h.regs registerNextPc))

theorem Host.left (h : Host T) : Left h h.entryMachine :=
  ⟨h.agree_machine _, .refl _, h.pending_machine _⟩

/-- Two hosts have executed the same instructions, and have the same registers, memories and program
counter and the same branch to perform. -/
structure Same (h h' : Host T) : Prop where
  /-- Instructions. -/
  log : h.log = h'.log
  /-- Scalar registers. -/
  sr : ∀ r < 32, h.st.sr r = h'.st.sr r
  /-- Memories and the other registers. -/
  arch : h.st.toArch = h'.st.toArch.withSr h.st.sr
  /-- The program counter. -/
  pc : SamePc (low (h.regs registerNextPc)) (low (h'.regs registerNextPc))
  /-- The branch. -/
  pending : h.inherited = h'.inherited

theorem Left.same (hl : Left h m) (hl' : Left h' m) : Same h h' where
  log := hl.agree.log.trans hl'.agree.log.symm
  sr r hr := (hl.agree.sr r hr).trans (hl'.agree.sr r hr).symm
  arch := by
    rw [hl'.agree.arch, hl.agree.arch]
    rfl
  pc := hl.pc.trans hl'.pc.symm
  pending := hl.pending.symm.trans hl'.pending

theorem imemOf_zero (words : List Word) {w : ℕ} (hw : words.length ≤ w) :
    imemOf words w = 0#32 := List.getD_eq_default _ _ hw

/-- A program is regular if its words are: behind them there are no branches. -/
theorem regular_imemOf {words : List Word} (hlen : words.length < imemWords)
    (hslot : ∀ w < words.length, (decode (imemOf words w)).isBranch →
      ¬(decode (imemOf words (w + 1))).isBranch)
    (htarget : ∀ w < words.length, (decode (imemOf words w)).isBranch → ∀ w' < words.length,
      staticTarget w' (imemOf words w') ≠ some (w + 1)) : Regular (imemOf words) := by
  have hbranch {w : ℕ} (hw : w < imemWords) (hb : (imemInstr (imemOf words) w).isBranch) :
      w < words.length ∧ (decode (imemOf words w)).isBranch := by
    rw [imemInstr, Nat.mod_eq_of_lt hw] at hb
    refine ⟨not_le.1 fun hle => ?_, hb⟩
    rw [imemOf_zero words hle] at hb
    cases hb
  constructor
  · intro w hw hb
    obtain ⟨hlt, hb⟩ := hbranch hw hb
    rw [imemInstr, Nat.mod_eq_of_lt (hlen.trans_le' hlt)]
    exact hslot w hlt hb
  · intro w hw hb w' _
    obtain ⟨hlt, hb⟩ := hbranch hw hb
    rw [Nat.mod_eq_of_lt (hlen.trans_le' hlt)]
    by_cases hle : words.length ≤ w'
    · rw [imemOf_zero words hle]
      rintro ⟨⟩
    · exact htarget w hlt hb w' (not_le.1 hle)

/-- Run regions one after another, until one leaves through the return thunk. -/
def runRegions (E : Env T) : List Region → Host T → Option (Exit × Host T)
  | [], h => some (.enterThunk, h)
  | R :: Rs, h =>
    if R.pcWord = (low (h.regs registerNextPc) &&& 0xfff#32).toNat / 4 ∧
        ∀ k < R.count, h.st.imem (R.pcWord + k) = R.word k then
      (jitRegion R).bind fun code =>
        match run (lightning E) code 2 code (h.enterThunk E) with
        | .left .enterThunk h' => runRegions E Rs h'
        | .left .returnThunk h' => some (.returnThunk, h')
        | _ => none
    else none

theorem Chain.runRegions (hc : Chain E h .enterThunk h₁) {Rs : List Region}
    (hrun : runRegions E Rs h₁ = some (x, h₂)) : Chain E h x h₂ := by
  induction Rs generalizing h₁ with
  | nil =>
    cases hrun
    exact hc
  | cons R Rs ih =>
    rw [Jit.runRegions] at hrun
    split at hrun
    · rename_i hR
      obtain ⟨code, hcode, hrun⟩ := Option.bind_eq_some_iff.1 hrun
      split at hrun
      · rename_i hl
        exact ih (hc.region hR hcode hl) hrun
      · rename_i hl
        cases hrun
        exact hc.region hR hcode hl
      · cases hrun
    · cases hrun

end ParallelRsp.Jit
