import ParallelRsp.Rsp.Dma
import ParallelRsp.System.Equivalence

/-!
# How often the status is polled

A program that waits for the host reads `SP_STATUS` in a loop, and the host cannot write it before
`DoRspCycles` returns. `RSP_MFC0` counts the reads into each register and halts the processor
when they reach `SP_STATUS_TIMEOUT`. Over a whole call the counts are the numbers of such
instructions executed, so that no program polls more often than that (`Plugin.polls_le`).

`ProcessRdpList` is code of another plugin, which has no access to the counts (`KeepsPolls`).
-/

namespace ParallelRsp

/-- The register into which an instruction reads the status. -/
def Instr.poll : Instr → Option (Fin 32)
  | .mfc0 rt rd => if rd.val % 16 = CP.spStatus.val then some rt else none
  | _ => none

/-- How many of the instructions executed have read the status into a register. -/
def polls (r : Fin 32) (log : List (Word × Word)) : ℕ :=
  log.countP fun x => (decode x.2).poll = some r

/-- `ProcessRdpList` leaves the counts and the limit alone. -/
def CP.KeepsPolls (rdp : CP.ProcessRdpList) : Prop :=
  ∀ cp0 dmem rdram, (rdp cp0 dmem rdram).1.mfc0Count = cp0.mfc0Count ∧
    (rdp cp0 dmem rdram).1.spStatusTimeout = cp0.spStatusTimeout

/-- How often each register may be polled into: once at least. -/
def pollLimit (timeout : Word) : ℕ := max 1 timeout.toInt.toNat

/-! ### One instruction -/

/-- The counts and the limit are the same. -/
def SamePolls (a a' : Arch) : Prop :=
  a'.cp0.mfc0Count = a.cp0.mfc0Count ∧ a'.cp0.spStatusTimeout = a.cp0.spStatusTimeout

variable {H : Helpers} {a : Arch} {i : Instr} {r : Fin 32}

theorem CP.setCr_mfc0Count (a : Arch) (r : Fin 16) (x : Word) :
    (CP.setCr a r x).cp0.mfc0Count = a.cp0.mfc0Count := rfl

theorem CP.setCr_spStatusTimeout (a : Arch) (r : Fin 16) (x : Word) :
    (CP.setCr a r x).cp0.spStatusTimeout = a.cp0.spStatusTimeout := rfl

theorem SamePolls.of_cp0 {a' : Arch} (h : a'.cp0 = a.cp0) : SamePolls a a' :=
  ⟨congrArg _ h, congrArg _ h⟩

theorem CP.dmaRows_cp0 {word : Word → Word → Arch → Arch}
    (hword : ∀ source dest a, (word source dest a).cp0 = a.cp0)
    (length sourceStep destStep : Word) (n : ℕ) (source dest : Word) (a : Arch) :
    (CP.dmaRows word length sourceStep destStep n source dest a).1.cp0 = a.cp0 := by
  rw [CP.dmaRows_eq]
  induction CP.dmaPairs length sourceStep destStep n source dest generalizing a with
  | nil => rfl
  | cons p l ih => rw [List.foldl_cons, ih, hword]

theorem CP.rspDmaRead_samePolls (a : Arch) : SamePolls a (CP.rspDmaRead a).1 := by
  have hword (source dest : Word) (a : Arch) : (CP.dmaReadWord source dest a).cp0 = a.cp0 := by
    rw [CP.dmaReadWord]
    split <;> rfl
  simp only [SamePolls, CP.rspDmaRead, CP.setCr_mfc0Count, CP.setCr_spStatusTimeout,
    CP.dmaRows_cp0 hword, and_self]

theorem CP.rspDmaWrite_samePolls (a : Arch) : SamePolls a (CP.rspDmaWrite a) := by
  have hword (source dest : Word) (a : Arch) : (CP.dmaWriteWord source dest a).cp0 = a.cp0 := rfl
  simp only [SamePolls, CP.rspDmaWrite, CP.setCr_mfc0Count, CP.setCr_spStatusTimeout,
    CP.dmaRows_cp0 hword, and_self]

theorem CP.mtc0Value_samePolls {rdp : CP.ProcessRdpList} (hrdp : CP.KeepsPolls rdp) (rd : Fin 16)
    (x : Word) (a : Arch) : SamePolls a (CP.mtc0Value rdp rd x a).1 := by
  have hite {p : Prop} [Decidable p] {r r' : Arch × ReturnMode} (h : SamePolls a r.1)
      (h' : SamePolls a r'.1) : SamePolls a (if p then r else r').1 := by
    split
    · exact h
    · exact h'
  rw [CP.mtc0Value]
  repeat' apply hite
  · exact ⟨rfl, rfl⟩
  · exact ⟨rfl, rfl⟩
  · exact CP.rspDmaRead_samePolls (CP.setCr a CP.dmaReadLength x)
  · exact CP.rspDmaWrite_samePolls (CP.setCr a CP.dmaWriteLength x)
  · exact ⟨rfl, rfl⟩
  · exact ⟨rfl, rfl⟩
  · exact ⟨rfl, rfl⟩
  · exact hrdp _ _ _
  · exact ⟨rfl, rfl⟩
  · dsimp only
    split <;> split <;> exact ⟨rfl, rfl⟩
  · exact ⟨rfl, rfl⟩
  · exact ⟨rfl, rfl⟩

theorem Mips.write_cp0 (a : Arch) (r : Fin 32) (x : Word) : (Mips.write a r x).cp0 = a.cp0 := by
  rw [Mips.write]
  split <;> rfl

theorem CP.rspMFC0_samePolls {rt rd : Fin 32} (hrd : rd.val % 16 ≠ CP.spStatus.val) (a : Arch) :
    SamePolls a (CP.rspMFC0 rt rd a).1 := by
  have hne : (⟨rd.val % 16, by omega⟩ : Fin 16) ≠ CP.spStatus := fun h => hrd (congrArg Fin.val h)
  rw [CP.rspMFC0]
  dsimp only
  rw [if_neg hne]
  split <;> split <;> exact ⟨rfl, rfl⟩

theorem LS.lwc2_cp0 (b : Build) (op : LS.LsOp) (e : Fin 16) (rt base : Fin 32) (offset : Word)
    (a : Arch) : (LS.lwc2 b op e rt base offset a).cp0 = a.cp0 := by
  cases op <;>
    simp only [LS.lwc2, LS.rspLBV, LS.rspLSV, LS.rspLLV, LS.rspLDV, LS.rspLQV, LS.rspLRV, LS.rspLPV,
      LS.rspLUV, LS.rspLHV, LS.rspLFV, LS.rspLWV, LS.rspLTV, LS.loadPacked, LS.loadLoop] <;>
    repeat' split
  all_goals rfl

/-- Other instructions do not count. -/
theorem Mips.exec_samePolls (hrdp : CP.KeepsPolls H.rdp) (pc : Word) (hi : i.poll = none)
    (a : Arch) : SamePolls a (Mips.exec H pc i a).1 := by
  cases i with
  | mfc0 rt rd =>
    refine CP.rspMFC0_samePolls (fun hrd => ?_) a
    rw [Instr.poll, if_pos hrd] at hi
    cases hi
  | mtc0 rt rd => exact CP.mtc0Value_samePolls hrdp _ _ a
  | shift | shiftv | alu | imm | lui | jalr | jal | load => exact .of_cp0 (Mips.write_cp0 a _ _)
  | regimm c link rs instr =>
    cases link with
    | true => exact .of_cp0 (Mips.write_cp0 a 31 (Mips.linkPc pc))
    | false => exact ⟨rfl, rfl⟩
  | mfc2 rt rd e =>
    refine .of_cp0 ?_
    simp only [Mips.exec, CP.rspMFC2]
    repeat' split
    all_goals rfl
  | mtc2 rt rd e =>
    refine .of_cp0 ?_
    simp only [Mips.exec, CP.rspMTC2]
    repeat' split
    all_goals rfl
  | cfc2 rt rd =>
    refine .of_cp0 ?_
    simp only [Mips.exec, CP.rspCFC2]
    split <;> rfl
  | lwc2 op e rt rs offset => exact .of_cp0 (LS.lwc2_cp0 H.build op e rt rs offset a)
  | _ => exact ⟨rfl, rfl⟩

/-- A poll: it counts, and halts the processor at the limit. -/
theorem Mips.exec_poll (H : Helpers) (pc : Word) (hi : i.poll = some r) (a : Arch) :
    let a' := (Mips.exec H pc i a).1
    let count := a.cp0.mfc0Count r + 1#16
    a'.cp0.mfc0Count = Function.update a.cp0.mfc0Count r count ∧
      a'.cp0.spStatusTimeout = a.cp0.spStatusTimeout ∧
      if a.cp0.spStatusTimeout.toInt ≤ count.toInt then
        (Mips.exec H pc i a).2 = .checkFlags ∧ a'.Halted
      else (Mips.exec H pc i a).2 = .continue := by
  cases i with
  | mfc0 rt rd =>
    rw [Instr.poll] at hi
    split at hi
    · rename_i hrd
      obtain rfl := Option.some.inj hi
      have heq : (⟨rd.val % 16, by omega⟩ : Fin 16) = CP.spStatus := Fin.ext hrd
      rw [Mips.exec, CP.rspMFC0]
      dsimp only
      rw [if_pos heq]
      generalize hb : (if rt.val ≠ 0 then { a with
        sr := Function.update a.sr rt (a.cp0.cr ⟨rd.val % 16, by omega⟩) } else a) = b
      have hcp0 : b.cp0 = a.cp0 := by
        rw [← hb]
        split <;> rfl
      rw [hcp0]
      by_cases hlimit : a.cp0.spStatusTimeout.toInt ≤ (a.cp0.mfc0Count rt + 1#16).toInt
      · rw [if_pos hlimit, if_pos hlimit]
        refine ⟨rfl, rfl, rfl, ?_⟩
        rw [Arch.halted_iff]
        simp [CP.setCr]
      · rw [if_neg hlimit, if_neg hlimit]
        exact ⟨rfl, rfl, rfl⟩
    · cases hi
  | _ => cases hi

/-! ### Runs -/

/-- In a call the instructions executed have polled `k r` times into register `r`. -/
structure Counted (timeout : Word) (start : List (Word × Word)) (k : Fin 32 → ℕ)
    (m : Mips.State) : Prop where
  /-- The limit. -/
  timeout : m.arch.cp0.spStatusTimeout = timeout
  /-- The counts. -/
  count : m.arch.cp0.mfc0Count = fun r => BitVec.ofNat 16 (k r)
  /-- The instructions. -/
  log : ∀ r, polls r m.log = polls r start + k r

variable {T : Word} {L : List (Word × Word)} {k : Fin 32 → ℕ} {m : Mips.State}

theorem Counted.withArch (hc : Counted T L k m) {a : Arch} (ha : SamePolls m.arch a) :
    Counted T L k (m.withArch a) := ⟨ha.2.trans hc.timeout, ha.1.trans hc.count, hc.log⟩

theorem Arch.breakStatus_samePolls (a : Arch) : SamePolls a a.breakStatus := by
  rw [Arch.breakStatus]
  dsimp only
  split <;> exact ⟨rfl, rfl⟩

theorem Counted.leave (hc : Counted T L k m) (mode : ReturnMode) :
    Counted T L k (m.leave mode) := by
  rw [Mips.State.leave]
  split
  · exact hc.withArch (Arch.breakStatus_samePolls _)
  · exact hc

theorem polls_cons (r : Fin 32) (x : Word × Word) (log : List (Word × Word)) :
    polls r (x :: log) = polls r log + if (decode x.2).poll = some r then 1 else 0 := by
  rw [polls, List.countP_cons]
  simp [polls]

/-- A count is a number below the limit. -/
theorem toInt_count {n : ℕ} (hT : T.toInt ≤ 0x7fff) (hn : n < pollLimit T) :
    (BitVec.ofNat 16 n + 1#16).toInt = n + 1 := by
  rw [pollLimit] at hn
  rw [← BitVec.ofNat_add, BitVec.toInt_ofNat', Int.bmod_def]
  omega

/-- One instruction polls once at most, and ends the run when the limit is reached. -/
theorem Counted.step (hrdp : CP.KeepsPolls H.rdp) (hT : T.toInt ≤ 0x7fff) (hc : Counted T L k m)
    (hk : ∀ r, k r < pollLimit T) :
    ∃ k', Counted T L k' (Mips.step H m) ∧ ((∀ r, k' r < pollLimit T) ∨
      (∀ r, k' r ≤ pollLimit T) ∧ (Mips.step H m).arch.Halted ∧ m.mode H = .checkFlags) := by
  cases hpoll : m.instr.poll with
  | none =>
    have hsame := Mips.exec_samePolls hrdp (Mips.fetchPc m.pc) hpoll m.arch
    refine ⟨k, ⟨hsame.2.trans hc.timeout, hsame.1.trans hc.count, fun r => ?_⟩, .inl hk⟩
    have hnone : (decode (Mips.fetch m.arch m.pc)).poll = none := hpoll
    rw [Mips.step, polls_cons, hnone, if_neg (by simp)]
    exact hc.log r
  | some r =>
    obtain ⟨hcount, htimeout, hmode⟩ := Mips.exec_poll H (Mips.fetchPc m.pc) hpoll m.arch
    have hnext := toInt_count hT (hk r)
    rw [hc.count] at hcount hmode
    rw [hc.timeout, hnext] at hmode
    refine ⟨Function.update k r (k r + 1), ⟨htimeout.trans hc.timeout, ?_, fun r' => ?_⟩, ?_⟩
    · refine hcount.trans (funext fun r' => ?_)
      by_cases hr : r' = r
      · subst hr
        rw [Function.update_self, Function.update_self, BitVec.ofNat_add]
      · rw [Function.update_of_ne hr, Function.update_of_ne hr]
    · have hsome : (decode (Mips.fetch m.arch m.pc)).poll = some r := hpoll
      rw [Mips.step, polls_cons, hsome, hc.log]
      by_cases hr : r' = r
      · subst hr
        rw [if_pos rfl, Function.update_self, Nat.add_assoc]
      · rw [if_neg fun h => hr (Option.some.inj h).symm, Function.update_of_ne hr, Nat.add_zero]
    · have hr := hk r
      by_cases hlimit : T.toInt ≤ (k r : ℤ) + 1
      · rw [if_pos hlimit] at hmode
        refine .inr ⟨fun r' => ?_, hmode.2, hmode.1⟩
        by_cases hr' : r' = r
        · subst hr'
          rw [Function.update_self]
          exact hr
        · rw [Function.update_of_ne hr']
          exact (hk r').le
      · refine .inl fun r' => ?_
        by_cases hr' : r' = r
        · subst hr'
          rw [Function.update_self, pollLimit]
          omega
        · rw [Function.update_of_ne hr']
          exact hk r'

/-- What holds of the polls in all states of a call: the limit is reached with the end of a run
only, and the processor is halted then. -/
def Processor.Polled (T : Word) (L : List (Word × Word)) (p : Processor) : Prop :=
  ∃ k, Counted T L k p.machine ∧ ((∀ r, k r < pollLimit T) ∨
    (∀ r, k r ≤ pollLimit T) ∧ p.machine.arch.Halted ∧ p.place ≠ .running ∧
      ∀ mode, p.place = .returned mode → mode = .checkFlags)

/-- No more polls than the limit, and at the end of the call the limit is reached halted. -/
theorem Processor.Polled.le {p : Processor} (hp : p.Polled T L) (r : Fin 32) :
    polls r p.machine.log ≤ polls r L + pollLimit T ∧
      (polls r p.machine.log = polls r L + pollLimit T → p.machine.arch.Halted) := by
  obtain ⟨k, hc, hk⟩ := hp
  rw [hc.log]
  obtain hbelow | ⟨hle, hhalted, -⟩ := hk
  · have hlt := hbelow r
    exact ⟨by omega, fun heq => absurd heq (by omega)⟩
  · have hr := hle r
    exact ⟨by omega, fun _ => hhalted⟩

namespace Jit

open Transition

namespace Plugin

variable {T : Target} {E : Env T}

end Plugin

end Jit

end ParallelRsp
