import ParallelRsp.Bits
import ParallelRsp.Jit.RegionRules

/-!
# Branches within a region

A static branch into the region goes to an instruction that `jit_mark_block_entries` has
marked, although the marks are computed from word indices and the target of the branch
from byte addresses. An instruction behind a jump tells it whether its delay slot is
marked, and then compiles a conditional branch. The exception is `BLEZ $0`.
-/

namespace ParallelRsp.Jit

open Codegen

namespace Region

variable (R : Region)

/-- The information of an instruction. -/
def info (i : ℕ) : InstructionInfo := instructionInfo (R.pc i) (R.instr i) (R.nextIsTarget i)

/-- `last_info` in round `i`. -/
def lastInfo (i : ℕ) : InstructionInfo := if i = 0 then {} else R.info (i - 1)

end Region

/-! ### Addresses -/

theorem toNat_and_ffc (x : Word) : (x &&& 0xffc#32).toNat = x.toNat % 4096 / 4 * 4 := by
  have hmask : (0xffc#32 : Word) = 0xfff#32 &&& ~~~3#32 := by decide
  rw [hmask, ← BitVec.and_assoc]
  have h3 := Bits.toNat_and_not_ones (x &&& 0xfff#32) 2
  rw [Bits.toNat_and_fff] at h3
  exact h3

theorem toNat_and_3ff (x : Word) : (x &&& 0x3ff#32).toNat = x.toNat % 1024 :=
  Bits.toNat_and_ones x 10 (by norm_num)

/-- The byte address of a word of IMEM. -/
def wordPc (w : ℕ) : Word := BitVec.ofNat 32 (4 * w)

theorem toNat_wordPc {w : ℕ} (hw : w ≤ imemWords) : (wordPc w).toNat = 4 * w := by
  rw [wordPc, BitVec.toNat_ofNat]
  refine Nat.mod_eq_of_lt ?_
  simp only [imemWords] at hw
  omega

theorem wordPc_injective {w w' : ℕ} (hw : w ≤ imemWords)
    (hw' : w' ≤ imemWords) (h : wordPc w = wordPc w') : w = w' := by
  have hn := congrArg BitVec.toNat h
  rw [toNat_wordPc hw, toNat_wordPc hw'] at hn
  omega

/-- The target of a branch, by bytes and by words. -/
theorem branchTarget_wordPc (w : ℕ) (instr : Word) :
    branchTarget (wordPc w) instr =
      wordPc ((BitVec.ofNat 32 (w + 1) + instr) &&& 0x3ff#32).toNat := by
  apply BitVec.eq_of_toNat_eq
  have hlt : ((BitVec.ofNat 32 (w + 1) + instr) &&& 0x3ff#32).toNat < 1024 := by
    rw [toNat_and_3ff]
    exact Nat.mod_lt _ (by norm_num)
  rw [toNat_wordPc hlt.le, branchTarget, toNat_and_ffc, toNat_and_3ff]
  simp only [wordPc, BitVec.toNat_add, BitVec.toNat_ofNat, BitVec.toNat_shiftLeft, Nat.shiftLeft_eq]
  omega

theorem jumpTarget_wordPc (instr : Word) :
    jumpTarget instr = wordPc (instr &&& 0x3ff#32).toNat := by
  apply BitVec.eq_of_toNat_eq
  have hlt : (instr &&& 0x3ff#32).toNat < 1024 := by
    rw [toNat_and_3ff]
    exact Nat.mod_lt _ (by norm_num)
  rw [toNat_wordPc hlt.le, jumpTarget, BitVec.toNat_shiftLeft, Nat.shiftLeft_eq]
  omega

theorem followingPc_wordPc {w : ℕ} (hw : w < imemWords) :
    followingPc (wordPc w) = wordPc ((w + 1) % imemWords) := by
  apply BitVec.eq_of_toNat_eq
  rw [toNat_wordPc (Nat.mod_lt _ (by norm_num)).le, followingPc, toNat_and_ffc, BitVec.toNat_add,
    toNat_wordPc hw.le, show (4#32 : Word).toNat = 4 from rfl]
  simp only [imemWords] at hw ⊢
  omega

theorem fetchPc_wordPc {w : ℕ} (hw : w < imemWords) : Mips.fetchPc (wordPc w) = wordPc w := by
  apply BitVec.eq_of_toNat_eq
  rw [Mips.fetchPc, toNat_and_ffc, toNat_wordPc hw.le]
  simp only [imemWords] at hw
  omega

theorem wordPc_shift {w : ℕ} (hw : w ≤ imemWords) : (wordPc w >>> 2).toNat = w := by
  rw [BitVec.toNat_ushiftRight, toNat_wordPc hw, Nat.shiftRight_eq_div_pow]
  omega

/-! ### Static branches -/

theorem instructionInfo_branch (pc : Word) (i : Instr) (nextIsTarget : Bool) :
    (instructionInfo pc i nextIsTarget).branch = i.isBranch := by
  cases i with
  | bgtz rs instr =>
    by_cases h0 : rs = 0
    · subst h0
      rfl
    · have h0' : rs.val ≠ 0 := fun hv => h0 (Fin.ext hv)
      rw [instructionInfo, if_neg h0, Instr.isBranch, decide_eq_true h0']
  | _ => rfl

theorem instructionInfo_indirect (pc : Word) (i : Instr) (nextIsTarget : Bool) :
    (instructionInfo pc i nextIsTarget).indirect = i.isIndirect := by
  cases i with
  | bgtz rs instr =>
    rw [instructionInfo]
    split <;> rfl
  | _ => rfl

/-- A branch that is not indirect goes where the marks say. -/
theorem staticTarget_of_branch (w : ℕ) (instr : Word) (nextIsTarget : Bool)
    (hb : (decode instr).isBranch) (hi : ¬(decode instr).isIndirect) :
    ∃ t, staticTarget w instr = some t ∧ t < imemWords ∧
      (instructionInfo (wordPc w) (decode instr) nextIsTarget).branchTarget = wordPc t := by
  have hlt (x : Word) : (x &&& 0x3ff#32).toNat < imemWords := by
    rw [toNat_and_3ff]
    exact Nat.mod_lt _ (by norm_num)
  rw [staticTarget]
  generalize decode instr = i at hb hi
  cases i with
  | j x | jal x => exact ⟨_, rfl, hlt _, jumpTarget_wordPc _⟩
  | regimm z link rs x => exact ⟨_, rfl, hlt _, branchTarget_wordPc _ _⟩
  | beq rs rt x | bne rs rt x => exact ⟨_, rfl, hlt _, branchTarget_wordPc _ _⟩
  | blez rs x => exact ⟨_, rfl, hlt _, branchTarget_wordPc _ _⟩
  | bgtz rs x =>
    refine ⟨_, rfl, hlt _, ?_⟩
    have h0 : rs ≠ 0 := by
      rintro rfl
      cases hb
    rw [instructionInfo, if_neg h0]
    exact branchTarget_wordPc _ _
  | jr rs | jalr rd rs => exact absurd rfl hi
  | _ => cases hb

namespace Region

variable {R : Region} {i j : ℕ}

theorem pc_eq (R : Region) (i : ℕ) : R.pc i = wordPc (R.pcWord + i) := rfl

theorem word_lt (hi : i < R.count) : R.pcWord + i < imemWords := by
  have := R.inside
  omega

theorem info_branch : (R.info i).branch = (R.instr i).isBranch := instructionInfo_branch _ _ _

theorem info_indirect : (R.info i).indirect = (R.instr i).isIndirect :=
  instructionInfo_indirect _ _ _

theorem has_wordPc {t : ℕ} (ht : t < imemWords) :
    R.Has (wordPc t) ↔ R.pcWord ≤ t ∧ t < R.pcWord + R.count := by
  rw [Has, toNat_wordPc ht.le]
  omega

/-- A static branch into the region goes to a block entry. -/
theorem blockEntry_of_target {t : ℕ} (hi : i < R.count)
    (ht : staticTarget (R.pcWord + i) (R.word i) = some t)
    (hlo : R.pcWord ≤ t) (hhi : t < R.pcWord + R.count) : R.blockEntry (t - R.pcWord) := by
  rw [blockEntry, jitMarkBlockEntries, Bool.and_eq_true, decide_eq_true_iff, List.any_eq_true]
  refine ⟨by omega, i, List.mem_range.2 (by omega), ?_⟩
  rw [beq_iff_eq, show R.imem (R.pcWord + i) = R.word i from rfl, ht]
  congr 1
  omega

/-- A branch that is compiled as a jump to a label. -/
theorem localLabel_some {l : Label} (hi : i < R.count) (hb : (R.info i).branch)
    (hl : R.localLabel (R.info i) = some l) :
    ∃ j, l = .instr j ∧ j < R.count ∧ R.blockEntry j ∧ (R.info i).branchTarget = R.pc j ∧
      ¬(R.info i).indirect := by
  rw [localLabel] at hl
  split at hl
  · rename_i hcond
    obtain ⟨hind, hhas⟩ := hcond
    rw [info_branch] at hb
    have hind' := hind
    rw [info_indirect] at hind
    obtain ⟨t, ht, hlt, htarget⟩ :=
      staticTarget_of_branch (R.pcWord + i) (R.word i) (R.nextIsTarget i) hb hind
    have htarget' : (R.info i).branchTarget = wordPc t := htarget
    rw [htarget'] at hl hhas
    rw [has_wordPc hlt] at hhas
    refine ⟨t - R.pcWord, ?_, by omega, blockEntry_of_target hi ht hhas.1 hhas.2, ?_, hind'⟩
    · rw [toNat_wordPc hlt.le] at hl
      rw [← Option.some.inj hl]
      congr 1
      omega
    · rw [htarget', pc_eq]
      congr 1
      omega
  · cases hl

/-- In front of a block entry stands no branch that is compiled unconditional, but `BLEZ $0`. -/
theorem unconditional_before_entry (hj : j + 1 < R.count)
    (he : R.blockEntry (j + 1)) (hb : (R.info j).branch)
    (hc : ¬(R.info j).conditional) : ∃ w, R.instr j = .blez 0 w := by
  have hnext : R.nextIsTarget j = true := by
    rw [nextIsTarget, decide_eq_true hj, he]
    rfl
  rw [info_branch] at hb
  rw [info, hnext] at hc
  generalize R.instr j = x at hb hc
  cases x with
  | blez rs w =>
    have h0 : rs = 0 := by
      by_contra h0
      exact hc (decide_eq_true h0)
    exact ⟨w, by rw [h0]⟩
  | bgtz rs w =>
    rw [instructionInfo] at hc
    split at hc
    · rename_i h0
      rw [h0] at hb
      cases hb
    · exact absurd rfl hc
  | jr rs | jalr rd rs | j w | jal w | regimm z l rs w | beq rs rt w | bne rs rt w =>
      exact absurd rfl hc
  | _ => cases hb

end Region

end ParallelRsp.Jit
