import ParallelRsp.Bits
import ParallelRsp.Mips.Machine

/-!
# Writes to IMEM

Compiled code is stale when the words it was compiled from change. The only instruction
that changes IMEM is a write to `CP0_REGISTER_DMA_READ_LENGTH`. It marks the code block of
every word written, and the one before, since a region may extend into the next block; and
when a block is marked it does not return `MODE_CONTINUE`, so that the run ends.
-/

namespace ParallelRsp

/-- The marks of code block `b` and the one before. -/
def dirtyMask (b : ℕ) : Word := (0x3#32 <<< b) >>> 1

theorem getLsbD_dirtyMask {b : ℕ} (hb : b < 16) (j : ℕ) :
    (dirtyMask b).getLsbD j ↔ j = b ∨ j + 1 = b := by
  by_cases hj : j < 32
  · have main : ∀ (b : Fin 16) (j : Fin 32), (dirtyMask b).getLsbD j ↔
        j.val = b ∨ j.val + 1 = b := by decide
    exact main ⟨b, hb⟩ ⟨j, hj⟩
  · rw [BitVec.getLsbD_of_ge _ _ (by omega)]
    constructor
    · exact nofun
    · omega

/-- Every word of IMEM that changed is in a marked code block, and so is the block before. -/
structure Dirtied (a a' : Arch) : Prop where
  /-- Marks stay. -/
  mono : ∀ b, a.dirtyBlocks.getLsbD b → a'.dirtyBlocks.getLsbD b
  /-- Words are marked. -/
  words : ∀ i, a'.imem i ≠ a.imem i → i < 1024 ∧ ∀ b, b = i / 64 ∨
    b + 1 = i / 64 → a'.dirtyBlocks.getLsbD b

theorem Dirtied.refl (a : Arch) : Dirtied a a := ⟨fun _ => id, fun _ hi => absurd rfl hi⟩

theorem Dirtied.trans {a a' a'' : Arch} (h : Dirtied a a') (h' : Dirtied a' a'') :
    Dirtied a a'' where
  mono b hb := h'.mono b (h.mono b hb)
  words i hi := by
    by_cases hi' : a''.imem i = a'.imem i
    · rw [hi'] at hi
      obtain ⟨hlt, hb⟩ := h.words i hi
      exact ⟨hlt, fun b hbi => h'.mono b (hb b hbi)⟩
    · exact h'.words i hi'

/-- Neither IMEM nor the marks are touched. -/
def SameCode (a a' : Arch) : Prop := a'.imem = a.imem ∧ a'.dirtyBlocks = a.dirtyBlocks

theorem SameCode.dirtied {a a' : Arch} (h : SameCode a a') : Dirtied a a' where
  mono b hb := by rwa [h.2]
  words i hi := absurd (congrFun h.1 i) hi

theorem SameCode.trans {a a' a'' : Arch} (h : SameCode a a') (h' : SameCode a' a'') :
    SameCode a a'' :=
  ⟨h'.1.trans h.1, h'.2.trans h.2⟩

/-- Without a mark, no word has changed. -/
theorem Dirtied.imem_eq {a a' : Arch} (h : Dirtied a a') (h0 : a'.dirtyBlocks = 0#32) :
    a'.imem = a.imem := by
  funext i
  by_contra hi
  have hb := (h.words i hi).2 (i / 64) (.inl rfl)
  rw [h0, BitVec.getLsbD_zero] at hb
  cases hb

/-! ### DMA -/

theorem CP.dmaReadWord_dirtied (source dest : Word) (a : Arch) :
    Dirtied a (CP.dmaReadWord source dest a) := by
  simp only [CP.dmaReadWord]
  split
  · have hlt : (dest &&& 0x1FFC#32 &&& 0xfff#32).toNat < 4096 := by
      rw [Bits.toNat_and_fff]
      exact Nat.mod_lt _ (by decide)
    constructor
    · intro b hb
      simp only [BitVec.getLsbD_or, hb, Bool.true_or]
    · intro i hi
      have hidx : i = (dest &&& 0x1FFC#32 &&& 0xfff#32).toNat / 4 := by
        by_contra hne
        refine hi (Function.update_of_ne ?_ _ _)
        rw [BitVec.toNat_ushiftRight, Nat.shiftRight_eq_div_pow]
        exact hne
      refine ⟨by omega, fun b hb => ?_⟩
      have hmask := (getLsbD_dirtyMask (b := (dest &&& 0x1FFC#32 &&& 0xfff#32).toNat / 256)
        (by omega) b).2 (by omega)
      rw [dirtyMask] at hmask
      simp only [BitVec.getLsbD_or, hmask, Bool.or_true]
  · exact SameCode.dirtied ⟨rfl, rfl⟩

theorem CP.dmaRow_dirtied (length source dest : Word) (a : Arch) :
    Dirtied a (CP.dmaRow CP.dmaReadWord length source dest a) := by
  rw [CP.dmaRow]
  induction List.range (length.toNat / 4) generalizing a with
  | nil => exact .refl a
  | cons k ks ih => exact (CP.dmaReadWord_dirtied _ _ a).trans (ih _)

theorem CP.dmaRows_dirtied (length sourceStep destStep : Word)
    (n : ℕ) (source dest : Word) (a : Arch) :
    Dirtied a (CP.dmaRows CP.dmaReadWord length sourceStep destStep n source dest a).1 := by
  induction n generalizing source dest a with
  | zero => exact .refl a
  | succ n ih => exact (CP.dmaRow_dirtied length source dest a).trans (ih _ _ _)

theorem CP.rspDmaRead_dirtied (a : Arch) : Dirtied a (CP.rspDmaRead a).1 := by
  have hcr {b : Arch} (hb : Dirtied a b) (r : Fin 16) (x : Word) : Dirtied a (CP.setCr b r x) :=
    hb.trans (SameCode.dirtied ⟨rfl, rfl⟩)
  rw [CP.rspDmaRead]
  refine hcr (hcr (hcr ?_ _ _) _ _) _ _
  exact (hcr (hcr (.refl a) _ _) _ _).trans (CP.dmaRows_dirtied _ _ _ _ _ _ _)

/-- A DMA that changes IMEM ends the run. -/
theorem CP.rspDmaRead_continue {a : Arch} (h : (CP.rspDmaRead a).2 = .continue) :
    (CP.rspDmaRead a).1.dirtyBlocks = 0#32 := by
  by_contra h0
  have hmode : (CP.rspDmaRead a).2 = .checkFlags := if_pos h0
  rw [hmode] at h
  cases h

theorem CP.dmaRows_write_sameCode (length sourceStep destStep : Word)
    (n : ℕ) (source dest : Word) (a : Arch) :
    SameCode a (CP.dmaRows CP.dmaWriteWord length sourceStep destStep n source dest a).1 := by
  have hrow (source dest : Word) (a : Arch) :
      SameCode a (CP.dmaRow CP.dmaWriteWord length source dest a) := by
    rw [CP.dmaRow]
    induction List.range (length.toNat / 4) generalizing a with
    | nil => exact ⟨rfl, rfl⟩
    | cons k ks ih => exact SameCode.trans ⟨rfl, rfl⟩ (ih _)
  induction n generalizing source dest a with
  | zero => exact ⟨rfl, rfl⟩
  | succ n ih => exact (hrow source dest a).trans (ih _ _ _)

theorem CP.rspDmaWrite_sameCode (a : Arch) : SameCode a (CP.rspDmaWrite a) := by
  rw [CP.rspDmaWrite]
  dsimp only
  exact CP.dmaRows_write_sameCode _ _ _ _ _ _ (CP.setCr (CP.setCr a _ _) _ _)

/-! ### Every instruction -/

/-- The words of IMEM that changed are marked, and there are none when control goes on. -/
def Marks (a : Arch) (r : Arch × ReturnMode) : Prop :=
  Dirtied a r.1 ∧ (r.2 = .continue → r.1.imem = a.imem)

theorem SameCode.marks {a : Arch} {r : Arch × ReturnMode} (h : SameCode a r.1) :
    Marks a r := ⟨h.dirtied, fun _ => h.1⟩

/-- Only a DMA into the SP touches IMEM or the marks. -/
theorem CP.mtc0Value_code (rdp : CP.ProcessRdpList) (rd : Fin 16) (x : Word) (a : Arch) :
    SameCode a (CP.mtc0Value rdp rd x a).1 ∨
      CP.mtc0Value rdp rd x a = CP.rspDmaRead (CP.setCr a CP.dmaReadLength x) := by
  let P (r : Arch × ReturnMode) : Prop :=
    SameCode a r.1 ∨ r = CP.rspDmaRead (CP.setCr a CP.dmaReadLength x)
  have hite {p : Prop} [Decidable p] {r r' : Arch × ReturnMode} (h : P r) (h' : P r') :
      P (if p then r else r') := by
    split
    · exact h
    · exact h'
  have hsame {r : Arch × ReturnMode} (hi : r.1.imem = a.imem)
      (hd : r.1.dirtyBlocks = a.dirtyBlocks) : P r :=
    .inl ⟨hi, hd⟩
  change P (CP.mtc0Value rdp rd x a)
  rw [CP.mtc0Value]
  repeat' apply hite
  · exact hsame rfl rfl
  · exact hsame rfl rfl
  · exact .inr rfl
  · exact .inl (CP.rspDmaWrite_sameCode (CP.setCr a CP.dmaWriteLength x))
  · exact hsame rfl rfl
  · exact hsame rfl rfl
  · exact hsame rfl rfl
  · exact hsame rfl rfl
  · exact hsame rfl rfl
  · dsimp only
    split <;> split <;> exact hsame rfl rfl
  · exact hsame rfl rfl
  · exact hsame rfl rfl

theorem CP.mtc0Value_marks (rdp : CP.ProcessRdpList) (rd : Fin 16) (x : Word) (a : Arch) :
    Marks a (CP.mtc0Value rdp rd x a) := by
  rcases CP.mtc0Value_code rdp rd x a with hsame | hdma
  · exact hsame.marks
  · have hset : SameCode a (CP.setCr a CP.dmaReadLength x) := ⟨rfl, rfl⟩
    have hd := CP.rspDmaRead_dirtied (CP.setCr a CP.dmaReadLength x)
    rw [hdma]
    exact ⟨hset.dirtied.trans hd, fun hc => hd.imem_eq (CP.rspDmaRead_continue hc)⟩

/-- Where no code block was marked, one is marked only with `MODE_CHECK_FLAGS`. -/
theorem CP.mtc0Value_checkFlags (rdp : CP.ProcessRdpList)
    (rd : Fin 16) (x : Word) {a : Arch} (h0 : a.dirtyBlocks = 0#32) :
    (CP.mtc0Value rdp rd x a).1.dirtyBlocks = 0#32 ∨ (CP.mtc0Value rdp rd x a).2 = .checkFlags := by
  rcases CP.mtc0Value_code rdp rd x a with hsame | hdma
  · exact .inl (hsame.2.trans h0)
  · rw [hdma]
    by_cases hz : (CP.rspDmaRead (CP.setCr a CP.dmaReadLength x)).1.dirtyBlocks = 0#32
    · exact .inl hz
    · exact .inr (if_pos hz)

theorem CP.rspMFC0_sameCode (rt rd : Fin 32) (a : Arch) : SameCode a (CP.rspMFC0 rt rd a).1 := by
  rw [CP.rspMFC0]
  dsimp only
  repeat' split
  all_goals exact ⟨rfl, rfl⟩

theorem LS.lwc2_sameCode (b : Build) (op : LS.LsOp) (e : Fin 16)
    (rt base : Fin 32) (offset : Word) (a : Arch) :
    SameCode a (LS.lwc2 b op e rt base offset a) := by
  constructor <;> cases op <;>
    simp only [LS.lwc2, LS.rspLBV, LS.rspLSV, LS.rspLLV, LS.rspLDV, LS.rspLQV, LS.rspLRV, LS.rspLPV,
      LS.rspLUV, LS.rspLHV, LS.rspLFV, LS.rspLWV, LS.rspLTV, LS.loadPacked, LS.loadLoop] <;>
    repeat' split
  all_goals rfl

theorem Mips.write_sameCode (a : Arch) (r : Fin 32) (x : Word) : SameCode a (Mips.write a r x) := by
  rw [Mips.write]
  split <;> exact ⟨rfl, rfl⟩

theorem CP.rspMFC2_sameCode (rt rd : Fin 32) (e : Fin 16) (a : Arch) :
    SameCode a (CP.rspMFC2 rt rd e a) := by
  simp only [CP.rspMFC2]
  repeat' split
  all_goals exact ⟨rfl, rfl⟩

theorem CP.rspMTC2_sameCode (rt rd : Fin 32) (e : Fin 16) (a : Arch) :
    SameCode a (CP.rspMTC2 rt rd e a) := by
  simp only [CP.rspMTC2]
  repeat' split
  all_goals exact ⟨rfl, rfl⟩

theorem CP.rspCFC2_sameCode (rt rd : Fin 32) (a : Arch) : SameCode a (CP.rspCFC2 rt rd a) := by
  simp only [CP.rspCFC2]
  split <;> exact ⟨rfl, rfl⟩

/-- Every instruction marks the words of IMEM that it changes, and
changes none when control goes on. -/
theorem Mips.exec_marks (H : Helpers) (pc : Word) (i : Instr) (a : Arch) :
    Marks a (Mips.exec H pc i a) := by
  cases i with
  | shift op rd rt sa => exact (Mips.write_sameCode _ _ _).marks
  | shiftv op rd rt rs => exact (Mips.write_sameCode _ _ _).marks
  | alu op rd rs rt => exact (Mips.write_sameCode _ _ _).marks
  | imm op rt rs x => exact (Mips.write_sameCode _ _ _).marks
  | lui rt x => exact (Mips.write_sameCode _ _ _).marks
  | jalr rd rs => exact (Mips.write_sameCode _ _ _).marks
  | jal instr => exact (Mips.write_sameCode _ _ _).marks
  | load op rt rs x => exact (Mips.write_sameCode _ _ _).marks
  | regimm c link rs instr =>
    refine SameCode.marks ?_
    rw [Mips.exec]
    dsimp only
    split
    · exact Mips.write_sameCode _ _ _
    · exact ⟨rfl, rfl⟩
  | mfc0 rt rd => exact (CP.rspMFC0_sameCode rt rd a).marks
  | mtc0 rt rd => exact CP.mtc0Value_marks H.rdp _ _ a
  | mfc2 rt rd e => exact (CP.rspMFC2_sameCode rt rd e a).marks
  | mtc2 rt rd e => exact (CP.rspMTC2_sameCode rt rd e a).marks
  | cfc2 rt rd => exact (CP.rspCFC2_sameCode rt rd a).marks
  | lwc2 op e rt rs offset => exact (LS.lwc2_sameCode H.build op e rt rs offset a).marks
  | _ => exact SameCode.marks ⟨rfl, rfl⟩

end ParallelRsp
