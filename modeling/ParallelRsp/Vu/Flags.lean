import ParallelRsp.Rsp.Cp2
import ParallelRsp.Vu.Functions
import ParallelRsp.Simd.Masks

/-!
# The flag registers

Every lane of a flag register is all ones or all zeros, the upper half of `VCE` is zero
and `dp_flag` is a boolean: on this rest the blends of the vector kernels, and the
conversion to scalars by packing and taking sign bits.

## The model

`FlagInv` is the representation invariant. `Cp2Op` are the instructions that touch the
vector unit, together with `other`, which stands for whatever the processor does in
between to its scalar registers and memories; `Cp2Op.run` is one step and `runOps` a run.

## What is proved

* `FlagInv.vuop` and `FlagInv.step`: every operation keeps the invariant.
* `flags_of_run`: in every state reached from a cleared vector unit the invariant holds,
  reading a flag register into a scalar register and writing it back changes nothing, and
  what is written is read back, sign-extended.

## Honest scope

Register `$0` cannot carry a flag register: `CFC2` does not write it, so writing it back
clears the flags.
-/

namespace ParallelRsp

open Simd

/-- Every lane of a vector is a mask. -/
def IsMaskVec (v : M128i) : Prop := ∀ i, IsMask (v i)

/-- Every lane of a flag register is a mask. -/
def IsMaskFlag (f : FlagVector) : Prop := IsMaskVec f.hi ∧ IsMaskVec f.lo

/-- The representation invariant of the flag registers. -/
structure FlagInv (cp2 : CP2) : Prop where
  /-- The lanes of the flag registers are masks. -/
  masks : ∀ f, IsMaskFlag (cp2.flags f)
  /-- The upper half of `VCE` is not used. -/
  vceHi : ∀ i, (cp2.flags rspVCE).hi i = 0#16
  /-- `dp_flag` is a boolean. -/
  dpFlag : cp2.dpFlag = 0#8 ∨ cp2.dpFlag = 1#8

/-! ### Masks, vector by vector -/

section MaskVec

variable {a b m : M128i}

theorem isMaskVec_zero : IsMaskVec mmSetzeroSi128 := fun _ => isMask_zero

theorem isMaskVec_cmpeq : IsMaskVec (mmCmpeqEpi16 a b) := fun _ => isMask_maskOf _

theorem isMaskVec_cmpgt : IsMaskVec (mmCmpgtEpi16 a b) := fun _ => isMask_maskOf _

theorem isMaskVec_cmplt : IsMaskVec (mmCmpltEpi16 a b) := fun _ => isMask_maskOf _

theorem isMaskVec_srai : IsMaskVec (mmSraiEpi16 a 15) := fun _ => isMask_sshiftRight _

theorem IsMaskVec.and (ha : IsMaskVec a) (hb : IsMaskVec b) : IsMaskVec (mmAndSi128 a b) :=
  fun i => (ha i).and (hb i)

theorem IsMaskVec.or (ha : IsMaskVec a) (hb : IsMaskVec b) : IsMaskVec (mmOrSi128 a b) :=
  fun i => (ha i).or (hb i)

theorem IsMaskVec.andnot (ha : IsMaskVec a) (hb : IsMaskVec b) : IsMaskVec (mmAndnotSi128 a b) :=
  fun i => (ha i).andnot (hb i)

theorem IsMaskVec.blend (ha : IsMaskVec a) (hb : IsMaskVec b) (hm : IsMaskVec m) :
    IsMaskVec (mmBlendvEpi8 a b m) := by
  intro i
  rw [mmBlendvEpi8_apply a b m i (hm i)]
  split
  · exact hb i
  · exact ha i

/-- The blend of masks and their mux are masks, whichever the build uses. -/
theorem IsMaskVec.select {p : Bool} {x y : M128i} (hx : IsMaskVec x) (hy : IsMaskVec y) :
    IsMaskVec (if p then x else y) := by
  cases p
  · exact hy
  · exact hx

end MaskVec

/-! ### The flags of the kernels -/

section Kernels

variable (b : Build) (vs vt : M128i)

theorem rspVch_masks (zero : M128i) :
    IsMaskVec (rspVch b vs vt zero).ge ∧ IsMaskVec (rspVch b vs vt zero).le ∧
      IsMaskVec (rspVch b vs vt zero).eq ∧ IsMaskVec (rspVch b vs vt zero).sign ∧
      IsMaskVec (rspVch b vs vt zero).vce := by
  refine ⟨?_, ?_, isMaskVec_cmpeq, isMaskVec_cmplt, isMaskVec_cmpeq.and isMaskVec_cmplt⟩
  · exact ((isMaskVec_cmpgt.or isMaskVec_cmpeq).blend isMaskVec_cmplt isMaskVec_cmplt).select
      ((isMaskVec_cmplt.and isMaskVec_cmplt).or
        (isMaskVec_cmplt.andnot (isMaskVec_cmpgt.or isMaskVec_cmpeq)))
  · exact (isMaskVec_cmplt.blend isMaskVec_cmpeq isMaskVec_cmplt).select
      ((isMaskVec_cmplt.and isMaskVec_cmpeq).or (isMaskVec_cmplt.andnot isMaskVec_cmplt))

theorem rspVcl_masks (zero : M128i) {ge le eq sign vce : M128i} (hge : IsMaskVec ge)
    (hle : IsMaskVec le) (heq : IsMaskVec eq) (hsign : IsMaskVec sign) (hvce : IsMaskVec vce) :
    IsMaskVec (rspVcl b vs vt zero ge le eq sign vce).ge ∧
      IsMaskVec (rspVcl b vs vt zero ge le eq sign vce).le := by
  have hleEq : ∀ {z c : M128i}, IsMaskVec z → IsMaskVec c →
      IsMaskVec (mmOrSi128 (mmAndSi128 (mmCmpeqEpi16 vce zero) (mmAndSi128 z c))
        (mmAndSi128 vce (mmOrSi128 z c))) :=
    fun hz hc => (isMaskVec_cmpeq.and (hz.and hc)).or (hvce.and (hz.or hc))
  constructor
  · exact (isMaskVec_cmpeq.blend hge (hsign.or heq)).select
      (((hsign.or heq).andnot isMaskVec_cmpeq).or ((hsign.or heq).and hge))
  · exact (hle.blend (hleEq isMaskVec_cmpeq isMaskVec_cmpeq) (heq.andnot hsign)).select
      (((heq.andnot hsign).and (hleEq isMaskVec_cmpeq isMaskVec_cmpeq)).or
        ((heq.andnot hsign).andnot hle))

theorem rspVcr_masks : IsMaskVec (rspVcr b vs vt).ge ∧ IsMaskVec (rspVcr b vs vt).le :=
  ⟨isMaskVec_cmpeq, isMaskVec_srai⟩

theorem rspVeq_mask {eq : M128i} (heq : IsMaskVec eq) : IsMaskVec (rspVeq b vs vt eq).le :=
  heq.andnot isMaskVec_cmpeq

theorem rspVge_mask {eq sign : M128i} (heq : IsMaskVec eq) (hsign : IsMaskVec sign) :
    IsMaskVec (rspVge b vs vt eq sign).le :=
  isMaskVec_cmpgt.or ((heq.and hsign).andnot isMaskVec_cmpeq)

theorem rspVlt_mask {eq sign : M128i} (heq : IsMaskVec eq) (hsign : IsMaskVec sign) :
    IsMaskVec (rspVlt b vs vt eq sign).le :=
  isMaskVec_cmplt.or (hsign.and (heq.and isMaskVec_cmpeq))

theorem rspVne_mask (zero : M128i) {eq : M128i} (heq : IsMaskVec eq) :
    IsMaskVec (rspVne b vs vt zero eq).le :=
  (heq.and isMaskVec_cmpeq).or isMaskVec_cmpeq

end Kernels

/-! ### The invariant, operation by operation -/

namespace FlagInv

variable {cp2 : CP2}

theorem zero : FlagInv CP2.zero :=
  ⟨fun _ => ⟨isMaskVec_zero, isMaskVec_zero⟩, fun _ => rfl, Or.inl rfl⟩

/-- The invariant is about the flags only. -/
theorem congr {c : CP2} (h : FlagInv cp2) (hf : c.flags = cp2.flags)
    (hd : c.dpFlag = cp2.dpFlag) : FlagInv c :=
  ⟨fun f => hf ▸ h.masks f, fun i => hf ▸ h.vceHi i, hd ▸ h.dpFlag⟩

theorem setFlag (h : FlagInv cp2) {f : FlagReg} {v : FlagVector} (hv : IsMaskFlag v)
    (hz : f = rspVCE → ∀ i, v.hi i = 0#16) : FlagInv (VU.setFlag cp2 f v) := by
  refine ⟨fun g => ?_, fun i => ?_, h.dpFlag⟩
  · by_cases hg : g = f
    · subst hg
      simpa [VU.setFlag] using hv
    · simpa [VU.setFlag, hg] using h.masks g
  · by_cases hf : f = rspVCE
    · subst hf
      simpa [VU.setFlag] using hz rfl i
    · simpa [VU.setFlag, Ne.symm hf] using h.vceHi i

theorem clearVco (h : FlagInv cp2) : FlagInv (VU.clearVco cp2) :=
  h.setFlag ⟨isMaskVec_zero, isMaskVec_zero⟩ fun _ _ => rfl

theorem setVco (h : FlagInv cp2) {hi lo : M128i} (hhi : IsMaskVec hi) (hlo : IsMaskVec lo) :
    FlagInv (VU.setFlag cp2 rspVCO ⟨hi, lo⟩) :=
  h.setFlag ⟨hhi, hlo⟩ fun hf => absurd hf (by decide)

theorem setVcc (h : FlagInv cp2) {hi lo : M128i} (hhi : IsMaskVec hi) (hlo : IsMaskVec lo) :
    FlagInv (VU.setFlag cp2 rspVCC ⟨hi, lo⟩) :=
  h.setFlag ⟨hhi, hlo⟩ fun hf => absurd hf (by decide)

theorem writeVce (h : FlagInv cp2) {v : M128i} (hv : IsMaskVec v) : FlagInv (VU.writeVce cp2 v) :=
  h.setFlag ⟨(h.masks rspVCE).1, hv⟩ fun _ => h.vceHi

/-- The result of an operation: the accumulator and one register are not flags. -/
theorem result (h : FlagInv cp2) (lo : M128i) (vd : Fin 32) (r : M128i) :
    FlagInv (VU.storeResult (VU.writeAccLo cp2 lo) vd r) := h.congr rfl rfl

theorem storeCmp (h : FlagInv cp2) (vd : Fin 32) {r : CmpOut} (hr : IsMaskVec r.le) :
    FlagInv (VU.storeCmp vd cp2 r) :=
  ((h.setVcc isMaskVec_zero hr).clearVco).result _ _ _

theorem withDpFlag (h : FlagInv cp2) {d : BitVec 8} (hd : d = 0#8 ∨ d = 1#8) :
    FlagInv { cp2 with dpFlag := d } := ⟨h.masks, h.vceHi, hd⟩

section Operations

variable (b : Build) (e : Fin 16) (vd vs vt : Fin 32)

theorem rspVCH (h : FlagInv cp2) : FlagInv (VU.rspVCH b e vd vs vt cp2) := by
  obtain ⟨hge, hle, heq, hsign, hvce⟩ :=
    rspVch_masks b (VU.loadVs vs cp2) (VU.loadVt b e vt cp2) mmSetzeroSi128
  exact (((h.setVcc hge hle).setVco heq hsign).writeVce hvce).result _ _ _

theorem rspVCL (h : FlagInv cp2) : FlagInv (VU.rspVCL b e vd vs vt cp2) := by
  obtain ⟨hge, hle⟩ := rspVcl_masks b (VU.loadVs vs cp2) (VU.loadVt b e vt cp2) mmSetzeroSi128
    (h.masks rspVCC).1 (h.masks rspVCC).2 (h.masks rspVCO).1 (h.masks rspVCO).2 (h.masks rspVCE).2
  exact (((h.setVcc hge hle).clearVco).writeVce isMaskVec_zero).result _ _ _

theorem rspVCR (h : FlagInv cp2) : FlagInv (VU.rspVCR b e vd vs vt cp2) := by
  obtain ⟨hge, hle⟩ := rspVcr_masks b (VU.loadVs vs cp2) (VU.loadVt b e vt cp2)
  exact (((h.setVcc hge hle).clearVco).writeVce isMaskVec_zero).result _ _ _

theorem divSingle (h : FlagInv cp2) (vrsq : Bool) : FlagInv (VU.divSingle b e vd vs vt cp2 vrsq) :=
  (h.withDpFlag (Or.inl rfl)).congr rfl rfl

theorem divLow (h : FlagInv cp2) (vrsq : Bool) : FlagInv (VU.divLow b e vd vs vt cp2 vrsq) :=
  (h.withDpFlag (Or.inl rfl)).congr rfl rfl

theorem divHigh (h : FlagInv cp2) : FlagInv (VU.divHigh b e vd vs vt cp2) :=
  (h.withDpFlag (Or.inr rfl)).congr rfl rfl

/-- Every entry of the dispatch table keeps the invariant. -/
theorem vuop (h : FlagInv cp2) (op : Fin 64) : FlagInv (VU.vuop b e vd vs vt cp2 op) := by
  apply VU.vuop_cases (motive := fun _ f => FlagInv (f b cp2))
  -- additions and subtractions
  case vadd => exact h.clearVco.result _ _ _
  case vsub => exact h.clearVco.result _ _ _
  case vaddc => exact (h.setVco isMaskVec_zero isMaskVec_cmpeq).result _ _ _
  case vsubc => exact (h.setVco isMaskVec_cmpeq
    (isMaskVec_cmpeq.andnot isMaskVec_cmpeq)).result _ _ _
  -- comparisons, clip tests and merging
  case vlt => exact h.storeCmp vd (rspVlt_mask b _ _ (h.masks rspVCO).1 (h.masks rspVCO).2)
  case veq => exact h.storeCmp vd (rspVeq_mask b _ _ (h.masks rspVCO).1)
  case vne => exact h.storeCmp vd (rspVne_mask b _ _ _ (h.masks rspVCO).1)
  case vge => exact h.storeCmp vd (rspVge_mask b _ _ (h.masks rspVCO).1 (h.masks rspVCO).2)
  case vcl => exact h.rspVCL b e vd vs vt
  case vch => exact h.rspVCH b e vd vs vt
  case vcr => exact h.rspVCR b e vd vs vt
  case vmrg => exact h.clearVco.result _ _ _
  -- divisions
  case vrcp => exact h.divSingle b e vd vs vt false
  case vrcpl => exact h.divLow b e vd vs vt false
  case vrcph => exact h.divHigh b e vd vs vt
  case vrsq => exact h.divSingle b e vd vs vt true
  case vrsql => exact h.divLow b e vd vs vt true
  case vrsqh => exact h.divHigh b e vd vs vt
  -- the rest writes no flag
  case vnop | reserved => exact fun _ => h.congr rfl rfl
  all_goals exact h.congr rfl rfl

end Operations

end FlagInv

/-! ### Flag registers as numbers -/

/-- The table of `rsp_set_flags` holds the bits of its index. -/
theorem setFlagsArray_apply : ∀ n : Fin 16, ∀ k : Fin 4,
    setFlagsArray n k = maskOf (n.val.testBit k.val = true) := by decide

theorem setFlagsHalf_apply (rt : BitVec 16) (i : Fin 8) :
    setFlagsHalf rt i = maskOf (rt.getLsbD i.val = true) := by
  rw [setFlagsHalf, setFlagsArray_apply]
  apply maskOf_congr
  have hbit : (((rt >>> (4 * (i.val / 4))).extractLsb' 0 4).toFin.val).testBit (i.val % 4) =
      ((rt >>> (4 * (i.val / 4))).extractLsb' 0 4).getLsbD (i.val % 4) := rfl
  rw [hbit, BitVec.getLsbD_extractLsb', BitVec.getLsbD_ushiftRight]
  have h4 : i.val % 4 < 4 := by omega
  simp only [h4, decide_true, Bool.true_and]
  rw [show 4 * (i.val / 4) + (0 + i.val % 4) = i.val by omega]

theorem isMaskFlag_rspSetFlags (rt : BitVec 16) : IsMaskFlag (rspSetFlags rt) := by
  constructor
  · intro i
    simp only [rspSetFlags, setFlagsHalf_apply]
    exact isMask_maskOf _
  · intro i
    simp only [rspSetFlags, setFlagsHalf_apply]
    exact isMask_maskOf _

/-- Lane `j` of a flag register, the low lanes first. -/
def FlagVector.lane (f : FlagVector) (j : Fin 16) : BitVec 16 :=
  if h : j.val < 8 then f.lo ⟨j.val, h⟩ else f.hi ⟨j.val - 8, sub_eight_lt j⟩

theorem FlagVector.ext_lane {f g : FlagVector} (h : ∀ j, f.lane j = g.lane j) : f = g := by
  apply FlagVector.ext
  · funext i
    have := h ⟨i.val + 8, by omega⟩
    simpa [FlagVector.lane, show ¬ i.val + 8 < 8 by omega] using this
  · funext i
    have := h ⟨i.val, by omega⟩
    simpa [FlagVector.lane] using this

theorem IsMaskFlag.lane {f : FlagVector} (hf : IsMaskFlag f) (j : Fin 16) : IsMask (f.lane j) := by
  unfold FlagVector.lane
  split
  · exact hf.2 _
  · exact hf.1 _

theorem lane_rspSetFlags (rt : BitVec 16) (j : Fin 16) :
    (rspSetFlags rt).lane j = maskOf (rt.getLsbD j.val = true) := by
  unfold FlagVector.lane
  split
  · exact setFlagsHalf_apply rt _
  · refine (setFlagsHalf_apply (rt >>> 8) _).trans (maskOf_congr ?_)
    rw [BitVec.getLsbD_ushiftRight, show 8 + (j.val - 8) = j.val by omega]

/-- The scalar of a flag register holds its lanes as bits. -/
theorem getLsbD_rspGetFlags {f : FlagVector} (hf : IsMaskFlag f) (j : Fin 16) :
    (rspGetFlags f).getLsbD j.val = decide (f.lane j = 0xFFFF#16) := by
  rw [rspGetFlags, getLsbD_mmMovemaskEpi8, mmPacksEpi16, byteAt_ofBytes]
  unfold FlagVector.lane
  split
  · exact msb_satS_mask (hf.2 _)
  · exact msb_satS_mask (hf.1 _)

/-- Reading back the flags just written. -/
theorem rspGetFlags_rspSetFlags (rt : BitVec 16) : rspGetFlags (rspSetFlags rt) = rt := by
  apply BitVec.eq_of_getLsbD_eq
  intro j hj
  rw [getLsbD_rspGetFlags (isMaskFlag_rspSetFlags rt) ⟨j, hj⟩, lane_rspSetFlags]
  simp

/-- Writing back the flags just read. -/
theorem rspSetFlags_rspGetFlags {f : FlagVector} (hf : IsMaskFlag f) :
    rspSetFlags (rspGetFlags f) = f := by
  apply FlagVector.ext_lane
  intro j
  rw [lane_rspSetFlags, getLsbD_rspGetFlags hf]
  exact (maskOf_congr (by simp)).trans (hf.lane j).eq_maskOf.symm

/-- A flag register without high lanes is an 8-bit number. -/
theorem rspGetFlags_and_ff {f : FlagVector} (hf : IsMaskFlag f) (hz : ∀ i, f.hi i = 0#16) :
    rspGetFlags f &&& 0xff#16 = rspGetFlags f := by
  apply BitVec.eq_of_getLsbD_eq
  intro j hj
  have hff : (0xff#16).getLsbD j = decide (j < 8) := by
    rw [show (0xff#16) = BitVec.ofNat 16 (2 ^ 8 - 1) by rfl, BitVec.getLsbD_ofNat,
      Nat.testBit_two_pow_sub_one]
    simp [hj]
  rw [BitVec.getLsbD_and, getLsbD_rspGetFlags hf ⟨j, hj⟩, hff]
  by_cases h8 : j < 8
  · simp [h8]
  · simp [FlagVector.lane, h8, hz]

theorem setWidth_signExtend (x : BitVec 16) : (x.signExtend 32).setWidth 16 = x := by
  apply BitVec.eq_of_getLsbD_eq
  intro i hi
  rw [BitVec.getLsbD_setWidth, BitVec.getLsbD_signExtend]
  simp [hi, show i < 32 by omega]

/-! ### Steps and runs -/

/-- The instructions that touch the vector unit, and what happens between them. -/
inductive Cp2Op where
  /-- A vector operation. -/
  | vu (op : Fin 64) (e : Fin 16) (vd vs vt : Fin 32)
  /-- `CTC2`. -/
  | ctc2 (rt rd : Fin 32)
  /-- `CFC2`. -/
  | cfc2 (rt rd : Fin 32)
  /-- `MTC2`. -/
  | mtc2 (rt rd : Fin 32) (element : Fin 16)
  /-- `MFC2`. -/
  | mfc2 (rt rd : Fin 32) (element : Fin 16)
  /-- A vector load. -/
  | load (op : LS.LsOp) (e : Fin 16) (rt base : Fin 32) (offset : Word)
  /-- Anything else: the rest of the state is arbitrary afterwards. -/
  | other (s : Arch)

/-- One step. -/
def Cp2Op.run (b : Build) (s : Arch) : Cp2Op → Arch
  | .vu op e vd vs vt => { s with cp2 := VU.vuop b e vd vs vt s.cp2 op }
  | .ctc2 rt rd => CP.rspCTC2 rt rd s
  | .cfc2 rt rd => CP.rspCFC2 rt rd s
  | .mtc2 rt rd element => CP.rspMTC2 rt rd element s
  | .mfc2 rt rd element => CP.rspMFC2 rt rd element s
  | .load op e rt base offset => LS.lwc2 b op e rt base offset s
  | .other t => { t with cp2 := s.cp2 }

/-- A run. -/
def runOps (b : Build) (ops : List Cp2Op) (s : Arch) : Arch := ops.foldl (Cp2Op.run b) s

/-- A vector load writes vector registers. -/
theorem LS.lwc2_flags (b : Build) (op : LS.LsOp) (e : Fin 16) (rt base : Fin 32) (offset : Word)
    (s : Arch) : (LS.lwc2 b op e rt base offset s).cp2.flags = s.cp2.flags ∧
      (LS.lwc2 b op e rt base offset s).cp2.dpFlag = s.cp2.dpFlag := by
  cases op <;> simp only [LS.lwc2, LS.rspLLV, LS.rspLDV, LS.rspLPV, LS.rspLQV, LS.rspLRV] <;>
    (repeat' split) <;> exact ⟨rfl, rfl⟩

namespace FlagInv

theorem rspCTC2 {s : Arch} (h : FlagInv s.cp2) (rt rd : Fin 32) :
    FlagInv (CP.rspCTC2 rt rd s).cp2 := by
  refine h.setFlag (isMaskFlag_rspSetFlags _) fun hf i => ?_
  simp only [rspSetFlags, CP.ctc2Value, hf, if_true, setFlagsHalf_apply, maskOf_eq_zero]
  rw [BitVec.getLsbD_ushiftRight, BitVec.getLsbD_and]
  have hff : (0xff#16).getLsbD (8 + i.val) = false := by
    rw [show (0xff#16) = BitVec.ofNat 16 (2 ^ 8 - 1) by rfl, BitVec.getLsbD_ofNat,
      Nat.testBit_two_pow_sub_one]
    simp
  simp [hff]

/-- Every step keeps the invariant. -/
theorem step {s : Arch} (h : FlagInv s.cp2) (b : Build) (op : Cp2Op) :
    FlagInv (op.run b s).cp2 := by
  cases op with
  | vu op e vd vs vt => exact h.vuop b e vd vs vt op
  | ctc2 rt rd => exact h.rspCTC2 rt rd
  | cfc2 rt rd =>
    simp only [Cp2Op.run, CP.rspCFC2]
    split
    · exact h
    · exact h
  | mtc2 rt rd element =>
    simp only [Cp2Op.run, CP.rspMTC2]
    repeat' split
    all_goals exact h.congr rfl rfl
  | mfc2 rt rd element =>
    simp only [Cp2Op.run, CP.rspMFC2]
    repeat' split
    all_goals exact h
  | load op e rt base offset =>
    obtain ⟨hf, hd⟩ := LS.lwc2_flags b op e rt base offset s
    exact h.congr hf hd
  | other t => exact h

/-- The invariant holds along every run. -/
theorem run {s : Arch} (h : FlagInv s.cp2) (b : Build) (ops : List Cp2Op) :
    FlagInv (runOps b ops s).cp2 := by
  induction ops generalizing s with
  | nil => exact h
  | cons op ops ih => exact ih (h.step b op)

end FlagInv

/-- A flag register written back from the scalar register it was read into. -/
theorem rspCTC2_rspCFC2 {s : Arch} (h : FlagInv s.cp2) {rt : Fin 32} (rd : Fin 32) (hrt : rt ≠ 0) :
    (CP.rspCTC2 rt rd (CP.rspCFC2 rt rd s)).cp2.flags = s.cp2.flags := by
  have hne : rt.val ≠ 0 := fun h0 => hrt (Fin.ext h0)
  have hv : CP.ctc2Value rd ((rspGetFlags (s.cp2.flags (CP.flagIndex rd))).signExtend 32) =
      rspGetFlags (s.cp2.flags (CP.flagIndex rd)) := by
    simp only [CP.ctc2Value, setWidth_signExtend]
    split
    · next hf =>
      rw [hf]
      exact rspGetFlags_and_ff (h.masks _) h.vceHi
    · rfl
  simp only [CP.rspCTC2, CP.rspCFC2, if_pos hne, CP.setSr, Function.update_self, hv]
  rw [rspSetFlags_rspGetFlags (h.masks _), Function.update_eq_self]

/-- A flag register read back after it was written. -/
theorem rspCFC2_rspCTC2 (s : Arch) (rs : Fin 32) {rt : Fin 32} (rd : Fin 32) (hrt : rt ≠ 0) :
    (CP.rspCFC2 rt rd (CP.rspCTC2 rs rd s)).sr rt = (CP.ctc2Value rd (s.sr rs)).signExtend 32 := by
  have hne : rt.val ≠ 0 := fun h0 => hrt (Fin.ext h0)
  simp only [CP.rspCTC2, CP.rspCFC2, if_pos hne, CP.setSr, Function.update_self,
    rspGetFlags_rspSetFlags]

/-- Along every run from a cleared vector unit the flag registers keep their form, and moving
them through a scalar register other than `$0` loses nothing. -/
theorem flags_of_run (b : Build) (s : Arch) (ops : List Cp2Op) (rt rs rd : Fin 32) (hrt : rt ≠ 0) :
    FlagInv (runOps b ops { s with cp2 := CP2.zero }).cp2 ∧
      (CP.rspCTC2 rt rd (CP.rspCFC2 rt rd (runOps b ops { s with cp2 := CP2.zero }))).cp2.flags =
        (runOps b ops { s with cp2 := CP2.zero }).cp2.flags ∧
      (CP.rspCFC2 rt rd (CP.rspCTC2 rs rd (runOps b ops { s with cp2 := CP2.zero }))).sr rt =
        (if CP.flagIndex rd = rspVCE then
            ((runOps b ops { s with cp2 := CP2.zero }).sr rs).setWidth 16 &&& 0xff#16
          else ((runOps b ops { s with cp2 := CP2.zero }).sr rs).setWidth 16).signExtend 32 := by
  have h : FlagInv (runOps b ops { s with cp2 := CP2.zero }).cp2 := FlagInv.zero.run b ops
  exact ⟨h, rspCTC2_rspCFC2 h rd hrt, rspCFC2_rspCTC2 _ rs rd hrt⟩

/-- Register 1 carries a flag register. -/
theorem flags_of_run_one :
    (1 : Fin 32) ≠ 0 ∧
      (CP.rspCTC2 1 1 (CP.rspCFC2 1 1 (runOps .sse2 [.ctc2 2 1]
        { { Arch.zero with sr := fun _ => 0x8001#32 } with cp2 := CP2.zero }))).cp2.flags =
      (runOps .sse2 [.ctc2 2 1]
        { { Arch.zero with sr := fun _ => 0x8001#32 } with cp2 := CP2.zero }).cp2.flags :=
  ⟨by decide, (flags_of_run .sse2 { Arch.zero with sr := fun _ => 0x8001#32 } [.ctc2 2 1] 1 2 1
    (by decide)).2.1⟩

/-- Register `$0` does not: after `CTC2 $1` has set `VCC`, reading it into `$0` and writing `$0`
back clears it. -/
theorem flags_lost_through_zero :
    (CP.rspCTC2 0 1 (CP.rspCFC2 0 1 (runOps .sse2 [.ctc2 1 1]
        { Arch.zero with sr := Function.update Arch.zero.sr 1 0xffff#32 }))).cp2.flags ≠
      (runOps .sse2 [.ctc2 1 1]
        { Arch.zero with sr := Function.update Arch.zero.sr 1 0xffff#32 }).cp2.flags := by
  intro h
  have hlane := congrArg (fun f : FlagReg → FlagVector => (f rspVCC).lo 0) h
  exact absurd hlane (by decide)

end ParallelRsp
