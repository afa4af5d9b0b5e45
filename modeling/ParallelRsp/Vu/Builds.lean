import ParallelRsp.Vu.Accumulate
import ParallelRsp.Vu.Flags
import ParallelRsp.Rsp.ByteTransfers
import Mathlib.Data.Fintype.Basic
import Mathlib.Tactic.FinCases

/-!
# The build variants agree

The plain SSE2 build selects lanes by and, andnot and or, and spreads an operand's
element by shuffles and inserts; the SSSE3 and SSE4.1 builds blend and shuffle bytes.
On flag registers whose lanes are masks the two compute the same.

## What is proved

* `loadAndShuffle_builds`: the operand does not depend on the build, nor on what the
  plain build's uninitialised register held.
* `vuop_builds`: neither does any vector operation, on flags of the right form.
* `runOps_builds`: nor does any run of vector operations and flag moves.
-/

namespace ParallelRsp

open Simd

/-! ### The operand -/

/-- The lane of the source that lane `i` of an operand comes from. -/
def operandLane (e : Fin 16) (i : Fin 8) : Fin 8 :=
  if e.val < 2 then i
  else if e.val < 4 then ⟨i.val / 2 * 2 + e.val % 2, by omega⟩
  else if e.val < 8 then ⟨i.val / 4 * 4 + e.val % 4, by omega⟩
  else ⟨e.val % 8, mod_eight_lt e⟩

/-- The table holds the two bytes of that lane, low byte first. -/
theorem shuffleKeys_apply : ∀ (e : Fin 16) (i : Fin 8),
    shuffleKeys e i = BitVec.ofNat 8 (2 * (operandLane e i).val + 1) ++
      BitVec.ofNat 8 (2 * (operandLane e i).val) := by
  decide

theorem loadAndShuffleSsse3_apply (src : M128i) (e : Fin 16) (i : Fin 8) :
    loadAndShuffleSsse3 src e i = src (operandLane e i) :=
  mmShuffleEpi8_apply src (shuffleKeys e) i (operandLane e i) (shuffleKeys_apply e i)

theorem loadAndShuffleSse2_apply (undef src : M128i) (e : Fin 16) (i : Fin 8) :
    loadAndShuffleSse2 undef src e i = src (operandLane e i) := by
  unfold loadAndShuffleSse2
  split
  · rw [operandLane, if_pos (by omega)]
  split
  · next h =>
    obtain rfl : e = 2 := Fin.ext h
    fin_cases i <;> rfl
  split
  · next h =>
    obtain rfl : e = 3 := Fin.ext h
    fin_cases i <;> rfl
  split
  · next h =>
    have hlane : operandLane e i = ⟨i.val / 4 * 4 + e.val % 4, by omega⟩ := by
      rw [operandLane, if_neg (by omega), if_neg (by omega), if_pos h]
    dsimp only
    rw [hlane, mmShuffleEpi32_apply]
    -- words 0 and 1 hold the element of the lower and of the upper half
    fin_cases i <;> exact congrArg src (Fin.ext (by simp; omega))
  · have hlane : operandLane e i = ⟨e.val % 8, by omega⟩ := by
      rw [operandLane, if_neg (by omega), if_neg (by omega), if_neg (by omega)]
    dsimp only
    rw [hlane, mmShuffleEpi32_apply]
    fin_cases i <;> exact congrArg src (Fin.ext (by simp; omega))

/-- Both loads of an operand, whatever the plain one leaves uninitialised. -/
theorem loadAndShuffle_builds (undef src : M128i) (e : Fin 16) :
    loadAndShuffleSse2 undef src e = loadAndShuffleSsse3 src e := by
  funext i
  rw [loadAndShuffleSse2_apply, loadAndShuffleSsse3_apply]

theorem loadVt_builds (b b' : Build) (e : Fin 16) (vt : Fin 32) (cp2 : CP2) :
    VU.loadVt b e vt cp2 = VU.loadVt b' e vt cp2 := by
  have h : ∀ c : Build, VU.loadVt c e vt cp2 = loadAndShuffleSsse3 (cp2.regs vt) e := by
    intro c
    unfold VU.loadVt rspVectLoadAndShuffleOperand
    split
    · rfl
    · exact loadAndShuffle_builds _ _ _
  rw [h b, h b']

/-! ### The kernels -/

/-- A blend by masks is the mux. -/
theorem blend_eq_mux_vec {a b m : M128i} (h : IsMaskVec m) :
    mmBlendvEpi8 a b m = mmOrSi128 (mmAndSi128 m b) (mmAndnotSi128 m a) :=
  funext fun i => blend_eq_mux a b m i (h i)

section Kernels

variable (b b' : Build) (vs vt : M128i)

theorem rspUclampAcc_builds (val md hi : M128i) :
    rspUclampAcc b val md hi mmSetzeroSi128 = rspUclampAcc b' val md hi mmSetzeroSi128 := by
  funext i
  rw [rspUclampAcc_apply, rspUclampAcc_apply]

theorem selectLe_builds {le : M128i} (h : IsMaskVec le) :
    selectLe b vs vt le = selectLe b' vs vt le := by
  have hm : ∀ c : Build, selectLe c vs vt le =
      mmOrSi128 (mmAndSi128 le vs) (mmAndnotSi128 le vt) := by
    intro c
    unfold selectLe
    split
    · exact blend_eq_mux_vec h
    · rfl
  rw [hm b, hm b']

theorem cmp_builds {le : M128i} (h : IsMaskVec le) :
    (⟨selectLe b vs vt le, le⟩ : CmpOut) = ⟨selectLe b' vs vt le, le⟩ := by
  rw [selectLe_builds b b' vs vt h]

theorem rspVch_builds (zero : M128i) : rspVch b vs vt zero = rspVch b' vs vt zero := by
  have hm : ∀ c : Build, rspVch c vs vt zero = rspVch .sse2 vs vt zero := by
    intro c
    cases c with
    | sse2 => rfl
    | ssse3 => rfl
    | sse41 =>
      have hs : IsMaskVec (mmCmpltEpi16 (mmXorSi128 vs vt) zero) := isMaskVec_cmplt
      obtain ⟨hge, hle, -⟩ := rspVch_masks .sse2 vs vt zero
      unfold rspVch at hge hle ⊢
      simp only [Build.hasSse41, if_true, Bool.false_eq_true, if_false] at hge hle ⊢
      rw [blend_eq_mux_vec hs, blend_eq_mux_vec hs, blend_eq_mux_vec hs,
        blend_eq_mux_vec ((hs.and hle).or (hs.andnot hge))]
  rw [hm b, hm b']

theorem mmOrSi128_comm (x y : M128i) : mmOrSi128 x y = mmOrSi128 y x :=
  funext fun _ => BitVec.or_comm _ _

theorem rspVcl_builds (zero : M128i) {ge le eq sign vce : M128i} (hge : IsMaskVec ge)
    (hle : IsMaskVec le) (heq : IsMaskVec eq) (hsign : IsMaskVec sign) (hvce : IsMaskVec vce) :
    rspVcl b vs vt zero ge le eq sign vce = rspVcl b' vs vt zero ge le eq sign vce := by
  have hm : ∀ c : Build, rspVcl c vs vt zero ge le eq sign vce =
      rspVcl .sse2 vs vt zero ge le eq sign vce := by
    intro c
    cases c with
    | sse2 => rfl
    | ssse3 => rfl
    | sse41 =>
      obtain ⟨hge', hle'⟩ := rspVcl_masks .sse2 vs vt zero hge hle heq hsign hvce
      unfold rspVcl at hge' hle' ⊢
      simp only [Build.hasSse41, if_true, Bool.false_eq_true, if_false] at hge' hle' ⊢
      rw [blend_eq_mux_vec (heq.andnot hsign), blend_eq_mux_vec (hsign.or heq),
        mmOrSi128_comm (mmAndSi128 (mmOrSi128 sign eq) ge), blend_eq_mux_vec hsign,
        blend_eq_mux_vec ((hsign.and hle').or (hsign.andnot hge'))]
  rw [hm b, hm b']

/-- The arithmetic mux of `VCR`: a difference under a mask, added back. -/
theorem arith_mux_apply {m : BitVec 16} (hm : IsMask m) (x y : BitVec 16) :
    ((x - y) &&& m) + y = if m = 0xFFFF#16 then x else y := by
  have and_ones : ∀ z : BitVec 16, z &&& 0xFFFF#16 = z := fun z => BitVec.and_allOnes
  rcases hm with rfl | rfl
  · simp
  · rw [and_ones, if_pos rfl, BitVec.sub_add_cancel]

/-- The same, vector by vector. -/
theorem blend_eq_arith_mux {x y m : M128i} (hm : IsMaskVec m) :
    mmBlendvEpi8 y x m = mmAddEpi16 (mmAndSi128 (mmSubEpi16 x y) m) y := by
  funext i
  rw [mmBlendvEpi8_apply y x m i (hm i)]
  exact (arith_mux_apply (hm i) (x i) (y i)).symm

theorem rspVcr_builds : rspVcr b vs vt = rspVcr b' vs vt := by
  have hm : ∀ c : Build, rspVcr c vs vt = rspVcr .sse2 vs vt := by
    intro c
    cases c with
    | sse2 => rfl
    | ssse3 => rfl
    | sse41 =>
      have hs : IsMaskVec (mmSraiEpi16 (mmXorSi128 vs vt) 15) := isMaskVec_srai
      obtain ⟨hge, hle⟩ := rspVcr_masks .sse2 vs vt
      have hsel := hge.blend hle hs
      unfold rspVcr at hsel ⊢
      simp only [Build.hasSse41, if_true, Bool.false_eq_true, if_false] at hsel ⊢
      rw [blend_eq_arith_mux hsel, blend_eq_arith_mux hs]
  rw [hm b, hm b']

end Kernels

/-! ### The operations -/

section Operations

variable (b b' : Build) (e : Fin 16) (vd vs vt : Fin 32)

/-- On flag registers whose lanes are masks, no vector operation depends on the build. -/
theorem vuop_build_irrelevant (op : Fin 64) (cp2 : CP2) (h : ∀ f, IsMaskFlag (cp2.flags f)) :
    VU.vuop b e vd vs vt cp2 op = VU.vuop b' e vd vs vt cp2 op := by
  have hvt := loadVt_builds b b' e vt cp2
  obtain ⟨hVccHi, hVccLo⟩ := h rspVCC
  obtain ⟨hVcoHi, hVcoLo⟩ := h rspVCO
  apply VU.vuop_cases (motive := fun _ f => f b cp2 = f b' cp2)
  -- clamps
  case vmadl =>
    simp only [VU.rspVMADL, rspVmadlVmudl, hvt, rspUclampAcc_builds b b']
  case vmadn =>
    simp only [VU.rspVMADN, rspVmadnVmudn, hvt, rspUclampAcc_builds b b']
  -- selections
  case vlt =>
    simp only [VU.rspVLT, hvt]
    exact congrArg (VU.storeCmp vd cp2) (cmp_builds b b' _ _ (rspVlt_mask b _ _ hVcoHi hVcoLo))
  case veq =>
    simp only [VU.rspVEQ, hvt]
    exact congrArg (VU.storeCmp vd cp2) (cmp_builds b b' _ _ (rspVeq_mask b _ _ hVcoHi))
  case vne =>
    simp only [VU.rspVNE, hvt]
    exact congrArg (VU.storeCmp vd cp2) (cmp_builds b b' _ _ (rspVne_mask b _ _ _ hVcoHi))
  case vge =>
    simp only [VU.rspVGE, hvt]
    exact congrArg (VU.storeCmp vd cp2) (cmp_builds b b' _ _ (rspVge_mask b _ _ hVcoHi hVcoLo))
  case vcl =>
    simp only [VU.rspVCL, hvt]
    rw [rspVcl_builds b b' _ _ _ hVccHi hVccLo hVcoHi hVcoLo (h rspVCE).2]
  case vch => simp only [VU.rspVCH, hvt, rspVch_builds b b']
  case vcr => simp only [VU.rspVCR, hvt, rspVcr_builds b b']
  case vmrg =>
    simp only [VU.rspVMRG, rspVmrg, hvt]
    rw [selectLe_builds b b' _ _ hVccLo]
  -- the others use the build for the operand only
  all_goals
    intros
    simp only [VU.rspVMULF, VU.rspVMULU, VU.rspVRNDP, VU.rspVRNDN, VU.rspVRND, VU.rspVMULQ,
      VU.rspVMUDL, rspVmadlVmudl, VU.rspVMUDM, VU.rspVMUDN, rspVmadnVmudn, VU.rspVMUDH, VU.rspVMACF,
      VU.rspVMACU, VU.rspVMADM, VU.rspVMADH, VU.rspVADD, VU.rspVSUB, VU.rspVABS, VU.rspVADDC,
      VU.rspVSUBC, VU.rspVAND, VU.rspVNAND, VU.rspVOR, VU.rspVNOR, VU.rspVXOR, VU.rspVNXOR,
      VU.bitwise, VU.rspVRCP, VU.rspVRCPL, VU.rspVRCPH, VU.rspVRSQ, VU.rspVRSQL, VU.rspVRSQH,
      VU.divSingle, VU.divLow, VU.divHigh, VU.rspVMOV, VU.rspRESERVED,
      hvt, Bool.false_eq_true, if_false]

/-- The builds agree on every operation, and on the operand whatever the plain build's
uninitialised register held. -/
theorem vuop_builds (op : Fin 64) (cp2 : CP2) (h : ∀ f, IsMaskFlag (cp2.flags f)) :
    VU.vuop b e vd vs vt cp2 op = VU.vuop b' e vd vs vt cp2 op ∧
      ∀ undef src, loadAndShuffleSse2 undef src e = loadAndShuffleSsse3 src e :=
  ⟨vuop_build_irrelevant b b' e vd vs vt op cp2 h, fun undef src =>
    loadAndShuffle_builds undef src e⟩

end Operations

/-- A comparison on flag registers that are all ones. -/
theorem vuop_builds_ones :
    (∀ f, IsMaskFlag
      ({ CP2.zero with flags := fun _ => ⟨fun _ => 0xFFFF#16, fun _ => 0xFFFF#16⟩ }.flags f)) ∧
      VU.vuop .sse2 9 1 2 3
          { CP2.zero with flags := fun _ => ⟨fun _ => 0xFFFF#16, fun _ => 0xFFFF#16⟩ } 36 =
        VU.vuop .sse41 9 1 2 3
          { CP2.zero with flags := fun _ => ⟨fun _ => 0xFFFF#16, fun _ => 0xFFFF#16⟩ } 36 :=
  ⟨fun _ => ⟨fun _ => Or.inr rfl, fun _ => Or.inr rfl⟩,
    (vuop_builds .sse2 .sse41 9 1 2 3 36 _ fun _ => ⟨fun _ => Or.inr rfl, fun _ => Or.inr rfl⟩).1⟩

/-! ### Runs -/

namespace LS

/-- The aligned path of `LPV` reads what the loop reads. -/
theorem rspLPV_builds (b b' : Build) (e : Fin 16) (rt base : Fin 32) (offset : Word) (s : Arch) :
    rspLPV e rt base offset s b = rspLPV e rt base offset s b' := by
  rw [rspLPV_eq_loadPacked, rspLPV_eq_loadPacked]

theorem lwc2_builds (b b' : Build) (op : LsOp) (e : Fin 16) (rt base : Fin 32) (offset : Word)
    (s : Arch) : lwc2 b op e rt base offset s = lwc2 b' op e rt base offset s := by
  cases op with
  | p => exact rspLPV_builds b b' e rt base offset s
  | _ => rfl

end LS

/-- No run depends on the build. -/
theorem runOps_builds (b b' : Build) (ops : List Cp2Op) {s : Arch} (h : FlagInv s.cp2) :
    runOps b ops s = runOps b' ops s := by
  induction ops generalizing s with
  | nil => rfl
  | cons op ops ih =>
    have hstep : op.run b s = op.run b' s := by
      cases op with
      | vu op e vd vs vt =>
        simp only [Cp2Op.run, vuop_build_irrelevant b b' e vd vs vt op s.cp2 h.masks]
      | load op e rt base offset => exact LS.lwc2_builds b b' op e rt base offset s
      | _ => rfl
    show runOps b ops (op.run b s) = runOps b' ops (op.run b' s)
    rw [← hstep]
    exact ih (h.step b op)

end ParallelRsp
