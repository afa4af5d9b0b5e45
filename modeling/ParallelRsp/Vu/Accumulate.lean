import ParallelRsp.Simd.Limbs
import ParallelRsp.Vu.Functions

/-!
# Multiply and accumulate

The accumulator is one 48-bit number a lane, and the six accumulating multiplications
add to it: the limb-wise additions with recovered carries of `vmac.h`, `vmull.h`,
`vmulm.h`, `vmuln.h` and `vmulh.h` compute the sum modulo `2 ^ 48`, and the clamping
of `clamp.h` is saturation of its upper 32 bits.

## The model

`MacOp` names the six operations; `MacOp.product` is the number an operation adds, and
`MacOp.result` the clamped lane, both in integers.

## What is proved

`vuop_mac`: for every build, operand and accumulator, the instruction adds the product
and returns the clamped sum, on every lane.
-/

namespace ParallelRsp

open Simd

/-- Lane `i` of the accumulator. -/
def acc48 (a : AccVector) (i : Fin 8) : BitVec 48 := join3 (a.hi i) (a.md i) (a.lo i)

/-- The accumulator a multiplication leaves. -/
def MulOut.acc (r : MulOut) : AccVector := ⟨r.accHi, r.accMd, r.accLo⟩

/-- Bits `47..16` of the accumulator, as a signed number. -/
def accTop (a : BitVec 48) : ℤ := (a.extractLsb' 16 32).toInt

/-! ### Clamping -/

/-- The signed clamp. -/
def clampSigned (a : BitVec 48) : BitVec 16 := BitVec.ofInt 16 (max (-32768) (min (accTop a) 32767))

/-- The clamp of `VMACU`. -/
def clampMacu (a : BitVec 48) : BitVec 16 :=
  if accTop a < 0 then 0#16 else if 0x7FFF < accTop a then 0xFFFF#16 else BitVec.ofInt 16 (accTop a)

/-- The clamp of the operations that return the low part. -/
def clampLow (a : BitVec 48) : BitVec 16 :=
  if -32768 ≤ accTop a ∧ accTop a ≤ 32767 then a.extractLsb' 0 16
  else if accTop a < 0 then 0#16 else 0xFFFF#16

theorem accTop_join3 (hi md lo : BitVec 16) :
    accTop (join3 hi md lo) = 2 ^ 16 * hi.toInt + md.toNat := by
  rw [accTop, extractLsb'_join3, toInt_append16 _ _ (by omega)]

theorem rspSclampAccTomd_apply (md hi lo : M128i) (i : Fin 8) :
    rspSclampAccTomd md hi i = clampSigned (join3 (hi i) (md i) (lo i)) := by
  rw [rspSclampAccTomd, packs_unpack_apply, clampSigned, accTop, extractLsb'_join3]
  rfl

/-- The upper limb is the sign of the middle one exactly when the number fits 16 bits. -/
theorem sign_limbs_iff (hi md : BitVec 16) :
    maskOf (hi.toInt < 0) = maskOf (md.toInt < 0) ∧ maskOf (hi.toInt < 0) = hi ↔
      -32768 ≤ 2 ^ 16 * hi.toInt + (md.toNat : ℤ) ∧ 2 ^ 16 * hi.toInt + (md.toNat : ℤ) ≤ 32767 := by
  have hmask : maskOf (hi.toInt < 0) = hi ↔ hi.toInt = if hi.toInt < 0 then -1 else 0 := by
    rw [← BitVec.toInt_inj, eq_comm]
    unfold maskOf
    split <;> rfl
  have hsame : maskOf (hi.toInt < 0) = maskOf (md.toInt < 0) ↔ (hi.toInt < 0 ↔ md.toInt < 0) := by
    by_cases hn : hi.toInt < 0 <;> by_cases mn : md.toInt < 0 <;> simp [maskOf, hn, mn]
  have hmd := toInt_eq_toNat16 md
  have h1 := BitVec.toInt_lt (x := md)
  have h2 := BitVec.le_toInt (x := md)
  have h3 := md.isLt
  rw [hmask, hsame]
  by_cases hn : hi.toInt < 0
  · rw [if_pos hn]
    split at hmd <;> omega
  · rw [if_neg hn]
    split at hmd <;> omega

/-- Both builds of the clamp choose the low lane where the number fits, else an extreme. -/
theorem rspUclampAcc_apply (b : Build) (lo md hi : M128i) (i : Fin 8) :
    rspUclampAcc b lo md hi mmSetzeroSi128 i = clampLow (join3 (hi i) (md i) (lo i)) := by
  have hfit := sign_limbs_iff (hi i) (md i)
  have hsign : maskOf (maskOf ((hi i).toInt < 0) = 0#16) = maskOf (¬ (hi i).toInt < 0) :=
    maskOf_congr (maskOf_eq_zero _)
  have hmask : mmAndSi128 (mmCmpeqEpi16 (mmSraiEpi16 hi 15) (mmSraiEpi16 md 15))
      (mmCmpeqEpi16 (mmSraiEpi16 hi 15) hi) i =
      maskOf (-32768 ≤ accTop (join3 (hi i) (md i) (lo i)) ∧
        accTop (join3 (hi i) (md i) (lo i)) ≤ 32767) := by
    simp only [mmAndSi128, mmCmpeqEpi16, mmSraiEpi16, sshiftRight_fifteen, maskOf_and, accTop_join3]
    exact maskOf_congr hfit
  have hclamped : mmCmpeqEpi16 (mmSraiEpi16 hi 15) mmSetzeroSi128 i =
      maskOf (¬ (hi i).toInt < 0) := by
    simp only [mmCmpeqEpi16, mmSraiEpi16, mmSetzeroSi128, sshiftRight_fifteen, hsign]
  have hneg : accTop (join3 (hi i) (md i) (lo i)) < 0 ↔ (hi i).toInt < 0 := by
    rw [accTop_join3]
    have := (md i).isLt
    omega
  have hchoice : rspUclampAcc b lo md hi mmSetzeroSi128 i =
      if -32768 ≤ accTop (join3 (hi i) (md i) (lo i)) ∧ accTop (join3 (hi i) (md i) (lo i)) ≤ 32767
      then lo i
      else maskOf (¬ (hi i).toInt < 0) := by
    unfold rspUclampAcc
    dsimp only
    generalize mmAndSi128 (mmCmpeqEpi16 (mmSraiEpi16 hi 15) (mmSraiEpi16 md 15))
      (mmCmpeqEpi16 (mmSraiEpi16 hi 15) hi) = clampMask at hmask ⊢
    split
    · rw [mmBlendvEpi8_apply _ _ _ _ (hmask ▸ isMask_maskOf _), hmask, hclamped]
      simp only [maskOf_eq_ones]
    · simp only [mmOrSi128, mmAndnotSi128, mmAndSi128]
      rw [BitVec.or_comm, hmask, hclamped, mux_apply (isMask_maskOf _)]
      simp only [maskOf_eq_ones]
  rw [hchoice, clampLow, extractLsb'_join3_lo]
  simp only [hneg, maskOf]
  split
  · rfl
  · split <;> simp_all

/-- The clamp of `VMACU`, limb by limb. -/
theorem clampMacu_limbs (hi md : BitVec 16) (lo : BitVec 16) :
    maskOf ((0#16).slt hi) ||| (~~~maskOf (hi.toInt < 0) &&& (maskOf (md.toInt < 0) ||| md)) =
      clampMacu (join3 hi md lo) := by
  have hmd := toInt_eq_toNat16 md
  have h1 := BitVec.toInt_lt (x := md)
  have h2 := BitVec.le_toInt (x := md)
  have h3 := md.isLt
  have hpos : (0#16).slt hi ↔ 0 < hi.toInt := by simp [BitVec.slt]
  have ones_or : ∀ z : BitVec 16, 0xFFFF#16 ||| z = 0xFFFF#16 := fun z => BitVec.allOnes_or
  have ones_and : ∀ z : BitVec 16, 0xFFFF#16 &&& z = z := fun z => BitVec.allOnes_and
  rw [maskOf_congr hpos, clampMacu, accTop_join3]
  rcases lt_trichotomy hi.toInt 0 with hn | hz | hp
  · rw [if_pos (by omega)]
    simp [maskOf, hn, hn.not_gt]
  · by_cases mn : md.toInt < 0
    · rw [if_pos mn] at hmd
      rw [if_neg (by omega), if_pos (by omega)]
      simp [maskOf, hz, mn, ones_or, ones_and]
    · rw [if_neg mn] at hmd
      rw [if_neg (by omega), if_neg (by omega)]
      simp [maskOf, hz, mn, ones_and]
  · rw [if_neg (by omega), if_pos (by omega)]
    simp [maskOf, hp, ones_or]

/-! ### Accumulation

One lemma for each kernel: the limbs it leaves, joined, are the old number plus the
product. -/

/-- The high half of an unsigned product as the low limb. -/
theorem join3_high_product (x y : BitVec 16) :
    join3 0#16 0#16 (BitVec.ofNat 16 (x.toNat * y.toNat / 2 ^ 16)) =
      BitVec.ofInt 48 (x.toNat * y.toNat / 2 ^ 16) := by
  have hlt : x.toNat * y.toNat < 2 ^ 16 * 2 ^ 16 := Nat.mul_lt_mul'' x.isLt y.isLt
  have hnat : (BitVec.ofNat 16 (x.toNat * y.toNat / 2 ^ 16)).toNat =
      x.toNat * y.toNat / 2 ^ 16 := by
    rw [BitVec.toNat_ofNat, Nat.mod_eq_of_lt (by omega)]
  apply join3_eq_ofInt
  rw [hnat, BitVec.toInt_zero]
  push_cast
  omega

/-- A signed product as the upper limbs. -/
theorem join3_upper_product (x y : BitVec 16) :
    join3 (BitVec.ofInt 16 (x.toInt * y.toInt / 2 ^ 16)) (x * y) 0#16 =
      BitVec.ofInt 48 (2 ^ 16 * (x.toInt * y.toInt)) := by
  apply join3_eq_ofInt
  rw [mulhi_signed, toNat_mul_mod]
  have := Int.mul_ediv_add_emod (x.toInt * y.toInt) (2 ^ 16)
  simp only [BitVec.toNat_zero]
  omega

section Kernels

variable (b : Build) (vs vt lo md hi : M128i) (i : Fin 8)

/-- `VMACF` and `VMACU` add twice the signed product. -/
theorem rspVmacfVmacu_acc (vmacu : Bool) :
    acc48 (rspVmacfVmacu vmacu vs vt mmSetzeroSi128 lo md hi).acc i =
      join3 (hi i) (md i) (lo i) + BitVec.ofInt 48 (2 * ((vs i).toInt * (vt i).toInt)) := by
  set h : BitVec 16 := BitVec.ofInt 16 ((vs i).toInt * (vt i).toInt / 2 ^ 16) with hh
  set plo : BitVec 16 := (vs i * vt i) <<< 1 with hplo
  set pmd : BitVec 16 := h <<< 1 ||| (vs i * vt i) >>> 15 with hpmd
  have hprod : join3 (h.sshiftRight 15) pmd plo =
      BitVec.ofInt 48 (2 * ((vs i).toInt * (vt i).toInt)) := by
    have := signed_product_bounds (vs i) (vt i)
    exact join3_doubled (mulhi_signed _ _) (toNat_mul_mod _ _) ⟨by omega, by omega⟩
  set m1 := pmd - maskOf (carries (lo i) plo) with hm1
  have hlimbs : acc48 (rspVmacfVmacu vmacu vs vt mmSetzeroSi128 lo md hi).acc i =
      join3 (hi i + (h.sshiftRight 15 - maskOf (m1 = 0#16 ∧ carries (lo i) plo)) -
        maskOf (carries (md i) m1)) (md i + m1) (lo i + plo) := by
    rw [← maskOf_and]
    simp only [acc48, MulOut.acc, rspVmacfVmacu, carryLanes_eq]
    rfl
  rw [hlimbs, ← hprod]
  apply join3_add
  have e1 := toNat_sub_maskOf pmd (carries (lo i) plo)
  have e2 := toNat_sub_maskOf (h.sshiftRight 15) (m1 = 0#16 ∧ carries (lo i) plo)
  have hz : m1 = 0#16 ↔ m1.toNat = 0 := by rw [← BitVec.toNat_inj]; rfl
  rw [← hm1] at e1
  rw [e2]
  have := pmd.isLt
  by_cases hcc : carries (lo i) plo
  · simp only [hcc, and_true, if_true] at e1 ⊢
    by_cases hm : m1 = 0#16
    · rw [if_pos hm]
      have := hz.mp hm
      omega
    · rw [if_neg hm]
      have := mt hz.mpr hm
      omega
  · simp only [hcc, and_false, if_false] at e1 ⊢
    omega

/-- `VMADL` adds the high half of the unsigned product. -/
theorem rspVmadlVmudl_acc :
    acc48 (rspVmadlVmudl b true vs vt mmSetzeroSi128 lo md hi).acc i =
      join3 (hi i) (md i) (lo i) + BitVec.ofInt 48 ((vs i).toNat * (vt i).toNat / 2 ^ 16) := by
  set plo : BitVec 16 := BitVec.ofNat 16 ((vs i).toNat * (vt i).toNat / 2 ^ 16) with hplo
  have hlimbs : acc48 (rspVmadlVmudl b true vs vt mmSetzeroSi128 lo md hi).acc i =
      join3 (hi i + 0#16 - maskOf (carries (md i) (0#16 - maskOf (carries (lo i) plo))))
        (md i + (0#16 - maskOf (carries (lo i) plo))) (lo i + plo) := by
    simp only [acc48, MulOut.acc, rspVmadlVmudl, carryLanes_eq, BitVec.add_zero]
    rfl
  rw [hlimbs, ← join3_high_product]
  apply join3_add
  rw [toNat_sub_maskOf]
  split <;> rfl

/-- `VMADH` adds the signed product to the upper limbs. -/
theorem rspVmadhVmudh_acc :
    acc48 (rspVmadhVmudh true vs vt mmSetzeroSi128 lo md hi).acc i =
      join3 (hi i) (md i) (lo i) + BitVec.ofInt 48 (2 ^ 16 * ((vs i).toInt * (vt i).toInt)) := by
  set h : BitVec 16 := BitVec.ofInt 16 ((vs i).toInt * (vt i).toInt / 2 ^ 16) with hh
  have hlimbs : acc48 (rspVmadhVmudh true vs vt mmSetzeroSi128 lo md hi).acc i =
      join3 (hi i + h - maskOf (carries (md i) (vs i * vt i)))
        (md i + vs i * vt i) (lo i + 0#16) := by
    rw [BitVec.sub_eq_add_neg, BitVec.add_assoc, ← BitVec.sub_eq_add_neg, BitVec.add_zero]
    simp only [acc48, MulOut.acc, rspVmadhVmudh, carryLanes_eq, if_true]
    rfl
  have hnc : ¬ carries (lo i) 0#16 := by
    have := (lo i).isLt
    simp only [carries, BitVec.toNat_zero]
    omega
  rw [hlimbs, ← join3_upper_product]
  apply join3_add
  rw [if_neg hnc, Nat.add_zero]

/-- The shared accumulation adds the number whose halves it is given, if the high half
has room for a carry. -/
theorem accumulateMixed_acc (plo ph : M128i) {p : ℤ} (hh : (ph i).toInt = p / 2 ^ 16)
    (hlo : ((plo i).toNat : ℤ) = p % 2 ^ 16) (hb : p ≤ 2 ^ 31 - 2 ^ 16 - 1) :
    acc48 (accumulateMixed plo ph mmSetzeroSi128 lo md hi) i =
      join3 (hi i) (md i) (lo i) + BitVec.ofInt 48 p := by
  have hlimbs : acc48 (accumulateMixed plo ph mmSetzeroSi128 lo md hi) i =
      join3 (hi i + (ph i - maskOf (carries (lo i) (plo i))).sshiftRight 15 -
          maskOf (carries (md i) (ph i - maskOf (carries (lo i) (plo i)))))
        (md i + (ph i - maskOf (carries (lo i) (plo i)))) (lo i + plo i) := by
    simp only [acc48, accumulateMixed, carryLanes_eq]
    rfl
  rw [hlimbs, ← join3_halves hh hlo]
  exact join3_add (fold_carry _ (by omega))

/-- `VMADM` adds the product of a signed and an unsigned factor. -/
theorem rspVmadmVmudm_acc :
    acc48 (rspVmadmVmudm true vs vt mmSetzeroSi128 lo md hi).acc i =
      join3 (hi i) (md i) (lo i) + BitVec.ofInt 48 ((vs i).toInt * (vt i).toNat) := by
  apply accumulateMixed_acc
  · exact mulhi_mixed (vs i) (vt i)
  · exact toNat_mul_mod_mixed (vs i) (vt i)
  · have := mixed_product_bounds (vs i) (vt i)
    omega

/-- `VMADN` adds the product of an unsigned and a signed factor. -/
theorem rspVmadnVmudn_acc :
    acc48 (rspVmadnVmudn b true vs vt mmSetzeroSi128 lo md hi).acc i =
      join3 (hi i) (md i) (lo i) + BitVec.ofInt 48 ((vs i).toNat * (vt i).toInt) := by
  rw [Int.mul_comm]
  apply accumulateMixed_acc
  · simp only [mmSubEpi16, mmMulhiEpu16, mmAndSi128, mmSraiEpi16]
    rw [Nat.mul_comm]
    exact mulhi_mixed (vt i) (vs i)
  · simp only [mmMulloEpi16]
    rw [BitVec.mul_comm]
    exact toNat_mul_mod_mixed (vt i) (vs i)
  · have := mixed_product_bounds (vt i) (vs i)
    omega

end Kernels

/-! ### The instructions -/

/-- The accumulating multiplications. -/
inductive MacOp where
  | vmacf
  | vmacu
  | vmadl
  | vmadm
  | vmadn
  | vmadh
  deriving DecidableEq

/-- The entry of the dispatch table. -/
def MacOp.code : MacOp → Fin 64
  | .vmacf => 8
  | .vmacu => 9
  | .vmadl => 12
  | .vmadm => 13
  | .vmadn => 14
  | .vmadh => 15

/-- The number an operation adds to the accumulator. -/
def MacOp.product (op : MacOp) (vs vt : BitVec 16) : ℤ :=
  match op with
  | .vmacf | .vmacu => 2 * (vs.toInt * vt.toInt)
  | .vmadl => vs.toNat * vt.toNat / 2 ^ 16
  | .vmadm => vs.toInt * vt.toNat
  | .vmadn => vs.toNat * vt.toInt
  | .vmadh => 2 ^ 16 * (vs.toInt * vt.toInt)

/-- The lane an operation returns, from the new accumulator. -/
def MacOp.result (op : MacOp) (a : BitVec 48) : BitVec 16 :=
  match op with
  | .vmacf | .vmadm | .vmadh => clampSigned a
  | .vmacu => clampMacu a
  | .vmadl | .vmadn => clampLow a

/-- An accumulating multiplication adds its product to the 48-bit accumulator and returns
the clamped sum, on every lane. -/
theorem vuop_mac (op : MacOp) (b : Build) (e : Fin 16) (vd vs vt : Fin 32) (cp2 : CP2) (i : Fin 8) :
    acc48 (VU.vuop b e vd vs vt cp2 op.code).acc i =
        acc48 cp2.acc i + BitVec.ofInt 48 (op.product (cp2.regs vs i) (VU.loadVt b e vt cp2 i)) ∧
      (VU.vuop b e vd vs vt cp2 op.code).regs vd i =
        op.result (acc48 (VU.vuop b e vd vs vt cp2 op.code).acc i) := by
  have hreg : ∀ r : MulOut, (VU.storeMul cp2 vd r).regs vd = r.vd := fun r => by
    simp [VU.storeMul]
  cases op with
  | vmacf =>
    refine ⟨rspVmacfVmacu_acc _ _ _ _ _ i false, ?_⟩
    exact (congrFun (hreg _) i).trans (rspSclampAccTomd_apply _ _ _ i)
  | vmacu =>
    refine ⟨rspVmacfVmacu_acc _ _ _ _ _ i true, ?_⟩
    refine (congrFun (hreg _) i).trans (Eq.trans ?_ (clampMacu_limbs _ _ _))
    rw [← sshiftRight_fifteen, ← sshiftRight_fifteen]
    rfl
  | vmadl =>
    refine ⟨rspVmadlVmudl_acc b _ _ _ _ _ i, ?_⟩
    exact (congrFun (hreg _) i).trans (rspUclampAcc_apply b _ _ _ i)
  | vmadm =>
    refine ⟨rspVmadmVmudm_acc _ _ _ _ _ i, ?_⟩
    exact (congrFun (hreg _) i).trans (rspSclampAccTomd_apply _ _ _ i)
  | vmadn =>
    refine ⟨rspVmadnVmudn_acc b _ _ _ _ _ i, ?_⟩
    exact (congrFun (hreg _) i).trans (rspUclampAcc_apply b _ _ _ i)
  | vmadh =>
    refine ⟨rspVmadhVmudh_acc _ _ _ _ _ i, ?_⟩
    exact (congrFun (hreg _) i).trans (rspSclampAccTomd_apply _ _ _ i)

end ParallelRsp
