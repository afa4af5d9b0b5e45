import ParallelRsp.Vu.Accumulate

/-!
# The plain multiplications

The multiplications that do not accumulate: `VMUDL`, `VMUDM`, `VMUDN` and `VMUDH` skip the
addition and the clamp of their accumulating siblings, and `VMULF` and `VMULU` replace them
by a trick with the sign of the middle limb.

`vuop_plain`: the first four are their siblings from a cleared accumulator, and the other
two leave twice the product, rounded, and its clamped upper bits.
-/

namespace ParallelRsp

open Simd

/-- The accumulator, cleared. -/
def AccVector.zero : AccVector := ⟨mmSetzeroSi128, mmSetzeroSi128, mmSetzeroSi128⟩

theorem acc48_zero (i : Fin 8) : acc48 AccVector.zero i = 0#48 := by
  simp only [acc48, AccVector.zero, mmSetzeroSi128]
  decide

/-! ### Limbs -/

theorem join3_inj {hi md lo hi' md' lo' : BitVec 16} (h : join3 hi md lo = join3 hi' md' lo') :
    hi = hi' ∧ md = md' ∧ lo = lo' := by
  have hlo := congrArg (BitVec.extractLsb' 0 16) h
  have htop := congrArg (BitVec.extractLsb' 16 32) h
  rw [extractLsb'_join3_lo, extractLsb'_join3_lo] at hlo
  rw [extractLsb'_join3, extractLsb'_join3] at htop
  have hmd := congrArg (BitVec.extractLsb' 0 16) htop
  have hhi := congrArg (BitVec.extractLsb' 16 16) htop
  rw [BitVec.extractLsb'_append_eq_right, BitVec.extractLsb'_append_eq_right] at hmd
  rw [BitVec.extractLsb'_append_eq_left, BitVec.extractLsb'_append_eq_left] at hhi
  exact ⟨hhi, hmd, hlo⟩

/-- Accumulators with the same numbers are the same. -/
theorem AccVector.ext_acc48 {a a' : AccVector} (h : ∀ i, acc48 a i = acc48 a' i) : a = a' := by
  have hlimbs (i : Fin 8) := join3_inj (h i)
  exact AccVector.ext (funext fun i => (hlimbs i).1) (funext fun i => (hlimbs i).2.1)
    (funext fun i => (hlimbs i).2.2)

/-- The upper bits of a number whose middle limb has been extended by its sign. -/
theorem accTop_extended (h lo : BitVec 16) : accTop (join3 (h.sshiftRight 15) h lo) = h.toInt := by
  rw [accTop_join3, toInt_sshiftRight_fifteen]
  have := toInt_eq_toNat16 h
  generalize (if h.toInt < 0 then (1 : ℤ) else 0) = s at *
  omega

/-- Such a number needs no clamp. -/
theorem clampSigned_extended (h lo : BitVec 16) :
    clampSigned (join3 (h.sshiftRight 15) h lo) = h := by
  have h1 := BitVec.toInt_lt (x := h)
  have h2 := BitVec.le_toInt (x := h)
  rw [clampSigned, accTop_extended, min_eq_left (by omega), max_eq_right (by omega),
    BitVec.ofInt_toInt]

theorem clampLow_extended (h lo : BitVec 16) : clampLow (join3 (h.sshiftRight 15) h lo) = lo := by
  have h1 := BitVec.toInt_lt (x := h)
  have h2 := BitVec.le_toInt (x := h)
  rw [clampLow, accTop_extended, if_pos (by omega), extractLsb'_join3_lo]

/-! ### The kernels -/

/-- What a multiplication leaves, from its accumulator: the lanes of the result are clamped
from those of the accumulator. -/
def MulOut.ClampedBy (clamp : BitVec 48 → BitVec 16) (r : MulOut) : Prop :=
  ∀ i, r.vd i = clamp (acc48 r.acc i)

/-- Clamped in the same way, only the accumulator matters. -/
theorem MulOut.eq_of_clamped (clamp : BitVec 48 → BitVec 16) {r r' : MulOut} (h : r.ClampedBy clamp)
    (h' : r'.ClampedBy clamp) (hacc : ∀ i, acc48 r.acc i = acc48 r'.acc i) : r = r' := by
  have hvd : r.vd = r'.vd := funext fun i => by rw [h i, h' i, hacc i]
  have heq : r.acc = r'.acc := AccVector.ext_acc48 hacc
  cases r
  cases r'
  simp only [MulOut.acc, AccVector.mk.injEq] at heq hvd
  simp only [MulOut.mk.injEq]
  exact ⟨hvd, heq.2.2, heq.2.1, heq.1⟩

section Kernels

variable (b : Build) (vs vt lo md hi : M128i)

/-- `VMUDL` is `VMADL` from zero. -/
theorem rspVmudl_eq :
    rspVmadlVmudl b false vs vt mmSetzeroSi128 lo md hi =
      rspVmadlVmudl b true vs vt mmSetzeroSi128 mmSetzeroSi128 mmSetzeroSi128 mmSetzeroSi128 := by
  apply MulOut.eq_of_clamped clampLow
  · intro i
    exact (clampLow_extended 0#16 _).symm
  · intro i
    exact rspUclampAcc_apply b _ _ _ i
  · intro i
    rw [rspVmadlVmudl_acc]
    change _ = acc48 AccVector.zero i + _
    rw [acc48_zero, BitVec.zero_add]
    exact join3_high_product (vs i) (vt i)

/-- `VMUDM` is `VMADM` from zero. -/
theorem rspVmudm_eq :
    rspVmadmVmudm false vs vt mmSetzeroSi128 lo md hi =
      rspVmadmVmudm true vs vt mmSetzeroSi128 mmSetzeroSi128 mmSetzeroSi128 mmSetzeroSi128 := by
  apply MulOut.eq_of_clamped clampSigned
  · intro i
    exact (clampSigned_extended _ _).symm
  · intro i
    exact rspSclampAccTomd_apply _ _ _ i
  · intro i
    rw [rspVmadmVmudm_acc]
    change _ = acc48 AccVector.zero i + _
    rw [acc48_zero, BitVec.zero_add]
    exact join3_halves (mulhi_mixed (vs i) (vt i)) (toNat_mul_mod_mixed (vs i) (vt i))

/-- `VMUDN` is `VMADN` from zero. -/
theorem rspVmudn_eq :
    rspVmadnVmudn b false vs vt mmSetzeroSi128 lo md hi =
      rspVmadnVmudn b true vs vt mmSetzeroSi128 mmSetzeroSi128 mmSetzeroSi128 mmSetzeroSi128 := by
  apply MulOut.eq_of_clamped clampLow
  · intro i
    exact (clampLow_extended _ _).symm
  · intro i
    exact rspUclampAcc_apply b _ _ _ i
  · intro i
    rw [rspVmadnVmudn_acc]
    change _ = acc48 AccVector.zero i + _
    rw [acc48_zero, BitVec.zero_add, Int.mul_comm]
    apply join3_halves
    · simp only [mmSubEpi16, mmMulhiEpu16, mmAndSi128, mmSraiEpi16]
      rw [Nat.mul_comm]
      exact mulhi_mixed (vt i) (vs i)
    · have hlow := toNat_mul_mod_mixed (vt i) (vs i)
      rw [BitVec.mul_comm] at hlow
      exact hlow

/-- `VMUDH` is `VMADH` from zero. -/
theorem rspVmudh_eq :
    rspVmadhVmudh false vs vt mmSetzeroSi128 lo md hi =
      rspVmadhVmudh true vs vt mmSetzeroSi128 mmSetzeroSi128 mmSetzeroSi128 mmSetzeroSi128 := by
  apply MulOut.eq_of_clamped clampSigned
  · intro i
    exact rspSclampAccTomd_apply _ _ _ i
  · intro i
    exact rspSclampAccTomd_apply _ _ _ i
  · intro i
    rw [rspVmadhVmudh_acc]
    change _ = acc48 AccVector.zero i + _
    rw [acc48_zero, BitVec.zero_add]
    exact join3_upper_product (vs i) (vt i)

end Kernels

/-! ### Fractions

One lane of `VMULF` and `VMULU`: `x` and `y` are the operands. -/

section Fractions

variable (x y : BitVec 16)

/-- The middle of the rounded and doubled product. -/
def mulfMiddle : ℤ := (2 * (x.toInt * y.toInt) + 0x8000) / 2 ^ 16

/-- It fits 16 bits with its sign, except for the one product that overflows. -/
theorem mulfMiddle_bounds :
    -2 ^ 15 ≤ mulfMiddle x y ∧ (x ≠ y → mulfMiddle x y < 2 ^ 15) ∧ (x = y → 0 ≤ mulfMiddle x y) ∧
      mulfMiddle x y ≤ 2 ^ 15 := by
  have hp := signed_product_bounds x y
  rw [mulfMiddle]
  refine ⟨by omega, fun hxy => ?_, ?_, by omega⟩
  · have h1 := BitVec.toInt_lt (x := x)
    have h2 := BitVec.le_toInt (x := x)
    have h3 := BitVec.toInt_lt (x := y)
    have h4 := BitVec.le_toInt (x := y)
    have hne : x.toInt ≠ y.toInt := fun h => hxy (BitVec.toInt_inj.1 h)
    norm_num at h1 h2 h3 h4
    have : x.toInt * y.toInt ≤ 2 ^ 30 - 2 ^ 15 := by
      by_cases hx : x.toInt = -32768
      · have : -32767 ≤ y.toInt := by omega
        rw [hx]
        omega
      · rcases le_total 0 x.toInt with hpos | hneg
        · nlinarith
        · have : -32767 ≤ x.toInt := by omega
          nlinarith [mul_nonneg (show 0 ≤ -x.toInt by omega) (show 0 ≤ 32768 + y.toInt by omega)]
    omega
  · rintro rfl
    have := mul_self_nonneg x.toInt
    omega

theorem toNat_mulf_low :
    ((0x8000#16 + (x * y + x * y)).toNat : ℤ) = (2 * (x.toInt * y.toInt) + 0x8000) % 2 ^ 16 := by
  have hlo := toNat_mul_mod x y
  rw [BitVec.toNat_add, BitVec.toNat_add]
  simp only [BitVec.toNat_ofNat]
  omega

theorem toNat_mulf_middle :
    ((BitVec.ofInt 16 (x.toInt * y.toInt / 2 ^ 16) <<< 1 +
      ((x * y) >>> 15 + (x * y + x * y) >>> 15)).toNat : ℤ) =
      mulfMiddle x y % 2 ^ 16 := by
  have hlo := toNat_mul_mod x y
  have hlt := (x * y).isLt
  have hhi := toInt_eq_toNat16 (BitVec.ofInt 16 (x.toInt * y.toInt / 2 ^ 16))
  rw [mulhi_signed] at hhi
  rw [mulfMiddle]
  simp only [BitVec.toNat_add, BitVec.toNat_shiftLeft, BitVec.toNat_ushiftRight, Nat.shiftLeft_eq,
    Nat.shiftRight_eq_div_pow]
  generalize x.toInt * y.toInt = p at *
  generalize (BitVec.ofInt 16 (p / 2 ^ 16)).toNat = h at *
  generalize (x * y).toNat = l at *
  split at hhi <;> omega

/-- The accumulator that `VMULF` and `VMULU` leave. -/
theorem mulf_acc {hi md lo : BitVec 16}
    (hlo : (lo.toNat : ℤ) = (2 * (x.toInt * y.toInt) + 0x8000) % 2 ^ 16)
    (hmd : (md.toNat : ℤ) = mulfMiddle x y % 2 ^ 16) (hhi : hi = maskOf (x ≠ y ∧ md.toInt < 0)) :
    join3 hi md lo = BitVec.ofInt 48 (2 * (x.toInt * y.toInt) + 0x8000) := by
  obtain ⟨h1, h2, h3, h4⟩ := mulfMiddle_bounds x y
  have hsign := toInt_eq_toNat16 md
  have hlt := BitVec.toInt_lt (x := md)
  have hle := BitVec.le_toInt (x := md)
  apply join3_eq_ofInt
  have hval : hi.toInt = -(if x ≠ y ∧ md.toInt < 0 then 1 else 0) := by
    rw [hhi, maskOf]
    split <;> rfl
  rw [hval]
  have hmid : mulfMiddle x y = (2 * (x.toInt * y.toInt) + 0x8000) / 2 ^ 16 := rfl
  by_cases hxy : x = y
  · have := h3 hxy
    simp only [ne_eq, hxy, not_true_eq_false, false_and, if_false] at *
    omega
  · have := h2 hxy
    by_cases hn : md.toInt < 0
    · simp only [ne_eq, hxy, not_false_eq_true, hn, true_and, if_true] at *
      omega
    · simp only [ne_eq, hxy, not_false_eq_true, hn, and_false, if_false] at *
      omega

/-- The upper bits of that accumulator. -/
theorem accTop_mulf {hi md lo : BitVec 16}
    (h : join3 hi md lo = BitVec.ofInt 48 (2 * (x.toInt * y.toInt) + 0x8000)) :
    accTop (join3 hi md lo) = mulfMiddle x y := by
  have hp := signed_product_bounds x y
  have hval := congrArg BitVec.toInt h
  rw [toInt_join3, BitVec.toInt_ofInt_eq_self (by omega) (by omega) (by omega)] at hval
  have := lo.isLt
  rw [accTop_join3, mulfMiddle]
  omega

/-- The destination of `VMULF`: the one product that overflows is pulled
back to the largest number. -/
theorem mulf_signed {hi md lo : BitVec 16}
    (h : join3 hi md lo = BitVec.ofInt 48 (2 * (x.toInt * y.toInt) + 0x8000))
    (hmd : (md.toNat : ℤ) = mulfMiddle x y % 2 ^ 16) :
    md + maskOf (x = y ∧ md.toInt < 0) = clampSigned (join3 hi md lo) := by
  obtain ⟨h1, h2, h3, h4⟩ := mulfMiddle_bounds x y
  have hsign := toInt_eq_toNat16 md
  have hlt := BitVec.toInt_lt (x := md)
  have hle := BitVec.le_toInt (x := md)
  rw [clampSigned, accTop_mulf x y h]
  by_cases hover : mulfMiddle x y = 2 ^ 15
  · have hxy : x = y := by
      by_contra hxy
      have := h2 hxy
      omega
    have hval : md = 0x8000#16 := by
      rw [← BitVec.toNat_inj]
      simp only [BitVec.toNat_ofNat]
      omega
    rw [hover, hval, maskOf, if_pos ⟨hxy, by decide⟩]
    decide
  · have hval : md.toInt = mulfMiddle x y := by
      split at hsign <;> omega
    have hmask : ¬(x = y ∧ md.toInt < 0) := by
      rintro ⟨hxy, hneg⟩
      have := h3 hxy
      omega
    rw [maskOf, if_neg hmask, BitVec.add_zero, min_eq_left (by omega), max_eq_right (by omega),
      ← hval, BitVec.ofInt_toInt]

/-- The destination of `VMULU`. -/
theorem mulf_unsigned {hi md lo : BitVec 16}
    (h : join3 hi md lo = BitVec.ofInt 48 (2 * (x.toInt * y.toInt) + 0x8000))
    (hmd : (md.toNat : ℤ) = mulfMiddle x y % 2 ^ 16) (hhi : hi = maskOf (x ≠ y ∧ md.toInt < 0)) :
    ~~~hi &&& (md ||| maskOf (md.toInt < 0)) = clampMacu (join3 hi md lo) := by
  obtain ⟨h1, h2, h3, h4⟩ := mulfMiddle_bounds x y
  have hsign := toInt_eq_toNat16 md
  have hlt := BitVec.toInt_lt (x := md)
  have hle := BitVec.le_toInt (x := md)
  rw [clampMacu, accTop_mulf x y h, hhi]
  by_cases hneg : md.toInt < 0
  · by_cases hxy : x = y
    · have := h3 hxy
      have hover : mulfMiddle x y = 2 ^ 15 := by
        rw [if_pos hneg] at hsign
        omega
      rw [hover, maskOf, if_neg (by simp [hxy]), maskOf, if_pos hneg, if_neg (by norm_num),
        if_pos (by norm_num)]
      exact (congrArg _ BitVec.or_allOnes).trans (by decide)
    · have := h2 hxy
      rw [maskOf, if_pos ⟨hxy, hneg⟩, if_pos]
      · exact BitVec.zero_and
      · rw [if_pos hneg] at hsign
        omega
  · have hval : md.toInt = mulfMiddle x y := by
      rw [if_neg hneg] at hsign
      omega
    rw [maskOf, if_neg (fun h => hneg h.2), maskOf, if_neg hneg, if_neg (by omega),
      if_neg (by omega), ← hval, BitVec.ofInt_toInt, BitVec.or_zero]
    exact BitVec.allOnes_and

end Fractions

/-- Doubled, rounded and clamped, on every lane. -/
theorem rspVmulfVmulu_lane (vmulu : Bool) (vs vt : M128i) (i : Fin 8) :
    acc48 (rspVmulfVmulu vmulu vs vt mmSetzeroSi128).acc i =
        BitVec.ofInt 48 (2 * ((vs i).toInt * (vt i).toInt) + 0x8000) ∧
      (rspVmulfVmulu vmulu vs vt mmSetzeroSi128).vd i =
        (if vmulu then clampMacu else clampSigned)
        (acc48 (rspVmulfVmulu vmulu vs vt mmSetzeroSi128).acc i) := by
  have hround : mmSlliEpi16 (mmCmpeqEpi16 mmSetzeroSi128 mmSetzeroSi128) 15 i = 0x8000#16 := by
    simp only [mmSlliEpi16, mmCmpeqEpi16, maskOf, if_true]
    decide
  set md : BitVec 16 := BitVec.ofInt 16 ((vs i).toInt * (vt i).toInt / 2 ^ 16) <<< 1 +
    ((vs i * vt i) >>> 15 + (vs i * vt i + vs i * vt i) >>> 15) with hmd
  have hmid := toNat_mulf_middle (vs i) (vt i)
  have hacc := mulf_acc (vs i) (vt i) (toNat_mulf_low (vs i) (vt i)) hmid rfl
  rw [← hmd] at hmid hacc
  cases vmulu with
  | false =>
    have hlimbs : acc48 (rspVmulfVmulu false vs vt mmSetzeroSi128).acc i =
        join3 (maskOf (vs i ≠ vt i ∧ md.toInt < 0)) md
          (0x8000#16 + (vs i * vt i + vs i * vt i)) := by
      rw [acc48, MulOut.acc, ← hround, ← maskOf_andnot, ← sshiftRight_fifteen]
      rfl
    rw [hlimbs]
    refine ⟨hacc, ?_⟩
    refine Eq.trans ?_ (mulf_signed (vs i) (vt i) hacc hmid)
    rw [← maskOf_and, ← sshiftRight_fifteen]
    rfl
  | true =>
    have hlimbs : acc48 (rspVmulfVmulu true vs vt mmSetzeroSi128).acc i =
        join3 (maskOf (vs i ≠ vt i ∧ md.toInt < 0)) md
          (0x8000#16 + (vs i * vt i + vs i * vt i)) := by
      rw [acc48, MulOut.acc, ← hround, ← maskOf_andnot, ← sshiftRight_fifteen]
      rfl
    rw [hlimbs]
    refine ⟨hacc, ?_⟩
    refine Eq.trans ?_ (mulf_unsigned (vs i) (vt i) hacc hmid rfl)
    rw [← maskOf_andnot, ← sshiftRight_fifteen]
    rfl

/-! ### The instructions -/

/-- The plain multiplications with an accumulating sibling. -/
inductive MudOp where
  | vmudl
  | vmudm
  | vmudn
  | vmudh
  deriving DecidableEq

/-- The entry of the dispatch table. -/
def MudOp.code : MudOp → Fin 64
  | .vmudl => 4
  | .vmudm => 5
  | .vmudn => 6
  | .vmudh => 7

/-- The accumulating sibling. -/
def MudOp.accumulating : MudOp → MacOp
  | .vmudl => .vmadl
  | .vmudm => .vmadm
  | .vmudn => .vmadn
  | .vmudh => .vmadh

/-- `VMULF` or `VMULU`: the entry of the dispatch table. -/
def mulfCode (vmulu : Bool) : Fin 64 := if vmulu then 1 else 0

/-- The plain multiplications are the accumulating ones from a cleared accumulator;
those of fractions leave the rounded double of the product, and clamp it as their
accumulating siblings clamp. -/
theorem vuop_plain (b : Build) (e : Fin 16) (vd vs vt : Fin 32) (cp2 : CP2) :
    (∀ op : MudOp, VU.vuop b e vd vs vt cp2 op.code =
      VU.vuop b e vd vs vt { cp2 with acc := AccVector.zero } op.accumulating.code) ∧
    ∀ (vmulu : Bool) (i : Fin 8),
      acc48 (VU.vuop b e vd vs vt cp2 (mulfCode vmulu)).acc i =
          BitVec.ofInt 48 (2 * ((cp2.regs vs i).toInt * (VU.loadVt b e vt cp2 i).toInt) + 0x8000) ∧
        (VU.vuop b e vd vs vt cp2 (mulfCode vmulu)).regs vd i =
          (if vmulu then MacOp.vmacu else MacOp.vmacf).result
            (acc48 (VU.vuop b e vd vs vt cp2 (mulfCode vmulu)).acc i) := by
  constructor
  · intro op
    cases op with
    | vmudl => exact congrArg (VU.storeMul cp2 vd) (rspVmudl_eq b _ _ _ _ _)
    | vmudm => exact congrArg (VU.storeMul cp2 vd) (rspVmudm_eq _ _ _ _ _)
    | vmudn => exact congrArg (VU.storeMul cp2 vd) (rspVmudn_eq b _ _ _ _ _)
    | vmudh => exact congrArg (VU.storeMul cp2 vd) (rspVmudh_eq _ _ _ _ _)
  · intro vmulu i
    obtain ⟨hacc, hvd⟩ := rspVmulfVmulu_lane vmulu (VU.loadVs vs cp2) (VU.loadVt b e vt cp2) i
    have hreg (r : MulOut) : (VU.storeMul cp2 vd r).regs vd = r.vd := by
      simp [VU.storeMul]
    cases vmulu with
    | false => exact ⟨hacc, (congrFun (hreg _) i).trans hvd⟩
    | true => exact ⟨hacc, (congrFun (hreg _) i).trans hvd⟩

end ParallelRsp
