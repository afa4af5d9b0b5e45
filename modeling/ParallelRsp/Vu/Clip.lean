import ParallelRsp.Vu.Builds
import ParallelRsp.Vu.DoubleWord

/-!
# The clip test of 32-bit numbers

`VCH` on the high halves and then `VCL` on the low halves compare a 32-bit number `S` with
the interval that a 32-bit number `T` spans. The first step leaves what the high halves say
in five masks; where they do not decide (`VCO.hi` clear) the second step does, and a high
sum of `-1`, which `VCE` records, is told from a high sum of zero.

`vuop_clip_pair`: on every lane the two steps are the clip test on the exact values.
-/

namespace ParallelRsp

open Simd

/-- Two numbers of different sign. -/
def Differ {w : ℕ} (x y : BitVec w) : Prop := x.msb ≠ y.msb

instance {w : ℕ} (x y : BitVec w) : Decidable (Differ x y) := inferInstanceAs (Decidable (_ ≠ _))

theorem differ_iff {w : ℕ} (x y : BitVec w) : Differ x y ↔ ¬(x.toInt < 0 ↔ y.toInt < 0) := by
  rw [Differ, BitVec.msb_eq_toInt, BitVec.msb_eq_toInt, ne_eq, decide_eq_decide]

/-- The sum of numbers of different sign, the difference of numbers of
the same sign: it always fits. -/
def gap (x y : BitVec 16) : ℤ := if Differ x y then x.toInt + y.toInt else x.toInt - y.toInt

theorem gap_bounds (x y : BitVec 16) : -2 ^ 15 ≤ gap x y ∧ gap x y < 2 ^ 15 := by
  have hx := BitVec.toInt_lt (x := x)
  have hx' := BitVec.le_toInt (x := x)
  have hy := BitVec.toInt_lt (x := y)
  have hy' := BitVec.le_toInt (x := y)
  have hd := differ_iff x y
  rw [gap]
  split <;> simp_all only [true_iff, false_iff] <;> omega

/-! ### Lanes -/

theorem xor_slt_zero (x y : BitVec 16) : (x ^^^ y).slt 0#16 ↔ Differ x y := by
  rw [BitVec.slt_zero_iff_msb_cond, BitVec.msb_xor, Differ]
  cases x.msb <;> cases y.msb <;> decide

/-- `vt`, negated where the mask is set. -/
theorem sign_neg (y : BitVec 16) (p : Prop) [Decidable p] :
    (y ^^^ maskOf p) - maskOf p = if p then -y else y := by
  unfold maskOf
  split
  · rw [show (0xFFFF#16) = BitVec.allOnes 16 from rfl, BitVec.xor_allOnes, BitVec.neg_eq_not_add]
    exact (BitVec.sub_eq_add_neg _ _).trans rfl
  · rw [BitVec.xor_zero, BitVec.sub_zero]

/-- The difference that both steps take, as a number. -/
theorem toInt_sub_signed (x y : BitVec 16) :
    (x - if Differ x y then -y else y).toInt = gap x y := by
  have hb := gap_bounds x y
  have hval : (x - if Differ x y then -y else y) = BitVec.ofInt 16 (gap x y) := by
    rw [gap]
    split
    · rw [BitVec.sub_neg, BitVec.ofInt_add, BitVec.ofInt_toInt, BitVec.ofInt_toInt]
    · rw [ofInt_sub, BitVec.ofInt_toInt, BitVec.ofInt_toInt]
  rw [hval]
  exact BitVec.toInt_ofInt_eq_self (by omega) (by omega) (by omega)

/-- A blend whose mask is known. -/
theorem blend_apply (x y : M128i) {m : M128i} {i : Fin 8}
    {p : Prop} [Decidable p] (h : m i = maskOf p) :
    mmBlendvEpi8 x y m i = if p then y i else x i := by
  rw [mmBlendvEpi8_apply x y m i (h ▸ isMask_maskOf p), h]
  simp only [maskOf_eq_ones]

/-- A choice of masks is the mask of the choice. -/
theorem ite_maskOf (p q r : Prop) [Decidable p] [Decidable q] [Decidable r] :
    (if p then maskOf q else maskOf r) = maskOf (if p then q else r) := by
  split <;> rfl

theorem cmplt_zero_apply (x : M128i) (i : Fin 8) :
    mmCmpltEpi16 x mmSetzeroSi128 i = maskOf ((x i).toInt < 0) := by
  apply maskOf_congr
  rw [BitVec.slt_iff_toInt_lt]
  rfl

theorem cmpgt_zero_apply (x : M128i) (i : Fin 8) :
    mmCmpgtEpi16 x mmSetzeroSi128 i = maskOf (0 < (x i).toInt) := by
  apply maskOf_congr
  rw [BitVec.slt_iff_toInt_lt]
  rfl

theorem cmpeq_zero_apply (x : M128i) (i : Fin 8) :
    mmCmpeqEpi16 x mmSetzeroSi128 i = maskOf ((x i).toInt = 0) := by
  apply maskOf_congr
  rw [← BitVec.toInt_inj]
  rfl

/-! ### The first step -/

section First

variable (b : Build) (vs vt : M128i) (i : Fin 8)

/-- What the high halves leave for the low ones. -/
theorem rspVch_apply :
    (rspVch b vs vt mmSetzeroSi128).sign i = maskOf (Differ (vs i) (vt i)) ∧
      (rspVch b vs vt mmSetzeroSi128).ge i =
        maskOf (if Differ (vs i) (vt i) then (vt i).toInt < 0 else 0 ≤ gap (vs i) (vt i)) ∧
      (rspVch b vs vt mmSetzeroSi128).le i =
        maskOf (if Differ (vs i) (vt i) then gap (vs i) (vt i) ≤ 0 else (vt i).toInt < 0) ∧
      (rspVch b vs vt mmSetzeroSi128).vce i = maskOf (Differ (vs i) (vt i) ∧
        gap (vs i) (vt i) = -1) ∧
      (rspVch b vs vt mmSetzeroSi128).eq i =
        maskOf (¬(gap (vs i) (vt i) = 0 ∨ Differ (vs i) (vt i) ∧ gap (vs i) (vt i) = -1)) := by
  rw [rspVch_builds b .sse41 vs vt]
  set r := rspVch .sse41 vs vt mmSetzeroSi128 with hr
  have hsign : r.sign i = maskOf (Differ (vs i) (vt i)) := maskOf_congr (xor_slt_zero (vs i) (vt i))
  set diff := mmSubEpi16 vs (mmSubEpi16 (mmXorSi128 vt r.sign) r.sign) with hd
  have hdiff : (diff i).toInt = gap (vs i) (vt i) := by
    rw [← toInt_sub_signed, ← sign_neg, ← hsign]
    rfl
  have hgez : mmOrSi128 (mmCmpgtEpi16 diff mmSetzeroSi128) (mmCmpeqEpi16 diff mmSetzeroSi128) i =
      maskOf (0 ≤ gap (vs i) (vt i)) := by
    rw [mmOrSi128, cmpgt_zero_apply, cmpeq_zero_apply, maskOf_or, hdiff]
    exact maskOf_congr (by omega)
  have hlez : mmCmpeqEpi16 mmSetzeroSi128 (mmCmpgtEpi16 diff mmSetzeroSi128) i =
      maskOf (gap (vs i) (vt i) ≤ 0) := by
    rw [mmCmpeqEpi16, cmpgt_zero_apply, hdiff]
    apply maskOf_congr
    rw [mmSetzeroSi128, eq_comm, maskOf_eq_zero, not_lt]
  have hvce : r.vce i = maskOf (Differ (vs i) (vt i) ∧ gap (vs i) (vt i) = -1) := by
    have h : r.vce i = maskOf (diff i = r.sign i) &&& r.sign i := rfl
    rw [h, hsign, maskOf_and]
    apply maskOf_congr
    rw [and_comm]
    refine and_congr_right fun hdiffer => ?_
    rw [maskOf, if_pos hdiffer, ← BitVec.toInt_inj, hdiff]
    rfl
  have hge : r.ge = mmBlendvEpi8
      (mmOrSi128 (mmCmpgtEpi16 diff mmSetzeroSi128) (mmCmpeqEpi16 diff mmSetzeroSi128))
      (mmCmpltEpi16 vt mmSetzeroSi128) r.sign := rfl
  have hle : r.le = mmBlendvEpi8 (mmCmpltEpi16 vt mmSetzeroSi128)
      (mmCmpeqEpi16 mmSetzeroSi128 (mmCmpgtEpi16 diff mmSetzeroSi128)) r.sign := rfl
  refine ⟨hsign, ?_, ?_, hvce, ?_⟩
  · rw [hge, blend_apply _ _ hsign, hgez, cmplt_zero_apply, ite_maskOf]
  · rw [hle, blend_apply _ _ hsign, hlez, cmplt_zero_apply, ite_maskOf]
  · have h : r.eq i = maskOf ((mmCmpeqEpi16 diff mmSetzeroSi128 i ||| r.vce i) = 0#16) := rfl
    rw [h, cmpeq_zero_apply, hdiff, hvce, maskOf_or]
    exact maskOf_congr (maskOf_eq_zero _)

end First

/-! ### The second step -/

section Second

variable (b : Build) (vs vt : M128i) (i : Fin 8)

/-- The second step, from any masks: where `eq` is clear the low halves decide. -/
theorem rspVcl_apply {ge le eq sign vce : M128i} {pge ple peq psign pvce : Prop}
    [Decidable pge] [Decidable ple]
    [Decidable peq] [Decidable psign] [Decidable pvce] (hge : ge i = maskOf pge)
    (hle : le i = maskOf ple)
    (heq : eq i = maskOf peq) (hsign : sign i = maskOf psign) (hvce : vce i = maskOf pvce) :
    (rspVcl .sse41 vs vt mmSetzeroSi128 ge le eq sign vce).le i =
        maskOf (if psign ∧ ¬peq then
          (if pvce then (vs i).toNat + (vt i).toNat ≤ 2 ^ 16
            else (vs i).toNat + (vt i).toNat = 0) else ple) ∧
      (rspVcl .sse41 vs vt mmSetzeroSi128 ge le eq sign vce).ge i =
        maskOf (if psign ∨ peq then pge else (vt i).toNat ≤ (vs i).toNat) := by
  set r := rspVcl .sse41 vs vt mmSetzeroSi128 ge le eq sign vce with hr
  set diff := mmSubEpi16 vs (mmSubEpi16 (mmXorSi128 vt sign) sign) with hd
  have hdiff : diff i = vs i - if psign then -vt i else vt i := by
    rw [← sign_neg, ← hsign]
    rfl
  set leEq := mmOrSi128
    (mmAndSi128 (mmCmpeqEpi16 vce mmSetzeroSi128)
      (mmAndSi128 (mmCmpeqEpi16 diff mmSetzeroSi128) (mmCmpeqEpi16 diff (mmAddsEpu16 vs vt))))
    (mmAndSi128 vce (mmOrSi128 (mmCmpeqEpi16 diff mmSetzeroSi128)
      (mmCmpeqEpi16 diff (mmAddsEpu16 vs vt)))) with hleEq
  have hlow : psign → leEq i = maskOf (if pvce then (vs i).toNat + (vt i).toNat ≤ 2 ^ 16
      else (vs i).toNat + (vt i).toNat = 0) := by
    intro hp
    rw [if_pos hp, BitVec.sub_neg] at hdiff
    have hzero : diff i = 0#16 ↔ ((vs i).toNat + (vt i).toNat) % 2 ^ 16 = 0 := by
      rw [hdiff, ← BitVec.toNat_inj, BitVec.toNat_add]
      rfl
    have hnocarry : diff i = satU 16 ((vs i).toNat + (vt i).toNat) ↔
        ¬2 ^ 16 ≤ (vs i).toNat + (vt i).toNat := by
      rw [hdiff]
      exact add_eq_satU_iff (vs i) (vt i)
    have h : leEq i =
        (maskOf (vce i = 0#16) &&&
            (maskOf (diff i = 0#16) &&&
              maskOf (diff i = satU 16 ((vs i).toNat + (vt i).toNat)))) |||
          (vce i &&& (maskOf (diff i = 0#16) |||
            maskOf (diff i = satU 16 ((vs i).toNat + (vt i).toNat)))) := rfl
    rw [h, hvce, maskOf_congr (maskOf_eq_zero pvce), maskOf_congr hzero, maskOf_congr hnocarry,
      maskOf_and, maskOf_and, maskOf_or, maskOf_and, maskOf_or]
    apply maskOf_congr
    have := (vs i).isLt
    have := (vt i).isLt
    by_cases hv : pvce
    · simp only [hv, not_true_eq_false, false_and, true_and, false_or, if_true]
      omega
    · simp only [hv, not_false_eq_true, true_and, false_and, or_false, if_false]
      omega
  have hgeEq : mmCmpeqEpi16 (mmSubsEpu16 vt vs) mmSetzeroSi128 i =
      maskOf ((vt i).toNat ≤ (vs i).toNat) := by
    apply maskOf_congr
    rw [mmSubsEpu16, mmSetzeroSi128, ← BitVec.toNat_inj, satU, BitVec.toNat_ofNat,
      BitVec.toNat_ofNat]
    have := (vt i).isLt
    omega
  have hdoLe : mmAndnotSi128 eq sign i = maskOf (psign ∧ ¬peq) := by
    rw [mmAndnotSi128, heq, hsign, maskOf_andnot]
    exact maskOf_congr and_comm
  have hdoGe : mmOrSi128 sign eq i = maskOf (psign ∨ peq) := by
    rw [mmOrSi128, heq, hsign, maskOf_or]
  have hrle : r.le = mmBlendvEpi8 le leEq (mmAndnotSi128 eq sign) := rfl
  have hrge : r.ge = mmBlendvEpi8 (mmCmpeqEpi16 (mmSubsEpu16 vt vs) mmSetzeroSi128) ge
      (mmOrSi128 sign eq) := rfl
  constructor
  · rw [hrle, blend_apply _ _ hdoLe]
    by_cases hp : psign ∧ ¬peq
    · rw [if_pos hp, hlow hp.1]
      exact maskOf_congr (by rw [if_pos hp])
    · rw [if_neg hp, hle]
      exact maskOf_congr (by rw [if_neg hp])
  · rw [hrge, blend_apply _ _ hdoGe, hge, hgeEq, ite_maskOf]

/-- The result is chosen by the mask that belongs to the sign. -/
theorem rspVcl_vd {ge le eq sign vce : M128i} {psign : Prop}
    [Decidable psign] (hsign : sign i = maskOf psign)
    {pge ple : Prop} [Decidable pge] [Decidable ple]
    (hge : (rspVcl .sse41 vs vt mmSetzeroSi128 ge le eq sign vce).ge i = maskOf pge)
    (hle : (rspVcl .sse41 vs vt mmSetzeroSi128 ge le eq sign vce).le i = maskOf ple) :
    (rspVcl .sse41 vs vt mmSetzeroSi128 ge le eq sign vce).vd i =
      if psign ∧ ple then -vt i else if ¬psign ∧ pge then vt i else vs i := by
  set r := rspVcl .sse41 vs vt mmSetzeroSi128 ge le eq sign vce with hr
  have hvd : r.vd = mmBlendvEpi8 vs (mmSubEpi16 (mmXorSi128 vt sign) sign)
      (mmBlendvEpi8 r.ge r.le sign) := rfl
  have hneg : mmSubEpi16 (mmXorSi128 vt sign) sign i = if psign then -vt i else vt i := by
    rw [← sign_neg, ← hsign]
    rfl
  have hmux : mmBlendvEpi8 r.ge r.le sign i = maskOf (if psign then ple else pge) := by
    rw [blend_apply _ _ hsign, hge, hle, ite_maskOf]
  rw [hvd, blend_apply _ _ hmux, hneg]
  by_cases hp : psign <;>
    simp only [hp, if_true, if_false, true_and, false_and, not_true_eq_false, not_false_eq_true]

end Second

/-! ### Both steps -/

/-- The clip test of two 32-bit numbers: `VCC.lo`. -/
def clipLe (s t : BitVec 32) : Prop := if Differ s t then s.toInt + t.toInt ≤ 0 else t.toInt < 0

/-- `VCC.hi`. -/
def clipGe (s t : BitVec 32) : Prop := if Differ s t then t.toInt < 0 else t.toInt ≤ s.toInt

instance (s t : BitVec 32) : Decidable (clipLe s t) := inferInstanceAs (Decidable (ite _ _ _))
instance (s t : BitVec 32) : Decidable (clipGe s t) := inferInstanceAs (Decidable (ite _ _ _))

theorem differ_append (sh sl th tl : BitVec 16) :
    Differ (sh ++ sl : BitVec 32) (th ++ tl) ↔ Differ sh th := by
  rw [Differ, Differ, BitVec.msb_append, BitVec.msb_append]
  rfl

theorem clipLe_append (sh sl th tl : BitVec 16) :
    (if Differ sh th ∧ ¬¬(gap sh th = 0 ∨ Differ sh th ∧ gap sh th = -1) then
        (if Differ sh th ∧ gap sh th = -1 then sl.toNat + tl.toNat ≤ 2 ^ 16
          else sl.toNat + tl.toNat = 0)
      else if Differ sh th then gap sh th ≤ 0 else th.toInt < 0) ↔
        clipLe (sh ++ sl) (th ++ tl) := by
  have hs := sl.isLt
  have ht := tl.isLt
  have hS := toInt_append16 sh sl (by decide)
  have hT := toInt_append16 th tl (by decide)
  by_cases hd : Differ sh th
  · rw [clipLe, if_pos ((differ_append sh sl th tl).2 hd), hS, hT, gap, if_pos hd]
    simp only [hd, true_and, if_true, not_not]
    split
    · split <;> omega
    · omega
  · rw [clipLe, if_neg (mt (differ_append sh sl th tl).1 hd), hT]
    simp only [hd, false_and, if_false]
    omega

theorem clipGe_append (sh sl th tl : BitVec 16) :
    (if Differ sh th ∨ ¬(gap sh th = 0 ∨ Differ sh th ∧ gap sh th = -1) then
        (if Differ sh th then th.toInt < 0 else 0 ≤ gap sh th)
      else tl.toNat ≤ sl.toNat) ↔ clipGe (sh ++ sl) (th ++ tl) := by
  have hs := sl.isLt
  have ht := tl.isLt
  have hS := toInt_append16 sh sl (by decide)
  have hT := toInt_append16 th tl (by decide)
  by_cases hd : Differ sh th
  · rw [clipGe, if_pos ((differ_append sh sl th tl).2 hd), hT]
    simp only [hd, true_or, if_true]
    omega
  · rw [clipGe, if_neg (mt (differ_append sh sl th tl).1 hd), hS, hT, gap, if_neg hd]
    simp only [hd, false_and, false_or, or_false, if_false]
    split <;> omega

/-- `VCH` on the high halves, then `VCL` on the low halves, is the clip test of 32-bit numbers:
`VCC` holds the two comparisons, `VCO` and the lanes of `VCE` are cleared, and the destination is
the low half of the limit, of its negation or of the number. -/
theorem vuop_clip_pair (b : Build) (o o' : Operands) (cp2 : CP2) (i : Fin 8) :
    let c := o.run b 37 cp2
    let c' := o'.run b 36 c
    let s : BitVec 32 := o.s cp2 i ++ o'.s c i
    let t : BitVec 32 := o.t b cp2 i ++ o'.t b c i
    (c'.flags rspVCC).lo i = maskOf (if s.msb ≠ t.msb then s.toInt + t.toInt ≤ 0 else t.toInt < 0) ∧
      (c'.flags rspVCC).hi i = maskOf (if s.msb ≠ t.msb then t.toInt < 0 else t.toInt ≤ s.toInt) ∧
      c'.flags rspVCO = FlagVector.zero ∧
        c'.flags rspVCE = ⟨(cp2.flags rspVCE).hi, mmSetzeroSi128⟩ ∧
      c'.regs o'.vd i =
        if s.msb ≠ t.msb ∧ (c'.flags rspVCC).lo i = 0xFFFF#16 then -o'.t b c i
        else if s.msb = t.msb ∧ (c'.flags rspVCC).hi i = 0xFFFF#16 then o'.t b c i
        else o'.s c i := by
  intro c c' s t
  obtain ⟨hsign, hge, hle, hvce, heq⟩ :=
    rspVch_apply b (VU.loadVs o.vs cp2) (VU.loadVt b o.e o.vt cp2) i
  obtain ⟨hge', hle', heq', hsign', hvce'⟩ :=
    rspVch_masks b (VU.loadVs o.vs cp2) (VU.loadVt b o.e o.vt cp2) mmSetzeroSi128
  set r := rspVch b (VU.loadVs o.vs cp2) (VU.loadVt b o.e o.vt cp2) mmSetzeroSi128 with hr
  set r' := rspVcl .sse41 (VU.loadVs o'.vs c) (VU.loadVt b o'.e o'.vt c) mmSetzeroSi128
    r.ge r.le r.eq r.sign r.vce with hr'
  have hbuild : rspVcl b (VU.loadVs o'.vs c) (VU.loadVt b o'.e o'.vt c) mmSetzeroSi128
      r.ge r.le r.eq r.sign r.vce = r' :=
    rspVcl_builds b .sse41 _ _ _ hge' hle' heq' hsign' hvce'
  obtain ⟨hlow, hhigh⟩ :=
    rspVcl_apply (VU.loadVs o'.vs c) (VU.loadVt b o'.e o'.vt c) i hge hle heq hsign hvce
  have hcle : (c'.flags rspVCC).lo i = maskOf (clipLe s t) := by
    refine Eq.trans ?_ (maskOf_congr (clipLe_append _ _ _ _))
    refine Eq.trans ?_ hlow
    exact congrArg (fun q => ClipOut.le q i) hbuild
  have hcge : (c'.flags rspVCC).hi i = maskOf (clipGe s t) := by
    refine Eq.trans ?_ (maskOf_congr (clipGe_append _ _ _ _))
    refine Eq.trans ?_ hhigh
    exact congrArg (fun q => ClipOut.ge q i) hbuild
  refine ⟨hcle, hcge, rfl, rfl, ?_⟩
  have hvd : c'.regs o'.vd i = r'.vd i :=
    (congrFun (storeResult_regs _ _ _) i).trans (congrArg (fun q => ClipOut.vd q i) hbuild)
  have hrle : r'.le i = maskOf (clipLe s t) :=
    (congrArg (fun q => ClipOut.le q i) hbuild).symm.trans hcle
  have hrge : r'.ge i = maskOf (clipGe s t) :=
    (congrArg (fun q => ClipOut.ge q i) hbuild).symm.trans hcge
  have hdiffer : Differ (o.s cp2 i) (o.t b cp2 i) ↔ s.msb ≠ t.msb := (differ_append _ _ _ _).symm
  refine (hvd.trans (rspVcl_vd _ _ i hsign hrge hrle)).trans ?_
  change (if Differ (o.s cp2 i) (o.t b cp2 i) ∧ clipLe s t then -o'.t b c i
    else if ¬Differ (o.s cp2 i) (o.t b cp2 i) ∧ clipGe s t then o'.t b c i else o'.s c i) = _
  simp only [hcle, hcge, maskOf_eq_ones, hdiffer, ne_eq, not_not]

end ParallelRsp
