import ParallelRsp.Vu.Clip

/-!
# Clamping to an interval

`VCH` and `VCR` compare a lane of the first source with the interval that a lane `t` of
the second one spans: from `-t` to `t` for `VCH`, from `-t - 1` to `t`, whose lower end is
the complement of `t`, for `VCR`. The kernels are masks and wrapping sums.

`vuop_clamps`: no sum wraps where it counts. The masks compare the exact numbers, and where
`t` is not negative the result is the number clamped to the interval; so clamping again
changes nothing, and clamping keeps the order.
-/

namespace ParallelRsp

open Simd

/-! ### Lanes -/

theorem and_ones (x : BitVec 16) : x &&& 0xFFFF#16 = x := BitVec.and_allOnes

theorem or_ones (x : BitVec 16) : x ||| 0xFFFF#16 = 0xFFFF#16 := BitVec.or_allOnes

/-- Numbers of different sign add up without wrapping. -/
theorem toInt_add_of_differ {x y : BitVec 16} (h : Differ x y) : (x + y).toInt = gap x y := by
  have hsub := toInt_sub_signed x y
  rwa [if_pos h, BitVec.sub_neg] at hsub

/-- The smaller number is the second one. -/
theorem min_eq_iff (x y : BitVec 16) : (if x.slt y then x else y) = y ↔ y.toInt ≤ x.toInt := by
  have hlt := BitVec.slt_iff_toInt_lt (x := x) (y := y)
  split
  · rename_i h
    have := hlt.1 h
    refine iff_of_false ?_ (by omega)
    rintro rfl
    omega
  · rename_i h
    have := mt hlt.2 h
    exact iff_of_true rfl (by omega)

/-! ### The kernels -/

section Kernels

variable (b : Build) (vs vt : M128i) (i : Fin 8)

/-- The result of `rsp_vch`. -/
theorem rspVch_vd : (rspVch b vs vt mmSetzeroSi128).vd i =
    if Differ (vs i) (vt i) then if gap (vs i) (vt i) ≤ 0 then -vt i else vs i
    else if 0 ≤ gap (vs i) (vt i) then vt i else vs i := by
  obtain ⟨hsign, hge, hle, -, -⟩ := rspVch_apply .sse41 vs vt i
  rw [rspVch_builds b .sse41 vs vt]
  set r := rspVch .sse41 vs vt mmSetzeroSi128
  have hvd : r.vd = mmBlendvEpi8 vs (mmSubEpi16 (mmXorSi128 vt r.sign) r.sign)
      (mmBlendvEpi8 r.ge r.le r.sign) := rfl
  have hneg : mmSubEpi16 (mmXorSi128 vt r.sign) r.sign i =
      if Differ (vs i) (vt i) then -vt i else vt i := by
    rw [← sign_neg, ← hsign]
    rfl
  have hmux : mmBlendvEpi8 r.ge r.le r.sign i =
      maskOf (if Differ (vs i) (vt i) then gap (vs i) (vt i) ≤ 0 else 0 ≤ gap (vs i) (vt i)) := by
    rw [blend_apply _ _ hsign, hge, hle]
    by_cases hd : Differ (vs i) (vt i)
    · simp only [hd, if_true]
    · simp only [hd, if_false]
  rw [hvd, blend_apply _ _ hmux, hneg]
  by_cases hd : Differ (vs i) (vt i)
  · simp only [hd, if_true]
  · simp only [hd, if_false]

/-- What `rsp_vcr` compares. -/
theorem rspVcr_apply :
    (rspVcr b vs vt).le i =
        maskOf (if Differ (vs i) (vt i) then gap (vs i) (vt i) + 1 ≤ 0 else (vt i).toInt < 0) ∧
      (rspVcr b vs vt).ge i =
        maskOf (if Differ (vs i) (vt i) then (vt i).toInt < 0 else 0 ≤ gap (vs i) (vt i)) ∧
      (rspVcr b vs vt).vd i =
        if Differ (vs i) (vt i) then if gap (vs i) (vt i) + 1 ≤ 0 then ~~~vt i else vs i
        else if 0 ≤ gap (vs i) (vt i) then vt i else vs i := by
  rw [rspVcr_builds b .sse41 vs vt]
  set r := rspVcr .sse41 vs vt
  set sign := mmSraiEpi16 (mmXorSi128 vs vt) 15 with hs
  have hsign : sign i = maskOf (Differ (vs i) (vt i)) := by
    rw [hs, mmSraiEpi16, sshiftRight_fifteen]
    refine maskOf_congr (Iff.trans ?_ (xor_slt_zero (vs i) (vt i)))
    rw [BitVec.slt_iff_toInt_lt]
    rfl
  have hle : r.le i = maskOf (if Differ (vs i) (vt i) then gap (vs i) (vt i) + 1 ≤ 0
      else (vt i).toInt < 0) := by
    have h : r.le i = ((vs i &&& sign i) + vt i).sshiftRight 15 := rfl
    rw [h, sshiftRight_fifteen, hsign]
    apply maskOf_congr
    by_cases hd : Differ (vs i) (vt i)
    · rw [maskOf, if_pos hd, if_pos hd, and_ones, toInt_add_of_differ hd]
      omega
    · rw [maskOf, if_neg hd, if_neg hd, BitVec.and_zero, BitVec.zero_add]
  have hge : r.ge i = maskOf (if Differ (vs i) (vt i) then (vt i).toInt < 0
      else 0 ≤ gap (vs i) (vt i)) := by
    have h : r.ge i = maskOf
        ((if (vs i ||| sign i).slt (vt i) then vs i ||| sign i else vt i) = vt i) := rfl
    rw [h, hsign]
    apply maskOf_congr
    rw [min_eq_iff]
    by_cases hd : Differ (vs i) (vt i)
    · rw [maskOf, if_pos hd, if_pos hd, or_ones]
      exact Int.le_sub_one_iff (m := (vt i).toInt) (n := 0)
    · rw [maskOf, if_neg hd, if_neg hd, BitVec.or_zero, gap, if_neg hd]
      omega
  refine ⟨hle, hge, ?_⟩
  have hvd : r.vd = mmBlendvEpi8 vs (mmXorSi128 vt sign) (mmBlendvEpi8 r.ge r.le sign) := rfl
  have hnot : mmXorSi128 vt sign i = if Differ (vs i) (vt i) then ~~~vt i else vt i := by
    rw [mmXorSi128, hsign, maskOf]
    split
    · exact BitVec.xor_allOnes
    · exact BitVec.xor_zero
  have hmux : mmBlendvEpi8 r.ge r.le sign i =
      maskOf (if Differ (vs i) (vt i) then gap (vs i) (vt i) + 1 ≤ 0
        else 0 ≤ gap (vs i) (vt i)) := by
    rw [blend_apply _ _ hsign, hge, hle]
    by_cases hd : Differ (vs i) (vt i)
    · simp only [hd, if_true]
    · simp only [hd, if_false]
  rw [hvd, blend_apply _ _ hmux, hnot]
  by_cases hd : Differ (vs i) (vt i)
  · simp only [hd, if_true]
  · simp only [hd, if_false]

end Kernels

/-! ### The interval -/

/-- Clamping to the interval from `lo` to `hi`. -/
def clamp (lo hi x : ℤ) : ℤ := max lo (min x hi)

theorem clamp_clamp {lo hi : ℤ} (h : lo ≤ hi) (x : ℤ) :
    clamp lo hi (clamp lo hi x) = clamp lo hi x := by
  unfold clamp
  omega

theorem clamp_mono (lo hi : ℤ) {x y : ℤ} (h : x ≤ y) : clamp lo hi x ≤ clamp lo hi y := by
  unfold clamp
  omega

section Interval

variable {x t : BitVec 16} (ht : 0 ≤ t.toInt)
include ht

theorem toInt_neg_of_nonneg : (-t).toInt = -t.toInt := by
  apply BitVec.toInt_neg_of_ne_intMin
  rintro rfl
  exact absurd ht (by decide)

/-- The result of `rsp_vch`, as a number. -/
theorem vch_clamps :
    (if Differ x t then if gap x t ≤ 0 then -t else x else if 0 ≤ gap x t then t else x).toInt =
    clamp (-t.toInt) t.toInt x.toInt := by
  have hneg := toInt_neg_of_nonneg ht
  unfold gap clamp
  by_cases h : Differ x t
  · have hd := (differ_iff x t).1 h
    simp only [h, if_true]
    split <;> omega
  · have hd := mt (differ_iff x t).2 h
    simp only [h, if_false]
    split <;> omega

/-- The result of `rsp_vcr`, as a number. -/
theorem vcr_clamps :
    (if Differ x t then if gap x t + 1 ≤ 0 then ~~~t else x
      else if 0 ≤ gap x t then t else x).toInt =
    clamp (-t.toInt - 1) t.toInt x.toInt := by
  have hnot := Bits.toInt_not t (by decide)
  unfold gap clamp
  by_cases h : Differ x t
  · have hd := (differ_iff x t).1 h
    simp only [h, if_true]
    split <;> omega
  · have hd := mt (differ_iff x t).2 h
    simp only [h, if_false]
    split <;> omega

end Interval

/-! ### The instructions -/

section Instructions

variable (b : Build) (o : Operands) (cp2 : CP2) (i : Fin 8)

/-- The result of `VCH`. -/
theorem vch_regs (ht : 0 ≤ (o.t b cp2 i).toInt) : ((o.run b 37 cp2).regs o.vd i).toInt =
    clamp (-(o.t b cp2 i).toInt) (o.t b cp2 i).toInt (o.s cp2 i).toInt := by
  have hvd : (o.run b 37 cp2).regs o.vd i = _ := congrFun (storeResult_regs _ _ _) i
  rw [hvd]
  exact (congrArg BitVec.toInt
    (rspVch_vd b (VU.loadVs o.vs cp2) (VU.loadVt b o.e o.vt cp2) i)).trans (vch_clamps ht)

/-- The result of `VCR`. -/
theorem vcr_regs (ht : 0 ≤ (o.t b cp2 i).toInt) : ((o.run b 38 cp2).regs o.vd i).toInt =
    clamp (-(o.t b cp2 i).toInt - 1) (o.t b cp2 i).toInt (o.s cp2 i).toInt := by
  have hvd : (o.run b 38 cp2).regs o.vd i = _ := congrFun (storeResult_regs _ _ _) i
  rw [hvd]
  exact (congrArg BitVec.toInt
    (rspVcr_apply b (VU.loadVs o.vs cp2) (VU.loadVt b o.e o.vt cp2) i).2.2).trans (vcr_clamps ht)

/-- The test of the lower end, on the numbers. -/
theorem lower_iff (s t : BitVec 16) (d : ℤ) :
    (if Differ s t then gap s t + d ≤ 0 else t.toInt < 0) ↔
    if s.msb ≠ t.msb then s.toInt + t.toInt + d ≤ 0 else t.toInt < 0 := by
  unfold gap
  by_cases h : s.msb ≠ t.msb
  · rw [if_pos (show Differ s t from h), if_pos (show Differ s t from h), if_pos h]
  · rw [if_neg (show ¬Differ s t from h), if_neg h]

/-- The test of the upper end, on the numbers. -/
theorem upper_iff (s t : BitVec 16) : (if Differ s t then t.toInt < 0 else 0 ≤ gap s t) ↔
    if s.msb ≠ t.msb then t.toInt < 0 else t.toInt ≤ s.toInt := by
  unfold gap
  by_cases h : s.msb ≠ t.msb
  · rw [if_pos (show Differ s t from h), if_pos h]
  · rw [if_neg (show ¬Differ s t from h), if_neg (show ¬Differ s t from h), if_neg h]
    exact Int.sub_nonneg

end Instructions

/-- `VCH` and `VCR` on every lane. The masks in `VCC` compare the exact numbers: where the signs
differ, `s` with the lower end of the interval, else `s` with the upper end. Where `t` is not
negative the result is `s` clamped to the interval from `-t`, or from `-t - 1`, to `t`. So an
instruction with the same `t` that is given such a result returns it, and one that is given a larger
`s` returns no smaller result. -/
theorem vuop_clamps (b : Build) (o : Operands) (cp2 : CP2) (i : Fin 8) :
    let h := o.run b 37 cp2
    let r := o.run b 38 cp2
    let s := o.s cp2 i
    let t := o.t b cp2 i
    (h.flags rspVCC).lo i = maskOf (if s.msb ≠ t.msb then s.toInt + t.toInt ≤ 0 else t.toInt < 0) ∧
      (h.flags rspVCC).hi i = maskOf (if s.msb ≠ t.msb then t.toInt < 0 else t.toInt ≤ s.toInt) ∧
      (r.flags rspVCC).lo i = maskOf (if s.msb ≠ t.msb then s.toInt + t.toInt + 1 ≤ 0
        else t.toInt < 0) ∧
      (r.flags rspVCC).hi i = maskOf (if s.msb ≠ t.msb then t.toInt < 0 else t.toInt ≤ s.toInt) ∧
      (0 ≤ t.toInt →
        (h.regs o.vd i).toInt = max (-t.toInt) (min s.toInt t.toInt) ∧
        (r.regs o.vd i).toInt = max (-t.toInt - 1) (min s.toInt t.toInt) ∧
        ∀ (b' : Build) (o' : Operands) (cp2' : CP2), o'.t b' cp2' i = t →
          (o'.s cp2' i = h.regs o.vd i → (o'.run b' 37 cp2').regs o'.vd i = h.regs o.vd i) ∧
          (o'.s cp2' i = r.regs o.vd i → (o'.run b' 38 cp2').regs o'.vd i = r.regs o.vd i) ∧
          (s.toInt ≤ (o'.s cp2' i).toInt →
            (h.regs o.vd i).toInt ≤ ((o'.run b' 37 cp2').regs o'.vd i).toInt ∧
            (r.regs o.vd i).toInt ≤ ((o'.run b' 38 cp2').regs o'.vd i).toInt)) := by
  intro h r s t
  obtain ⟨-, hge, hle, -, -⟩ := rspVch_apply b (VU.loadVs o.vs cp2) (VU.loadVt b o.e o.vt cp2) i
  obtain ⟨hle', hge', -⟩ := rspVcr_apply b (VU.loadVs o.vs cp2) (VU.loadVt b o.e o.vt cp2) i
  refine ⟨?_, hge.trans (maskOf_congr (upper_iff s t)), hle'.trans (maskOf_congr (lower_iff s t 1)),
    hge'.trans (maskOf_congr (upper_iff s t)), fun ht => ?_⟩
  · have hlower := lower_iff s t 0
    simp only [Int.add_zero] at hlower
    exact hle.trans (maskOf_congr hlower)
  · have hh := vch_regs b o cp2 i ht
    have hr := vcr_regs b o cp2 i ht
    refine ⟨hh, hr, fun b' o' cp2' ht' => ?_⟩
    have hh' := vch_regs b' o' cp2' i (ht'.symm ▸ ht)
    have hr' := vcr_regs b' o' cp2' i (ht'.symm ▸ ht)
    rw [ht'] at hh' hr'
    refine ⟨fun hs => ?_, fun hs => ?_, fun hs => ⟨?_, ?_⟩⟩
    · apply BitVec.eq_of_toInt_eq
      rw [hh', hs, hh]
      exact clamp_clamp (by omega) _
    · apply BitVec.eq_of_toInt_eq
      rw [hr', hs, hr]
      exact clamp_clamp (by omega) _
    · rw [hh, hh']
      exact clamp_mono _ _ hs
    · rw [hr, hr']
      exact clamp_mono _ _ hs

/-- The smallest number against five, in every lane. -/
def clampState : CP2 := { CP2.zero with regs := fun r _ => if r = 1 then 0x8000#16 else 5#16 }

theorem vuop_clamps_five :
    (((⟨0, 3, 1, 2⟩ : Operands).run .sse2 37 clampState).regs 3 0).toInt =
      max (-5) (min (-32768) 5) ∧
      (((⟨0, 3, 1, 2⟩ : Operands).run .sse2 38 clampState).regs 3 0).toInt =
        max (-5 - 1) (min (-32768) 5) :=
  have h := (vuop_clamps .sse2 ⟨0, 3, 1, 2⟩ clampState 0).2.2.2.2 (by decide)
  ⟨h.1, h.2.1⟩

end ParallelRsp
