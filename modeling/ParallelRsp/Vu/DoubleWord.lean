import ParallelRsp.Simd.Limbs
import ParallelRsp.Vu.Functions

/-!
# Additions and comparisons of 32-bit numbers

A 32-bit number kept in two registers is added, subtracted or compared in two steps: the
low halves first, which leaves the carry, or the borrow and the inequality, in `VCO`, then
the high halves, which take `VCO` in and clear it.

`vuop_add_sub_pair` and `vuop_compare_pair`: on every lane the two steps compute what the
32-bit operation does. The operands of the second step are read after the first, so the
registers may be the same or not.
-/

namespace ParallelRsp

open Simd

/-! ### Saturation -/

theorem toInt_satS (x : ℤ) : (satS 16 x).toInt = max (-2 ^ 15) (min x (2 ^ 15 - 1)) :=
  BitVec.toInt_ofInt_eq_self (by omega) (by omega) (by omega)

theorem toInt_maskOf (p : Prop) [Decidable p] : (maskOf p).toInt = -(if p then 1 else 0) := by
  unfold maskOf
  split <;> rfl

/-- Of the two operands the smaller one takes the carry, so that only a sum that
saturates anyway is cut off. -/
theorem satS_add_carry (x y : BitVec 16) (p : Prop) [Decidable p] :
    satS 16 ((satS 16 ((if x.slt y then x else y).toInt - (maskOf p).toInt)).toInt +
        (if y.slt x then x else y).toInt) =
      satS 16 (x.toInt + y.toInt + if p then 1 else 0) := by
  have hx := BitVec.toInt_lt (x := x)
  have hx' := BitVec.le_toInt (x := x)
  have hy := BitVec.toInt_lt (x := y)
  have hy' := BitVec.le_toInt (x := y)
  rw [toInt_satS, toInt_maskOf]
  simp only [BitVec.slt, decide_eq_true_eq]
  unfold satS
  congr 1
  split <;> split <;> split <;> omega

/-- The subtrahend takes the borrow; where that saturates, one more is taken from the difference. -/
theorem satS_sub_borrow (x y : BitVec 16) (p : Prop) [Decidable p] :
    satS 16 ((satS 16 (x.toInt - (satS 16 (y.toInt - (maskOf p).toInt)).toInt)).toInt +
        (maskOf ((y - maskOf p).slt (satS 16 (y.toInt - (maskOf p).toInt)))).toInt) =
      satS 16 (x.toInt - y.toInt - if p then 1 else 0) := by
  have hx := BitVec.toInt_lt (x := x)
  have hx' := BitVec.le_toInt (x := x)
  have hy := BitVec.toInt_lt (x := y)
  have hy' := BitVec.le_toInt (x := y)
  have hwrap : (y - maskOf p).toInt = if y.toInt + (if p then 1 else 0) = 2 ^ 15 then -2 ^ 15
      else y.toInt + if p then 1 else 0 := by
    have hnat := toNat_sub_maskOf y p
    have h1 := toInt_eq_toNat16 y
    have h2 := toInt_eq_toNat16 (y - maskOf p)
    have hz := BitVec.toInt_lt (x := y - maskOf p)
    have hz' := BitVec.le_toInt (x := y - maskOf p)
    by_cases hp : p
    · simp only [hp, if_true] at *
      split at h1 <;> split at h2 <;> split <;> omega
    · simp only [hp, if_false] at *
      split at h1 <;> split at h2 <;> split <;> omega
  rw [toInt_maskOf]
  simp only [BitVec.slt, decide_eq_true_eq, toInt_satS, toInt_maskOf, hwrap]
  unfold satS
  congr 1
  split <;> split <;> split <;> omega

/-! ### The kernels -/

section Kernels

variable (vs vt : M128i) (i : Fin 8)

theorem rspVaddc_apply :
    (rspVaddc vs vt mmSetzeroSi128).vd i = vs i + vt i ∧
      (rspVaddc vs vt mmSetzeroSi128).sn i = maskOf (carries (vs i) (vt i)) := by
  refine ⟨rfl, ?_⟩
  have hsat : satU 16 ((vs i).toNat + (vt i).toNat) = vs i + vt i ↔
      vs i + vt i = satU 16 ((vs i).toNat + (vt i).toNat) :=
    eq_comm
  refine Eq.trans ?_ (carryMask_eq (vs i) (vt i))
  exact maskOf_congr (by rw [← maskOf_congr hsat]; rfl)

theorem rspVadd_apply {carry : M128i} {p : Prop} [Decidable p] (hcarry : carry i = maskOf p) :
    (rspVadd vs vt carry).vd i = satS 16 ((vs i).toInt + (vt i).toInt + if p then 1 else 0) ∧
      (rspVadd vs vt carry).accLo i = vs i + vt i - maskOf p := by
  rw [← satS_add_carry, ← hcarry]
  exact ⟨rfl, rfl⟩

theorem rspVsubc_apply :
    (rspVsubc vs vt mmSetzeroSi128).vd i = vs i - vt i ∧
      (rspVsubc vs vt mmSetzeroSi128).eq i = maskOf (vs i ≠ vt i) ∧
      (rspVsubc vs vt mmSetzeroSi128).sn i = maskOf ((vs i).toNat < (vt i).toNat) := by
  refine ⟨rfl, maskOf_congr (maskOf_eq_zero _), ?_⟩
  have hsn : (rspVsubc vs vt mmSetzeroSi128).sn i =
      ~~~maskOf (vs i = vt i) &&& maskOf (satU 16 ((vs i).toNat - (vt i).toNat) = 0#16) := rfl
  rw [hsn, maskOf_andnot]
  apply maskOf_congr
  rw [← BitVec.toNat_inj, ← BitVec.toNat_inj, satU, BitVec.toNat_ofNat, BitVec.toNat_ofNat]
  have := (vs i).isLt
  omega

theorem rspVsub_apply {carry : M128i} {p : Prop} [Decidable p] (hcarry : carry i = maskOf p) :
    (rspVsub vs vt carry).vd i = satS 16 ((vs i).toInt - (vt i).toInt - if p then 1 else 0) ∧
      (rspVsub vs vt carry).accLo i = vs i - (vt i - maskOf p) := by
  rw [← satS_sub_borrow, ← hcarry]
  exact ⟨rfl, rfl⟩

end Kernels

/-! ### The low and the high word -/

/-- A wrapping sum of high halves, with the carry of the low ones. -/
theorem append_add (sh sl th tl : BitVec 16) :
    (sh + th - maskOf (carries sl tl)) ++ (sl + tl) = (sh ++ sl : BitVec 32) + (th ++ tl) := by
  apply BitVec.eq_of_toNat_eq
  have hlo := toNat_add_carries sl tl
  have hhi := toNat_sub_maskOf (sh + th) (carries sl tl)
  rw [BitVec.toNat_add] at hhi
  rw [BitVec.toNat_add, toNat_append16, toNat_append16, toNat_append16]
  have := (sl + tl).isLt
  omega

/-- A wrapping difference of high halves, with the borrow of the low ones. -/
theorem append_sub (sh sl th tl : BitVec 16) :
    (sh - (th - maskOf (sl.toNat < tl.toNat))) ++ (sl - tl) =
      (sh ++ sl : BitVec 32) - (th ++ tl) := by
  apply BitVec.eq_of_toNat_eq
  have hborrow := toNat_sub_maskOf th (sl.toNat < tl.toNat)
  have hhi := BitVec.toNat_sub sh (th - maskOf (sl.toNat < tl.toNat))
  have hlo := BitVec.toNat_sub sl tl
  rw [BitVec.toNat_sub, toNat_append16, toNat_append16, toNat_append16, hhi, hlo]
  have := sl.isLt
  have := tl.isLt
  have := sh.isLt
  have := th.isLt
  split at hborrow <;> omega

/-! ### Instructions in pairs -/

/-- The operands of a vector instruction. -/
structure Operands where
  /-- The element selector. -/
  e : Fin 16
  /-- The destination. -/
  vd : Fin 32
  /-- The first source. -/
  vs : Fin 32
  /-- The second source. -/
  vt : Fin 32

/-- The instruction of entry `op` of the dispatch table with these operands. -/
def Operands.run (o : Operands) (b : Build) (op : Fin 64) (cp2 : CP2) : CP2 :=
  VU.vuop b o.e o.vd o.vs o.vt cp2 op

/-- The lane of the first source. -/
def Operands.s (o : Operands) (cp2 : CP2) (i : Fin 8) : BitVec 16 := cp2.regs o.vs i

/-- The lane of the second source. -/
def Operands.t (o : Operands) (b : Build) (cp2 : CP2) (i : Fin 8) :
    BitVec 16 := VU.loadVt b o.e o.vt cp2 i

/-- A flag register with no lane set. -/
def FlagVector.zero : FlagVector := ⟨mmSetzeroSi128, mmSetzeroSi128⟩

theorem storeResult_regs (cp2 : CP2) (vd : Fin 32) (r : M128i) :
    (VU.storeResult cp2 vd r).regs vd = r :=
  Function.update_self _ _ _

/-- `VADDC` then `VADD`, and `VSUBC` then `VSUB`, are addition and subtraction of 32-bit numbers:
the low words of the accumulator hold the result modulo `2 ^ 32`, the destination of the second step
the high half with the carry or the borrow, saturated. -/
theorem vuop_add_sub_pair (b : Build) (o o' : Operands) (cp2 : CP2) (i : Fin 8) :
    (let c := o.run b 20 cp2
      let c' := o'.run b 16 c
      (c'.acc.lo i ++ c.acc.lo i : BitVec 32) = (o'.s c i ++ o.s cp2 i) +
        (o'.t b c i ++ o.t b cp2 i) ∧
        c'.regs o'.vd i = satS 16 ((o'.s c i).toInt + (o'.t b c i).toInt +
          if 2 ^ 16 ≤ (o.s cp2 i).toNat + (o.t b cp2 i).toNat then 1 else 0) ∧
        c'.flags rspVCO = FlagVector.zero) ∧
    (let c := o.run b 21 cp2
      let c' := o'.run b 17 c
      (c'.acc.lo i ++ c.acc.lo i : BitVec 32) =
        (o'.s c i ++ o.s cp2 i) - (o'.t b c i ++ o.t b cp2 i) ∧
        c'.regs o'.vd i = satS 16 ((o'.s c i).toInt - (o'.t b c i).toInt -
          if (o.s cp2 i).toNat < (o.t b cp2 i).toNat then 1 else 0) ∧
        c'.flags rspVCO = FlagVector.zero) := by
  constructor
  · intro c c'
    obtain ⟨hlow, hsn⟩ := rspVaddc_apply (VU.loadVs o.vs cp2) (VU.loadVt b o.e o.vt cp2) i
    have hcarry : (c.flags rspVCO).lo i = maskOf (carries (o.s cp2 i) (o.t b cp2 i)) := hsn
    obtain ⟨hvd, hacc⟩ := rspVadd_apply (VU.loadVs o'.vs c) (VU.loadVt b o'.e o'.vt c) i hcarry
    have haccLo : c'.acc.lo i = o'.s c i +
        o'.t b c i - maskOf (carries (o.s cp2 i) (o.t b cp2 i)) := hacc
    have hlow : c.acc.lo i = o.s cp2 i + o.t b cp2 i := hlow
    refine ⟨?_, ?_, rfl⟩
    · rw [haccLo, hlow]
      exact append_add _ _ _ _
    · exact (congrFun (storeResult_regs _ _ _) i).trans hvd
  · intro c c'
    obtain ⟨hlow, -, hsn⟩ := rspVsubc_apply (VU.loadVs o.vs cp2) (VU.loadVt b o.e o.vt cp2) i
    have hborrow : (c.flags rspVCO).lo i = maskOf ((o.s cp2 i).toNat < (o.t b cp2 i).toNat) := hsn
    obtain ⟨hvd, hacc⟩ := rspVsub_apply (VU.loadVs o'.vs c) (VU.loadVt b o'.e o'.vt c) i hborrow
    have haccLo : c'.acc.lo i =
        o'.s c i - (o'.t b c i - maskOf ((o.s cp2 i).toNat < (o.t b cp2 i).toNat)) := hacc
    have hlow : c.acc.lo i = o.s cp2 i - o.t b cp2 i := hlow
    refine ⟨?_, ?_, rfl⟩
    · rw [haccLo, hlow]
      exact append_sub _ _ _ _
    · exact (congrFun (storeResult_regs _ _ _) i).trans hvd

/-! ### Comparisons -/

/-- Either build of the selection chooses by the mask. -/
theorem selectLe_apply (b : Build) (vs vt : M128i) {le : M128i} {i : Fin 8} {p : Prop} [Decidable p]
    (h : le i = maskOf p) : selectLe b vs vt le i = if p then vs i else vt i := by
  have hmask : IsMask (le i) := h ▸ isMask_maskOf p
  rw [selectLe]
  split
  · rw [mmBlendvEpi8_apply vt vs le i hmask, h]
    simp only [maskOf_eq_ones]
  · have hmux := mux_apply (x := vs i) (y := vt i) hmask
    rw [h] at hmux
    simp only [maskOf_eq_ones] at hmux
    simp only [mmOrSi128, mmAndSi128, mmAndnotSi128, h, hmux]

/-- The comparisons. -/
inductive CmpOp where
  | vlt
  | veq
  | vne
  | vge
  deriving DecidableEq

/-- The entry of the dispatch table. -/
def CmpOp.code : CmpOp → Fin 64
  | .vlt => 32
  | .veq => 33
  | .vne => 34
  | .vge => 35

/-- What a comparison says of two signed numbers. -/
def CmpOp.Holds (op : CmpOp) (s t : BitVec 32) : Prop :=
  match op with
  | .vlt => s.toInt < t.toInt
  | .veq => s = t
  | .vne => s ≠ t
  | .vge => t.toInt ≤ s.toInt

instance (op : CmpOp) (s t : BitVec 32) : Decidable (op.Holds s t) := by
  cases op
  · exact inferInstanceAs (Decidable (_ < _))
  · exact inferInstanceAs (Decidable (_ = _))
  · exact inferInstanceAs (Decidable (_ ≠ _))
  · exact inferInstanceAs (Decidable (_ ≤ _))

/-- The kernel of a comparison, with the flags it takes in. -/
def CmpOp.kernel (op : CmpOp) (b : Build) (vs vt eq sign : M128i) : CmpOut :=
  match op with
  | .vlt => rspVlt b vs vt eq sign
  | .veq => rspVeq b vs vt eq
  | .vne => rspVne b vs vt mmSetzeroSi128 eq
  | .vge => rspVge b vs vt eq sign

theorem CmpOp.kernel_vd (op : CmpOp) (b : Build) (vs vt eq sign : M128i) :
    (op.kernel b vs vt eq sign).vd = selectLe b vs vt (op.kernel b vs vt eq sign).le := by
  cases op <;> rfl

theorem append16_inj_iff (sh sl th tl : BitVec 16) :
    (sh ++ sl : BitVec 32) = th ++ tl ↔ sh = th ∧ sl = tl := by
  rw [← BitVec.toNat_inj, toNat_append16, toNat_append16, ← BitVec.toNat_inj, ← BitVec.toNat_inj]
  have := sl.isLt
  have := tl.isLt
  omega

/-- The high halves decide, unless they are equal: then the borrow of the low halves does. -/
theorem lt_append16_iff (sh sl th tl : BitVec 16) :
    (sh ++ sl : BitVec 32).toInt < (th ++ tl : BitVec 32).toInt ↔
      sh.toInt < th.toInt ∨ sh = th ∧ sl.toNat < tl.toNat := by
  rw [toInt_append16 _ _ (by decide), toInt_append16 _ _ (by decide), ← BitVec.toInt_inj]
  have := sl.isLt
  have := tl.isLt
  omega

/-- With the inequality and the borrow of the low halves as flags, the mask is
that of the 32-bit comparison. -/
theorem CmpOp.kernel_le (op : CmpOp) (b : Build) (vs vt : M128i)
    {eq sign : M128i} {i : Fin 8} {sl tl : BitVec 16}
    (heq : eq i = maskOf (sl ≠ tl)) (hsign : sign i = maskOf (sl.toNat < tl.toNat)) :
    (op.kernel b vs vt eq sign).le i = maskOf (op.Holds (vs i ++ sl) (vt i ++ tl)) := by
  have hslt (x y : BitVec 16) : maskOf (x.slt y) = maskOf (x.toInt < y.toInt) := by
    apply maskOf_congr
    rw [BitVec.slt, decide_eq_true_eq]
  have hne : sl.toNat < tl.toNat → sl ≠ tl := by
    rintro h rfl
    exact absurd h (lt_irrefl _)
  cases op with
  | vlt =>
    have hle : (rspVlt b vs vt eq sign).le i =
        maskOf ((vs i).slt (vt i)) ||| (sign i &&& (eq i &&& maskOf (vs i = vt i))) := rfl
    refine hle.trans ?_
    rw [heq, hsign, hslt, maskOf_and, maskOf_and, maskOf_or]
    apply maskOf_congr
    rw [CmpOp.Holds, lt_append16_iff]
    constructor
    · rintro (hlt | ⟨hlt, -, hsame⟩)
      · exact .inl hlt
      · exact .inr ⟨hsame, hlt⟩
    · rintro (hlt | ⟨hsame, hlt⟩)
      · exact .inl hlt
      · exact .inr ⟨hlt, hne hlt, hsame⟩
  | veq =>
    have hle : (rspVeq b vs vt eq).le i = ~~~eq i &&& maskOf (vs i = vt i) := rfl
    refine hle.trans ?_
    rw [heq, maskOf_andnot]
    apply maskOf_congr
    rw [CmpOp.Holds, append16_inj_iff, ne_eq, not_not, and_comm]
  | vne =>
    have hle : (rspVne b vs vt mmSetzeroSi128 eq).le i =
        (eq i &&& maskOf (vs i = vt i)) ||| maskOf (maskOf (vs i = vt i) = 0#16) := rfl
    refine hle.trans ?_
    rw [heq, maskOf_and, maskOf_congr (maskOf_eq_zero _), maskOf_or]
    apply maskOf_congr
    rw [CmpOp.Holds, ne_eq, ne_eq, append16_inj_iff]
    constructor
    · rintro (⟨hlow, -⟩ | hhigh) ⟨hsame, hsame'⟩
      · exact hlow hsame'
      · exact hhigh hsame
    · intro h
      by_cases hsame : vs i = vt i
      · exact .inl ⟨fun hsame' => h ⟨hsame, hsame'⟩, hsame⟩
      · exact .inr hsame
  | vge =>
    have hle : (rspVge b vs vt eq sign).le i =
        maskOf ((vt i).slt (vs i)) ||| (~~~(eq i &&& sign i) &&& maskOf (vs i = vt i)) := rfl
    refine hle.trans ?_
    rw [heq, hsign, hslt, maskOf_and, maskOf_andnot, maskOf_or]
    apply maskOf_congr
    rw [CmpOp.Holds, ← not_lt, lt_append16_iff]
    constructor
    · rintro (hgt | ⟨hge, hsame⟩) (hlt | ⟨hsame', hlt⟩)
      · exact lt_asymm hgt hlt
      · rw [hsame'] at hgt
        exact lt_irrefl _ hgt
      · rw [hsame] at hlt
        exact lt_irrefl _ hlt
      · exact hge ⟨hne hlt, hlt⟩
    · intro h
      rcases lt_trichotomy (vs i).toInt (vt i).toInt with hlt | hsame | hgt
      · exact absurd (.inl hlt) h
      · have hsame := BitVec.toInt_inj.1 hsame
        exact .inr ⟨fun hlt => h (.inr ⟨hsame, hlt.2⟩), hsame⟩
      · exact .inl hgt

/-- `VSUBC` on the low halves, then a comparison on the high halves, compares 32-bit numbers. -/
theorem vuop_compare_pair (op : CmpOp) (b : Build) (o o' : Operands) (cp2 : CP2) (i : Fin 8) :
    let c := o.run b 21 cp2
    let c' := o'.run b op.code c
    let holds := op.Holds (o'.s c i ++ o.s cp2 i) (o'.t b c i ++ o.t b cp2 i)
    (c'.flags rspVCC).lo i = maskOf holds ∧ (c'.flags rspVCC).hi i = 0#16 ∧
      c'.flags rspVCO = FlagVector.zero ∧
      c'.regs o'.vd i = if holds then o'.s c i else o'.t b c i := by
  intro c c' holds
  obtain ⟨-, heq, hsn⟩ := rspVsubc_apply (VU.loadVs o.vs cp2) (VU.loadVt b o.e o.vt cp2) i
  have heq : (c.flags rspVCO).hi i = maskOf (o.s cp2 i ≠ o.t b cp2 i) := heq
  have hsn : (c.flags rspVCO).lo i = maskOf ((o.s cp2 i).toNat < (o.t b cp2 i).toNat) := hsn
  have hrun : c' = VU.storeCmp o'.vd c (op.kernel b (VU.loadVs o'.vs c) (VU.loadVt b o'.e o'.vt c)
      (c.flags rspVCO).hi (c.flags rspVCO).lo) := by
    cases op <;> rfl
  have hle := op.kernel_le b (VU.loadVs o'.vs c) (VU.loadVt b o'.e o'.vt c) heq hsn
  rw [hrun]
  refine ⟨hle, rfl, rfl, ?_⟩
  refine (congrFun (storeResult_regs _ _ _) i).trans ?_
  rw [op.kernel_vd]
  exact selectLe_apply b _ _ hle

end ParallelRsp
