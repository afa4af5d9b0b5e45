import ParallelRsp.Vu.Divide

/-!
# What the reciprocals compute

The divisor is normalised to ten leading bits, the first of which is set; the other nine
select a mantissa of the table, and the exponent shifts it back. The mantissas fall along
each part of the table, from below `2` to above `1`, and the exponent halves the result from
one octave to the next: so the results fall, too.

## What is proved

`reciprocal_bounds`: the reciprocal and the reciprocal square root are antitone, `d` times the
reciprocal of `d` is near `2³¹`, a negative number has the complement of the result of its
negation, and each function reads its own half of the table.
-/

namespace ParallelRsp

/-! ### The steps of the computation -/

/-- `data` before the table is looked up: the magnitude of the input. -/
def vrcpVrsqData (input : Word) : Word :=
  let inputMask := input.sshiftRight 31
  let data := input ^^^ inputMask
  if (-32768 : ℤ) < input.toInt then data - inputMask else data

/-- `idx`: the entry of the table that is read. -/
def vrcpVrsqIdx (vrsq : Bool) (data : Word) : ℕ :=
  let shift := builtinClz data
  let idx := (((data.setWidth 64 <<< shift) &&& 0x7FC00000#64) >>> 22).setWidth 32
  if vrsq then (((idx ||| 0x200#32) &&& 0x3FE#32) |||
    BitVec.ofNat 32 (shift % 2)).toNat else idx.toNat

/-- How far the mantissa is shifted to the right. -/
def vrcpVrsqShift (vrsq : Bool) (data : Word) : ℕ :=
  let shift := builtinClz data
  if vrsq then (31 - shift) >>> 1 else 31 - shift

/-- The result of an entry of the table. -/
def vrcpVrsqLookup (entry : Word) (shift : ℕ) : Word :=
  ((0x10000#32 ||| entry) <<< 14).sshiftRight shift

/-- Whether the table is looked up. -/
def LooksUp (input : Word) : Prop := vrcpVrsqData input ≠ 0 ∧ input.toInt ≠ -32768

theorem vrcpVrsqResult_zero (vrsq : Bool) {input : Word} (h : vrcpVrsqData input = 0) :
    vrcpVrsqResult vrsq input = 0x7fffFFFF#32 := if_pos h

theorem LooksUp.result {input : Word} (h : LooksUp input) (vrsq : Bool) :
    vrcpVrsqResult vrsq input =
      vrcpVrsqLookup (rspReciprocalRom (vrcpVrsqIdx vrsq (vrcpVrsqData input)))
        (vrcpVrsqShift vrsq (vrcpVrsqData input)) ^^^
        input.sshiftRight 31 := by
  cases vrsq <;> exact (if_neg h.1).trans (if_neg h.2)

/-! ### The table -/

/-- An entry of the table with the leading bit that is not stored. -/
def mantissa (idx : ℕ) : ℕ := 0x10000 + rspReciprocalRomEntries.getD idx 0

/-- A part of the table, from entry `start` on, falls from each entry to the one `s` entries behind
it. -/
def Falls (start n s : ℕ) : Prop :=
  ∀ p ∈ ((rspReciprocalRomEntries.drop start).take n).zip
    ((rspReciprocalRomEntries.drop (start + s)).take (n - s)), p.2 ≤ p.1

instance (start n s : ℕ) : Decidable (Falls start n s) :=
  inferInstanceAs (Decidable (∀ p ∈ _, _))

/-- What all the bounds rest on: the first half of the table falls, and so do the even entries of
the second half, and the odd ones. -/
theorem rspReciprocalRomEntries_falls : rspReciprocalRomEntries.length = 1024 ∧
    (∀ x ∈ rspReciprocalRomEntries, x < 0x10000) ∧ Falls 0 512 1 ∧ Falls 512 512 2 := by
  decide +kernel

theorem rspReciprocalRomEntries_length : rspReciprocalRomEntries.length = 1024 :=
  rspReciprocalRomEntries_falls.1

theorem entry_lt (idx : ℕ) : rspReciprocalRomEntries.getD idx 0 < 0x10000 := by
  have hall := rspReciprocalRomEntries_falls.2.1
  by_cases h : idx < rspReciprocalRomEntries.length
  · rw [List.getD_eq_getElem _ _ h]
    exact hall _ (List.getElem_mem h)
  · rw [List.getD_eq_default _ _ (by omega)]
    decide

theorem mantissa_ge (idx : ℕ) : 2 ^ 16 ≤ mantissa idx := Nat.le_add_right ..

theorem mantissa_lt (idx : ℕ) : mantissa idx < 2 ^ 17 := by
  have := entry_lt idx
  simp only [mantissa]
  omega

theorem mantissa_step {start n s : ℕ} (h : Falls start n s)
    (hn : start + n ≤ rspReciprocalRomEntries.length) {i : ℕ} (hi : i + s < n) :
    mantissa (start + i + s) ≤ mantissa (start + i) := by
  have hmem := h (rspReciprocalRomEntries.getD (start + i) 0,
    rspReciprocalRomEntries.getD (start + i + s) 0)
  refine Nat.add_le_add_left (hmem ?_) _
  refine List.mem_iff_getElem.mpr ⟨i, ?_, ?_⟩
  · simp only [List.length_zip, List.length_take, List.length_drop]
    omega
  · simp only [List.getElem_zip, List.getElem_take, List.getElem_drop]
    rw [List.getD_eq_getElem _ _ (by omega), List.getD_eq_getElem _ _ (by omega)]
    simp only [Nat.add_right_comm]

/-- The first half of the table falls. -/
theorem mantissa_rcp {i j : ℕ} (hij : i ≤ j) (hj : j < 512) : mantissa j ≤ mantissa i := by
  have hstep : ∀ i, i + 1 < 512 → mantissa (0 + i + 1) ≤ mantissa (0 + i) := fun i hi =>
    mantissa_step rspReciprocalRomEntries_falls.2.2.1
      (by rw [rspReciprocalRomEntries_length]; decide) hi
  induction j, hij using Nat.le_induction with
  | base => exact le_rfl
  | succ j _ ih =>
    have := hstep j hj
    rw [Nat.zero_add] at this
    exact this.trans (ih (by omega))

/-- The even entries of the second half fall, and so do the odd ones. -/
theorem mantissa_rsq {p i j : ℕ} (hp : p < 2) (hij : i ≤ j) (hj : j < 256) :
    mantissa (512 + (2 * j + p)) ≤ mantissa (512 + (2 * i + p)) := by
  have hstep : ∀ i, i + 2 < 512 → mantissa (512 + i + 2) ≤ mantissa (512 + i) := fun i hi =>
    mantissa_step rspReciprocalRomEntries_falls.2.2.2 (by rw [rspReciprocalRomEntries_length]) hi
  induction j, hij using Nat.le_induction with
  | base => exact le_rfl
  | succ j _ ih =>
    have := hstep (2 * j + p) (by omega)
    rw [show 512 + (2 * j + p) + 2 = 512 + (2 * (j + 1) + p) by ring] at this
    exact this.trans (ih (by omega))

/-- Every odd entry of the second half is above every even one. -/
theorem mantissa_even_le_odd {i j : ℕ} (hi : i < 256) (hj : j < 256) :
    mantissa (512 + (2 * j + 0)) ≤ mantissa (512 + (2 * i + 1)) := by
  have hends : mantissa (512 + (2 * 0 + 0)) ≤ mantissa (512 + (2 * 255 + 1)) := by decide +kernel
  have hfirst := mantissa_rsq Nat.two_pos (Nat.zero_le j) hj
  have hlast := mantissa_rsq Nat.one_lt_two (Nat.le_of_lt_succ hi) (Nat.lt_succ_self 255)
  exact hfirst.trans (hends.trans hlast)

/-- The product of a mantissa and the numbers that it is looked up for. -/
theorem mantissa_accurate {i : ℕ} (hi : i < 512) :
    2 ^ 26 - 2 ^ 18 ≤ (512 + i) * mantissa i ∧ (513 + i) * mantissa i ≤ 2 ^ 26 + 2 ^ 18 := by
  have hall : ∀ p ∈ (rspReciprocalRomEntries.take 512).zipIdx,
      2 ^ 26 - 2 ^ 18 ≤ (512 + p.2) * (0x10000 + p.1) ∧
        (513 + p.2) * (0x10000 + p.1) ≤ 2 ^ 26 + 2 ^ 18 := by
    decide +kernel
  have hlen := rspReciprocalRomEntries_length
  refine hall (rspReciprocalRomEntries.getD i 0, i) (List.mem_iff_getElem.mpr ⟨i, ?_, ?_⟩)
  · rw [List.length_zipIdx, List.length_take]
    omega
  · rw [List.getElem_zipIdx, List.getElem_take, List.getD_eq_getElem _ _ (by omega), Nat.zero_add]

/-! ### The divisor, normalised -/

/-- The number of the octave: `data` is from `2 ^ octave` to `2 ^ (octave + 1)`. -/
def octave (data : Word) : ℕ := data.toNat.log2

/-- The nine bits below the leading one. -/
def leadingBits (data : Word) : ℕ := data.toNat * 2 ^ (31 - octave data) / 2 ^ 22 - 512

section Normalised

variable {data : Word} (hpos : data ≠ 0) (hlt : data.toNat < 2 ^ 31)
include hpos hlt

theorem octave_le : octave data ≤ 30 :=
  Nat.le_of_lt_succ ((Nat.log2_lt (fun h => hpos (BitVec.eq_of_toNat_eq h))).mpr hlt)

theorem normalised_bounds :
    2 ^ 31 ≤ data.toNat * 2 ^ (31 - octave data) ∧
      data.toNat * 2 ^ (31 - octave data) < 2 ^ 32 := by
  have hle := octave_le hpos hlt
  have hne : data.toNat ≠ 0 := fun h => hpos (BitVec.eq_of_toNat_eq h)
  constructor
  · calc 2 ^ 31 = 2 ^ octave data * 2 ^ (31 - octave data) := by rw [← Nat.pow_add]; congr 1; omega
      _ ≤ data.toNat * 2 ^ (31 - octave data) := Nat.mul_le_mul_right _ (Nat.log2_self_le hne)
  · calc data.toNat * 2 ^ (31 - octave data)
        < 2 ^ (octave data + 1) * 2 ^ (31 - octave data) :=
          Nat.mul_lt_mul_of_pos_right Nat.lt_log2_self (Nat.two_pow_pos _)
      _ = 2 ^ 32 := by rw [← Nat.pow_add]; congr 1; omega

theorem leadingBits_spec :
    (512 + leadingBits data) * 2 ^ 22 ≤ data.toNat * 2 ^ (31 - octave data) ∧
      data.toNat * 2 ^ (31 - octave data) < (513 + leadingBits data) * 2 ^ 22 ∧
        leadingBits data < 512 := by
  obtain ⟨hlo, hhi⟩ := normalised_bounds hpos hlt
  unfold leadingBits
  omega

theorem sub_builtinClz : 31 - builtinClz data = octave data := by
  have := octave_le hpos hlt
  simp only [builtinClz, octave] at *
  omega

theorem vrcpVrsqIdx_bits :
    ((((data.setWidth 64 <<< builtinClz data) &&& 0x7FC00000#64) >>> 22).setWidth 32).toNat =
      leadingBits data := by
  obtain ⟨hlo, hhi⟩ := normalised_bounds hpos hlt
  have hshift : (data.setWidth 64 <<< builtinClz data).toNat =
      data.toNat * 2 ^ (31 - octave data) := by
    rw [BitVec.toNat_shiftLeft, BitVec.toNat_setWidth, Nat.mod_eq_of_lt (lt_trans hlt (by decide)),
      Nat.shiftLeft_eq]
    exact Nat.mod_eq_of_lt (lt_trans hhi (by decide))
  have hmask : (0x7FC00000#64).toNat >>> 22 = 2 ^ 9 - 1 := by decide
  rw [BitVec.toNat_setWidth, BitVec.toNat_ushiftRight, BitVec.toNat_and, Nat.shiftRight_and_distrib,
    hmask, Nat.and_two_pow_sub_one_eq_mod, hshift, Nat.shiftRight_eq_div_pow]
  unfold leadingBits
  omega

theorem vrcpVrsqIdx_rcp : vrcpVrsqIdx false data = leadingBits data := vrcpVrsqIdx_bits hpos hlt

theorem vrcpVrsqIdx_rsq :
    vrcpVrsqIdx true data = 512 + (2 * (leadingBits data / 2) + (31 - octave data) % 2) := by
  have htable : ∀ i : Fin 512, ∀ p : Fin 2,
      (((BitVec.ofNat 32 i.val ||| 0x200#32) &&& 0x3FE#32) ||| BitVec.ofNat 32 p.val).toNat =
        512 + (2 * (i.val / 2) + p.val) := by decide +kernel
  have hbits := vrcpVrsqIdx_bits hpos hlt
  have hclz : builtinClz data = 31 - octave data := rfl
  have hword : (((data.setWidth 64 <<< builtinClz data) &&& 0x7FC00000#64) >>> 22).setWidth 32 =
      BitVec.ofNat 32 (leadingBits data) := by
    rw [← hbits, BitVec.ofNat_toNat, BitVec.setWidth_eq]
  rw [← htable ⟨leadingBits data, (leadingBits_spec hpos hlt).2.2⟩
    ⟨(31 - octave data) % 2, Nat.mod_lt _ Nat.two_pos⟩]
  simp only [vrcpVrsqIdx, if_true, hword]
  rw [hclz]

theorem vrcpVrsqShift_eq (vrsq : Bool) :
    vrcpVrsqShift vrsq data = if vrsq then octave data / 2 else octave data := by
  simp only [vrcpVrsqShift, sub_builtinClz hpos hlt, Nat.shiftRight_eq_div_pow, pow_one]

/-- Each function reads its own half of the table. -/
theorem vrcpVrsqIdx_range (vrsq : Bool) :
    if vrsq then 512 ≤ vrcpVrsqIdx vrsq data ∧ vrcpVrsqIdx vrsq data < 1024
      else vrcpVrsqIdx vrsq data < 512 := by
  have hbits := (leadingBits_spec hpos hlt).2.2
  cases vrsq with
  | false =>
    rw [vrcpVrsqIdx_rcp hpos hlt]
    exact hbits
  | true =>
    rw [vrcpVrsqIdx_rsq hpos hlt]
    simp only [if_true]
    omega

end Normalised

/-! ### The result -/

/-- A mantissa, shifted. -/
def scaled (mantissa shift : ℕ) : ℕ := mantissa * 2 ^ 14 / 2 ^ shift

theorem vrcpVrsqLookup_toNat (idx shift : ℕ) :
    (vrcpVrsqLookup (rspReciprocalRom idx) shift).toNat = scaled (mantissa idx) shift := by
  have hentry := entry_lt idx
  have hlt := mantissa_lt idx
  have hor : (0x10000#32 ||| rspReciprocalRom idx).toNat = mantissa idx := by
    have hrom : (rspReciprocalRom idx).toNat = rspReciprocalRomEntries.getD idx 0 :=
      Nat.mod_eq_of_lt (by omega)
    rw [BitVec.toNat_or, hrom]
    exact (Nat.two_pow_add_eq_or_of_lt (i := 16) hentry 1).symm
  have hshift : ((0x10000#32 ||| rspReciprocalRom idx) <<< 14).toNat = mantissa idx * 2 ^ 14 := by
    rw [BitVec.toNat_shiftLeft, hor, Nat.shiftLeft_eq]
    exact Nat.mod_eq_of_lt (by omega)
  have hmsb : ((0x10000#32 ||| rspReciprocalRom idx) <<< 14).msb = false := by
    rw [BitVec.msb_eq_false_iff_two_mul_lt, hshift]
    omega
  rw [vrcpVrsqLookup, BitVec.sshiftRight_eq_of_msb_false hmsb,
    BitVec.toNat_ushiftRight, hshift, Nat.shiftRight_eq_div_pow]
  rfl

theorem scaled_lt (idx shift : ℕ) : scaled (mantissa idx) shift < 2 ^ 31 := by
  have hlt := mantissa_lt idx
  exact lt_of_le_of_lt (Nat.div_le_self _ _) (by omega)

/-- A smaller mantissa, shifted as far, gives no more. -/
theorem scaled_le_scaled {m n : ℕ} (h : m ≤ n) (shift : ℕ) : scaled m shift ≤ scaled n shift :=
  Nat.div_le_div_right (Nat.mul_le_mul_right _ h)

/-- Any mantissa, shifted further, gives no more: all of them are within a factor of two. -/
theorem scaled_le_of_lt (i j : ℕ) {s t : ℕ} (h : s < t) :
    scaled (mantissa j) t ≤ scaled (mantissa i) s := by
  have hj := mantissa_lt j
  have hi := mantissa_ge i
  calc mantissa j * 2 ^ 14 / 2 ^ t
      ≤ mantissa j * 2 ^ 14 / 2 ^ (s + 1) :=
        Nat.div_le_div_left (Nat.pow_le_pow_right Nat.two_pos h) (Nat.two_pow_pos _)
    _ = mantissa j * 2 ^ 14 / 2 / 2 ^ s := by rw [Nat.div_div_eq_div_mul, ← pow_succ']
    _ ≤ mantissa i * 2 ^ 14 / 2 ^ s := Nat.div_le_div_right (by omega)

/-! ### The magnitude of the input -/

theorem sshiftRight_signBit (x : Word) :
    x.sshiftRight 31 = if x.toInt < 0 then BitVec.allOnes 32 else 0#32 := by
  have hneg := BitVec.msb_eq_toInt (x := x)
  have hlt := x.isLt
  by_cases h : x.toInt < 0
  · have hmsb : x.msb = true := by rw [hneg]; exact decide_eq_true h
    have hge := BitVec.msb_eq_true_iff_two_mul_ge.mp hmsb
    have hzero : (~~~x) >>> 31 = 0#32 := by
      apply BitVec.eq_of_toNat_eq
      rw [BitVec.toNat_ushiftRight, BitVec.toNat_not, Nat.shiftRight_eq_div_pow, BitVec.toNat_ofNat]
      omega
    rw [if_pos h, BitVec.sshiftRight_eq_of_msb_true hmsb, hzero]
    rfl
  · have hmsb : x.msb = false := by rw [hneg]; exact decide_eq_false h
    have hge := BitVec.msb_eq_false_iff_two_mul_lt.mp hmsb
    rw [if_neg h, BitVec.sshiftRight_eq_of_msb_false hmsb]
    apply BitVec.eq_of_toNat_eq
    rw [BitVec.toNat_ushiftRight, Nat.shiftRight_eq_div_pow, BitVec.toNat_ofNat]
    omega

theorem vrcpVrsqData_nonneg {x : Word} (h : 0 ≤ x.toInt) : vrcpVrsqData x = x := by
  simp only [vrcpVrsqData, sshiftRight_signBit, if_neg (not_lt.mpr h),
    BitVec.xor_zero, BitVec.sub_zero, ite_self]

/-- A small negative number is negated. -/
theorem vrcpVrsqData_small {x : Word} (h : x.toInt < 0) (hx : -32768 < x.toInt) :
    vrcpVrsqData x = -x := by
  simp only [vrcpVrsqData, sshiftRight_signBit, if_pos h, if_pos hx, BitVec.xor_allOnes]
  rw [BitVec.neg_eq_not_add, BitVec.sub_eq_add_neg]
  rfl

/-- A large negative number is complemented. -/
theorem vrcpVrsqData_large {x : Word} (hx : x.toInt ≤ -32768) : vrcpVrsqData x = ~~~x := by
  simp only [vrcpVrsqData, sshiftRight_signBit, if_pos (show x.toInt < 0 by omega),
    if_neg (not_lt.mpr hx), BitVec.xor_allOnes]

theorem toNat_of_nonneg {x : Word} (h : 0 ≤ x.toInt) : x.toNat < 2 ^ 31 ∧ x.toInt = x.toNat := by
  have hlt := x.isLt
  rw [BitVec.toInt_eq_toNat_cond] at h ⊢
  split at h <;> omega

/-- The magnitude is a number of 31 bits. -/
theorem vrcpVrsqData_lt (x : Word) : (vrcpVrsqData x).toNat < 2 ^ 31 := by
  have hlt := x.isLt
  rcases lt_or_ge x.toInt 0 with hneg | hnonneg
  · have hx := hneg
    rw [BitVec.toInt_eq_toNat_cond] at hx
    rcases lt_or_ge (-32768) x.toInt with hsmall | hlarge
    · rw [vrcpVrsqData_small hneg hsmall, BitVec.toNat_neg]
      rw [BitVec.toInt_eq_toNat_cond] at hsmall
      split at hx <;> omega
    · rw [vrcpVrsqData_large hlarge, BitVec.toNat_not]
      split at hx <;> omega
  · rw [vrcpVrsqData_nonneg hnonneg]
    exact (toNat_of_nonneg hnonneg).1

/-! ### Antitone -/

theorem octave_mono {a b : Word} (ha : a ≠ 0) (h : a.toNat ≤ b.toNat) : octave a ≤ octave b := by
  have hne : b.toNat ≠ 0 := fun h0 => ha (BitVec.eq_of_toNat_eq (by simpa [h0] using h))
  exact (Nat.le_log2 hne).mpr ((Nat.log2_self_le (fun h0 => ha (BitVec.eq_of_toNat_eq h0))).trans h)

theorem leadingBits_mono {a b : Word} (h : a.toNat ≤ b.toNat) (ho : octave a = octave b) :
    leadingBits a ≤ leadingBits b := by
  unfold leadingBits
  rw [ho]
  exact Nat.sub_le_sub_right (Nat.div_le_div_right (Nat.mul_le_mul_right _ h)) _

/-- The number that a nonzero magnitude gives. -/
def quotient (vrsq : Bool) (data : Word) : ℕ :=
  scaled (mantissa (vrcpVrsqIdx vrsq data)) (vrcpVrsqShift vrsq data)

theorem quotient_antitone (vrsq : Bool) {a b : Word} (ha : a ≠ 0)
    (hab : a.toNat ≤ b.toNat) (hb : b.toNat < 2 ^ 31) :
    quotient vrsq b ≤ quotient vrsq a := by
  have hb0 : b ≠ 0 := fun h => ha (BitVec.eq_of_toNat_eq (by simpa [h] using hab))
  have ha31 := lt_of_le_of_lt hab hb
  have hla := (leadingBits_spec ha ha31).2.2
  have hlb := (leadingBits_spec hb0 hb).2.2
  simp only [quotient, vrcpVrsqShift_eq ha ha31, vrcpVrsqShift_eq hb0 hb]
  rcases (octave_mono ha hab).eq_or_lt with heq | hlt
  · -- within an octave: the table falls
    have hbits := leadingBits_mono hab heq
    rw [heq]
    apply scaled_le_scaled
    cases vrsq with
    | false =>
      rw [vrcpVrsqIdx_rcp ha ha31, vrcpVrsqIdx_rcp hb0 hb]
      exact mantissa_rcp hbits hlb
    | true =>
      rw [vrcpVrsqIdx_rsq ha ha31, vrcpVrsqIdx_rsq hb0 hb, heq]
      exact mantissa_rsq (Nat.mod_lt _ Nat.two_pos) (Nat.div_le_div_right hbits) (by omega)
  · cases vrsq with
    | false => exact scaled_le_of_lt _ _ hlt
    | true =>
      rcases (Nat.div_le_div_right (c := 2) hlt.le).eq_or_lt with hhalf | hhalf
      · -- two octaves of one shift: the first has the odd entries, the second the even ones
        have hoa := octave_le ha ha31
        have hob := octave_le hb0 hb
        have hpa : (31 - octave a) % 2 = 1 := by omega
        have hpb : (31 - octave b) % 2 = 0 := by omega
        rw [vrcpVrsqIdx_rsq ha ha31, vrcpVrsqIdx_rsq hb0 hb, hpa, hpb]
        simp only [if_true, hhalf]
        exact scaled_le_scaled (mantissa_even_le_odd (by omega) (by omega)) _
      · exact scaled_le_of_lt _ _ hhalf

theorem LooksUp.of_pos {x : Word} (h : 0 < x.toInt) : LooksUp x := by
  refine ⟨?_, by omega⟩
  rw [vrcpVrsqData_nonneg h.le]
  rintro rfl
  exact absurd h (by decide)

theorem vrcpVrsqResult_pos (vrsq : Bool) {x : Word} (h : 0 < x.toInt) :
    (vrcpVrsqResult vrsq x).toInt = quotient vrsq x := by
  have hmask := sshiftRight_signBit x
  rw [if_neg (not_lt.mpr h.le)] at hmask
  have hresult := (LooksUp.of_pos h).result vrsq
  rw [vrcpVrsqData_nonneg h.le, hmask, BitVec.xor_zero] at hresult
  have hnat : (vrcpVrsqResult vrsq x).toNat = quotient vrsq x := by
    rw [hresult]
    exact vrcpVrsqLookup_toNat _ _
  have hlt : quotient vrsq x < 2 ^ 31 := scaled_lt _ _
  rw [BitVec.toInt_eq_toNat_of_lt (by omega), hnat]

theorem vrcpVrsqResult_antitone (vrsq : Bool) {a b : Word}
    (ha : 0 ≤ a.toInt) (hab : a.toInt ≤ b.toInt) :
    (vrcpVrsqResult vrsq b).toInt ≤ (vrcpVrsqResult vrsq a).toInt := by
  rcases ha.eq_or_lt with hzero | hpos
  · have hdata : vrcpVrsqData a = 0 := by
      rw [vrcpVrsqData_nonneg ha]
      exact BitVec.eq_of_toInt_eq hzero.symm
    have hmax : (0x7fffFFFF#32).toInt = 2 ^ 31 - 1 := by decide
    have hle := BitVec.toInt_lt (x := vrcpVrsqResult vrsq b)
    rw [vrcpVrsqResult_zero vrsq hdata, hmax]
    omega
  · rw [vrcpVrsqResult_pos vrsq hpos, vrcpVrsqResult_pos vrsq (hpos.trans_le hab)]
    obtain ⟨ha31, haNat⟩ := toNat_of_nonneg ha
    obtain ⟨hb31, hbNat⟩ := toNat_of_nonneg (ha.trans hab)
    have hne : a ≠ 0 := by
      rintro rfl
      exact absurd hpos (by decide)
    exact_mod_cast quotient_antitone vrsq hne (by omega) hb31

/-! ### Accurate -/

/-- A number times its reciprocal: between the products of the mantissa with the ends of the
interval that it is looked up for, and less the number for what is shifted out. -/
theorem quotient_accurate {data : Word} (hpos : data ≠ 0) (hlt : data.toNat < 2 ^ 31) :
    2 ^ 31 ≤ data.toNat * quotient false data + 2 ^ 23 + data.toNat ∧
      data.toNat * quotient false data ≤ 2 ^ 31 + 2 ^ 23 := by
  obtain ⟨hlo, hhi, hbits⟩ := leadingBits_spec hpos hlt
  obtain ⟨hprodLo, hprodHi⟩ := mantissa_accurate hbits
  have hk := octave_le hpos hlt
  have hq : quotient false data = mantissa (leadingBits data) * 2 ^ 14 / 2 ^ octave data := by
    simp only [quotient, scaled, vrcpVrsqIdx_rcp hpos hlt, vrcpVrsqShift_eq hpos hlt]
    rfl
  have hpow : 2 ^ (31 - octave data) * 2 ^ octave data = 2 ^ 31 := by
    rw [← Nat.pow_add]; congr 1; omega
  have hdiv := Nat.div_add_mod (mantissa (leadingBits data) * 2 ^ 14) (2 ^ octave data)
  have hmod := Nat.mod_lt (mantissa (leadingBits data) * 2 ^ 14) (Nat.two_pow_pos (octave data))
  rw [← hq] at hdiv
  have hfloor : 2 ^ octave data * quotient false data ≤ mantissa (leadingBits data) * 2 ^ 14 :=
    (Nat.le_add_right ..).trans hdiv.le
  have hceil : mantissa (leadingBits data) * 2 ^ 14 ≤ 2 ^ octave data *
      quotient false data + 2 ^ octave data :=
    hdiv.ge.trans (Nat.add_le_add_left hmod.le _)
  constructor
  · have h : (2 ^ 31 - 2 ^ 23) * 2 ^ 31 ≤
        (data.toNat * quotient false data + data.toNat) * 2 ^ 31 := by
      calc (2 ^ 31 - 2 ^ 23) * 2 ^ 31 = (2 ^ 26 - 2 ^ 18) * 2 ^ 36 := by norm_num
        _ ≤ (512 + leadingBits data) * mantissa (leadingBits data) * 2 ^ 36 :=
          Nat.mul_le_mul_right _ hprodLo
        _ = (512 + leadingBits data) * 2 ^ 22 * (mantissa (leadingBits data) * 2 ^ 14) := by ring
        _ ≤ data.toNat * 2 ^ (31 - octave data) *
          (2 ^ octave data * quotient false data + 2 ^ octave data) :=
          Nat.mul_le_mul hlo hceil
        _ = (data.toNat * quotient false data + data.toNat) *
          (2 ^ (31 - octave data) * 2 ^ octave data) := by ring
        _ = (data.toNat * quotient false data + data.toNat) * 2 ^ 31 := by rw [hpow]
    have := Nat.le_of_mul_le_mul_right h (Nat.two_pow_pos 31)
    omega
  · have h : data.toNat * quotient false data * 2 ^ 31 ≤ (2 ^ 31 + 2 ^ 23) * 2 ^ 31 := by
      calc data.toNat * quotient false data * 2 ^ 31
          = data.toNat * quotient false data * (2 ^ (31 - octave data) * 2 ^ octave data) := by
            rw [hpow]
        _ = data.toNat * 2 ^ (31 - octave data) * (2 ^ octave data * quotient false data) := by ring
        _ ≤ (513 + leadingBits data) * 2 ^ 22 * (mantissa (leadingBits data) * 2 ^ 14) :=
          Nat.mul_le_mul hhi.le hfloor
        _ = (513 + leadingBits data) * mantissa (leadingBits data) * 2 ^ 36 := by ring
        _ ≤ (2 ^ 26 + 2 ^ 18) * 2 ^ 36 := Nat.mul_le_mul_right _ hprodHi
        _ = (2 ^ 31 + 2 ^ 23) * 2 ^ 31 := by norm_num
    exact Nat.le_of_mul_le_mul_right h (Nat.two_pow_pos 31)

/-! ### Negative numbers -/

/-- A negative and a positive number of one magnitude have complementary results. -/
theorem vrcpVrsqResult_compl (vrsq : Bool) {x y : Word}
    (hx : x.toInt < 0) (hne : x.toInt ≠ -32768) (hy : 0 < y.toInt)
    (hdata : vrcpVrsqData x = y) : vrcpVrsqResult vrsq x = ~~~vrcpVrsqResult vrsq y := by
  have hlook := LooksUp.of_pos hy
  have hself := vrcpVrsqData_nonneg hy.le
  have hmaskX := sshiftRight_signBit x
  have hmaskY := sshiftRight_signBit y
  rw [if_pos hx] at hmaskX
  rw [if_neg (not_lt.mpr hy.le)] at hmaskY
  have hlookX : LooksUp x := ⟨by rw [hdata, ← hself]; exact hlook.1, hne⟩
  rw [hlookX.result, hlook.result, hdata, hself, hmaskX, hmaskY, BitVec.xor_zero,
    BitVec.xor_allOnes]

theorem toInt_neg_word {x : Word} (h : -32768 < x.toInt) : (-x).toInt = -x.toInt := by
  apply BitVec.toInt_neg_of_ne_intMin
  rintro rfl
  exact absurd h (by decide)

/-! ### The instruction -/

/-- The divisor that the instruction has. -/
def CP2.divisor (cp2 : CP2) (dp : Bool) (src : Fin 32) (e : Fin 16) : Word :=
  let vt := cp2.regs src ⟨e.val % 8, Simd.mod_eight_lt e⟩
  if dp then cp2.divIn ++ vt else vt.signExtend 32

/-- The result that it leaves: `div_out` and the destination lane. -/
def CP2.result (cp2 : CP2) (dest : Fin 32) (de : Fin 8) : Word := cp2.divOut ++ cp2.regs dest de

theorem highHalf_append_lowHalf (x : Word) : highHalf x ++ lowHalf x = x :=
  BitVec.extractLsb'_append_extractLsb' (w := 16)

theorem rspVrcpVrsq_result (vrsq : Bool) (cp2 : CP2) (dp : Bool)
    (src : Fin 32) (e : Fin 16) (dest : Fin 32) (de : Fin 8) :
    (rspVrcpVrsq vrsq cp2 dp src e dest de).result dest de =
      vrcpVrsqResult vrsq (cp2.divisor dp src e) := by
  simp only [rspVrcpVrsq, CP2.result, CP2.divisor, Function.update_self, signExtend_shift_or,
    setWidth_eq_lowHalf, lowHalf_sshiftRight]
  exact highHalf_append_lowHalf _

/-- **The reciprocals**: what `rsp_vrcp_vrsq` leaves in `div_out` and the destination lane is a
function of the divisor that falls from `0` on, is near `2³¹` over the divisor for the reciprocal,
has complements for negative divisors, and reads the first half of the table for the reciprocal and
the second half for the reciprocal square root. -/
theorem reciprocal_bounds :
    (∀ (vrsq : Bool) (cp2 : CP2) (dp : Bool) (src : Fin 32)
      (e : Fin 16) (dest : Fin 32) (de : Fin 8),
      (rspVrcpVrsq vrsq cp2 dp src e dest de).result dest de =
        vrcpVrsqResult vrsq (cp2.divisor dp src e)) ∧
    (∀ (vrsq : Bool) (a b : Word), 0 ≤ a.toInt → a.toInt ≤ b.toInt →
      (vrcpVrsqResult vrsq b).toInt ≤ (vrcpVrsqResult vrsq a).toInt) ∧
    (∀ d : Word, 1 ≤ d.toInt →
      |d.toInt * (vrcpVrsqResult false d).toInt - 2 ^ 31| ≤ 2 ^ 23 + d.toInt) ∧
    (∀ (vrsq : Bool) (x : Word), -32768 < x.toInt → x.toInt < 0 →
      vrcpVrsqResult vrsq x = ~~~vrcpVrsqResult vrsq (-x)) ∧
    (∀ (vrsq : Bool) (x : Word), x.toInt < -32768 →
      vrcpVrsqResult vrsq x = ~~~vrcpVrsqResult vrsq (-x - 1#32)) ∧
    (∀ (vrsq : Bool) (x : Word), LooksUp x →
      vrcpVrsqResult vrsq x = vrcpVrsqLookup (rspReciprocalRom (vrcpVrsqIdx vrsq (vrcpVrsqData x)))
        (vrcpVrsqShift vrsq (vrcpVrsqData x)) ^^^ x.sshiftRight 31 ∧
      if vrsq then 512 ≤ vrcpVrsqIdx vrsq (vrcpVrsqData x) ∧
        vrcpVrsqIdx vrsq (vrcpVrsqData x) < 1024
      else vrcpVrsqIdx vrsq (vrcpVrsqData x) < 512) := by
  refine ⟨rspVrcpVrsq_result, fun vrsq a b ha hab =>
    vrcpVrsqResult_antitone vrsq ha hab, fun d hd => ?_,
    fun vrsq x hx hneg => ?_, fun vrsq x hx => ?_,
    fun vrsq x h => ⟨h.result vrsq, vrcpVrsqIdx_range h.1 (vrcpVrsqData_lt x) vrsq⟩⟩
  · obtain ⟨hlt, hnat⟩ := toNat_of_nonneg (show 0 ≤ d.toInt by omega)
    have hne : d ≠ 0 := by
      rintro rfl
      exact absurd hd (by decide)
    obtain ⟨hlo, hhi⟩ := quotient_accurate hne hlt
    rw [vrcpVrsqResult_pos false (show 0 < d.toInt by omega), hnat, abs_le]
    constructor <;> push_cast [← @Nat.cast_le ℤ] at hlo hhi ⊢ <;> linarith
  · have hpos : 0 < (-x).toInt := by
      rw [toInt_neg_word hx]
      omega
    exact vrcpVrsqResult_compl vrsq hneg (by omega) hpos (vrcpVrsqData_small hneg hx)
  · have hpos : 0 < (~~~x).toInt := by
      rw [Bits.toInt_not _ (by decide)]
      omega
    rw [← BitVec.not_eq_neg_add]
    exact vrcpVrsqResult_compl vrsq (by omega) (by omega) hpos (vrcpVrsqData_large (by omega))

end ParallelRsp
