import ParallelRsp.Bits
import ParallelRsp.Jit.CacheInvariant
import ParallelRsp.Jit.Instruction

/-!
# Host words and MIPS registers

The low 32 bits of what a host operation computes are what the MIPS operation computes,
provided the operands are extended as the operation needs. The host's little-endian
accesses to DMEM with a flipped address are the RSP's big-endian ones.
-/

namespace ParallelRsp.Jit

variable {T : Target}

/-! ### Operations -/

section Operations

variable {a b : BitVec T.wordSize} {x y : Word}

/-- A host register holds a MIPS register. -/
def Holds (s : SignState) (a : BitVec T.wordSize) (x : Word) : Prop := low a = x ∧ HasSign s a

theorem Holds.sext_eq (h : Holds .sExt a x) : a = x.signExtend T.wordSize := by
  obtain ⟨rfl, hs⟩ := h
  exact hs

theorem Holds.zext_eq (h : Holds .zExt a x) : a = x.setWidth T.wordSize := by
  obtain ⟨rfl, hs⟩ := h
  exact hs

theorem low_signExtend {n : ℕ} (x : BitVec n) :
    low (x.signExtend T.wordSize) = x.signExtend 32 := by
  have := T.wide
  ext i hi
  simp only [low, BitVec.getElem_setWidth, BitVec.getLsbD_signExtend, BitVec.getElem_signExtend]
  have hw : i < T.wordSize := by omega
  by_cases hin : i < n
  · simp [hw, hin]
  · simp [hw, hin]

theorem low_setWidth {n : ℕ} (x : BitVec n) : low (x.setWidth T.wordSize) = x.setWidth 32 :=
  BitVec.setWidth_setWidth_of_le x T.wide

theorem low_add (a b : BitVec T.wordSize) : low (a + b) = low a + low b :=
  BitVec.setWidth_add _ _ T.wide

theorem low_sub (a b : BitVec T.wordSize) : low (a - b) = low a - low b := by
  rw [BitVec.eq_sub_iff_add_eq, ← low_add, BitVec.sub_add_cancel]

theorem low_and (a b : BitVec T.wordSize) : low (a &&& b) = low a &&& low b := BitVec.setWidth_and

theorem low_or (a b : BitVec T.wordSize) : low (a ||| b) = low a ||| low b := BitVec.setWidth_or

theorem low_xor (a b : BitVec T.wordSize) : low (a ^^^ b) = low a ^^^ low b := BitVec.setWidth_xor

theorem low_not (a : BitVec T.wordSize) : low (~~~a) = ~~~low a := BitVec.setWidth_not T.wide

theorem low_shiftLeft (a : BitVec T.wordSize) (n : ℕ) : low (a <<< n) = low a <<< n := by
  have := T.wide
  ext i hi
  simp only [low, BitVec.getElem_setWidth, BitVec.getLsbD_shiftLeft, BitVec.getElem_shiftLeft]
  have hw : i < T.wordSize := by omega
  by_cases hin : i < n
  · simp [hin]
  · simp [hw, hin]

theorem low_flag (p : Bool) : low (flag p : BitVec T.wordSize) = Mips.ofBool p := by
  have := T.wide
  cases p
  · exact BitVec.setWidth_zero _ _
  · rw [flag, if_pos rfl, low]
    ext i hi
    simp [Mips.ofBool, show i < T.wordSize by omega]

theorem hasSign_flag (p : Bool) : HasSign .sExt (flag p : BitVec T.wordSize) := by
  have := T.wide
  rw [HasSign, low_flag]
  cases p
  · exact (extend_zero true).symm
  · have hmsb : (Mips.ofBool true).msb = false := rfl
    rw [extend, if_pos rfl, BitVec.signExtend_eq_setWidth_of_msb_false hmsb]
    apply BitVec.eq_of_toNat_eq
    have h32 : 2 ^ 32 ≤ 2 ^ T.wordSize := Nat.pow_le_pow_right (by omega) T.wide
    rw [BitVec.toNat_setWidth_of_le T.wide]
    show (1#T.wordSize).toNat = 1
    rw [BitVec.toNat_ofNat]
    exact Nat.mod_eq_of_lt (by omega)

theorem Holds.slt (ha : Holds .sExt a x) (hb : Holds .sExt b y) : a.slt b = x.slt y := by
  rw [ha.sext_eq, hb.sext_eq, BitVec.slt_eq_decide, BitVec.slt_eq_decide,
    BitVec.toInt_signExtend_of_le T.wide, BitVec.toInt_signExtend_of_le T.wide]

theorem Holds.sle (ha : Holds .sExt a x) (hb : Holds .sExt b y) : a.sle b = x.sle y := by
  rw [ha.sext_eq, hb.sext_eq, BitVec.sle_eq_decide, BitVec.sle_eq_decide,
    BitVec.toInt_signExtend_of_le T.wide, BitVec.toInt_signExtend_of_le T.wide]

theorem Holds.eq_iff {s : SignState} (hs : s ≠ .unknown) (ha : Holds s a x) (hb : Holds s b y) :
    a = b ↔ x = y := by
  constructor
  · rintro rfl
    exact ha.1.symm.trans hb.1
  · rintro rfl
    cases s
    · rw [ha.sext_eq, hb.sext_eq]
    · rw [ha.zext_eq, hb.zext_eq]
    · exact absurd rfl hs

theorem Holds.beq (ha : Holds .sExt a x) (hb : Holds .sExt b y) : (a == b) = (x == y) := by
  rw [Bool.eq_iff_iff, beq_iff_eq, beq_iff_eq]
  exact ha.eq_iff (by decide) hb

theorem Holds.zext_ult (ha : Holds .zExt a x) (hb : Holds .zExt b y) : a.ult b = x.ult y := by
  rw [ha.zext_eq, hb.zext_eq, BitVec.ult, BitVec.ult, BitVec.toNat_setWidth_of_le T.wide,
    BitVec.toNat_setWidth_of_le T.wide]

/-- Sign extension keeps the unsigned order, too. -/
theorem Holds.sext_ult (ha : Holds .sExt a x) (hb : Holds .sExt b y) : a.ult b = x.ult y := by
  have h32 : 2 ^ 32 ≤ 2 ^ T.wordSize := Nat.pow_le_pow_right (by omega) T.wide
  have hval (z : Word) :
      (z.signExtend T.wordSize).toNat = z.toNat + if z.msb then 2 ^ T.wordSize - 2 ^ 32 else 0 := by
    rw [BitVec.toNat_signExtend, BitVec.toNat_setWidth_of_le T.wide]
  have hmsb (z : Word) : z.msb = decide (2 ^ 31 ≤ z.toNat) := BitVec.msb_eq_decide z
  rw [ha.sext_eq, hb.sext_eq, BitVec.ult, BitVec.ult, hval, hval, hmsb, hmsb, decide_eq_decide]
  have := x.isLt
  have := y.isLt
  split <;> split <;> simp only [decide_eq_true_eq] at * <;> omega

theorem Holds.zero (s : SignState) : Holds s (0#T.wordSize) 0#32 :=
  ⟨BitVec.setWidth_zero _ _, hasSign_zero s⟩

theorem holds_signExtend {n : ℕ} (x : BitVec n) (hn : n ≤ 32) :
    Holds .sExt (x.signExtend T.wordSize) (x.signExtend 32) := by
  refine ⟨low_signExtend x, ?_⟩
  rw [HasSign, low_signExtend, extend, if_pos rfl]
  apply BitVec.eq_of_toInt_eq
  rw [BitVec.toInt_signExtend_of_le T.wide, BitVec.toInt_signExtend_of_le (hn.trans T.wide),
    BitVec.toInt_signExtend_of_le hn]

theorem Holds.sra (ha : Holds .sExt a x) (n : ℕ) : low (a.sshiftRight n) = x.sshiftRight n := by
  have heq : a.sshiftRight n = (x.sshiftRight n).signExtend T.wordSize := by
    apply BitVec.eq_of_toInt_eq
    rw [ha.sext_eq, BitVec.toInt_sshiftRight, BitVec.toInt_signExtend_of_le T.wide,
      BitVec.toInt_signExtend_of_le T.wide, BitVec.toInt_sshiftRight]
  rw [heq, low_signExtend, BitVec.signExtend_eq]

theorem Holds.srl (ha : Holds .zExt a x) (n : ℕ) : low (a >>> n) = x >>> n := by
  rw [ha.zext_eq]
  apply BitVec.eq_of_toNat_eq
  rw [low, BitVec.toNat_setWidth, BitVec.toNat_ushiftRight, BitVec.toNat_ushiftRight,
    BitVec.toNat_setWidth_of_le T.wide]
  refine Nat.mod_eq_of_lt (lt_of_le_of_lt ?_ x.isLt)
  rw [Nat.shiftRight_eq_div_pow]
  exact Nat.div_le_self _ _

end Operations

/-! ### Memory -/

section Memory

variable {t : BitVec T.wordSize} {addr : Word} {mem : ℕ → Byte}

/-- A host register holds an address, masked to DMEM. -/
def HoldsAddr (t : BitVec T.wordSize) (addr : Word) : Prop := t.toNat = addr.toNat % 4096

/-- The address `emitAddress` computes. -/
theorem holdsAddr_add {a : BitVec T.wordSize} {x : Word} (ha : low a = x) (y : BitVec 16) :
    HoldsAddr ((a + y.signExtend T.wordSize) &&& 0xfff#_) (x + y.signExtend 32) := by
  have := T.wide
  have hlow : low (a + y.signExtend T.wordSize) = x + y.signExtend 32 := by
    rw [low_add, ha, low_signExtend]
  have hmask := Bits.toNat_and_ones (a + y.signExtend T.wordSize) 12 (by omega)
  rw [HoldsAddr, ← hlow, low, BitVec.toNat_setWidth]
  refine hmask.trans ?_
  exact (Nat.mod_mod_of_dvd _ (by norm_num : 2 ^ 12 ∣ 2 ^ 32)).symm

theorem toNat_ofNat_small {n : ℕ} (hn : n < 4096) : (BitVec.ofNat T.wordSize n).toNat = n := by
  have h32 : 2 ^ 32 ≤ 2 ^ T.wordSize := Nat.pow_le_pow_right (by omega) T.wide
  rw [BitVec.toNat_ofNat]
  exact Nat.mod_eq_of_lt (by omega)

/-- The index of the `k`-th byte from an address. -/
def byteIndex (addr : Word) (k : ℕ) : ℕ := ((addr.toNat + k) % 4096) ^^^ 3

theorem extract_extract {w i n j m : ℕ} (x : BitVec w) (h : j + m ≤ n) :
    (x.extractLsb' i n).extractLsb' j m = x.extractLsb' (i + j) m := by
  ext k hk
  simp [show j + k < n by omega, Nat.add_assoc]

theorem byteIndex_add (addr : Word) (k j : ℕ) :
    byteIndex (addr + BitVec.ofNat 32 k) j = byteIndex addr (k + j) := by
  rw [byteIndex, byteIndex, BitVec.toNat_add, BitVec.toNat_ofNat, Nat.add_mod_mod]
  congr 1
  omega

theorem readByte_eq (mem : ℕ → Byte) (addr : Word) :
    Mips.readByte mem addr = mem (byteIndex addr 0) := rfl

theorem writeByte_eq (mem : ℕ → Byte) (addr : Word) (x : Byte) :
    Mips.writeByte mem addr x = Function.update mem (byteIndex addr 0) x := rfl

theorem readHalf_eq (mem : ℕ → Byte) (addr : Word) :
    Mips.readHalf mem addr = mem (byteIndex addr 0) ++ mem (byteIndex addr 1) := by
  rw [Mips.readHalf, readByte_eq, readByte_eq, byteIndex_add addr 1 0]

theorem readWord_eq (mem : ℕ → Byte) (addr : Word) : Mips.readWord mem addr =
    mem (byteIndex addr 0) ++ mem (byteIndex addr 1) ++
      (mem (byteIndex addr 2) ++ mem (byteIndex addr 3)) := by
  rw [Mips.readWord, readHalf_eq, readHalf_eq, byteIndex_add addr 2 0, byteIndex_add addr 2 1]

theorem writeHalf_eq (mem : ℕ → Byte) (addr : Word) (x : BitVec 16) : Mips.writeHalf mem addr x =
    Function.update (Function.update mem (byteIndex addr 0) (x.extractLsb' 8 8)) (byteIndex addr 1)
      (x.extractLsb' 0 8) := by
  rw [Mips.writeHalf, writeByte_eq, writeByte_eq, byteIndex_add addr 1 0]

theorem writeWord_eq (mem : ℕ → Byte) (addr : Word) (x : Word) : Mips.writeWord mem addr x =
    Function.update (Function.update
      (Function.update (Function.update mem (byteIndex addr 0) (x.extractLsb' 24 8))
      (byteIndex addr 1) (x.extractLsb' 16 8)) (byteIndex addr 2) (x.extractLsb' 8 8))
        (byteIndex addr 3)
      (x.extractLsb' 0 8) := by
  rw [Mips.writeWord, writeHalf_eq, writeHalf_eq, byteIndex_add addr 2 0, byteIndex_add addr 2 1,
    extract_extract x (by norm_num), extract_extract x (by norm_num),
    extract_extract x (by norm_num), extract_extract x (by norm_num)]

theorem byteIndex_ne (addr : Word) {j k : ℕ} (hj : j < 4096) (hk : k < 4096) (h : j ≠ k) :
    byteIndex addr j ≠ byteIndex addr k := by
  rw [byteIndex, byteIndex, Bits.nat_xor_three, Bits.nat_xor_three]
  omega

/-- The address as the aligned path flips it. -/
def flipAddr (flip : ℕ) (t : BitVec T.wordSize) : BitVec T.wordSize :=
  if flip ≠ 0 then t ^^^ BitVec.ofNat _ flip else t

/-- An access of that flip is aligned. -/
def AlignedFor (flip : ℕ) (t : BitVec T.wordSize) : Prop := t &&& BitVec.ofNat _ (3 - flip) = 0#_

theorem HoldsAddr.flip_byte (ht : HoldsAddr t addr) : (flipAddr 3 t).toNat = byteIndex addr 0 := by
  rw [flipAddr, if_pos (by norm_num), BitVec.toNat_xor, toNat_ofNat_small (by norm_num), ht,
    byteIndex]
  rfl

theorem HoldsAddr.flip_half (ht : HoldsAddr t addr) (hal : AlignedFor 2 t) :
    (flipAddr 2 t).toNat = byteIndex addr 1 ∧ (flipAddr 2 t).toNat + 1 = byteIndex addr 0 := by
  have := T.wide
  have hmod : t.toNat % 2 ^ 1 = 0 := by
    rw [← Bits.toNat_and_ones t 1 (by omega)]
    exact congrArg BitVec.toNat hal
  rw [flipAddr, if_pos (by norm_num), BitVec.toNat_xor, toNat_ofNat_small (by norm_num),
    Bits.nat_xor_two, byteIndex, byteIndex, Bits.nat_xor_three, Bits.nat_xor_three]
  rw [HoldsAddr] at ht
  omega

theorem HoldsAddr.flip_word (ht : HoldsAddr t addr) (hal : AlignedFor 0 t) (k : ℕ) (hk : k ≤ 3) :
    (flipAddr 0 t).toNat + k = byteIndex addr (3 - k) := by
  have := T.wide
  have hmod : t.toNat % 2 ^ 2 = 0 := by
    rw [← Bits.toNat_and_ones t 2 (by omega)]
    exact congrArg BitVec.toNat hal
  rw [flipAddr, if_neg (by norm_num), byteIndex, Bits.nat_xor_three]
  rw [HoldsAddr] at ht
  omega

theorem HoldsAddr.fixup (ht : HoldsAddr t addr) (off : ℕ) (hoff : off < 4096) :
    byteEndianFixup t off = byteIndex addr off := by
  have := T.wide
  have h32 : 2 ^ 32 ≤ 2 ^ T.wordSize := Nat.pow_le_pow_right (by omega) T.wide
  rw [HoldsAddr] at ht
  have hsum : (t + BitVec.ofNat _ off).toNat = t.toNat + off := by
    rw [BitVec.toNat_add, toNat_ofNat_small hoff, Nat.mod_eq_of_lt (by omega)]
  have hmask := Bits.toNat_and_ones ((t + BitVec.ofNat _ off) ^^^ 3#_) 12 (by omega)
  rw [byteEndianFixup, byteIndex]
  refine hmask.trans ?_
  rw [BitVec.toNat_xor, hsum, toNat_ofNat_small (by norm_num),
    Bits.nat_xor_three, Bits.nat_xor_three]
  omega

/-- Whether an access is aligned is a matter of the low bits of its address. -/
theorem HoldsAddr.alignedFor_iff (ht : HoldsAddr t addr) {flip k : ℕ} (hk : k ≤ 2)
    (hf : 3 - flip = 2 ^ k - 1) :
    AlignedFor flip t ↔ addr &&& BitVec.ofNat 32 (3 - flip) = 0#32 := by
  have := T.wide
  have hdvd : 2 ^ k ∣ 4096 := (Nat.pow_dvd_pow 2 hk).trans (by norm_num)
  have hmod : t.toNat % 2 ^ k = addr.toNat % 2 ^ k := by
    rw [ht, Nat.mod_mod_of_dvd _ hdvd]
  rw [AlignedFor, hf, ← BitVec.toNat_inj, ← BitVec.toNat_inj, Bits.toNat_and_ones t k (by omega),
    Bits.toNat_and_ones addr k (by omega), hmod]
  rfl

theorem append_append (a b c d : Byte) : a ++ b ++ c ++ d = (a ++ b) ++ (c ++ d) := by
  rw [BitVec.append_assoc']
  rfl

/-- An aligned load through the flipped address. -/
theorem low_hostLoad (op : LoadOp) (ht : HoldsAddr t addr)
    (hal : AlignedFor (LoadOp.endianFlip op) t) :
    low (hostLoad T.wordSize mem (flipAddr (LoadOp.endianFlip op) t).toNat op) =
      Mips.load op mem addr := by
  cases op with
  | lb =>
    rw [hostLoad, Mips.load, LoadOp.endianFlip, ht.flip_byte, readByte_eq, low_signExtend]
  | lbu =>
    rw [hostLoad, Mips.load, LoadOp.endianFlip, ht.flip_byte, readByte_eq, low_setWidth]
  | lh =>
    obtain ⟨h1, h0⟩ := ht.flip_half hal
    rw [hostLoad, Mips.load, LoadOp.endianFlip, h0, h1, readHalf_eq, low_signExtend]
  | lhu =>
    obtain ⟨h1, h0⟩ := ht.flip_half hal
    rw [hostLoad, Mips.load, LoadOp.endianFlip, h0, h1, readHalf_eq, low_setWidth]
  | lw =>
    have hw := ht.flip_word hal
    rw [hostLoad, Mips.load, LoadOp.endianFlip, hw 3 (by norm_num), hw 2 (by norm_num),
      hw 1 (by norm_num), ← Nat.add_zero (flipAddr 0 t).toNat, hw 0 (by norm_num), readWord_eq,
      low_signExtend, BitVec.signExtend_eq]
    exact append_append _ _ _ _

/-- An unaligned load. -/
theorem low_rspUnalignedLoad (op : LoadOp) (ht : HoldsAddr t addr)
    (hop : LoadOp.endianFlip op ≠ 3) :
    low (rspUnalignedLoad mem t op) = Mips.load op mem addr := by
  have hf (k : ℕ) (hk : k < 4096) := ht.fixup k hk
  cases op with
  | lb => exact absurd rfl hop
  | lbu => exact absurd rfl hop
  | lh =>
      rw [rspUnalignedLoad, Mips.load, hf 0 (by norm_num), hf 1 (by norm_num), readHalf_eq,
        low_signExtend]
  | lhu =>
      rw [rspUnalignedLoad, Mips.load, hf 0 (by norm_num), hf 1 (by norm_num), readHalf_eq,
        low_setWidth]
  | lw =>
    rw [rspUnalignedLoad, Mips.load, hf 0 (by norm_num), hf 1 (by norm_num), hf 2 (by norm_num),
      hf 3 (by norm_num), readWord_eq, low_signExtend, BitVec.signExtend_eq]
    exact append_append _ _ _ _

theorem extractLsb'_low (b : BitVec T.wordSize) {k n : ℕ} (h : k + n ≤ 32) :
    (low b).extractLsb' k n = b.extractLsb' k n := BitVec.extractLsb'_setWidth_of_le h

theorem setWidth_low (b : BitVec T.wordSize) {n : ℕ} (h : n ≤ 32) :
    (low b).setWidth n = b.setWidth n :=
  BitVec.setWidth_setWidth_of_le _ h

theorem setWidth_byte (b : BitVec T.wordSize) : b.setWidth 8 = b.extractLsb' 0 8 :=
  BitVec.setWidth_eq_extractLsb' (by have := T.wide; omega)

/-- Writes to four places, in the other order. -/
theorem update_reverse {i j k l : ℕ} (hij : i ≠ j) (hik : i ≠ k)
    (hil : i ≠ l) (hjk : j ≠ k) (hjl : j ≠ l) (hkl : k ≠ l) (x y z u : Byte) :
    Function.update (Function.update (Function.update (Function.update mem i x) j y) k z) l u =
      Function.update (Function.update
        (Function.update (Function.update mem l u) k z) j y) i x := by
  rw [Function.update_comm hij, Function.update_comm hik, Function.update_comm hil,
    Function.update_comm hjk, Function.update_comm hjl, Function.update_comm hkl]

/-- An aligned store through the flipped address. -/
theorem hostStore_flip (op : StoreOp) (ht : HoldsAddr t addr)
    (hal : AlignedFor (StoreOp.endianFlip op) t) (b : BitVec T.wordSize) :
    hostStore mem (flipAddr (StoreOp.endianFlip op) t).toNat b op =
      Mips.store op mem addr (low b) := by
  cases op with
  | sb =>
      rw [hostStore, Mips.store, StoreOp.endianFlip, ht.flip_byte,
        writeByte_eq, setWidth_low b (by norm_num)]
  | sh =>
    obtain ⟨h1, h0⟩ := ht.flip_half hal
    rw [hostStore, Mips.store, StoreOp.endianFlip, h0, h1, writeHalf_eq,
      BitVec.extractLsb'_setWidth_of_le (by norm_num),
      BitVec.extractLsb'_setWidth_of_le (by norm_num), extractLsb'_low b (by norm_num),
      extractLsb'_low b (by norm_num), setWidth_byte]
    exact Function.update_comm (byteIndex_ne addr (by norm_num) (by norm_num) (by norm_num)) _ _ _
  | sw =>
    have hw := ht.flip_word hal
    have hne (j k : ℕ) (hj : j < 4) (hk : k < 4) (h : j ≠ k) :=
      byteIndex_ne addr (j := j) (k := k) (by omega) (by omega) h
    have h0 := hw 0 (by norm_num)
    rw [Nat.add_zero] at h0
    rw [hostStore, Mips.store, StoreOp.endianFlip, hw 3 (by norm_num), hw 2 (by norm_num),
      hw 1 (by norm_num), h0, writeWord_eq, extractLsb'_low b (by norm_num),
      extractLsb'_low b (by norm_num), extractLsb'_low b (by norm_num),
      extractLsb'_low b (by norm_num), setWidth_byte]
    exact update_reverse (hne 3 2 (by omega) (by omega) (by omega))
      (hne 3 1 (by omega) (by omega) (by omega))
      (hne 3 0 (by omega) (by omega) (by omega)) (hne 2 1 (by omega) (by omega) (by omega))
      (hne 2 0 (by omega) (by omega) (by omega)) (hne 1 0 (by omega) (by omega) (by omega)) _ _ _ _

/-- An unaligned store. -/
theorem rspUnalignedStore_eq (op : StoreOp) (ht : HoldsAddr t addr)
    (hop : StoreOp.endianFlip op ≠ 3)
    (b : BitVec T.wordSize) : rspUnalignedStore mem t b op = Mips.store op mem addr (low b) := by
  have hf (k : ℕ) (hk : k < 4096) := ht.fixup k hk
  cases op with
  | sb => exact absurd rfl hop
  | sh =>
    rw [rspUnalignedStore, Mips.store, hf 0 (by norm_num), hf 1 (by norm_num), writeHalf_eq,
      BitVec.extractLsb'_setWidth_of_le (by norm_num),
      BitVec.extractLsb'_setWidth_of_le (by norm_num), extractLsb'_low b (by norm_num),
      extractLsb'_low b (by norm_num)]
  | sw =>
    rw [rspUnalignedStore, Mips.store, hf 0 (by norm_num), hf 1 (by norm_num), hf 2 (by norm_num),
      hf 3 (by norm_num), writeWord_eq, extractLsb'_low b (by norm_num),
      extractLsb'_low b (by norm_num), extractLsb'_low b (by norm_num),
      extractLsb'_low b (by norm_num)]

end Memory

end ParallelRsp.Jit
