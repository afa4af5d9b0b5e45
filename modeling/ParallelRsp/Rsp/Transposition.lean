import ParallelRsp.Rsp.QuadPairs

/-!
# Transposing eight registers

`STV` stores a diagonal of a group of eight registers: one halfword of each, to sixteen
consecutive bytes. `LTV` loads such a line back to a diagonal. The element of the
instruction says which diagonal.

Microcode uses the two to exchange rows and columns: the eight diagonals are stored to
eight lines, and each line is loaded to the mirrored diagonal.

## What is proved

* `swc2_t_eq` and `lwc2_t_eq`: what one instruction moves, at a multiple of sixteen.
* `transpose`: the sixteen instructions exchange lane `j` of register `i` with lane `i` of
  register `j`, and change nothing else but their 128 bytes of DMEM.
-/

namespace ParallelRsp.LS

open Simd Bits

theorem mod_eight_lt (r : Fin 32) : r.val % 8 < 8 := Nat.mod_lt _ (by decide)

/-- Register `k` of the group of eight that `rt` is in. -/
def groupReg (rt : Fin 32) (k : ℕ) : Fin 32 := ⟨rt.val / 8 * 8 + k % 8, by omega⟩

theorem groupReg_congr {rt : Fin 32} {j k : ℕ} (h : j % 8 = k % 8) :
    groupReg rt j = groupReg rt k :=
  Fin.ext (congrArg (rt.val / 8 * 8 + ·) h)

theorem groupReg_mod (rt : Fin 32) (k : ℕ) : (groupReg rt k).val % 8 = k % 8 := by
  simp only [groupReg]
  omega

/-- The halfword of DMEM at an address. -/
def halfAt (mem : ℕ → Byte) (a : ℕ) : BitVec 16 :=
  view mem (a % dmemSize) ++ view mem ((a + 1) % dmemSize)

/-- The registers when `LTV` has loaded the lanes below `n`, from the line at `A`: register `k`
of the group takes halfword `k`. -/
def ltvRegs (n : ℕ) (e : Fin 16) (rt : Fin 32) (A : ℕ) (mem : ℕ → Byte) (regs : Fin 32 → M128i) :
    Fin 32 → M128i := fun r i =>
  if i.val < n ∧ r = groupReg rt (e.val / 2 + i) then halfAt mem (A + 2 * (r.val % 8)) else regs r i

/-! ### One line -/

section Lines

variable {e : Fin 16} {rt base : Fin 32} {offset : Word} {s : Arch}

/-- `STV` at a multiple of sixteen: the line holds byte `k` of the register `e / 2` further on
than the halfword `k` is in. -/
theorem swc2_t_eq (h16 : (lsAddr s.sr base offset 16).toNat % 16 = 0) :
    swc2 .t e rt base offset s =
      { s with
        dmem := view (Window.fill dmemSize (lsAddr s.sr base offset 16).toNat 16
          (fun k => readVecU8 (s.cp2.regs (groupReg rt (k / 2 + e.val / 2))) k)
          (view s.dmem)) } := by
  refine congrArg (fun m => { s with dmem := m }) ?_
  show applyWrites s.dmem (writesSTV e rt base offset s) = _
  unfold writesSTV
  generalize lsAddr s.sr base offset 16 = A at h16 ⊢
  have hmask := toNat_and_fff A
  have hrot : e.val / 2 * 2 ≤ 14 := by omega
  -- byte `k` of the loop goes to byte `16 - e + k` of the line
  have hw : ∀ k < 16,
      writeMemU8 (((A &&& 0xfff#32) &&& ~~~7#32) +
          ((((A &&& 0xfff#32) &&& 7#32) - addrOf (e.val / 2 * 2) + addrOf k) &&& 0xf#32))
        (readVecU8 (s.cp2.regs ⟨(rt.val / 8 * 8 + k / 2) % 32, by omega⟩)
          ((16 - e.val / 2 * 2 + k) % 16)) =
      windowWrite A.toNat (fun k => readVecU8 (s.cp2.regs (groupReg rt (k / 2 + e.val / 2))) k)
        ((16 - e.val / 2 * 2 + k) % 16) := by
    intro k hk
    have hoff : (((A &&& 0xfff#32) &&& 7#32) - addrOf (e.val / 2 * 2) + addrOf k).toNat % 16 =
        (16 - e.val / 2 * 2 + k) % 16 := by
      rw [BitVec.toNat_add, BitVec.toNat_sub, toNat_and_7, toNat_addrOf (by omega),
        toNat_addrOf (by omega), hmask]
      omega
    refine Prod.ext ?_ ?_
    · rw [writeMemU8, windowWrite, BitVec.toNat_xor, toNat_window (masked_lt A), hoff, hmask]
      show _ ^^^ 3 = _ ^^^ 3
      congr 1
      unfold dmemSize
      omega
    · show readVecU8 _ _ = readVecU8 _ _
      congr 2
      refine Fin.ext ?_
      simp only [groupReg]
      omega
  refine applyWrites_window (by decide) fun w => ?_
  simp only [List.mem_map, List.mem_range]
  constructor
  · rintro ⟨k, hk, rfl⟩
    exact ⟨_, Nat.mod_lt _ (by norm_num), hw k hk⟩
  · rintro ⟨o, ho, rfl⟩
    refine ⟨(o + e.val / 2 * 2) % 16, Nat.mod_lt _ (by norm_num), ?_⟩
    rw [hw _ (Nat.mod_lt _ (by norm_num)),
      show (16 - e.val / 2 * 2 + (o + e.val / 2 * 2) % 16) % 16 = o by omega]

/-- Both bytes of a lane written. -/
theorem writeVecU8_pair (v : M128i) (i : Fin 8) (hi lo : Byte) :
    writeVecU8 (writeVecU8 v (2 * i.val) hi) (2 * i.val + 1) lo =
      Function.update v i (hi ++ lo) := by
  funext j
  have hbyte : ∀ k < 16, readVecU8 (writeVecU8 (writeVecU8 v (2 * i.val) hi) (2 * i.val + 1) lo) k =
      if k = 2 * i.val + 1 then lo else if k = 2 * i.val then hi else readVecU8 v k := by
    intro k hk
    rw [readVecU8_writeVecU8 _ _ _ (by omega) hk, readVecU8_writeVecU8 _ _ _ (by omega) hk]
  rw [← ofVecBytes_readVecU8 (writeVecU8 _ _ lo), ofVecBytes, hbyte _ (even_lt j),
    hbyte _ (odd_lt j)]
  by_cases hj : j = i
  · subst hj
    rw [Function.update_self, if_neg (by omega), if_pos rfl, if_pos rfl]
  · have hne : j.val ≠ i.val := fun h => hj (Fin.ext h)
    rw [Function.update_of_ne hj, if_neg (by omega), if_neg (by omega), if_neg (by omega),
      if_neg (by omega), readVecU8_even, readVecU8_odd, append_bytes]

/-- The address of the next byte of a line: after the last comes the first. -/
theorem ltv_next (start : Word) {c : ℕ} (hc : c < 16) :
    (if start + addrOf c + 1#32 = start + 16#32 then start else start + addrOf c + 1#32) =
      start + addrOf ((c + 1) % 16) := by
  have hadd : start + addrOf c + 1#32 = start + addrOf (c + 1) := by
    rw [BitVec.add_assoc, addrOf, addrOf, BitVec.ofNat_add]
  by_cases hlast : c = 15
  · subst hlast
    rw [if_pos (show _ = start + 16#32 from hadd), show addrOf ((15 + 1) % 16) = 0#32 from rfl,
      BitVec.add_zero]
  · have hne : start + addrOf c + 1#32 ≠ start + 16#32 := by
      intro h
      have hnat := congrArg BitVec.toNat ((BitVec.add_right_inj start).mp (hadd.symm.trans h))
      rw [toNat_addrOf (by omega)] at hnat
      have : c + 1 = 16 := hnat
      omega
    rw [if_neg hne, hadd, Nat.mod_eq_of_lt (by omega)]

variable (rt s) in
/-- One round of `LTV`, from an even byte of the line. -/
theorem ltvRound_eq (start : Word) {c : ℕ} (hc : c < 16) (h2 : c % 2 = 0) (regs : Fin 32 → M128i)
    (j : ℕ) (i : Fin 8) :
    ltvRound s (groupReg rt 0) start (regs, start + addrOf c, j) i =
      (Function.update regs (groupReg rt j) (Function.update (regs (groupReg rt j)) i
        (halfAt s.dmem (start.toNat + c))), start + addrOf ((c + 2) % 16), j % 8 + 1) := by
  have hread : ∀ k < 16, readMemU8 s.dmem ((start + addrOf k) &&& 0xfff#32) =
      view s.dmem ((start.toNat + k) % dmemSize) := by
    intro k hk
    rw [readMemU8_eq, toNat_add_masked start hk]
  have hreg : (⟨((groupReg rt 0).val + j % 8) % 32, Nat.mod_lt _ (by norm_num)⟩ : Fin 32) =
      groupReg rt j := by
    refine Fin.ext ?_
    simp only [groupReg]
    omega
  unfold ltvRound
  dsimp only
  rw [hreg, ltv_next start hc, Nat.mod_eq_of_lt (show c + 1 < 16 by omega),
    ltv_next start (show c + 1 < 16 by omega), hread c hc, hread (c + 1) (by omega),
    Function.update_self, Function.update_idem, writeVecU8_pair]
  rfl

/-- The round that loads lane `n`. -/
theorem ltvRegs_succ {n : ℕ} (hn : n < 8) (A : ℕ) (mem : ℕ → Byte) (regs : Fin 32 → M128i) :
    Function.update (ltvRegs n e rt A mem regs) (groupReg rt (e.val / 2 + n))
        (Function.update (ltvRegs n e rt A mem regs (groupReg rt (e.val / 2 + n))) ⟨n, hn⟩
          (halfAt mem (A + (e.val / 2 * 2 + 2 * n) % 16))) =
      ltvRegs (n + 1) e rt A mem regs := by
  funext r i
  by_cases hr : r = groupReg rt (e.val / 2 + n)
  · have hline : 2 * (r.val % 8) = (e.val / 2 * 2 + 2 * n) % 16 := by
      rw [hr, groupReg_mod]
      omega
    rw [← hr, Function.update_self]
    by_cases hi : i = ⟨n, hn⟩
    · subst hi
      rw [Function.update_self, ltvRegs, if_pos ⟨Nat.lt_succ_self n, hr⟩, hline]
    · have hne : i.val ≠ n := fun h => hi (Fin.ext h)
      rw [Function.update_of_ne hi]
      exact if_congr (and_congr_left' (by omega)) rfl rfl
  · rw [Function.update_of_ne hr]
    refine if_congr ?_ rfl rfl
    constructor
    · rintro ⟨hi, hri⟩
      exact ⟨by omega, hri⟩
    · rintro ⟨hi, hri⟩
      have hne : i.val ≠ n := fun h => hr (h ▸ hri)
      exact ⟨by omega, hri⟩

variable (rt s) in
/-- The state of the loop of `LTV` after `n` rounds. -/
theorem ltvRound_foldl (start : Word) (he : e.val % 2 = 0) {n : ℕ} (hn : n ≤ 8) :
    ∃ j, j % 8 = (e.val / 2 + n) % 8 ∧
      (List.range n).foldl (ltvRound s (groupReg rt 0) start)
          (s.cp2.regs, start + addrOf e, e.val / 2) =
        (ltvRegs n e rt start.toNat s.dmem s.cp2.regs, start + addrOf ((e.val + 2 * n) % 16),
          j) := by
  induction n with
  | zero =>
    refine ⟨e.val / 2, rfl, Prod.ext ?_ ?_⟩
    · funext r i
      show s.cp2.regs r i = ltvRegs 0 e rt start.toNat s.dmem s.cp2.regs r i
      rw [ltvRegs, if_neg (by omega)]
    · simp [Nat.mod_eq_of_lt e.isLt]
  | succ n ih =>
    obtain ⟨j, hj, hfold⟩ := ih (by omega)
    have hround := ltvRound_eq rt s start
      (Nat.mod_lt (e.val + 2 * n) (show 0 < 16 by norm_num)) (by omega)
      (ltvRegs n e rt start.toNat s.dmem s.cp2.regs) j ⟨n, by omega⟩
    rw [groupReg_congr hj, show (e.val + 2 * n) % 16 = (e.val / 2 * 2 + 2 * n) % 16 by omega,
      ltvRegs_succ (by omega)] at hround
    refine ⟨j % 8 + 1, by omega, ?_⟩
    rw [List.range_succ, List.foldl_append, hfold, List.foldl_cons, List.foldl_nil,
      show (e.val + 2 * n) % 16 = (e.val / 2 * 2 + 2 * n) % 16 by omega, hround,
      show ((e.val / 2 * 2 + 2 * n) % 16 + 2) % 16 = (e.val + 2 * (n + 1)) % 16 by omega]

/-- `LTV` at a multiple of sixteen: halfword `k` of the line goes to register `k` of the group,
to the lane as far back as the element says. -/
theorem lwc2_t_eq (b : Build) (h16 : (lsAddr s.sr base offset 16).toNat % 16 = 0)
    (he : e.val % 2 = 0) :
    lwc2 b .t e rt base offset s =
      { s with
        cp2 := { s.cp2 with
          regs := ltvRegs 8 e rt (lsAddr s.sr base offset 16).toNat s.dmem s.cp2.regs } } := by
  show rspLTV e rt base offset s = _
  unfold rspLTV
  generalize lsAddr s.sr base offset 16 = A at h16 ⊢
  have hstart : A &&& ~~~7#32 = A := by
    apply BitVec.eq_of_toNat_eq
    rw [toNat_and_not_7]
    omega
  have hline : A &&& 0xf#32 = 0#32 := by
    apply BitVec.eq_of_toNat_eq
    rw [toNat_and_15, h16]
    rfl
  have hhalf : (addrOf e + (A &&& 8#32)) &&& 0xf#32 = addrOf e := by
    apply BitVec.eq_of_toNat_eq
    rw [show (8#32) = 0xf#32 &&& 8#32 by decide, ← BitVec.and_assoc, hline, BitVec.zero_and,
      BitVec.add_zero, toNat_and_15, toNat_addrOf (by omega), Nat.mod_eq_of_lt e.isLt]
  obtain ⟨j, -, hfold⟩ := ltvRound_foldl rt s A he le_rfl
  have hreg : (⟨rt.val / 8 * 8, by omega⟩ : Fin 32) = groupReg rt 0 := rfl
  simp only [hstart, hhalf, hreg, hfold]

end Lines

/-! ### Eight lines -/

section Eight

variable (rt base : Fin 32) (offset : Word)

/-- `STV` of the diagonals below `n`, each to a line of its own. -/
def storeDiagonals (n : ℕ) (s : Arch) : Arch :=
  (List.range n).foldl
    (fun s d => swc2 .t ⟨2 * d % 16, Nat.mod_lt _ (by decide)⟩ rt base (offset + addrOf d) s) s

/-- `LTV` of the lines below `n`, each to the mirrored diagonal. -/
def loadDiagonals (b : Build) (n : ℕ) (s : Arch) : Arch :=
  (List.range n).foldl
    (fun s d => lwc2 b .t ⟨(16 - 2 * d) % 16, Nat.mod_lt _ (by decide)⟩ rt base
      (offset + addrOf d) s) s

theorem storeDiagonals_succ (n : ℕ) (s : Arch) : storeDiagonals rt base offset (n + 1) s =
    swc2 .t ⟨2 * n % 16, Nat.mod_lt _ (by decide)⟩ rt base (offset + addrOf n)
      (storeDiagonals rt base offset n s) := by
  simp only [storeDiagonals, List.range_succ, List.foldl_append, List.foldl_cons, List.foldl_nil]

theorem loadDiagonals_succ (b : Build) (n : ℕ) (s : Arch) :
    loadDiagonals rt base offset b (n + 1) s =
      lwc2 b .t ⟨(16 - 2 * n) % 16, Nat.mod_lt _ (by decide)⟩ rt base (offset + addrOf n)
        (loadDiagonals rt base offset b n s) := by
  simp only [loadDiagonals, List.range_succ, List.foldl_append, List.foldl_cons, List.foldl_nil]

/-- Byte `k` of the eight lines. -/
def diagonalByte (s : Arch) (k : ℕ) : Byte :=
  readVecU8 (s.cp2.regs (groupReg rt (k % 16 / 2 + k / 16))) (k % 16)

variable {s : Arch} (h16 : (lsAddr s.sr base offset 16).toNat % 16 = 0)
include h16

/-- Line `d`. -/
theorem lsAddr_line {d : ℕ} (hd : d < 8) :
    (lsAddr s.sr base (offset + addrOf d) 16).toNat % 16 = 0 ∧
      (lsAddr s.sr base (offset + addrOf d) 16).toNat % dmemSize =
        ((lsAddr s.sr base offset 16).toNat + 16 * d) % dmemSize := by
  have hadd : lsAddr s.sr base (offset + addrOf d) 16 =
      lsAddr s.sr base offset 16 + addrOf (16 * d) := by
    simp only [lsAddr, addrOf]
    rw [BitVec.add_mul, ← BitVec.add_assoc, ← BitVec.ofNat_mul, Nat.mul_comm d]
  rw [hadd, BitVec.toNat_add, toNat_addrOf (by omega)]
  unfold dmemSize
  omega

theorem storeDiagonals_eq {n : ℕ} (hn : n ≤ 8) :
    storeDiagonals rt base offset n s =
      { s with
        dmem := view (Window.fill dmemSize (lsAddr s.sr base offset 16).toNat (16 * n)
          (diagonalByte rt s) (view s.dmem)) } := by
  induction n with
  | zero => simp [storeDiagonals]
  | succ n ih =>
    obtain ⟨hline, hstart⟩ := lsAddr_line base offset h16 (show n < 8 by omega)
    have hline' : (lsAddr (storeDiagonals rt base offset n s).sr base (offset + addrOf n)
        16).toNat % 16 = 0 := by
      rw [ih (by omega)]
      exact hline
    rw [storeDiagonals_succ, swc2_t_eq hline', ih (by omega)]
    refine congrArg (fun m => { s with dmem := m }) (congrArg view ?_)
    rw [view_view, Window.fill_congr_start hstart, show 16 * (n + 1) = 16 * n + 16 by omega,
      ← Window.fill_append (show 16 * n < dmemSize by unfold dmemSize; omega)
        (show 16 * n + 16 ≤ dmemSize by unfold dmemSize; omega)]
    refine Window.fill_congr fun k hk => ?_
    rw [diagonalByte, show (16 * n + k) % 16 = k by omega]
    exact congrArg (fun r => readVecU8 (s.cp2.regs r) k) (groupReg_congr (by dsimp only; omega))

/-- The halfword that register `q` of the group takes from line `d`. -/
theorem halfAt_line {q d : ℕ} (hq : q < 8) (hd : d < 8) {A : ℕ}
    (hA : A % dmemSize = ((lsAddr s.sr base offset 16).toNat + 16 * d) % dmemSize) :
    halfAt (storeDiagonals rt base offset 8 s).dmem (A + 2 * q) =
      s.cp2.regs (groupReg rt (q + d)) ⟨q, hq⟩ := by
  have hbyte : ∀ k < 16, view (storeDiagonals rt base offset 8 s).dmem ((A + k) % dmemSize) =
      readVecU8 (s.cp2.regs (groupReg rt (k / 2 + d))) k := by
    intro k hk
    rw [storeDiagonals_eq rt base offset h16 le_rfl, view_view, ← Nat.mod_add_mod, hA,
      Nat.mod_add_mod, Nat.add_assoc, Window.fill_apply_add (by omega) (by decide), diagonalByte,
      show (16 * d + k) % 16 = k by omega, show (16 * d + k) / 16 = d by omega]
  rw [halfAt, Nat.add_assoc, hbyte _ (by omega), hbyte _ (by omega),
    show 2 * q / 2 = q by omega, show (2 * q + 1) / 2 = q by omega]
  have heven := readVecU8_even (s.cp2.regs (groupReg rt (q + d))) ⟨q, hq⟩
  have hodd := readVecU8_odd (s.cp2.regs (groupReg rt (q + d))) ⟨q, hq⟩
  rw [heven, hodd, append_bytes]

/-- The registers when the lines below `n` are loaded: lane `i` of register `r` is still to come
when the line that holds it is not among them. -/
def mirrored (n : ℕ) (s : Arch) : Fin 32 → M128i := fun r i =>
  if r.val / 8 = rt.val / 8 ∧ (i.val + 8 - r.val % 8) % 8 < n then
    s.cp2.regs (groupReg rt i) ⟨r.val % 8, mod_eight_lt r⟩
  else s.cp2.regs r i

theorem loadDiagonals_eq (b : Build) {n : ℕ} (hn : n ≤ 8) {t : Arch}
    (ht : t = storeDiagonals rt base offset 8 s) :
    loadDiagonals rt base offset b n t =
      { t with cp2 := { s.cp2 with regs := mirrored rt n s } } := by
  have hstored := ht.trans (storeDiagonals_eq rt base offset h16 le_rfl)
  induction n with
  | zero =>
    have hregs : mirrored rt 0 s = s.cp2.regs := by
      funext r i
      rw [mirrored, if_neg (by omega)]
    rw [hregs, hstored]
    rfl
  | succ n ih =>
    obtain ⟨hline, hstart⟩ := lsAddr_line base offset h16 (show n < 8 by omega)
    have hline' : (lsAddr (loadDiagonals rt base offset b n t).sr base (offset + addrOf n)
        16).toNat % 16 = 0 := by
      rw [ih (by omega), hstored]
      exact hline
    have hregs : ltvRegs 8 ⟨(16 - 2 * n) % 16, Nat.mod_lt _ (by norm_num)⟩ rt
        (lsAddr s.sr base (offset + addrOf n) 16).toNat t.dmem (mirrored rt n s) =
        mirrored rt (n + 1) s := by
      funext r i
      have hmem := halfAt_line rt base offset h16 (Nat.mod_lt r.val (show 0 < 8 by norm_num))
        (show n < 8 by omega) hstart
      rw [← ht] at hmem
      by_cases hr : r = groupReg rt ((16 - 2 * n) % 16 / 2 + i)
      · have hmod : r.val % 8 = ((16 - 2 * n) % 16 / 2 + i) % 8 := by
          rw [hr, groupReg_mod]
        have hgroup : r.val / 8 = rt.val / 8 := by
          rw [hr, groupReg]
          dsimp only
          omega
        rw [ltvRegs, if_pos ⟨i.isLt, hr⟩, mirrored, if_pos ⟨hgroup, by omega⟩, hmem,
          groupReg_congr (show (r.val % 8 + n) % 8 = i.val % 8 by omega)]
      · rw [ltvRegs, if_neg fun h => hr h.2]
        refine if_congr (and_congr_right fun hgroup => ?_) rfl rfl
        have hne : (i.val + 8 - r.val % 8) % 8 ≠ n := by
          intro h
          refine hr (Fin.ext ?_)
          simp only [groupReg]
          omega
        omega
    have hsr : t.sr = s.sr := by rw [hstored]
    rw [loadDiagonals_succ, lwc2_t_eq b hline' (by dsimp only; omega), ih (by omega)]
    simp only [hsr, hregs]

end Eight

/-- Eight diagonals stored and each loaded to its mirror image: rows and columns of the group
are exchanged, the other registers stay, and DMEM changes in the eight lines only. -/
theorem transpose (b : Build) (rt base : Fin 32) (offset : Word) (s : Arch)
    (h16 : (lsAddr s.sr base offset 16).toNat % 16 = 0) :
    let s' := loadDiagonals rt base offset b 8 (storeDiagonals rt base offset 8 s)
    (∀ i j : Fin 8, s'.cp2.regs (groupReg rt i) j = s.cp2.regs (groupReg rt j) i) ∧
      (∀ r, r.val / 8 ≠ rt.val / 8 → s'.cp2.regs r = s.cp2.regs r) ∧
      (∀ a, 128 ≤ Window.pos dmemSize (lsAddr s.sr base offset 16).toNat a →
        view s'.dmem a = view s.dmem a) ∧
      s' = { s with dmem := s'.dmem, cp2 := { s.cp2 with regs := s'.cp2.regs } } := by
  intro s'
  have hstored := storeDiagonals_eq rt base offset h16 (s := s) le_rfl
  have hs' : s' = { storeDiagonals rt base offset 8 s with
      cp2 := { s.cp2 with regs := mirrored rt 8 s } } :=
    loadDiagonals_eq rt base offset h16 b le_rfl rfl
  rw [hs', hstored]
  refine ⟨fun i j => ?_, fun r hr => ?_, fun a ha => ?_, rfl⟩
  · show mirrored rt 8 s (groupReg rt i) j = _
    have hgroup : (groupReg rt i).val / 8 = rt.val / 8 := by
      simp only [groupReg]
      omega
    rw [mirrored, if_pos ⟨hgroup, Nat.mod_lt _ (by norm_num)⟩]
    exact congrArg (s.cp2.regs _) (Fin.ext ((groupReg_mod rt i).trans (Nat.mod_eq_of_lt i.isLt)))
  · funext i
    exact if_neg fun h => hr h.1
  · simp only [view_view]
    exact if_neg fun h => by omega

/-- Group `$v8`..`$v15` through the last lines of DMEM and the first. -/
theorem transpose_wraps :
    let s : Arch := { Arch.zero with
      sr := fun _ => 0xfc0#32
      cp2 := { CP2.zero with regs := fun r i => BitVec.ofNat 16 (8 * r.val + i.val) } }
    (loadDiagonals 8 1 0#32 .sse2 8 (storeDiagonals 8 1 0#32 8 s)).cp2.regs 9 2 = 81#16 :=
  (transpose .sse2 8 1 0#32 _ (by decide)).1 1 2

end ParallelRsp.LS
