import Mathlib.Tactic.IntervalCases
import ParallelRsp.Rsp.QuadPairs

/-!
# Packed bytes

`SPV` and `SUV` store one byte of each lane, shifted right by 8 or by 7; `LPV` and `LUV`
load eight bytes into the lanes, shifted left by as much. The stores walk through eight
consecutive addresses, the loads run through a window of sixteen bytes from a start rounded
down to eight, with an index that wraps.

`packed_pair`: with element 0 both move the eight bytes from the address on. So a store and
a load at the same address keep the bits of each lane that were stored, and a load and a
store leave DMEM as it was.
-/

namespace ParallelRsp.LS

open Simd Bits

/-! ### One lane -/

/-- What is left of a lane that was shifted out and back. -/
theorem packed_lane (x : BitVec 16) :
    ((x.sshiftRight 8).setWidth 8).setWidth 16 <<< 8 = x &&& 0xff00#16 ∧
      ((x.sshiftRight 7).setWidth 8).setWidth 16 <<< 7 = x &&& 0x7f80#16 := by
  constructor <;>
  · apply BitVec.eq_of_getLsbD_eq
    intro i hi
    interval_cases i <;> simp [BitVec.getElem_sshiftRight]

/-- A byte shifted in and back out. -/
theorem packed_byte (y : Byte) {n : ℕ} (hn : n ≤ 8) :
    ((y.setWidth 16 <<< n).sshiftRight n).setWidth 8 = y := by
  apply BitVec.eq_of_getLsbD_eq
  intro i hi
  have hlt : n + i < 16 := by omega
  have hi' : i < 16 := by omega
  simp [BitVec.getElem_sshiftRight, hi, hi', hlt]

/-! ### Both ways -/

section Both

variable (rt base : Fin 32) (offset : Word) (s : Arch)

/-- The loads read the eight bytes from the address on. -/
theorem loadPacked_zero (shift : ℕ) : loadPacked 0 rt base offset s shift = setReg s rt fun i =>
    (view s.dmem (((lsAddr s.sr base offset 8).toNat + i.val) % dmemSize)).setWidth
      16 <<< shift := by
  unfold loadPacked
  generalize lsAddr s.sr base offset 8 = A
  have hmask := toNat_and_fff A
  have hlow := toNat_and_not_7 (A &&& 0xfff#32)
  have hindex := toNat_and_7 (A &&& 0xfff#32)
  refine congrArg (setReg s rt) (funext fun i => ?_)
  have hi : (addrOf i).toNat = i.val := toNat_addrOf (by omega)
  rw [readMemU8_eq, toNat_and_fff, BitVec.toNat_add, hlow, toNat_and_15, BitVec.toNat_add, hi,
    show addrOf ((0 : Fin 16) : ℕ) = 0#32 from rfl, BitVec.sub_zero, hindex, hmask]
  congr 3
  unfold dmemSize
  omega

/-- The stores write the eight bytes from the address on. -/
theorem writesPacked_zero (s0 s1 : ℕ) : applyWrites s.dmem (writesPacked 0 rt base offset s s0 s1) =
    view (Window.fill dmemSize (lsAddr s.sr base offset 8).toNat 8
      (fun k => ((s.cp2.regs rt ⟨k % 8, by omega⟩).sshiftRight s0).setWidth 8) (view s.dmem)) := by
  unfold writesPacked
  generalize lsAddr s.sr base offset 8 = A
  rw [← Window.fill_congr_start (masked_mod A)]
  refine (applyWrites_bytes (by decide) fun k hk => toNat_add_masked _ (by omega)).trans
    (congrArg view (Window.fill_congr fun k hk => ?_))
  simp only [show ((0 : Fin 16) : ℕ) = 0 from rfl, Nat.zero_add]
  rw [if_pos (by omega)]

/-- Stored and loaded. -/
theorem loadPacked_writesPacked (rt' : Fin 32) (s0 s1 : ℕ) :
    loadPacked 0 rt' base offset
      { s with dmem := applyWrites s.dmem (writesPacked 0 rt base offset s s0 s1) } s0 =
      setReg { s with dmem := applyWrites s.dmem (writesPacked 0 rt base offset s s0 s1) }
        rt' fun i =>
        (((s.cp2.regs rt i).sshiftRight s0).setWidth 8).setWidth 16 <<< s0 := by
  rw [loadPacked_zero]
  refine congrArg (setReg _ rt') (funext fun i => ?_)
  simp only [writesPacked_zero, view_view]
  rw [Window.fill_apply_add i.isLt (by decide)]
  simp only [Nat.mod_eq_of_lt i.isLt]

/-- Loaded and stored. -/
theorem writesPacked_loadPacked {s0 : ℕ} (s1 : ℕ) (h0 : s0 ≤ 8) :
    applyWrites s.dmem
      (writesPacked 0 rt base offset (loadPacked 0 rt base offset s s0) s0 s1) = s.dmem := by
  have hload := loadPacked_zero rt base offset s s0
  have hstore := writesPacked_zero rt base offset (loadPacked 0 rt base offset s s0) s0 s1
  have hdmem : (loadPacked 0 rt base offset s s0).dmem = s.dmem := rfl
  have hsr : (loadPacked 0 rt base offset s s0).sr = s.sr := rfl
  rw [hdmem, hsr] at hstore
  rw [hstore, Window.fill_self (by decide) fun k hk => ?_, view_view]
  rw [hload, setReg_self, packed_byte _ h0]
  simp only [Nat.mod_eq_of_lt hk]

end Both

/-- A store of packed bytes and a load from the same address, to any register, keep of each lane the
bits that were stored. A load and a store to the same address change the register only. -/
theorem packed_pair (b : Build) (rt rt' base : Fin 32) (offset : Word) (s : Arch) :
    (lwc2 b .p 0 rt' base offset (swc2 .p 0 rt base offset s) =
      setReg (swc2 .p 0 rt base offset s) rt' fun i => s.cp2.regs rt i &&& 0xff00#16) ∧
    (lwc2 b .u 0 rt' base offset (swc2 .u 0 rt base offset s) =
      setReg (swc2 .u 0 rt base offset s) rt' fun i => s.cp2.regs rt i &&& 0x7f80#16) ∧
    swc2 .p 0 rt base offset (lwc2 b .p 0 rt base offset s) = lwc2 b .p 0 rt base offset s ∧
    swc2 .u 0 rt base offset (lwc2 b .u 0 rt base offset s) = lwc2 b .u 0 rt base offset s := by
  have hp := rspLPV_eq_loadPacked b
  refine ⟨?_, ?_, ?_, ?_⟩
  · refine (hp 0 rt' base offset _).trans
      ((loadPacked_writesPacked rt base offset s rt' 8 7).trans ?_)
    exact congrArg (setReg _ rt') (funext fun i => (packed_lane _).1)
  · refine (loadPacked_writesPacked rt base offset s rt' 7 8).trans ?_
    exact congrArg (setReg _ rt') (funext fun i => (packed_lane _).2)
  · rw [show lwc2 b .p 0 rt base offset s =
      loadPacked 0 rt base offset s 8 from hp 0 rt base offset s]
    exact congrArg (fun m => { loadPacked 0 rt base offset s 8 with dmem := m })
      (writesPacked_loadPacked rt base offset s 7 le_rfl)
  · exact congrArg (fun m => { loadPacked 0 rt base offset s 7 with dmem := m })
      (writesPacked_loadPacked rt base offset s 8 (Nat.le_succ 7))

end ParallelRsp.LS
