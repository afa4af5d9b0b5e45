import Mathlib.Tactic.IntervalCases
import ParallelRsp.Mips.Machine
import ParallelRsp.Rsp.ByteTransfers

/-!
# Elements as bytes

`MTC2` and `MFC2` work on the lanes of a vector register: an odd element straddles two of
them. `LSV` and `SSV` work on its bytes. `element_moves` says that they see the same bytes:
`MTC2` writes what `LSV` would load where the halfword lies in DMEM, `MFC2` reads what `SSV`
would store, and one undoes the other for every element but the last, which keeps its
high byte only.
-/

namespace ParallelRsp.CP

open Simd LS

/-! ### Lanes from bytes -/

/-- The low byte of a lane replaced. -/
theorem merge_low (x v : BitVec 16) :
    x &&& 0xff00#16 ||| v >>> 8 = x.extractLsb' 8 8 ++ v.extractLsb' 8 8 := by
  apply BitVec.eq_of_getLsbD_eq
  intro i hi
  rw [BitVec.getLsbD_append, BitVec.getLsbD_extractLsb', BitVec.getLsbD_extractLsb']
  interval_cases i <;> simp

/-- The high byte of a lane replaced. -/
theorem merge_high (x v : BitVec 16) :
    x &&& 0xff#16 ||| v <<< 8 = v.extractLsb' 0 8 ++ x.extractLsb' 0 8 := by
  apply BitVec.eq_of_getLsbD_eq
  intro i hi
  rw [BitVec.getLsbD_append, BitVec.getLsbD_extractLsb', BitVec.getLsbD_extractLsb']
  interval_cases i <;> simp

/-- The two bytes of an element that straddles two lanes. -/
theorem merge_lanes (x y : BitVec 16) :
    x <<< 8 ||| y >>> 8 = x.extractLsb' 0 8 ++ y.extractLsb' 8 8 := by
  apply BitVec.eq_of_getLsbD_eq
  intro i hi
  rw [BitVec.getLsbD_append, BitVec.getLsbD_extractLsb', BitVec.getLsbD_extractLsb']
  interval_cases i <;> simp

/-! ### The moves -/

section Moves

variable (rt rd : Fin 32) (e : Fin 16) (s : Arch)

/-- The register after the two bytes `v` have been loaded to the element. -/
def withElement (x : M128i) (v : BitVec 16) : M128i := ofVecBytes fun i =>
  if e.val ≤ i ∧ i < e.val + 2 then if i = e.val then v.extractLsb' 8 8 else v.extractLsb' 0 8
  else readVecU8 x i

/-- A lane, by where its two bytes lie. -/
theorem withElement_apply (x : M128i) (v : BitVec 16) (j : Fin 8) : withElement e x v j =
    if 2 * j.val = e.val then v
    else if 2 * j.val + 1 = e.val then (x j).extractLsb' 8 8 ++ v.extractLsb' 8 8
    else if 2 * j.val = e.val + 1 then v.extractLsb' 0 8 ++ (x j).extractLsb' 0 8
    else x j := by
  unfold withElement ofVecBytes
  dsimp only
  rw [readVecU8_even, readVecU8_odd]
  by_cases h₁ : 2 * j.val = e.val
  · rw [if_pos (by omega), if_pos h₁, if_pos (by omega), if_neg (by omega), if_pos h₁, append_bytes]
  by_cases h₂ : 2 * j.val + 1 = e.val
  · rw [if_neg (by omega), if_pos (by omega), if_pos h₂, if_neg h₁, if_pos h₂]
  by_cases h₃ : 2 * j.val = e.val + 1
  · rw [if_pos (by omega), if_neg h₁, if_neg (by omega), if_neg h₁, if_neg h₂, if_pos h₃]
  · rw [if_neg (by omega), if_neg (by omega), if_neg h₁, if_neg h₂, if_neg h₃, append_bytes]

/-- `MTC2` writes the vector byte of the element and the next one, if there is one. -/
theorem rspMTC2_eq :
    rspMTC2 rt rd e s = setReg s rd (withElement e (s.cp2.regs rd) ((s.sr rt).setWidth 16)) := by
  unfold rspMTC2
  generalize (s.sr rt).setWidth 16 = v
  generalize s.cp2.regs rd = x
  have hvals (j k : Fin 8) : j = k ↔ j.val = k.val := Fin.ext_iff
  dsimp only
  split
  · rename_i hodd
    split
    · rename_i hlast
      refine congrArg (setReg s rd) (funext fun j => ?_)
      simp only [withElement_apply, Function.update_apply, hvals, merge_low, merge_high]
      rw [if_neg (show ¬2 * j.val = e.val by omega),
        if_neg (show ¬(e.val / 2 + 1) % 8 = e.val / 2 by omega)]
      by_cases hlow : 2 * j.val + 1 = e.val
      · rw [if_neg (by omega), if_pos (show j.val = e.val / 2 by omega), if_pos hlow,
          show (⟨e.val / 2, half_lt_eight e⟩ : Fin 8) = j from Fin.ext (by dsimp only; omega)]
      rw [if_neg hlow]
      by_cases hhigh : 2 * j.val = e.val + 1
      · rw [if_pos (by omega), if_pos hhigh, show (⟨(e.val / 2 + 1) % 8, _⟩ : Fin 8) =
          j from Fin.ext (by dsimp only; omega)]
      · rw [if_neg (by omega), if_neg (by omega), if_neg hhigh]
    · -- only the high byte has a place
      rename_i hlast
      refine congrArg (setReg s rd) (funext fun j => ?_)
      simp only [withElement_apply, Function.update_apply, hvals, merge_low]
      rw [if_neg (show ¬2 * j.val = e.val by omega)]
      by_cases hlow : 2 * j.val + 1 = e.val
      · rw [if_pos (show j.val = e.val / 2 by omega), if_pos hlow,
          show (⟨e.val / 2, half_lt_eight e⟩ : Fin 8) = j from Fin.ext (by dsimp only; omega)]
      · rw [if_neg (by omega), if_neg hlow, if_neg (by omega)]
  · rename_i heven
    refine congrArg (setReg s rd) (funext fun j => ?_)
    simp only [withElement_apply, Function.update_apply, hvals]
    by_cases h : 2 * j.val = e.val
    · rw [if_pos (show j.val = e.val / 2 by omega), if_pos h]
    · rw [if_neg (show ¬j.val = e.val / 2 by omega), if_neg h, if_neg (by omega), if_neg (by omega)]

/-- The halfword of an element: the vector byte and the next one, cyclically. -/
def elementHalf (x : M128i) : BitVec 16 := readVecU8 x e.val ++ readVecU8 x ((e.val + 1) % 16)

/-- `MFC2` reads the halfword of the element. -/
theorem rspMFC2_eq : rspMFC2 rt rd e s =
    if rt = 0 then s else setSr s rt ((elementHalf e (s.cp2.regs rd)).signExtend 32) := by
  unfold rspMFC2
  refine if_congr (show rt.val = (0 : Fin 32).val ↔ rt = 0 from Fin.ext_iff.symm) rfl ?_
  generalize s.cp2.regs rd = x
  dsimp only
  split
  · rename_i hodd
    have hlow : readVecU8 x e.val = (x ⟨e.val / 2, half_lt_eight e⟩).extractLsb' 0 8 := by
      rw [← readVecU8_odd, show 2 * (e.val / 2) + 1 = e.val by omega]
    have hhigh : readVecU8 x ((e.val + 1) % 16) =
        (x ⟨(e.val + 1) / 2 % 8, by omega⟩).extractLsb' 8 8 := by
      rw [← readVecU8_even, show 2 * ((e.val + 1) / 2 % 8) = (e.val + 1) % 16 by omega]
    rw [merge_lanes, elementHalf, hlow, hhigh]
  · rename_i heven
    have hhigh : readVecU8 x e.val = (x ⟨e.val / 2, half_lt_eight e⟩).extractLsb' 8 8 := by
      rw [← readVecU8_even, show 2 * (e.val / 2) = e.val by omega]
    have hlow : readVecU8 x ((e.val + 1) % 16) =
        (x ⟨e.val / 2, half_lt_eight e⟩).extractLsb' 0 8 := by
      rw [← readVecU8_odd, show 2 * (e.val / 2) + 1 = (e.val + 1) % 16 by omega]
    rw [elementHalf, hlow, hhigh, append_bytes]

theorem readVecU8_withElement (x : M128i) (v : BitVec 16) {i : ℕ} (hi : i < 16) :
    readVecU8 (withElement e x v) i =
    if e.val ≤ i ∧ i < e.val + 2 then if i = e.val then v.extractLsb' 8 8
      else v.extractLsb' 0 8 else readVecU8 x i :=
  readVecU8_ofVecBytes _ hi

/-- An element that has both its bytes is read back. -/
theorem elementHalf_withElement (x : M128i) (v : BitVec 16) (he : e.val < 15) :
    elementHalf e (withElement e x v) = v := by
  rw [elementHalf, readVecU8_withElement e x v e.isLt, readVecU8_withElement e x v (by omega),
    Nat.mod_eq_of_lt (show e.val + 1 < 16 by omega), if_pos (by omega), if_pos rfl,
    if_pos (by omega), if_neg (by omega), append_bytes]

end Moves

/-! ### The loads and stores of a halfword -/

section Halves

variable (rt rd base : Fin 32) (offset : Word) (e : Fin 16) (s : Arch)

/-- The halfword at an address, in the view of bytes. -/
theorem readHalf_eq_view (mem : ℕ → Byte) (addr : Word) : Mips.readHalf mem addr =
    view mem (addr.toNat % dmemSize) ++ view mem ((addr.toNat + 1) % dmemSize) := by
  have hnext : (addr + 1#32).toNat % 4096 = (addr.toNat + 1) % dmemSize := by
    rw [BitVec.toNat_add]
    show (addr.toNat + 1) % 2 ^ 32 % 4096 = (addr.toNat + 1) % 4096
    omega
  rw [Mips.readHalf, Mips.readByte, Mips.readByte, hnext]
  rfl

/-- `LSV` loads the halfword at the address. -/
theorem rspLSV_eq : rspLSV e rd base offset s =
    setReg s rd (withElement e (s.cp2.regs rd)
      (Mips.readHalf s.dmem (lsAddr s.sr base offset 2))) := by
  unfold rspLSV
  rw [loadLoop_eq (n := 2) (by omega) (by split <;> omega), bytesIn, readHalf_eq_view]
  refine congrArg (setReg s rd) (ofVecBytes_congr fun i hi =>
    if_ctx_congr Iff.rfl (fun h => ?_) fun _ => rfl)
  by_cases hie : i = e.val
  · rw [if_pos hie, BitVec.extractLsb'_append_eq_left, hie, Nat.sub_self, Nat.add_zero]
  · rw [if_neg hie, BitVec.extractLsb'_append_eq_right, show i - e.val = 1 by omega]

/-- `SSV` stores the halfword of the element. -/
theorem readHalf_writesSSV :
    Mips.readHalf (swc2 .s e rd base offset s).dmem (lsAddr s.sr base offset 2) =
      elementHalf e (s.cp2.regs rd) := by
  generalize hA : lsAddr s.sr base offset 2 = A
  have hstore : (swc2 .s e rd base offset s).dmem = view (Window.fill dmemSize A.toNat 2
      (fun k => readVecU8 (s.cp2.regs rd) ((e.val + k) % 16)) (view s.dmem)) := by
    refine applyWrites_window (by decide) fun w => ?_
    have h₀ : writeMemU8 (A &&& 0xfff#32) (readVecU8 (s.cp2.regs rd) e) =
        windowWrite A.toNat (fun k => readVecU8 (s.cp2.regs rd) ((e.val + k) % 16)) 0 := by
      rw [writeMemU8, windowWrite, BitVec.toNat_xor, Bits.toNat_and_fff, Nat.add_zero, Nat.add_zero,
        Nat.mod_eq_of_lt e.isLt]
      rfl
    have h₁ : writeMemU8 (((A &&& 0xfff#32) + 1#32) &&& 0xfff#32)
        (readVecU8 (s.cp2.regs rd) ((e.val + 1) % 16)) =
        windowWrite A.toNat (fun k => readVecU8 (s.cp2.regs rd) ((e.val + k) % 16)) 1 := by
      have hmask := toNat_add_masked (A &&& 0xfff#32) (k := 1) (by norm_num)
      rw [← Nat.mod_add_mod, masked_mod, Nat.mod_add_mod] at hmask
      rw [writeMemU8, windowWrite, BitVec.toNat_xor]
      exact Prod.ext (congrArg (· ^^^ 3) hmask) rfl
    simp only [storeWrites, writesSSV, hA, h₀, h₁, List.mem_cons, List.not_mem_nil, or_false]
    constructor
    · rintro (rfl | rfl)
      · exact ⟨0, by norm_num, rfl⟩
      · exact ⟨1, by norm_num, rfl⟩
    · rintro ⟨k, hk, rfl⟩
      rcases (by omega : k = 0 ∨ k = 1) with rfl | rfl
      · exact Or.inl rfl
      · exact Or.inr rfl
  have hbyte (k : ℕ) (hk : k < 2) :
      view (swc2 .s e rd base offset s).dmem ((A.toNat + k) % dmemSize) =
      readVecU8 (s.cp2.regs rd) ((e.val + k) % 16) := by
    rw [hstore, view_view, Window.fill_apply_add hk (by decide)]
  rw [readHalf_eq_view, elementHalf]
  refine congrArg₂ (fun x y : Byte => x ++ y) ((hbyte 0 (by norm_num)).trans ?_)
    (hbyte 1 (by norm_num))
  rw [Nat.add_zero, Nat.mod_eq_of_lt e.isLt]

end Halves

/-- The moves of an element and the loads and stores of a halfword see the same bytes. `MTC2`
changes the register as `LSV` does where DMEM holds the low half of the scalar, `MFC2` returns, with
its sign, the halfword `SSV` stores, a halfword moved to any element but the last comes back, and no
other byte of any register changes. -/
theorem element_moves (b : Build) (rt rd base : Fin 32) (offset : Word) (e : Fin 16) (s : Arch) :
    (Mips.readHalf s.dmem (lsAddr s.sr base offset 2) = (s.sr rt).setWidth 16 →
      rspMTC2 rt rd e s = lwc2 b .s e rd base offset s) ∧
    (rspMFC2 rt rd e s = if rt = 0 then s else
      setSr s rt ((Mips.readHalf (swc2 .s e rd base offset s).dmem
        (lsAddr s.sr base offset 2)).signExtend 32)) ∧
    (e.val < 15 → ∀ rt' : Fin 32, rspMFC2 rt' rd e (rspMTC2 rt rd e s) =
      if rt' = 0 then rspMTC2 rt rd e s
      else setSr (rspMTC2 rt rd e s) rt' (((s.sr rt).setWidth 16).signExtend 32)) ∧
    (∀ (r : Fin 32) (i : Fin 16), (r = rd → i.val ≠ e.val ∧ i.val ≠ e.val + 1) →
      readVecU8 ((rspMTC2 rt rd e s).cp2.regs r) i = readVecU8 (s.cp2.regs r) i) := by
  refine ⟨fun hmem => ?_, ?_, fun he rt' => ?_, fun r i h => ?_⟩
  · exact (rspMTC2_eq rt rd e s).trans (hmem ▸ (rspLSV_eq rd base offset e s).symm)
  · rw [readHalf_writesSSV]
    exact rspMFC2_eq rt rd e s
  · have hback : elementHalf e ((rspMTC2 rt rd e s).cp2.regs rd) = (s.sr rt).setWidth 16 := by
      rw [rspMTC2_eq]
      exact (congrArg (elementHalf e) (Function.update_self _ _ _)).trans
        (elementHalf_withElement e _ _ he)
    rw [rspMFC2_eq, hback]
  · rw [rspMTC2_eq]
    by_cases hr : r = rd
    · obtain rfl := hr
      obtain ⟨h₀, h₁⟩ := h rfl
      refine (congrArg (readVecU8 · i) (Function.update_self _ _ _)).trans ?_
      rw [readVecU8_withElement e _ _ i.isLt, if_neg (by omega)]
    · exact congrArg (readVecU8 · i) (Function.update_of_ne hr _ _)

/-- A state with the number `0x1234` in register 2 and, as a halfword, at address 0. -/
def movedState : Arch :=
  { Arch.zero with
    sr := Function.update Arch.zero.sr 2 0x1234#32
    dmem := Function.update (Function.update Arch.zero.dmem 3 0x12#8) 2 0x34#8 }

theorem element_moves_odd :
    rspMTC2 2 5 7 movedState = lwc2 .sse41 .s 7 5 1 0#32 movedState ∧
    rspMFC2 3 5 7 (rspMTC2 2 5 7 movedState) = setSr (rspMTC2 2 5 7 movedState) 3 0x1234#32 ∧
    readVecU8 ((rspMTC2 2 5 7 movedState).cp2.regs 5) 6 = readVecU8 (movedState.cp2.regs 5) 6 :=
  have h := element_moves .sse41 2 5 1 0#32 7 movedState
  ⟨h.1 (by decide), h.2.2.1 (by decide) 3, h.2.2.2 5 6 (by decide)⟩

end ParallelRsp.CP
