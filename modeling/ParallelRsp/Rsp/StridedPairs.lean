import ParallelRsp.Rsp.PackedPairs

/-!
# Every other byte and every fourth

`SHV` stores eight bytes, one of each lane, to every other byte of a window of sixteen; `SFV`
stores four, to every fourth. `LHV` and `LFV` load them back. The window starts at a
multiple of eight and its second half may lie beyond the end of DMEM: the loads wrap there,
the stores do not. Below that both address the same bytes.

## What is proved

* `half_pair`: `LHV` brings back the lanes that `SHV` stored, rotated by what the two elements
  differ.
* `fourth_pair`: `LFV` brings back, to the half its element selects, the four lanes that `SFV`
  stored.
* `strided_pair`: both, under the one condition on the address.
-/

namespace ParallelRsp.LS

open Simd Bits

/-- What has been stored to addresses of its own is what is read there. -/
theorem readMemU8_applyWrites (mem : ℕ → Byte) {n : ℕ} (addr : ℕ → Word) (data : ℕ → Byte)
    (hinj : ∀ j < n, ∀ k < n, addr j = addr k → j = k) {k : ℕ} (hk : k < n) :
    readMemU8 (applyWrites mem ((List.range n).map fun k => writeMemU8 (addr k) (data k)))
      (addr k) = data k := by
  have hmem : ∀ d i,
      (d, i) ∈ ((List.range n).map fun k => writeMemU8 (addr k) (data k)).map Prod.swap ↔
        ∃ j < n, d = data j ∧ i = (addr j ^^^ 3#32).toNat := by
    intro d i
    simp [writeMemU8, eq_comm]
  have hsingle : Copy.Single
      (((List.range n).map fun k => writeMemU8 (addr k) (data k)).map Prod.swap) := by
    intro d d' i hd hd'
    obtain ⟨j, hj, rfl, rfl⟩ := (hmem _ _).1 hd
    obtain ⟨j', hj', rfl, hi⟩ := (hmem _ _).1 hd'
    have haddr : addr j = addr j' := (BitVec.xor_left_inj _).mp (BitVec.eq_of_toNat_eq hi)
    rw [hinj j hj j' hj' haddr]
  rw [readMemU8, applyWrites_eq_copy]
  exact hsingle.copy_of_mem ((hmem _ _).2 ⟨k, hk, rfl, rfl⟩)

/-- The byte of a lane that `SHV` puts together. -/
theorem half_byte (v : M128i) (i : Fin 8) :
    readVecU8 v (2 * i.val) <<< 1 ||| readVecU8 v (2 * i.val + 1) >>> 7 =
      ((v i).sshiftRight 7).setWidth 8 := by
  rw [readVecU8_even, readVecU8_odd]
  apply BitVec.eq_of_getLsbD_eq
  intro k hk
  interval_cases k <;> simp [BitVec.getElem_sshiftRight]

/-! ### The window -/

section Window

variable (A : Word)

/-- Byte `o` of the window of `A`. -/
def windowAddr (o : ℕ) : Word := addrOf (A.toNat % 4096 / 8 * 8 + o % 16)

/-- The stores do not mask the address again. -/
theorem store_window (off : Word) :
    ((A &&& 0xfff#32) &&& ~~~7#32) + (off &&& 0xf#32) = windowAddr A off.toNat := by
  apply BitVec.eq_of_toNat_eq
  rw [toNat_window (masked_lt A), windowAddr, toNat_addrOf (by omega), toNat_and_fff]

/-- The loads do, which makes no difference where the window is in DMEM. -/
theorem load_window (h : A.toNat % 4096 < 0xff8) (off : Word) :
    ((A &&& ~~~7#32) + (off &&& 0xf#32)) &&& 0xfff#32 = windowAddr A off.toNat := by
  apply BitVec.eq_of_toNat_eq
  rw [toNat_and_fff, BitVec.toNat_add, toNat_and_not_7, toNat_and_15, windowAddr,
    toNat_addrOf (by omega)]
  have := A.isLt
  omega

theorem windowAddr_inj {o o' : ℕ} (h : windowAddr A o = windowAddr A o') : o % 16 = o' % 16 := by
  have hnat := congrArg BitVec.toNat h
  rw [windowAddr, windowAddr, toNat_addrOf (by omega), toNat_addrOf (by omega)] at hnat
  omega

theorem windowAddr_congr {o o' : ℕ} (h : o % 16 = o' % 16) : windowAddr A o = windowAddr A o' := by
  rw [windowAddr, windowAddr, h]

end Window

/-! ### Every other byte -/

section Half

variable (e : Fin 16) (rt base : Fin 32) (offset : Word) (s : Arch)

/-- `SHV` with an even element stores one byte of each lane, the lane of the element first. -/
theorem writesSHV_eq (he : e.val % 2 = 0) : writesSHV e rt base offset s =
    (List.range 8).map fun k =>
      writeMemU8 (windowAddr (lsAddr s.sr base offset 16)
          ((lsAddr s.sr base offset 16).toNat % 8 + 2 * k))
        (((s.cp2.regs rt ⟨(e.val / 2 + k) % 8, Nat.mod_lt _ (by decide)⟩).sshiftRight
          7).setWidth 8) := by
  unfold writesSHV
  refine List.map_congr_left fun k hk => ?_
  have hk := List.mem_range.mp hk
  dsimp only
  rw [store_window]
  congr 1
  · refine windowAddr_congr _ ?_
    rw [BitVec.toNat_add, toNat_and_7, toNat_and_fff, BitVec.toNat_mul, toNat_addrOf (by omega),
      show (2#32 : Word).toNat = 2 from rfl]
    omega
  · rw [← half_byte]
    dsimp only
    rw [show (e.val + 2 * k) % 16 = 2 * ((e.val / 2 + k) % 8) by omega,
      show (e.val + 2 * k + 1) % 16 = 2 * ((e.val / 2 + k) % 8) + 1 by omega]

/-- `LHV` with an even element. -/
theorem rspLHV_eq (he : e.val % 2 = 0) (h : (lsAddr s.sr base offset 16).toNat % 4096 < 0xff8) :
    rspLHV e rt base offset s = setReg s rt fun i =>
      (readMemU8 s.dmem (windowAddr (lsAddr s.sr base offset 16)
        ((lsAddr s.sr base offset 16).toNat % 8 + 2 * ((i.val + 8 - e.val / 2) % 8)))).setWidth
          16 <<< 7 := by
  unfold rspLHV
  generalize lsAddr s.sr base offset 16 = A at h ⊢
  refine congrArg (setReg s rt) (funext fun i => ?_)
  have hoff : ((A &&& 7#32) - addrOf e + addrOf i * 2#32).toNat % 16 =
      (A.toNat % 8 + 2 * ((i.val + 8 - e.val / 2) % 8)) % 16 := by
    clear h
    have he : (addrOf e).toNat = e.val := toNat_addrOf (by omega)
    have hi : (addrOf i).toNat = i.val := toNat_addrOf (by omega)
    rw [BitVec.toNat_add, BitVec.toNat_sub, toNat_and_7, BitVec.toNat_mul, he, hi,
      show (2#32 : Word).toNat = 2 from rfl]
    omega
  rw [load_window _ h, windowAddr_congr _ hoff]

end Half

/-- Stored by `SHV` and loaded by `LHV` from the same address, with even elements. -/
theorem half_pair (b : Build) (e e' : Fin 16) (rt rt' base : Fin 32) (offset : Word) (s : Arch)
    (he : e.val % 2 = 0) (he' : e'.val % 2 = 0)
    (h : (lsAddr s.sr base offset 16).toNat % 4096 < 0xff8) :
    lwc2 b .h e' rt' base offset (swc2 .h e rt base offset s) =
      setReg (swc2 .h e rt base offset s) rt' fun i =>
        s.cp2.regs rt ⟨(e.val / 2 + (i.val + 8 - e'.val / 2) % 8) % 8, by omega⟩ &&& 0x7f80#16 := by
  refine (rspLHV_eq e' rt' base offset (swc2 .h e rt base offset s) he' h).trans
    (congrArg (setReg _ rt') (funext fun i => ?_))
  have hread := readMemU8_applyWrites s.dmem
    (fun k => windowAddr (lsAddr s.sr base offset 16)
      ((lsAddr s.sr base offset 16).toNat % 8 + 2 * k))
    (fun k => ((s.cp2.regs rt ⟨(e.val / 2 + k) % 8, Nat.mod_lt _ (by decide)⟩).sshiftRight
      7).setWidth 8)
    (fun j hj k hk hjk => by
      have := windowAddr_inj _ hjk
      omega)
    (show (i.val + 8 - e'.val / 2) % 8 < 8 by omega)
  rw [← writesSHV_eq e rt base offset s he] at hread
  exact (congrArg (fun y : Byte => y.setWidth 16 <<< 7) hread).trans (packed_lane _).2

/-! ### Every fourth byte -/

section Fourth

variable (e : Fin 16) (rt base : Fin 32) (offset : Word) (s : Arch)

/-- `SFV` stores four bytes. -/
theorem writesSFV_eq : writesSFV e rt base offset s =
    (List.range 4).map fun k =>
      writeMemU8 (windowAddr (lsAddr s.sr base offset 16)
          ((lsAddr s.sr base offset 16).toNat % 8 + 4 * k))
        (sfvBytes e rt s ⟨k % 4, by omega⟩) := by
  unfold writesSFV
  generalize lsAddr s.sr base offset 16 = A
  have hindex : ((A &&& 0xfff#32) &&& 7#32).toNat = A.toNat % 8 := by
    rw [toNat_and_7, toNat_and_fff]
    omega
  -- the first two addresses are sums without a mask: the offset is below sixteen
  have hlow : ∀ c < 8, (A &&& 0xfff#32 &&& ~~~7#32) + BitVec.ofNat 32 c +
      (A &&& 0xfff#32 &&& 7#32) = windowAddr A (A.toNat % 8 + c) := by
    intro c hc
    apply BitVec.eq_of_toNat_eq
    rw [BitVec.toNat_add, BitVec.toNat_add, hindex, toNat_and_not_7, toNat_and_fff, windowAddr,
      toNat_addrOf (by omega), BitVec.toNat_ofNat]
    omega
  have hhigh : ∀ c < 16, (A &&& 0xfff#32 &&& ~~~7#32) +
      ((BitVec.ofNat 32 c + (A &&& 0xfff#32 &&& 7#32)) &&& 0xf#32) =
      windowAddr A (A.toNat % 8 + c) := by
    intro c hc
    rw [store_window, BitVec.toNat_add, hindex, BitVec.toNat_ofNat]
    exact windowAddr_congr A (by omega)
  have h0 := hlow 0 (by norm_num)
  rw [show (BitVec.ofNat 32 0) = 0#32 from rfl, BitVec.add_zero] at h0
  dsimp only
  rw [h0, hlow 4 (by norm_num), hhigh 8 (by norm_num), hhigh 12 (by norm_num)]
  rfl

/-- A part of a register overwritten, byte by byte. -/
theorem writeVecU8_foldl (v temp : M128i) (start : ℕ) {n : ℕ} (hn : start + n ≤ 16) :
    (List.range n).foldl (fun v k => writeVecU8 v (start + k) (readVecU8 temp (start + k))) v =
      ofVecBytes fun i =>
        if start ≤ i ∧ i < start + n then readVecU8 temp i else readVecU8 v i := by
  induction n with
  | zero => exact eq_ofVecBytes fun i _ => (if_neg (by omega)).symm
  | succ n ih =>
    rw [List.range_succ, List.foldl_append, ih (by omega), List.foldl_cons, List.foldl_nil]
    refine eq_ofVecBytes fun i hi => ?_
    rw [readVecU8_writeVecU8 _ _ _ (by omega) hi, readVecU8_ofVecBytes _ hi]
    by_cases hlast : i = start + n
    · subst hlast
      rw [if_pos rfl, if_pos (by omega)]
    · rw [if_neg hlast]
      exact if_congr (by omega) rfl rfl

/-- Eight of them are a half. -/
theorem writeVecU8_half (v temp : M128i) (he : e.val % 8 = 0) (i : Fin 8) :
    (List.range 8).foldl (fun v k => writeVecU8 v (e.val + k) (readVecU8 temp (e.val + k))) v i =
      if i.val / 4 = e.val / 8 then temp i else v i := by
  rw [writeVecU8_foldl _ _ _ (by omega), ofVecBytes]
  by_cases hi : i.val / 4 = e.val / 8
  · rw [if_pos hi, if_pos (by omega), if_pos (by omega), readVecU8_even, readVecU8_odd,
      append_bytes]
  · rw [if_neg hi, if_neg (by omega), if_neg (by omega), readVecU8_even, readVecU8_odd,
      append_bytes]

/-- The offset of lane `i` in the window of `LFV`, for a lane of the half that is loaded. -/
theorem lfv_offset (A : Word) (he : e.val % 8 = 0) {i : Fin 8} (hi : i.val / 4 = e.val / 8) :
    (if i.val < 4 then (A &&& 7#32) - addrOf e + addrOf i * 4#32
      else (A &&& 7#32) - addrOf e + addrOf (i.val - 4) * 4#32 + 8#32).toNat % 16 =
      (A.toNat % 8 + 4 * (i.val % 4)) % 16 := by
  have haddr : ∀ n < 16, (addrOf n).toNat = n := fun n hn => toNat_addrOf (by omega)
  split
  · rw [BitVec.toNat_add, BitVec.toNat_sub, toNat_and_7, BitVec.toNat_mul, haddr e (by omega),
      haddr i (by omega), show (4#32 : Word).toNat = 4 from rfl]
    omega
  · rw [BitVec.toNat_add, BitVec.toNat_add, BitVec.toNat_sub, toNat_and_7, BitVec.toNat_mul,
      haddr e (by omega), haddr (i - 4) (by omega), show (4#32 : Word).toNat = 4 from rfl,
      show (8#32 : Word).toNat = 8 from rfl]
    omega

/-- `LFV` loads the half that its element names. -/
theorem rspLFV_eq (he : e.val % 8 = 0) (h : (lsAddr s.sr base offset 16).toNat % 4096 < 0xff8) :
    rspLFV e rt base offset s = setReg s rt fun i =>
      if i.val / 4 = e.val / 8 then
        (readMemU8 s.dmem (windowAddr (lsAddr s.sr base offset 16)
          ((lsAddr s.sr base offset 16).toNat % 8 + 4 * (i.val % 4)))).setWidth 16 <<< 7
      else s.cp2.regs rt i := by
  unfold rspLFV
  generalize lsAddr s.sr base offset 16 = A at h ⊢
  have hstop : (if e.val > 8 then 16 else e.val + 8) - e.val = 8 := by
    clear h
    split <;> omega
  refine congrArg (setReg s rt) (funext fun i => ?_)
  dsimp only
  rw [hstop, writeVecU8_half e _ _ he i]
  by_cases hi : i.val / 4 = e.val / 8
  · rw [if_pos hi, if_pos hi, load_window A h, windowAddr_congr A (lfv_offset e A he hi)]
  · rw [if_neg hi, if_neg hi]

end Fourth

/-- Stored by `SFV` and loaded by `LFV` from the same address, with element 0 or 8. -/
theorem fourth_pair (b : Build) (e e' : Fin 16) {lanes : Fin 4 → Fin 8} (rt rt' base : Fin 32)
    (offset : Word) (s : Arch) (he : sfvLanes e = some lanes) (he' : e'.val % 8 = 0)
    (h : (lsAddr s.sr base offset 16).toNat % 4096 < 0xff8) :
    lwc2 b .f e' rt' base offset (swc2 .f e rt base offset s) =
      setReg (swc2 .f e rt base offset s) rt' fun i =>
        if i.val / 4 = e'.val / 8 then
          s.cp2.regs rt (lanes ⟨i.val % 4, by omega⟩) &&& 0x7f80#16
        else s.cp2.regs rt' i := by
  refine (rspLFV_eq e' rt' base offset (swc2 .f e rt base offset s) he' h).trans
    (congrArg (setReg _ rt') (funext fun i => ?_))
  refine if_congr .rfl ?_ rfl
  have hread := readMemU8_applyWrites s.dmem
    (fun k => windowAddr (lsAddr s.sr base offset 16)
      ((lsAddr s.sr base offset 16).toNat % 8 + 4 * k))
    (fun k => sfvBytes e rt s ⟨k % 4, by omega⟩)
    (fun j hj k hk hjk => by
      have := windowAddr_inj _ hjk
      omega)
    (show i.val % 4 < 4 by omega)
  rw [← writesSFV_eq e rt base offset s] at hread
  refine (congrArg (fun y : Byte => y.setWidth 16 <<< 7) hread).trans ?_
  simp only [sfvBytes, he, Nat.mod_mod]
  exact (packed_lane _).2

/-- Below the last eight bytes of DMEM the loads bring back what the stores put down, of each lane
the eight bits below the sign. -/
theorem strided_pair (b : Build) (rt rt' base : Fin 32) (offset : Word) (s : Arch)
    (h : (lsAddr s.sr base offset 16).toNat % 4096 < 0xff8) :
    (∀ e e' : Fin 16, e.val % 2 = 0 → e'.val % 2 = 0 →
      lwc2 b .h e' rt' base offset (swc2 .h e rt base offset s) =
        setReg (swc2 .h e rt base offset s) rt' fun i =>
          s.cp2.regs rt ⟨(e.val / 2 + (i.val + 8 - e'.val / 2) % 8) % 8, by omega⟩ &&&
            0x7f80#16) ∧
    ∀ (e e' : Fin 16) (lanes : Fin 4 → Fin 8), sfvLanes e = some lanes → e'.val % 8 = 0 →
      lwc2 b .f e' rt' base offset (swc2 .f e rt base offset s) =
        setReg (swc2 .f e rt base offset s) rt' fun i =>
          if i.val / 4 = e'.val / 8 then
            s.cp2.regs rt (lanes ⟨i.val % 4, by omega⟩) &&& 0x7f80#16
          else s.cp2.regs rt' i :=
  ⟨fun e e' he he' => half_pair b e e' rt rt' base offset s he he' h,
    fun e e' _ he he' => fourth_pair b e e' rt rt' base offset s he he' h⟩

/-- Seven bytes into a line, with the elements 2 and 0 of `SHV` and `LHV`. -/
theorem strided_pair_unaligned :
    let s : Arch := { Arch.zero with
      sr := fun _ => 0x107#32
      cp2 := { CP2.zero with regs := fun _ i => BitVec.ofNat 16 (0x1ff * i.val) } }
    (lwc2 .sse2 .h 0 3 1 0#32 (swc2 .h 2 2 1 0#32 s)).cp2.regs 3 0 = 0x180#16 := by
  intro s
  rw [(strided_pair .sse2 2 3 1 0#32 s (by decide)).1 2 0 (by decide) (by decide), setReg_self]
  decide

end ParallelRsp.LS
