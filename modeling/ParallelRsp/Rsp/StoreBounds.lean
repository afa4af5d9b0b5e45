import ParallelRsp.Bits
import ParallelRsp.Rsp.LoadStore

/-!
# Where vector stores write

DMEM ends at index 4096. Seven of the twelve vector stores mask every address they
write, or round the start down so that the rest of the window follows; five do not.
`SLV` masks the start only and runs over the end from the last three bytes on, and
`SHV`, `SFV`, `SWV` and `STV` write into a window of sixteen bytes that starts at a
multiple of eight, which passes the end when the start lies in the last eight bytes.

## What is proved

`storeInDmem_iff`: a store keeps within DMEM exactly when its start address is not one
of those, for every operation, element, register, offset and state.
-/

namespace ParallelRsp.LS

open Simd Bits

/-- Every byte the store writes lies in DMEM, and nothing but DMEM changes. -/
def StoreInDmem (op : LsOp) (e : Fin 16) (rt base : Fin 32) (offset : Word) (s : Arch) : Prop :=
  (∀ w ∈ storeWrites op e rt base offset s, w.1 < dmemSize) ∧
    { swc2 op e rt base offset s with dmem := s.dmem } = s

/-- What an operation scales its offset by. -/
def LsOp.scale : LsOp → ℕ
  | .b => 1
  | .s => 2
  | .l => 4
  | .d | .p | .u => 8
  | .q | .r | .h | .f | .w | .t => 16

/-- The start addresses, of those the source masks to, from which an operation runs over
the end of DMEM. -/
def LsOp.overruns (op : LsOp) (addr : Word) : Prop :=
  match op with
  | .l => 0xffc < addr.toNat
  | .h | .f | .w | .t => 0xff8 ≤ addr.toNat
  | _ => False

/-! ### Addresses -/

/-- The byte order of the host does not leave the word. -/
theorem writeMemU8_lt (addr : Word) (data : Byte) :
    (writeMemU8 addr data).1 < dmemSize ↔ addr.toNat < dmemSize :=
  toNat_xor_lt_iff addr 3#32 12 (by norm_num)

theorem masked_lt (addr : Word) : (addr &&& 0xfff#32).toNat < dmemSize := by
  rw [toNat_and_fff]
  exact Nat.mod_lt _ (by norm_num)

theorem toNat_addrOf {n : ℕ} (h : n < 2 ^ 32) : (addrOf n).toNat = n := by
  rw [addrOf, BitVec.toNat_ofNat, Nat.mod_eq_of_lt h]

/-- A start and a small index, without overflow. -/
theorem toNat_add_addrOf {addr : Word} {k : ℕ} (ha : addr.toNat < dmemSize) (hk : k < 16) :
    (addr + addrOf k).toNat = addr.toNat + k := by
  unfold dmemSize at ha
  rw [BitVec.toNat_add, toNat_addrOf (by omega), Nat.mod_eq_of_lt (by omega)]

/-- An index into the window of sixteen bytes from a start rounded down to eight. -/
theorem toNat_window {addr off : Word} (ha : addr.toNat < dmemSize) :
    ((addr &&& ~~~7#32) + (off &&& 0xf#32)).toNat = addr.toNat / 8 * 8 + off.toNat % 16 := by
  unfold dmemSize at ha
  rw [BitVec.toNat_add, toNat_and_not_7, toNat_and_15, Nat.mod_eq_of_lt (by omega)]

/-- The window passes the end of DMEM from its second half on, when it starts in the last
eight bytes. -/
theorem window_lt_iff {addr off : Word} (ha : addr.toNat < dmemSize) (data : Byte) :
    (writeMemU8 ((addr &&& ~~~7#32) + (off &&& 0xf#32)) data).1 < dmemSize ↔
      addr.toNat < 0xff8 ∨ off.toNat % 16 < 8 := by
  rw [writeMemU8_lt, toNat_window ha]
  unfold dmemSize at *
  omega

/-! ### The stores that keep within DMEM -/

section InBounds

variable (e : Fin 16) (rt base : Fin 32) (offset : Word) (s : Arch)

theorem writesSBV_lt : ∀ w ∈ writesSBV e rt base offset s, w.1 < dmemSize := by
  intro w hw
  simp only [writesSBV, List.mem_singleton] at hw
  rw [hw, writeMemU8_lt]
  exact masked_lt _

theorem writesSSV_lt : ∀ w ∈ writesSSV e rt base offset s, w.1 < dmemSize := by
  intro w hw
  simp only [writesSSV, List.mem_cons, List.not_mem_nil, or_false] at hw
  rcases hw with rfl | rfl
  · rw [writeMemU8_lt]
    exact masked_lt _
  · rw [writeMemU8_lt]
    exact masked_lt _

theorem storeHalves_lt {v : M128i} {first n : ℕ} {addr : Word} (h : addr.toNat + 2 * n ≤ dmemSize) :
    ∀ w ∈ storeHalves v first n addr, w.1 < dmemSize := by
  intro w hw
  simp only [storeHalves, List.mem_flatMap, List.mem_range, List.mem_cons, List.not_mem_nil,
    or_false] at hw
  rcases hw with ⟨k, hk, rfl | rfl⟩
  · show addr.toNat + 2 * k < dmemSize
    omega
  · show addr.toNat + 2 * k + 1 < dmemSize
    omega

theorem writeMemU16_lt {addr : Word} (h : addr.toNat < dmemSize) (data : BitVec 16) :
    ∀ w ∈ writeMemU16 addr data, w.1 < dmemSize := by
  have hx : (addr ^^^ 2#32).toNat < 2 ^ 12 := (toNat_xor_lt_iff addr 2#32 12 (by norm_num)).mpr h
  intro w hw
  simp only [writeMemU16, List.mem_cons, List.not_mem_nil, or_false, BitVec.toNat_ushiftRight,
    Nat.shiftRight_eq_div_pow] at hw
  unfold dmemSize
  rcases hw with rfl | rfl
  · show 2 * ((addr ^^^ 2#32).toNat / 2 ^ 1) < 4096
    omega
  · show 2 * ((addr ^^^ 2#32).toNat / 2 ^ 1) + 1 < 4096
    omega

theorem writesSDV_lt : ∀ w ∈ writesSDV e rt base offset s, w.1 < dmemSize := by
  intro w hw
  unfold writesSDV at hw
  have ha := masked_lt (lsAddr s.sr base offset 8)
  generalize lsAddr s.sr base offset 8 &&& 0xfff#32 = addr at hw ha
  dsimp only at hw
  split at hw
  · obtain ⟨k, -, rfl⟩ := List.mem_map.mp hw
    rw [writeMemU8_lt]
    exact masked_lt _
  split at hw
  · next h =>
    have h8 := congrArg BitVec.toNat h.2
    rw [toNat_and_7] at h8
    apply storeHalves_lt _ w hw
    unfold dmemSize at *
    have : (0#32).toNat = 0 := rfl
    omega
  · obtain ⟨k, -, hk⟩ := List.mem_flatMap.mp hw
    exact writeMemU16_lt (masked_lt _) _ w hk

theorem writesPacked_lt (s0 s1 : ℕ) :
    ∀ w ∈ writesPacked e rt base offset s s0 s1, w.1 < dmemSize := by
  intro w hw
  obtain ⟨k, -, rfl⟩ := List.mem_map.mp hw
  rw [writeMemU8_lt]
  exact masked_lt _

theorem quadLoop_lt {n : ℕ} {addr : Word} (hn : n ≤ 16) (h : addr.toNat + n ≤ dmemSize) :
    ∀ w ∈ quadLoop e rt s n addr, w.1 < dmemSize := by
  intro w hw
  obtain ⟨k, hk, rfl⟩ := List.mem_map.mp hw
  have hk := List.mem_range.mp hk
  rw [writeMemU8_lt, toNat_add_addrOf (by omega) (by omega)]
  omega

theorem writesSQV_lt : ∀ w ∈ writesSQV e rt base offset s, w.1 < dmemSize := by
  intro w hw
  unfold writesSQV at hw
  have ha := masked_lt (lsAddr s.sr base offset 16)
  generalize lsAddr s.sr base offset 16 &&& 0xfff#32 = addr at hw ha
  dsimp only at hw
  have h16 := toNat_and_15 addr
  unfold dmemSize at ha
  split at hw
  · next h =>
    have h0 : addr.toNat % 16 = 0 := by rw [← h16, h]; rfl
    split at hw
    · exact storeHalves_lt (by unfold dmemSize; omega) w hw
    · exact quadLoop_lt e rt s le_rfl (by unfold dmemSize; omega) w hw
  · exact quadLoop_lt e rt s (by omega) (by unfold dmemSize; omega) w hw

theorem writesSRV_lt : ∀ w ∈ writesSRV e rt base offset s, w.1 < dmemSize := by
  intro w hw
  unfold writesSRV at hw
  have ha := masked_lt (lsAddr s.sr base offset 16)
  generalize lsAddr s.sr base offset 16 &&& 0xfff#32 = addr at hw ha
  dsimp only at hw
  split at hw
  · simp at hw
  · obtain ⟨k, hk, rfl⟩ := List.mem_map.mp hw
    have hk := List.mem_range.mp hk
    rw [toNat_and_15] at hk
    have hr := toNat_and_not_15 addr
    unfold dmemSize at ha
    rw [writeMemU8_lt, toNat_add_addrOf (by unfold dmemSize; omega) (by omega)]
    unfold dmemSize
    omega

end InBounds

/-! ### The stores that can run over the end -/

section Overruns

variable (e : Fin 16) (rt base : Fin 32) (offset : Word) (s : Arch)

theorem writesSLV_lt_iff :
    (∀ w ∈ writesSLV e rt base offset s, w.1 < dmemSize) ↔
      (lsAddr s.sr base offset 4 &&& 0xfff#32).toNat ≤ 0xffc := by
  unfold writesSLV
  have ha := masked_lt (lsAddr s.sr base offset 4)
  generalize lsAddr s.sr base offset 4 &&& 0xfff#32 = addr at ha ⊢
  constructor
  · intro h
    have h3 := h _ (List.mem_map.mpr ⟨3, List.mem_range.mpr (by norm_num), rfl⟩)
    rw [writeMemU8_lt, toNat_add_addrOf ha (by norm_num)] at h3
    unfold dmemSize at h3
    omega
  · intro h w hw
    obtain ⟨k, hk, rfl⟩ := List.mem_map.mp hw
    have hk := List.mem_range.mp hk
    rw [writeMemU8_lt, toNat_add_addrOf ha (by omega)]
    unfold dmemSize
    omega

/-- A store through the window whose offsets reach the second half keeps within DMEM
exactly when the window does. -/
theorem window_writes_iff {addr : Word} (ha : addr.toNat < dmemSize) {n : ℕ} (off : ℕ → Word)
    (data : ℕ → Byte) (hreach : ∃ k < n, 8 ≤ (off k).toNat % 16) :
    (∀ w ∈ (List.range n).map fun k =>
        writeMemU8 ((addr &&& ~~~7#32) + (off k &&& 0xf#32)) (data k), w.1 < dmemSize) ↔
      addr.toNat < 0xff8 := by
  constructor
  · intro h
    obtain ⟨k, hk, h8⟩ := hreach
    have hw := h _ (List.mem_map.mpr ⟨k, List.mem_range.mpr hk, rfl⟩)
    rw [window_lt_iff ha] at hw
    omega
  · intro h w hw
    obtain ⟨k, -, rfl⟩ := List.mem_map.mp hw
    rw [window_lt_iff ha]
    exact Or.inl h

/-- Sixteen consecutive offsets reach the second half of the window. -/
theorem reach_second_half (index : Word) : ∃ k < 16, 8 ≤ (index + addrOf k).toNat % 16 := by
  refine ⟨(24 - index.toNat % 16) % 16, by omega, ?_⟩
  rw [BitVec.toNat_add, toNat_addrOf (by omega)]
  omega

theorem writesSHV_lt_iff :
    (∀ w ∈ writesSHV e rt base offset s, w.1 < dmemSize) ↔
      (lsAddr s.sr base offset 16 &&& 0xfff#32).toNat < 0xff8 := by
  unfold writesSHV
  have ha := masked_lt (lsAddr s.sr base offset 16)
  generalize lsAddr s.sr base offset 16 &&& 0xfff#32 = addr at ha ⊢
  refine window_writes_iff ha (fun i => (addr &&& 7#32) + addrOf i * 2#32) _ ⟨4, by norm_num, ?_⟩
  show 8 ≤ ((addr &&& 7#32) + 8#32).toNat % 16
  rw [BitVec.toNat_add, toNat_and_7]
  show 8 ≤ (addr.toNat % 8 + 8) % 2 ^ 32 % 16
  omega

theorem writesSWV_lt_iff :
    (∀ w ∈ writesSWV e rt base offset s, w.1 < dmemSize) ↔
      (lsAddr s.sr base offset 16 &&& 0xfff#32).toNat < 0xff8 :=
  window_writes_iff (masked_lt _) _ _ (reach_second_half _)

theorem writesSTV_lt_iff :
    (∀ w ∈ writesSTV e rt base offset s, w.1 < dmemSize) ↔
      (lsAddr s.sr base offset 16 &&& 0xfff#32).toNat < 0xff8 :=
  window_writes_iff (masked_lt _) _ _ (reach_second_half _)

theorem writesSFV_lt_iff :
    (∀ w ∈ writesSFV e rt base offset s, w.1 < dmemSize) ↔
      (lsAddr s.sr base offset 16 &&& 0xfff#32).toNat < 0xff8 := by
  unfold writesSFV
  have ha := masked_lt (lsAddr s.sr base offset 16)
  generalize lsAddr s.sr base offset 16 &&& 0xfff#32 = addr at ha ⊢
  have h7 := toNat_and_7 addr
  have hlow := toNat_and_not_7 addr
  have h8 : (8#32 + (addr &&& 7#32)).toNat = 8 + addr.toNat % 8 := by
    rw [BitVec.toNat_add, h7]
    show (8 + addr.toNat % 8) % 2 ^ 32 = _
    omega
  constructor
  · intro h
    have hc := h _ (List.mem_cons_of_mem _ (List.mem_cons_of_mem _ List.mem_cons_self))
    rw [window_lt_iff ha, h8] at hc
    omega
  · intro h w hw
    simp only [List.mem_cons, List.not_mem_nil, or_false] at hw
    unfold dmemSize at ha ⊢
    rcases hw with rfl | rfl | rfl | rfl
    · rw [← dmemSize, writeMemU8_lt, BitVec.toNat_add, hlow, h7]
      unfold dmemSize
      omega
    · rw [← dmemSize, writeMemU8_lt, BitVec.toNat_add, BitVec.toNat_add, hlow, h7]
      unfold dmemSize
      show ((addr.toNat / 8 * 8 + 4) % 2 ^ 32 + addr.toNat % 8) % 2 ^ 32 < 4096
      omega
    · rw [← dmemSize, window_lt_iff ha]
      exact Or.inl h
    · rw [← dmemSize, window_lt_iff ha]
      exact Or.inl h

end Overruns

/-! ### The main result -/

/-- A vector store keeps within DMEM exactly when its start is not one of those from which
it runs over the end. -/
theorem storeInDmem_iff (op : LsOp) (e : Fin 16) (rt base : Fin 32) (offset : Word) (s : Arch) :
    StoreInDmem op e rt base offset s ↔
      ¬ op.overruns (lsAddr s.sr base offset op.scale &&& 0xfff#32) := by
  have hframe : { swc2 op e rt base offset s with dmem := s.dmem } = s := rfl
  unfold StoreInDmem
  rw [and_iff_left hframe]
  cases op with
  | b => exact iff_of_true (writesSBV_lt e rt base offset s) id
  | s => exact iff_of_true (writesSSV_lt e rt base offset s) id
  | l => exact (writesSLV_lt_iff e rt base offset s).trans not_lt.symm
  | d => exact iff_of_true (writesSDV_lt e rt base offset s) id
  | q => exact iff_of_true (writesSQV_lt e rt base offset s) id
  | r => exact iff_of_true (writesSRV_lt e rt base offset s) id
  | p => exact iff_of_true (writesPacked_lt e rt base offset s 8 7) id
  | u => exact iff_of_true (writesPacked_lt e rt base offset s 7 8) id
  | h => exact (writesSHV_lt_iff e rt base offset s).trans not_le.symm
  | f => exact (writesSFV_lt_iff e rt base offset s).trans not_le.symm
  | w => exact (writesSWV_lt_iff e rt base offset s).trans not_le.symm
  | t => exact (writesSTV_lt_iff e rt base offset s).trans not_le.symm

/-- `SLV` to address `0xffd` writes behind DMEM. -/
theorem slv_leaves_dmem :
    ¬ StoreInDmem .l 0 0 1 0#32
      { Arch.zero with sr := Function.update Arch.zero.sr 1 0xffd#32 } := by
  intro h
  have := h.1 (0x1003, 0#8) (by decide)
  exact absurd this (by decide)

end ParallelRsp.LS
