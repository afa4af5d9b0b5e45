import ParallelRsp.Memory.Copy
import ParallelRsp.Memory.Window
import ParallelRsp.Rsp.StoreBounds
import ParallelRsp.Simd.Masks

/-!
# Transfers byte by byte

What a vector load or store moves, said on big-endian bytes: byte `a` of DMEM is byte
`a ^ 3` of the host's memory (`view`), byte `i` of a vector register is what `READ_VEC_U8`
reads. A transfer of `n` bytes moves byte `k` between DMEM byte `(A + k) mod 4096` and
vector byte `start + k`. A load drops what runs past vector byte 15 (`bytesIn`), a store
wraps (`bytesOut`). DMEM is a cyclic memory, so a transfer is a window of it.

`LLV`, `LDV`, `LQV`, `SDV` and `SQV` each have two or three bodies: a loop over bytes, and
for some elements and alignments one that moves halfwords with the halves of each word
swapped. All of them are such a transfer (`fast_paths`), and so is the halfword loop of `SDV`.
-/

namespace ParallelRsp.LS

open Simd Bits

/-! ### Bytes of a register -/

/-- The register with vector bytes `f 0`, …, `f 15`. -/
def ofVecBytes (f : ℕ → Byte) : M128i := fun i => f (2 * i.val) ++ f (2 * i.val + 1)

/-- The high byte of lane `i` is vector byte `2 * i`. -/
theorem readVecU8_even (v : M128i) (i : Fin 8) :
    readVecU8 v (2 * i.val) = (v i).extractLsb' 8 8 := by
  have hidx : (2 * i.val ^^^ 1) % 16 = 2 * i.val + 1 := by
    rw [nat_xor_one]
    omega
  simp only [readVecU8, hidx, byteAt_hi]

theorem readVecU8_odd (v : M128i) (i : Fin 8) :
    readVecU8 v (2 * i.val + 1) = (v i).extractLsb' 0 8 := by
  have hidx : ((2 * i.val + 1) ^^^ 1) % 16 = 2 * i.val := by
    rw [nat_xor_one]
    omega
  simp only [readVecU8, hidx, byteAt_lo]

/-- A register is its sixteen bytes. -/
theorem ofVecBytes_readVecU8 (v : M128i) : ofVecBytes (readVecU8 v) = v := by
  funext i
  rw [ofVecBytes, readVecU8_even, readVecU8_odd, append_bytes]

theorem ofVecBytes_congr {f g : ℕ → Byte} (h : ∀ i < 16, f i = g i) :
    ofVecBytes f = ofVecBytes g := by
  funext i
  simp only [ofVecBytes, h _ (even_lt i), h _ (odd_lt i)]

theorem eq_ofVecBytes {v : M128i} {f : ℕ → Byte} (h : ∀ i < 16, readVecU8 v i = f i) :
    v = ofVecBytes f := by
  rw [← ofVecBytes_readVecU8 v]
  exact ofVecBytes_congr h

theorem readVecU8_ofVecBytes (f : ℕ → Byte) {i : ℕ} (hi : i < 16) :
    readVecU8 (ofVecBytes f) i = f i := by
  rcases Nat.mod_two_eq_zero_or_one i with h | h
  · have hval := readVecU8_even (ofVecBytes f) ⟨i / 2, by omega⟩
    simp only [ofVecBytes, show 2 * (i / 2) = i by omega] at hval
    rw [show readVecU8 (ofVecBytes f) i = _ from hval]
    exact BitVec.extractLsb'_append_eq_left
  · have hval := readVecU8_odd (ofVecBytes f) ⟨i / 2, by omega⟩
    simp only [ofVecBytes, show 2 * (i / 2) + 1 = i by omega] at hval
    rw [show readVecU8 (ofVecBytes f) i = _ from hval]
    exact BitVec.extractLsb'_append_eq_right

/-- A written byte, and the others. -/
theorem readVecU8_writeVecU8 (v : M128i) (i : ℕ) (data : Byte) {j : ℕ} (hi : i < 16) (hj : j < 16) :
    readVecU8 (writeVecU8 v i data) j = if j = i then data else readVecU8 v j := by
  simp only [readVecU8, writeVecU8, byteAt_ofBytes, Function.update_apply, Fin.mk.injEq]
  refine if_congr ?_ rfl rfl
  rw [nat_xor_one, nat_xor_one]
  omega

/-! ### Transfers -/

/-- The host's memory and the bytes as the RSP numbers them; each is so the view of the other. -/
def view (mem : ℕ → Byte) : ℕ → Byte := fun a => mem (a ^^^ 3)

@[simp] theorem view_view (mem : ℕ → Byte) : view (view mem) = mem := by
  funext a
  simp [view]

section Transfers

variable (n start : ℕ) (rt : Fin 32) (addr : Word) (s : Arch)

/-- `n` bytes from DMEM, to the vector bytes from `start` on. -/
def bytesIn : Arch :=
  setReg s rt (ofVecBytes fun i =>
    if start ≤ i ∧ i < start + n then view s.dmem ((addr.toNat + (i - start)) % dmemSize)
    else readVecU8 (s.cp2.regs rt) i)

/-- `n` bytes to DMEM, from the vector bytes from `start` on. -/
def bytesOut : Arch :=
  { s with dmem := view (Window.fill dmemSize addr.toNat n
      (fun k => readVecU8 (s.cp2.regs rt) ((start + k) % 16)) (view s.dmem)) }

end Transfers

/-! ### Loads -/

section Loads

variable {mem : ℕ → Byte} {v : M128i} {start n A : ℕ}

theorem readMemU8_eq (mem : ℕ → Byte) (addr : Word) : readMemU8 mem addr = view mem addr.toNat := by
  rw [readMemU8, view, BitVec.toNat_xor]
  rfl

/-- A loop over bytes. -/
theorem loadBytes_window (hstart : start + n ≤ 16) {addr : ℕ → Word}
    (haddr : ∀ k < n, (addr k).toNat = (A + k) % dmemSize) :
    loadBytes mem v ((List.range n).map fun k => ((start + k) % 16, addr k)) =
      ofVecBytes fun i =>
        if start ≤ i ∧ i < start + n then view mem ((A + (i - start)) % dmemSize)
          else readVecU8 v i := by
  induction n with
  | zero => exact eq_ofVecBytes fun i _ => (if_neg (by omega)).symm
  | succ n ih =>
    have ih := ih (by omega) fun k hk => haddr k (by omega)
    unfold loadBytes at ih ⊢
    rw [List.range_succ, List.map_append, List.foldl_append, ih]
    refine eq_ofVecBytes fun i hi => ?_
    simp only [List.map_cons, List.map_nil, List.foldl_cons, List.foldl_nil]
    rw [Nat.mod_eq_of_lt (show start + n < 16 by omega), readVecU8_writeVecU8 _ _ _ (by omega) hi,
      readVecU8_ofVecBytes _ hi, readMemU8_eq, haddr n (by omega)]
    by_cases hlast : i = start + n
    · subst hlast
      simp
    · rw [if_neg hlast]
      exact if_congr (by omega) rfl rfl

/-- A copy of halfwords with the halves of each word swapped, from a whole word on. -/
theorem loadHalves_window {first : ℕ} {addr : Word} (haddr : addr.toNat = A % dmemSize)
    (h4 : addr.toNat % 4 = 0) (hn : n % 2 = 0) (hend : addr.toNat + 2 * n ≤ dmemSize) :
    loadHalves mem v first n addr = ofVecBytes fun i =>
      if 2 * first ≤ i ∧ i < 2 * first + 2 * n then view mem ((A + (i - 2 * first)) % dmemSize)
      else readVecU8 v i := by
  have hwrap : ∀ t < 2 * n, (A + t) % dmemSize = addr.toNat + t := by
    intro t ht
    rw [← Nat.mod_add_mod, ← haddr, Nat.mod_eq_of_lt (by omega)]
  funext i
  unfold loadHalves ofVecBytes
  by_cases hi : first ≤ i.val ∧ i.val < first + n
  · dsimp only
    rw [if_pos hi, if_pos (by omega), if_pos (by omega), hwrap _ (by omega), hwrap _ (by omega)]
    simp only [view]
    rw [nat_xor_three, nat_xor_three, nat_xor_one]
    congr 2 <;> omega
  · dsimp only
    rw [if_neg hi, if_neg (by omega), if_neg (by omega), readVecU8_even, readVecU8_odd,
      append_bytes]

end Loads

/-! ### Stores -/

section Stores

variable {mem : ℕ → Byte} {ws : List Write} {n A : ℕ} {f : ℕ → Byte}

/-- The write of byte `k` of a window. -/
def windowWrite (A : ℕ) (f : ℕ → Byte) (k : ℕ) : Write := ((A + k) % dmemSize ^^^ 3, f k)

theorem applyWrites_eq_copy (mem : ℕ → Byte) (ws : List Write) :
    applyWrites mem ws = Copy.copy id (ws.map Prod.swap) mem := by
  rw [applyWrites, Copy.copy, List.foldl_map]
  rfl

theorem windowWrite_inj {j k : ℕ} (hj : j < dmemSize) (hk : k < dmemSize)
    (h : (windowWrite A f j).1 = (windowWrite A f k).1) : j = k := by
  have hpos := congrArg (Window.pos dmemSize A) (Nat.xor_left_injective h)
  rwa [Window.pos_add hj, Window.pos_add hk] at hpos

/-- The writes of a window, in any order. -/
theorem applyWrites_window (hn : n ≤ dmemSize) (h : ∀ w, w ∈ ws ↔ ∃ k < n, w = windowWrite A f k) :
    applyWrites mem ws = view (Window.fill dmemSize A n f (view mem)) := by
  have hmem : ∀ i d, (d, i) ∈ ws.map Prod.swap ↔ ∃ k < n, (i, d) = windowWrite A f k := by
    intro i d
    rw [← h]
    simp
  have hsingle : Copy.Single (ws.map Prod.swap) := by
    intro d d' i hd hd'
    obtain ⟨k, hk, hw⟩ := (hmem i d).1 hd
    obtain ⟨k', hk', hw'⟩ := (hmem i d').1 hd'
    obtain rfl := windowWrite_inj (A := A) (f := f) (hk.trans_le hn)
      (hk'.trans_le hn) (by rw [← hw, ← hw'])
    exact congrArg Prod.snd (hw.trans hw'.symm)
  rw [applyWrites_eq_copy, ← view_view (Copy.copy _ _ _)]
  congr 1
  refine Window.eq_fill (by decide) (fun k hk => ?_) fun a ha => ?_
  · exact hsingle.copy_of_mem ((hmem _ _).2 ⟨k, hk, rfl⟩)
  · refine Copy.copy_of_notMem fun d hd => ?_
    obtain ⟨k, hk, hw⟩ := (hmem _ d).1 hd
    exact ha k hk (Nat.xor_left_injective (congrArg Prod.fst hw))

/-- A loop over bytes. -/
theorem applyWrites_bytes (hn : n ≤ dmemSize) {addr : ℕ → Word}
    (haddr : ∀ k < n, (addr k).toNat = (A + k) % dmemSize) :
    applyWrites mem ((List.range n).map fun k => writeMemU8 (addr k) (f k)) =
      view (Window.fill dmemSize A n f (view mem)) := by
  have hw : ∀ k < n, writeMemU8 (addr k) (f k) = windowWrite A f k := by
    intro k hk
    rw [writeMemU8, windowWrite, BitVec.toNat_xor, haddr k hk]
    rfl
  refine applyWrites_window hn fun w => ?_
  simp only [List.mem_map, List.mem_range]
  constructor
  · rintro ⟨k, hk, rfl⟩
    exact ⟨k, hk, hw k hk⟩
  · rintro ⟨k, hk, rfl⟩
    exact ⟨k, hk, hw k hk⟩

/-- The halves of each word swapped, from a whole word on. -/
theorem applyWrites_storeHalves {v : M128i} {first : ℕ}
    {addr : Word} (haddr : addr.toNat = A % dmemSize)
    (h4 : addr.toNat % 4 = 0) (hn : n % 2 = 0) (hend : addr.toNat + 2 * n ≤ dmemSize) :
    applyWrites mem (storeHalves v first n addr) =
      view (Window.fill dmemSize A (2 * n) (fun k => readVecU8 v ((2 * first + k) % 16))
        (view mem)) := by
  have hwrap : ∀ t < 2 * n, (A + t) % dmemSize = addr.toNat + t := by
    intro t ht
    rw [← Nat.mod_add_mod, ← haddr, Nat.mod_eq_of_lt (by omega)]
  -- the two bytes of halfword `k` are bytes `2 * (k ^ 1) + 1` and `2 * (k ^ 1)` of the window
  have hlo : ∀ k < n, windowWrite A (fun k => readVecU8 v ((2 * first + k) % 16))
      (2 * (k ^^^ 1) + 1) =
      (addr.toNat + 2 * k, (v ⟨(first + (k ^^^ 1)) % 8, by omega⟩).extractLsb' 0 8) := by
    intro k hk
    have hx := nat_xor_one k
    rw [windowWrite, hwrap _ (by omega), nat_xor_three, ← readVecU8_odd]
    exact Prod.ext (by dsimp only; omega) (congrArg (readVecU8 v) (by dsimp only; omega))
  have hhi : ∀ k < n, windowWrite A (fun k => readVecU8 v ((2 * first + k) % 16)) (2 * (k ^^^ 1)) =
      (addr.toNat + 2 * k + 1, (v ⟨(first + (k ^^^ 1)) % 8, by omega⟩).extractLsb' 8 8) := by
    intro k hk
    have hx := nat_xor_one k
    rw [windowWrite, hwrap _ (by omega), nat_xor_three, ← readVecU8_even]
    exact Prod.ext (by dsimp only; omega) (congrArg (readVecU8 v) (by dsimp only; omega))
  refine applyWrites_window (by omega) fun w => ?_
  simp only [storeHalves, List.mem_flatMap, List.mem_range, List.mem_cons, List.not_mem_nil,
    or_false]
  constructor
  · rintro ⟨k, hk, rfl | rfl⟩
    · exact ⟨2 * (k ^^^ 1) + 1, by rw [nat_xor_one]; omega, (hlo k hk).symm⟩
    · exact ⟨2 * (k ^^^ 1), by rw [nat_xor_one]; omega, (hhi k hk).symm⟩
  · rintro ⟨t, ht, rfl⟩
    have hx := nat_xor_one (t / 2)
    have hback : t / 2 ^^^ 1 ^^^ 1 = t / 2 := by simp
    have hk : t / 2 ^^^ 1 < n := by omega
    refine ⟨t / 2 ^^^ 1, hk, ?_⟩
    rcases Nat.mod_two_eq_zero_or_one t with h | h
    · refine Or.inr ((hhi _ hk).symm ▸ ?_)
      rw [hback, show 2 * (t / 2) = t by omega]
    · refine Or.inl ((hlo _ hk).symm ▸ ?_)
      rw [hback, show 2 * (t / 2) + 1 = t by omega]

/-- `WRITE_MEM_U16` at an even address writes two bytes of the window. -/
theorem mem_writeMemU16 {addr : Word} {x : BitVec 16} {w : Write} (h2 : addr.toNat % 2 = 0) :
    w ∈ writeMemU16 addr x ↔
      w = (addr.toNat ^^^ 3, x.extractLsb' 8 8) ∨
        w = ((addr.toNat + 1) ^^^ 3, x.extractLsb' 0 8) := by
  have hidx : 2 * ((addr ^^^ 2#32) >>> 1).toNat = (addr.toNat + 1) ^^^ 3 := by
    rw [BitVec.toNat_ushiftRight, BitVec.toNat_xor, Nat.shiftRight_eq_div_pow]
    show 2 * ((addr.toNat ^^^ 2) / 2 ^ 1) = _
    rw [nat_xor_two, nat_xor_three]
    omega
  have hnext : ((addr.toNat + 1) ^^^ 3) + 1 = addr.toNat ^^^ 3 := by
    rw [nat_xor_three, nat_xor_three]
    omega
  simp only [writeMemU16, hidx, hnext, List.mem_cons, List.not_mem_nil, or_false]
  exact or_comm

/-- The loop of `SDV` over four lanes. -/
theorem applyWrites_halves {addr : Word} {v : M128i} {e : ℕ}
    (h2 : addr.toNat % 2 = 0) (he : e % 2 = 0) :
    applyWrites mem ((List.range 4).flatMap fun i =>
        writeMemU16 ((addr + 2#32 * addrOf i) &&& 0xfff#32) (v ⟨(e / 2 + i) % 8, by omega⟩)) =
      view (Window.fill dmemSize addr.toNat 8 (fun k =>
        readVecU8 v ((e + k) % 16)) (view mem)) := by
  have haddr : ∀ i < 4, ((addr + 2#32 * addrOf i) &&& 0xfff#32).toNat =
      (addr.toNat + 2 * i) % dmemSize := by
    intro i hi
    rw [toNat_and_fff, BitVec.toNat_add, BitVec.toNat_mul, toNat_addrOf (by omega)]
    show (addr.toNat + 2 * i % 2 ^ 32) % 2 ^ 32 % 4096 = (addr.toNat + 2 * i) % 4096
    omega
  have hhi : ∀ i < 4, windowWrite addr.toNat (fun k => readVecU8 v ((e + k) % 16)) (2 * i) =
      ((addr.toNat + 2 * i) % dmemSize ^^^ 3, (v ⟨(e / 2 + i) % 8, by omega⟩).extractLsb' 8 8) := by
    intro i hi
    rw [windowWrite, ← readVecU8_even]
    exact Prod.ext rfl (congrArg (readVecU8 v) (by dsimp only; omega))
  have hlo : ∀ i < 4, windowWrite addr.toNat (fun k => readVecU8 v ((e + k) % 16)) (2 * i + 1) =
      (((addr.toNat + 2 * i) % dmemSize + 1) ^^^ 3,
        (v ⟨(e / 2 + i) % 8, by omega⟩).extractLsb' 0 8) := by
    intro i hi
    rw [windowWrite, ← readVecU8_odd]
    refine Prod.ext (congrArg (· ^^^ 3) ?_) (congrArg (readVecU8 v) (by dsimp only; omega))
    unfold dmemSize
    omega
  refine applyWrites_window (by decide) fun w => ?_
  have hmem : ∀ i < 4, w ∈ writeMemU16 ((addr + 2#32 * addrOf i) &&& 0xfff#32)
      (v ⟨(e / 2 + i) % 8, by omega⟩) ↔
      w = windowWrite addr.toNat (fun k => readVecU8 v ((e + k) % 16)) (2 * i) ∨
        w = windowWrite addr.toNat (fun k => readVecU8 v ((e + k) % 16)) (2 * i + 1) := by
    intro i hi
    rw [mem_writeMemU16 (by rw [haddr i hi]; unfold dmemSize; omega),
      haddr i hi, hhi i hi, hlo i hi]
  simp only [List.mem_flatMap, List.mem_range]
  constructor
  · rintro ⟨i, hi, hw⟩
    rcases (hmem i hi).1 hw with rfl | rfl
    · exact ⟨2 * i, by omega, rfl⟩
    · exact ⟨2 * i + 1, by omega, rfl⟩
  · rintro ⟨k, hk, rfl⟩
    refine ⟨k / 2, by omega, (hmem (k / 2) (by omega)).2 ?_⟩
    rcases Nat.mod_two_eq_zero_or_one k with h | h
    · exact Or.inl (by rw [show 2 * (k / 2) = k by omega])
    · exact Or.inr (by rw [show 2 * (k / 2) + 1 = k by omega])

end Stores

/-! ### The instructions -/

section Instructions

variable {n start stop : ℕ} {rt : Fin 32} {addr A : Word} {s : Arch}

/-- An address within the line it was masked to. -/
theorem toNat_masked_add (A : Word) {k : ℕ} (hk : A.toNat % 16 + k < 16) :
    ((A &&& 0xfff#32) + addrOf k).toNat = (A.toNat + k) % dmemSize := by
  have hmask := toNat_and_fff A
  rw [toNat_add_addrOf (masked_lt A) (by omega), hmask]
  unfold dmemSize
  omega

/-- An address masked after the addition. -/
theorem toNat_add_masked (A : Word) {k : ℕ} (hk : k < 16) :
    ((A + addrOf k) &&& 0xfff#32).toNat = (A.toNat + k) % dmemSize := by
  rw [toNat_and_fff, BitVec.toNat_add, toNat_addrOf (by omega)]
  unfold dmemSize
  omega

theorem bytesIn_congr (h : addr.toNat % dmemSize = A.toNat % dmemSize) :
    bytesIn n start rt addr s = bytesIn n start rt A s := by
  unfold bytesIn
  simp only [Nat.add_mod addr.toNat, Nat.add_mod A.toNat, h]

theorem bytesOut_congr (h : addr.toNat % dmemSize = A.toNat % dmemSize) :
    bytesOut n start rt addr s = bytesOut n start rt A s := by
  unfold bytesOut
  rw [Window.fill_congr_start h]

theorem masked_mod (A : Word) : (A &&& 0xfff#32).toNat % dmemSize = A.toNat % dmemSize := by
  rw [toNat_and_fff]
  exact Nat.mod_mod _ _

/-- The loop of the loads, which stops at vector byte 16. -/
theorem loadLoop_eq (hstart : start ≤ 16) (hstop : stop = min 16 (start + n)) :
    loadLoop rt s start stop addr = bytesIn n start rt addr s := by
  unfold loadLoop bytesIn
  rw [loadBytes_window (A := addr.toNat) (by omega) fun k hk => toNat_add_masked addr (by omega)]
  congr 1
  refine ofVecBytes_congr fun i hi => if_congr ?_ rfl rfl
  omega

theorem rspLLV_eq (e : Fin 16) (rt base : Fin 32) (offset : Word) (s : Arch) :
    rspLLV e rt base offset s = bytesIn 4 e rt (lsAddr s.sr base offset 4) s := by
  unfold rspLLV
  generalize lsAddr s.sr base offset 4 = A
  have hlt := masked_lt A
  have hmod := masked_mod A
  dsimp only
  split
  · rename_i h
    have h4 : (A &&& 0xfff#32).toNat % 4 = 0 := by
      rw [← toNat_and_3, h.2]
      rfl
    unfold dmemSize at hlt
    rw [loadHalves_window (A := A.toNat)
      (by rw [← hmod, Nat.mod_eq_of_lt (masked_lt A)]) h4 (by norm_num)
      (by unfold dmemSize; omega), show 2 * (e.val / 2) = e.val by omega]
    rfl
  · rw [loadLoop_eq (by omega) (show _ = min 16 (e.val + 4) by split <;> omega), bytesIn_congr hmod]

theorem rspLDV_eq (e : Fin 16) (rt base : Fin 32) (offset : Word) (s : Arch) :
    rspLDV e rt base offset s = bytesIn 8 e rt (lsAddr s.sr base offset 8) s := by
  unfold rspLDV
  generalize lsAddr s.sr base offset 8 = A
  have hlt := masked_lt A
  have hmask := toNat_and_fff A
  dsimp only
  split
  · rename_i h
    have h8 : A.toNat % 8 = 0 := by
      rw [← toNat_and_7, h.2]
      rfl
    unfold dmemSize at hlt
    rw [loadHalves_window (A := A.toNat) hmask (by omega) (by norm_num) (by unfold dmemSize; omega),
      show 2 * (e.val / 2) = e.val by omega]
    rfl
  · exact loadLoop_eq (by omega) (by split <;> omega)

theorem rspLQV_eq (e : Fin 16) (rt base : Fin 32) (offset : Word) (s : Arch) :
    rspLQV e rt base offset s =
      bytesIn (16 - (lsAddr s.sr base offset 16).toNat % 16) e rt
        (lsAddr s.sr base offset 16) s := by
  unfold rspLQV
  generalize lsAddr s.sr base offset 16 = A
  have hlt := masked_lt A
  have hmask := toNat_and_fff A
  have hline := toNat_and_15 A
  unfold dmemSize at hlt
  dsimp only
  split
  · rename_i h
    have h16 : A.toNat % 16 = 0 := by
      rw [← hline, h]
      rfl
    rw [h16]
    split
    · rename_i he
      rw [he, loadHalves_window (A := A.toNat) hmask (by omega)
        (by norm_num) (by unfold dmemSize; omega)]
      rfl
    · -- the loop stops at 16, whatever the element
      unfold bytesIn
      rw [loadBytes_window (A := A.toNat) (by split <;> omega) fun k hk =>
        toNat_masked_add A (by split at hk <;> omega)]
      congr 1
      refine ofVecBytes_congr fun i hi => if_congr ?_ rfl rfl
      split <;> omega
  · rw [hline]
    exact loadLoop_eq (by omega) (by split <;> omega)

theorem rspLPV_eq_loadPacked (b : Build) (e : Fin 16) (rt base : Fin 32)
    (offset : Word) (s : Arch) :
    rspLPV e rt base offset s b = loadPacked e rt base offset s 8 := by
  unfold rspLPV loadPacked
  have hlt := masked_lt (lsAddr s.sr base offset 8)
  generalize lsAddr s.sr base offset 8 &&& 0xfff#32 = addr at hlt ⊢
  dsimp only
  split
  · next h =>
    obtain ⟨-, he, h7⟩ := h
    congr 1
    funext i
    have h0 : addr.toNat % 8 = 0 := by
      rw [← toNat_and_7, h7]
      rfl
    have hlow := toNat_and_not_7 addr
    have hi : (addrOf i).toNat = i.val := toNat_addrOf (by omega)
    have hidx : ((addr &&& 7#32) - addrOf e).toNat = 0 := by
      rw [h7, he]
      rfl
    unfold readMemU8
    rw [toNat_xor_3, toNat_and_fff, BitVec.toNat_add, hlow, toNat_and_15, BitVec.toNat_add, hi,
      hidx]
    unfold dmemSize at hlt
    congr 3
    omega
  · rfl

theorem swc2_d_eq (e : Fin 16) (rt base : Fin 32) (offset : Word) (s : Arch) :
    swc2 .d e rt base offset s = bytesOut 8 e rt (lsAddr s.sr base offset 8) s := by
  simp only [swc2, storeWrites, writesSDV]
  generalize lsAddr s.sr base offset 8 = A
  have hlt := masked_lt A
  have hmask := toNat_and_fff A
  unfold dmemSize at hlt
  rw [← bytesOut_congr (masked_mod A)]
  unfold bytesOut
  congr 1
  split
  · exact applyWrites_bytes (by decide) fun k hk => toNat_add_masked _ (by omega)
  · rename_i h
    have he : e.val % 2 = 0 := by omega
    have h1 : (A &&& 0xfff#32).toNat % 2 = 0 := by
      rw [← toNat_and_1]
      have := not_or.1 (not_or.1 h).2
      rw [not_not.1 this.2]
      rfl
    split
    · rename_i h
      have h8 : (A &&& 0xfff#32).toNat % 8 = 0 := by
        rw [← toNat_and_7, h.2]
        rfl
      rw [applyWrites_storeHalves (A := (A &&& 0xfff#32).toNat)
        (Nat.mod_eq_of_lt (masked_lt A)).symm (by omega)
        (by norm_num) (by unfold dmemSize; omega), show 2 * (e.val / 2) = e.val by omega]
    · exact applyWrites_halves h1 he

theorem swc2_q_eq (e : Fin 16) (rt base : Fin 32) (offset : Word) (s : Arch) :
    swc2 .q e rt base offset s =
      bytesOut (16 - (lsAddr s.sr base offset 16).toNat % 16) e rt
        (lsAddr s.sr base offset 16) s := by
  simp only [swc2, storeWrites, writesSQV]
  generalize lsAddr s.sr base offset 16 = A
  have hlt := masked_lt A
  have hmask := toNat_and_fff A
  have hline : ((A &&& 0xfff#32) &&& 0xf#32).toNat = A.toNat % 16 := by
    rw [toNat_and_15, hmask]
    omega
  unfold dmemSize at hlt
  unfold bytesOut
  congr 1
  split
  · rename_i h
    have h16 : A.toNat % 16 = 0 := by
      rw [← hline, h]
      rfl
    rw [h16]
    split
    · rename_i he
      rw [he, applyWrites_storeHalves (A := A.toNat) hmask
        (by omega) (by norm_num) (by unfold dmemSize; omega)]
    · exact applyWrites_bytes (by decide) fun k hk => toNat_masked_add A (by omega)
  · rw [hline]
    exact applyWrites_bytes (by unfold dmemSize; omega) fun k hk => toNat_masked_add A (by omega)

end Instructions

/-- The bodies of `LLV`, `LDV`, `LQV`, `SDV` and `SQV` are transfers byte by byte, whatever the
element, the address and the contents: four bytes, eight, or those up to the end of the line of the
address. And the SSSE3 body of `LPV` is its loop. -/
theorem fast_paths (b : Build) (e : Fin 16) (rt base : Fin 32) (offset : Word) (s : Arch) :
    lwc2 b .l e rt base offset s = bytesIn 4 e rt (lsAddr s.sr base offset 4) s ∧
    lwc2 b .d e rt base offset s = bytesIn 8 e rt (lsAddr s.sr base offset 8) s ∧
    lwc2 b .q e rt base offset s =
      bytesIn (16 - (lsAddr s.sr base offset 16).toNat % 16) e rt (lsAddr s.sr base offset 16) s ∧
    swc2 .d e rt base offset s = bytesOut 8 e rt (lsAddr s.sr base offset 8) s ∧
    swc2 .q e rt base offset s =
      bytesOut (16 - (lsAddr s.sr base offset 16).toNat % 16) e rt (lsAddr s.sr base offset 16) s ∧
    lwc2 b .p e rt base offset s = loadPacked e rt base offset s 8 :=
  ⟨rspLLV_eq e rt base offset s, rspLDV_eq e rt base offset s, rspLQV_eq e rt base offset s,
    swc2_d_eq e rt base offset s, swc2_q_eq e rt base offset s,
    rspLPV_eq_loadPacked b e rt base offset s⟩

end ParallelRsp.LS
