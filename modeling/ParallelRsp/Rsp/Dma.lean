import ParallelRsp.Bits
import ParallelRsp.Memory.Copy
import ParallelRsp.Rsp.Cp0

/-!
# DMA

What the two transfers of `rsp/cp0.cpp` copy. DMEM and IMEM are seen as the one memory that
bit 12 of an SP address divides into two banks (`Arch.spWord`). A transfer is then a copy
along a list of word addresses: on the SP side the rows follow each other without a gap, on
the RDRAM side they are `skip` bytes apart.

The length is cut off at the end of the bank once, for the first row, so a transfer of
several rows runs on into the other bank (`dma_stays_iff`). The two transfers align the SP
address differently, so one undoes the other only where the masks agree (`dma_undone_iff`).
-/

namespace ParallelRsp

/-! ### The words of the SP memories -/

/-- DMEM and IMEM as one memory. -/
def Arch.spWord (s : Arch) (i : ℕ) : Word :=
  if i < 1024 then readDmemWord s.dmem i else s.imem (i - 1024)

theorem readDmemWord_writeDmemWord (mem : ℕ → Byte) (i j : ℕ) (x : Word) :
    readDmemWord (writeDmemWord mem i x) j = if j = i then x else readDmemWord mem j := by
  have hdiv (b : ℕ) (hb : b < 4) : (4 * j + b) / 4 = j := by omega
  have hmod (b : ℕ) (hb : b < 4) : (4 * j + b) % 4 = b := by omega
  have hdiv0 : 4 * j / 4 = j := by omega
  have hmod0 : 4 * j % 4 = 0 := by omega
  simp only [readDmemWord, writeDmemWord, hdiv 3 (by decide), hdiv 2 (by decide),
    hdiv 1 (by decide), hdiv0, hmod 3 (by decide), hmod 2 (by decide), hmod 1 (by decide), hmod0]
  split
  · apply BitVec.eq_of_getLsbD_eq
    intro k hk
    simp only [BitVec.getLsbD_append, BitVec.getLsbD_extractLsb']
    grind
  · rfl

namespace CP

/-- The word that an SP address selects. -/
def spIndex (x : Word) : ℕ := x.toNat / 4 % 2048

/-- The word that an RDRAM address selects. -/
def dramIndex (x : Word) : ℕ := x.toNat / 4 % 2097152

theorem toNat_sp_mask (x : Word) : (x &&& 0x1FFC#32).toNat = 4 * spIndex x := by
  have h : x &&& 0x1FFC#32 = (x &&& 0x1FFF#32) &&& ~~~0x3#32 := by
    rw [BitVec.and_assoc]
    rfl
  have hlow : (x &&& 0x1FFF#32).toNat = x.toNat % 8192 := Bits.toNat_and_ones x 13 (by norm_num)
  rw [h, Bits.toNat_and_not_3, hlow, spIndex]
  omega

theorem toNat_dram_mask (x : Word) : (x &&& 0x7FFFFC#32).toNat = 4 * dramIndex x := by
  have h : x &&& 0x7FFFFC#32 = (x &&& 0x7FFFFF#32) &&& ~~~0x3#32 := by
    rw [BitVec.and_assoc]
    rfl
  have hlow : (x &&& 0x7FFFFF#32).toNat = x.toNat % 8388608 :=
    Bits.toNat_and_ones x 23 (by norm_num)
  rw [h, Bits.toNat_and_not_3, hlow, dramIndex]
  omega

theorem spIndex_lt (x : Word) : spIndex x < 2048 := Nat.mod_lt _ (by decide)

/-- Bit 12 of an address selects the bank. -/
theorem bank_eq_zero_iff (x : Word) : x &&& 0x1000#32 = 0#32 ↔ x.toNat / 4 % 2048 < 1024 := by
  have hbit : (x &&& 0x1000#32).toNat = (x.toNat.testBit 12).toNat * 2 ^ 12 := by
    rw [BitVec.toNat_and]
    exact Nat.and_two_pow x.toNat 12
  rw [← BitVec.toNat_inj, hbit, Nat.testBit_eq_decide_div_mod_eq]
  by_cases h : x.toNat / 2 ^ 12 % 2 = 1
  · simp only [h, decide_true, Bool.toNat_true, BitVec.toNat_ofNat]
    omega
  · simp only [h, decide_false, Bool.toNat_false, BitVec.toNat_ofNat]
    omega

theorem bank_sp_mask (x : Word) : x &&& 0x1FFC#32 &&& 0x1000#32 = 0#32 ↔ spIndex x < 1024 := by
  rw [bank_eq_zero_iff, toNat_sp_mask]
  have := spIndex_lt x
  omega

/-! ### One word -/

theorem toNat_sp_word (x : Word) : ((x &&& 0x1FFC#32) >>> 2).toNat = spIndex x := by
  rw [BitVec.toNat_ushiftRight, toNat_sp_mask, Nat.shiftRight_eq_div_pow]
  omega

theorem toNat_imem_word {x : Word} (h : 1024 ≤ spIndex x) :
    ((x &&& 0x1FFC#32 &&& 0xfff#32) >>> 2).toNat = spIndex x - 1024 := by
  rw [BitVec.toNat_ushiftRight, Bits.toNat_and_fff, toNat_sp_mask, Nat.shiftRight_eq_div_pow]
  have := spIndex_lt x
  omega

theorem toNat_dram_word (x : Word) : ((x &&& 0x7FFFFC#32) >>> 2).toNat = dramIndex x := by
  rw [BitVec.toNat_ushiftRight, toNat_dram_mask, Nat.shiftRight_eq_div_pow]
  omega

theorem dmaReadWord_dmem {dest : Word} (h : spIndex dest < 1024) (source : Word) (s : Arch) :
    dmaReadWord source dest s =
      { s with dmem := writeDmemWord s.dmem (spIndex dest) (s.rdram (dramIndex source)) } := by
  simp only [dmaReadWord, (bank_sp_mask dest).2 h, ne_eq, not_true_eq_false, ↓reduceIte,
    toNat_sp_word, toNat_dram_word]

theorem dmaReadWord_imem {dest : Word} (h : ¬spIndex dest < 1024) (source : Word) (s : Arch) :
    dmaReadWord source dest s = { s with
      dirtyBlocks := s.dirtyBlocks |||
        (0x3#32 <<< ((dest &&& 0x1FFC#32 &&& 0xfff#32).toNat / 256)) >>> 1
      imem := Function.update s.imem (spIndex dest - 1024) (s.rdram (dramIndex source)) } := by
  have hbank := mt (bank_sp_mask dest).1 h
  simp only [dmaReadWord, ne_eq, hbank, not_false_eq_true, ↓reduceIte,
    toNat_imem_word (Nat.le_of_not_lt h), toNat_dram_word]

@[simp] theorem dmaReadWord_rdram (source dest : Word) (s : Arch) :
    (dmaReadWord source dest s).rdram = s.rdram := by
  simp only [dmaReadWord]
  split <;> rfl

theorem dmaReadWord_spWord (source dest : Word) (s : Arch) :
    (dmaReadWord source dest s).spWord =
      Function.update s.spWord (spIndex dest) (s.rdram (dramIndex source)) := by
  funext i
  by_cases hbank : spIndex dest < 1024
  · rw [dmaReadWord_dmem hbank]
    simp only [Arch.spWord, readDmemWord_writeDmemWord, Function.update_apply]
    grind
  · rw [dmaReadWord_imem hbank]
    simp only [Arch.spWord, Function.update_apply]
    grind

theorem dmaWriteWord_rdram (source dest : Word) (s : Arch) :
    (dmaWriteWord source dest s).rdram =
      Function.update s.rdram (dramIndex dest) (s.spWord (spIndex source)) := by
  by_cases hbank : spIndex source < 1024
  · simp only [dmaWriteWord, (bank_sp_mask source).2 hbank, ne_eq, not_true_eq_false, ↓reduceIte,
      toNat_sp_word, toNat_dram_word, Arch.spWord, hbank]
  · have hb := mt (bank_sp_mask source).1 hbank
    simp only [dmaWriteWord, ne_eq, hb, not_false_eq_true, ↓reduceIte,
      toNat_imem_word (Nat.le_of_not_lt hbank), toNat_dram_word, Arch.spWord, hbank]

/-! ### Rows -/

/-- The pairs of addresses of a transfer of `n` rows. -/
def dmaPairs (length sourceStep destStep : Word) (n : ℕ) (source dest : Word) :
    List (Word × Word) :=
  (List.range n).flatMap fun r => (List.range (length.toNat / 4)).map fun k =>
    (source + BitVec.ofNat 32 r * sourceStep + BitVec.ofNat 32 (4 * k),
      dest + BitVec.ofNat 32 r * destStep + BitVec.ofNat 32 (4 * k))

theorem dmaPairs_succ (length sourceStep destStep : Word) (n : ℕ) (source dest : Word) :
    dmaPairs length sourceStep destStep (n + 1) source dest =
      ((List.range (length.toNat / 4)).map fun k =>
        (source + BitVec.ofNat 32 (4 * k), dest + BitVec.ofNat 32 (4 * k))) ++
        dmaPairs length sourceStep destStep n (source + sourceStep) (dest + destStep) := by
  have hstep (x step : Word) (r : ℕ) :
      x + BitVec.ofNat 32 (r + 1) * step = x + step + BitVec.ofNat 32 r * step := by
    rw [BitVec.ofNat_add, BitVec.add_mul, BitVec.one_mul]
    ac_rfl
  simp only [dmaPairs, List.range_succ_eq_map, List.flatMap_cons, List.flatMap_map, hstep,
    BitVec.zero_mul, BitVec.add_zero]

theorem dmaRows_eq (word : Word → Word → Arch → Arch) (length sourceStep destStep : Word) (n : ℕ)
    (source dest : Word) (s : Arch) :
    (dmaRows word length sourceStep destStep n source dest s).1 =
      (dmaPairs length sourceStep destStep n source dest).foldl (fun s p => word p.1 p.2 s) s := by
  induction n generalizing source dest s with
  | zero => rfl
  | succ n ih => rw [dmaRows, ih, dmaPairs_succ, List.foldl_append, dmaRow, List.foldl_map]

theorem mem_dmaPairs {length sourceStep destStep source dest : Word} {n : ℕ} {p : Word × Word} :
    p ∈ dmaPairs length sourceStep destStep n source dest ↔ ∃ r < n, ∃ k < length.toNat / 4,
      p = (source + BitVec.ofNat 32 r * sourceStep + BitVec.ofNat 32 (4 * k),
      dest + BitVec.ofNat 32 r * destStep + BitVec.ofNat 32 (4 * k)) := by
  simp only [dmaPairs, List.mem_flatMap, List.mem_range, List.mem_map, eq_comm]

theorem dmaPairs_swap (length sourceStep destStep : Word) (n : ℕ) (source dest : Word) :
    (dmaPairs length sourceStep destStep n source dest).map Prod.swap =
      dmaPairs length destStep sourceStep n dest source := by
  simp only [dmaPairs, List.map_flatMap, List.map_map, Function.comp_def, Prod.swap_prod_mk]

/-- The last word of the last row. -/
theorem dmaPairs_last {length : Word} (h : 4 ≤ length.toNat) (sourceStep destStep : Word) (n : ℕ)
    (source dest : Word) : ∃ l, dmaPairs length sourceStep destStep (n + 1) source dest = l ++
      [(source + BitVec.ofNat 32 n * sourceStep + BitVec.ofNat 32 (4 * (length.toNat / 4 - 1)),
        dest + BitVec.ofNat 32 n * destStep + BitVec.ofNat 32 (4 * (length.toNat / 4 - 1)))] := by
  obtain ⟨m, hm⟩ : ∃ m, length.toNat / 4 = m + 1 := ⟨length.toNat / 4 - 1, by omega⟩
  refine ⟨?_, ?_⟩
  rotate_left
  · rw [dmaPairs, List.range_succ, List.flatMap_append, List.flatMap_singleton, hm, List.range_succ,
      List.map_append, ← List.append_assoc]
    rfl

/-- A position of a transfer, without the wrap of the row. -/
theorem toNat_position (x step : Word) (r k : ℕ) :
    (x + BitVec.ofNat 32 r * step + BitVec.ofNat 32 (4 * k)).toNat =
      (x.toNat + r * step.toNat + 4 * k) % 2 ^ 32 := by
  simp only [BitVec.toNat_add, BitVec.toNat_mul, BitVec.toNat_ofNat,
    Nat.mod_add_mod, Nat.add_mod_mod, Nat.mod_mul_mod]

theorem spIndex_position (x step : Word) (r k : ℕ) :
    spIndex (x + BitVec.ofNat 32 r * step + BitVec.ofNat 32 (4 * k)) =
      (x.toNat + r * step.toNat + 4 * k) / 4 % 2048 := by
  rw [spIndex, toNat_position]
  omega

theorem dramIndex_position (x step : Word) (r k : ℕ) :
    dramIndex (x + BitVec.ofNat 32 r * step + BitVec.ofNat 32 (4 * k)) =
      (x.toNat + r * step.toNat + 4 * k) / 4 % 2097152 := by
  rw [dramIndex, toNat_position]
  omega

/-! ### Lengths -/

theorem toNat_dmaLength (reg : Word) : (dmaLength reg).toNat = (reg.toNat % 4096 + 8) / 8 * 8 := by
  rw [dmaLength, Bits.toNat_and_not_7, BitVec.toNat_add, BitVec.toNat_add, Bits.toNat_and_fff]
  simp only [BitVec.toNat_ofNat]
  omega

theorem toNat_dmaSkip (reg : Word) : (dmaSkip reg).toNat = reg.toNat / 2 ^ 20 := by
  rw [dmaSkip, Bits.toNat_and_fff, BitVec.toNat_ushiftRight, Nat.shiftRight_eq_div_pow]
  omega

theorem dmaCount_lt (reg : Word) : dmaCount reg < 256 := by
  rw [dmaCount]
  have : ((reg >>> 12) &&& 0xFF#32).toNat = (reg >>> 12).toNat % 256 :=
    Bits.toNat_and_ones _ 8 (by norm_num)
  omega

theorem toNat_dmaCheckLength {cache length : Word} (h : length.toNat ≤ 4096) :
    (dmaCheckLength cache length).toNat = min length.toNat (4096 - cache.toNat % 4096) := by
  have hcache := Bits.toNat_and_fff cache
  rw [dmaCheckLength]
  have hsum : ((cache &&& 0xFFF#32) + length).toNat = cache.toNat % 4096 + length.toNat := by
    rw [BitVec.toNat_add, hcache]
    omega
  rw [hsum]
  split
  · rw [BitVec.toNat_sub, hcache]
    simp only [BitVec.toNat_ofNat]
    omega
  · omega

/-- The length of a row that starts at the aligned address `cache`. -/
def rowLength (cache reg : Word) : Word := dmaCheckLength cache (dmaLength reg)

theorem toNat_rowLength (cache reg : Word) :
    (rowLength cache reg).toNat = min ((reg.toNat % 4096 + 8) / 8 * 8)
      (4096 - cache.toNat % 4096) := by
  rw [rowLength, toNat_dmaCheckLength, toNat_dmaLength]
  rw [toNat_dmaLength]
  omega

theorem toNat_stride (cache reg : Word) :
    (rowLength cache reg + dmaSkip reg).toNat = (rowLength cache reg).toNat +
      (dmaSkip reg).toNat := by
  rw [BitVec.toNat_add]
  have := toNat_rowLength cache reg
  have := toNat_dmaSkip reg
  omega

/-! ### What the transfers copy -/

/-- The words that `rsp_dma_read` copies: of RDRAM, and of the SP memory. -/
def readWords (cp0 : CP0) : List (ℕ × ℕ) :=
  let cache := cp0.cr dmaCache &&& ~~~0x7#32
  let reg := cp0.cr dmaReadLength
  (dmaPairs (rowLength cache reg) (rowLength cache reg + dmaSkip reg)
    (rowLength cache reg) (dmaCount reg + 1)
    (cp0.cr dmaDram &&& ~~~0x7#32) cache).map (Prod.map dramIndex spIndex)

/-- The words that `rsp_dma_write` copies: of the SP memory, and of RDRAM. -/
def writeWords (cp0 : CP0) : List (ℕ × ℕ) :=
  let cache := cp0.cr dmaCache &&& ~~~0x3#32
  let reg := cp0.cr dmaWriteLength
  (dmaPairs (rowLength cache reg) (rowLength cache reg)
    (rowLength cache reg + dmaSkip reg) (dmaCount reg + 1)
    cache (cp0.cr dmaDram &&& ~~~0x7#32)).map (Prod.map spIndex dramIndex)

@[simp] theorem setCr_rdram (s : Arch) (r : Fin 16) (x : Word) :
    (setCr s r x).rdram = s.rdram := rfl
@[simp] theorem setCr_imem (s : Arch) (r : Fin 16) (x : Word) : (setCr s r x).imem = s.imem := rfl
@[simp] theorem setCr_dmem (s : Arch) (r : Fin 16) (x : Word) : (setCr s r x).dmem = s.dmem := rfl
@[simp] theorem setCr_spWord (s : Arch) (r : Fin 16) (x : Word) :
    (setCr s r x).spWord = s.spWord := rfl
@[simp] theorem setCr_dirtyBlocks (s : Arch) (r : Fin 16) (x : Word) :
    (setCr s r x).dirtyBlocks = s.dirtyBlocks := rfl

theorem setCr_cr (s : Arch) (r r' : Fin 16) (x : Word) :
    (setCr s r x).cp0.cr r' = if r' = r then x else s.cp0.cr r' :=
  Function.update_apply _ _ _ _

theorem foldl_dmaReadWord (l : List (Word × Word)) (s : Arch) :
    (l.foldl (fun s p => dmaReadWord p.1 p.2 s) s).spWord =
        Copy.copy s.rdram (l.map (Prod.map dramIndex spIndex)) s.spWord ∧
      (l.foldl (fun s p => dmaReadWord p.1 p.2 s) s).rdram = s.rdram := by
  induction l generalizing s with
  | nil => exact ⟨rfl, rfl⟩
  | cons p l ih =>
    obtain ⟨hsp, hrdram⟩ := ih (dmaReadWord p.1 p.2 s)
    rw [List.foldl_cons, List.map_cons, Copy.copy_cons, hsp, hrdram, dmaReadWord_rdram,
      dmaReadWord_spWord]
    exact ⟨rfl, rfl⟩

theorem foldl_dmaWriteWord (l : List (Word × Word)) (s : Arch) :
    (l.foldl (fun s p => dmaWriteWord p.1 p.2 s) s).rdram =
        Copy.copy s.spWord (l.map (Prod.map spIndex dramIndex)) s.rdram ∧
      (l.foldl (fun s p => dmaWriteWord p.1 p.2 s) s).spWord = s.spWord := by
  induction l generalizing s with
  | nil => exact ⟨rfl, rfl⟩
  | cons p l ih =>
    obtain ⟨hrdram, hsp⟩ := ih (dmaWriteWord p.1 p.2 s)
    rw [List.foldl_cons, List.map_cons, Copy.copy_cons, hrdram, hsp, dmaWriteWord_rdram]
    exact ⟨rfl, rfl⟩

/-- `rsp_dma_read` is a copy. -/
theorem rspDmaRead_copy (s : Arch) :
    (rspDmaRead s).1.spWord = Copy.copy s.rdram (readWords s.cp0) s.spWord ∧
      (rspDmaRead s).1.rdram = s.rdram := by
  simp only [rspDmaRead, setCr_spWord, setCr_rdram, dmaRows_eq]
  exact foldl_dmaReadWord _ _

/-- `rsp_dma_write` is a copy. -/
theorem rspDmaWrite_copy (s : Arch) :
    (rspDmaWrite s).rdram = Copy.copy s.spWord (writeWords s.cp0) s.rdram ∧
      (rspDmaWrite s).spWord = s.spWord := by
  simp only [rspDmaWrite, setCr_spWord, setCr_rdram, dmaRows_eq]
  exact foldl_dmaWriteWord _ _

/-! ### The banks -/

/-- The rows that a length register asks for, the first one `offset` bytes into its bank, end in
that bank. One row always does. -/
def Fits (offset : ℕ) (reg : Word) : Prop :=
  dmaCount reg = 0 ∨ offset + (dmaCount reg + 1) * (dmaLength reg).toNat ≤ 0x1000

instance (offset : ℕ) (reg : Word) : Decidable (Fits offset reg) :=
  inferInstanceAs (Decidable (_ ∨ _))

theorem fits_iff (cache reg : Word) :
    Fits (cache.toNat % 4096) reg ↔
      cache.toNat % 4096 + (dmaCount reg + 1) * (rowLength cache reg).toNat ≤ 4096 := by
  have hlen := toNat_rowLength cache reg
  rw [← toNat_dmaLength] at hlen
  rw [Fits]
  by_cases hcut : (dmaLength reg).toNat ≤ 4096 - cache.toNat % 4096
  · rw [hlen, Nat.min_eq_left hcut]
    constructor
    · rintro (h0 | h)
      · rw [h0, zero_add, one_mul]
        omega
      · exact h
    · exact .inr
  · rw [hlen, Nat.min_eq_right (by omega)]
    rcases Nat.eq_zero_or_pos (dmaCount reg) with h0 | hpos
    · rw [h0, zero_add, one_mul]
      omega
    · have h1 := Nat.mul_le_mul_right (dmaLength reg).toNat (show 1 ≤ dmaCount reg + 1 by omega)
      have h2 := Nat.mul_le_mul_right (4096 - cache.toNat % 4096)
        (show 2 ≤ dmaCount reg + 1 by omega)
      omega

/-- Rows that fit stay in the bank. -/
theorem Fits.bank {cache reg : Word} (h : Fits (cache.toNat % 4096) reg)
    {r k : ℕ} (hr : r < dmaCount reg + 1) (hk : k < (rowLength cache reg).toNat / 4) :
    (cache.toNat + r * (rowLength cache reg).toNat + 4 * k) / 4 % 2048 / 1024 =
      cache.toNat / 4 % 2048 / 1024 := by
  have hend := (fits_iff cache reg).1 h
  have hrow := Nat.mul_le_mul_right (rowLength cache reg).toNat
    (show r + 1 ≤ dmaCount reg + 1 by omega)
  rw [Nat.add_mul, one_mul] at hrow
  omega

/-- Rows that do not fit reach the first word of the other bank. -/
theorem exists_of_not_fits {cache reg : Word} (h4 : cache.toNat % 4 = 0)
    (h : ¬Fits (cache.toNat % 4096) reg) :
    ∃ r < dmaCount reg + 1, ∃ k < (rowLength cache reg).toNat / 4,
      (cache.toNat + r * (rowLength cache reg).toNat + 4 * k) / 4 % 2048 =
        1024 * (1 - cache.toNat / 4 % 2048 / 1024) := by
  have hend := mt (fits_iff cache reg).2 h
  have hlen := toNat_rowLength cache reg
  have hlen4 : (rowLength cache reg).toNat % 4 = 0 := by omega
  have hpos : 0 < (rowLength cache reg).toNat := by omega
  set len := (rowLength cache reg).toNat
  have hdiv := Nat.div_add_mod (4096 - cache.toNat % 4096) len
  have hmod := Nat.mod_lt (4096 - cache.toNat % 4096) hpos
  have hmod4 : (4096 - cache.toNat % 4096) % len % 4 = 0 := by
    rw [Nat.mod_mod_of_dvd _ (Nat.dvd_of_mod_eq_zero hlen4)]
    omega
  refine ⟨(4096 - cache.toNat % 4096) / len, ?_,
    (4096 - cache.toNat % 4096) % len / 4, by omega, ?_⟩
  · rw [Nat.div_lt_iff_lt_mul hpos]
    omega
  · rw [Nat.mul_comm] at hdiv
    omega

/-- Two words of RDRAM that `rsp_dma_write` writes in different places of a row, or in different
rows, are different: the rows do not overlap, and together they are shorter than RDRAM. -/
theorem dram_position_inj {x len skip r r' k k' : ℕ} (hlen : len ≤ 4096)
    (hskip : skip < 4096) (hr : r < 256)
    (hr' : r' < 256) (hk : 4 * k + 4 ≤ len) (hk' : 4 * k' + 4 ≤ len)
    (h : (x + r * (len + skip) + 4 * k) / 4 % 2097152 =
      (x + r' * (len + skip) + 4 * k') / 4 % 2097152) :
    r = r' ∧ k = k' := by
  have hle (r : ℕ) (hr : r < 256) : r * (len + skip) ≤ 255 * (len + skip) :=
    Nat.mul_le_mul_right _ (by omega)
  have hlt {r r' : ℕ} (hrr : r < r') : r * (len + skip) + (len + skip) ≤ r' * (len + skip) := by
    rw [← Nat.succ_mul]
    exact Nat.mul_le_mul_right _ hrr
  have hmax := hle r hr
  have hmax' := hle r' hr'
  rcases Nat.lt_trichotomy r r' with hrr | rfl | hrr
  · have := hlt hrr
    omega
  · omega
  · have := hlt hrr
    omega

theorem writeWords_single (cp0 : CP0) : Copy.Single (writeWords cp0) := by
  intro i j k hi hj
  obtain ⟨p, hp, hpi⟩ := List.mem_map.1 hi
  obtain ⟨q, hq, hqj⟩ := List.mem_map.1 hj
  obtain ⟨r, hr, m, hm, rfl⟩ := mem_dmaPairs.1 hp
  obtain ⟨r', hr', m', hm', rfl⟩ := mem_dmaPairs.1 hq
  obtain ⟨rfl, hk⟩ := Prod.mk.inj hpi
  obtain ⟨rfl, hk'⟩ := Prod.mk.inj hqj
  have hcount := dmaCount_lt (cp0.cr dmaWriteLength)
  have hlen := toNat_rowLength (cp0.cr dmaCache &&& ~~~0x3#32) (cp0.cr dmaWriteLength)
  have hskip := toNat_dmaSkip (cp0.cr dmaWriteLength)
  rw [dramIndex_position, toNat_stride] at hk hk'
  obtain ⟨rfl, rfl⟩ :=
    dram_position_inj (by omega) (by omega) (by omega) (by omega) (by omega) (by omega)
    (hk.trans hk'.symm)
  rfl

/-- `rsp_dma_read` leaves the bank alone that its SP address does not select. -/
structure ReadStays (s : Arch) : Prop where
  /-- A transfer to DMEM. -/
  toDmem : s.cp0.cr dmaCache &&& 0x1000#32 = 0#32 →
    (rspDmaRead s).1.imem = s.imem ∧ (rspDmaRead s).1.dirtyBlocks = s.dirtyBlocks
  /-- A transfer to IMEM. -/
  toImem : s.cp0.cr dmaCache &&& 0x1000#32 ≠ 0#32 → (rspDmaRead s).1.dmem = s.dmem

/-- `rsp_dma_write` copies only words of the bank that its SP address selects. -/
structure WriteStays (s : Arch) : Prop where
  /-- A transfer from DMEM. -/
  fromDmem : s.cp0.cr dmaCache &&& 0x1000#32 = 0#32 →
    ∀ i, (rspDmaWrite s).rdram i = s.rdram i ∨
      ∃ k < 1024, (rspDmaWrite s).rdram i = readDmemWord s.dmem k
  /-- A transfer from IMEM. -/
  fromImem : s.cp0.cr dmaCache &&& 0x1000#32 ≠ 0#32 →
    ∀ i, (rspDmaWrite s).rdram i = s.rdram i ∨ ∃ k < 1024, (rspDmaWrite s).rdram i = s.imem k

theorem foldl_dmaReadWord_dmem {l : List (Word × Word)}
    (h : ∀ p ∈ l, spIndex p.2 < 1024) (s : Arch) :
    (l.foldl (fun s p => dmaReadWord p.1 p.2 s) s).imem = s.imem ∧
      (l.foldl (fun s p => dmaReadWord p.1 p.2 s) s).dirtyBlocks = s.dirtyBlocks := by
  induction l generalizing s with
  | nil => exact ⟨rfl, rfl⟩
  | cons p l ih =>
    obtain ⟨himem, hdirty⟩ :=
      ih (fun q hq => h q (List.mem_cons_of_mem _ hq)) (dmaReadWord p.1 p.2 s)
    rw [List.foldl_cons, himem, hdirty, dmaReadWord_dmem (h p List.mem_cons_self)]
    exact ⟨rfl, rfl⟩

theorem foldl_dmaReadWord_imem {l : List (Word × Word)}
    (h : ∀ p ∈ l, ¬spIndex p.2 < 1024) (s : Arch) :
    (l.foldl (fun s p => dmaReadWord p.1 p.2 s) s).dmem = s.dmem := by
  induction l generalizing s with
  | nil => rfl
  | cons p l ih =>
    rw [List.foldl_cons, ih (fun q hq => h q (List.mem_cons_of_mem _ hq)) (dmaReadWord p.1 p.2 s),
      dmaReadWord_imem (h p List.mem_cons_self)]

/-- Rounding an address down to a multiple of eight leaves it in its bank. -/
theorem bank_read_align (x : Word) :
    x &&& 0x1000#32 = 0#32 ↔ (x &&& ~~~0x7#32).toNat / 4 % 2048 / 1024 = 0 := by
  rw [bank_eq_zero_iff, Bits.toNat_and_not_7]
  omega

theorem bank_write_align (x : Word) :
    x &&& 0x1000#32 = 0#32 ↔ (x &&& ~~~0x3#32).toNat / 4 % 2048 / 1024 = 0 := by
  rw [bank_eq_zero_iff, Bits.toNat_and_not_3]
  omega

theorem readStays_of_fits {s : Arch}
    (h : Fits ((s.cp0.cr dmaCache &&& ~~~0x7#32).toNat % 4096) (s.cp0.cr dmaReadLength)) :
    ReadStays s := by
  have hbank : ∀ p ∈ dmaPairs (rowLength (s.cp0.cr dmaCache &&& ~~~0x7#32) (s.cp0.cr dmaReadLength))
      (rowLength (s.cp0.cr dmaCache &&& ~~~0x7#32) (s.cp0.cr dmaReadLength) +
        dmaSkip (s.cp0.cr dmaReadLength))
      (rowLength (s.cp0.cr dmaCache &&& ~~~0x7#32) (s.cp0.cr dmaReadLength))
      (dmaCount (s.cp0.cr dmaReadLength) + 1)
      (s.cp0.cr dmaDram &&& ~~~0x7#32) (s.cp0.cr dmaCache &&& ~~~0x7#32),
      spIndex p.2 / 1024 = (s.cp0.cr dmaCache &&& ~~~0x7#32).toNat / 4 % 2048 / 1024 := by
    intro p hp
    obtain ⟨r, hr, k, hk, rfl⟩ := mem_dmaPairs.1 hp
    rw [spIndex_position]
    exact h.bank hr hk
  constructor
  · intro hsel
    have h0 := (bank_read_align _).1 hsel
    simp only [rspDmaRead, setCr_imem, setCr_dirtyBlocks, dmaRows_eq]
    refine foldl_dmaReadWord_dmem (fun p hp => ?_) _
    have := hbank p hp
    omega
  · intro hsel
    have h0 := mt (bank_read_align _).2 hsel
    simp only [rspDmaRead, setCr_dmem, dmaRows_eq]
    refine foldl_dmaReadWord_imem (fun p hp => ?_) _
    have := hbank p hp
    omega

theorem writeWords_bank {cp0 : CP0}
    (h : Fits ((cp0.cr dmaCache &&& ~~~0x3#32).toNat % 4096) (cp0.cr dmaWriteLength)) {p : ℕ × ℕ}
    (hp : p ∈ writeWords cp0) :
    p.1 / 1024 = (cp0.cr dmaCache &&& ~~~0x3#32).toNat / 4 % 2048 / 1024 ∧ p.1 < 2048 := by
  obtain ⟨q, hq, rfl⟩ := List.mem_map.1 hp
  obtain ⟨r, hr, k, hk, rfl⟩ := mem_dmaPairs.1 hq
  refine ⟨?_, spIndex_lt _⟩
  rw [Prod.map_fst, spIndex_position]
  exact h.bank hr hk

theorem writeStays_of_fits {s : Arch}
    (h : Fits ((s.cp0.cr dmaCache &&& ~~~0x3#32).toNat % 4096) (s.cp0.cr dmaWriteLength)) :
    WriteStays s := by
  have hword (i : ℕ) : (rspDmaWrite s).rdram i = s.rdram i ∨
      ∃ j, (j, i) ∈ writeWords s.cp0 ∧ (rspDmaWrite s).rdram i = s.spWord j := by
    rw [(rspDmaWrite_copy s).1]
    by_cases hi : ∃ j, (j, i) ∈ writeWords s.cp0
    · obtain ⟨j, hj⟩ := hi
      exact .inr (Copy.copy_of_mem hj)
    · exact .inl (Copy.copy_of_notMem fun j hj => hi ⟨j, hj⟩)
  constructor
  · intro hsel i
    have h0 := (bank_write_align _).1 hsel
    refine (hword i).imp_right ?_
    rintro ⟨j, hj, heq⟩
    have hj := writeWords_bank h hj
    have hlt : j < 1024 := by omega
    refine ⟨j, hlt, ?_⟩
    rw [heq, Arch.spWord, if_pos hlt]
  · intro hsel i
    have h0 := mt (bank_write_align _).2 hsel
    refine (hword i).imp_right ?_
    rintro ⟨j, hj, heq⟩
    have hj := writeWords_bank h hj
    have hlt : ¬j < 1024 := by omega
    refine ⟨j - 1024, by omega, ?_⟩
    rw [heq, Arch.spWord, if_neg hlt]

/-- Rows that do not fit write the first word of the other bank. -/
theorem exists_mem_readWords {cp0 : CP0}
    (h : ¬Fits ((cp0.cr dmaCache &&& ~~~0x7#32).toNat % 4096) (cp0.cr dmaReadLength)) :
    ∃ i, (i, 1024 * (1 - (cp0.cr dmaCache &&& ~~~0x7#32).toNat / 4 % 2048 / 1024)) ∈
      readWords cp0 := by
  obtain ⟨r, hr, k, hk, hpos⟩ := exists_of_not_fits (by rw [Bits.toNat_and_not_7]; omega) h
  rw [← spIndex_position] at hpos
  rw [← hpos]
  exact ⟨_, List.mem_map.2 ⟨_, mem_dmaPairs.2 ⟨r, hr, k, hk, rfl⟩, rfl⟩⟩

/-- Rows that do not fit copy the first word of the other bank. -/
theorem exists_mem_writeWords {cp0 : CP0}
    (h : ¬Fits ((cp0.cr dmaCache &&& ~~~0x3#32).toNat % 4096) (cp0.cr dmaWriteLength)) :
    ∃ i, (1024 * (1 - (cp0.cr dmaCache &&& ~~~0x3#32).toNat / 4 % 2048 / 1024), i) ∈
      writeWords cp0 := by
  obtain ⟨r, hr, k, hk, hpos⟩ := exists_of_not_fits (by rw [Bits.toNat_and_not_3]; omega) h
  rw [← spIndex_position] at hpos
  rw [← hpos]
  exact ⟨_, List.mem_map.2 ⟨_, mem_dmaPairs.2 ⟨r, hr, k, hk, rfl⟩, rfl⟩⟩

/-- Zeros are read into a memory of ones. -/
theorem exists_not_readStays {cp0 : CP0}
    (h : ¬Fits ((cp0.cr dmaCache &&& ~~~0x7#32).toNat % 4096) (cp0.cr dmaReadLength)) :
    ∃ s : Arch, s.cp0 = cp0 ∧ ¬ReadStays s := by
  let s : Arch := { Arch.zero with cp0 := cp0, imem := fun _ => 1#32, dmem := fun _ => 1#8 }
  refine ⟨s, rfl, fun hstays => ?_⟩
  obtain ⟨i, hi⟩ := exists_mem_readWords h
  obtain ⟨j, -, hj⟩ := Copy.copy_of_mem (f := s.rdram) (g := s.spWord) hi
  rw [← (rspDmaRead_copy s).1] at hj
  by_cases hsel : cp0.cr dmaCache &&& 0x1000#32 = 0#32
  · have h0 := (bank_read_align _).1 hsel
    rw [h0, Arch.spWord, if_neg (by omega), (hstays.toDmem hsel).1] at hj
    exact absurd (show 1#32 = 0#32 from hj) (by decide)
  · have h0 : (cp0.cr dmaCache &&& ~~~0x7#32).toNat / 4 % 2048 / 1024 = 1 := by
      have := mt (bank_read_align _).2 hsel
      omega
    rw [h0, Arch.spWord, if_pos (by omega), hstays.toImem hsel] at hj
    exact absurd (show (1#8 ++ 1#8 ++ 1#8 ++ 1#8 : Word) = 0#32 from hj) (by decide)

/-- Zeros in DMEM, ones in IMEM, twos in RDRAM. -/
theorem exists_not_writeStays {cp0 : CP0}
    (h : ¬Fits ((cp0.cr dmaCache &&& ~~~0x3#32).toNat % 4096) (cp0.cr dmaWriteLength)) :
    ∃ s : Arch, s.cp0 = cp0 ∧ ¬WriteStays s := by
  let s : Arch := { Arch.zero with cp0 := cp0, imem := fun _ => 1#32, rdram := fun _ => 2#32 }
  refine ⟨s, rfl, fun hstays => ?_⟩
  obtain ⟨i, hi⟩ := exists_mem_writeWords h
  have hj := (writeWords_single cp0).copy_of_mem (f := s.spWord) (g := s.rdram) hi
  change Copy.copy s.spWord (writeWords s.cp0) s.rdram i = _ at hj
  rw [← (rspDmaWrite_copy s).1] at hj
  by_cases hsel : cp0.cr dmaCache &&& 0x1000#32 = 0#32
  · rw [(bank_write_align _).1 hsel] at hj
    rcases hstays.fromDmem hsel i with heq | ⟨k, -, heq⟩
    · exact absurd (show 1#32 = 2#32 from hj.symm.trans heq) (by decide)
    · exact absurd (show 1#32 =
        (0#8 ++ 0#8 ++ 0#8 ++ 0#8 : Word) from hj.symm.trans heq) (by decide)
  · have h0 : (cp0.cr dmaCache &&& ~~~0x3#32).toNat / 4 % 2048 / 1024 = 1 := by
      have := mt (bank_write_align _).2 hsel
      omega
    rw [h0] at hj
    rcases hstays.fromImem hsel i with heq | ⟨k, -, heq⟩
    · exact absurd (show (0#8 ++ 0#8 ++ 0#8 ++ 0#8 : Word) =
        2#32 from hj.symm.trans heq) (by decide)
    · exact absurd (show (0#8 ++ 0#8 ++ 0#8 ++ 0#8 : Word) =
        1#32 from hj.symm.trans heq) (by decide)

/-- For which registers a transfer keeps to its bank, whatever the memories hold. -/
theorem dma_stays_iff (cp0 : CP0) :
    ((∀ s : Arch, s.cp0 = cp0 → ReadStays s) ↔
      Fits ((cp0.cr dmaCache &&& ~~~0x7#32).toNat % 4096) (cp0.cr dmaReadLength)) ∧
    ((∀ s : Arch, s.cp0 = cp0 → WriteStays s) ↔
      Fits ((cp0.cr dmaCache &&& ~~~0x3#32).toNat % 4096) (cp0.cr dmaWriteLength)) := by
  refine ⟨⟨fun h => ?_, ?_⟩, ⟨fun h => ?_, ?_⟩⟩
  · by_contra hfits
    obtain ⟨s, hs, hstays⟩ := exists_not_readStays hfits
    exact hstays (h s hs)
  · rintro hfits s rfl
    exact readStays_of_fits hfits
  · by_contra hfits
    obtain ⟨s, hs, hstays⟩ := exists_not_writeStays hfits
    exact hstays (h s hs)
  · rintro hfits s rfl
    exact writeStays_of_fits hfits

/-- Two rows of eight bytes at the end of DMEM: the second one overwrites the first word of IMEM. -/
theorem dma_read_leaves_dmem : ¬∀ s : Arch, ReadStays s ∧ WriteStays s := by
  intro h
  let s : Arch := { Arch.zero with
    rdram := fun _ => 1#32
    cp0 := { Arch.zero.cp0 with
      cr := fun r => if r = dmaCache then 0xff8#32
        else if r = dmaReadLength then 0x1007#32 else 0#32 } }
  have himem : (rspDmaRead s).1.imem 0 = 1#32 := by decide
  have hstays := ((h s).1.toDmem (by decide)).1
  rw [hstays] at himem
  exact absurd himem (by decide)

/-! ### There and back -/

/-- The registers of a transfer written: SP address, RDRAM address and length. -/
def setDma (c d : Word) (r : Fin 16) (l : Word) (s : Arch) : Arch :=
  setCr (setCr (setCr s dmaCache c) dmaDram d) r l

/-- `rsp_dma_write` with the registers `c`, `d` and `l`, then `rsp_dma_read` with the same. -/
def dmaRoundTrip (c d l : Word) (s : Arch) : Arch :=
  (rspDmaRead (setDma c d dmaReadLength l (rspDmaWrite (setDma c d dmaWriteLength l s)))).1

@[simp] theorem setDma_cache (c d : Word) {r : Fin 16} (hr : dmaCache ≠ r) (l : Word) (s : Arch) :
    (setDma c d r l s).cp0.cr dmaCache = c := by
  simp only [setDma, setCr_cr, hr, ↓reduceIte, show dmaCache ≠ dmaDram by decide]

@[simp] theorem setDma_dram (c d : Word) {r : Fin 16} (hr : dmaDram ≠ r) (l : Word) (s : Arch) :
    (setDma c d r l s).cp0.cr dmaDram = d := by
  simp only [setDma, setCr_cr, hr, ↓reduceIte]

@[simp] theorem setDma_length (c d : Word) (r : Fin 16) (l : Word) (s : Arch) :
    (setDma c d r l s).cp0.cr r = l := by
  simp only [setDma, setCr_cr, ↓reduceIte]

theorem dmaRoundTrip_spWord (c d l : Word) (s : Arch) :
    (dmaRoundTrip c d l s).spWord =
      Copy.copy (Copy.copy s.spWord (writeWords (setDma c d dmaWriteLength l s).cp0) s.rdram)
        (readWords (setDma c d dmaReadLength l
          (rspDmaWrite (setDma c d dmaWriteLength l s))).cp0) s.spWord := by
  have hset (r : Fin 16) (s : Arch) :
      (setDma c d r l s).rdram = s.rdram ∧ (setDma c d r l s).spWord = s.spWord :=
    ⟨rfl, rfl⟩
  rw [dmaRoundTrip, (rspDmaRead_copy _).1, (hset _ _).1, (hset _ _).2, (rspDmaWrite_copy _).1,
    (rspDmaWrite_copy _).2, (hset _ _).1, (hset _ _).2]

/-- Where the two alignments agree, both transfers run along the same words. -/
theorem readWords_eq_swap {cp0 cp0' : CP0} (hcache : cp0'.cr dmaCache = cp0.cr dmaCache)
    (hdram : cp0'.cr dmaDram = cp0.cr dmaDram)
    (hlen : cp0'.cr dmaReadLength = cp0.cr dmaWriteLength)
    (h : (cp0.cr dmaCache).toNat % 8 < 4) : readWords cp0' = (writeWords cp0).map Prod.swap := by
  have halign : cp0.cr dmaCache &&& ~~~0x7#32 = cp0.cr dmaCache &&& ~~~0x3#32 := by
    apply BitVec.eq_of_toNat_eq
    rw [Bits.toNat_and_not_7, Bits.toNat_and_not_3]
    omega
  simp only [readWords, writeWords, hcache, hdram, hlen, halign]
  rw [List.map_map, ← dmaPairs_swap, List.map_map]
  rfl

/-- Every word of DMEM and IMEM has the value it had. -/
def SpKept (s s' : Arch) : Prop :=
  (∀ i < 1024, readDmemWord s'.dmem i = readDmemWord s.dmem i) ∧ ∀ i < 1024, s'.imem i = s.imem i

theorem spKept_iff (s s' : Arch) : SpKept s s' ↔ ∀ i < 2048, s'.spWord i = s.spWord i := by
  constructor
  · rintro ⟨hdmem, himem⟩ i hi
    rw [Arch.spWord, Arch.spWord]
    split
    · exact hdmem i ‹_›
    · exact himem (i - 1024) (by omega)
  · intro h
    refine ⟨fun i hi => ?_, fun i hi => ?_⟩
    · have := h i (by omega)
      rwa [Arch.spWord, Arch.spWord, if_pos hi, if_pos hi] at this
    · have := h (i + 1024) (by omega)
      rwa [Arch.spWord, Arch.spWord, if_neg (by omega), if_neg (by omega),
        Nat.add_sub_cancel] at this

/-- The memories in which the round trip shows: words of DMEM and IMEM are their own
parity, words of RDRAM are two. -/
def parityArch : Arch :=
  { Arch.zero with
    dmem := fun a => if a % 8 = 4 then 1#8 else 0#8
    imem := fun i => BitVec.ofNat 32 (i % 2)
    rdram := fun _ => 2#32 }

theorem parityArch_spWord (i : ℕ) : parityArch.spWord i = BitVec.ofNat 32 (i % 2) := by
  rw [Arch.spWord]
  split
  · simp only [readDmemWord, parityArch]
    rcases Nat.mod_two_eq_zero_or_one i with hi | hi
    · rw [if_neg (by omega), if_neg (by omega), if_neg (by omega), if_neg (by omega), hi]
      decide
    · rw [if_neg (by omega), if_neg (by omega), if_neg (by omega), if_pos (by omega), hi]
      decide
  · simp only [parityArch]
    rw [show (i - 1024) % 2 = i % 2 by omega]

/-- The last word that `rsp_dma_read` copies. -/
theorem readWords_last (cp0 : CP0) : ∃ l, readWords cp0 = l ++
    [(((cp0.cr dmaDram &&& ~~~0x7#32).toNat +
          dmaCount (cp0.cr dmaReadLength) *
            (rowLength (cp0.cr dmaCache &&& ~~~0x7#32) (cp0.cr dmaReadLength) +
              dmaSkip (cp0.cr dmaReadLength)).toNat +
          4 * ((rowLength (cp0.cr dmaCache &&& ~~~0x7#32)
            (cp0.cr dmaReadLength)).toNat / 4 - 1)) / 4 % 2097152,
      ((cp0.cr dmaCache &&& ~~~0x7#32).toNat +
          dmaCount (cp0.cr dmaReadLength) *
            (rowLength (cp0.cr dmaCache &&& ~~~0x7#32) (cp0.cr dmaReadLength)).toNat +
          4 * ((rowLength (cp0.cr dmaCache &&& ~~~0x7#32) (cp0.cr dmaReadLength)).toNat / 4 - 1))
            / 4 % 2048)] := by
  have hlen := toNat_rowLength (cp0.cr dmaCache &&& ~~~0x7#32) (cp0.cr dmaReadLength)
  have halign := Bits.toNat_and_not_7 (cp0.cr dmaCache)
  have hlong : 4 ≤ (rowLength (cp0.cr dmaCache &&& ~~~0x7#32) (cp0.cr dmaReadLength)).toNat := by
    omega
  obtain ⟨l, hl⟩ := dmaPairs_last hlong
    (rowLength (cp0.cr dmaCache &&& ~~~0x7#32) (cp0.cr dmaReadLength) +
      dmaSkip (cp0.cr dmaReadLength))
    (rowLength (cp0.cr dmaCache &&& ~~~0x7#32) (cp0.cr dmaReadLength))
    (dmaCount (cp0.cr dmaReadLength)) (cp0.cr dmaDram &&& ~~~0x7#32) (cp0.cr dmaCache &&& ~~~0x7#32)
  refine ⟨l.map (Prod.map dramIndex spIndex), ?_⟩
  rw [readWords, hl, List.map_append, List.map_singleton, Prod.map_apply, dramIndex_position,
    spIndex_position]

theorem mem_writeWords (cp0 : CP0) (p : ℕ × ℕ) :
    p ∈ writeWords cp0 ↔ ∃ r < dmaCount (cp0.cr dmaWriteLength) + 1,
      ∃ k < (rowLength (cp0.cr dmaCache &&& ~~~0x3#32) (cp0.cr dmaWriteLength)).toNat / 4,
      p = (((cp0.cr dmaCache &&& ~~~0x3#32).toNat +
          r * (rowLength (cp0.cr dmaCache &&& ~~~0x3#32) (cp0.cr dmaWriteLength)).toNat +
            4 * k) / 4 % 2048,
        ((cp0.cr dmaDram &&& ~~~0x7#32).toNat +
          r * ((rowLength (cp0.cr dmaCache &&& ~~~0x3#32) (cp0.cr dmaWriteLength)).toNat +
            (dmaSkip (cp0.cr dmaWriteLength)).toNat) + 4 * k) / 4 % 2097152) := by
  simp only [writeWords, List.mem_map, mem_dmaPairs]
  constructor
  · rintro ⟨_, ⟨r, hr, k, hk, rfl⟩, rfl⟩
    refine ⟨r, hr, k, hk, ?_⟩
    rw [Prod.map_apply, dramIndex_position, spIndex_position, toNat_stride]
  · rintro ⟨r, hr, k, hk, rfl⟩
    refine ⟨_, ⟨r, hr, k, hk, rfl⟩, ?_⟩
    rw [Prod.map_apply, dramIndex_position, spIndex_position, toNat_stride]

/-- The last word that `rsp_dma_read` writes comes from elsewhere when the SP address is an odd
number of words: from the neighbour of the word that `rsp_dma_write` sent there or, when the row was
cut off at the end of the bank, from a word that was not sent at all. -/
theorem not_spKept_parityArch {c : Word} (hc : 4 ≤ c.toNat % 8) (d l : Word) :
    ¬SpKept parityArch (dmaRoundTrip c d l parityArch) := by
  intro hkept
  obtain ⟨init, hlast⟩ := readWords_last
    (setDma c d dmaReadLength l (rspDmaWrite (setDma c d dmaWriteLength l parityArch))).cp0
  rw [setDma_cache c d (by decide), setDma_dram c d (by decide),
    setDma_length, toNat_stride] at hlast
  have hmem := mem_writeWords (setDma c d dmaWriteLength l parityArch).cp0
  simp only [setDma_cache c d (r := dmaWriteLength) (by decide),
    setDma_dram c d (r := dmaWriteLength) (by decide), setDma_length] at hmem
  have halign : (c &&& ~~~0x3#32).toNat = (c &&& ~~~0x7#32).toNat + 4 ∧
      (c &&& ~~~0x7#32).toNat % 8 = 0 := by
    rw [Bits.toNat_and_not_3, Bits.toNat_and_not_7]
    omega
  have hlw := toNat_rowLength (c &&& ~~~0x3#32) l
  have hlr := toNat_rowLength (c &&& ~~~0x7#32) l
  have hskip := toNat_dmaSkip l
  have hcount := dmaCount_lt l
  generalize (rowLength (c &&& ~~~0x3#32) l).toNat = lw at *
  generalize (rowLength (c &&& ~~~0x7#32) l).toNat = lr at *
  generalize (c &&& ~~~0x3#32).toNat = cw at *
  generalize (c &&& ~~~0x7#32).toNat = cr at *
  generalize (d &&& ~~~0x7#32).toNat = d' at *
  generalize (dmaSkip l).toNat = skip at *
  generalize dmaCount l = n at *
  -- the last word after the round trip
  have hword := (spKept_iff _ _).1 hkept ((cr + n * lr + 4 * (lr / 4 - 1)) / 4 % 2048)
    (Nat.mod_lt _ (by decide))
  rw [dmaRoundTrip_spWord, hlast, Copy.copy_append_singleton _ _ (_, _), parityArch_spWord] at hword
  by_cases hcut : lw = lr
  · subst hcut
    have hsent := (writeWords_single _).copy_of_mem (f := parityArch.spWord) (g := parityArch.rdram)
      ((hmem _).2 ⟨n, by omega, lw / 4 - 1, by omega, rfl⟩)
    rw [hsent, parityArch_spWord] at hword
    have := congrArg BitVec.toNat hword
    simp only [BitVec.toNat_ofNat] at this
    omega
  · have hunsent : ∀ i, (i, (d' + n * (lr + skip) + 4 * (lr / 4 - 1)) / 4 % 2097152) ∉
        writeWords (setDma c d dmaWriteLength l parityArch).cp0 := by
      intro i hi
      obtain ⟨r, hr, k, hk, heq⟩ := (hmem _).1 hi
      have heq := (Prod.mk.inj heq).2
      obtain rfl : lr = lw + 4 := by omega
      have hrn := Nat.mul_le_mul_right (lw + skip) (show r ≤ n by omega)
      have hmax := Nat.mul_le_mul_right (lw + skip) (show n ≤ 255 by omega)
      have hrow : n * (lw + 4 + skip) = n * (lw + skip) + n * 4 := by
        rw [← Nat.mul_add, Nat.add_right_comm]
      omega
    rw [Copy.copy_of_notMem hunsent, show parityArch.rdram _ = 2#32 from rfl] at hword
    have := congrArg BitVec.toNat hword
    simp only [BitVec.toNat_ofNat] at this
    omega

/-- For which registers a DMA write followed by a DMA read leaves DMEM and IMEM as they were,
whatever the memories hold. -/
theorem dma_undone_iff (c d l : Word) :
    (∀ s : Arch, SpKept s (dmaRoundTrip c d l s)) ↔ c &&& 0x4#32 = 0#32 := by
  have hbit : c &&& 0x4#32 = 0#32 ↔ c.toNat % 8 < 4 := by
    have : (c &&& 0x4#32).toNat = (c.toNat.testBit 2).toNat * 2 ^ 2 := by
      rw [BitVec.toNat_and]
      exact Nat.and_two_pow c.toNat 2
    rw [← BitVec.toNat_inj, this, Nat.testBit_eq_decide_div_mod_eq]
    by_cases h : c.toNat / 2 ^ 2 % 2 = 1
    · simp only [h, decide_true, Bool.toNat_true, BitVec.toNat_ofNat]
      omega
    · simp only [h, decide_false, Bool.toNat_false, BitVec.toNat_ofNat]
      omega
  rw [hbit]
  constructor
  · intro h
    by_contra hc
    exact not_spKept_parityArch (Nat.le_of_not_lt hc) d l (h parityArch)
  · intro hc s
    refine (spKept_iff _ _).2 fun i _ => ?_
    have hwords :
        readWords (setDma c d dmaReadLength l (rspDmaWrite (setDma c d dmaWriteLength l s))).cp0 =
        (writeWords (setDma c d dmaWriteLength l s).cp0).map Prod.swap := by
      apply readWords_eq_swap
      · rw [setDma_cache c d (by decide), setDma_cache c d (by decide)]
      · rw [setDma_dram c d (by decide), setDma_dram c d (by decide)]
      · rw [setDma_length, setDma_length]
      · rwa [setDma_cache c d (by decide)]
    rw [dmaRoundTrip_spWord, hwords, (writeWords_single _).copy_swap]

/-- Eight bytes written from address 4 and read back: they arrive at address 0. -/
theorem dma_round_trip_shifts : ¬∀ (c d l : Word)
    (s : Arch), c.toNat ≤ 0x1FFF → d.toNat ≤ 0xFFFFFF →
    SpKept s (dmaRoundTrip c d l s) := by
  intro h
  let s : Arch := { Arch.zero with dmem := fun a => if a = 4 then 1#8 else 0#8 }
  have hread := (h 4#32 0#32 7#32 s (by decide) (by decide)).1 0 (by decide)
  exact absurd hread (by decide)

end CP

end ParallelRsp
