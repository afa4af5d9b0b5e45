import Mathlib.Logic.Function.Iterate
import ParallelRsp.Rsp.Dma

/-!
# A transfer, row by row

The count field of a length register asks for several rows in one write. Software may as well
clear the field and write the register once a row: the transfer leaves both addresses where the
next row starts, so that the writes go on from one another (`mtc0_rows`).

Two things can come between. The length is cut off at the end of the bank once, for the first
row, while every write cuts off its own, so the rows have to fit the bank (`Fits`). And every
write aligns the RDRAM address again, so the gap between two rows has to keep it aligned.
-/

namespace ParallelRsp.CP

/-- A length register with its count field cleared. -/
def oneRow (reg : Word) : Word := reg &&& ~~~0xff000#32

theorem oneRow_and (reg m : Word) (h : ~~~0xff000#32 &&& m = m) : oneRow reg &&& m = reg &&& m := by
  rw [oneRow, BitVec.and_assoc, h]

theorem dmaLength_oneRow (reg : Word) : dmaLength (oneRow reg) = dmaLength reg := by
  rw [dmaLength, dmaLength, oneRow_and reg _ (by decide)]

theorem dmaSkip_oneRow (reg : Word) : dmaSkip (oneRow reg) = dmaSkip reg := by
  have hm : ((~~~0xff000#32 : Word) >>> 20) &&& 0xfff#32 = 0xfff#32 := by decide
  rw [dmaSkip, dmaSkip, oneRow, BitVec.ushiftRight_and_distrib, BitVec.and_assoc, hm]

theorem dmaCount_oneRow (reg : Word) : dmaCount (oneRow reg) = 0 := by
  have hm : ((~~~0xff000#32 : Word) >>> 12) &&& 0xff#32 = 0#32 := by decide
  rw [dmaCount, oneRow, BitVec.ushiftRight_and_distrib, BitVec.and_assoc, hm, BitVec.and_zero]
  rfl

theorem rowLength_oneRow (cache reg : Word) :
    rowLength cache (oneRow reg) = rowLength cache reg := by
  rw [rowLength, rowLength, dmaLength_oneRow]

/-! ### Rows and the registers -/

theorem setCr_same (s : Arch) (r : Fin 16) (x y : Word) :
    setCr (setCr s r x) r y = setCr s r y := by
  simp only [setCr, Function.update_idem]

theorem setCr_comm (s : Arch) {r r' : Fin 16} (h : r ≠ r') (x y : Word) :
    setCr (setCr s r x) r' y = setCr (setCr s r' y) r x := by
  simp only [setCr, Function.update_comm h]

theorem setCr_self (s : Arch) (r : Fin 16) : setCr s r (s.cp0.cr r) = s := by
  simp only [setCr, Function.update_eq_self]

section Rows

variable {word : Word → Word → Arch → Arch}
  (hword : ∀ source dest s r x, word source dest (setCr s r x) = setCr (word source dest s) r x)
  (length sourceStep destStep : Word)

include hword in
theorem dmaRow_setCr (source dest : Word) (s : Arch) (r : Fin 16) (x : Word) :
    dmaRow word length source dest (setCr s r x) =
      setCr (dmaRow word length source dest s) r x := by
  rw [dmaRow, dmaRow]
  induction List.range (length.toNat / 4) generalizing s with
  | nil => rfl
  | cons k ks ih => rw [List.foldl_cons, List.foldl_cons, hword, ih]

include hword in
/-- Rows neither read a control register nor write one. -/
theorem dmaRows_setCr (n : ℕ) (source dest : Word) (s : Arch) (r : Fin 16) (x : Word) :
    dmaRows word length sourceStep destStep n source dest (setCr s r x) =
      (setCr (dmaRows word length sourceStep destStep n source dest s).1 r x,
        (dmaRows word length sourceStep destStep n source dest s).2) := by
  induction n generalizing source dest s with
  | zero => rfl
  | succ n ih => rw [dmaRows, dmaRow_setCr hword, ih, dmaRows]

/-- `n` rows from where the registers `src` and `dst` point to, then the registers moved on and
the length register `len` put back. -/
def runRows (word : Word → Word → Arch → Arch) (src dst len : Fin 16)
    (length sourceStep destStep : Word) (n : ℕ) (s : Arch) : Arch :=
  let t := dmaRows word length sourceStep destStep n (s.cp0.cr src) (s.cp0.cr dst) s
  setCr (setCr (setCr t.1 src t.2.1) dst t.2.2) len 0xff8#32

variable {src dst len : Fin 16} (hsd : src ≠ dst) (hsl : src ≠ len) (hdl : dst ≠ len)

include hword hsl hdl in
/-- What the length register holds does not matter any more. -/
theorem runRows_setCr (n : ℕ) (x : Word) (s : Arch) :
    runRows word src dst len length sourceStep destStep n (setCr s len x) =
      runRows word src dst len length sourceStep destStep n s := by
  simp only [runRows, dmaRows_setCr hword, setCr_cr, hsl, hdl, ↓reduceIte]
  rw [setCr_comm _ hsl.symm, setCr_comm _ hdl.symm, setCr_same]

variable (word) in
include hsd hsl hdl in
theorem runRows_one_cr (s : Arch) :
    (runRows word src dst len length sourceStep destStep 1 s).cp0.cr src =
        s.cp0.cr src + sourceStep ∧
      (runRows word src dst len length sourceStep destStep 1 s).cp0.cr dst =
        s.cp0.cr dst + destStep := by
  simp only [runRows, dmaRows, setCr_cr, hsd, hsl, hdl, ↓reduceIte, and_self]

include hword hsd hsl hdl in
/-- The first of several rows on its own. -/
theorem runRows_succ (n : ℕ) (s : Arch) :
    runRows word src dst len length sourceStep destStep (n + 1) s =
      runRows word src dst len length sourceStep destStep n
        (runRows word src dst len length sourceStep destStep 1 s) := by
  obtain ⟨hs, hd⟩ :=
    runRows_one_cr word length sourceStep destStep hsd hsl hdl s
  rw [runRows, runRows.eq_def (n := n), hs, hd]
  simp only [runRows, dmaRows, dmaRows_setCr hword]
  rw [setCr_comm _ hsl.symm, setCr_comm _ hsd.symm, setCr_same, setCr_comm _ hdl.symm, setCr_same,
    setCr_same]

include hword hsd hsl hdl in
/-- Rows that a function runs one at a time. `P n s` says that it does so for the next `n + 1`. -/
theorem runRows_iterate {f : Arch → Arch} {P : ℕ → Arch → Prop}
    (hone : ∀ n s, P n s → f s = runRows word src dst len length sourceStep destStep 1 s)
    (hnext : ∀ n s, P (n + 1) s →
      P n (runRows word src dst len length sourceStep destStep 1 s))
    (n : ℕ) (s : Arch) (h : P n s) :
    runRows word src dst len length sourceStep destStep (n + 1) s = f^[n + 1] s := by
  induction n generalizing s with
  | zero => exact (hone 0 s h).symm
  | succ n ih =>
    rw [runRows_succ hword _ _ _ hsd hsl hdl, ih _ (hnext n s h), ← hone (n + 1) s h,
      ← Function.iterate_succ_apply]

end Rows

theorem dmaReadWord_setCr (source dest : Word) (s : Arch) (r : Fin 16) (x : Word) :
    dmaReadWord source dest (setCr s r x) = setCr (dmaReadWord source dest s) r x := by
  simp only [dmaReadWord]
  split <;> rfl

theorem dmaWriteWord_setCr (source dest : Word) (s : Arch) (r : Fin 16) (x : Word) :
    dmaWriteWord source dest (setCr s r x) = setCr (dmaWriteWord source dest s) r x := rfl

/-! ### One write a row -/

/-- The registers before `n + 1` rows of `length` bytes: aligned, and the rows fit the bank. -/
structure RowsLeft (k : ℕ) (reg length : Word) (n : ℕ) (s : Arch) : Prop where
  cache : (s.cp0.cr dmaCache).toNat % k = 0
  dram : (s.cp0.cr dmaDram).toNat % 8 = 0
  row : rowLength (s.cp0.cr dmaCache) reg = length
  fits : n = 0 ∨ (s.cp0.cr dmaCache).toNat % 4096 + (n + 1) * (dmaLength reg).toNat ≤ 4096

theorem RowsLeft.next {k : ℕ} {reg length : Word} {n : ℕ} {s s' : Arch}
    (h : RowsLeft k reg length (n + 1) s) (hk : k = 4 ∨ k = 8)
    (hskip : (dmaSkip reg).toNat % 8 = 0)
    (hcache : s'.cp0.cr dmaCache = s.cp0.cr dmaCache + length)
    (hdram : s'.cp0.cr dmaDram = s.cp0.cr dmaDram + (length + dmaSkip reg)) :
    RowsLeft k reg length n s' := by
  have hfits := h.fits.resolve_left (Nat.succ_ne_zero n)
  have hlen := toNat_dmaLength reg
  have hrow := toNat_rowLength (s.cp0.cr dmaCache) reg
  rw [← hlen, h.row] at hrow
  rw [Nat.add_mul _ 1, one_mul] at hfits
  have hone : (dmaLength reg).toNat ≤ (n + 1) * (dmaLength reg).toNat :=
    Nat.le_mul_of_pos_left _ n.succ_pos
  -- the row is not cut off
  have huncut : length = dmaLength reg := by
    apply BitVec.eq_of_toNat_eq
    omega
  have hc : (s'.cp0.cr dmaCache).toNat = ((s.cp0.cr dmaCache).toNat + length.toNat) % 2 ^ 32 := by
    rw [hcache, BitVec.toNat_add]
  have hd : (s'.cp0.cr dmaDram).toNat % 8 = 0 := by
    have := h.dram
    rw [hdram, BitVec.toNat_add, BitVec.toNat_add, huncut]
    omega
  have hrow' := toNat_rowLength (s'.cp0.cr dmaCache) reg
  rw [← hlen] at hrow'
  rw [huncut] at hc
  refine ⟨?_, hd, ?_, .inr ?_⟩
  · have := h.cache
    rcases hk with rfl | rfl
    · omega
    · omega
  · apply BitVec.eq_of_toNat_eq
    rw [huncut]
    omega
  · omega

/-- The addresses rounded down, as a transfer does first. -/
def alignDma (cache : Word) (s : Arch) : Arch :=
  let s := setCr s dmaCache (s.cp0.cr dmaCache &&& cache)
  setCr s dmaDram (s.cp0.cr dmaDram &&& ~~~0x7#32)

theorem alignDma_cr (m : Word) (s : Arch) :
    (alignDma m s).cp0.cr dmaCache = s.cp0.cr dmaCache &&& m ∧
      (alignDma m s).cp0.cr dmaDram = s.cp0.cr dmaDram &&& ~~~0x7#32 := by
  simp only [alignDma, setCr_cr, show dmaDram ≠ dmaCache by decide,
    show dmaCache ≠ dmaDram by decide, ↓reduceIte, and_self]

theorem alignDma_setCr (m : Word) {r : Fin 16} (hc : r ≠ dmaCache) (hd : r ≠ dmaDram) (x : Word)
    (s : Arch) : alignDma m (setCr s r x) = setCr (alignDma m s) r x := by
  simp only [alignDma, setCr_cr, hc.symm, hd.symm, show dmaDram ≠ dmaCache by decide, ↓reduceIte]
  rw [setCr_comm _ hc, setCr_comm _ hd]

theorem alignDma_of_aligned {m : Word} {s : Arch}
    (hc : s.cp0.cr dmaCache &&& m = s.cp0.cr dmaCache)
    (hd : s.cp0.cr dmaDram &&& ~~~0x7#32 = s.cp0.cr dmaDram) : alignDma m s = s := by
  simp only [alignDma, hc, setCr_self, hd]

theorem mtc0Value_readLength (rdp : ProcessRdpList) (l : Word) (s : Arch) :
    (mtc0Value rdp dmaReadLength l s).1 =
      runRows dmaReadWord dmaDram dmaCache dmaReadLength
        (rowLength (s.cp0.cr dmaCache &&& ~~~0x7#32) l)
        (rowLength (s.cp0.cr dmaCache &&& ~~~0x7#32) l + dmaSkip l)
        (rowLength (s.cp0.cr dmaCache &&& ~~~0x7#32) l) (dmaCount l + 1)
        (alignDma (~~~0x7#32) s) := by
  rw [← runRows_setCr dmaReadWord_setCr _ _ _ (by decide) (by decide) _ l,
    ← alignDma_setCr _ (by decide) (by decide)]
  rfl

theorem mtc0Value_writeLength (rdp : ProcessRdpList) (l : Word) (s : Arch) :
    (mtc0Value rdp dmaWriteLength l s).1 =
      runRows dmaWriteWord dmaCache dmaDram dmaWriteLength
        (rowLength (s.cp0.cr dmaCache &&& ~~~0x3#32) l)
        (rowLength (s.cp0.cr dmaCache &&& ~~~0x3#32) l)
        (rowLength (s.cp0.cr dmaCache &&& ~~~0x3#32) l + dmaSkip l) (dmaCount l + 1)
        (alignDma (~~~0x3#32) s) := by
  rw [← runRows_setCr dmaWriteWord_setCr _ _ _ (by decide) (by decide) _ l,
    ← alignDma_setCr _ (by decide) (by decide)]
  rfl

theorem and_not_7_of_aligned {x : Word} (h : x.toNat % 8 = 0) : x &&& ~~~0x7#32 = x := by
  apply BitVec.eq_of_toNat_eq
  rw [Bits.toNat_and_not_7]
  omega

theorem and_not_3_of_aligned {x : Word} (h : x.toNat % 4 = 0) : x &&& ~~~0x3#32 = x := by
  apply BitVec.eq_of_toNat_eq
  rw [Bits.toNat_and_not_3]
  omega

theorem rowsLeft_alignDma {k : ℕ} {m l : Word} {s : Arch}
    (hk : (s.cp0.cr dmaCache &&& m).toNat % k = 0)
    (h : Fits ((s.cp0.cr dmaCache &&& m).toNat % 4096) l) :
    RowsLeft k l (rowLength (s.cp0.cr dmaCache &&& m) l) (dmaCount l) (alignDma m s) := by
  obtain ⟨hc, hd⟩ := alignDma_cr m s
  refine ⟨by rw [hc]; exact hk, ?_, by rw [hc], by rw [hc]; exact h⟩
  rw [hd, Bits.toNat_and_not_7, Nat.mul_mod_left]

/-- Transfers `f` of as many rows as a length register asks for, and of one row at a time. -/
theorem rows_one_by_one {word : Word → Word → Arch → Arch}
    (hword : ∀ source dest s r x, word source dest (setCr s r x) = setCr (word source dest s) r x)
    {src dst len : Fin 16} (hsd : src ≠ dst) (hsl : src ≠ len) (hdl : dst ≠ len)
    (sourceStep destStep : Word → Word → Word) {f : Word → Arch → Arch} {k : ℕ} {m : Word}
    (hk : k = 4 ∨ k = 8) (hmod : ∀ x : Word, (x &&& m).toNat % k = 0)
    (hmask : ∀ {x : Word}, x.toNat % k = 0 → x &&& m = x)
    (hf : ∀ l s, f l s = runRows word src dst len (rowLength (s.cp0.cr dmaCache &&& m) l)
      (sourceStep (rowLength (s.cp0.cr dmaCache &&& m) l) (dmaSkip l))
      (destStep (rowLength (s.cp0.cr dmaCache &&& m) l) (dmaSkip l)) (dmaCount l + 1)
      (alignDma m s))
    (hcr : ∀ length skip s,
      (runRows word src dst len length (sourceStep length skip) (destStep length skip) 1 s).cp0.cr
          dmaCache = s.cp0.cr dmaCache + length ∧
        (runRows word src dst len length (sourceStep length skip) (destStep length skip) 1 s).cp0.cr
          dmaDram = s.cp0.cr dmaDram + (length + skip))
    {l : Word} {s : Arch} (hskip : (dmaSkip l).toNat % 8 = 0)
    (h : Fits ((s.cp0.cr dmaCache &&& m).toNat % 4096) l) :
    f l s = (f (oneRow l))^[dmaCount l + 1] s := by
  set length := rowLength (s.cp0.cr dmaCache &&& m) l with hlength
  have hleft : RowsLeft k l length (dmaCount l) (alignDma m s) := rowsLeft_alignDma (hmod _) h
  have hrow (s : Arch) := hf (oneRow l) s
  simp only [dmaCount_oneRow, dmaSkip_oneRow, rowLength_oneRow] at hrow
  have hone (n : ℕ) (s : Arch) (hs : RowsLeft k l length n s) :
      f (oneRow l) s = runRows word src dst len length (sourceStep length (dmaSkip l))
        (destStep length (dmaSkip l)) 1 s := by
    have hc := hmask hs.cache
    rw [hrow, alignDma_of_aligned hc (and_not_7_of_aligned hs.dram), hc, hs.row]
  have hnext (n : ℕ) (s : Arch) (hs : RowsLeft k l length (n + 1) s) :
      RowsLeft k l length n (runRows word src dst len length (sourceStep length (dmaSkip l))
        (destStep length (dmaSkip l)) 1 s) :=
    hs.next hk hskip (hcr _ _ s).1 (hcr _ _ s).2
  -- the first write aligns the addresses, and from then on they stay aligned
  have hfirst : f (oneRow l) s = f (oneRow l) (alignDma m s) := by
    rw [hrow s, hone _ _ hleft]
  rw [hf, ← hlength, runRows_iterate hword _ _ _ hsd hsl hdl hone hnext _ _ hleft,
    Function.iterate_succ_apply, Function.iterate_succ_apply, hfirst]

theorem read_rows (rdp : ProcessRdpList) {l : Word} {s : Arch}
    (hskip : (dmaSkip l).toNat % 8 = 0)
    (h : Fits ((s.cp0.cr dmaCache &&& ~~~0x7#32).toNat % 4096) l) :
    (mtc0Value rdp dmaReadLength l s).1 =
      (fun s => (mtc0Value rdp dmaReadLength (oneRow l) s).1)^[dmaCount l + 1] s := by
  refine rows_one_by_one dmaReadWord_setCr (by decide) (by decide) (by decide)
    (fun length skip => length + skip) (fun length _ => length)
    (f := fun l s => (mtc0Value rdp dmaReadLength l s).1) (.inr rfl) (fun x => ?_)
    and_not_7_of_aligned (mtc0Value_readLength rdp) (fun length skip s => ?_) hskip h
  · rw [Bits.toNat_and_not_7, Nat.mul_mod_left]
  · exact (runRows_one_cr _ _ _ _ (by decide) (by decide) (by decide) s).symm

theorem write_rows (rdp : ProcessRdpList) {l : Word} {s : Arch}
    (hskip : (dmaSkip l).toNat % 8 = 0)
    (h : Fits ((s.cp0.cr dmaCache &&& ~~~0x3#32).toNat % 4096) l) :
    (mtc0Value rdp dmaWriteLength l s).1 =
      (fun s => (mtc0Value rdp dmaWriteLength (oneRow l) s).1)^[dmaCount l + 1] s := by
  refine rows_one_by_one dmaWriteWord_setCr (by decide) (by decide) (by decide)
    (fun length _ => length) (fun length skip => length + skip)
    (f := fun l s => (mtc0Value rdp dmaWriteLength l s).1) (.inl rfl) (fun x => ?_)
    and_not_3_of_aligned (mtc0Value_writeLength rdp) (fun length skip s => ?_) hskip h
  · rw [Bits.toNat_and_not_3, Nat.mul_mod_left]
  · exact runRows_one_cr _ _ _ _ (by decide) (by decide) (by decide) s

/-- The way a transfer into the SP returns depends on the state that it leaves. -/
theorem mtc0Value_readLength_mode (rdp : ProcessRdpList) (l : Word) (s : Arch) :
    (mtc0Value rdp dmaReadLength l s).2 =
      if (mtc0Value rdp dmaReadLength l s).1.dirtyBlocks ≠ 0#32 then .checkFlags
      else .continue := rfl

/-- A transfer of several rows is one write of the length register for each of them, with the
count field cleared, when the rows fit the bank and lie a multiple of eight bytes apart. -/
theorem mtc0_rows (rdp : ProcessRdpList) (l : Word) (s : Arch)
    (hskip : (dmaSkip l).toNat % 8 = 0) :
    (Fits ((s.cp0.cr dmaCache &&& ~~~0x7#32).toNat % 4096) l →
      mtc0Value rdp dmaReadLength l s = mtc0Value rdp dmaReadLength (oneRow l)
        ((fun s => (mtc0Value rdp dmaReadLength (oneRow l) s).1)^[dmaCount l] s)) ∧
    (Fits ((s.cp0.cr dmaCache &&& ~~~0x3#32).toNat % 4096) l →
      mtc0Value rdp dmaWriteLength l s = mtc0Value rdp dmaWriteLength (oneRow l)
        ((fun s => (mtc0Value rdp dmaWriteLength (oneRow l) s).1)^[dmaCount l] s)) := by
  constructor
  · intro h
    have hrows := read_rows rdp hskip h
    rw [Function.iterate_succ_apply'] at hrows
    refine Prod.ext hrows ?_
    rw [mtc0Value_readLength_mode, mtc0Value_readLength_mode, hrows]
  · intro h
    have hrows := write_rows rdp hskip h
    rw [Function.iterate_succ_apply'] at hrows
    exact Prod.ext hrows rfl

/-- Three rows of sixteen bytes that start at a multiple of four. -/
theorem mtc0_rows_three :
    let rdp : ProcessRdpList := fun cp0 _ rdram => (cp0, rdram)
    let s := setCr Arch.zero dmaCache 0xf9c#32
    mtc0Value rdp dmaReadLength 0x0080200f#32 s = mtc0Value rdp dmaReadLength 0x0080000f#32
        ((fun s => (mtc0Value rdp dmaReadLength 0x0080000f#32 s).1)^[2] s) ∧
      mtc0Value rdp dmaWriteLength 0x0080200f#32 s = mtc0Value rdp dmaWriteLength 0x0080000f#32
        ((fun s => (mtc0Value rdp dmaWriteLength 0x0080000f#32 s).1)^[2] s) :=
  have h := mtc0_rows (fun cp0 _ rdram => (cp0, rdram)) 0x0080200f#32
    (setCr Arch.zero dmaCache 0xf9c#32) (by decide)
  ⟨h.1 (by decide), h.2 (by decide)⟩

end ParallelRsp.CP
