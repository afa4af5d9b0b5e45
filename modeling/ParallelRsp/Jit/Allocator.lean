import ParallelRsp.Bits
import ParallelRsp.Memory.Pages
import Mathlib.Data.List.Pairwise

/-!
# The allocator of code and data

`RSP::JIT::Allocator` reserves blocks of address space and hands out ranges of them in
order, for the code and for the data that a compiled block needs, and `commit` changes their
protection when the code has been written. The calls of the system, each of which may fail,
are answered by an environment, and what they do to the protection of pages is kept.

The ranges of a run share no page (`allocations_apart`). The invariant carries them over
one call (`allocate_grown`): all of a block's ranges lie below its offset.
-/

namespace ParallelRsp.Allocator

open Pages

/-! ### The build and the system -/

/-- The build, and the pages of the system that it runs on. -/
structure Config where
  /-- `size_t` has 64 bits, not 32. -/
  wide : Bool
  /-- `_WIN32`. -/
  windows : Bool
  /-- `PAGE_SIZE()` is `2 ^ pageLog`, which is an `int`. -/
  pageLog : ℕ
  pageLog_lt : pageLog < 31

namespace Config

variable (c : Config)

/-- The bits of `size_t` and of an address. -/
def bits : ℕ := if c.wide then 64 else 32

/-- `PAGE_SIZE()`. -/
def pageSize : ℕ := 2 ^ c.pageLog

/-- `huge_va`. -/
def hugeVa : Bool := decide (0x100000000 < 2 ^ c.bits - 1)

/-- `block_size`. -/
def blockSize : ℕ := if c.hugeVa then 1024 * 1024 * 1024 else 2 * 1024 * 1024

/-- `MAP_FAILED`, the address that has all bits set. -/
def mapFailed : ℕ := 2 ^ c.bits - 1

/-- `align_page`. -/
def alignPage (offset : ℕ) : ℕ :=
  ((BitVec.ofNat c.bits offset + BitVec.ofNat c.bits c.pageSize - 1#c.bits) &&&
    ~~~BitVec.ofNat c.bits (c.pageSize - 1)).toNat

end Config

/-- The protections that the allocator asks for: `PROT_NONE`, `PROT_READ | PROT_WRITE`,
`PROT_EXEC` and `PROT_READ`. -/
inductive Prot where
  | none
  | readWrite
  | execute
  | readOnly
  deriving DecidableEq, Repr

def Prot.executable (p : Prot) : Bool := p = .execute

def Prot.writable (p : Prot) : Bool := p = .readWrite

/-- How the system answers, by the number of its call. -/
structure Env where
  /-- The address that `mmap` or `VirtualAlloc` returns for so many bytes. -/
  reserve : ℕ → ℕ → ℕ
  /-- Whether `mprotect`, `VirtualAlloc` or `VirtualProtect` succeeds for the range. -/
  commits : ℕ → Prot → ℕ → ℕ → Bool

/-- The protection of each page, and the calls made so far. -/
structure Sys where
  prot : ℕ → Prot
  calls : ℕ

namespace Config

variable (c : Config) (env : Env) (sys : Sys)

/-- Ask for a protection of the range: it is an error when the range does not start with a
page, and an error changes nothing. -/
def protect (p : Prot) (ptr size : ℕ) : Bool × Sys :=
  let ok := decide (c.pageSize ∣ ptr) && env.commits sys.calls p ptr size
  (ok,
    { prot := if ok then setRange c.pageSize ptr size p sys.prot else sys.prot
      calls := sys.calls + 1 })

/-- `commit_read_write`. -/
def commitReadWrite (ptr size : ℕ) : Bool × Sys := c.protect env sys .readWrite ptr size

/-- `commit_execute`. -/
def commitExecute (ptr size : ℕ) : Bool × Sys :=
  c.protect env sys .execute ptr (if c.windows then c.alignPage size else size)

/-- `commit_read_only`. -/
def commitReadOnly (ptr size : ℕ) : Bool × Sys :=
  c.protect env sys .readOnly ptr (if c.windows then c.alignPage size else size)

/-- `Allocator::commit`. The conditional expressions keep `ok` where it is true. -/
def commit (code codeSize data dataSize : ℕ) : Bool × Sys :=
  let (ok, sys) := (true, sys)
  let (ok, sys) := if ok then (ok, sys) else c.commitExecute env sys code codeSize
  let (ok, sys) := if ok then (ok, sys) else c.commitReadOnly env sys data dataSize
  (ok, sys)

end Config

/-! ### The allocator -/

/-- `Allocator::Block`. -/
structure Block where
  code : ℕ := 0
  size : ℕ := 0
  offset : ℕ := 0
  deriving DecidableEq, Repr

namespace Config

variable (c : Config) (env : Env) (sys : Sys)

/-- The address of a block that the system did reserve. -/
def Reserved (code : ℕ) : Prop := code ≠ 0 ∧ code ≠ c.mapFailed

instance (code : ℕ) : Decidable (c.Reserved code) := inferInstanceAs (Decidable (_ ∧ _))

/-- `Allocator::reserve_block`. -/
def reserveBlock (size : ℕ) : Block × Sys :=
  let code := env.reserve sys.calls size
  ({ code := code, size := size },
    { prot := if c.Reserved code then setRange c.pageSize code size .none sys.prot else sys.prot
      calls := sys.calls + 1 })

/-- The end of `Allocator::allocate`: the range at the offset of the last block. -/
def allocateAt (block : Block) (rest : List Block) (size : ℕ) : ℕ × List Block × Sys :=
  let ret := (block.code + block.offset) % 2 ^ c.bits
  let block := { block with offset := (block.offset + size) % 2 ^ c.bits }
  let (ok, sys) := c.commitReadWrite env sys ret size
  (if ok then ret else 0, block :: rest, sys)

/-- `Allocator::allocate` from the last block on, `none` where it aborts. -/
def allocateFrom (block : Block) (rest : List Block) (size : ℕ) : Option (ℕ × List Block × Sys) :=
  if block.code = 0 then
    some (0, block :: rest, sys)
  else
    let block := { block with offset := c.alignPage block.offset }
    if block.size < (block.offset + size) % 2 ^ c.bits then
      if c.hugeVa then
        none
      else
        let (fresh, sys) := c.reserveBlock env sys (max size c.blockSize)
        if fresh.code = 0 then
          some (0, fresh :: block :: rest, sys)
        else
          some (c.allocateAt env sys fresh (block :: rest) size)
    else
      some (c.allocateAt env sys block rest size)

/-- `Allocator::allocate`: the address, null for a failure. The last block stands first. -/
def allocate (blocks : List Block) (size : ℕ) : Option (ℕ × List Block × Sys) :=
  let size := c.alignPage size
  match blocks with
  | [] =>
    let (block, sys) := c.reserveBlock env sys (max size c.blockSize)
    c.allocateFrom env sys block [] size
  | block :: rest => c.allocateFrom env sys block rest size

end Config

/-- An allocator, and the system under it. -/
structure State where
  codeBlocks : List Block
  dataBlocks : List Block
  sys : Sys

/-- No block yet, and no page that may be read. -/
def State.init : State := ⟨[], [], fun _ => .none, 0⟩

def State.blocks (st : State) : List Block := st.codeBlocks ++ st.dataBlocks

/-- `Allocator::allocate_code`. -/
def State.allocateCode (c : Config) (env : Env) (st : State) (size : ℕ) : Option (ℕ × State) :=
  (c.allocate env st.sys st.codeBlocks size).map fun (ptr, blocks, sys) =>
    (ptr, { st with codeBlocks := blocks, sys := sys })

/-- `Allocator::allocate_data`. -/
def State.allocateData (c : Config) (env : Env) (st : State) (size : ℕ) : Option (ℕ × State) :=
  (c.allocate env st.sys st.dataBlocks size).map fun (ptr, blocks, sys) =>
    (ptr, { st with dataBlocks := blocks, sys := sys })

/-! ### Page arithmetic -/

namespace Config

variable {c : Config}

theorem pageSize_pos : 0 < c.pageSize := Nat.two_pow_pos _

theorem bits_cases : c.bits = 64 ∨ c.bits = 32 := by
  rw [bits]
  cases c.wide
  · exact .inr rfl
  · exact .inl rfl

theorem pageSize_dvd : c.pageSize ∣ 2 ^ c.bits := by
  refine pow_dvd_pow 2 ?_
  have := c.pageLog_lt
  rcases c.bits_cases with h | h <;> omega

/-- Without overflow, `align_page` rounds up to whole pages. -/
theorem alignPage_eq {n : ℕ} (h : n + (c.pageSize - 1) < 2 ^ c.bits) :
    c.alignPage n = roundUp c.pageSize n := by
  have hpos := c.pageSize_pos
  have hsum : BitVec.ofNat c.bits n + BitVec.ofNat c.bits c.pageSize - 1#c.bits =
      BitVec.ofNat c.bits (n + c.pageSize - 1) := by
    apply BitVec.eq_of_toNat_eq
    simp only [BitVec.toNat_sub, BitVec.toNat_add, BitVec.toNat_ofNat]
    rcases c.bits_cases with hb | hb <;> rw [hb] at h ⊢ <;> omega
  rw [alignPage, hsum, pageSize, Bits.toNat_and_not_ones, BitVec.toNat_ofNat,
    Nat.mod_eq_of_lt (by rw [← pageSize]; omega)]
  rfl

theorem roundUp_le_add (n : ℕ) : roundUp c.pageSize n ≤ n + (c.pageSize - 1) := by
  have := c.pageSize_pos
  have := Nat.div_mul_le_self (n + c.pageSize - 1) c.pageSize
  rw [roundUp]
  omega

/-- No page starts at whole pages after a failed reservation, since a
page has more than one byte. -/
theorem not_dvd_mapFailed {n : ℕ} (hlog : 0 < c.pageLog) (hn : c.pageSize ∣ n) :
    ¬c.pageSize ∣ (c.mapFailed + n) % 2 ^ c.bits := by
  intro h
  rw [Nat.dvd_mod_iff c.pageSize_dvd, Nat.dvd_add_left hn, mapFailed] at h
  have hone := (Nat.dvd_sub_iff_right (Nat.one_le_two_pow) c.pageSize_dvd).mp h
  have htwo : 2 ≤ c.pageSize := Nat.pow_le_pow_right (n := 2) (by norm_num) hlog
  exact absurd (Nat.le_of_dvd Nat.one_pos hone) (by omega)

end Config

/-! ### Ranges within blocks -/

/-- A range that was handed out, with the size that was asked for. -/
structure Range where
  ptr : ℕ
  size : ℕ
  deriving DecidableEq, Repr

/-- The range has a byte in the page. -/
def Range.Touches (c : Config) (r : Range) (page : ℕ) : Prop :=
  Pages.Touches c.pageSize r.ptr r.size page

/-- The bytes of the range, up to whole pages. -/
def Range.pages (c : Config) (r : Range) : ℕ := roundUp c.pageSize r.size

/-- The ranges with the one that a call returned: a null pointer is none. -/
def extend (ptr size : ℕ) (ranges : List Range) : List Range :=
  if ptr = 0 then ranges else ⟨ptr, size⟩ :: ranges

/-- The block has handed out the range. -/
structure Block.Has (c : Config) (b : Block) (r : Range) : Prop where
  reserved : c.Reserved b.code
  start : b.code ≤ r.ptr
  stop : r.ptr + r.pages c ≤ b.code + b.offset

/-- The ranges that were reserved for blocks. -/
def extents (blocks : List Block) : List Range := blocks.map fun b => ⟨b.code, b.size⟩

/-- What is assumed of the reservations: each block starts with a page and lies within the
address space, and no two of them have a common byte. Where a page is a single byte,
`MAP_FAILED` could be the start of one; then no reservation fails so. -/
structure Config.Sound (c : Config) (reserved : List Range) : Prop where
  aligned : ∀ r ∈ reserved, c.Reserved r.ptr → c.pageSize ∣ r.ptr
  inSpace : ∀ r ∈ reserved, c.Reserved r.ptr → r.ptr + r.size ≤ 2 ^ c.bits
  apart : reserved.Pairwise fun r r' => c.Reserved r.ptr →
    c.Reserved r'.ptr → Apart r.ptr r.size r'.ptr r'.size
  told : 0 < c.pageLog ∨ ∀ r ∈ reserved, r.ptr ≠ c.mapFailed

/-- What holds of the blocks and of the ranges between two calls. -/
structure Inv (c : Config) (blocks : List Block) (ranges : List Range) : Prop where
  offset_dvd : ∀ b ∈ blocks, c.pageSize ∣ b.offset
  offset_le : ∀ b ∈ blocks, b.offset ≤ b.size
  ptr_dvd : ∀ r ∈ ranges, c.pageSize ∣ r.ptr
  inside : ∀ r ∈ ranges, ∃ b ∈ blocks, b.Has c r
  apart : ranges.Pairwise fun r r' => Apart r.ptr (r.pages c) r'.ptr (r'.pages c)

/-- The pages of the ranges have the protection that they had. -/
def Keeps (c : Config) (ranges : List Range) (sys sys' : Sys) : Prop :=
  ∀ r ∈ ranges, ∀ page, r.Touches c page → sys'.prot page = sys.prot page

variable {c : Config} {env : Env} {sys sys' sys'' : Sys}
  {b block fresh : Block} {rest others blocks blocks' : List Block}
  {r r' : Range} {ranges : List Range} {ptr size page : ℕ}

theorem Keeps.refl : Keeps c ranges sys sys := fun _ _ _ _ => rfl

theorem Keeps.trans (h : Keeps c ranges sys sys') (h' : Keeps c ranges sys' sys'') :
    Keeps c ranges sys sys'' :=
  fun r hr page hpage => (h' r hr page hpage).trans (h r hr page hpage)

theorem Config.Sound.sublist {reserved reserved' : List Range}
    (h : c.Sound reserved') (hs : reserved.Sublist reserved') :
    c.Sound reserved where
  aligned r hr := h.aligned r (hs.mem hr)
  inSpace r hr := h.inSpace r (hs.mem hr)
  apart := h.apart.sublist hs
  told := h.told.imp_right fun h r hr => h r (hs.mem hr)

theorem Config.Sound.perm {reserved reserved' : List Range}
    (h : c.Sound reserved) (hp : reserved.Perm reserved') :
    c.Sound reserved' where
  aligned r hr := h.aligned r (hp.mem_iff.mpr hr)
  inSpace r hr := h.inSpace r (hp.mem_iff.mpr hr)
  apart := hp.pairwise h.apart fun h hr hr' => (h hr' hr).symm
  told := h.told.imp_right fun h r hr => h r (hp.mem_iff.mpr hr)

theorem Inv.perm (h : Inv c blocks ranges) (hp : blocks.Perm blocks') : Inv c blocks' ranges where
  offset_dvd b hb := h.offset_dvd b (hp.mem_iff.mpr hb)
  offset_le b hb := h.offset_le b (hp.mem_iff.mpr hb)
  ptr_dvd := h.ptr_dvd
  inside r hr := by
    obtain ⟨b, hb, hhas⟩ := h.inside r hr
    exact ⟨b, hp.mem_iff.mp hb, hhas⟩
  apart := h.apart

/-- A new block has handed out nothing. -/
theorem Inv.push (h : Inv c blocks ranges) (code size : ℕ) :
    Inv c ({ code := code, size := size } :: blocks) ranges where
  offset_dvd := List.forall_mem_cons.mpr ⟨dvd_zero _, h.offset_dvd⟩
  offset_le := List.forall_mem_cons.mpr ⟨Nat.zero_le _, h.offset_le⟩
  ptr_dvd := h.ptr_dvd
  inside r hr := by
    obtain ⟨b, hb, hhas⟩ := h.inside r hr
    exact ⟨b, List.mem_cons_of_mem _ hb, hhas⟩
  apart := h.apart

/-- Another block lies apart from the range. -/
theorem Block.Has.apart (h : b.Has c r) (hle : b.offset ≤ b.size)
    (hsound : c.Sound (extents (block :: rest))) (hb : b ∈ rest)
    (hres : c.Reserved block.code) : Apart block.code block.size r.ptr (r.pages c) := by
  have hmem : ⟨b.code, b.size⟩ ∈ extents rest := List.mem_map_of_mem hb
  have hstart := h.start
  have hstop := h.stop
  have hap : Apart block.code block.size b.code b.size :=
    (List.pairwise_cons.mp hsound.apart).1 _ hmem hres h.reserved
  rcases hap with hap | hap
  · exact .inl (by omega)
  · exact .inr (by omega)

/-! ### One call -/

/-- What a call of `allocate` returns, with the blocks of the other vector. -/
structure Grown (c : Config) (others : List Block) (ranges : List Range)
    (size : ℕ) (sys : Sys) (out : ℕ × List Block × Sys) :
    Prop where
  inv : Inv c (out.2.1 ++ others) (extend out.1 size ranges)
  keeps : Keeps c ranges sys out.2.2
  readWrite : out.1 ≠ 0 → ∀ page, Pages.Touches c.pageSize out.1 size page →
    out.2.2.prot page = .readWrite

/-- Where the call fails it hands out nothing. -/
theorem Grown.null (h : Inv c (blocks ++ others) ranges) (hk : Keeps c ranges sys sys') :
    Grown c others ranges size sys (0, blocks, sys') where
  inv := h
  keeps := hk
  readWrite h0 := absurd rfl h0

theorem Grown.after (hk : Keeps c ranges sys sys') {out : ℕ × List Block × Sys}
    (h : Grown c others ranges size sys' out) :
    Grown c others ranges size sys out where
  inv := h.inv
  keeps := hk.trans h.keeps
  readWrite := h.readWrite

/-- A change of protection for whole pages apart from the ranges. -/
theorem keeps_setRange (hinv : Inv c blocks ranges) (p : Prot) (hptr : c.pageSize ∣ ptr)
    (h : ∀ r ∈ ranges, Apart ptr size r.ptr (r.pages c)) (n : ℕ) :
    Keeps c ranges sys ⟨setRange c.pageSize ptr size p sys.prot, n⟩ := by
  intro r hr page hpage
  refine setRange_of_not fun htouch => ?_
  have hapart : Apart ptr size r.ptr r.size := by
    have hle := le_roundUp c.pageSize_pos r.size
    rcases h r hr with hap | hap
    · exact .inl hap
    · exact .inr (by rw [Range.pages] at hap; omega)
  exact not_touches_of_apart c.pageSize_pos hptr (hinv.ptr_dvd r hr) hapart ⟨htouch, hpage⟩

/-- Reserving a block. -/
theorem keeps_reserveBlock (hinv : Inv c blocks ranges)
    (hsound : c.Sound (extents ((c.reserveBlock env sys size).1 :: blocks))) :
    Keeps c ranges sys (c.reserveBlock env sys size).2 := by
  rw [Config.reserveBlock] at hsound ⊢
  dsimp only at hsound ⊢
  by_cases hres : c.Reserved (env.reserve sys.calls size)
  · rw [if_pos hres]
    refine keeps_setRange hinv .none (hsound.aligned _ List.mem_cons_self hres) ?_ _
    intro r hr
    obtain ⟨b, hb, hhas⟩ := hinv.inside r hr
    exact hhas.apart (hinv.offset_le b hb) hsound hb hres
  · rw [if_neg hres]
    exact Keeps.refl

/-- The block's next bytes are no longer free. -/
theorem Inv.raise (hinv : Inv c (block :: rest) ranges)
    (hfit : block.offset + roundUp c.pageSize size ≤ block.size) :
    Inv c ({ block with offset := block.offset + roundUp c.pageSize size } :: rest) ranges where
  offset_dvd := by
    obtain ⟨hoff, hoffs⟩ := List.forall_mem_cons.mp hinv.offset_dvd
    exact List.forall_mem_cons.mpr ⟨Nat.dvd_add hoff (dvd_roundUp _ _), hoffs⟩
  offset_le := List.forall_mem_cons.mpr ⟨hfit, (List.forall_mem_cons.mp hinv.offset_le).2⟩
  ptr_dvd := hinv.ptr_dvd
  inside r hr := by
    obtain ⟨b, hb, hhas⟩ := hinv.inside r hr
    rcases List.mem_cons.mp hb with rfl | hb
    · refine ⟨_, List.mem_cons_self, hhas.reserved, hhas.start, hhas.stop.trans ?_⟩
      exact Nat.add_le_add_left (Nat.le_add_right _ _) _
    · exact ⟨b, List.mem_cons_of_mem _ hb, hhas⟩
  apart := hinv.apart

/-- They are apart from what was handed out. -/
theorem Inv.next_apart (hinv : Inv c (block :: rest) ranges)
    (hsound : c.Sound (extents (block :: rest))) (hres : c.Reserved block.code)
    (hfit : block.offset + roundUp c.pageSize size ≤ block.size) :
    ∀ r ∈ ranges, Apart (block.code + block.offset) (roundUp c.pageSize size) r.ptr
      (r.pages c) := by
  intro r hr
  obtain ⟨b, hb, hhas⟩ := hinv.inside r hr
  rcases List.mem_cons.mp hb with rfl | hmem
  · exact .inr hhas.stop
  · rcases hhas.apart (hinv.offset_le b hb) hsound hmem hres with hap | hap
    · exact .inl (by omega)
    · exact .inr (by omega)

/-- The block hands them out. -/
theorem Inv.place (hinv : Inv c (block :: rest) ranges)
    (hsound : c.Sound (extents (block :: rest))) (hres : c.Reserved block.code)
    (hfit : block.offset + roundUp c.pageSize size ≤ block.size) :
    Inv c ({ block with offset := block.offset + roundUp c.pageSize size } :: rest)
      (⟨block.code + block.offset, size⟩ :: ranges) where
  offset_dvd := (hinv.raise hfit).offset_dvd
  offset_le := (hinv.raise hfit).offset_le
  ptr_dvd :=
    List.forall_mem_cons.mpr
      ⟨Nat.dvd_add (hsound.aligned _ List.mem_cons_self hres)
        (hinv.offset_dvd _ List.mem_cons_self), hinv.ptr_dvd⟩
  inside :=
    List.forall_mem_cons.mpr
      ⟨⟨_, List.mem_cons_self, hres, Nat.le_add_right _ _, (Nat.add_assoc _ _ _).le⟩,
        (hinv.raise hfit).inside⟩
  apart := List.pairwise_cons.mpr ⟨hinv.next_apart hsound hres hfit, hinv.apart⟩

/-- A block that was not reserved hands out nothing, since no page starts there. -/
theorem allocateAt_failed (hoff : c.pageSize ∣ block.offset)
    (hlog : 0 < c.pageLog) (hcode : block.code = c.mapFailed) :
    c.allocateAt env sys block rest size =
      (0, { block with offset := (block.offset + size) % 2 ^ c.bits } :: rest,
        ⟨sys.prot, sys.calls + 1⟩) := by
  have hno := c.not_dvd_mapFailed hlog hoff
  rw [Config.allocateAt, Config.commitReadWrite, Config.protect, hcode]
  simp [hno]

/-- The range at the offset of the last block. -/
theorem allocateAt_grown (hinv : Inv c (block :: rest ++ others) ranges)
    (hsound : c.Sound (extents (block :: rest ++ others)))
    (hcode : block.code ≠ 0) (hfit : block.offset + roundUp c.pageSize size ≤ block.size)
    (hlt : block.offset + roundUp c.pageSize size < 2 ^ c.bits) :
    Grown c others ranges size sys (c.allocateAt env sys block rest (roundUp c.pageSize size)) := by
  have hoff := hinv.offset_dvd block List.mem_cons_self
  by_cases hfailed : block.code = c.mapFailed
  · have hlog : 0 < c.pageLog := hsound.told.resolve_right fun h => h _ List.mem_cons_self hfailed
    rw [allocateAt_failed hoff hlog hfailed, Nat.mod_eq_of_lt hlt]
    exact Grown.null (hinv.raise hfit) Keeps.refl
  have hres : c.Reserved block.code := ⟨hcode, hfailed⟩
  have hspace : block.code + block.size ≤ 2 ^ c.bits := hsound.inSpace _ List.mem_cons_self hres
  have hptr : c.pageSize ∣ block.code + block.offset :=
    Nat.dvd_add (hsound.aligned _ List.mem_cons_self hres) hoff
  have hkeeps (n : ℕ) : Keeps c ranges sys
      ⟨setRange c.pageSize (block.code + block.offset)
        (roundUp c.pageSize size) .readWrite sys.prot, n⟩ :=
    keeps_setRange hinv .readWrite hptr (hinv.next_apart hsound hres hfit) n
  rw [Config.allocateAt, Nat.mod_eq_of_lt hlt, Config.commitReadWrite, Config.protect]
  dsimp only
  rcases Nat.lt_or_ge (block.code + block.offset) (2 ^ c.bits) with hret | hret
  · rw [Nat.mod_eq_of_lt hret]
    split
    · refine ⟨?_, hkeeps _, fun _ page hpage => ?_⟩
      · rw [extend, if_neg (show block.code + block.offset ≠ 0 by omega)]
        exact hinv.place hsound hres hfit
      · exact setRange_of_touches ((touches_roundUp c.pageSize_pos hptr).mpr hpage)
    · exact Grown.null (hinv.raise hfit) Keeps.refl
  · -- Only an empty range can start at the end of the address space, where the address wraps
    -- to null.
    have hzero : roundUp c.pageSize size = 0 := by omega
    have hend : block.code + block.offset = 2 ^ c.bits := by omega
    rw [hend, Nat.mod_self, ite_self]
    refine Grown.null (hinv.raise hfit) fun r hr page hpage => ?_
    dsimp only
    split
    · refine setRange_of_not ?_
      rw [hzero]
      exact not_touches_zero
    · rfl

/-- A call keeps the blocks that there are and what was reserved for them. -/
theorem allocateFrom_extents {out : ℕ × List Block × Sys}
    (h : c.allocateFrom env sys block rest size = some out) :
    extents (block :: rest) <:+ extents out.2.1 := by
  rw [Config.allocateFrom] at h
  dsimp only at h
  split at h
  · obtain rfl := Option.some_inj.mp h
    exact List.suffix_rfl
  split at h
  · split at h
    · exact absurd h (Option.some_ne_none _).symm
    split at h <;> obtain rfl := Option.some_inj.mp h <;> exact List.suffix_cons _ _
  · obtain rfl := Option.some_inj.mp h
    exact List.suffix_rfl

theorem allocate_extents {out : ℕ × List Block × Sys}
    (h : c.allocate env sys blocks size = some out) :
    extents blocks <:+ extents out.2.1 := by
  cases blocks with
  | nil => exact List.nil_suffix
  | cons block rest => exact allocateFrom_extents h

/-- What the request adds to the last block, rounded up, is a `size_t`. -/
def Config.Fits (c : Config) (blocks : List Block) (size : ℕ) : Prop :=
  blocks.head?.elim 0 Block.offset + size + (c.pageSize - 1) < 2 ^ c.bits

instance (c : Config) (blocks : List Block) (size : ℕ) :
    Decidable (c.Fits blocks size) := inferInstanceAs (Decidable (_ < _))

theorem extents_append (blocks others : List Block) :
    extents (blocks ++ others) = extents blocks ++ extents others :=
  List.map_append

/-- The assumption for the blocks after a call holds for those before it. -/
theorem Config.Sound.before (hsound : c.Sound (extents (blocks' ++ others)))
    (h : extents blocks <:+ extents blocks') :
    c.Sound (extents (blocks ++ others)) := by
  rw [extents_append] at hsound ⊢
  exact hsound.sublist (h.sublist.append_right _)

theorem allocateFrom_grown {out : ℕ × List Block × Sys}
    (hinv : Inv c (block :: rest ++ others) ranges)
    (hsound : c.Sound (extents (out.2.1 ++ others))) (hfits : c.Fits (block :: rest) size)
    (h : c.allocateFrom env sys block rest (roundUp c.pageSize size) = some out) :
    Grown c others ranges size sys out := by
  have hround := c.roundUp_le_add size
  have hfits : block.offset + size + (c.pageSize - 1) < 2 ^ c.bits := hfits
  have halign : c.alignPage block.offset = block.offset := by
    rw [c.alignPage_eq (by omega),
      roundUp_of_dvd c.pageSize_pos (hinv.offset_dvd block List.mem_cons_self)]
  have hlt : block.offset + roundUp c.pageSize size < 2 ^ c.bits := by omega
  rw [Config.allocateFrom, halign] at h
  dsimp only at h
  rw [Nat.mod_eq_of_lt hlt] at h
  split at h
  · obtain rfl := Option.some_inj.mp h
    exact Grown.null hinv Keeps.refl
  split at h
  · -- The change-over to a new block.
    split at h
    · exact absurd h (Option.some_ne_none _).symm
    have hpush := hinv.push (env.reserve sys.calls (max (roundUp c.pageSize size) c.blockSize))
      (max (roundUp c.pageSize size) c.blockSize)
    split at h
    · obtain rfl := Option.some_inj.mp h
      exact Grown.null hpush (keeps_reserveBlock hinv hsound)
    · obtain rfl := Option.some_inj.mp h
      refine Grown.after (keeps_reserveBlock hinv hsound) (allocateAt_grown hpush hsound ‹_› ?_ ?_)
      · exact (Nat.zero_add _).trans_le (le_max_left _ _)
      · exact (Nat.zero_add _).trans_lt (by omega)
  · obtain rfl := Option.some_inj.mp h
    exact allocateAt_grown hinv hsound ‹_› (Nat.le_of_not_lt ‹_›) hlt

/-- One call of `allocate`. -/
theorem allocate_grown {out : ℕ × List Block × Sys} (hinv : Inv c (blocks ++ others) ranges)
    (h : c.allocate env sys blocks size = some out) (hsound : c.Sound (extents (out.2.1 ++ others)))
    (hfits : c.Fits blocks size) : Grown c others ranges size sys out := by
  cases blocks with
  | nil =>
    have hlt : 0 + size + (c.pageSize - 1) < 2 ^ c.bits := hfits
    rw [Config.allocate, c.alignPage_eq (by omega)] at h
    have hkeeps := keeps_reserveBlock hinv (hsound.before (allocateFrom_extents h))
    exact Grown.after hkeeps (allocateFrom_grown (hinv.push _ _) hsound hlt h)
  | cons block rest =>
    have hlt : block.offset + size + (c.pageSize - 1) < 2 ^ c.bits := hfits
    rw [Config.allocate, c.alignPage_eq (by omega)] at h
    exact allocateFrom_grown hinv hsound hfits h

/-! ### Runs -/

/-- Calls of `allocate_code` and `allocate_data` in any order and of any sizes, with the
ranges that they returned, the last one first. -/
inductive Run (c : Config) (env : Env) : State → List Range → Prop where
  | start : Run c env State.init []
  | code {st st' : State} {ranges : List Range} {ptr size : ℕ}
      (h : Run c env st ranges) (hfits : c.Fits st.codeBlocks size)
      (hcall : st.allocateCode c env size = some (ptr, st')) :
      Run c env st' (extend ptr size ranges)
  | data {st st' : State} {ranges : List Range} {ptr size : ℕ}
      (h : Run c env st ranges) (hfits : c.Fits st.dataBlocks size)
      (hcall : st.allocateData c env size = some (ptr, st')) :
      Run c env st' (extend ptr size ranges)

/-- What a call does to the allocator and to the pages. -/
structure Allocated (c : Config) (ranges : List Range) (size : ℕ)
    (st : State) (ptr : ℕ) (st' : State) : Prop where
  inv : Inv c st'.blocks (extend ptr size ranges)
  keeps : Keeps c ranges st.sys st'.sys
  readWrite : ptr ≠ 0 → ∀ page, Pages.Touches c.pageSize ptr size page →
    st'.sys.prot page = .readWrite

variable {st st' : State}

theorem allocateCode_cases (h : st.allocateCode c env size = some (ptr, st')) :
    ∃ blocks sys, c.allocate env st.sys st.codeBlocks size = some (ptr, blocks, sys) ∧
      st' = { st with codeBlocks := blocks, sys := sys } := by
  obtain ⟨⟨ptr, blocks, sys⟩, hcall, hout⟩ := Option.map_eq_some_iff.mp h
  obtain ⟨rfl, rfl⟩ := Prod.mk.inj hout
  exact ⟨blocks, sys, hcall, rfl⟩

theorem allocateData_cases (h : st.allocateData c env size = some (ptr, st')) :
    ∃ blocks sys, c.allocate env st.sys st.dataBlocks size = some (ptr, blocks, sys) ∧
      st' = { st with dataBlocks := blocks, sys := sys } := by
  obtain ⟨⟨ptr, blocks, sys⟩, hcall, hout⟩ := Option.map_eq_some_iff.mp h
  obtain ⟨rfl, rfl⟩ := Prod.mk.inj hout
  exact ⟨blocks, sys, hcall, rfl⟩

theorem extents_swap (blocks others : List Block) :
    (extents (blocks ++ others)).Perm (extents (others ++ blocks)) :=
  List.perm_append_comm.map _

theorem allocateCode_before (hsound : c.Sound (extents st'.blocks))
    (h : st.allocateCode c env size = some (ptr, st')) :
    c.Sound (extents st.blocks) := by
  obtain ⟨blocks, sys, hcall, rfl⟩ := allocateCode_cases h
  exact hsound.before (allocate_extents hcall)

theorem allocateData_before (hsound : c.Sound (extents st'.blocks))
    (h : st.allocateData c env size = some (ptr, st')) :
    c.Sound (extents st.blocks) := by
  obtain ⟨blocks, sys, hcall, rfl⟩ := allocateData_cases h
  exact ((hsound.perm (extents_swap _ _)).before (allocate_extents hcall)).perm (extents_swap _ _)

theorem allocateCode_allocated (hinv : Inv c st.blocks ranges)
    (hsound : c.Sound (extents st'.blocks))
    (hfits : c.Fits st.codeBlocks size) (h : st.allocateCode c env size = some (ptr, st')) :
    Allocated c ranges size st ptr st' := by
  obtain ⟨blocks, sys, hcall, rfl⟩ := allocateCode_cases h
  have hgrown := allocate_grown hinv hcall hsound hfits
  exact ⟨hgrown.inv, hgrown.keeps, hgrown.readWrite⟩

theorem allocateData_allocated (hinv : Inv c st.blocks ranges)
    (hsound : c.Sound (extents st'.blocks))
    (hfits : c.Fits st.dataBlocks size) (h : st.allocateData c env size = some (ptr, st')) :
    Allocated c ranges size st ptr st' := by
  obtain ⟨blocks, sys, hcall, rfl⟩ := allocateData_cases h
  have hgrown := allocate_grown (hinv.perm List.perm_append_comm) hcall
    (hsound.perm (extents_swap _ _)) hfits
  exact ⟨hgrown.inv.perm List.perm_append_comm, hgrown.keeps, hgrown.readWrite⟩

theorem Run.inv (hrun : Run c env st ranges) (hsound : c.Sound (extents st.blocks)) :
    Inv c st.blocks ranges := by
  induction hrun with
  | start => exact ⟨nofun, nofun, nofun, nofun, .nil⟩
  | code h hfits hcall ih =>
      exact (allocateCode_allocated (ih (allocateCode_before hsound hcall)) hsound hfits hcall).inv
  | data h hfits hcall ih =>
      exact (allocateData_allocated (ih (allocateData_before hsound hcall)) hsound hfits hcall).inv

/-! ### No two ranges share a page -/

/-- A change of the protection of `r` leaves the pages of `r'` as they are. -/
def Range.Spares (c : Config) (r r' : Range) : Prop :=
  ∀ (env : Env) (sys : Sys) (page : ℕ), r'.Touches c page →
    (c.commitReadWrite env sys r.ptr r.size).2.prot page = sys.prot page ∧
    (c.commitExecute env sys r.ptr r.size).2.prot page = sys.prot page ∧
    (c.commitReadOnly env sys r.ptr r.size).2.prot page = sys.prot page

theorem protect_of_not (p : Prot) (h : ¬Pages.Touches c.pageSize ptr size page) :
    (c.protect env sys p ptr size).2.prot page = sys.prot page := by
  rw [Config.protect]
  dsimp only
  split
  · exact setRange_of_not h
  · rfl

/-- The size that a range was given can be rounded up. -/
theorem Inv.alignPage (hinv : Inv c blocks ranges) (hsound : c.Sound (extents blocks))
    (hr : r ∈ ranges) :
    c.alignPage r.size = r.pages c := by
  obtain ⟨b, hb, hhas⟩ := hinv.inside r hr
  have hspace : b.code + b.size ≤ 2 ^ c.bits :=
    hsound.inSpace _ (List.mem_map_of_mem hb) hhas.reserved
  have hoff := hinv.offset_le b hb
  have hstart := hhas.start
  have hstop := hhas.stop
  have hnull := hhas.reserved.1
  have hle : r.size ≤ r.pages c := le_roundUp c.pageSize_pos r.size
  have hpos := c.pageSize_pos
  have hround : r.pages c + c.pageSize ≤ 2 ^ c.bits := by
    obtain ⟨j, hj⟩ : c.pageSize ∣ r.pages c := dvd_roundUp _ _
    obtain ⟨k, hk⟩ := c.pageSize_dvd
    have hlt : c.pageSize * j < c.pageSize * k := by omega
    rw [hj, hk, ← Nat.mul_succ]
    exact Nat.mul_le_mul_left _ (Nat.lt_of_mul_lt_mul_left hlt)
  exact c.alignPage_eq (by omega)

/-- Rounded up or not, the change is for the pages of the range. -/
theorem Inv.touches (hinv : Inv c blocks ranges) (hsound : c.Sound (extents blocks))
    (hr : r ∈ ranges) :
    Pages.Touches c.pageSize r.ptr (if c.windows then c.alignPage r.size else r.size) page ↔
      r.Touches c page := by
  rw [hinv.alignPage hsound hr]
  split
  · exact touches_roundUp c.pageSize_pos (hinv.ptr_dvd r hr)
  · exact Iff.rfl

theorem Inv.not_touches (hinv : Inv c blocks ranges) (hr : r ∈ ranges) (hr' : r' ∈ ranges)
    (h : Apart r.ptr (r.pages c) r'.ptr (r'.pages c)) (page : ℕ) :
    ¬(r.Touches c page ∧ r'.Touches c page) := by
  have hptr := hinv.ptr_dvd r hr
  have hptr' := hinv.ptr_dvd r' hr'
  rintro ⟨hpage, hpage'⟩
  exact not_touches_of_apart c.pageSize_pos hptr hptr' h
    ⟨(touches_roundUp c.pageSize_pos hptr).mpr hpage,
      (touches_roundUp c.pageSize_pos hptr').mpr hpage'⟩

theorem Inv.spares (hinv : Inv c blocks ranges) (hsound : c.Sound (extents blocks))
    (hr : r ∈ ranges) (hr' : r' ∈ ranges)
    (h : Apart r.ptr (r.pages c) r'.ptr (r'.pages c)) : r.Spares c r' := by
  intro env sys page hpage'
  have hno : ¬r.Touches c page := fun hpage => hinv.not_touches hr hr' h page ⟨hpage, hpage'⟩
  have hrounded := mt (hinv.touches hsound hr).mp hno
  exact ⟨protect_of_not _ hno, protect_of_not _ hrounded, protect_of_not _ hrounded⟩

/-- In any run of the allocator each range starts with a page and lies, up to whole pages,
within one reserved block; no block has handed out more than it has; no two ranges share a
page; and so a change of the protection of one leaves the pages of the other as they are. -/
theorem allocations_apart (hrun : Run c env st ranges) (hsound : c.Sound (extents st.blocks)) :
    (∀ r ∈ ranges, c.pageSize ∣ r.ptr ∧
      ∃ b ∈ st.blocks, c.Reserved b.code ∧ b.code ≤ r.ptr ∧ r.ptr + r.pages c ≤ b.code + b.size) ∧
    (∀ b ∈ st.blocks, b.offset ≤ b.size) ∧
    (ranges.Pairwise fun r r' => ∀ page, ¬(r.Touches c page ∧ r'.Touches c page)) ∧
    ranges.Pairwise fun r r' => r.Spares c r' ∧ r'.Spares c r := by
  have hinv := hrun.inv hsound
  refine ⟨fun r hr => ⟨hinv.ptr_dvd r hr, ?_⟩, hinv.offset_le, ?_, ?_⟩
  · obtain ⟨b, hb, hhas⟩ := hinv.inside r hr
    have hoff := hinv.offset_le b hb
    exact ⟨b, hb, hhas.reserved, hhas.start, hhas.stop.trans (by omega)⟩
  · exact hinv.apart.imp_of_mem fun hr hr' h => hinv.not_touches hr hr' h
  · exact hinv.apart.imp_of_mem fun hr hr' h =>
      ⟨hinv.spares hsound hr hr' h, hinv.spares hsound hr' hr h.symm⟩

/-- A 32-bit system with pages of 4096 bytes. -/
def smallSystem : Config := ⟨false, false, 12, by decide⟩

/-- Every call succeeds, and each reservation is 256 MiB above the last call's. -/
def roomyEnv : Env := ⟨fun n _ => 0x10000000 * (n + 1), fun _ _ _ _ => true⟩

/-- Code, data, and code that needs a second block. -/
theorem allocations_apart_second_block :
    ∃ st, Run smallSystem roomyEnv st [⟨0x50000000, 0x200000⟩,
      ⟨0x30000000, 100⟩, ⟨0x10000000, 5000⟩] ∧
      (∀ b ∈ st.blocks, b.offset ≤ b.size) ∧
        (⟨0x30000000, 100⟩ : Range).Spares smallSystem ⟨0x10000000, 5000⟩ := by
  have hsound : smallSystem.Sound [⟨0x50000000, 0x200000⟩,
      ⟨0x10000000, 0x200000⟩, ⟨0x30000000, 0x200000⟩] :=
    ⟨by decide, by decide, by decide, .inl (by decide)⟩
  have hstart : Run smallSystem roomyEnv State.init [] := .start
  have hcode := @Run.code _ _ _ _ _ _ 5000 hstart (by decide) rfl
  have hdata := @Run.data _ _ _ _ _ _ 100 hcode (by decide) rfl
  have hmore := @Run.code _ _ _ _ _ _ 0x200000 hdata (by decide) rfl
  have hapart := allocations_apart hmore hsound
  exact ⟨_, hmore, hapart.2.1,
    ((List.pairwise_cons.mp (List.pairwise_cons.mp hapart.2.2.2).2).1 _ List.mem_cons_self).1⟩

end ParallelRsp.Allocator
