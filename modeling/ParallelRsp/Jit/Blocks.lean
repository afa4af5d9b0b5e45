import ParallelRsp.Hash.MulXor
import ParallelRsp.Jit.Analysis
import ParallelRsp.Rsp.CodeWrites

/-!
# The compiled blocks

How `CPU` of `rsp_jit.cpp` finds the code of a region. `blocks` has the code for each word of
IMEM, as long as no code block that it lies in changes. Code that was compiled before is found
again in `cached_blocks` by a hash of its words, and nothing else is compared.

A function pointer is known here by what `jit_region` compiled it from.
-/

namespace ParallelRsp.Jit

/-- A `Func`: the words that it was compiled from, and where they started. -/
structure Func where
  /-- `pc_word`. -/
  pcWord : ℕ
  /-- The words. -/
  words : List Word
  deriving DecidableEq

/-- The members of `CPU` that compiled code is found by. -/
structure CPU where
  /-- `state`. -/
  state : Arch
  /-- `cached_imem`. -/
  cachedImem : ℕ → Word
  /-- `blocks`. -/
  blocks : ℕ → Option Func
  /-- `cached_blocks`. -/
  cachedBlocks : ℕ → BitVec 64 → Option Func

/-! ### The hash -/

/-- The multiplier of FNV-1. -/
abbrev fnvPrime : BitVec 64 := 0x100000001b3#64

/-- The words of IMEM from word `pc` on. -/
def imemWordsFrom (imem : ℕ → Word) (pc count : ℕ) : List Word :=
  (List.range count).map fun i => imem (pc + i)

/-- `hash_imem`. -/
def hashImem (imem : ℕ → Word) (pc count : ℕ) : BitVec 64 :=
  let h := 0xcbf29ce484222325#64
  let h := h * fnvPrime ^^^ BitVec.ofNat 64 pc
  let h := h * fnvPrime ^^^ BitVec.ofNat 64 count
  (List.range count).foldl (fun h i => h * fnvPrime ^^^ (imem (pc + i)).setWidth 64) h

/-- The state of `hash_imem` after words of a region of `count` words at `pc`. -/
def hashState (pc count : ℕ) (words : List Word) : BitVec 64 :=
  MulXor.digest fnvPrime (0xcbf29ce484222325#64 * fnvPrime ^^^ BitVec.ofNat 64 pc)
    (BitVec.ofNat 64 count :: words.map fun x => x.setWidth 64)

theorem hashImem_eq (imem : ℕ → Word) (pc count : ℕ) :
    hashImem imem pc count = hashState pc count (imemWordsFrom imem pc count) := by
  simp only [hashImem, hashState, imemWordsFrom, MulXor.digest,
    List.foldl_cons, List.foldl_map, List.map_map]
  rfl

namespace CPU

/-! ### `get_jit_block` -/

/-- The word index of a program counter. -/
def wordPc (pc : Word) : ℕ := (pc &&& 0xfff#32).toNat / 4

/-- `analyze_static_end` of the window at a program counter. -/
def regionEnd (imem : ℕ → Word) (pc : Word) : ℕ :=
  analyzeStaticEnd imem (wordPc pc) (windowEnd (pc &&& 0xfff#32).toNat)

/-- The words of the region at a program counter. -/
def regionWords (imem : ℕ → Word) (pc : Word) : List Word :=
  imemWordsFrom imem (wordPc pc) (regionEnd imem pc - wordPc pc)

/-- The hash of the region at a program counter. -/
def regionHash (imem : ℕ → Word) (pc : Word) : BitVec 64 :=
  hashImem imem (wordPc pc) (regionEnd imem pc - wordPc pc)

theorem regionHash_eq (imem : ℕ → Word) (pc : Word) :
    regionHash imem pc = hashState (wordPc pc) (regionWords imem pc).length
      (regionWords imem pc) := by
  rw [regionHash, hashImem_eq, regionWords, imemWordsFrom, List.length_map, List.length_range]

theorem regionEnd_congr (imem : ℕ → Word) {pc pc' : Word} (h : wordPc pc = wordPc pc') :
    regionEnd imem pc = regionEnd imem pc' := by
  have hwindow : windowEnd (pc &&& 0xfff#32).toNat = windowEnd (pc' &&& 0xfff#32).toNat := by
    simp only [wordPc, windowEnd] at h ⊢
    omega
  rw [regionEnd, regionEnd, h, hwindow]

theorem regionWords_congr (imem : ℕ → Word) {pc pc' : Word} (h : wordPc pc = wordPc pc') :
    regionWords imem pc = regionWords imem pc' := by
  rw [regionWords, regionWords, regionEnd_congr imem h, h]

variable (c : CPU)

/-- `cached_blocks[word_pc][hash]`. -/
def lookup (pc : Word) : Option Func := c.cachedBlocks (wordPc pc) (regionHash c.state.imem pc)

/-- `get_jit_block`. -/
def getJitBlock (pc : Word) : Func × CPU :=
  match c.blocks (wordPc pc) with
  | some block => (block, c)
  | none =>
    match c.lookup pc with
    | some ptr => (ptr, { c with blocks := Function.update c.blocks (wordPc pc) (some ptr) })
    | none =>
      let ptr : Func := ⟨wordPc pc, regionWords c.state.imem pc⟩
      (ptr, { c with
        blocks := Function.update c.blocks (wordPc pc) (some ptr)
        cachedBlocks := Function.update c.cachedBlocks (wordPc pc)
          (Function.update (c.cachedBlocks (wordPc pc)) (regionHash c.state.imem pc) (some ptr)) })

/-! ### Invalidation -/

/-- Whether code block `i` is what it was when code was last compiled from it: the
`memcmp` of `invalidate_imem`. -/
def BlockSame (i : ℕ) : Prop :=
  ∀ k < codeBlockWords, c.cachedImem (i * codeBlockWords + k) =
    c.state.imem (i * codeBlockWords + k)

instance (i : ℕ) : Decidable (c.BlockSame i) :=
  inferInstanceAs (Decidable (∀ k < codeBlockWords, _))

/-- The marks that `invalidate_imem` leaves. -/
def changedBlocks : Word :=
  (List.range codeBlocks).foldl (fun d i => if c.BlockSame i then d else d ||| dirtyMask i)
    c.state.dirtyBlocks

/-- `invalidate_imem`. -/
def invalidateImem : CPU := { c with state := { c.state with dirtyBlocks := c.changedBlocks } }

/-- `invalidate_code`. -/
def invalidateCode : CPU :=
  if c.state.dirtyBlocks = 0#32 then c
  else
    { state := { c.state with dirtyBlocks := 0#32 }
      cachedImem := fun i =>
        if i < imemWords ∧ c.state.dirtyBlocks.getLsbD (i / codeBlockWords) then c.state.imem i
        else c.cachedImem i
      blocks := fun i =>
        if i < imemWords ∧ c.state.dirtyBlocks.getLsbD (i / codeBlockWords) then none
        else c.blocks i
      cachedBlocks := c.cachedBlocks }

@[simp] theorem invalidateImem_blocks :
    c.invalidateImem.blocks = c.blocks := by simp only [invalidateImem]

@[simp] theorem invalidateImem_cachedBlocks :
    c.invalidateImem.cachedBlocks = c.cachedBlocks := by simp only [invalidateImem]

@[simp] theorem invalidateImem_imem : c.invalidateImem.state.imem = c.state.imem := by
  simp only [invalidateImem]

@[simp] theorem invalidateCode_cachedBlocks : c.invalidateCode.cachedBlocks = c.cachedBlocks := by
  rw [invalidateCode]
  split <;> rfl

@[simp] theorem invalidateCode_imem : c.invalidateCode.state.imem = c.state.imem := by
  rw [invalidateCode]
  split <;> rfl

variable {c} in
/-- Invalidation only removes. -/
theorem blocks_of_invalidateCode {w : ℕ} {f : Func} (h : c.invalidateCode.blocks w = some f) :
    c.blocks w = some f := by
  rw [invalidateCode] at h
  split at h
  · exact h
  · change (if _ then none else c.blocks w) = some f at h
    split at h
    · cases h
    · exact h

/-- What is in `cached_blocks` after a function has been added. -/
theorem cachedBlocks_of_insert {blocks : ℕ → BitVec 64 → Option Func} {w k : ℕ} {h h' : BitVec 64}
    {f g : Func}
    (hf : Function.update blocks w (Function.update (blocks w) h (some g)) k h' = some f) :
    k = w ∧ h' = h ∧ g = f ∨ blocks k h' = some f := by
  rw [Function.update_apply] at hf
  split at hf
  · rename_i hw
    rw [Function.update_apply] at hf
    split at hf
    · rename_i hh
      exact .inl ⟨hw, hh, Option.some.inj hf⟩
    · exact .inr (hw ▸ hf)
  · exact .inr hf

/-- The CPU before anything is compiled. -/
def initial : CPU where
  state := Arch.zero
  cachedImem := fun _ => 0#32
  blocks := fun _ => none
  cachedBlocks := fun _ _ => none

end CPU

end ParallelRsp.Jit
