import ParallelRsp.Jit.Blocks

/-!
# What the tables of compiled blocks know

`cached_imem` is IMEM as it was when what is in `blocks` was compiled. Every word that differs by
now is in a marked code block, and so is the block before (`Tables.Marked`). A region ends in the
code block where it starts or in the one behind, so what invalidation leaves in `blocks` was
compiled from the words that IMEM has.

Code found again by its hash was compiled from the current words when no two sequences of
instructions for one start word have the same hash.
-/

namespace ParallelRsp.Jit

open CPU (regionWords regionHash regionEnd)

/-- The tables that compiled code is found by. -/
structure Tables where
  /-- `cached_imem`. -/
  cachedImem : ℕ → Word
  /-- `blocks`. -/
  blocks : ℕ → Option Func
  /-- `cached_blocks`. -/
  cachedBlocks : ℕ → BitVec 64 → Option Func

/-- The tables of the CPU. -/
def CPU.tables (c : CPU) : Tables := ⟨c.cachedImem, c.blocks, c.cachedBlocks⟩

/-- The CPU with these tables. -/
def Tables.cpu (t : Tables) (a : Arch) : CPU := ⟨a, t.cachedImem, t.blocks, t.cachedBlocks⟩

/-! ### The window of a region -/

section Window

variable {imem imem' : ℕ → Word} {pc : Word}

/-- The region at a program counter starts in its window. -/
theorem wordPc_lt_windowEnd (pc : Word) : CPU.wordPc pc < windowEnd (pc &&& 0xfff#32).toNat := by
  have hlt : (pc &&& 0xfff#32).toNat < 4096 := by
    rw [Bits.toNat_and_fff]
    exact Nat.mod_lt _ (by decide)
  simp only [CPU.wordPc, windowEnd, imemWords]
  omega

/-- The window is in IMEM, and in two code blocks. -/
theorem windowEnd_le (pc : Word) :
    windowEnd (pc &&& 0xfff#32).toNat ≤ imemWords ∧
      windowEnd (pc &&& 0xfff#32).toNat ≤ (CPU.wordPc pc / codeBlockWords + 2) *
        codeBlockWords := by
  simp only [CPU.wordPc, windowEnd, imemWords, codeBlockWords]
  omega

theorem wordPc_lt_regionEnd (imem : ℕ → Word) (pc : Word) : CPU.wordPc pc < regionEnd imem pc :=
  lt_analyzeStaticEnd imem (wordPc_lt_windowEnd pc)

theorem regionEnd_le_windowEnd (imem : ℕ → Word) (pc : Word) :
    regionEnd imem pc ≤ windowEnd (pc &&& 0xfff#32).toNat :=
  min_le_right _ _

/-- A region depends on its own words only. -/
theorem regionWords_of_region
    (h : ∀ i, CPU.wordPc pc ≤ i → i < regionEnd imem pc → imem i = imem' i) :
    regionWords imem pc = regionWords imem' pc := by
  have hend : regionEnd imem pc = regionEnd imem' pc := analyzeStaticEnd_congr h
  rw [regionWords, regionWords, ← hend]
  refine List.map_congr_left fun i hi => h _ (by omega) ?_
  rw [List.mem_range] at hi
  omega

/-- So it depends on the words of its window only. -/
theorem regionWords_of_window
    (h : ∀ i, CPU.wordPc pc ≤ i → i < windowEnd (pc &&& 0xfff#32).toNat → imem i = imem' i) :
    regionWords imem pc = regionWords imem' pc :=
  regionWords_of_region fun i hlo hhi => h i hlo (hhi.trans_le (regionEnd_le_windowEnd imem pc))

/-- The region at a program counter. -/
def regionAt (imem : ℕ → Word) (pc : Word) : Region where
  imem := imem
  pcWord := CPU.wordPc pc
  count := regionEnd imem pc - CPU.wordPc pc
  pos := Nat.sub_pos_of_lt (wordPc_lt_regionEnd imem pc)
  inside := by
    have hlt := wordPc_lt_regionEnd imem pc
    have hle := regionEnd_le_windowEnd imem pc
    have hwindow := windowEnd_le pc
    omega
  small := by
    have hle := regionEnd_le_windowEnd imem pc
    have hwindow := windowEnd_le pc
    simp only [imemWords, codeBlockWords] at hwindow ⊢
    omega

/-- What `jit_region` is asked to compile. -/
def Region.func (R : Region) : Func := ⟨R.pcWord, (List.range R.count).map R.word⟩

end Window

/-! ### Regions of the same words -/

section Same

variable {T : Target} {R R' : Region}

/-- Regions of the same words at the same place. -/
structure Region.Same (R R' : Region) : Prop where
  /-- The start. -/
  pcWord : R.pcWord = R'.pcWord
  /-- The length. -/
  count : R.count = R'.count
  /-- The words. -/
  word : ∀ i < R.count, R.word i = R'.word i

namespace Region.Same

theorem of_func (h : R.func = R'.func) : R.Same R' := by
  obtain ⟨hpc, hwords⟩ := Func.mk.inj h
  have hlen := congrArg List.length hwords
  rw [List.length_map, List.length_map, List.length_range, List.length_range] at hlen
  rw [← hlen] at hwords
  exact ⟨hpc, hlen, fun i hi => List.map_inj_left.1 hwords i (List.mem_range.2 hi)⟩

variable (h : R.Same R')
include h

theorem pc_eq (i : ℕ) : R.pc i = R'.pc i := by rw [Region.pc, Region.pc, h.pcWord]

theorem blockEntry_eq (i : ℕ) : R.blockEntry i = R'.blockEntry i := by
  have hstop (R : Region) : R.pcWord + R.count - R.pcWord = R.count := Nat.add_sub_cancel_left _ _
  simp only [Region.blockEntry, jitMarkBlockEntries, hstop]
  rw [← h.count, ← h.pcWord]
  refine congrArg (decide _ && ·) ?_
  rw [Bool.eq_iff_iff, List.any_eq_true, List.any_eq_true]
  refine exists_congr fun k => and_congr_right fun hk => ?_
  have hword := h.word k (List.mem_range.1 hk)
  rw [Region.word, Region.word, ← h.pcWord] at hword
  rw [hword]

theorem nextIsTarget_eq (i : ℕ) : R.nextIsTarget i = R'.nextIsTarget i := by
  rw [Region.nextIsTarget, Region.nextIsTarget, h.count, h.blockEntry_eq]

theorem localLabel_eq (info : InstructionInfo) : R.localLabel info = R'.localLabel info := by
  have hhas : R.Has info.branchTarget ↔ R'.Has info.branchTarget := by
    rw [Region.Has, Region.Has, h.pcWord, h.count]
  rw [Region.localLabel, Region.localLabel, h.pcWord]
  exact if_congr (and_congr_right fun _ => hhas) rfl rfl

theorem handleDelaySlot_eq (i : ℕ) (info last : InstructionInfo) :
    (R.handleDelaySlot i info last : Gen T Unit) = R'.handleDelaySlot i info last := by
  simp only [Region.handleDelaySlot, jitHandleDelaySlot, h.localLabel_eq]

theorem round_eq {i : ℕ} (hi : i < R.count) (last : InstructionInfo) :
    (R.round i last : Gen T InstructionInfo) = R'.round i last := by
  simp only [Region.round, Codegen.Emit.when, Region.body, Region.instr, h.blockEntry_eq, h.pc_eq,
    h.word i hi, h.nextIsTarget_eq, h.handleDelaySlot_eq]

theorem rounds_eq {is : List ℕ} (his : ∀ i ∈ is, i < R.count)
    (last : InstructionInfo) (first : Option InstructionInfo) :
    (R.rounds is last first : Gen T Unit) = R'.rounds is last first := by
  induction is generalizing last first with
  | nil => simp only [Region.rounds, Region.finish, h.pc_eq, h.count]
  | cons i is ih =>
    obtain ⟨hi, his⟩ := List.forall_mem_cons.1 his
    simp only [Region.rounds, h.round_eq hi, ih his]

/-- The code of a region depends on its words only. -/
theorem jitRegion_eq : (jitRegion R : Option (HostCode T)) = jitRegion R' := by
  rw [jitRegion, jitRegion, ← h.count, h.rounds_eq fun i hi => List.mem_range.1 hi]

end Region.Same

/-- The words of a region compiled from IMEM are there. -/
theorem Region.word_of_func {imem : ℕ → Word} {pc : Word}
    (h : R.func = ⟨CPU.wordPc pc, regionWords imem pc⟩) {k : ℕ}
    (hk : k < R.count) : imem (R.pcWord + k) = R.word k := by
  have hsame : R.Same (regionAt imem pc) := .of_func h
  rw [hsame.word k hk, hsame.pcWord]
  rfl

end Same

/-! ### Marks -/

namespace Tables

variable {t : Tables} {a a' : Arch}

/-- Where IMEM has changed since, the code block and the one before are marked. -/
def Marked (t : Tables) (a : Arch) : Prop :=
  ∀ i < imemWords, t.cachedImem i ≠ a.imem i →
    ∀ b, b = i / codeBlockWords ∨ b + 1 = i / codeBlockWords → a.dirtyBlocks.getLsbD b

theorem Marked.dirtied (h : t.Marked a) (hd : Dirtied a a') : t.Marked a' := by
  intro i hi hne b hb
  by_cases hsame : a'.imem i = a.imem i
  · rw [hsame] at hne
    exact hd.mono b (h i hi hne b hb)
  · exact (hd.words i hsame).2 b hb

/-- Without a mark, nothing has changed. -/
theorem Marked.imem_eq (h : t.Marked a) (h0 : a.dirtyBlocks = 0#32) {i : ℕ} (hi : i < imemWords) :
    t.cachedImem i = a.imem i := by
  by_contra hne
  have hb := h i hi hne _ (.inl rfl)
  rw [h0, BitVec.getLsbD_zero] at hb
  cases hb

/-- The current region is the one that was compiled. -/
theorem Marked.regionWords_eq (h : t.Marked a) (h0 : a.dirtyBlocks = 0#32) (pc : Word) :
    regionWords t.cachedImem pc = regionWords a.imem pc :=
  regionWords_of_window fun _ _ hi => h.imem_eq h0 (hi.trans_le (windowEnd_le pc).1)

/-! ### Coherence -/

/-- No two sequences of instructions in `S` for one start word have the same hash. -/
def NoCollision (S : ℕ → List Word → Prop) : Prop :=
  ∀ pc imem imem', S (CPU.wordPc pc) (regionWords imem pc) →
    S (CPU.wordPc pc) (regionWords imem' pc) →
    regionHash imem pc = regionHash imem' pc → regionWords imem pc = regionWords imem' pc

/-- What is in `blocks` was compiled from `cached_imem`, and what is in `cached_blocks` from a
sequence in `S` with the hash that it is found under. -/
structure Coherent (S : ℕ → List Word → Prop) (t : Tables) : Prop where
  /-- `blocks`. -/
  blocks : ∀ pc f, t.blocks (CPU.wordPc pc) = some f →
    f = ⟨CPU.wordPc pc, regionWords t.cachedImem pc⟩
  /-- `cached_blocks`. -/
  hashed : ∀ pc k f, t.cachedBlocks (CPU.wordPc pc) k = some f →
    ∃ imem, f = ⟨CPU.wordPc pc, regionWords imem pc⟩ ∧ regionHash imem pc = k ∧
      S (CPU.wordPc pc) (regionWords imem pc)

end Tables

namespace CPU

variable {S : ℕ → List Word → Prop} {c : CPU}

/-! ### Invalidation -/

theorem getLsbD_changedBlocks (c : CPU) (b : ℕ) :
    c.changedBlocks.getLsbD b ↔
      c.state.dirtyBlocks.getLsbD b ∨ ∃ i < codeBlocks, ¬c.BlockSame i ∧ (b = i ∨ b + 1 = i) := by
  have main (is : List ℕ) (his : ∀ i ∈ is, i < codeBlocks) (d : Word) :
      (is.foldl (fun d i => if c.BlockSame i then d else d ||| dirtyMask i) d).getLsbD b ↔
        d.getLsbD b ∨ ∃ i ∈ is, ¬c.BlockSame i ∧ (b = i ∨ b + 1 = i) := by
    induction is generalizing d with
    | nil => simp
    | cons i is ih =>
      have hi : i < 16 := his i (List.mem_cons_self ..)
      rw [List.foldl_cons, ih fun j hj => his j (List.mem_cons_of_mem _ hj),
        List.exists_mem_cons_iff]
      by_cases hs : c.BlockSame i
      · rw [if_pos hs]
        simp only [hs, not_true_eq_false, false_and, false_or]
      · rw [if_neg hs, BitVec.getLsbD_or, Bool.or_eq_true, getLsbD_dirtyMask hi]
        simp only [hs, not_false_eq_true, true_and, or_assoc]
  rw [changedBlocks, main _ fun i hi => List.mem_range.1 hi]
  simp only [List.mem_range]

/-- `invalidate_imem` marks whatever the host has changed. -/
theorem marked_invalidateImem (c : CPU) : c.tables.Marked c.invalidateImem.state := by
  intro i hi hne b hb
  refine (c.getLsbD_changedBlocks b).2 (.inr ⟨i / codeBlockWords, ?_, fun hs => ?_, hb⟩)
  · simp only [imemWords, codeBlockWords, codeBlocks] at hi ⊢
    omega
  · have hi' : i / codeBlockWords * codeBlockWords + i % codeBlockWords = i := Nat.div_add_mod' _ _
    have heq := hs (i % codeBlockWords) (Nat.mod_lt _ (by decide))
    rw [hi'] at heq
    exact hne heq

theorem invalidateCode_dirtyBlocks (c : CPU) : c.invalidateCode.state.dirtyBlocks = 0#32 := by
  rw [invalidateCode]
  split
  · assumption
  · rfl

theorem invalidateCode_cachedImem (c : CPU) (i : ℕ) :
    c.invalidateCode.cachedImem i =
      if i < imemWords ∧ c.state.dirtyBlocks.getLsbD (i / codeBlockWords) then c.state.imem i
      else c.cachedImem i := by
  rw [invalidateCode]
  split
  · rename_i h0
    rw [h0, BitVec.getLsbD_zero, if_neg fun h => Bool.false_ne_true h.2]
  · rfl

theorem invalidateCode_blocks (c : CPU) (i : ℕ) :
    c.invalidateCode.blocks i =
      if i < imemWords ∧ c.state.dirtyBlocks.getLsbD (i / codeBlockWords) then none
      else c.blocks i := by
  rw [invalidateCode]
  split
  · rename_i h0
    rw [h0, BitVec.getLsbD_zero, if_neg fun h => Bool.false_ne_true h.2]
  · rfl

/-- After invalidation the tables know IMEM. -/
theorem marked_invalidateCode (hm : c.tables.Marked c.state) :
    c.invalidateCode.tables.Marked c.invalidateCode.state := by
  intro i hi hne
  refine absurd ?_ hne
  change c.invalidateCode.cachedImem i = c.invalidateCode.state.imem i
  rw [invalidateCode_cachedImem, invalidateCode_imem]
  split
  · rfl
  · rename_i hnot
    by_contra hne'
    exact hnot ⟨hi, hm i hi hne' _ (.inl rfl)⟩

/-- Invalidation leaves the code of regions in which no word has changed. -/
theorem coherent_invalidateCode (hm : c.tables.Marked c.state) (hc : c.tables.Coherent S) :
    c.invalidateCode.tables.Coherent S where
  blocks pc f hf := by
    change c.invalidateCode.blocks (wordPc pc) = some f at hf
    rw [invalidateCode_blocks] at hf
    split at hf
    · cases hf
    · rename_i hnot
      have hwindow := windowEnd_le pc
      have hstart := wordPc_lt_windowEnd pc
      rw [hc.blocks pc f hf]
      refine congrArg (Func.mk _) (regionWords_of_window fun i hlo hhi => ?_)
      change c.cachedImem i = c.invalidateCode.cachedImem i
      rw [invalidateCode_cachedImem]
      split
      · -- a word that changed in this window would have marked the code block that the region
        -- starts in
        rename_i hi
        by_contra hne
        refine hnot ⟨by omega, hm i hi.1 hne _ ?_⟩
        simp only [imemWords, codeBlockWords] at hwindow ⊢
        omega
      · rfl
  hashed pc k f hf := by
    change c.invalidateCode.cachedBlocks (wordPc pc) k = some f at hf
    rw [invalidateCode_cachedBlocks] at hf
    exact hc.hashed pc k f hf

/-! ### `get_jit_block` -/

theorem regionHash_congr (imem : ℕ → Word) {pc pc' : Word} (h : wordPc pc = wordPc pc') :
    regionHash imem pc = regionHash imem pc' := by
  rw [regionHash_eq, regionHash_eq, regionWords_congr imem h, h]

@[simp] theorem getJitBlock_cachedImem (c : CPU) (pc : Word) :
    (c.getJitBlock pc).2.cachedImem = c.cachedImem := by
  rw [getJitBlock]
  repeat' split
  all_goals rfl

/-- `get_jit_block` returns the code of the current region, whichever way it is found. -/
theorem getJitBlock_current (hS : Tables.NoCollision S)
    (hc : c.tables.Coherent S) (hm : c.tables.Marked c.state)
    (h0 : c.state.dirtyBlocks = 0#32) {pc : Word}
    (hpc : S (wordPc pc) (regionWords c.state.imem pc)) :
    (c.getJitBlock pc).1 = ⟨wordPc pc, regionWords c.state.imem pc⟩ := by
  rw [getJitBlock]
  cases hb : c.blocks (wordPc pc) with
  | some block =>
      exact (hc.blocks pc block hb).trans (congrArg (Func.mk _) (hm.regionWords_eq h0 pc))
  | none =>
    cases hl : c.lookup pc with
    | some ptr =>
      obtain ⟨imem, rfl, hhash, himem⟩ := hc.hashed pc _ ptr hl
      exact congrArg (Func.mk _) (hS pc _ _ himem hpc hhash)
    | none => rfl

/-- What it adds to the tables is the code of the current region. -/
theorem coherent_getJitBlock (hS : Tables.NoCollision S)
    (hc : c.tables.Coherent S) (hm : c.tables.Marked c.state)
    (h0 : c.state.dirtyBlocks = 0#32) {pc : Word}
    (hpc : S (wordPc pc) (regionWords c.state.imem pc)) :
    (c.getJitBlock pc).2.tables.Coherent S := by
  have hcurrent := getJitBlock_current hS hc hm h0 hpc
  -- an entry of `blocks` for the word
  have hblocks (pc' : Word) (f : Func)
      (hf : Function.update c.blocks (wordPc pc) (some (c.getJitBlock pc).1)
        (wordPc pc') = some f) :
      f = ⟨wordPc pc', regionWords c.cachedImem pc'⟩ := by
    rw [Function.update_apply] at hf
    split at hf
    · rename_i hw
      rw [← Option.some.inj hf, hcurrent, hw, regionWords_congr c.cachedImem hw]
      exact congrArg (Func.mk _) (hm.regionWords_eq h0 pc).symm
    · exact hc.blocks pc' f hf
  rw [getJitBlock] at hblocks ⊢
  cases hb : c.blocks (wordPc pc) with
  | some block => exact hc
  | none =>
    rw [hb] at hblocks
    cases hl : c.lookup pc with
    | some ptr =>
      rw [hl] at hblocks
      exact ⟨hblocks, hc.hashed⟩
    | none =>
      rw [hl] at hblocks
      refine ⟨hblocks, fun pc' k f hf => ?_⟩
      change Function.update c.cachedBlocks (wordPc pc) _ (wordPc pc') k = some f at hf
      rcases cachedBlocks_of_insert hf with ⟨hw, hk, rfl⟩ | hf
      · refine ⟨c.state.imem, ?_, ?_, ?_⟩
        · rw [hw, regionWords_congr _ hw]
        · rw [hk, regionHash_congr _ hw]
        · rw [hw, regionWords_congr _ hw]
          exact hpc
      · exact hc.hashed pc' k f hf

end CPU

end ParallelRsp.Jit
