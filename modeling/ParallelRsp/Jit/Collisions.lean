import Mathlib.Tactic.IntervalCases
import Mathlib.Tactic.Linarith
import ParallelRsp.Jit.Blocks

/-!
# Code found by its hash

What a hash of 64 bits tells about the words of a region, over all runs of the tables of
compiled blocks. Regions that differ in one word never have the same hash. The words of a
region are half as wide as the state, and two adjacent words can make up for each other,
but only when the states between them differ by one certain number: so close regions are
told apart, and yet `get_jit_block` may find code that was compiled from other words.
-/

namespace ParallelRsp.Jit

/-! ### Runs of the tables -/

/-- What happens to the tables of compiled blocks. -/
inductive CacheOp where
  /-- The host or the program writes to memory, and may mark code blocks. -/
  | write (state : Arch)
  /-- `invalidate_imem`. -/
  | invalidateImem
  /-- `invalidate_code`. -/
  | invalidateCode
  /-- `get_jit_block`. -/
  | getJitBlock (pc : Word)

/-- The CPU afterwards. -/
def CacheOp.apply : CacheOp → CPU → CPU
  | .write state, c => { c with state := state }
  | .invalidateImem, c => c.invalidateImem
  | .invalidateCode, c => c.invalidateCode
  | .getJitBlock pc, c => (c.getJitBlock pc).2

namespace CPU

/-- The CPU after a run from the start. -/
def run (ops : List CacheOp) : CPU := ops.foldl (fun c op => op.apply c) initial

/-- Every function in `cached_blocks` was compiled from some content of IMEM, at the word and with
the hash that it is found under. -/
def Hashed (c : CPU) : Prop :=
  ∀ w h f, c.cachedBlocks w h = some f →
    ∃ pc imem, wordPc pc = w ∧ f = ⟨w, regionWords imem pc⟩ ∧ regionHash imem pc = h

theorem Hashed.getJitBlock {c : CPU} (h : c.Hashed) (pc : Word) : (c.getJitBlock pc).2.Hashed := by
  rw [CPU.getJitBlock]
  cases c.blocks (wordPc pc) with
  | some block => exact h
  | none =>
    cases c.lookup pc with
    | some ptr => exact h
    | none =>
      intro w k f hf
      change Function.update c.cachedBlocks (wordPc pc) _ w k = some f at hf
      rcases cachedBlocks_of_insert hf with ⟨rfl, rfl, rfl⟩ | hf
      · exact ⟨pc, c.state.imem, rfl, rfl, rfl⟩
      · exact h _ _ _ hf

theorem Hashed.apply {c : CPU} (h : c.Hashed) (op : CacheOp) : (op.apply c).Hashed := by
  cases op with
  | write state => exact h
  | invalidateImem => exact h
  | invalidateCode =>
    rw [CacheOp.apply, CPU.invalidateCode]
    split
    · exact h
    · exact h
  | getJitBlock pc => exact h.getJitBlock pc

theorem hashed_run (ops : List CacheOp) : (run ops).Hashed := by
  have main (c : CPU) (h : c.Hashed) : (ops.foldl (fun c op => op.apply c) c).Hashed := by
    induction ops generalizing c with
    | nil => exact h
    | cons op ops ih => exact ih _ (h.apply op)
  exact main initial nofun

end CPU

/-! ### What the hash tells -/

/-- The inverse of the multiplier. -/
theorem fnvPrime_inv : fnvPrime * 0xce965057aff6957b#64 = 1#64 := by decide

/-- The one distance of two states that a word can make up for after the next multiplication. -/
def nearMiss : ℤ := 151 * 2 ^ 24 - 1

/-- A difference of less than half a state whose product with the multiplier is less than half a
state, too: the lowest 24 bits would reappear at the top, unless they are nearly zero. -/
theorem low_difference {δ ε m : ℤ} (hδ : |δ| < 2 ^ 32) (hε : |ε| < 2 ^ 32)
    (h : δ * (2 ^ 40 + 435) = ε + m * 2 ^ 64) :
    δ = 0 ∨ |δ| = nearMiss := by
  rw [abs_lt] at hδ hε
  rw [abs_eq (by decide), nearMiss]
  obtain ⟨a, b, hab, hlo, hhi⟩ : ∃ a b : ℤ, δ = a * 2 ^ 24 + b ∧ -2 ^ 23 ≤ b ∧ b < 2 ^ 23 :=
    ⟨(δ + 2 ^ 23) / 2 ^ 24, (δ + 2 ^ 23) % 2 ^ 24 - 2 ^ 23, by omega, by omega, by omega⟩
  have hma : m = a := by omega
  have hb : -2 ≤ b ∧ b ≤ 2 := by omega
  obtain ⟨hb1, hb2⟩ := hb
  interval_cases b <;> omega

/-- Two states with one upper half whose products have one upper half
are equal, or that far apart. -/
theorem fnv_upper_halves {h k : BitVec 64} (hstate : h.toNat / 2 ^ 32 = k.toNat / 2 ^ 32)
    (hprod : (h * fnvPrime).toNat / 2 ^ 32 = (k * fnvPrime).toNat / 2 ^ 32) :
    h = k ∨ |(h.toNat : ℤ) - k.toNat| = nearMiss := by
  have hmul (x : BitVec 64) :
      ((x * fnvPrime).toNat : ℤ) + (x.toNat * (2 ^ 40 + 435) / 2 ^ 64 : ℕ) *
        2 ^ 64 = x.toNat * (2 ^ 40 + 435) := by
    rw [BitVec.toNat_mul]
    exact_mod_cast Nat.mod_add_div' (x.toNat * (2 ^ 40 + 435)) (2 ^ 64)
  have hh := hmul h
  have hk := hmul k
  have habs {a b : ℕ} (hab : a / 2 ^ 32 = b / 2 ^ 32) : |(a : ℤ) - b| < 2 ^ 32 := by
    rw [abs_lt]
    omega
  refine (low_difference
    (m := (h.toNat * (2 ^ 40 + 435) / 2 ^ 64 : ℕ) - (k.toNat * (2 ^ 40 + 435) / 2 ^ 64 : ℕ))
    (habs hstate) (habs hprod) (by linarith)).imp_left fun h0 => ?_
  exact BitVec.eq_of_toNat_eq (by omega)

/-! ### Regions of one hash -/

theorem upperHalf_xor (a : BitVec 64) (x : Word) :
    (a ^^^ x.setWidth 64).toNat / 2 ^ 32 = a.toNat / 2 ^ 32 := by
  have hx : (x.setWidth 64).toNat / 2 ^ 32 = 0 := by
    rw [BitVec.toNat_setWidth]
    have := x.isLt
    omega
  rw [BitVec.toNat_xor, ← Nat.shiftRight_eq_div_pow, Nat.shiftRight_xor_distrib,
    Nat.shiftRight_eq_div_pow, Nat.shiftRight_eq_div_pow, hx, Nat.xor_zero]

theorem hashState_append (pc count : ℕ) (ws ws' : List Word) :
    hashState pc count (ws ++ ws') = MulXor.digest fnvPrime
      (hashState pc count ws) (ws'.map fun x => x.setWidth 64) := by
  rw [hashState, List.map_append, ← List.cons_append, MulXor.digest_append]
  rfl

theorem setWidth_inj {x y : Word} : x.setWidth 64 = y.setWidth 64 ↔ x = y := by
  constructor
  · intro h
    have := congrArg (BitVec.setWidth 32) h
    simpa using this
  · rintro rfl
    rfl

/-- Two lists of one hash do not differ in one word only. -/
theorem hashState_one_word {pc count : ℕ} {pre post : List Word} {x x' : Word}
    (h : hashState pc count (pre ++ x :: post) = hashState pc count (pre ++ x' :: post)) :
    x = x' := by
  simp only [hashState, List.map_append, List.map_cons, ← List.cons_append] at h
  exact setWidth_inj.mp ((MulXor.digest_one_word fnvPrime_inv _ _).mp h)

/-- Two lists of one hash that differ in two adjacent words only are a near miss between them. -/
theorem hashState_two_words {pc count : ℕ} {pre post : List Word} {x y x' y' : Word}
    (h : hashState pc count (pre ++ x :: y :: post) =
      hashState pc count (pre ++ x' :: y' :: post)) :
    (x = x' ∧ y = y') ∨
      |((hashState pc count (pre ++ [x])).toNat :
        ℤ) - (hashState pc count (pre ++ [x'])).toNat| = nearMiss := by
  have hprod : hashState pc count (pre ++ [x]) * fnvPrime ^^^
      hashState pc count (pre ++ [x']) * fnvPrime =
      y.setWidth 64 ^^^ y'.setWidth 64 := by
    have h' := h
    simp only [hashState, List.map_append, List.map_cons, ← List.cons_append] at h'
    have := (MulXor.digest_two_words fnvPrime_inv _ _).mp h'
    simpa only [hashState, List.map_append, List.map_cons,
      List.map_nil, ← List.cons_append] using this
  have hupper (z : Word) : (hashState pc count (pre ++ [z])).toNat / 2 ^ 32 =
      (hashState pc count pre * fnvPrime).toNat / 2 ^ 32 := by
    rw [hashState_append]
    exact upperHalf_xor _ z
  have hprodUpper : (hashState pc count (pre ++ [x]) * fnvPrime).toNat / 2 ^ 32 =
      (hashState pc count (pre ++ [x']) * fnvPrime).toNat / 2 ^ 32 := by
    rw [← upperHalf_xor _ y, ← upperHalf_xor (hashState pc count (pre ++ [x']) * fnvPrime) y',
      MulXor.xor_eq_xor_iff.mpr hprod]
  rcases fnv_upper_halves ((hupper x).trans (hupper x').symm) hprodUpper with hsame | hfar
  · left
    rw [hashState_append, hashState_append] at hsame
    obtain rfl := setWidth_inj.mp (MulXor.step_word_inj.mp hsame)
    rw [BitVec.xor_self] at hprod
    exact ⟨rfl, setWidth_inj.mp (BitVec.xor_eq_zero_iff.mp hprod.symm)⟩
  · exact .inr hfar

namespace CPU

/-- **Lookup by hash**: regions at one start word with one hash do not differ in one word
only, nor in two adjacent words only unless the states between them are a near miss; and in
every run what `cached_blocks` has for the current region was compiled from a region at
that start word with that hash. -/
theorem equal_hash_regions :
    (∀ (pc : Word) (imem imem' : ℕ → Word), regionHash imem pc = regionHash imem' pc →
      (∀ pre x x' post, regionWords imem pc = pre ++ x :: post →
        regionWords imem' pc = pre ++ x' :: post → x = x') ∧
      (∀ pre x y x' y' post, regionWords imem pc = pre ++ x :: y :: post →
        regionWords imem' pc = pre ++ x' :: y' :: post →
        (x = x' ∧ y = y') ∨
          |((hashState (wordPc pc) (regionWords imem pc).length (pre ++ [x])).toNat : ℤ) -
            (hashState (wordPc pc) (regionWords imem pc).length (pre ++ [x'])).toNat| = nearMiss)) ∧
    (∀ (ops : List CacheOp) (pc : Word) (f : Func), (run ops).lookup pc = some f →
      f.pcWord = wordPc pc ∧
        ∃ imem, f.words = regionWords imem pc ∧
          regionHash imem pc = regionHash (run ops).state.imem pc) := by
  refine ⟨fun pc imem imem' h =>
    ⟨fun pre x x' post hw hw' => ?_, fun pre x y x' y' post hw hw' => ?_⟩,
    fun ops pc f hf => ?_⟩
  · have hlen : (regionWords imem pc).length = (regionWords imem' pc).length := by simp [hw, hw']
    rw [regionHash_eq, regionHash_eq, ← hlen, hw, hw'] at h
    exact hashState_one_word h
  · have hlen : (regionWords imem pc).length = (regionWords imem' pc).length := by simp [hw, hw']
    rw [regionHash_eq, regionHash_eq, ← hlen] at h
    generalize (regionWords imem pc).length = n at h ⊢
    rw [hw, hw'] at h
    exact hashState_two_words h
  · obtain ⟨pc', imem, hpc, rfl, hhash⟩ := hashed_run ops _ _ _ hf
    have hwords := regionWords_congr imem hpc
    refine ⟨rfl, imem, hwords, ?_⟩
    rw [← hhash, regionHash_eq, regionHash_eq, hpc, hwords]

/-- IMEM that starts with some words. -/
def imemOf (words : List Word) (i : ℕ) : Word := words.getD i 0#32

/-- A state with some IMEM and all code blocks unmarked. -/
def stateOf (imem : ℕ → Word) : Arch := { Arch.zero with imem := imem }

/-- When the tables have only one function for the current region, `get_jit_block` returns it. -/
theorem getJitBlock_of_lookup {c : CPU} {pc : Word} {f : Func} (hf : c.lookup pc = some f)
    (hblock : ∀ g, c.blocks (wordPc pc) = some g → g = f) : (c.getJitBlock pc).1 = f := by
  rw [CPU.getJitBlock]
  cases hb : c.blocks (wordPc pc) with
  | some g => exact hblock g hb
  | none => rw [hf]

/-- Code that was compiled from one content of IMEM is used for another one whose region has the
same hash, though all code blocks that changed are invalidated. -/
theorem getJitBlock_reuses {pc : Word} {imem imem' : ℕ → Word}
    (h : regionHash imem' pc = regionHash imem pc) :
    ((run [.write (stateOf imem), .getJitBlock pc, .write (stateOf imem'),
      .invalidateImem, .invalidateCode]).getJitBlock pc).1.words =
      regionWords imem pc := by
  -- the tables once the first content is compiled
  have hcompiled : (run [.write (stateOf imem), .getJitBlock pc]).blocks (wordPc pc) =
      some ⟨wordPc pc, regionWords imem pc⟩ ∧
      (run [.write (stateOf imem), .getJitBlock pc]).cachedBlocks (wordPc pc) (regionHash imem pc) =
        some ⟨wordPc pc, regionWords imem pc⟩ := by
    refine ⟨Function.update_self .., ?_⟩
    change Function.update (initial.cachedBlocks) (wordPc pc)
      (Function.update (initial.cachedBlocks (wordPc pc)) (regionHash imem pc)
      (some ⟨wordPc pc, regionWords imem pc⟩)) (wordPc pc) (regionHash imem pc) = _
    rw [Function.update_self, Function.update_self]
  have hrun : run [.write (stateOf imem), .getJitBlock pc,
    .write (stateOf imem'), .invalidateImem, .invalidateCode] =
      { run [.write (stateOf imem), .getJitBlock pc] with
        state := stateOf imem' }.invalidateImem.invalidateCode := rfl
  rw [hrun]
  have hlookup : { run [.write (stateOf imem), .getJitBlock pc] with
      state := stateOf imem' }.invalidateImem.invalidateCode.lookup pc =
        some ⟨wordPc pc, regionWords imem pc⟩ := by
    rw [lookup, invalidateCode_cachedBlocks, invalidateImem_cachedBlocks,
      invalidateCode_imem, invalidateImem_imem]
    exact (congrArg _ h).trans hcompiled.2
  rw [getJitBlock_of_lookup hlookup]
  intro g hg
  exact Option.some.inj ((blocks_of_invalidateCode hg).symm.trans hcompiled.1)

/-- Two regions of three instructions with one hash, and two of one and four: `get_jit_block`
returns the code of the region that was compiled first when IMEM has the other. -/
theorem equal_hash_other_words :
    let a : List Word := [0x38c0c8fd#32, 0x20080001#32, 0x0000000d#32]
    let b : List Word := [0x87c0c8fc#32, 0x8f080276#32, 0x0000000d#32]
    let short : List Word := [0x0000000d#32]
    let long : List Word := [0x2054478d#32, 0x2b32aa82#32, 0x81e96e9c#32, 0x0000000d#32]
    regionWords (imemOf a) 0#32 = a ∧ regionWords (imemOf b) 0#32 = b ∧ a ≠ b ∧
      regionHash (imemOf a) 0#32 = regionHash (imemOf b) 0#32 ∧
      regionWords (imemOf short) 0#32 = short ∧ regionWords (imemOf long) 0#32 = long ∧
        short.length ≠ long.length ∧
      regionHash (imemOf short) 0#32 = regionHash (imemOf long) 0#32 ∧
      ((run [.write (stateOf (imemOf a)), .getJitBlock 0#32,
        .write (stateOf (imemOf b)), .invalidateImem,
        .invalidateCode]).getJitBlock 0#32).1.words = a := by
  intro a b short long
  have hhash : regionHash (imemOf a) 0#32 = regionHash (imemOf b) 0#32 := by decide
  have ha : regionWords (imemOf a) 0#32 = a := by decide
  exact ⟨ha, by decide, by decide, hhash, by decide +kernel,
    by decide, by decide, by decide +kernel,
    (getJitBlock_reuses hhash.symm).trans ha⟩

end CPU

end ParallelRsp.Jit
