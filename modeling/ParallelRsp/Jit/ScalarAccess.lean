import Mathlib.Tactic.IntervalCases
import ParallelRsp.Jit.StraightLine
import ParallelRsp.Memory.BigEndian
import ParallelRsp.Memory.Copy

/-!
# Scalar accesses to DMEM

`LB` to `SW` on bytes. The byte view of DMEM has at address `a` the raw byte
`(a mod 4096) ^ 3` (`Mips.readByte`). The code that is emitted for a load recombines the
bytes from its address on, the first one on top; the code for a store does what as many
`SB`s do. The code has two paths, one in line for aligned addresses and a helper for the
others, and both are the same function of the state (`falls_jitInstruction`), so what is
said of the code is said of both. The helper has to find its arguments, as on a host of 32 bits.

`scalar_access` is the main result.
-/

namespace ParallelRsp

open BigEndian

/-! ### The instructions -/

/-- The bytes a load reads. -/
def LoadOp.size : LoadOp → ℕ
  | .lb | .lbu => 1
  | .lh | .lhu => 2
  | .lw => 4

/-- The bytes a store writes. -/
def StoreOp.size : StoreOp → ℕ
  | .sb => 1
  | .sh => 2
  | .sw => 4

/-- What a load makes of the number it reads. -/
def LoadOp.extend : LoadOp → Word → Word
  | .lb, x => (x.setWidth 8).signExtend 32
  | .lbu, x => (x.setWidth 8).setWidth 32
  | .lh, x => (x.setWidth 16).signExtend 32
  | .lhu, x => (x.setWidth 16).setWidth 32
  | .lw, x => x

/-- The loads, by opcode. -/
def scalarLoad : ℕ → Option LoadOp
  | 0o40 => some .lb
  | 0o41 => some .lh
  | 0o43 => some .lw
  | 0o44 => some .lbu
  | 0o45 => some .lhu
  | 0o47 => some .lw
  | _ => none

/-- The stores, by opcode. -/
def scalarStore : ℕ → Option StoreOp
  | 0o50 => some .sb
  | 0o51 => some .sh
  | 0o53 => some .sw
  | _ => none

/-- The prefix of the vector operations is part of another opcode. -/
theorem opcode_of_vu {w : Word} (h : (w >>> 25).toNat = 0x25) : (w >>> 26).toNat = 0o22 := by
  rw [BitVec.toNat_ushiftRight, Nat.shiftRight_eq_div_pow] at h ⊢
  omega

/-- An instruction with a property that this opcode has not is no vector operation. -/
theorem not_vu {P : ℕ → Prop} {w : Word} (h : P (w >>> 26).toNat) (h22 : ¬P 0o22) :
    (w >>> 25).toNat ≠ 0x25 := by
  intro hvu
  rw [opcode_of_vu hvu] at h
  exact h22 h

theorem decode_load {w : Word} {op : LoadOp} (h : scalarLoad (w >>> 26).toNat = some op) :
    decode w = .load op (field5 w 16) (field5 w 21) (w.extractLsb' 0 16) := by
  unfold decode
  dsimp only
  rw [if_neg (not_vu (P := fun n => scalarLoad n = some op) h nofun)]
  generalize (w >>> 26).toNat = n at h
  unfold scalarLoad at h
  split at h <;> cases h <;> rfl

theorem decode_store {w : Word} {op : StoreOp} (h : scalarStore (w >>> 26).toNat = some op) :
    decode w = .store op (field5 w 16) (field5 w 21) (w.extractLsb' 0 16) := by
  unfold decode
  dsimp only
  rw [if_neg (not_vu (P := fun n => scalarStore n = some op) h nofun)]
  generalize (w >>> 26).toNat = n at h
  unfold scalarStore at h
  split at h <;> cases h <;> rfl

namespace Jit

/-! ### Bytes -/

section Bytes

variable {mem : ℕ → Byte} {addr x y : Word} {n : ℕ}

/-- The number in the `n` bytes from an address on. -/
def bytesAt (mem : ℕ → Byte) (addr : Word) (n : ℕ) : Word :=
  bigEndian 32 (fun k => Mips.readByte mem (addr + BitVec.ofNat 32 k)) n

/-- `SB` after `SB`, to `n` addresses in a row, each of the byte of
the number that belongs there. -/
def storeBytes (mem : ℕ → Byte) (addr x : Word) (n : ℕ) : ℕ → Byte :=
  (List.range n).foldl (fun m k =>
    Mips.store .sb m (addr + BitVec.ofNat 32 k) (x >>> (8 * (n - 1 - k)))) mem

theorem readByte_add (mem : ℕ → Byte) (addr : Word) (k : ℕ) :
    Mips.readByte mem (addr + BitVec.ofNat 32 k) = mem (byteIndex addr k) := by
  rw [readByte_eq, byteIndex_add, Nat.add_zero]

theorem storeBytes_eq_copy (mem : ℕ → Byte) (addr x : Word) (n : ℕ) :
    storeBytes mem addr x n = Copy.copy (byteOf x n) ((List.range n).map fun k =>
      (k, byteIndex addr k)) mem := by
  rw [storeBytes, Copy.copy, List.foldl_map]
  congr 1
  funext m k
  rw [Mips.store, writeByte_eq, byteIndex_add, Nat.add_zero]
  rfl

theorem mem_indices {k i : ℕ} : (k, i) ∈ (List.range n).map (fun k => (k, byteIndex addr k)) ↔
    k < n ∧ byteIndex addr k = i := by
  simp only [List.mem_map, List.mem_range, Prod.mk.injEq]
  constructor
  · rintro ⟨k, hk, rfl, rfl⟩
    exact ⟨hk, rfl⟩
  · rintro ⟨hk, rfl⟩
    exact ⟨k, hk, rfl, rfl⟩

/-- A byte that was stored. -/
theorem storeBytes_apply (hn : n ≤ 4096) {k : ℕ} (hk : k < n) :
    storeBytes mem addr x n (byteIndex addr k) = byteOf x n k := by
  have hsingle : Copy.Single ((List.range n).map fun k => (k, byteIndex addr k)) := by
    intro i j l hi hj
    obtain ⟨hin, rfl⟩ := mem_indices.1 hi
    obtain ⟨hjn, hij⟩ := mem_indices.1 hj
    by_contra hne
    exact byteIndex_ne addr (hin.trans_le hn) (hjn.trans_le hn) hne hij.symm
  rw [storeBytes_eq_copy]
  exact hsingle.copy_of_mem (mem_indices.2 ⟨hk, rfl⟩)

/-- And any other. -/
theorem storeBytes_of_ne {i : ℕ} (h : ∀ k < n, i ≠ byteIndex addr k) :
    storeBytes mem addr x n i = mem i := by
  rw [storeBytes_eq_copy]
  refine Copy.copy_of_notMem fun k hk => ?_
  obtain ⟨hkn, rfl⟩ := mem_indices.1 hk
  exact h k hkn rfl

/-- What a load makes of a number depends on its low bytes. -/
theorem extend_congr (op : LoadOp) (h : x.setWidth (8 * op.size) = y.setWidth (8 * op.size)) :
    op.extend x = op.extend y := by
  cases op with
  | lb | lh => exact congrArg (BitVec.signExtend 32) h
  | lbu | lhu => exact congrArg (BitVec.setWidth 32) h
  | lw => exact (BitVec.setWidth_eq x).symm.trans (h.trans (BitVec.setWidth_eq y))

theorem bigEndian_one (b : ℕ → Byte) : (bigEndian 32 b 1).setWidth 8 = b 0 := by
  apply BitVec.eq_of_getLsbD_eq
  intro i hi
  simp [bigEndian, hi]

theorem bigEndian_two (b : ℕ → Byte) : (bigEndian 32 b 2).setWidth 16 = b 0 ++ b 1 := by
  apply BitVec.eq_of_getLsbD_eq
  intro i hi
  rw [BitVec.getLsbD_append]
  interval_cases i <;> simp [bigEndian]

theorem bigEndian_four (b : ℕ → Byte) : bigEndian 32 b 4 = b 0 ++ b 1 ++ (b 2 ++ b 3) := by
  apply BitVec.eq_of_getLsbD_eq
  intro i hi
  rw [BitVec.getLsbD_append, BitVec.getLsbD_append, BitVec.getLsbD_append]
  interval_cases i <;> simp [bigEndian]

/-- A load recombines its bytes. -/
theorem load_eq (op : LoadOp) (mem : ℕ → Byte) (addr : Word) :
    Mips.load op mem addr = op.extend (bytesAt mem addr op.size) := by
  have hbyte (k : ℕ) := readByte_add mem addr k
  have hone : Mips.readByte mem addr = (bytesAt mem addr 1).setWidth 8 := by
    rw [bytesAt, bigEndian_one, BitVec.add_zero]
  cases op with
  | lb => exact congrArg (BitVec.signExtend 32) hone
  | lbu => exact congrArg (BitVec.setWidth 32) hone
  | lh =>
    refine congrArg (BitVec.signExtend 32) (Eq.trans ?_ (bigEndian_two _).symm)
    rw [readHalf_eq, hbyte, hbyte]
  | lhu =>
    refine congrArg (BitVec.setWidth 32) (Eq.trans ?_ (bigEndian_two _).symm)
    rw [readHalf_eq, hbyte, hbyte]
  | lw =>
    refine Eq.trans ?_ (bigEndian_four _).symm
    rw [Mips.load, readWord_eq, hbyte, hbyte, hbyte, hbyte]

theorem store_sb (mem : ℕ → Byte) (addr x : Word) (k : ℕ) :
    Mips.store .sb mem (addr + BitVec.ofNat 32 k) x =
    Function.update mem (byteIndex addr k) (x.setWidth 8) := by
  rw [Mips.store, writeByte_eq, byteIndex_add, Nat.add_zero]

theorem extract_byte (x : Word) (n : ℕ) : x.extractLsb' n 8 = (x >>> n).setWidth 8 := by
  apply BitVec.eq_of_getLsbD_eq
  intro i hi
  simp [hi]

/-- A store is as many `SB`s. -/
theorem store_eq (op : StoreOp) (mem : ℕ → Byte) (addr x : Word) :
    Mips.store op mem addr x = storeBytes mem addr x op.size := by
  cases op with
  | sb =>
    simp only [storeBytes, StoreOp.size, List.range_succ, List.range_zero, List.nil_append,
      List.foldl_cons, List.foldl_nil]
    rw [store_sb]
    rfl
  | sh =>
    simp only [storeBytes, StoreOp.size, List.range_succ, List.range_zero, List.nil_append,
      List.cons_append, List.foldl_cons, List.foldl_nil, store_sb]
    rw [Mips.store, writeHalf_eq, BitVec.extractLsb'_setWidth_of_le (by norm_num),
      BitVec.extractLsb'_setWidth_of_le (by norm_num), extract_byte, extract_byte]
  | sw =>
    simp only [storeBytes, StoreOp.size, List.range_succ, List.range_zero, List.nil_append,
      List.cons_append, List.foldl_cons, List.foldl_nil, store_sb]
    rw [Mips.store, writeWord_eq, extract_byte, extract_byte, extract_byte,
      extract_byte]

/-- What was stored, loaded. -/
theorem bytesAt_storeBytes (hn : n ≤ 4) :
    (bytesAt (storeBytes mem addr x n) addr n).setWidth (8 * n) = x.setWidth (8 * n) := by
  have hbytes : bytesAt (storeBytes mem addr x n) addr n = bigEndian 32 (byteOf x n) n := by
    refine bigEndian_congr fun k hk => ?_
    rw [readByte_add, storeBytes_apply (by omega) hk]
  rw [hbytes, setWidth_bigEndian_byteOf x (by omega)]

end Bytes

/-! ### Emitted code -/

open Codegen

variable {T : Target}

/-- What is generated, from whatever is cached, is code that falls out of its end with a state in
that relation to the one before. -/
def Does (E : Env T) {α : Type} (m : Gen T α) (P : Arch → Arch → Prop) : Prop :=
  ∀ ⦃c h v⦄, Ready c h v →
    falls (lightning E) m (fun _ c' h' => ∃ v', Ready c' h' v' ∧ P v.arch v'.arch) c h

theorem Does.mono {E : Env T} {α : Type} {m : Gen T α} {P Q : Arch → Arch → Prop} (h : Does E m P)
    (hPQ : ∀ a a', P a a' → Q a a') : Does E m Q := by
  intro c h' v hS
  refine (h hS).mono ?_
  rintro _ c' h'' ⟨v', hS', hP⟩
  exact ⟨v', hS', hPQ _ _ hP⟩

/-- One after the other. -/
theorem Does.bind {E : Env T} {α β : Type} {m : Gen T α}
    {f : α → Gen T β} {P Q : Arch → Arch → Prop} (hm : Does E m P)
    (hf : ∀ x, Does E (f x) Q) : Does E (m >>= f) fun a a'' => ∃ a', P a a' ∧ Q a' a'' := by
  intro c h v hS
  refine falls_bind ((hm hS).mono ?_)
  rintro x c' h' ⟨v', hS', hP⟩
  refine (hf x hS').mono ?_
  rintro _ c'' h'' ⟨v'', hS'', hQ⟩
  exact ⟨v'', hS'', v'.arch, hP, hQ⟩

/-- The code of an instruction without branch or exit does what the instruction does. -/
theorem does_jitInstruction (E : Env T) [E.Stdcall] {i : Instr} (hi : i.isStraight)
    (pc : Word) (last : InstructionInfo) (first nextIsTarget : Bool) :
    Does E (jitInstruction pc i last first nextIsTarget) fun a a' =>
      a' = (Mips.exec E.toHelpers pc i a).1 :=
  fun _ _ v hS => falls_jitInstruction hi (E.serves i v.arch) hS pc last first nextIsTarget

/-- The store of the low bytes of `x` at an address, and nothing else. -/
structure Stored (op : StoreOp) (addr x : Word) (a a' : Arch) : Prop where
  /-- As many `SB`s do the same, -/
  bytewise : a' = { a with dmem := storeBytes a.dmem addr x op.size }
  /-- the first one of the top byte. -/
  bytes : ∀ k < op.size, a'.dmem (byteIndex addr k) = byteOf x op.size k
  /-- No other byte changes. -/
  others : ∀ i, (∀ k < op.size, i ≠ byteIndex addr k) → a'.dmem i = a.dmem i

theorem stored_exec (op : StoreOp) (addr x : Word) (a : Arch) :
    Stored op addr x a { a with dmem := Mips.store op a.dmem addr x } := by
  have hsize : op.size ≤ 4096 := by cases op <;> decide
  refine ⟨by rw [store_eq], fun k hk => ?_, fun i hi => ?_⟩
  · rw [store_eq]
    exact storeBytes_apply hsize hk
  · rw [store_eq]
    exact storeBytes_of_ne hi

section Words

variable [T.Stdcall] (E : Env T) (w : Word)

/-- The address of a scalar access. -/
def accessAddr (a : Arch) : Word := Mips.address a (field5 w 21) (w.extractLsb' 0 16)

/-- The code of a load sets its register to what its bytes are, and nothing for register 0. -/
theorem does_load {op : LoadOp} (h : scalarLoad (w >>> 26).toNat = some op)
    (pc : Word) (last : InstructionInfo) (first nextIsTarget : Bool) :
    Does E (jitInstruction pc (decode w) last first nextIsTarget) fun a a' =>
      a' = if field5 w 16 = 0 then a
        else CP.setSr a (field5 w 16) (op.extend (bytesAt a.dmem (accessAddr w a) op.size)) := by
  rw [decode_load h]
  refine (does_jitInstruction E rfl pc last first nextIsTarget).mono fun a a' ha => ?_
  rw [ha, Mips.exec, load_eq]
  rfl

theorem does_store {op : StoreOp} (h : scalarStore (w >>> 26).toNat = some op)
    (pc : Word) (last : InstructionInfo) (first nextIsTarget : Bool) :
    Does E (jitInstruction pc (decode w) last first nextIsTarget) fun a a' =>
      Stored op (accessAddr w a) (Mips.read a (field5 w 16)) a a' := by
  rw [decode_store h]
  refine (does_jitInstruction E rfl pc last first nextIsTarget).mono fun a a' ha => ?_
  rw [ha]
  exact stored_exec op _ _ a

end Words

/-- **Scalar accesses are big-endian.** On a host of 32 bits, whatever is cached, and whichever path
is taken: the code of a load recombines exactly its bytes, with the right extension, and does
nothing when it loads to register 0; the code of a store is as many `SB`s and changes no other byte;
and a load of the same size behind a store to the same address loads what was stored, truncated and
extended. -/
theorem scalar_access [T.Stdcall] (E : Env T) (w : Word) :
    (∀ op, scalarLoad (w >>> 26).toNat = some op → ∀ pc last first nextIsTarget,
      Does E (jitInstruction pc (decode w) last first nextIsTarget) fun a a' =>
        a' = if field5 w 16 = 0 then a
          else CP.setSr a (field5 w 16) (op.extend (bytesAt a.dmem (accessAddr w a) op.size))) ∧
    (∀ op, scalarStore (w >>> 26).toNat = some op → ∀ pc last first nextIsTarget,
      (Does E (jitInstruction pc (decode w) last first nextIsTarget) fun a a' =>
        Stored op (accessAddr w a) (Mips.read a (field5 w 16)) a a') ∧
      ∀ (w' : Word) (op' : LoadOp), scalarLoad (w' >>> 26).toNat = some op' →
        op'.size = op.size → field5 w' 21 = field5 w 21 →
        w'.extractLsb' 0 16 = w.extractLsb' 0 16 → ∀ pc' last' first' nextIsTarget',
        Does E (do
            let _ ← jitInstruction pc (decode w) last first nextIsTarget
            jitInstruction pc' (decode w') last' first' nextIsTarget') fun a a'' =>
          ∃ a', Stored op (accessAddr w a) (Mips.read a (field5 w 16)) a a' ∧
            a'' = if field5 w' 16 = 0 then a'
              else CP.setSr a' (field5 w' 16) (op'.extend (Mips.read a (field5 w 16)))) := by
  refine ⟨fun op h pc last first nextIsTarget => does_load E w h pc last first nextIsTarget,
    fun op h pc last first nextIsTarget => ⟨does_store E w h pc last first nextIsTarget, ?_⟩⟩
  intro w' op' h' hsize hrs himm pc' last' first' nextIsTarget'
  refine ((does_store E w h pc last first nextIsTarget).bind fun _ =>
    does_load E w' h' pc' last' first' nextIsTarget').mono ?_
  rintro a a'' ⟨a', hstored, rfl⟩
  refine ⟨a', hstored, if_congr Iff.rfl rfl (congrArg (CP.setSr a' _) ?_)⟩
  -- the store leaves the base register alone
  have haddr : accessAddr w' a' = accessAddr w a := by
    rw [hstored.bytewise, accessAddr, accessAddr, hrs, himm]
    rfl
  have hle : op.size ≤ 4 := by cases op <;> decide
  rw [haddr, hstored.bytewise, hsize]
  refine extend_congr op' ?_
  rw [hsize]
  exact bytesAt_storeBytes hle

/-- `SW $8, 1($0)` and `LW $9, 1($0)`, through the unaligned helpers. -/
theorem sw_lw_unaligned :
    Does smallEnv (do
        let _ ← jitInstruction 0#32 (decode 0xac080001#32) {} true false
        jitInstruction 4#32 (decode 0x8c090001#32) {} false false) fun a a'' =>
      ∃ a', Stored .sw (accessAddr 0xac080001#32 a) (Mips.read a 8) a a' ∧
        a'' = CP.setSr a' 9 (Mips.read a 8) :=
  ((scalar_access smallEnv 0xac080001#32).2 .sw (by decide) 0#32 {} true false).2
    0x8c090001#32 .lw (by decide) rfl
    (by decide) (by decide) 4#32 {} false false

end Jit

end ParallelRsp
