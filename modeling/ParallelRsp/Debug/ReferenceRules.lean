import ParallelRsp.Debug.Reference
import ParallelRsp.Jit.RegionTargets
import ParallelRsp.Jit.ScalarAccess

/-!
# What the reference does

What the text of every scalar instruction does to registers and DMEM, in the words of the
reference machine. `Leaves` is the rule for each form of text. The text is what the machine
does, but for two things (`effect_instruction`): `SLTIU` compares with its immediate
zero-extended, and a branch with a link is decided, and its target taken, behind the write of
the link.
-/

namespace ParallelRsp.Debug

open CLang
open Jit (byteIndex)

variable {s : State Var} {a a' : Arch}

/-! ### States -/

/-- The C state holds the registers and DMEM. -/
structure Same (s : State Var) (a : Arch) : Prop where
  /-- The registers. -/
  sr : ∀ r : Fin 32, s.vars (.sr r) = a.sr r
  /-- DMEM. -/
  mem : s.mem = a.dmem

/-- A local variable assigned. -/
theorem Same.setLocal (h : Same s a) {v : Var} (hv : ∀ r, v ≠ .sr r) (x : Word) :
    Same (s.set v x) a where
  sr r := (s.set_vars_of_ne x (hv r).symm).trans (h.sr r)
  mem := h.mem

/-- A register assigned. -/
theorem Same.setSr (h : Same s a) (r : Fin 32) (x : Word) :
    Same (s.set (.sr r) x) (CP.setSr a r x) where
  sr r' := by
    show (s.set (.sr r) x).vars (.sr r') = Function.update a.sr r x r'
    by_cases hr : r' = r
    · rw [hr, s.set_vars_self, Function.update_self]
    · rw [s.set_vars_of_ne x fun hv => hr (Var.sr.inj hv), Function.update_of_ne fun hv =>
        hr (Fin.ext hv)]
      exact h.sr r'
  mem := h.mem

theorem Same.setMem (h : Same s a) (mem : ℕ → Byte) :
    Same { s with mem := mem } { a with dmem := mem } := ⟨h.sr, rfl⟩

/-- The state behind `PIPELINE_BRANCH`. -/
theorem exec_advanceDelaySlot (h : Same s a) :
    ∃ s', advanceDelaySlot.exec s = .fall s' ∧ Same s' a ∧ s'.vars .pipeBranch = 0#32 := by
  have h₁ := h.setLocal (v := .branch) (by simp) (s.vars .pipeBranch)
  have h₂ := h₁.setLocal (v := .pipeBranch) (by simp) 0#32
  refine ⟨_, rfl, h₂.setLocal (v := .branchDelay) (by simp) _, ?_⟩
  exact (State.set_vars_of_ne _ _ (by decide)).trans (State.set_vars_self _ _ _)

/-! ### Operands -/

@[simp] theorem eval_num (x : Word) : (num x).eval s = .int x := rfl

@[simp] theorem int_bits (x : Word) : (Val.int x).bits = x := rfl

theorem eval_reg (h : Same s a) (r : Fin 32) : ((reg r).eval s).bits = Mips.read a r := by
  rw [reg, Mips.read]
  split
  · rfl
  · exact h.sr r

/-- Register 0 is an `int`, but zero. -/
theorem small_reg (r : Fin 32) : ((reg r).eval s).Small := by
  rw [reg]
  split
  · exact Val.small_int rfl
  · exact Val.small_unsigned _

/-! ### Rules -/

/-- What is left behind by code that ends at its end. -/
def Effect.of (a : Arch) (branch : Option Word) : Effect := ⟨fun r => a.sr r, a.dmem, branch, none⟩

/-- The text does that to registers and DMEM, and branches there. -/
def Leaves (e : Emitted) (a a' : Arch) (b : Option Word) : Prop :=
  ∀ s, Same s a → e.effect s = Effect.of a' b

/-- The statements end at their end, with these registers and DMEM, and nothing decided. -/
def Falls (code : List (Stmt Var)) (a a' : Arch) : Prop :=
  ∀ s, Same s a → s.vars .pipeBranch = 0#32 →
    ∃ s', (Stmt.block code).exec s = .fall s' ∧ Same s' a' ∧ s'.vars .pipeBranch = 0#32

theorem Same.effect (h : Same s a) (p : Pipe) :
    (⟨fun r => s.vars (.sr r), s.mem, p.goesTo s, none⟩ : Effect) = Effect.of a (p.goesTo s) :=
  Effect.ext (funext h.sr) h.mem rfl rfl

theorem leaves_of_exec {e : Emitted} {b : Option Word}
    (h : ∀ s, Same s a → s.vars .pipeBranch = 0#32 →
      ∃ s', (Stmt.block e.code).exec s = .fall s' ∧ Same s' a' ∧ e.pipe.goesTo s' = b) :
        Leaves e a a' b := by
  intro s hs
  obtain ⟨s₁, h₁, hs₁, h0⟩ := exec_advanceDelaySlot hs
  obtain ⟨s', hx, hs', rfl⟩ := h s₁ hs₁ h0
  rw [Emitted.effect, Stmt.exec_block_cons, h₁, Outcome.fall_andThen, hx]
  exact hs'.effect e.pipe

theorem goesTo_of_not_taken {p : Pipe} (h : s.vars .pipeBranch = 0#32) :
    p.goesTo s = none := if_pos h

/-- Text without a branch. -/
theorem Falls.leaves {code : List (Stmt Var)} (h : Falls code a a') :
    Leaves { code := code } a a' none := by
  refine leaves_of_exec fun s hs h0 => ?_
  obtain ⟨s', hx, hs', h0'⟩ := h s hs h0
  exact ⟨s', hx, hs', goesTo_of_not_taken h0'⟩

theorem falls_nil (a : Arch) : Falls [] a a := fun s hs h0 => ⟨s, rfl, hs, h0⟩

/-- An assignment to a register that is not register 0. -/
theorem falls_assign {r : Fin 32} {e : Expr Var} {x : Word} (hr : r ≠ 0)
    (he : ∀ s, Same s a → (e.eval s).bits = x) :
    Falls [.assign (.sr r) e] a (Mips.write a r x) := by
  intro s hs h0
  refine ⟨s.set (.sr r) (e.eval s).bits, rfl, ?_, (s.set_vars_of_ne _ Var.noConfusion).trans h0⟩
  rw [he s hs, Mips.write, if_neg hr]
  exact hs.setSr r x

theorem falls_notR0 {r : Fin 32} {code : List (Stmt Var)}
    {x : Word} (h : r ≠ 0 → Falls code a (Mips.write a r x)) :
    Falls (if r ≠ 0 then code else []) a (Mips.write a r x) := by
  by_cases hr : r = 0
  · rw [if_neg (not_not.2 hr), Mips.write, if_pos hr]
    exact falls_nil a
  · rw [if_pos hr]
    exact h hr

theorem leaves_notR0 {r : Fin 32} {e : Expr Var} {x : Word}
    (he : ∀ s, Same s a → (e.eval s).bits = x) :
    Leaves (notR0 r e) a (Mips.write a r x) none :=
  (falls_notR0 fun hr => falls_assign hr he).leaves

/-! ### Values -/

/-- The text of an operation on two registers. -/
def aluText (op : AluOp) (rs rt : Fin 32) : Expr Var :=
  match op with
  | .add => reg rs + reg rt
  | .sub => reg rs - reg rt
  | .and => reg rs &&& reg rt
  | .or => reg rs ||| reg rt
  | .xor => reg rs ^^^ reg rt
  | .nor => .not (reg rs ||| reg rt)
  | .slt => .bin .lt (int rs) (int rt)
  | .sltu => .bin .lt (reg rs) (reg rt)

section Values

variable (h : Same s a)
include h

/-- A register as an `int`. -/
theorem eval_int (r : Fin 32) : (int r).eval s = ⟨.int, Mips.read a r⟩ :=
  congrArg (Val.mk .int) (eval_reg h r)

/-- `<` between `int`s. -/
theorem bits_slt (r : Fin 32) (e : Expr Var) {x : Word} (he : e.eval s = ⟨.int, x⟩) :
    ((Expr.bin .lt (int r) e).eval s).bits = Mips.ofBool ((Mips.read a r).slt x) := by
  rw [Expr.eval_bin, eval_int h, he]
  rfl

/-- `<` where the types do not matter. -/
theorem bits_sltu (r : Fin 32) (e : Expr Var) {x : Word}
    (he : (e.eval s).Small) (hx : (e.eval s).bits = x) :
    ((Expr.bin .lt (reg r) e).eval s).bits = Mips.ofBool ((Mips.read a r).ult x) := by
  rw [Expr.eval_bin, BinOp.eval_lt (small_reg r) he, eval_reg h, hx]
  rfl

theorem bits_alu (op : AluOp) (rs rt : Fin 32) :
    ((aluText op rs rt).eval s).bits = Mips.alu op (Mips.read a rs) (Mips.read a rt) := by
  have hs := eval_reg h rs
  have ht := eval_reg h rt
  cases op with
  | add => exact congrArg₂ (· + ·) hs ht
  | sub => exact congrArg₂ (· - ·) hs ht
  | and => exact congrArg₂ (· &&& ·) hs ht
  | or => exact congrArg₂ (· ||| ·) hs ht
  | xor => exact congrArg₂ (· ^^^ ·) hs ht
  | nor => exact congrArg₂ (fun x y => ~~~(x ||| y)) hs ht
  | slt => exact bits_slt h rs _ (eval_int h rt)
  | sltu => exact bits_sltu h rs _ (small_reg rt) ht

theorem toNat_maskSA (r : Fin 32) :
    ((maskSA (reg r)).eval s).bits.toNat = (Mips.read a r).toNat % 32 := by
  rw [maskSA, Expr.eval_and, eval_reg h]
  exact Bits.toNat_and_ones _ 5 (by norm_num)

/-- The shifts, by an amount that is computed or known. -/
theorem bits_shift (r : Fin 32) (n : Expr Var) {k : ℕ} (hk : (n.eval s).bits.toNat = k) :
    ((reg r <<< n).eval s).bits = Mips.shift .sll (Mips.read a r) k ∧
      ((reg r >>> n).eval s).bits = Mips.shift .srl (Mips.read a r) k ∧
      ((int r >>> Expr.cast .int n).eval s).bits = Mips.shift .sra (Mips.read a r) k := by
  refine ⟨?_, ?_, ?_⟩
  · rw [Expr.eval_shl, eval_reg h, hk]
    rfl
  · rw [Expr.eval_shr _ _ _ (small_reg r), eval_reg h, hk]
    rfl
  · have hsra : ((int r >>> Expr.cast .int n).eval s).bits =
        (((reg r).eval s).bits).sshiftRight (n.eval s).bits.toNat := rfl
    rw [hsra, eval_reg h, hk]
    rfl

end Values

/-! ### Indices -/

section Indices

variable (A : Word)

theorem toNat_bes (x : Word) : ((x &&& 0xfff#32) ^^^ 3#32).toNat = (x.toNat % 4096) ^^^ 3 := by
  rw [BitVec.toNat_xor, Bits.toNat_and_fff]
  rfl

/-- The `k`-th byte from an address. -/
theorem index_behind (k : ℕ) :
    ((((A &&& 0xfff#32) + BitVec.ofNat 32 k) &&& 0xfff#32) ^^^ 3#32).toNat = byteIndex A k := by
  rw [toNat_bes, BitVec.toNat_add, Bits.toNat_and_fff, BitVec.toNat_ofNat, byteIndex]
  congr 1
  omega

theorem index_first : ((A &&& 0xfff#32) ^^^ 3#32).toNat = byteIndex A 0 := toNat_bes A

/-- The halfword at an even address, the other way round. -/
theorem index_half (hA : (A &&& 0xfff#32) &&& 1#32 = 0#32) :
    2 * (((A &&& 0xfff#32) ^^^ 2#32) >>> 1).toNat = byteIndex A 1 ∧
      2 * (((A &&& 0xfff#32) ^^^ 2#32) >>> 1).toNat + 1 = byteIndex A 0 := by
  have heven := congrArg BitVec.toNat hA
  rw [Bits.toNat_and_1, Bits.toNat_and_fff] at heven
  have hval : (((A &&& 0xfff#32) ^^^ 2#32) >>> 1).toNat = (A.toNat % 4096 ^^^ 2) / 2 := by
    rw [BitVec.toNat_ushiftRight, BitVec.toNat_xor, Bits.toNat_and_fff, Nat.shiftRight_eq_div_pow]
    rfl
  rw [hval, byteIndex, byteIndex, Bits.nat_xor_two, Bits.nat_xor_three, Bits.nat_xor_three]
  simp only [BitVec.toNat_zero] at heven
  omega

/-- The word at an aligned address. -/
theorem index_word (hA : (A &&& 0xfff#32) &&& 3#32 = 0#32) {k : ℕ} (hk : k < 4) :
    4 * ((A &&& 0xfff#32) >>> 2).toNat + k = byteIndex A (3 - k) := by
  have hal := congrArg BitVec.toNat hA
  rw [Bits.toNat_and_3, Bits.toNat_and_fff] at hal
  rw [BitVec.toNat_ushiftRight, Bits.toNat_and_fff, Nat.shiftRight_eq_div_pow,
    byteIndex, Bits.nat_xor_three]
  simp only [BitVec.toNat_zero] at hal
  omega

end Indices

/-! ### Bytes put together -/

section Bytes

variable (b₀ b₁ b₂ b₃ : Byte)

theorem or_halves : b₀.setWidth 32 <<< 8 ||| b₁.setWidth 32 = (b₀ ++ b₁).setWidth 32 := by
  apply BitVec.eq_of_getLsbD_eq
  intro i hi
  rw [BitVec.getLsbD_setWidth, BitVec.getLsbD_append]
  by_cases h8 : i < 8
  · simp [h8, hi]
  · simp [h8, hi, BitVec.getLsbD_of_ge b₁ i (by omega)]

theorem or_halves_signed :
    ((b₀.setWidth 32 <<< 8).setWidth 16).signExtend 32 |||
      b₁.setWidth 32 = (b₀ ++ b₁).signExtend 32 := by
  apply BitVec.eq_of_getLsbD_eq
  intro i hi
  rw [BitVec.getLsbD_or, BitVec.getLsbD_signExtend, BitVec.getLsbD_signExtend,
    BitVec.getLsbD_append]
  by_cases h8 : i < 8
  · simp [h8, hi, show i < 16 by omega]
  · by_cases h16 : i < 16
    · simp [h8, hi, h16, BitVec.getLsbD_of_ge b₁ i (by omega)]
    · rw [BitVec.msb_append]
      simp [hi, h16, BitVec.getLsbD_of_ge b₁ i (by omega), BitVec.msb_eq_getLsbD_last]

theorem or_word : b₀.setWidth 32 <<< 24 ||| b₁.setWidth 32 <<< 16 |||
    b₂.setWidth 32 <<< 8 ||| b₃.setWidth 32 =
    b₀ ++ b₁ ++ (b₂ ++ b₃) := by
  apply BitVec.eq_of_getLsbD_eq
  intro i hi
  rw [BitVec.getLsbD_append, BitVec.getLsbD_append, BitVec.getLsbD_append]
  interval_cases i <;> simp

theorem setWidth_and_ff (x : Word) : (x &&& 0xff#32).setWidth 8 = x.setWidth 8 := by
  apply BitVec.eq_of_getLsbD_eq
  intro i hi
  interval_cases i <;> simp

end Bytes

/-! ### Loads -/

section Loads

variable {A : Word} (addr : Expr Var)

/-- A byte at a distance. -/
theorem bits_readMemU8_behind (hA : (addr.eval s).bits = A &&& 0xfff#32) (k : ℕ) :
    ((readMemU8 (behind addr (BitVec.ofNat 32 k))).eval s).bits =
      (s.mem (byteIndex A k)).setWidth 32 := by
  rw [← index_behind A k, ← hA]
  rfl

theorem bits_readMemU8 (hA : (addr.eval s).bits = A &&& 0xfff#32) :
    ((readMemU8 addr).eval s).bits = (s.mem (byteIndex A 0)).setWidth 32 := by
  rw [← index_first A, ← hA]
  rfl

variable (hv : s.vars .addr = A &&& 0xfff#32)
include hv

theorem bits_readMemU16 (hal : (A &&& 0xfff#32) &&& 1#32 = 0#32) :
    ((readMemU16 (.var .addr)).eval s).bits = (Mips.readHalf s.mem A).setWidth 32 := by
  obtain ⟨h1, h0⟩ := index_half A hal
  rw [Jit.readHalf_eq, ← h0, ← h1, ← hv]
  rfl

theorem bits_readMemU16Unaligned :
    ((readMemU16Unaligned id (.var .addr)).eval s).bits = (Mips.readHalf s.mem A).setWidth 32 ∧
      ((readMemU16Unaligned (.narrow 16) (.var .addr)).eval s).bits =
        (Mips.readHalf s.mem A).signExtend 32 := by
  have h0 := bits_readMemU8 (.var .addr) hv
  have h1 := bits_readMemU8_behind (.var .addr) hv 1
  rw [readMemU16Unaligned, readMemU16Unaligned, Expr.eval_or, Expr.eval_or, h1, Jit.readHalf_eq,
    ← or_halves, ← or_halves_signed, id_eq, Expr.eval_narrow, Expr.eval_shl, h0]
  exact ⟨rfl, rfl⟩

theorem bits_readMemU32 (hal : (A &&& 0xfff#32) &&& 3#32 = 0#32) :
    ((readMemU32 (.var .addr)).eval s).bits = Mips.readWord s.mem A := by
  have hk {k : ℕ} (hk : k < 4) := index_word A hal hk
  have h3 := hk (k := 0) (by norm_num)
  rw [Nat.add_zero] at h3
  rw [Jit.readWord_eq, ← hk (k := 3) (by norm_num), ← hk (k := 2) (by norm_num),
    ← hk (k := 1) (by norm_num), ← h3, ← hv]
  rfl

theorem bits_readMemU32Unaligned :
    ((readMemU32Unaligned (.var .addr)).eval s).bits = Mips.readWord s.mem A := by
  have h0 := bits_readMemU8 (.var .addr) hv
  have hk (k : ℕ) := bits_readMemU8_behind (.var .addr) hv k
  rw [readMemU32Unaligned, Expr.eval_or, Expr.eval_or, Expr.eval_or, Expr.eval_shl, Expr.eval_shl,
    Expr.eval_shl, h0, hk 1, hk 2, hk 3, Jit.readWord_eq, ← or_word]
  rfl

end Loads

section Accesses

variable (w : Word) {rt rs : Fin 32} {mask : Word}

theorem eval_address (h : Same s a) :
    ((address w rs).eval s).bits = Mips.address a rs (w.extractLsb' 0 16) &&& 0xfff#32 := by
  rw [address, Expr.eval_and, Expr.eval_add, eval_reg h]
  rfl

/-- The address is computed, and one of the two statements run. -/
theorem falls_access {t u : Stmt Var} (h : ∀ s, Same s a → s.vars .pipeBranch = 0#32 →
      s.vars .addr = Mips.address a rs (w.extractLsb' 0 16) &&& 0xfff#32 →
      ∃ s', (if s.vars .addr &&& mask = 0#32 then u.exec s else t.exec s) = .fall s' ∧ Same s' a' ∧
        s'.vars .pipeBranch = 0#32) :
    Falls [.assign .addr (address w rs), .ite (.var .addr &&& num mask) t u] a a' := by
  intro s hs h0
  obtain ⟨s', hx, hs', h0'⟩ :=
    h (s.set .addr ((address w rs).eval s).bits) (hs.setLocal (v := .addr) (by simp) _)
    ((s.set_vars_of_ne _ (by decide)).trans h0) ((s.set_vars_self _ _).trans (eval_address w hs))
  refine ⟨s', ?_, hs', h0'⟩
  rw [Stmt.exec_block_cons, Stmt.exec, Outcome.fall_andThen, Stmt.exec_block_cons]
  exact congrArg (Outcome.andThen · (Stmt.block []).exec) hx

/-- A load in two ways. -/
theorem leaves_loadAddr {unaligned aligned : Expr Var → Expr Var} {x : Word}
    (hu : ∀ s, Same s a → s.vars .addr = Mips.address a rs (w.extractLsb' 0 16) &&& 0xfff#32 →
      ((unaligned (.var .addr)).eval s).bits = x)
    (ha : ∀ s, Same s a → s.vars .addr = Mips.address a rs (w.extractLsb' 0 16) &&& 0xfff#32 →
      s.vars .addr &&& mask = 0#32 → ((aligned (.var .addr)).eval s).bits = x) :
    Leaves (loadAddr w rt rs mask unaligned aligned) a (Mips.write a rt x) none := by
  refine (falls_notR0 fun hr => falls_access w fun s hs h0 hv => ?_).leaves
  have hset : Same (s.set (.sr rt) x) (Mips.write a rt x) := by
    rw [Mips.write, if_neg hr]
    exact hs.setSr rt x
  refine ⟨s.set (.sr rt) x, ?_, hset, (s.set_vars_of_ne _ Var.noConfusion).trans h0⟩
  split
  · rename_i hal
    rw [Stmt.exec, ha s hs hv hal]
  · rw [Stmt.exec, hu s hs hv]

/-- A store in two ways. -/
theorem leaves_storeAddr {unaligned aligned : Expr Var → Expr Var → Stmt Var} {mem : ℕ → Byte}
    (hu : ∀ s, Same s a → s.vars .addr = Mips.address a rs (w.extractLsb' 0 16) &&& 0xfff#32 →
      (unaligned (.var .addr) (reg rt)).exec s = .fall { s with mem := mem })
    (ha : ∀ s, Same s a → s.vars .addr = Mips.address a rs (w.extractLsb' 0 16) &&& 0xfff#32 →
      s.vars .addr &&& mask = 0#32 →
        (aligned (.var .addr) (reg rt)).exec s = .fall { s with mem := mem }) :
    Leaves (storeAddr w rt rs mask unaligned aligned) a { a with dmem := mem } none := by
  refine (falls_access w fun s hs h0 hv => ⟨{ s with mem := mem }, ?_, hs.setMem mem, h0⟩).leaves
  split
  · rename_i hal
    exact ha s hs hv hal
  · exact hu s hs hv

end Accesses

/-! ### Stores -/

section Stores

variable {A : Word} (addr data : Expr Var)

/-- A byte written at a distance. -/
theorem exec_writeMemU8_behind (hA : (addr.eval s).bits = A &&& 0xfff#32) (k : ℕ) :
    (writeMemU8 (behind addr (BitVec.ofNat 32 k)) data).exec s =
      .fall { s with
        mem := Function.update s.mem (byteIndex A k) ((data.eval s).bits.setWidth 8) } := by
  rw [← index_behind A k, ← hA]
  rfl

theorem exec_writeMemU8 (hA : (addr.eval s).bits = A &&& 0xfff#32) :
    (writeMemU8 addr data).exec s =
      .fall { s with
        mem := Function.update s.mem (byteIndex A 0) ((data.eval s).bits.setWidth 8) } := by
  rw [← index_first A, ← hA]
  rfl

/-- A byte of a register. -/
theorem byte_of_reg (r : Fin 32) (n : ℕ) (hn : n < 32) :
    ((reg r >>> num (BitVec.ofNat 32 n)).eval s).bits.setWidth 8 =
      ((reg r).eval s).bits.extractLsb' n 8 := by
  rw [Expr.eval_shr _ _ _ (small_reg r), Jit.extract_byte, eval_num, int_bits, BitVec.toNat_ofNat,
    Nat.mod_eq_of_lt (by omega)]

theorem masked_byte_of_reg (r : Fin 32) (n : ℕ) (hn : n < 32) :
    (((reg r >>> num (BitVec.ofNat 32 n)) &&& num 0xff#32).eval s).bits.setWidth 8 =
      ((reg r).eval s).bits.extractLsb' n 8 := by
  rw [Expr.eval_and, eval_num, int_bits, setWidth_and_ff, byte_of_reg r n hn]

theorem low_byte_of_reg (r : Fin 32) :
    ((reg r &&& num 0xff#32).eval s).bits.setWidth 8 = ((reg r).eval s).bits.extractLsb' 0 8 := by
  rw [Expr.eval_and, eval_num, int_bits, setWidth_and_ff]
  exact BitVec.setWidth_eq_extractLsb' (by norm_num)

/-- A write leaves registers and variables alone. -/
theorem eval_reg_mem (r : Fin 32) (mem : ℕ → Byte) :
    (reg r).eval { s with mem := mem } = (reg r).eval s := by
  rw [reg]
  split <;> rfl

variable (hv : s.vars .addr = A &&& 0xfff#32)
include hv

theorem exec_writeMemU16Unaligned (r : Fin 32) :
    (writeMemU16Unaligned (.var .addr) (reg r)).exec s =
      .fall { s with mem := Mips.writeHalf s.mem A (((reg r).eval s).bits.setWidth 16) } := by
  have hw {mem : ℕ → Byte} {data : Expr Var} (k : ℕ) :=
    exec_writeMemU8_behind (s := { s with mem := mem }) (.var .addr) data hv k
  rw [writeMemU16Unaligned, Stmt.exec_block_cons, exec_writeMemU8 (.var .addr) _ hv,
    Outcome.fall_andThen, Stmt.exec_block_cons, hw 1, byte_of_reg r 8 (by norm_num),
    low_byte_of_reg, Jit.writeHalf_eq, BitVec.extractLsb'_setWidth_of_le (by norm_num),
    BitVec.extractLsb'_setWidth_of_le (by norm_num)]
  simp only [eval_reg_mem, Outcome.fall_andThen, Stmt.exec_block_nil]

theorem exec_writeMemU32Unaligned (r : Fin 32) :
    (writeMemU32Unaligned (.var .addr) (reg r)).exec s =
      .fall { s with mem := Mips.writeWord s.mem A ((reg r).eval s).bits } := by
  have hw {mem : ℕ → Byte} {data : Expr Var} (k : ℕ) :=
    exec_writeMemU8_behind (s := { s with mem := mem }) (.var .addr) data hv k
  rw [writeMemU32Unaligned, Stmt.exec_block_cons, exec_writeMemU8 (.var .addr) _ hv,
    Outcome.fall_andThen, Stmt.exec_block_cons, hw 1, Outcome.fall_andThen, Stmt.exec_block_cons,
    hw 2, Outcome.fall_andThen, Stmt.exec_block_cons, hw 3, byte_of_reg r 24 (by norm_num),
    masked_byte_of_reg r 16 (by norm_num), masked_byte_of_reg r 8 (by norm_num), low_byte_of_reg,
    Jit.writeWord_eq]
  simp only [eval_reg_mem, Outcome.fall_andThen, Stmt.exec_block_nil]

theorem exec_writeMemU16 (hal : (A &&& 0xfff#32) &&& 1#32 = 0#32) (r : Fin 32) :
    (writeMemU16 (.var .addr) (reg r)).exec s =
      .fall { s with mem := Mips.writeHalf s.mem A (((reg r).eval s).bits.setWidth 16) } := by
  obtain ⟨h1, h0⟩ := index_half A hal
  have hne := Jit.byteIndex_ne A (j := 0) (k := 1) (by norm_num) (by norm_num) (by norm_num)
  rw [Jit.writeHalf_eq, BitVec.extractLsb'_setWidth_of_le (by norm_num),
    BitVec.extractLsb'_setWidth_of_le (by norm_num), Function.update_comm hne, ← h0, ← h1, ← hv]
  rfl

theorem exec_writeMemU32 (hal : (A &&& 0xfff#32) &&& 3#32 = 0#32) (r : Fin 32) :
    (writeMemU32 (.var .addr) (reg r)).exec s =
      .fall { s with mem := Mips.writeWord s.mem A ((reg r).eval s).bits } := by
  have hk {k : ℕ} (hk : k < 4) := index_word A hal hk
  have h3 := hk (k := 0) (by norm_num)
  rw [Nat.add_zero] at h3
  have hne (j k : ℕ) (hj : j < 4) (hk : k < 4) (h : j ≠ k) :=
    Jit.byteIndex_ne A (j := j) (k := k) (by omega) (by omega) h
  rw [Jit.writeWord_eq, Jit.update_reverse (hne 0 1 (by omega) (by omega) (by omega))
    (hne 0 2 (by omega) (by omega) (by omega))
    (hne 0 3 (by omega) (by omega) (by omega)) (hne 1 2 (by omega) (by omega) (by omega))
    (hne 1 3 (by omega) (by omega) (by omega)) (hne 2 3 (by omega) (by omega) (by omega)),
    ← hk (k := 3) (by norm_num), ← hk (k := 2) (by norm_num),
    ← hk (k := 1) (by norm_num), ← h3, ← hv]
  rfl

end Stores

/-! ### Branches -/

section Branches

variable {pc count i : Word}

/-- The decision of a branch. -/
def Decides (decision : Stmt Var) (a : Arch) (taken : Bool) : Prop :=
  ∀ s, Same s a → decision.exec s = .fall (if taken then s.set .pipeBranch 1#32 else s)

theorem decides_branch (a : Arch) : Decides branch a true := fun _ _ => rfl

theorem decides_branchIf {e : Expr Var} {b : Bool}
    (h : ∀ s, Same s a → (e.eval s).bits = Mips.ofBool b) :
    Decides (branchIf e) a b := by
  intro s hs
  rw [branchIf, Stmt.exec, h s hs]
  cases b <;> rfl

theorem toNat_mul_four (x : Word) : ((x &&& 0x3ff#32) * 4#32).toNat = x.toNat % 1024 * 4 := by
  rw [BitVec.toNat_mul, Jit.toNat_and_3ff, show (4#32 : Word).toNat = 4 from rfl]
  exact Nat.mod_eq_of_lt (by omega)

theorem goesTo_direct (p : Pipe) {next : Word} (hs : s.vars .pipeBranch = 1#32)
    (hp : p.target = next &&& 0x3ff#32)
    (hd : p.localBranchDelay ∨ p.branchDelay ∧ s.vars .pipeBranchDelay = next &&& 0x3ff#32) :
    p.goesTo s = some ((next &&& 0x3ff#32) * 4#32) := by
  rw [Pipe.goesTo, if_neg (by rw [hs]; decide)]
  rcases hd with hl | ⟨hb, hv⟩
  · rw [if_pos hl, hp]
  · split
    · rw [hp]
    · rw [hv]
      refine congrArg some (BitVec.eq_of_toNat_eq ?_)
      rw [toNat_mul_four, Bits.toNat_and_fff, BitVec.toNat_shiftLeft,
        Jit.toNat_and_3ff, Nat.shiftLeft_eq]
      omega

/-- `set_pc` decides nothing, and if the branch is decided it goes there. -/
theorem exec_setPc (pc count next : Word) (h : Same s a) (h0 : s.vars .pipeBranch = 0#32) :
    ∃ s', (Stmt.block (setPc pc count next).code).exec s = .fall s' ∧
      Same s' a ∧ s'.vars .pipeBranch = 0#32 ∧
      (setPc pc count next).pipe.goesTo (s'.set .pipeBranch 1#32) =
        some ((next &&& 0x3ff#32) * 4#32) := by
  rw [setPc]
  split
  · exact ⟨s, rfl, h, h0, goesTo_direct _ (s.set_vars_self _ _) rfl (.inl rfl)⟩
  · refine ⟨_, rfl, h.setLocal (v := .pipeBranchDelay) (by simp) _,
      (s.set_vars_of_ne _ (by decide)).trans h0,
      goesTo_direct _ (State.set_vars_self _ _ _) rfl (.inr ⟨rfl, ?_⟩)⟩
    exact (State.set_vars_of_ne _ _ (by decide)).trans (State.set_vars_self _ _ _)

/-- A direct branch: what stands before it, and then the decision. -/
theorem leaves_branchTo {before : List (Stmt Var)} {next : Word}
    {decision : Stmt Var} {taken : Bool} (hb : Falls before a a') (hd : Decides decision a' taken) :
    Leaves (branchTo pc count before next decision) a a'
      (if taken then some ((next &&& 0x3ff#32) * 4#32) else none) := by
  refine leaves_of_exec fun s hs h0 => ?_
  obtain ⟨s₁, hx₁, hs₁, h₁⟩ := hb s hs h0
  obtain ⟨s₂, hx₂, hs₂, h₂, hgo⟩ := exec_setPc pc count next hs₁ h₁
  refine ⟨if taken then s₂.set .pipeBranch 1#32 else s₂, ?_, ?_, ?_⟩
  · rw [branchTo, Stmt.exec_block_append, Stmt.exec_block_append, hx₁, Outcome.fall_andThen, hx₂,
      Outcome.fall_andThen, Stmt.exec_block_cons, hd s₂ hs₂]
    rfl
  · split
    · exact hs₂.setLocal (v := .pipeBranch) (by simp) _
    · exact hs₂
  · cases taken with
    | true => exact hgo
    | false => exact goesTo_of_not_taken h₂

/-- An indirect branch. -/
theorem leaves_setPcIndirect {before : List (Stmt Var)} (hb : Falls before a a') (rs : Fin 32) :
    Leaves { setPcIndirect rs with code := before ++ (setPcIndirect rs).code } a a'
      (some (Mips.fetchPc (Mips.read a' rs))) := by
  refine leaves_of_exec fun s hs h0 => ?_
  obtain ⟨s₁, hx₁, hs₁, -⟩ := hb s hs h0
  have hword : (((reg rs &&& num 0xfff#32) >>> num 2#32).eval s₁).bits =
      (Mips.read a' rs &&& 0xfff#32) >>> 2 := by
    rw [Expr.eval_shr _ _ _ (Expr.small_and _ _ _ (small_reg rs)), Expr.eval_and, eval_reg hs₁]
    rfl
  refine ⟨(s₁.set .pipeBranchDelay ((Mips.read a' rs &&& 0xfff#32) >>> 2)).set
    .pipeBranch 1#32, ?_, ?_, ?_⟩
  · rw [Stmt.exec_block_append, hx₁, Outcome.fall_andThen, ← hword]
    rfl
  · exact (hs₁.setLocal (v := .pipeBranchDelay) (by simp) _).setLocal (v := .pipeBranch) (by simp) _
  · have hgo : (setPcIndirect rs).pipe.goesTo
        ((s₁.set .pipeBranchDelay ((Mips.read a' rs &&& 0xfff#32) >>> 2)).set
        .pipeBranch 1#32) =
          some ((((Mips.read a' rs &&& 0xfff#32) >>> 2) <<< 2) &&& 0xfff#32) := rfl
    rw [hgo]
    refine congrArg some (BitVec.eq_of_toNat_eq ?_)
    rw [Mips.fetchPc, Jit.toNat_and_ffc, Bits.toNat_and_fff, BitVec.toNat_shiftLeft,
      BitVec.toNat_ushiftRight, Bits.toNat_and_fff, Nat.shiftLeft_eq, Nat.shiftRight_eq_div_pow]
    omega

/-- The byte address of an instruction. -/
def bytePc (pc i : Word) : Word := (pc + i) <<< 2

theorem link_eq (pc i : Word) :
    ((pc + i + 2#32) <<< 2) &&& 0xffc#32 = Mips.linkPc (bytePc pc i) := by
  apply BitVec.eq_of_toNat_eq
  rw [Mips.linkPc, Jit.toNat_and_ffc, Jit.toNat_and_ffc, bytePc, BitVec.toNat_add,
    BitVec.toNat_shiftLeft, BitVec.toNat_shiftLeft, BitVec.toNat_add _ 2#32, Nat.shiftLeft_eq,
    Nat.shiftLeft_eq, show (2#32 : Word).toNat = 2 from rfl, show (8#32 : Word).toNat = 8 from rfl]
  omega

theorem falls_link {r : Fin 32} (hr : r ≠ 0) :
    Falls [link pc i r] a (Mips.write a r (Mips.linkPc (bytePc pc i))) :=
  falls_assign hr fun _ _ => link_eq pc i

/-- The targets of branches and jumps. -/
theorem branchTarget_eq (pc i instr : Word) :
    ((pc + i + 1#32 + instr) &&& 0x3ff#32) * 4#32 =
      Mips.fetchPc (branchTarget (bytePc pc i) instr) := by
  apply BitVec.eq_of_toNat_eq
  rw [toNat_mul_four, Mips.fetchPc, Jit.toNat_and_ffc, branchTarget, Jit.toNat_and_ffc, bytePc]
  simp only [BitVec.toNat_add, BitVec.toNat_shiftLeft, Nat.shiftLeft_eq, BitVec.toNat_ofNat]
  omega

theorem jumpTarget_eq (instr : Word) :
    ((instr &&& 0x3ff#32) &&& 0x3ff#32) * 4#32 = Mips.fetchPc (jumpTarget instr) := by
  apply BitVec.eq_of_toNat_eq
  rw [toNat_mul_four, Mips.fetchPc, Jit.toNat_and_ffc, jumpTarget,
    BitVec.toNat_shiftLeft, Jit.toNat_and_3ff, Nat.shiftLeft_eq]
  omega

end Branches

end ParallelRsp.Debug
