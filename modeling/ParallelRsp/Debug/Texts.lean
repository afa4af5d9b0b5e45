import ParallelRsp.Debug.ReferenceRules

/-!
# The text of every instruction

`effect_instruction`: what `jit_region` prints for a scalar instruction does to registers
and DMEM what the machine does, and branches where the machine does, but for two things.
`SLTIU` compares with its immediate zero-extended. And a branch is decided, and its target
read, behind the write of the return address (`textEffect`).
-/

namespace ParallelRsp.Debug

open CLang

variable {s : State Var} {a : Arch} {pc count i : Word} {pending : Pipe} {w : Word}

/-! ### The machine -/

/-- What the text does to registers and DMEM. -/
def textExec (H : Helpers) (pc : Word) (i : Instr) (a : Arch) : Arch :=
  match i with
  | .imm .sltiu rt rs x => Mips.write a rt (Mips.ofBool ((Mips.read a rs).ult (x.setWidth 32)))
  | i => (Mips.exec H pc i a).1

/-- How the text of an instruction leaves the region, if it does. -/
def exitMode : Instr → Option Word
  | .break => some 2#32
  | _ => none

/-- What the text leaves behind. -/
def textEffect (H : Helpers) (pc : Word) (i : Instr) (a : Arch) : Effect :=
  let a' := textExec H pc i a
  { sr := fun r => a'.sr r
    dmem := a'.dmem
    branch := if Mips.taken i a' then some (Mips.fetchPc (Mips.target pc i a')) else none
    exit := exitMode i }

/-- The opcodes of the scalar instructions that both processors have. -/
def scalarOpcodes : List ℕ :=
  [0o00, 0o01, 0o02, 0o03, 0o04, 0o05, 0o06, 0o07, 0o10, 0o11, 0o12, 0o13, 0o14, 0o15, 0o16, 0o17,
    0o40, 0o41, 0o43, 0o44, 0o45, 0o50, 0o51, 0o53]

/-- A scalar instruction that both processors have. -/
def BothImplement (w : Word) : Prop := (w >>> 26).toNat ∈ scalarOpcodes

instance : Decidable (BothImplement w) := inferInstanceAs (Decidable (_ ∈ _))

/-! ### Fields -/

theorem toNat_shift (w : Word) : ((w >>> 6) &&& 31#32).toNat = (field5 w 6).val := by
  rw [field5]
  show _ = (w.extractLsb' 6 5).toNat
  rw [BitVec.extractLsb'_toNat, ← BitVec.toNat_ushiftRight]
  exact Bits.toNat_and_ones _ 5 (by norm_num)

theorem toNat_funct (w : Word) : (w &&& 63#32).toNat = (w.extractLsb' 0 6).toNat := by
  rw [BitVec.extractLsb'_toNat]
  exact Bits.toNat_and_ones w 6 (by norm_num)

theorem and_ffff (w : Word) : w &&& 0xffff#32 = (w.extractLsb' 0 16).setWidth 32 := by
  apply BitVec.eq_of_toNat_eq
  rw [BitVec.toNat_setWidth_of_le (by norm_num), BitVec.extractLsb'_toNat]
  exact Bits.toNat_and_ones w 16 (by norm_num)

/-! ### Opcode 0 -/

/-- `EXIT_WITH_DELAY` leaves, whatever branch is pending. -/
theorem exec_exitWithDelay (h : Same s a) (mode : Word) :
    ∃ s', (Stmt.block (exitWithDelay pc i pending mode).code).exec s =
      .exit mode s' ∧ Same s' a := by
  have hset (x : Word) : Same (s.set .pc x) a := h.setLocal (v := .pc) (by simp) x
  rw [exitWithDelay]
  split
  · exact ⟨_, rfl, hset _⟩
  · split
    · exact ⟨_, rfl, hset _⟩
    · rw [Stmt.exec_block_cons, Stmt.exec]
      split
      · exact ⟨_, rfl, hset _⟩
      · exact ⟨_, rfl, (hset _).setLocal (v := .hasDelaySlot) (by simp) _⟩

theorem effect_exitWithDelay (h : Same s a) (mode : Word) :
    (exitWithDelay pc i pending mode).effect s = ⟨fun r => a.sr r, a.dmem, none, some mode⟩ := by
  obtain ⟨s₁, h₁, hs₁, -⟩ := exec_advanceDelaySlot h
  obtain ⟨s', hx, hs'⟩ := exec_exitWithDelay hs₁ mode
  rw [Emitted.effect, Stmt.exec_block_cons, h₁, Outcome.fall_andThen, hx]
  exact Effect.ext (funext hs'.sr) hs'.mem rfl rfl

theorem effect_special (H : Helpers) (h : Same s a) :
    (special pc i pending w).effect s = textEffect H (bytePc pc i) (decodeSpecial w) a := by
  have hshift {s' : State Var} (h' : Same s' a) :=
    bits_shift h' (field5 w 16) (num ((w >>> 6) &&& 31#32)) (toNat_shift w)
  have hshiftv {s' : State Var} (h' : Same s' a) :=
    bits_shift h' (field5 w 16) (maskSA (reg (field5 w 21))) (toNat_maskSA h' _)
  unfold special decodeSpecial
  dsimp only
  rw [toNat_funct]
  generalize (w.extractLsb' 0 6).toNat = n
  split
  · exact leaves_notR0 (fun s' h' => (hshift h').1) s h
  · exact leaves_notR0 (fun s' h' => (hshift h').2.1) s h
  · exact leaves_notR0 (fun s' h' => (hshift h').2.2) s h
  · exact leaves_notR0 (fun s' h' => (hshiftv h').1) s h
  · exact leaves_notR0 (fun s' h' => (hshiftv h').2.1) s h
  · exact leaves_notR0 (fun s' h' => (hshiftv h').2.2) s h
  · refine leaves_setPcIndirect (falls_notR0 fun hr => falls_link hr) _ s h
  · exact leaves_setPcIndirect (falls_nil a) _ s h
  · exact effect_exitWithDelay h 2#32
  · exact leaves_notR0 (fun _ h' => bits_alu h' .add _ _) s h
  · exact leaves_notR0 (fun _ h' => bits_alu h' .add _ _) s h
  · exact leaves_notR0 (fun _ h' => bits_alu h' .sub _ _) s h
  · exact leaves_notR0 (fun _ h' => bits_alu h' .sub _ _) s h
  · exact leaves_notR0 (fun _ h' => bits_alu h' .and _ _) s h
  · exact leaves_notR0 (fun _ h' => bits_alu h' .or _ _) s h
  · exact leaves_notR0 (fun _ h' => bits_alu h' .xor _ _) s h
  · exact leaves_notR0 (fun _ h' => bits_alu h' .nor _ _) s h
  · exact leaves_notR0 (fun _ h' => bits_alu h' .slt _ _) s h
  · exact leaves_notR0 (fun _ h' => bits_alu h' .sltu _ _) s h
  · -- the machine has no other either
    split
    any_goals contradiction
    exact (falls_nil a).leaves s h

/-! ### Branches -/

/-- A conditional branch of the text, where it goes as the machine has it. -/
theorem leaves_branch {a' : Arch} {before : List (Stmt Var)} {decision : Stmt Var} {taken : Bool}
    (hb : Falls before a a') (hd : Decides decision a' taken) :
    Leaves (branchTo pc count before (pc + i + 1#32 + w) decision) a a'
      (if taken then some (Mips.fetchPc (branchTarget (bytePc pc i) w)) else none) := by
  rw [← branchTarget_eq]
  exact leaves_branchTo hb hd

theorem leaves_jump {a' : Arch} {before : List (Stmt Var)} (hb : Falls before a a') :
    Leaves (branchTo pc count before (w &&& 0x3ff#32) branch) a a'
      (some (Mips.fetchPc (jumpTarget w))) := by
  rw [← jumpTarget_eq]
  exact leaves_branchTo hb (decides_branch a')

/-- The comparisons with zero. -/
theorem bits_zeroCond (h : Same s a) (rs : Fin 32) :
    ((Expr.bin .lt (int rs) (num 0#32)).eval s).bits =
      Mips.ofBool (Mips.zeroCond .ltz (Mips.read a rs)) ∧
      ((Expr.bin .ge (int rs) (num 0#32)).eval s).bits =
        Mips.ofBool (Mips.zeroCond .gez (Mips.read a rs)) := by
  rw [Expr.eval_bin, Expr.eval_bin, eval_int h]
  exact ⟨rfl, rfl⟩

theorem bits_lez (h : Same s a) (rs : Fin 32) :
    ((Expr.bin .le (int rs) (num 0#32)).eval s).bits = Mips.ofBool ((Mips.read a rs).sle 0#32) ∧
      ((Expr.bin .gt (int rs) (num 0#32)).eval s).bits =
        Mips.ofBool !(Mips.read a rs).sle 0#32 := by
  rw [Expr.eval_bin, Expr.eval_bin, eval_int h, BitVec.sle_eq_not_slt, Bool.not_not]
  exact ⟨rfl, rfl⟩

theorem bits_beq (h : Same s a) (rs rt : Fin 32) :
    ((Expr.bin .eq (reg rs) (reg rt)).eval s).bits =
      Mips.ofBool (Mips.read a rs == Mips.read a rt) ∧
      ((Expr.bin .ne (reg rs) (reg rt)).eval s).bits =
        Mips.ofBool (Mips.read a rs != Mips.read a rt) := by
  rw [Expr.eval_bin, Expr.eval_bin, ← eval_reg h rs, ← eval_reg h rt]
  exact ⟨rfl, rfl⟩

theorem effect_regimm (H : Helpers) (h : Same s a) :
    (regimm pc count i w).effect s = textEffect H (bytePc pc i) (decodeRegimm w) a := by
  have hlink : Falls [link pc i 31] a (Mips.write a 31 (Mips.linkPc (bytePc pc i))) :=
    falls_link (by decide)
  unfold regimm decodeRegimm
  dsimp only
  generalize (field5 w 16).val = n
  split
  · exact leaves_branch hlink (decides_branchIf fun _ h' => (bits_zeroCond h' _).1) s h
  · exact leaves_branch (falls_nil a) (decides_branchIf fun _ h' => (bits_zeroCond h' _).1) s h
  · exact leaves_branch hlink (decides_branchIf fun _ h' => (bits_zeroCond h' _).2) s h
  · exact leaves_branch (falls_nil a) (decides_branchIf fun _ h' => (bits_zeroCond h' _).2) s h
  · split
    any_goals contradiction
    exact (falls_nil a).leaves s h

/-! ### Immediates -/

/-- The text of an operation on a register and an immediate. -/
def immText (op : ImmOp) (rs : Fin 32) (w : Word) : Expr Var :=
  match op with
  | .addi => int rs + simm w
  | .slti => .bin .lt (int rs) (simm w)
  | .sltiu => .bin .lt (reg rs) (imm w)
  | .andi => reg rs &&& imm w
  | .ori => reg rs ||| imm w
  | .xori => reg rs ^^^ imm w

theorem small_imm : ((imm w).eval s).Small := by
  refine Val.small_int ?_
  rw [BitVec.msb_and]
  exact Bool.and_false _

theorem bits_imm : ((imm w).eval s).bits = (w.extractLsb' 0 16).setWidth 32 := and_ffff w

theorem effect_imm (H : Helpers) (op : ImmOp) (rt rs : Fin 32) (h : Same s a) (pc : Word) :
    (notR0 rt (immText op rs w)).effect s =
      textEffect H pc (.imm op rt rs (w.extractLsb' 0 16)) a := by
  cases op with
  | addi => exact leaves_notR0 (fun _ h' => congrArg (· + _) (eval_reg h' rs)) s h
  | slti => exact leaves_notR0 (fun _ h' => bits_slt h' rs _ rfl) s h
  | sltiu => exact leaves_notR0 (fun _ h' => bits_sltu h' rs _ small_imm bits_imm) s h
  | andi => exact leaves_notR0 (fun _ h' => congrArg₂ (· &&& ·) (eval_reg h' rs) bits_imm) s h
  | ori => exact leaves_notR0 (fun _ h' => congrArg₂ (· ||| ·) (eval_reg h' rs) bits_imm) s h
  | xori => exact leaves_notR0 (fun _ h' => congrArg₂ (· ^^^ ·) (eval_reg h' rs) bits_imm) s h

theorem leaves_lui (rt : Fin 32) :
    Leaves (notR0 rt (.const ⟨.unsigned, w &&& 0xffff#32⟩ <<< .const ⟨.unsigned, 16#32⟩)) a
      (Mips.write a rt ((w.extractLsb' 0 16).setWidth 32 <<< 16)) none := by
  refine leaves_notR0 fun s h => ?_
  rw [← and_ffff]
  rfl

/-! ### Accesses -/

section Accesses

variable (rt rs : Fin 32)

theorem leaves_lb : Leaves (notR0 rt (.narrow 8 (readMemU8 (address w rs)))) a
    (Mips.write a rt (Mips.load .lb a.dmem (Mips.address a rs (w.extractLsb' 0 16)))) none := by
  refine leaves_notR0 fun s h => ?_
  rw [Expr.eval_narrow, bits_readMemU8 _ (eval_address w h), h.mem]
  exact congrArg (BitVec.signExtend 32)
    (BitVec.setWidth_setWidth_of_le _ (by norm_num) |>.trans (BitVec.setWidth_eq _))

theorem leaves_lbu : Leaves (notR0 rt (readMemU8 (address w rs))) a
    (Mips.write a rt (Mips.load .lbu a.dmem (Mips.address a rs (w.extractLsb' 0 16)))) none := by
  refine leaves_notR0 fun s h => ?_
  rw [bits_readMemU8 _ (eval_address w h), h.mem]
  rfl

theorem leaves_lh :
    Leaves (loadAddr w rt rs 1#32 (readMemU16Unaligned (.narrow 16)) fun e =>
      .narrow 16 (readMemU16 e)) a
    (Mips.write a rt (Mips.load .lh a.dmem (Mips.address a rs (w.extractLsb' 0 16)))) none := by
  refine leaves_loadAddr w (fun s h hv => ?_) fun s h hv hal => ?_
  · rw [(bits_readMemU16Unaligned hv).2, h.mem]
    rfl
  · rw [Expr.eval_narrow, bits_readMemU16 hv (by rwa [← hv]), h.mem]
    exact congrArg (BitVec.signExtend 32)
      (BitVec.setWidth_setWidth_of_le _ (by norm_num) |>.trans (BitVec.setWidth_eq _))

theorem leaves_lhu : Leaves (loadAddr w rt rs 1#32 (readMemU16Unaligned id) readMemU16) a
    (Mips.write a rt (Mips.load .lhu a.dmem (Mips.address a rs (w.extractLsb' 0 16)))) none := by
  refine leaves_loadAddr w (fun s h hv => ?_) fun s h hv hal => ?_
  · rw [(bits_readMemU16Unaligned hv).1, h.mem]
    rfl
  · rw [bits_readMemU16 hv (by rwa [← hv]), h.mem]
    rfl

theorem leaves_lw : Leaves (loadAddr w rt rs 3#32 readMemU32Unaligned readMemU32) a
    (Mips.write a rt (Mips.load .lw a.dmem (Mips.address a rs (w.extractLsb' 0 16)))) none := by
  refine leaves_loadAddr w (fun s h hv => ?_) fun s h hv hal => ?_
  · rw [bits_readMemU32Unaligned hv, h.mem]
    rfl
  · rw [bits_readMemU32 hv (by rwa [← hv]), h.mem]
    rfl

theorem leaves_sb : Leaves { code := [writeMemU8 (address w rs) (reg rt)] } a
    { a with
      dmem := Mips.store .sb a.dmem (Mips.address a rs (w.extractLsb' 0 16)) (Mips.read a rt) }
    none := by
  refine Falls.leaves fun s h h0 => ⟨_, ?_, h.setMem _, h0⟩
  rw [Stmt.exec_block_cons, exec_writeMemU8 _ _ (eval_address w h), h.mem, eval_reg h]
  rfl

theorem leaves_sh : Leaves (storeAddr w rt rs 1#32 writeMemU16Unaligned writeMemU16) a
    { a with
      dmem := Mips.store .sh a.dmem (Mips.address a rs (w.extractLsb' 0 16)) (Mips.read a rt) }
    none := by
  refine leaves_storeAddr w (fun s h hv => ?_) fun s h hv hal => ?_
  · rw [exec_writeMemU16Unaligned hv, h.mem, eval_reg h]
    rfl
  · rw [exec_writeMemU16 hv (by rwa [← hv]), h.mem, eval_reg h]
    rfl

theorem leaves_sw : Leaves (storeAddr w rt rs 3#32 writeMemU32Unaligned writeMemU32) a
    { a with
      dmem := Mips.store .sw a.dmem (Mips.address a rs (w.extractLsb' 0 16)) (Mips.read a rt) }
    none := by
  refine leaves_storeAddr w (fun s h hv => ?_) fun s h hv hal => ?_
  · rw [exec_writeMemU32Unaligned hv, h.mem, eval_reg h]
    rfl
  · rw [exec_writeMemU32 hv (by rwa [← hv]), h.mem, eval_reg h]
    rfl

end Accesses

/-! ### Every instruction -/

/-- **What is printed for a scalar instruction does what `textEffect` says.** -/
theorem effect_instruction (H : Helpers) (hw : BothImplement w)
    (pc count i : Word) (pending : Pipe) :
    ∃ e, instruction pc count i pending w = some e ∧
      ∀ s a, Same s a → e.effect s = textEffect H (bytePc pc i) (decode w) a := by
  unfold instruction decode
  dsimp only
  rw [if_neg (not_vu (P := (· ∈ scalarOpcodes)) hw (by decide))]
  unfold BothImplement at hw
  generalize (w >>> 26).toNat = n at hw
  simp only [scalarOpcodes, List.mem_cons, List.not_mem_nil, or_false] at hw
  have hlink {a : Arch} : Falls [link pc i 31] a (Mips.write a 31 (Mips.linkPc (bytePc pc i))) :=
    falls_link (by decide)
  rcases hw with rfl | rfl | rfl | rfl | rfl | rfl | rfl |
    rfl | rfl | rfl | rfl | rfl | rfl | rfl | rfl | rfl | rfl | rfl | rfl |
    rfl | rfl | rfl | rfl | rfl
  · exact ⟨_, rfl, fun s a h => effect_special H h⟩
  · exact ⟨_, rfl, fun s a h => effect_regimm H h⟩
  · exact ⟨_, rfl, fun s a h => leaves_jump (falls_nil a) s h⟩
  · exact ⟨_, rfl, fun s a h => leaves_jump hlink s h⟩
  · exact ⟨_, rfl, fun s a h =>
      leaves_branch (falls_nil a) (decides_branchIf fun _ h' => (bits_beq h' _ _).1) s h⟩
  · exact ⟨_, rfl, fun s a h =>
      leaves_branch (falls_nil a) (decides_branchIf fun _ h' => (bits_beq h' _ _).2) s h⟩
  · exact ⟨_, rfl, fun s a h =>
      leaves_branch (falls_nil a) (decides_branchIf fun _ h' => (bits_lez h' _).1) s h⟩
  · exact ⟨_, rfl, fun s a h =>
      leaves_branch (falls_nil a) (decides_branchIf fun _ h' => (bits_lez h' _).2) s h⟩
  · exact ⟨_, rfl, fun s a h => effect_imm H .addi _ _ h _⟩
  · exact ⟨_, rfl, fun s a h => effect_imm H .addi _ _ h _⟩
  · exact ⟨_, rfl, fun s a h => effect_imm H .slti _ _ h _⟩
  · exact ⟨_, rfl, fun s a h => effect_imm H .sltiu _ _ h _⟩
  · exact ⟨_, rfl, fun s a h => effect_imm H .andi _ _ h _⟩
  · exact ⟨_, rfl, fun s a h => effect_imm H .ori _ _ h _⟩
  · exact ⟨_, rfl, fun s a h => effect_imm H .xori _ _ h _⟩
  · exact ⟨_, rfl, fun s a h => leaves_lui _ s h⟩
  · exact ⟨_, rfl, fun s a h => leaves_lb _ _ s h⟩
  · exact ⟨_, rfl, fun s a h => leaves_lh _ _ s h⟩
  · exact ⟨_, rfl, fun s a h => leaves_lw _ _ s h⟩
  · exact ⟨_, rfl, fun s a h => leaves_lbu _ _ s h⟩
  · exact ⟨_, rfl, fun s a h => leaves_lhu _ _ s h⟩
  · exact ⟨_, rfl, fun s a h => leaves_sb _ _ s h⟩
  · exact ⟨_, rfl, fun s a h => leaves_sh _ _ s h⟩
  · exact ⟨_, rfl, fun s a h => leaves_sw _ _ s h⟩

end ParallelRsp.Debug
