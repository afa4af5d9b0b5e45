import ParallelRsp.Debug.Texts
import ParallelRsp.Jit.StraightLine

/-!
# The two processors on one instruction

The code that `jit_instruction` emits for a scalar instruction, with the registers written
back behind it, and the C text that the reference prints for it, from a host and a C state
with the same registers and DMEM. They leave the same registers and DMEM, take the same
branch, and go to the same place in IMEM, but for `SLTIU` with a negative immediate, `JALR`
to the register that it links, and `BLTZAL` and `BGEZAL` of the link register (`Differs`).

An indirect target is masked by the reference and not by the emitted code, which leaves that
to whoever enters a region. `main` compares the program counters as they are, so there the
register has to hold an address in IMEM (`reference_agrees_iff`).
-/

namespace ParallelRsp.Debug

open CLang Codegen
open Jit

variable {T : Target} {E : Env T} {c : RegisterCache T} {h : Host T} {v : View T} {s : State Var}

/-! ### The emitted code -/

/-- The code of an instruction, and all registers written back. -/
def writtenBack (pc : Word) (i : Instr) (last : InstructionInfo) (first nextIsTarget : Bool) :
    Gen T InstructionInfo := do
  let info ← jitInstruction pc i last first nextIsTarget
  flushRegisterWindow
  pure info

/-- What code leaves behind that ends at its end or with the return thunk. -/
def codeEffect (info : InstructionInfo) : Codegen.Outcome Label Exit (Host T) → Option Effect
  | .fall h => some
      { sr := fun r => h.st.sr r
        dmem := h.st.dmem
        branch :=
          if info.branch ∧ (info.conditional → h.st.sr condBranchTaken ≠ 0#32) then
            some (if info.indirect then low (h.regs registerIndirectPc) else info.branchTarget)
          else none
        exit := none }
  | .leave .returnThunk h => some
      { sr := fun r => h.st.sr r
        dmem := h.st.dmem
        branch := none
        exit := some (low (h.regs registerMode)) }
  | _ => none

/-- What the machine does. -/
def machineEffect (H : Helpers) (pc : Word) (i : Instr) (a : Arch) : Effect :=
  let a' := (Mips.exec H pc i a).1
  { sr := fun r => a'.sr r
    dmem := a'.dmem
    branch := if Mips.taken i a then some (Mips.target pc i a) else none
    exit := exitMode i }

/-- The instruction is none of the coprocessors'. -/
def isScalar : Instr → Bool
  | .vu _ _ _ _ _ | .mfc0 _ _ | .mtc0 _ _ | .mfc2 _ _ _ | .mtc2 _ _ _ | .cfc2 _ _ | .ctc2 _ _
  | .lwc2 _ _ _ _ _ | .swc2 _ _ _ _ _ => false
  | _ => true

theorem isScalar_decode {w : Word} (hw : BothImplement w) : isScalar (decode w) := by
  unfold decode
  dsimp only
  rw [if_neg (not_vu (P := (· ∈ scalarOpcodes)) hw (by decide))]
  unfold BothImplement at hw
  generalize (w >>> 26).toNat = n at hw
  simp only [scalarOpcodes, List.mem_cons, List.not_mem_nil, or_false] at hw
  rcases hw with rfl | rfl | hw
  · show isScalar (decodeSpecial w)
    unfold decodeSpecial
    dsimp only
    split <;> rfl
  · show isScalar (decodeRegimm w)
    unfold decodeRegimm
    dsimp only
    split <;> rfl
  · rcases hw with rfl | rfl | rfl | rfl | rfl | rfl | rfl |
      rfl | rfl | rfl | rfl | rfl | rfl | rfl | rfl | rfl | rfl | rfl | rfl |
      rfl | rfl | rfl <;> rfl

/-- The mode in which a scalar instruction ends. -/
theorem mode_of_isScalar {i : Instr} (hi : isScalar i) (H : Helpers) (pc : Word) (a : Arch) :
    (Mips.exec H pc i a).2 = .continue ∧ exitMode i = none ∨ i = .break := by
  cases i with
  | «break» => exact .inr rfl
  | vu | mfc0 | mtc0 | mfc2 | mtc2 | cfc2 | ctc2 | lwc2 | swc2 => cases hi
  | _ => exact .inl ⟨rfl, rfl⟩

theorem Rep.registers (hR : Rep c h v) (hC : Clean c) :
    (fun r : Fin 32 => h.st.sr r) = fun r : Fin 32 => v.arch.sr r :=
  funext fun r => hR.sr_of_lt hC (fin_lt_condBranchTaken r)

/-- The branch that the host is about to take is the one that is pending. -/
theorem codeEffect_fall (hR : Rep c h v) (hC : Clean c) (info : InstructionInfo) :
    codeEffect info (.fall h) =
      some ⟨fun r => v.arch.sr r, v.arch.dmem, pendingTarget info v, none⟩ := by
  refine congrArg some (Effect.ext (Rep.registers hR hC) hR.dmem_eq ?_ rfl)
  dsimp only
  rw [hR.sr_cond hC, hR.indirectPc_eq]
  rfl

/-- The emitted code does what the machine does. -/
theorem wp_writtenBack (hS : Ready c h v) {i : Instr} (hi : isScalar i)
    (hserves : E.Serves i v.arch) (pc : Word) (last : InstructionInfo) (first nextIsTarget : Bool) :
    wp (lightning E) (writtenBack pc i last first nextIsTarget)
      (fun info _ o => codeEffect info o = some (machineEffect E.toHelpers pc i v.arch)) c h := by
  refine wp_bind_outcome
    ((wp_jitInstruction hS pc i last first nextIsTarget hserves).mono fun info c₁ o ho => ?_)
  obtain ⟨rfl, ho⟩ := ho
  cases o with
  | fall h₁ =>
    obtain ⟨hmode, v₁, hS₁, hex⟩ := ho
    refine wp_bind ((falls_flush hS₁).mono ?_)
    rintro _ c₂ h₂ ⟨-, hR₂, he₂⟩
    refine ⟨_, .nil, c₂, rfl, trivial, ?_⟩
    have hexit : exitMode i = none := by
      rcases mode_of_isScalar hi E.toHelpers pc v.arch with ⟨-, hx⟩ | rfl
      · exact hx
      · cases hmode
    rw [machineEffect, hexit, ← hex.pending, ← hex.arch]
    exact codeEffect_fall hR₂ he₂.clean _
  | goto l h₁ => exact ho.elim
  | leave x h₁ =>
    cases x with
    | enterThunk => exact ho.elim
    | returnThunk =>
      obtain ⟨hmode, hC, hL, hreg, -, hR⟩ := ho
      rcases mode_of_isScalar hi E.toHelpers pc v.arch with ⟨hx, -⟩ | rfl
      · exact absurd hx hmode
      have harch : (View.settle { v with arch := (Mips.exec E.toHelpers pc .break v.arch).1 }
          first).arch = v.arch := by
        cases first <;> rfl
      have hsr := Rep.registers hR hC
      have hdmem := hR.dmem_eq
      rw [harch] at hsr hdmem
      refine emits_bind ((falls_flushRegisterWindow (E := E) hR hL).emits fun _ _ _ _ => ?_)
      refine ⟨_, .nil, _, rfl, trivial, congrArg some (Effect.ext hsr hdmem rfl ?_)⟩
      · refine congrArg some ((congrArg low hreg).trans ?_)
        exact BitVec.setWidth_ofNat_of_le T.wide _

/-! ### Where they differ -/

/-- The branch, as the address of a word of IMEM. -/
def Effect.inImem (f : Effect) : Effect := { f with branch := f.branch.map Mips.fetchPc }

/-- The two processors do not do the same. -/
def Differs (pc : Word) (i : Instr) (a : Arch) : Prop :=
  match i with
  -- between the immediate as it is printed and the immediate sign-extended
  | .imm .sltiu rt rs x =>
      rt ≠ 0 ∧ x.setWidth 32 ≤ Mips.read a rs ∧ Mips.read a rs < x.signExtend 32
  -- the target is read behind the write of the link
  | .jalr rd rs => rd = rs ∧ rs ≠ 0 ∧ Mips.fetchPc (Mips.read a rs) ≠ Mips.linkPc pc
  -- and so is the operand of the condition
  | .regimm _ true rs _ => rs = 31 ∧ (Mips.read a rs).msb
  | _ => False

/-- A register that is jumped to holds the address of a word of IMEM. -/
def TargetInImem (i : Instr) (a : Arch) : Prop :=
  match i with
  | .jr rs | .jalr _ rs => Mips.fetchPc (Mips.read a rs) = Mips.read a rs
  | _ => True

theorem fetchPc_fetchPc (x : Word) : Mips.fetchPc (Mips.fetchPc x) = Mips.fetchPc x := by
  rw [Mips.fetchPc, Mips.fetchPc, BitVec.and_assoc, BitVec.and_self]

theorem fetchPc_branchTarget (pc instr : Word) :
    Mips.fetchPc (branchTarget pc instr) = branchTarget pc instr :=
  fetchPc_fetchPc _

theorem fetchPc_linkPc (pc : Word) : Mips.fetchPc (Mips.linkPc pc) = Mips.linkPc pc :=
  fetchPc_fetchPc _

theorem fetchPc_jumpTarget (instr : Word) : Mips.fetchPc (jumpTarget instr) = jumpTarget instr := by
  rw [← jumpTarget_eq, BitVec.and_assoc, BitVec.and_self]
  apply BitVec.eq_of_toNat_eq
  rw [toNat_mul_four, jumpTarget, BitVec.toNat_shiftLeft, Jit.toNat_and_3ff, Nat.shiftLeft_eq]
  omega

theorem fetchPc_zero : Mips.fetchPc 0#32 = 0#32 := by decide

theorem map_ite (p : Prop) [Decidable p] (x : Word) :
    (if p then some x else none).map Mips.fetchPc = if p then some (Mips.fetchPc x) else none := by
  split <;> rfl

section Comparison

variable {H : Helpers} {pc : Word} {i : Instr} {a : Arch}

theorem textEffect_inImem : (textEffect H pc i a).inImem = textEffect H pc i a := by
  refine Effect.ext rfl rfl ?_ rfl
  rw [Effect.inImem, textEffect]
  dsimp only
  rw [map_ite, fetchPc_fetchPc]

/-- Only a register can say otherwise. -/
theorem fetchPc_target (hi : i.isIndirect = false) :
    Mips.fetchPc (Mips.target pc i a) = Mips.target pc i a := by
  cases i with
  | jr | jalr => cases hi
  | j instr | jal instr => exact fetchPc_jumpTarget instr
  | regimm _ _ _ instr | beq _ _ instr | bne _ _ instr | blez _ instr | bgtz _ instr =>
      exact fetchPc_branchTarget pc instr
  | _ => exact fetchPc_zero

theorem machineEffect_inImem (ht : Mips.fetchPc (Mips.target pc i a) = Mips.target pc i a) :
    (machineEffect H pc i a).inImem = machineEffect H pc i a := by
  refine Effect.ext rfl rfl ((map_ite _ _).trans ?_) rfl
  rw [ht]
  rfl

theorem machineEffect_inImem_iff (H : Helpers) (pc : Word) {i : Instr} {a : Arch} :
    (machineEffect H pc i a).inImem = machineEffect H pc i a ↔ TargetInImem i a := by
  cases i with
  | jr rs =>
      exact ⟨fun h => Option.some.inj (congrArg Effect.branch h), fun h => machineEffect_inImem h⟩
  | jalr rd rs =>
      exact ⟨fun h => Option.some.inj (congrArg Effect.branch h), fun h => machineEffect_inImem h⟩
  | _ => exact iff_of_true (machineEffect_inImem (fetchPc_target rfl)) trivial

theorem some_iff {p q : Bool} {x : Word} :
    (if p then some x else none) = (if q then some x else none) ↔ p = q := by
  cases p <;> cases q <;> simp

theorem ofBool_injective {b b' : Bool} (h : Mips.ofBool b = Mips.ofBool b') : b = b' := by
  cases b <;> cases b' <;> first | rfl | cases h

theorem write_sr_self {r : Fin 32} (hr : r ≠ 0) (x : Word) : (Mips.write a r x).sr r = x := by
  rw [Mips.write, if_neg hr]
  exact Function.update_self _ _ _

theorem read_write_self {r : Fin 32} (hr : r ≠ 0) (x : Word) :
    Mips.read (Mips.write a r x) r = x := by
  rw [Mips.read, if_neg hr, write_sr_self hr]

theorem read_write_of_ne {r r' : Fin 32} (hne : r' ≠ r) (x : Word) :
    Mips.read (Mips.write a r x) r' = Mips.read a r' := by
  rw [Mips.write]
  split
  · rfl
  · show (if r' = 0 then 0#32 else Function.update a.sr r x r') = if r' = 0 then 0#32 else a.sr r'
    rw [Function.update_of_ne fun hv => hne (Fin.ext hv)]

theorem setWidth_le_signExtend (x : BitVec 16) : x.setWidth 32 ≤ x.signExtend 32 := by
  rw [BitVec.le_def, BitVec.toNat_signExtend]
  exact Nat.le_add_right _ _

/-- A number is below both immediates or below none, unless it is between them. -/
theorem ult_iff (r : Word) (x : BitVec 16) :
    r.ult (x.signExtend 32) = r.ult (x.setWidth 32) ↔
      ¬(x.setWidth 32 ≤ r ∧ r < x.signExtend 32) := by
  have hle := setWidth_le_signExtend x
  rw [Bool.eq_iff_iff, BitVec.ult_iff_lt, BitVec.ult_iff_lt]
  simp only [BitVec.lt_def, BitVec.le_def] at hle ⊢
  omega

theorem sltiu_iff (rt rs : Fin 32) (x : BitVec 16) :
    (machineEffect H pc (.imm .sltiu rt rs x) a).inImem = textEffect H pc (.imm .sltiu rt rs x) a ↔
      ¬Differs pc (.imm .sltiu rt rs x) a := by
  by_cases h0 : rt = 0
  · subst h0
    exact iff_of_true rfl fun hd => hd.1 rfl
  · have hult := ult_iff (Mips.read a rs) x
    constructor
    · intro heq hd
      have hsr := congrFun (congrArg Effect.sr heq) rt
      have hval := (write_sr_self h0 _).symm.trans (hsr.trans (write_sr_self h0 _))
      exact hult.1 (ofBool_injective hval) hd.2
    · intro hd
      have heq := hult.2 fun hb => hd ⟨h0, hb⟩
      have hexec : textExec H pc (.imm .sltiu rt rs x) a =
          (Mips.exec H pc (.imm .sltiu rt rs x) a).1 :=
        congrArg (fun b => Mips.write a rt (Mips.ofBool b)) heq.symm
      rw [textEffect, hexec]
      rfl

/-- The target of `JALR`, behind the write of the link and before. -/
theorem jalr_iff (rd rs : Fin 32) :
    (machineEffect H pc (.jalr rd rs) a).inImem = textEffect H pc (.jalr rd rs) a ↔
      ¬Differs pc (.jalr rd rs) a := by
  have heffect : (machineEffect H pc (.jalr rd rs) a).inImem = textEffect H pc (.jalr rd rs) a ↔
      Mips.fetchPc (Mips.read a rs) =
        Mips.fetchPc (Mips.read (Mips.write a rd (Mips.linkPc pc)) rs) :=
    ⟨fun h => Option.some.inj (congrArg Effect.branch h), fun h =>
      Effect.ext rfl rfl (congrArg some h) rfl⟩
  rw [heffect]
  by_cases hd : rd = rs ∧ rs ≠ 0
  · obtain ⟨rfl, h0⟩ := hd
    rw [read_write_self h0, fetchPc_linkPc]
    exact ⟨fun h hd => hd.2.2 h, fun h => by_contra fun hne => h ⟨rfl, h0, hne⟩⟩
  · have hread : Mips.read (Mips.write a rd (Mips.linkPc pc)) rs = Mips.read a rs := by
      by_cases hne : rs = rd
      · have h0 : rs = 0 := by_contra fun h0 => hd ⟨hne.symm, h0⟩
        rw [h0]
        rfl
      · exact read_write_of_ne hne _
    rw [hread]
    exact iff_of_true rfl fun h => hd ⟨h.1, h.2.1⟩

theorem msb_linkPc (pc : Word) : (Mips.linkPc pc).msb = false := by
  rw [Mips.linkPc, BitVec.msb_and]
  exact Bool.and_false _

theorem zeroCond_eq (z : ZeroCond) (x : Word) :
    Mips.zeroCond z x = (decide (z = .ltz) == x.msb) := by
  cases z <;> cases hx : x.msb <;> simp [Mips.zeroCond, BitVec.slt_zero_eq_msb, hx]

/-- The condition of a branch with a link. -/
theorem link_iff (z : ZeroCond) (rs : Fin 32) (instr : Word) :
    (machineEffect H pc (.regimm z true rs instr) a).inImem =
      textEffect H pc (.regimm z true rs instr) a ↔
      ¬Differs pc (.regimm z true rs instr) a := by
  have heffect : (machineEffect H pc (.regimm z true rs instr) a).inImem =
      textEffect H pc (.regimm z true rs instr) a ↔
      Mips.zeroCond z (Mips.read a rs) =
        Mips.zeroCond z (Mips.read (Mips.write a 31 (Mips.linkPc pc)) rs) := by
    have hmap := map_ite (Mips.zeroCond z (Mips.read a rs))
      (Mips.target pc (.regimm z true rs instr) a)
    refine ⟨fun h => ?_, fun h => Effect.ext rfl rfl (hmap.trans ?_) rfl⟩
    · exact some_iff.1 (hmap.symm.trans (congrArg Effect.branch h))
    · exact some_iff.2 h
  rw [heffect]
  by_cases h31 : rs = 31
  · subst h31
    rw [read_write_self (by decide), zeroCond_eq, zeroCond_eq, msb_linkPc]
    have hd : Differs pc (.regimm z true 31 instr) a ↔ (Mips.read a 31).msb :=
      ⟨And.right, fun h => ⟨rfl, h⟩⟩
    rw [hd]
    cases (Mips.read a 31).msb <;> cases z <;> decide
  · rw [read_write_of_ne h31]
    exact iff_of_true rfl fun hd => h31 hd.1

theorem inImem_eq_textEffect_iff (hi : isScalar i) :
    (machineEffect H pc i a).inImem = textEffect H pc i a ↔ ¬Differs pc i a := by
  cases i with
  | imm op rt rs x =>
    cases op with
    | sltiu => exact sltiu_iff rt rs x
    | _ => exact iff_of_true rfl not_false
  | jalr rd rs => exact jalr_iff rd rs
  | regimm z link rs instr =>
    cases link with
    | true => exact link_iff z rs instr
    | false => exact iff_of_true (Effect.ext rfl rfl (map_ite _ _) rfl) not_false
  | beq | bne | blez | bgtz => exact iff_of_true (Effect.ext rfl rfl (map_ite _ _) rfl) not_false
  | vu | mfc0 | mtc0 | mfc2 | mtc2 | cfc2 | ctc2 | lwc2 | swc2 => cases hi
  | _ => exact iff_of_true rfl not_false

/-- Equal as they are, or equal in IMEM with nothing to mask. -/
theorem machineEffect_eq_textEffect_iff (hi : isScalar i) :
    machineEffect H pc i a = textEffect H pc i a ↔ ¬Differs pc i a ∧ TargetInImem i a := by
  rw [← inImem_eq_textEffect_iff (H := H) hi, ← machineEffect_inImem_iff H pc]
  constructor
  · intro heq
    rw [heq, textEffect_inImem]
    exact ⟨rfl, rfl⟩
  · rintro ⟨htext, hself⟩
    exact hself.symm.trans htext

end Comparison

/-! ### The two processors -/

/-- Where an instruction stands, and what the two generators have of the instruction before. -/
structure Place where
  /-- The first word of the region. -/
  pc : Word
  /-- Its words. -/
  count : Word
  /-- The index of the instruction. -/
  i : Word
  /-- The branch before, in the reference. -/
  pending : Pipe
  /-- The branch before. -/
  last : InstructionInfo
  /-- Whether a branch may be inherited. -/
  first : Bool
  /-- Whether there is a branch to the next instruction. -/
  nextIsTarget : Bool

/-- The emitted code and the text of an instruction leave the same
behind, as far as `seen` shows it. -/
def Agree (E : Env T) (seen : Effect → Effect) (p : Place)
    (w : Word) (c : RegisterCache T) (h : Host T) (s : State Var) :
    Prop :=
  ∃ e, instruction p.pc p.count p.i p.pending w = some e ∧
    wp (lightning E) (writtenBack (bytePc p.pc p.i) (decode w) p.last p.first p.nextIsTarget)
      (fun info _ o => ∃ f, codeEffect info o = some f ∧ seen f = seen (e.effect s)) c h

theorem agree_iff {w : Word} (hw : BothImplement w) (seen : Effect → Effect)
    (p : Place) (hS : Ready c h v) (hserves : E.Serves (decode w) v.arch)
    (hs : Same s v.arch) : Agree E seen p w c h s ↔
      seen (machineEffect E.toHelpers (bytePc p.pc p.i) (decode w) v.arch) =
        seen (textEffect E.toHelpers (bytePc p.pc p.i) (decode w) v.arch) := by
  obtain ⟨e, he, htext⟩ := effect_instruction E.toHelpers hw p.pc p.count p.i p.pending
  have hcode := wp_writtenBack (E := E) hS (isScalar_decode hw) hserves
    (bytePc p.pc p.i) p.last p.first p.nextIsTarget
  rw [← htext s v.arch hs]
  constructor
  · rintro ⟨e', he', _, k, c', hm, -, f, hf, heq⟩
    obtain ⟨_, k', c'', hm', -, hf'⟩ := hcode
    cases he.symm.trans he'
    cases hm.symm.trans hm'
    cases hf.symm.trans hf'
    exact heq
  · intro heq
    exact ⟨e, he, hcode.mono fun _ _ _ hf => ⟨_, hf, heq⟩⟩

/-- On other hosts than those of 32 bits nobody knows what an unaligned access leaves in DMEM. -/
theorem serves_of_agree {H : Helpers} {w : Word} (hw : BothImplement w) {seen : Effect → Effect}
    (hseen : ∀ f f', seen f = seen f' → f.dmem = f'.dmem) (p : Place) (hS : Ready c h v)
    (hall : ∀ E : Env T, E.toHelpers = H → Agree E seen p w c h s) :
    T.wordSize = 32 ∨ ¬CallsUnaligned (decode w) v.arch := by
  by_contra hn
  obtain ⟨h32, hu⟩ := not_or.1 hn
  obtain ⟨e, he, -⟩ := effect_instruction H hw p.pc p.count p.i p.pending
  obtain ⟨E, bad, hE, hmem, hbad⟩ := exists_leaves (T := T) H h32 (e.effect s).dmem
  refine hbad ?_
  obtain ⟨e', he', _, k, c', hm, -, f, hf, heq⟩ := hall E hE
  cases he.symm.trans he'
  have hcode : falls (lightning E)
      (writtenBack (bytePc p.pc p.i) (decode w) p.last p.first p.nextIsTarget)
      (fun _ _ h' => h'.st.dmem = bad) c h := by
    refine falls_bind ((falls_unaligned hmem (not_not.1 hu) hS _ _ _ _).mono ?_)
    rintro info c₁ h₁ ⟨v₁, hS₁, hd⟩
    refine falls_bind ((falls_flush hS₁).mono ?_)
    rintro _ c₂ h₂ ⟨-, hR₂, -⟩
    exact falls_pure (hR₂.dmem_eq.trans hd)
  obtain ⟨_, k', c'', hm', -, h', hx, hd⟩ := hcode
  cases hm.symm.trans hm'
  rw [hx] at hf
  cases hf
  exact hd.symm.trans (hseen _ _ heq)

/-- **The two processors agree on scalar instructions, but for three.** Whatever is cached, for
every word that both have, all registers and every DMEM: the emitted code and the text leave the
same registers and DMEM and branch alike, to the same word of IMEM, if and only if the instruction
is not one of those in `Differs`; and to the same address as a number if moreover a register that is
jumped to holds the address of a word of IMEM. On hosts of other sizes than 32 bits the access has
to be aligned, too. -/
theorem reference_agrees_iff (H : Helpers) {w : Word} (hw : BothImplement w)
    (p : Place) (hS : Ready c h v) (hs : Same s v.arch) :
    ((∀ E : Env T, E.toHelpers = H → Agree E id p w c h s) ↔
      (T.wordSize = 32 ∨ ¬CallsUnaligned (decode w) v.arch) ∧
      ¬Differs (bytePc p.pc p.i) (decode w) v.arch ∧ TargetInImem (decode w) v.arch) ∧
    ((∀ E : Env T, E.toHelpers = H → Agree E Effect.inImem p w c h s) ↔
      (T.wordSize = 32 ∨ ¬CallsUnaligned (decode w) v.arch) ∧
      ¬Differs (bytePc p.pc p.i) (decode w) v.arch) := by
  have hi := isScalar_decode hw
  have hiff (seen : Effect → Effect) (hseen : ∀ f f', seen f = seen f' → f.dmem = f'.dmem) :
      (∀ E : Env T, E.toHelpers = H → Agree E seen p w c h s) ↔
        (T.wordSize = 32 ∨ ¬CallsUnaligned (decode w) v.arch) ∧
        seen (machineEffect H (bytePc p.pc p.i) (decode w) v.arch) =
          seen (textEffect H (bytePc p.pc p.i) (decode w) v.arch) := by
    constructor
    · intro hall
      have hor := serves_of_agree hw hseen p hS hall
      refine ⟨hor, ?_⟩
      let E : Env T := { H with clobber := fun _ _ => 0#_, stray := fun _ h => h }
      exact (agree_iff hw seen p hS (E.serves_of hor) hs).1 (hall E rfl)
    · rintro ⟨hor, heq⟩ E rfl
      exact (agree_iff hw seen p hS (E.serves_of hor) hs).2 heq
  have hid := hiff id fun f f' heq => congrArg Effect.dmem heq
  have hinImem := hiff Effect.inImem fun f f' heq =>
    show f.inImem.dmem = f'.inImem.dmem from congrArg Effect.dmem heq
  rw [hid, hinImem, textEffect_inImem]
  exact ⟨and_congr_right fun _ => machineEffect_eq_textEffect_iff hi,
    and_congr_right fun _ => inImem_eq_textEffect_iff hi⟩

/-! Runs on fixed registers. -/

/-- The C state that holds registers and DMEM. -/
def stateOf (a : Arch) : State Var where
  vars v :=
    match v with
    | .sr r => a.sr r
    | _ => 0#32
  mem := a.dmem

theorem same_stateOf (a : Arch) : Same (stateOf a) a := ⟨fun _ => rfl, rfl⟩

theorem ready_view (h : Host T) : Ready {} h h.view :=
  empty_default.ready (empty_default.clean.rep h)

/-- `$4 = 100000`, `$9 = 0x40`, `$13 = 0x04001010`, `$31 = 0x80000000`. -/
def fourRegisters : Host smallTarget :=
  { (Host.zero : Host smallTarget) with
    st := { (Host.zero : Host smallTarget).st with
      sr := fun r => if r = 4 then 100000#32 else if r = 9 then 0x40#32
        else if r = 13 then 0x04001010#32 else if r = 31 then 0x80000000#32 else 0#32 } }

/-- The third instruction of a region of seven words. -/
def thirdOfSeven : Place := ⟨0#32, 7#32, 2#32, {}, {}, false, false⟩

/-- `SLTIU $9, $4, 40`. -/
theorem reference_agrees_iff_sltiu :
    Agree smallEnv id thirdOfSeven 0x2c890028#32 {} fourRegisters
      (stateOf fourRegisters.view.arch) := by
  have hiff := (reference_agrees_iff smallEnv.toHelpers (w := 0x2c890028#32) (by decide)
    thirdOfSeven (ready_view fourRegisters) (same_stateOf _)).1
  exact hiff.2 ⟨.inl rfl, fun hd => absurd hd.2.2 (by decide), trivial⟩ smallEnv rfl

/-- `SLTIU $8, $4, -40`, `JALR $9, $9`, `BLTZAL $31, 1` and `JR $13`. -/
theorem reference_disagrees :
    ¬Agree smallEnv id thirdOfSeven 0x2c88ffd8#32 {} fourRegisters
      (stateOf fourRegisters.view.arch) ∧
      ¬Agree smallEnv id thirdOfSeven 0x01204809#32 {} fourRegisters
        (stateOf fourRegisters.view.arch) ∧
      ¬Agree smallEnv id thirdOfSeven 0x07f00001#32 {} fourRegisters
        (stateOf fourRegisters.view.arch) ∧
      ¬Agree smallEnv id thirdOfSeven 0x01a00008#32 {} fourRegisters
        (stateOf fourRegisters.view.arch) := by
  have hno {w : Word} (hw : BothImplement w)
      (hd : ¬(¬Differs (bytePc 0#32 2#32) (decode w) fourRegisters.view.arch ∧
        TargetInImem (decode w) fourRegisters.view.arch)) :
      ¬Agree smallEnv id thirdOfSeven w {} fourRegisters (stateOf fourRegisters.view.arch) := by
    rw [agree_iff hw _ _ (ready_view _) (smallEnv.serves _ _) (same_stateOf _)]
    exact fun h => hd ((machineEffect_eq_textEffect_iff (isScalar_decode hw)).1 h)
  have hjr : Mips.fetchPc (Mips.read fourRegisters.view.arch 13) ≠
      Mips.read fourRegisters.view.arch 13 := by decide
  refine ⟨hno (by decide) fun h => h.1 ⟨?_, ?_, ?_⟩, hno (by decide) fun h => h.1 ⟨?_, ?_, ?_⟩,
    hno (by decide) fun h => h.1 ⟨?_, ?_⟩, hno (by decide) fun h => hjr h.2⟩
  all_goals decide

end ParallelRsp.Debug
