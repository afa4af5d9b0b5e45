import ParallelRsp.Mips.Machine
import ParallelRsp.Rsp.Dma
import ParallelRsp.Vu.DoubleWord

/-!
# The division protocol

A 32-bit divisor takes three instructions: `VRCPH` hands in its high half, `VRCPL` its low
half and gets the low half of the quotient, and another `VRCPH` fetches the high half (and
hands in the next divisor's). In between `div_in`, `div_out` and `dp_flag` remember what has
been said, across any other instructions.

## The model

`DivUnit` says what there is to remember: the high half that waits for its low half, and the
last quotient. `DivUnit.step` is the protocol.

## What is proved

The six instructions are `DivUnit.step` (`Represents.step`), every other instruction leaves
the unit alone (`exec_sameUnit`), and so a program talks to the unit as its divisions say
(`Represents.run`). `divide_protocol` spells out what that means for the sequences that
programs use.
-/

namespace ParallelRsp

open Simd

/-! ### The division unit -/

/-- The instructions that compute a quotient, of the reciprocal or (`vrsq`) of
the reciprocal square root. -/
inductive QuotOp where
  /-- `VRCP`, `VRSQ`. -/
  | single (vrsq : Bool)
  /-- `VRCPL`, `VRSQL`. -/
  | low (vrsq : Bool)
  deriving DecidableEq

/-- The instructions of the division unit. -/
inductive DivOp where
  /-- One that computes. -/
  | quot (q : QuotOp)
  /-- `VRCPH`, `VRSQH`. -/
  | high (vrsq : Bool)
  deriving DecidableEq

/-- The entry of the dispatch table. -/
def DivOp.code : DivOp → Fin 64
  | .quot (.single vrsq) => if vrsq then 52 else 48
  | .quot (.low vrsq) => if vrsq then 53 else 49
  | .high vrsq => if vrsq then 54 else 50

/-- What the division unit remembers. -/
structure DivUnit where
  /-- The high half of a divisor that waits for its low half. -/
  high : Option (BitVec 16)
  /-- The last quotient. -/
  quotient : Word

/-- The low half of a word. -/
def lowHalf (x : Word) : BitVec 16 := x.extractLsb' 0 16

/-- The high half of a word. -/
def highHalf (x : Word) : BitVec 16 := x.extractLsb' 16 16

/-- The divisor that a computing instruction with the operand `x` has. -/
def DivUnit.divisor (u : DivUnit) (q : QuotOp) (x : BitVec 16) : Word :=
  match q, u.high with
  | .low _, some h => h ++ x
  | _, _ => x.signExtend 32

/-- The function that a computing instruction computes. -/
def QuotOp.apply : QuotOp → Word → Word
  | .single vrsq, x => vrcpVrsqResult vrsq x
  | .low vrsq, x => vrcpVrsqResult vrsq x

/-- An instruction with the operand `x`: the unit afterwards, and the lane it delivers. -/
def DivUnit.step (u : DivUnit) (op : DivOp) (x : BitVec 16) : DivUnit × BitVec 16 :=
  match op with
  | .quot q =>
    let quotient := q.apply (u.divisor q x)
    (⟨none, quotient⟩, lowHalf quotient)
  | .high _ => (⟨some x, u.quotient⟩, highHalf u.quotient)

/-! ### The registers that keep it -/

/-- `div_in`, `div_out` and `dp_flag` say what the unit remembers. -/
structure Represents (u : DivUnit) (cp2 : CP2) : Prop where
  /-- The flag is set while a high half waits. -/
  dpFlag : cp2.dpFlag = if u.high.isSome then 1#8 else 0#8
  /-- The high half. -/
  divIn : ∀ h ∈ u.high, cp2.divIn = h
  /-- The quotient. -/
  divOut : cp2.divOut = highHalf u.quotient

theorem Represents.zero : Represents ⟨none, 0#32⟩ CP2.zero :=
  ⟨rfl, nofun, by decide⟩

theorem Represents.congr {u : DivUnit} {cp2 cp2' : CP2}
    (h : Represents u cp2) (hflag : cp2'.dpFlag = cp2.dpFlag)
    (hin : cp2'.divIn = cp2.divIn) (hout : cp2'.divOut = cp2.divOut) : Represents u cp2' :=
  ⟨hflag ▸ h.dpFlag, hin ▸ h.divIn, hout ▸ h.divOut⟩

/-- The lane that a division reads. -/
def Operands.source (o : Operands) (cp2 : CP2) : BitVec 16 :=
  cp2.regs o.vt ⟨o.e.val % 8, mod_eight_lt o.e⟩

/-- The lane that it writes. -/
def Operands.delivered (o : Operands) (cp2 : CP2) : BitVec 16 := cp2.regs o.vd (VU.destElement o.vs)

/-! ### The instructions of the unit -/

theorem signExtend_shift_or (x y : BitVec 16) :
    (x.signExtend 32 <<< 16) ||| y.setWidth 32 = x ++ y := by
  apply BitVec.eq_of_getLsbD_eq
  intro i hi
  rw [BitVec.getLsbD_or, BitVec.getLsbD_shiftLeft, BitVec.getLsbD_signExtend,
    BitVec.getLsbD_setWidth, BitVec.getLsbD_append]
  by_cases h : i < 16
  · simp [hi, h]
  · have h16 : i - 16 < 16 := by omega
    have hy : y.getLsbD i = false := BitVec.getLsbD_of_ge y i (by omega)
    simp [hi, h, h16, hy, show i - 16 < 32 by omega]

theorem setWidth_eq_lowHalf (x : Word) : x.setWidth 16 = lowHalf x := by
  rw [lowHalf, BitVec.setWidth_eq_extractLsb' (by decide)]

theorem lowHalf_sshiftRight (x : Word) : lowHalf (x.sshiftRight 16) = highHalf x := by
  apply BitVec.eq_of_getLsbD_eq
  intro i hi
  rw [highHalf, lowHalf, BitVec.getLsbD_extractLsb', BitVec.getLsbD_sshiftRight,
    BitVec.getLsbD_extractLsb']
  simp [hi, show i < 32 by omega, show 16 + i < 32 by omega]

/-- The divisor that the code chooses. -/
def QuotOp.input (q : QuotOp) (cp2 : CP2) (x : BitVec 16) : Word :=
  match q with
  | .single _ => x.signExtend 32
  | .low _ => if cp2.dpFlag.getLsbD 0 then cp2.divIn ++ x else x.signExtend 32

section Instructions

variable (o : Operands) (b : Build) (cp2 : CP2)

/-- The state after a division: one lane of the destination is written, and the low
accumulator is the shuffled operand. -/
def Operands.stored (flag : BitVec 8) (divIn divOut lane : BitVec 16) : CP2 :=
  { cp2 with
    acc := { cp2.acc with lo := VU.loadVt b o.e o.vt cp2 }
    dpFlag := flag
    divIn := divIn
    divOut := divOut
    regs := Function.update cp2.regs o.vd
      (Function.update (cp2.regs o.vd) (VU.destElement o.vs) lane) }

/-- An instruction that computes a quotient. -/
theorem Operands.run_quot (q : QuotOp) :
    o.run b (DivOp.quot q).code cp2 =
      o.stored b cp2 0#8 cp2.divIn (highHalf (q.apply (q.input cp2 (o.source cp2))))
        (lowHalf (q.apply (q.input cp2 (o.source cp2)))) := by
  have hkernel (vrsq dp : Bool) (cp2 : CP2) :
      rspVrcpVrsq vrsq cp2 dp o.vt o.e o.vd (VU.destElement o.vs) =
        { cp2 with
          divOut := highHalf (vrcpVrsqResult vrsq
            (if dp then cp2.divIn ++ o.source cp2 else (o.source cp2).signExtend 32))
          regs := Function.update cp2.regs o.vd
            (Function.update (cp2.regs o.vd) (VU.destElement o.vs)
            (lowHalf (vrcpVrsqResult vrsq
              (if dp then cp2.divIn ++ o.source cp2 else (o.source cp2).signExtend 32)))) } := by
    simp only [rspVrcpVrsq, signExtend_shift_or, setWidth_eq_lowHalf,
      lowHalf_sshiftRight, Operands.source]
  cases q with
  | single vrsq => cases vrsq <;> exact hkernel _ _ _
  | low vrsq => cases vrsq <;> exact hkernel _ _ _

/-- An instruction that hands in a high half. -/
theorem Operands.run_high (vrsq : Bool) :
    o.run b (DivOp.high vrsq).code cp2 =
      o.stored b cp2 1#8 (o.source cp2) cp2.divOut cp2.divOut := by
  cases vrsq <;> rfl

theorem Operands.delivered_stored (flag : BitVec 8) (divIn divOut lane : BitVec 16) :
    o.delivered (o.stored b cp2 flag divIn divOut lane) = lane := by
  have hreg : (o.stored b cp2 flag divIn divOut lane).regs o.vd =
      Function.update (cp2.regs o.vd) (VU.destElement o.vs) lane := Function.update_self _ _ _
  rw [Operands.delivered, hreg, Function.update_self]

end Instructions

/-- The code chooses the divisor of the unit. -/
theorem Represents.input {u : DivUnit} {cp2 : CP2} (h : Represents u cp2)
    (q : QuotOp) (x : BitVec 16) :
    q.input cp2 x = u.divisor q x := by
  cases q with
  | single vrsq => rfl
  | low vrsq =>
    obtain ⟨high, quotient⟩ := u
    cases high with
    | none =>
      have hflag : cp2.dpFlag = 0#8 := h.dpFlag
      rw [QuotOp.input, hflag]
      rfl
    | some x' =>
      have hflag : cp2.dpFlag = 1#8 := h.dpFlag
      have hin : cp2.divIn = x' := h.divIn x' rfl
      rw [QuotOp.input, hflag, hin]
      rfl

/-- An instruction of the unit is a step of the unit. -/
theorem Represents.step {u : DivUnit} {cp2 : CP2} (h : Represents u cp2)
    (op : DivOp) (o : Operands) (b : Build) :
    Represents (u.step op (o.source cp2)).1 (o.run b op.code cp2) ∧
      o.delivered (o.run b op.code cp2) = (u.step op (o.source cp2)).2 := by
  cases op with
  | quot q =>
    rw [o.run_quot, o.delivered_stored, h.input]
    exact ⟨⟨rfl, nofun, rfl⟩, rfl⟩
  | high vrsq =>
    rw [o.run_high, o.delivered_stored]
    refine ⟨⟨rfl, ?_, h.divOut⟩, h.divOut⟩
    rintro x ⟨⟩
    rfl

/-! ### Other instructions -/

/-- The division that an entry of the dispatch table is. -/
def DivOp.ofCode (op : Fin 64) : Option DivOp :=
  match op.val with
  | 48 => some (.quot (.single false))
  | 49 => some (.quot (.low false))
  | 50 => some (.high false)
  | 52 => some (.quot (.single true))
  | 53 => some (.quot (.low true))
  | 54 => some (.high true)
  | _ => none

theorem DivOp.code_of_ofCode : ∀ (op : Fin 64), ∀ d ∈ DivOp.ofCode op, op = d.code := by decide

/-- The division that an instruction is. -/
def Instr.division : Instr → Option (DivOp × Operands)
  | .vu op e vd vs vt => (DivOp.ofCode op).map (·, ⟨e, vd, vs, vt⟩)
  | _ => none

/-- A division as an instruction. -/
def Operands.instr (o : Operands) (op : DivOp) : Instr := .vu op.code o.e o.vd o.vs o.vt

theorem Instr.eq_of_division {i : Instr} {op : DivOp} {o : Operands}
    (h : i.division = some (op, o)) :
    i = o.instr op := by
  cases i with
  | vu code e vd vs vt =>
    obtain ⟨d, hd, heq⟩ := Option.map_eq_some_iff.1 h
    obtain ⟨rfl, rfl⟩ := Prod.mk.inj heq
    rw [Operands.instr, DivOp.code_of_ofCode code d hd]
  | _ => cases h

/-- The three registers of the unit are as before. -/
structure SameUnit (cp2 cp2' : CP2) : Prop where
  /-- `dp_flag`. -/
  dpFlag : cp2'.dpFlag = cp2.dpFlag
  /-- `div_in`. -/
  divIn : cp2'.divIn = cp2.divIn
  /-- `div_out`. -/
  divOut : cp2'.divOut = cp2.divOut

theorem SameUnit.of_eq {cp2 cp2' : CP2} (h : cp2' = cp2) : SameUnit cp2 cp2' := by
  subst h
  exact ⟨rfl, rfl, rfl⟩

theorem vuop_sameUnit (b : Build) {op : Fin 64} (hop : DivOp.ofCode op = none)
    (e : Fin 16) (vd vs vt : Fin 32)
    (cp2 : CP2) : SameUnit cp2 (VU.vuop b e vd vs vt cp2 op) := by
  revert hop
  apply VU.vuop_cases (motive := fun op f => DivOp.ofCode op = none → SameUnit cp2 (f b cp2))
  case vrcp | vrcpl | vrcph | vrsq | vrsql | vrsqh => exact fun hop => absurd hop (by decide)
  case vnop | reserved => exact fun _ _ => ⟨rfl, rfl, rfl⟩
  all_goals exact fun _ => ⟨rfl, rfl, rfl⟩

theorem CP.dmaRows_cp2 {word : Word → Word → Arch → Arch}
    (hword : ∀ source dest a, (word source dest a).cp2 = a.cp2)
    (length sourceStep destStep : Word) (n : ℕ) (source dest : Word) (a : Arch) :
    (CP.dmaRows word length sourceStep destStep n source dest a).1.cp2 = a.cp2 := by
  rw [CP.dmaRows_eq]
  induction CP.dmaPairs length sourceStep destStep n source dest generalizing a with
  | nil => rfl
  | cons p l ih => rw [List.foldl_cons, ih, hword]

theorem CP.rspDmaRead_cp2 (a : Arch) : (CP.rspDmaRead a).1.cp2 = a.cp2 := by
  have hword (source dest : Word) (a : Arch) : (CP.dmaReadWord source dest a).cp2 = a.cp2 := by
    rw [CP.dmaReadWord]
    split <;> rfl
  have hcr (s : Arch) (r : Fin 16) (x : Word) : (CP.setCr s r x).cp2 = s.cp2 := rfl
  simp only [CP.rspDmaRead, hcr, CP.dmaRows_cp2 hword]

theorem CP.rspDmaWrite_cp2 (a : Arch) : (CP.rspDmaWrite a).cp2 = a.cp2 := by
  have hword (source dest : Word) (a : Arch) : (CP.dmaWriteWord source dest a).cp2 = a.cp2 := rfl
  have hcr (s : Arch) (r : Fin 16) (x : Word) : (CP.setCr s r x).cp2 = s.cp2 := rfl
  simp only [CP.rspDmaWrite, hcr, CP.dmaRows_cp2 hword]

theorem CP.mtc0Value_cp2 (rdp : CP.ProcessRdpList) (rd : Fin 16) (x : Word) (a : Arch) :
    (CP.mtc0Value rdp rd x a).1.cp2 = a.cp2 := by
  have hite {p : Prop} [Decidable p] {r r' : Arch × ReturnMode}
      (h : r.1.cp2 = a.cp2) (h' : r'.1.cp2 = a.cp2) :
      (if p then r else r').1.cp2 = a.cp2 := by
    split
    · exact h
    · exact h'
  rw [CP.mtc0Value]
  repeat' apply hite
  all_goals try rfl
  · exact CP.rspDmaRead_cp2 (CP.setCr a CP.dmaReadLength x)
  · exact CP.rspDmaWrite_cp2 (CP.setCr a CP.dmaWriteLength x)
  · dsimp only
    split <;> split <;> rfl

/-- Every other instruction leaves the unit alone. -/
theorem exec_sameUnit (H : Helpers) (pc : Word) {i : Instr} (hi : i.division = none) (a : Arch) :
    SameUnit a.cp2 (Mips.exec H pc i a).1.cp2 := by
  have hwrite (r : Fin 32) (x : Word) : SameUnit a.cp2 (Mips.write a r x).cp2 := by
    rw [Mips.write]
    split <;> exact ⟨rfl, rfl, rfl⟩
  cases i with
  | vu op e vd vs vt => exact vuop_sameUnit H.build (Option.map_eq_none_iff.1 hi) e vd vs vt a.cp2
  | regimm c link rs instr =>
    cases link with
    | false => exact ⟨rfl, rfl, rfl⟩
    | true => exact hwrite 31 (Mips.linkPc pc)
  | mfc0 rt rd =>
    simp only [Mips.exec, CP.rspMFC0]
    repeat' split
    all_goals exact ⟨rfl, rfl, rfl⟩
  | mtc0 rt rd => exact .of_eq (CP.mtc0Value_cp2 _ _ _ _)
  | mfc2 rt rd e =>
    simp only [Mips.exec, CP.rspMFC2]
    repeat' split
    all_goals exact ⟨rfl, rfl, rfl⟩
  | mtc2 rt rd e =>
    simp only [Mips.exec, CP.rspMTC2]
    repeat' split
    all_goals exact ⟨rfl, rfl, rfl⟩
  | cfc2 rt rd =>
    simp only [Mips.exec, CP.rspCFC2]
    split <;> exact ⟨rfl, rfl, rfl⟩
  | lwc2 op e rt rs offset =>
    cases op <;> simp only [Mips.exec, LS.lwc2, LS.rspLLV,
      LS.rspLDV, LS.rspLPV, LS.rspLQV, LS.rspLRV] <;>
      (repeat' split) <;> exact ⟨rfl, rfl, rfl⟩
  | shift => exact hwrite _ _
  | shiftv => exact hwrite _ _
  | alu => exact hwrite _ _
  | imm => exact hwrite _ _
  | lui => exact hwrite _ _
  | jalr => exact hwrite _ _
  | jal => exact hwrite _ _
  | load => exact hwrite _ _
  | _ => exact ⟨rfl, rfl, rfl⟩

/-! ### Programs -/

/-- The state after the instructions of a list, each with its address. -/
def runInstrs (H : Helpers) (l : List (Word × Instr)) (a : Arch) : Arch :=
  l.foldl (fun a p => (Mips.exec H p.1 p.2 a).1) a

/-- The unit after them. -/
def DivUnit.run (H : Helpers) : DivUnit → List (Word × Instr) → Arch → DivUnit
  | u, [], _ => u
  | u, (pc, i) :: l, a =>
    let u := match i.division with
      | some (op, o) => (u.step op (o.source a.cp2)).1
      | none => u
    DivUnit.run H u l (Mips.exec H pc i a).1

/-- A program talks to the unit as its divisions say. -/
theorem Represents.run {u : DivUnit} {a : Arch} (h : Represents u a.cp2)
    (H : Helpers) (l : List (Word × Instr)) :
    Represents (u.run H l a) (runInstrs H l a).cp2 := by
  induction l generalizing u a with
  | nil => exact h
  | cons p l ih =>
    obtain ⟨pc, i⟩ := p
    refine ih ?_
    cases hi : i.division with
    | none =>
      obtain ⟨hflag, hin, hout⟩ := exec_sameUnit H pc hi a
      exact h.congr hflag hin hout
    | some d =>
      obtain ⟨op, o⟩ := d
      rw [Instr.eq_of_division hi]
      exact (h.step op o H.build).1

/-- An instruction that is none of the six. -/
abbrev OtherInstr := { i : Instr // i.division = none }

/-- The state after instructions that are none of the six. -/
def runOthers (H : Helpers) (l : List (Word × OtherInstr)) (a : Arch) : Arch :=
  runInstrs H (l.map fun p => (p.1, p.2.1)) a

theorem DivUnit.run_others (H : Helpers) (u : DivUnit) (l : List (Word × OtherInstr)) (a : Arch) :
    u.run H (l.map fun p => (p.1, p.2.1)) a = u := by
  induction l generalizing a with
  | nil => rfl
  | cons p l ih =>
    rw [List.map_cons, DivUnit.run, p.2.2]
    exact ih _

theorem Represents.others {u : DivUnit} {a : Arch} (h : Represents u a.cp2) (H : Helpers)
    (l : List (Word × OtherInstr)) : Represents u (runOthers H l a).cp2 := by
  have hrun := h.run H (l.map fun p => (p.1, p.2.1))
  rwa [DivUnit.run_others] at hrun

/-- The state after a division. -/
def divide (H : Helpers) (op : DivOp) (o : Operands) (a : Arch) : Arch :=
  (Mips.exec H 0#32 (o.instr op) a).1

/-- The computing instruction `q` delivers `q.apply x`: its low half at once, its high half through
the next `VRCPH` or `VRSQH`, whatever other instructions come before that. -/
def Delivers (H : Helpers) (a : Arch) (q : QuotOp) (o : Operands) (x : Word) : Prop :=
  o.delivered (divide H (.quot q) o a).cp2 = lowHalf (q.apply x) ∧
    ∀ (l : List (Word × OtherInstr)) (vrsq : Bool) (o' : Operands),
      o'.delivered (divide H (.high vrsq) o' (runOthers H l (divide H (.quot q) o a))).cp2 =
        highHalf (q.apply x)

/-- After a computing instruction the unit waits for nothing, whatever it held before. -/
theorem represents_quot (H : Helpers) (q : QuotOp) (o : Operands) (a : Arch) :
    Represents ⟨none, q.apply (q.input a.cp2 (o.source a.cp2))⟩ (divide H (.quot q) o a).cp2 := by
  change Represents _ (o.run H.build (DivOp.quot q).code a.cp2)
  rw [o.run_quot]
  exact ⟨rfl, nofun, rfl⟩

/-- After `VRCPH` it waits for a low half. -/
theorem represents_high (H : Helpers) (vrsq : Bool) (o : Operands) (a : Arch) :
    Represents ⟨some (o.source a.cp2), a.cp2.divOut ++ 0#16⟩ (divide H (.high vrsq) o a).cp2 := by
  change Represents _ (o.run H.build (DivOp.high vrsq).code a.cp2)
  rw [o.run_high]
  refine ⟨rfl, ?_, BitVec.extractLsb'_append_eq_left.symm⟩
  rintro x ⟨⟩
  rfl

/-- A quotient is delivered in two halves. -/
theorem delivers_input (H : Helpers) (q : QuotOp) (o : Operands) (a : Arch) :
    Delivers H a q o (q.input a.cp2 (o.source a.cp2)) := by
  refine ⟨?_, fun l vrsq o' => ?_⟩
  · change o.delivered (o.run H.build (DivOp.quot q).code a.cp2) = _
    rw [o.run_quot, o.delivered_stored]
  · exact (((represents_quot H q o a).others H l).step (.high vrsq) o' H.build).2

theorem Represents.delivers {u : DivUnit} {a : Arch} (h : Represents u a.cp2)
    (H : Helpers) (q : QuotOp) (o : Operands) :
    Delivers H a q o (u.divisor q (o.source a.cp2)) := by
  rw [← h.input]
  exact delivers_input H q o a

/-- A sign extension, as two halves. -/
theorem append_sshiftRight (x : BitVec 16) : (x.sshiftRight 15 ++ x : Word) = x.signExtend 32 := by
  apply BitVec.eq_of_toInt_eq
  rw [toInt_append16 _ _ (by decide), toInt_sshiftRight_fifteen,
    BitVec.toInt_signExtend_of_le (by decide)]
  have := toInt_eq_toNat16 x
  generalize (if x.toInt < 0 then (1 : ℤ) else 0) = s at *
  omega

/-- The protocol of the six instructions, in every state and with any operands: a low half is put
together with the high half that was handed in last, or extended by its sign if there is none; a
single-precision instruction always extends its operand; the sign extension of a low half is one
divisor in either way; and a division writes one lane and the low accumulator. -/
theorem divide_protocol (H : Helpers) :
    (∀ (a : Arch) (o o' : Operands) (l : List (Word × OtherInstr)) (vrsq vrsq' : Bool),
      let a' := runOthers H l (divide H (.high vrsq) o a)
      Delivers H a' (.low vrsq') o' (o.source a.cp2 ++ o'.source a'.cp2)) ∧
    (∀ (a : Arch) (o : Operands) (vrsq : Bool),
      Delivers H a (.single vrsq) o ((o.source a.cp2).signExtend 32)) ∧
    (∀ (a : Arch) (q : QuotOp) (o o' : Operands) (l : List (Word × OtherInstr)) (vrsq : Bool),
      let a' := runOthers H l (divide H (.quot q) o a)
      Delivers H a' (.low vrsq) o' ((o'.source a'.cp2).signExtend 32)) ∧
    (∀ (a : Arch) (o : Operands) (l : List (Word × OtherInstr)) (vrsq : Bool),
      let a' := runOthers H l { a with cp2 := CP2.zero }
      Delivers H a' (.low vrsq) o ((o.source a'.cp2).signExtend 32)) ∧
    (∀ x : BitVec 16, (x.sshiftRight 15 ++ x : Word) = x.signExtend 32) ∧
    ∀ (a : Arch) (op : DivOp) (o : Operands),
      (divide H op o a).cp2.regs = Function.update a.cp2.regs o.vd
          (Function.update (a.cp2.regs o.vd) (VU.destElement o.vs)
            (o.delivered (divide H op o a).cp2)) ∧
        (divide H op o a).cp2.acc = { a.cp2.acc with lo := VU.loadVt H.build o.e o.vt a.cp2 } := by
  refine ⟨?_, ?_, ?_, ?_, ?_, ?_⟩
  · intro a o o' l vrsq vrsq' a'
    exact ((represents_high H vrsq o a).others H l).delivers H (.low vrsq') o'
  · intro a o vrsq
    exact delivers_input H (.single vrsq) o a
  · intro a q o o' l vrsq a'
    exact ((represents_quot H q o a).others H l).delivers H (.low vrsq) o'
  · intro a o l vrsq a'
    have h0 : Represents ⟨none, 0#32⟩ { a with cp2 := CP2.zero }.cp2 := Represents.zero
    exact (h0.others H l).delivers H (.low vrsq) o
  · exact append_sshiftRight
  · intro a op o
    have hrun : (divide H op o a).cp2 = o.run H.build op.code a.cp2 := rfl
    rw [hrun]
    cases op with
    | quot q =>
      rw [o.run_quot, o.delivered_stored]
      exact ⟨rfl, rfl⟩
    | high vrsq =>
      rw [o.run_high, o.delivered_stored]
      exact ⟨rfl, rfl⟩

end ParallelRsp
