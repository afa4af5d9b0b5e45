import ParallelRsp.Jit.Plugin

/-!
# The processor

What the recompiler is for, without it: a processor that executes the instructions of IMEM one
at a time in a call of `DoRspCycles`. There is no compiled code, no cache of it and no register
cache here. An instruction whose helper returns another mode than `MODE_CONTINUE` ends a run;
`DoRspCycles` runs the processor again until it halts or has an interrupt to report.
-/

namespace ParallelRsp

/-- Where the processor is. -/
inductive Processor.Place where
  /-- `DoRspCycles` has returned. -/
  | outside
  /-- In the loop of `DoRspCycles`. -/
  | cycling
  /-- It executes instructions. -/
  | running
  /-- It has executed one that returned this mode. -/
  | returned (mode : ReturnMode)

/-- The processor. -/
structure Processor where
  /-- Where it is. -/
  place : Processor.Place
  /-- Registers, memories, the next instruction and the branch in whose delay slot that is. -/
  machine : Mips.State

namespace Mips.State

/-- The machine with other registers and memories. -/
def withArch (m : State) (a : Arch) : State := { m with arch := a }

/-- The machine with other marks on the code blocks. -/
def mark (m : State) (marks : Word) : State := m.withArch { m.arch with dirtyBlocks := marks }

/-- `DoRspCycles` in front of its loop, when `SP_PC_REG` is `spPc`. -/
def beginCycles (m : State) (spPc : Word) : State :=
  { m with
    arch := { m.arch with cp0 := { m.arch.cp0 with mfc0Count := fun _ => 0#16 } }
    pc := spPc &&& 0xfff#32 }

/-- `CPU::run` returns a mode. -/
def leave (m : State) (mode : ReturnMode) : State :=
  if mode = .break then m.withArch m.arch.breakStatus else m

end Mips.State

namespace Processor

/-- One step of a call of `DoRspCycles`. -/
inductive Step (H : Helpers) : Processor → Processor → Prop where
  /-- `DoRspCycles` returns. -/
  | done {m : Mips.State} (hhalt : m.arch.Halted) : Step H ⟨.cycling, m⟩ ⟨.outside, m⟩
  /-- `CPU::run`. -/
  | run {m : Mips.State} (hhalt : ¬m.arch.Halted) : Step H ⟨.cycling, m⟩ ⟨.running, m.mark 0#32⟩
  /-- An instruction. -/
  | instr {m : Mips.State} (hm : m.mode H = .continue) :
    Step H ⟨.running, m⟩ ⟨.running, Mips.step H m⟩
  /-- An instruction that ends the run. -/
  | exit {m : Mips.State} (hm : m.mode H ≠ .continue) :
    Step H ⟨.running, m⟩ ⟨.returned (m.mode H), Mips.step H m⟩
  /-- `CPU::run` returns, and so does `DoRspCycles` when there is an interrupt. -/
  | finish {m : Mips.State} {mode : ReturnMode} : Step H ⟨.returned mode, m⟩
      ⟨if mode = .checkFlags ∧ m.arch.cp0.irq &&& 1#32 ≠ 0#32 then .outside else .cycling,
        m.leave mode⟩

/-- There is no choice. -/
theorem Step.unique (H : Helpers) : Relator.RightUnique (Step H) := by
  intro p q r hq hr
  cases hq with
  | done hhalt | run hhalt =>
    cases hr with
    | done hhalt' | run hhalt' => first | rfl | contradiction
  | instr hm | exit hm =>
    cases hr with
    | instr hm' | exit hm' => first | rfl | contradiction
  | finish =>
    cases hr with
    | finish => rfl

/-- Any number of steps. -/
abbrev Reaches (H : Helpers) : Processor → Processor → Prop := Relation.ReflTransGen (Step H)

end Processor

end ParallelRsp
