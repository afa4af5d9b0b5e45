import ParallelRsp.Jit.CodeCache
import ParallelRsp.Jit.Dispatch

/-!
# Calls of the plugin

`DoRspCycles` of `parallel.cpp`, with `CPU::run` and the tables of compiled blocks. Between two
calls the host does what it likes to memory; it does not see `dirty_blocks` and the tables. A
call compares IMEM with what was compiled, and runs until the processor halts or has an
interrupt to report. Each run drops what is stale and enters compiled code, which comes back to
the entry thunk for the next block until it returns a mode.

`Plugin.Step E S` is a step in which the sequences of instructions that `get_jit_block` is asked
for are in `S`.
-/

namespace ParallelRsp

/-- `SP_STATUS_HALT` is set. -/
def Arch.Halted (a : Arch) : Prop := a.cp0.cr CP.spStatus &&& CP.spStatusHalt ≠ 0#32

instance (a : Arch) : Decidable a.Halted := inferInstanceAs (Decidable (_ ≠ _))

/-- `MODE_BREAK` in `CPU::run`. -/
def Arch.breakStatus (a : Arch) : Arch :=
  let a := CP.setCr a CP.spStatus (a.cp0.cr CP.spStatus ||| (CP.spStatusBroke ||| CP.spStatusHalt))
  if a.cp0.cr CP.spStatus &&& CP.spStatusIntrBreak ≠ 0#32 then
    { a with cp0 := { a.cp0 with irq := a.cp0.irq ||| 1#32 } }
  else a

namespace Jit

open Codegen
open CPU (regionWords)

variable {T : Target}

/-- Where the plugin is. -/
inductive Stage (T : Target) where
  /-- Between two calls of `DoRspCycles`. -/
  | outside
  /-- In the loop of `DoRspCycles`. -/
  | cycling
  /-- In front of the entry thunk. -/
  | entry
  /-- In a region's code, in front of some pieces of it. -/
  | inside (R : Region) (code : HostCode T) (ks : List (HostCode T))
  /-- `enter_frame` has returned to `CPU::run`. -/
  | returned

/-- The plugin. -/
structure Plugin (T : Target) where
  /-- Where it is. -/
  stage : Stage T
  /-- The host. -/
  host : Host T
  /-- The tables. -/
  tables : Tables

namespace Host

/-- The host with other registers and memories. -/
def withArch (h : Host T) (a : Arch) : Host T := { h with st := { h.st with toArch := a } }

/-- `DoRspCycles` in front of its loop, when `SP_PC_REG` is `spPc`. -/
def beginCycles (h : Host T) (t : Tables) (spPc : Word) : Host T :=
  let a := (t.cpu h.st.toArch).invalidateImem.state
  { h with st := { h.st with
      toArch := { a with cp0 := { a.cp0 with mfc0Count := fun _ => 0#16 } }
      pc := spPc &&& 0xfff#32 } }

/-- What `enter_frame` has returned. -/
def result (h : Host T) : Word := low (h.regs registerMode)

end Host

/-- The modes with which `CPU::run` returns. -/
def runModes : List ReturnMode := [.break, .dmaRead, .checkFlags]

namespace Plugin

/-- The plugin as it is loaded. -/
def start : Plugin T := ⟨.outside, Host.zero, CPU.initial.tables⟩

/-- The members of `CPU`. -/
def cpu (s : Plugin T) : CPU := s.tables.cpu s.host.st.toArch

/-- One step. -/
inductive Step (E : Env T) (S : ℕ → List Word → Prop) : Plugin T → Plugin T → Prop where
  /-- The host changes anything but the marks. -/
  | host {h h' : Host T} {t : Tables} (hmarks : h'.st.dirtyBlocks = h.st.dirtyBlocks) :
      Step E S ⟨.outside, h, t⟩ ⟨.outside, h', t⟩
  /-- `DoRspCycles`, which does nothing when the processor is halted. -/
  | call {h : Host T} {t : Tables} {spPc : Word} (hhalt : ¬h.st.toArch.Halted) :
    Step E S ⟨.outside, h, t⟩ ⟨.cycling, h.beginCycles t spPc, t⟩
  /-- `DoRspCycles` returns. -/
  | done {h : Host T} {t : Tables} (hhalt : h.st.toArch.Halted) :
      Step E S ⟨.cycling, h, t⟩ ⟨.outside, h, t⟩
  /-- `CPU::run`. -/
  | run {h : Host T} {t : Tables} (hhalt : ¬h.st.toArch.Halted) :
    Step E S ⟨.cycling, h, t⟩ ⟨.entry,
      (h.withArch (t.cpu h.st.toArch).invalidateCode.state).enterFrame,
      (t.cpu h.st.toArch).invalidateCode.tables⟩
  /-- The entry thunk jumps to what `get_jit_block` returns. -/
  | block {h : Host T} {t : Tables} {R : Region} {code : HostCode T} {pc : Word}
      (hpc : pc = low (h.regs registerNextPc))
    (hS : S (CPU.wordPc pc) (regionWords h.st.imem pc))
    (hR : R.func = ((t.cpu h.st.toArch).getJitBlock pc).1) (hc : jitRegion R = some code) :
    Step E S ⟨.entry, h, t⟩ ⟨.inside R code [code], h.enterThunk E,
      ((t.cpu h.st.toArch).getJitBlock pc).2.tables⟩
  /-- One instruction of the code. -/
  | code {R : Region} {code : HostCode T} {ks ks' : List (HostCode T)} {h h' : Host T} {t : Tables}
    (hs : Codegen.Step (lightning E) code (.at ks h) (.at ks' h')) :
    Step E S ⟨.inside R code ks, h, t⟩ ⟨.inside R code ks', h', t⟩
  /-- The code jumps to the entry thunk. -/
  | chain {R : Region} {code : HostCode T} {ks : List (HostCode T)} {h h' : Host T} {t : Tables}
    (hs : Codegen.Step (lightning E) code (.at ks h) (.out .enterThunk h')) :
    Step E S ⟨.inside R code ks, h, t⟩ ⟨.entry, h', t⟩
  /-- The code jumps to the return thunk. -/
  | leave {R : Region} {code : HostCode T} {ks : List (HostCode T)} {h h' : Host T} {t : Tables}
    (hs : Codegen.Step (lightning E) code (.at ks h) (.out .returnThunk h')) :
    Step E S ⟨.inside R code ks, h, t⟩ ⟨.returned, h'.returnThunk, t⟩
  /-- `CPU::run` returns, and so does `DoRspCycles` when there is an interrupt. -/
  | finish {h : Host T} {t : Tables} {m : ReturnMode} (hm : m ∈ runModes)
      (hmode : h.result = BitVec.ofNat 32 (modeCode m)) :
    Step E S ⟨.returned, h, t⟩ ⟨if m = .checkFlags ∧
      h.st.cp0.irq &&& 1#32 ≠ 0#32 then .outside else .cycling,
      h.withArch (if m = .break then h.st.toArch.breakStatus else h.st.toArch), t⟩
  /-- `CPU::run` enters compiled code again. -/
  | again {h : Host T} {t : Tables} (hmode : ∀ m ∈ runModes,
      h.result ≠ BitVec.ofNat 32 (modeCode m)) :
    Step E S ⟨.returned, h, t⟩ ⟨.entry, h.enterFrame, t⟩

/-- Any number of steps. -/
abbrev Reaches (E : Env T) (S : ℕ → List Word → Prop) :
    Plugin T → Plugin T → Prop := Relation.ReflTransGen (Step E S)

end Plugin

end Jit

end ParallelRsp
