import ParallelRsp.Codegen.Steps
import ParallelRsp.Jit.Region

/-!
# From region to region

`CPU::run`, `CPU::enter` and the two thunks of `init_jit_thunks`. `enter_frame` loads the
program counter and falls into the entry thunk, which looks up the block of
`JIT_REGISTER_NEXT_PC`, clears the branch conditions and jumps there. Blocks leave through the
entry thunk, or through the return thunk, which saves the program counter and returns.

A step of `System` is a step of the host outside of compiled code, of a thunk, or of the code
of a region. What `get_jit_block` finds is the code of a region at the word of the program
counter; whichever words it was compiled from, the runs here are possible.
-/

namespace ParallelRsp.Jit

open Codegen

variable {T : Target}

namespace Host

/-- `enter_frame`, up to the entry thunk. -/
def enterFrame (h : Host T) : Host T := h.set registerNextPc (extend T true h.st.pc)

/-- The entry thunk: the call of `rsp_enter`, and the branch conditions cleared. -/
def enterThunk (h : Host T) (E : Env T) : Host T :=
  let h := (h.lose E).set registerMode 0#_
  { h with
    frame := Function.update h.frame illegalCondSlot 0#_
    st := { h.st with sr := Function.update h.st.sr condBranchTaken 0#32 } }

/-- The return thunk. -/
def returnThunk (h : Host T) : Host T :=
  { h with st := { h.st with pc := low (h.regs registerNextPc) } }

/-- `rsp_clear_registers`. -/
def clearRegisters (h : Host T) : Host T :=
  { h with st := { h.st with sr := fun r => if r < 32 then 0#32 else h.st.sr r, cp2 := CP2.zero } }

end Host

/-- Where the processor is. -/
inductive Place (T : Target) where
  /-- Outside of compiled code. -/
  | outside
  /-- In front of the entry thunk. -/
  | entry
  /-- In a region's code, in front of some pieces of it. -/
  | inside (code : HostCode T) (ks : List (HostCode T))

/-- The processor. -/
structure System (T : Target) where
  /-- Where it is. -/
  place : Place T
  /-- The host. -/
  host : Host T

namespace System

/-- The start of every run. -/
def start : System T := ⟨.outside, Host.zero⟩

/-- One step. -/
inductive Step (E : Env T) : System T → System T → Prop where
  /-- The host changes anything but the scalar registers: memories, control
  registers, the program counter. -/
  | host {h h' : Host T} (hsr : h'.st.sr = h.st.sr) : Step E ⟨.outside, h⟩ ⟨.outside, h'⟩
  /-- `rsp_clear_registers`. -/
  | clear {h : Host T} : Step E ⟨.outside, h⟩ ⟨.outside, h.clearRegisters⟩
  /-- `CPU::enter`. -/
  | enter {h : Host T} : Step E ⟨.outside, h⟩ ⟨.entry, h.enterFrame⟩
  /-- The entry thunk jumps into the code of a region. -/
  | block {h : Host T} {R : Region} {code : HostCode T}
    (hpc : R.pcWord = (low (h.regs registerNextPc) &&& 0xfff#32).toNat / 4)
    (hc : jitRegion R = some code) :
    Step E ⟨.entry, h⟩ ⟨.inside code [code], h.enterThunk E⟩
  /-- One instruction of the code. -/
  | code {code : HostCode T} {ks ks' : List (HostCode T)} {h h' : Host T}
    (hs : Codegen.Step (lightning E) code (.at ks h) (.at ks' h')) :
    Step E ⟨.inside code ks, h⟩ ⟨.inside code ks', h'⟩
  /-- The code jumps to the entry thunk. -/
  | chain {code : HostCode T} {ks : List (HostCode T)} {h h' : Host T}
    (hs : Codegen.Step (lightning E) code (.at ks h) (.out .enterThunk h')) :
    Step E ⟨.inside code ks, h⟩ ⟨.entry, h'⟩
  /-- The code jumps to the return thunk. -/
  | leave {code : HostCode T} {ks : List (HostCode T)} {h h' : Host T}
    (hs : Codegen.Step (lightning E) code (.at ks h) (.out .returnThunk h')) :
    Step E ⟨.inside code ks, h⟩ ⟨.outside, h'.returnThunk⟩

/-- Any number of steps. -/
abbrev Reaches (E : Env T) : System T → System T → Prop := Relation.ReflTransGen (Step E)

end System

end ParallelRsp.Jit
