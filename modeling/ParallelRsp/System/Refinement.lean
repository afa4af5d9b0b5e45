import ParallelRsp.Jit.Halting
import ParallelRsp.System.Processor
import ParallelRsp.Transition.Simulation

/-!
# A step of the plugin

Calls of `DoRspCycles` with compiled code, the tables that it is found by and the invalidation
of what has become stale, against the processor that executes the words of IMEM one at a time.
IMEM may be written by DMA of the program itself.

Two things are assumed of a call: no two sequences of instructions that are compiled for one
start word have the same hash, and where compiled code is entered, the program in IMEM is
`Regular`: there are no branches and no labels in delay slots. The host is one on which the
functions for unaligned accesses find their arguments.

`Plugin.Shows` says where the plugin is when the processor is in some state. The processor
waits where a region was entered until the region is left (`Plugin.simulates`).
-/

namespace ParallelRsp

/-! ### How an instruction returns -/

/-- `MODE_ENTER` is for the host. -/
theorem CP.mtc0Value_ne_enter (rdp : CP.ProcessRdpList) (rd : Fin 16) (x : Word) (a : Arch) :
    (CP.mtc0Value rdp rd x a).2 ≠ .enter := by
  let P (r : Arch × ReturnMode) : Prop := r.2 ≠ .enter
  have hite {p : Prop} [Decidable p] {r r' : Arch × ReturnMode} (h : P r) (h' : P r') :
      P (if p then r else r') := by
    split
    · exact h
    · exact h'
  have hflags (a : Arch) (p : Prop) [Decidable p] :
      P (a, if p then .checkFlags else .continue) := by
    dsimp only [P]
    split <;> exact ReturnMode.noConfusion
  change P (CP.mtc0Value rdp rd x a)
  rw [CP.mtc0Value]
  repeat' apply hite
  all_goals first | exact ReturnMode.noConfusion | exact hflags _ _

theorem CP.rspMFC0_ne_enter (rt rd : Fin 32) (a : Arch) :
    (CP.rspMFC0 rt rd a).2 ≠ .enter := by
  rw [CP.rspMFC0]
  dsimp only
  repeat' split
  all_goals exact ReturnMode.noConfusion

theorem Mips.exec_ne_enter (H : Helpers) (pc : Word) (i : Instr) (a : Arch) :
    (Mips.exec H pc i a).2 ≠ .enter := by
  cases i with
  | mfc0 rt rd => exact CP.rspMFC0_ne_enter rt rd a
  | mtc0 rt rd => exact CP.mtc0Value_ne_enter _ _ _ _
  | _ => exact ReturnMode.noConfusion

namespace Jit

open Codegen Transition
open CPU (regionWords)

variable {T : Target} {E : Env T} {S : ℕ → List Word → Prop} {R : Region}
  {h h' h₀ : Host T} {m : Mips.State} {t : Tables}

/-- A mode with which an instruction leaves is one with which `CPU::run` returns. -/
theorem mem_runModes {H : Helpers} (hm : m.mode H ≠ .continue) : m.mode H ∈ runModes := by
  have hne : m.mode H ≠ .enter := Mips.exec_ne_enter H _ _ _
  revert hm hne
  cases m.mode H <;> decide

/-! ### What the plugin shows -/

/-- Outside of compiled code the host has what the machine has, but for the marks. -/
structure Host.Shows (h : Host T) (m : Mips.State) : Prop where
  /-- Registers, memories and instructions. -/
  agree : Agree h (m.mark h.st.dirtyBlocks)
  /-- The address. -/
  pc : SamePc h.st.pc m.pc
  /-- The branch in whose delay slot that is. -/
  pending : m.pending.map Mips.Branch.target = h.inherited

namespace Host.Shows

theorem cp0 (hs : h.Shows m) : h.st.cp0 = m.arch.cp0 :=
  (congrArg Arch.cp0 hs.agree.arch :)

theorem halted_iff (hs : h.Shows m) : h.st.toArch.Halted ↔ m.arch.Halted := by
  rw [Arch.Halted, Arch.Halted, hs.cp0]

theorem beginCycles (hs : h.Shows m) (t : Tables) (spPc : Word) :
    (h.beginCycles t spPc).Shows (m.beginCycles spPc) where
  agree :=
    { arch := congrArg (fun a : Arch => { a with
        dirtyBlocks := (t.cpu h.st.toArch).changedBlocks
        cp0 := { a.cp0 with mfc0Count := fun _ => 0#16 } }) hs.agree.arch
      sr := hs.agree.sr
      log := hs.agree.log }
  pc := .refl _
  pending := hs.pending

end Host.Shows

/-- `invalidate_code` changes nothing of the state but the marks. -/
theorem CPU.invalidateCode_state (c : CPU) :
    c.invalidateCode.state = { c.state with dirtyBlocks := 0#32 } := by
  rw [invalidateCode]
  split
  · rename_i h0
    exact Arch.ext rfl rfl rfl rfl h0 rfl rfl
  · rfl

theorem Host.Shows.run (hs : h.Shows m) (t : Tables) :
    Left (h.withArch (t.cpu h.st.toArch).invalidateCode.state).enterFrame (m.mark 0#32) where
  agree :=
    { arch := by
        rw [CPU.invalidateCode_state]
        exact congrArg (fun a : Arch => { a with dirtyBlocks := 0#32 }) hs.agree.arch
      sr := by
        rw [CPU.invalidateCode_state]
        exact hs.agree.sr
      log := hs.agree.log }
  pc := by
    rw [Host.enterFrame, Host.set_regs_self, low_extend]
    exact hs.pc
  pending := hs.pending

/-- `MODE_BREAK` looks neither at the scalar registers nor at the marks. -/
theorem Arch.breakStatus_withSr (a : Arch) (marks : Word) (sr : ℕ → Word) :
    (({ a with dirtyBlocks := marks } : Arch).withSr sr).breakStatus =
      ({ a.breakStatus with dirtyBlocks := marks } : Arch).withSr sr := by
  symm
  exact apply_ite (fun b : Arch => ({ b with dirtyBlocks := marks } : Arch).withSr sr) _ _ _

/-- `CPU::run` returns. -/
theorem Host.Shows.leave (hs : h.Shows m) (mode : ReturnMode) :
    (h.withArch (if mode = .break then h.st.toArch.breakStatus else h.st.toArch)).Shows
      (m.leave mode) := by
  by_cases hb : mode = .break
  · have harch := (congrArg Arch.breakStatus hs.agree.arch).trans
      (Arch.breakStatus_withSr m.arch h.st.dirtyBlocks h.st.sr)
    have hsr : m.arch.breakStatus.sr = m.arch.sr :=
      (congrArg Arch.sr (Arch.breakStatus_withSr m.arch m.arch.dirtyBlocks m.arch.sr) :)
    rw [Mips.State.leave, if_pos hb, if_pos hb]
    refine ⟨⟨?_, fun r hr => ?_, hs.agree.log⟩, hs.pc, hs.pending⟩
    · rw [harch]
      rfl
    · rw [harch]
      exact (hs.agree.sr r hr).trans (congrFun hsr.symm r)
  · rw [Mips.State.leave, if_neg hb, if_neg hb]
    exact hs

/-- The plugin is where the processor is. In compiled code, that is where its region was entered. -/
inductive Plugin.Shows (E : Env T) : Plugin T → Processor → Prop where
  | outside {h : Host T} {t : Tables} {m : Mips.State} (hs : h.Shows m) :
    Shows E ⟨.outside, h, t⟩ ⟨.outside, m⟩
  | cycling {h : Host T} {t : Tables} {m : Mips.State} (hs : h.Shows m) :
    Shows E ⟨.cycling, h, t⟩ ⟨.cycling, m⟩
  | entry {h : Host T} {t : Tables} {m : Mips.State} (hl : Left h m) :
    Shows E ⟨.entry, h, t⟩ ⟨.running, m⟩
  | inside {R : Region} {h₀ h : Host T} {t : Tables} {m : Mips.State} {code : HostCode T}
      {ks : List (HostCode T)} (hm : Enters R h₀ m) (hr : Regular m.arch.imem)
      (hc : jitRegion R = some code)
      (hs : Codegen.Reaches (lightning E) code (.at [code] h₀) (.at ks h)) :
    Shows E ⟨.inside R code ks, h, t⟩ ⟨.running, m⟩
  | returned {h : Host T} {t : Tables} {m : Mips.State} {mode : ReturnMode} (hs : h.Shows m)
      (hmode : mode ∈ runModes) (hresult : h.result = BitVec.ofNat 32 (modeCode mode)) :
    Shows E ⟨.returned, h, t⟩ ⟨.returned mode, m⟩

/-- A step of a call of `DoRspCycles`, when the program is regular where compiled code is
entered. -/
def Plugin.CallStep (E : Env T) (S : ℕ → List Word → Prop) (s s' : Plugin T) : Prop :=
  Step E S s s' ∧ s.stage ≠ .outside ∧ (s.stage = .entry → Regular s.host.st.imem)

/-! ### A step -/

/-- As long as control goes on, the processor executes instructions. -/
theorem Continues.reaches {H : Helpers} {n : ℕ} (hn : Continues H n m) :
    Processor.Reaches H ⟨.running, m⟩ ⟨.running, Mips.steps H n m⟩ :=
  reaches_iterate (G := fun m => m.mode H = .continue) (Processor.mk .running)
    (fun _ hm => .instr hm) hn

/-- Compiled code that leaves has executed what the machine executes. -/
theorem Enters.leaves [E.Stdcall] {code : HostCode T} {ks : List (HostCode T)} {x : Exit}
    (hm : Enters R h₀ m) (hr : Regular m.arch.imem) (hc : jitRegion R = some code)
    (hs : Codegen.Reaches (lightning E) code (.at [code] h₀) (.at ks h))
    (hx : Codegen.Step (lightning E) code (.at ks h) (.out x h')) :
    ∃ n, Continues E.toHelpers n m ∧ LeavesBy E x h' (Mips.steps E.toHelpers n m) := by
  obtain ⟨fuel, hrun⟩ := run_of_reaches hs hx
  exact hm.steps hr hc hrun

/-- The return thunk saves the program counter. -/
theorem Left.returned (hl : Left h m) : h.returnThunk.Shows m where
  agree :=
    { arch := congrArg (fun a : Arch => { a with dirtyBlocks := h.st.dirtyBlocks }) hl.agree.arch
      sr := hl.agree.sr
      log := hl.agree.log }
  pc := hl.pc
  pending := hl.pending

/-- The region that `get_jit_block` finds is the one at the program counter. -/
theorem Region.at_of_func {pc : Word} (hpc : pc = low (h.regs registerNextPc))
    (hR : R.func = ⟨CPU.wordPc pc, regionWords h.st.imem pc⟩) : R.At h := by
  refine ⟨?_, fun k hk => Region.word_of_func hR hk⟩
  rw [← hpc]
  exact congrArg Func.pcWord hR

namespace Plugin

/-- **One step of the plugin** is any number of steps of the processor. -/
theorem simulates [E.Stdcall] (hS : Tables.NoCollision S) :
    Simulates (CallStep E S) (Processor.Step E.toHelpers) fun s p => s.Inv S ∧ s.Shows E p := by
  rintro s s' p ⟨hi, hshow⟩ ⟨hstep, hin, hreg⟩
  suffices h : ∃ p', Processor.Reaches E.toHelpers p p' ∧ s'.Shows E p' by
    obtain ⟨p', hp, hs⟩ := h
    exact ⟨p', hp, hstep.inv hS hi, hs⟩
  cases hstep with
  | host | call => exact absurd rfl hin
  | done hhalt =>
    cases hshow with
    | cycling hs => exact ⟨_, .single (.done (hs.halted_iff.1 hhalt)), .outside hs⟩
  | @run h t hhalt =>
    cases hshow with
    | cycling hs => exact ⟨_, .single (.run (hs.halted_iff.not.1 hhalt)), .entry (hs.run t)⟩
  | @block h t R code pc hpc hpcS hR hc =>
    cases hshow with
    | @entry _ _ m hl =>
      obtain ⟨hco, hmarked, h0⟩ := hi
      have hfunc := hR.trans
        (CPU.getJitBlock_current (c := t.cpu h.st.toArch) hS hco hmarked h0 hpcS)
      have hr : Regular m.arch.imem := hl.agree.imem ▸ hreg rfl
      exact ⟨_, .refl, .inside (hl.enters (Region.at_of_func hpc hfunc)) hr hc .refl⟩
  | code hs =>
    cases hshow with
    | inside hm hr hc hrun => exact ⟨_, .refl, .inside hm hr hc (hrun.tail hs)⟩
  | chain hs =>
    cases hshow with
    | inside hm hr hc hrun =>
      obtain ⟨n, hn, hl, hmode⟩ := hm.leaves hr hc hrun hs
      exact ⟨_, hn.reaches.tail (.instr hmode), .entry hl⟩
  | leave hs =>
    cases hshow with
    | inside hm hr hc hrun =>
      obtain ⟨n, hn, hl, hmode, -, hregs⟩ := hm.leaves hr hc hrun hs
      refine ⟨_, hn.reaches.tail (.exit hmode), .returned hl.returned (mem_runModes hmode) ?_⟩
      exact (congrArg low hregs).trans (BitVec.setWidth_ofNat_of_le T.wide _)
  | @finish h t mode hmem hresult =>
    cases hshow with
    | @returned _ _ m mode' hs hmode hresult' =>
      obtain rfl := result_injective (hresult.symm.trans hresult')
      refine ⟨_, .single .finish, ?_⟩
      rw [hs.cp0]
      by_cases hirq : mode = .checkFlags ∧ m.arch.cp0.irq &&& 1#32 ≠ 0#32
      · rw [if_pos hirq, if_pos hirq]
        exact .outside (hs.leave mode)
      · rw [if_neg hirq, if_neg hirq]
        exact .cycling (hs.leave mode)
  | again hmode =>
    cases hshow with
    | returned hs hmem hresult => exact absurd hresult (hmode _ hmem)

end Plugin

end Jit

end ParallelRsp
