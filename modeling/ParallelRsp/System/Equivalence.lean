import ParallelRsp.System.Refinement

/-!
# The plugin is the processor

Over whole calls of `DoRspCycles`, whatever has been compiled and replaced before: what the
plugin does the processor does (`Plugin.refines_processor`), what the processor does the plugin does
(`Plugin.follows_processor`), and the plugin never gets stuck on the way (`Plugin.progress`).

The second direction needs compiled code to be left where the machine leaves. A region that the
machine leaves after `n` steps is left, and each region on the way takes at least one of them
(`Plugin.callReaches_returned`).
-/

namespace ParallelRsp.Jit

open Codegen Transition
open CPU (regionWords regionHash)

variable {T : Target} {E : Env T} {S : ℕ → List Word → Prop} {R : Region}
  {h h' : Host T} {m : Mips.State} {t : Tables} {n : ℕ}

/-- The regions of a program are among those without collisions. -/
def Compiles (S : ℕ → List Word → Prop) (imem : ℕ → Word) : Prop :=
  ∀ pc, S (CPU.wordPc pc) (regionWords imem pc)

/-- A step of the processor, when the program that it executes is regular and compiled. -/
def Processor.ProgramStep (H : Helpers) (S : ℕ → List Word → Prop) (p p' : Processor) : Prop :=
  Processor.Step H p p' ∧ (p.place = .running →
    Regular p.machine.arch.imem ∧ Compiles S p.machine.arch.imem)

/-! ### Compiled code is left -/

/-- The machine leaves with the step after `n`. -/
structure LeavesAfter (H : Helpers) (n : ℕ) (m : Mips.State) : Prop where
  /-- Control goes on until there. -/
  goesOn : Continues H n m
  /-- And no further. -/
  leaves : (Mips.steps H n m).mode H ≠ .continue

/-- Where the machine leaves, the region that it is in is left. -/
theorem Enters.left [E.Stdcall] {code : HostCode T} (hm : Enters R h m)
    (hr : Regular m.arch.imem) (hc : jitRegion R = some code) (hn : LeavesAfter E.toHelpers n m) :
    ∃ x h', run (lightning E) code (n + 1) code h = .left x h' := by
  have hpost := hm.post hc (hr.noBranchInSlot hm.code) R.served (E := E) (n + 1)
  cases hrun : run (lightning E) code (n + 1) code h with
  | left x h' => exact ⟨x, h', rfl⟩
  | running h' =>
    rw [hrun] at hpost
    obtain ⟨k, hk, hs, -⟩ := hpost
    refine absurd (Or.inl ?_) (hs.stays n hk)
    rw [hm.follows_eq_steps hr hs (Nat.le_of_succ_le hk)]
    exact hn.leaves
  | stuck =>
    rw [hrun] at hpost
    exact hpost.elim

/-- The machine does not go on behind the step with which it leaves. -/
theorem LeavesAfter.lt {H : Helpers} {j : ℕ} (hn : LeavesAfter H n m) (hj : Continues H j m)
    (hmode : (Mips.steps H j m).mode H = .continue) : j < n := by
  by_contra hle
  rcases Nat.eq_or_lt_of_le (Nat.le_of_not_lt hle) with rfl | hlt
  · exact hn.leaves hmode
  · exact hn.leaves (hj n hlt)

/-- The rest of the way. -/
theorem LeavesAfter.after {H : Helpers} {j : ℕ} (hn : LeavesAfter H n m) (hj : j ≤ n) :
    LeavesAfter H (n - j) (Mips.steps H j m) where
  goesOn k hk := by
    rw [← Mips.steps_add]
    exact hn.goesOn (j + k) (by omega)
  leaves := by
    rw [← Mips.steps_add, Nat.add_sub_cancel' hj]
    exact hn.leaves

/-- What the region at the program counter is compiled from. -/
def Host.func (h : Host T) : Func :=
  ⟨CPU.wordPc (low (h.regs registerNextPc)), regionWords h.st.imem (low (h.regs registerNextPc))⟩

theorem Left.func_eq (hl : Left h m) :
    h.func = ⟨CPU.wordPc m.pc, regionWords m.arch.imem m.pc⟩ := by
  have hpc : CPU.wordPc (low (h.regs registerNextPc)) = CPU.wordPc m.pc :=
    congrArg (fun x : Word => x.toNat / 4) hl.pc
  rw [Host.func, CPU.regionWords_congr _ hpc, hpc, hl.agree.imem]

namespace Plugin

/-- A step that does not enter compiled code. -/
theorem Step.callStep {s s' : Plugin T} (hs : Step E S s s')
    (hstage : s.stage ≠ .outside ∧ s.stage ≠ .entry) : CallStep E S s s' :=
  ⟨hs, hstage.1, fun h => absurd h hstage.2⟩

theorem Step.of_cycling {s : Plugin T} (hs : Step E S ⟨.cycling, h, t⟩ s) :
    CallStep E S ⟨.cycling, h, t⟩ s := hs.callStep (by constructor <;> rintro ⟨⟩)

theorem Step.of_returned {s : Plugin T} (hs : Step E S ⟨.returned, h, t⟩ s) :
    CallStep E S ⟨.returned, h, t⟩ s := hs.callStep (by constructor <;> rintro ⟨⟩)

/-- Any number of steps of a call. -/
abbrev CallReaches (E : Env T) (S : ℕ → List Word → Prop) : Plugin T → Plugin T → Prop :=
  Relation.ReflTransGen (CallStep E S)

theorem callReaches_reaches {s s' : Plugin T} (hs : CallReaches E S s s') : Reaches E S s s' :=
  hs.lift id fun _ _ hstep => hstep.1

theorem callReaches_inv [E.SparesState] (hS : Tables.NoCollision S) {s s' : Plugin T}
    (hs : CallReaches E S s s') (hi : s.Inv S) : s'.Inv S :=
  (callReaches_reaches hs).inv hS hi

/-- A step of the code of a region is one of the call. -/
theorem callStep_placed {code : HostCode T} {ks : List (HostCode T)}
    {c : Config (Op T) (Cond T) Label Exit (Host T)}
    (hs : Codegen.Step (lightning E) code (.at ks h) c) :
    CallStep E S ⟨.inside R code ks, h, t⟩ (placed R code t c) := by
  refine Step.callStep ?_ (by constructor <;> rintro ⟨⟩)
  cases c with
  | «at» ks' h' => exact .code hs
  | out x h' =>
    cases x with
    | enterThunk => exact .chain hs
    | returnThunk => exact .leave hs

/-- A run of it is one as well. -/
theorem callReaches_placed {code : HostCode T} {c c' : Config (Op T) (Cond T) Label Exit (Host T)}
    (hs : Codegen.Reaches (lightning E) code c c') :
    CallReaches E S (placed R code t c) (placed R code t c') := by
  refine hs.lift (placed R code t) fun c c' hstep => ?_
  cases c with
  | «at» ks h => exact callStep_placed hstep
  | out x h => cases hstep

/-- The entry thunk enters the region at the program counter. -/
theorem callReaches_block (hS : Tables.NoCollision S)
    (hi : (⟨.entry, h, t⟩ : Plugin T).Inv S) (hr : Regular h.st.imem)
    (hcomp : Compiles S h.st.imem) :
    ∃ R code t', R.func = h.func ∧ jitRegion R = some code ∧
      CallReaches E S ⟨.entry, h, t⟩ ⟨.inside R code [code], h.enterThunk E, t'⟩ := by
  obtain ⟨hco, hmarked, h0⟩ := hi
  let pc := low (h.regs registerNextPc)
  let R := regionAt h.st.imem pc
  obtain ⟨code, hc⟩ := jitRegion_isSome (T := T) R
  have hcurrent := CPU.getJitBlock_current (c := t.cpu h.st.toArch) hS hco hmarked h0 (hcomp pc)
  exact ⟨R, code, _, rfl, hc,
    .single ⟨.block rfl (hcomp pc) hcurrent.symm hc, by rintro ⟨⟩, fun _ => hr⟩⟩

/-- **Compiled code leaves where the machine does**: the region at the program counter is entered,
and then others. -/
theorem callReaches_returned [E.Stdcall] (hS : Tables.NoCollision S)
    (hn : LeavesAfter E.toHelpers n m) (hl : Left h m)
    (hi : (⟨.entry, h, t⟩ : Plugin T).Inv S) (hr : Regular m.arch.imem)
    (hcomp : Compiles S m.arch.imem) :
    ∃ R code h₀ t₀ h' t', R.func = ⟨CPU.wordPc m.pc, regionWords m.arch.imem m.pc⟩ ∧
      CallReaches E S ⟨.entry, h, t⟩ ⟨.inside R code [code], h₀, t₀⟩ ∧
      CallReaches E S ⟨.inside R code [code], h₀, t₀⟩ ⟨.returned, h', t'⟩ ∧
      h'.Shows (Mips.steps E.toHelpers (n + 1) m) ∧
      h'.result = BitVec.ofNat 32 (modeCode ((Mips.steps E.toHelpers n m).mode E.toHelpers)) := by
  induction n using Nat.strong_induction_on generalizing m h t with
  | _ n ih =>
    have himem := hl.agree.imem
    obtain ⟨R, code, t₁, hR, hc, hblock⟩ :=
      callReaches_block (E := E) hS hi (himem ▸ hr) (himem ▸ hcomp)
    have hfunc := hR.trans hl.func_eq
    have hm := hl.enters (E := E) (Region.at_of_func rfl hR)
    obtain ⟨x, h₁, hrun⟩ := hm.left hr hc hn
    have hreach := callReaches_placed (S := S) (R := R) (t := t₁) (run_reaches hrun)
    obtain ⟨j, hj, hl₁, hx⟩ := hm.steps hr hc hrun
    rw [← Mips.steps_succ] at hl₁
    cases x with
    | enterThunk =>
      -- one region less is left
      have hlt := hn.lt hj hx
      have himem₁ := (hj.succ hx).imem
      have hi₁ := callReaches_inv hS (hblock.trans hreach) hi
      obtain ⟨_, _, _, _, h', t', -, hblock', hreach', hshow, hresult⟩ :=
        ih (n - (j + 1)) (by omega) (hn.after hlt) hl₁ hi₁ (himem₁ ▸ hr) (himem₁ ▸ hcomp)
      rw [← Mips.steps_add] at hshow hresult
      refine ⟨R, code, _, t₁, h', t', hfunc, hblock, hreach.trans (hblock'.trans hreach'), ?_, ?_⟩
      · rwa [show j + 1 + (n - (j + 1) + 1) = n + 1 by omega] at hshow
      · rwa [Nat.add_sub_cancel' hlt] at hresult
    | returnThunk =>
      obtain rfl := hj.unique hx.1 hn.goesOn hn.leaves
      exact ⟨R, code, _, t₁, _, t₁, hfunc, hblock, hreach, hl₁.returned,
        (congrArg low hx.2.2).trans (BitVec.setWidth_ofNat_of_le T.wide _)⟩

end Plugin

/-! ### The processor is ahead of the plugin -/

/-- The plugin is where the processor is, or in front of the instructions that the processor has
executed since it runs. -/
inductive Ahead (H : Helpers) : Processor → Plugin T → Prop where
  | outside {h : Host T} {t : Tables} {m : Mips.State} (hs : h.Shows m) :
    Ahead H ⟨.outside, m⟩ ⟨.outside, h, t⟩
  | cycling {h : Host T} {t : Tables} {m : Mips.State} (hs : h.Shows m) :
    Ahead H ⟨.cycling, m⟩ ⟨.cycling, h, t⟩
  | running {h : Host T} {t : Tables} {m : Mips.State} {n : ℕ} (hl : Left h m)
      (hn : Continues H n m) :
    Ahead H ⟨.running, Mips.steps H n m⟩ ⟨.entry, h, t⟩
  | returned {h : Host T} {t : Tables} {m : Mips.State} {mode : ReturnMode} (hs : h.Shows m)
      (hmode : mode ∈ runModes) (hresult : h.result = BitVec.ofNat 32 (modeCode mode)) :
    Ahead H ⟨.returned mode, m⟩ ⟨.returned, h, t⟩

theorem Ahead.exists_outside {H : Helpers} {s : Plugin T} (ha : Ahead H ⟨.outside, m⟩ s) :
    ∃ h t, s = ⟨.outside, h, t⟩ ∧ h.Shows m := by
  cases ha with
  | outside hs => exact ⟨_, _, rfl, hs⟩

/-- While the processor executes instructions, the plugin is in front of some of them. -/
theorem Ahead.imem {H : Helpers} {p : Processor} {s : Plugin T} (ha : Ahead H p s)
    (hp : p.place = .running) : s.stage = .entry ∧ s.host.st.imem = p.machine.arch.imem := by
  cases ha with
  | running hl hn => exact ⟨rfl, hl.agree.imem.trans hn.imem.symm⟩
  | outside | cycling | returned => cases hp

/-- **One step of the processor**: the plugin stays where it is as long as control goes on, and
catches up where it leaves. -/
theorem Ahead.simulates [E.Stdcall] (hS : Tables.NoCollision S) :
    Simulates (Processor.ProgramStep E.toHelpers S) (Plugin.CallStep E S)
      fun p s => s.Inv S ∧ Ahead E.toHelpers p s := by
  rintro p p' s ⟨hi, ha⟩ ⟨hstep, hprogram⟩
  suffices h : ∃ s', Plugin.CallReaches E S s s' ∧ Ahead E.toHelpers p' s' by
    obtain ⟨s', hs, ha'⟩ := h
    exact ⟨s', hs, Plugin.callReaches_inv hS hs hi, ha'⟩
  cases hstep with
  | done hhalt =>
    cases ha with
    | cycling hs =>
      exact ⟨_, .single (Plugin.Step.done (hs.halted_iff.2 hhalt)).of_cycling, .outside hs⟩
  | run hhalt =>
    cases ha with
    | @cycling h t m hs =>
      exact ⟨_, .single (Plugin.Step.run (hs.halted_iff.not.2 hhalt)).of_cycling,
        .running (n := 0) (hs.run t) fun k hk => absurd hk k.not_lt_zero⟩
  | instr hm =>
    cases ha with
    | @running h t m n hl hn =>
      rw [← Mips.steps_succ]
      exact ⟨_, .refl, .running hl (hn.succ hm)⟩
  | exit hm =>
    cases ha with
    | @running h t m n hl hn =>
      obtain ⟨hr, hcomp⟩ := hprogram rfl
      obtain ⟨_, _, _, _, h', t', -, hblock, hreach, hshow, hresult⟩ :=
        Plugin.callReaches_returned hS ⟨hn, hm⟩ hl hi (hn.imem ▸ hr) (hn.imem ▸ hcomp)
      rw [← Mips.steps_succ]
      exact ⟨_, hblock.trans hreach, .returned hshow (mem_runModes hm) hresult⟩
  | @finish m mode =>
    cases ha with
    | @returned h t _ _ hs hmode hresult =>
      refine ⟨_, .single (Plugin.Step.finish hmode hresult).of_returned, ?_⟩
      rw [hs.cp0]
      by_cases hirq : mode = .checkFlags ∧ m.arch.cp0.irq &&& 1#32 ≠ 0#32
      · rw [if_pos hirq, if_pos hirq]
        exact .outside (hs.leave mode)
      · rw [if_neg hirq, if_neg hirq]
        exact .cycling (hs.leave mode)

namespace Plugin

/-- Where a call starts, the tables are as they should be. -/
theorem inv_call [E.SparesState] (hS : Tables.NoCollision S)
    (hr : Reaches E S start ⟨.outside, h, t⟩) (hhalt : ¬h.st.toArch.Halted) (spPc : Word) :
    (⟨.cycling, h.beginCycles t spPc, t⟩ : Plugin T).Inv S :=
  (Step.call hhalt : Step E S _ _).inv hS (hr.inv hS inv_start)

end Plugin

/-- The processor executes the instructions of a run. -/
theorem LeavesAfter.programReaches {H : Helpers} (hn : LeavesAfter H n m)
    (hr : Regular m.arch.imem) (hcomp : Compiles S m.arch.imem) :
    Relation.ReflTransGen (Processor.ProgramStep H S) ⟨.running, m⟩
      ⟨.returned ((Mips.steps H n m).mode H), Mips.steps H (n + 1) m⟩ := by
  have hprogram {k : ℕ} (hk : Continues H k m) : Regular (Mips.steps H k m).arch.imem ∧
      Compiles S (Mips.steps H k m).arch.imem := by
    rw [hk.imem]
    exact ⟨hr, hcomp⟩
  have hgo : Relation.ReflTransGen (Processor.ProgramStep H S) ⟨.running, m⟩
      ⟨.running, Mips.steps H n m⟩ :=
    reaches_iterate
      (G := fun m => m.mode H = .continue ∧ Regular m.arch.imem ∧ Compiles S m.arch.imem)
      (Processor.mk .running) (fun _ hm => ⟨.instr hm.1, fun _ => hm.2⟩)
      fun k hk => ⟨hn.goesOn k hk, hprogram fun j hj => hn.goesOn j (hj.trans hk)⟩
  rw [Mips.steps_succ]
  exact hgo.tail ⟨.exit hn.leaves, fun _ => hprogram hn.goesOn⟩

namespace Plugin

end Plugin

/-! ### Programs in IMEM -/

/-- The words of a region at a start word, of some contents of IMEM. -/
def RegionOf (imems : List (ℕ → Word)) (w : ℕ) (words : List Word) : Prop :=
  ∃ imem ∈ imems, ∃ pc, CPU.wordPc pc = w ∧ words = regionWords imem pc

variable {imems : List (ℕ → Word)}

theorem compiles_regionOf {imem : ℕ → Word} (hi : imem ∈ imems) :
    Compiles (RegionOf imems) imem := fun pc => ⟨imem, hi, pc, rfl, rfl⟩

theorem CPU.wordPc_lt (pc : Word) : wordPc pc < imemWords := by
  have := Bits.toNat_and_fff pc
  rw [wordPc, imemWords]
  omega

theorem CPU.wordPc_ofNat (pc : Word) :
    wordPc (BitVec.ofNat 32 (4 * wordPc pc)) = wordPc pc := by
  have hlt := wordPc_lt pc
  rw [wordPc, Bits.toNat_and_fff, BitVec.toNat_ofNat]
  simp only [imemWords] at hlt
  omega

theorem noCollision_regionOf (h : ∀ imem ∈ imems, ∀ imem' ∈ imems, ∀ pc,
      regionHash imem pc = regionHash imem' pc → regionWords imem pc = regionWords imem' pc) :
    Tables.NoCollision (RegionOf imems) := by
  rintro pc imem imem' ⟨imem₁, h₁, pc₁, hpc₁, hw₁⟩ ⟨imem₂, h₂, pc₂, hpc₂, hw₂⟩ hhash
  rw [CPU.regionWords_congr imem₁ hpc₁] at hw₁
  rw [CPU.regionWords_congr imem₂ hpc₂] at hw₂
  rw [CPU.regionHash_eq, CPU.regionHash_eq, hw₁, hw₂, ← CPU.regionHash_eq,
    ← CPU.regionHash_eq] at hhash
  rw [hw₁, hw₂]
  exact h imem₁ h₁ imem₂ h₂ pc hhash

theorem update_imemOf {words : List Word} {i : ℕ} (hi : i < words.length) (x : Word) :
    Function.update (imemOf words) i x = imemOf (words.set i x) := by
  funext j
  rw [Function.update_apply, imemOf, imemOf, List.getD_eq_getElem?_getD, List.getD_eq_getElem?_getD,
    List.getElem?_set]
  by_cases hj : j = i
  · rw [if_pos hj, if_pos hj.symm, if_pos hi]
    rfl
  · rw [if_neg hj, if_neg (Ne.symm hj)]

/-- `J 16; ADDI $1, $0, 0x1018; NOP; NOP; MTC0 $1, DMA_CACHE; MTC0 $0, DMA_READ_LENGTH`, then some
instruction, then `BREAK`. The region at 0 ends behind the delay slot of the jump. -/
def overlayWords (x : Word) : List Word :=
  [0x08000004#32, 0x20011018#32, 0x00000000#32, 0x00000000#32,
    0x40810000#32, 0x40801000#32, x, 0x0000000d#32]

/-- IMEM when the host has loaded it, with `ADDI $2, $0, 1`. -/
def overlayOld : ℕ → Word := imemOf (overlayWords 0x20020001#32)

/-- IMEM when it has loaded `ADDI $2, $0, 2; BREAK` from RDRAM. -/
def overlayNew : ℕ → Word := imemOf (overlayWords 0x20020002#32)

/-- Its regions. -/
abbrev OverlayRegion : ℕ → List Word → Prop := RegionOf [overlayOld, overlayNew]

theorem overlayOld_regular : Regular overlayOld :=
  regular_imemOf (by decide) (by decide) (by decide)

theorem overlayNew_regular : Regular overlayNew :=
  regular_imemOf (by decide) (by decide) (by decide)

theorem compiles_overlayOld : Compiles OverlayRegion overlayOld :=
  compiles_regionOf List.mem_cons_self

theorem compiles_overlayNew : Compiles OverlayRegion overlayNew :=
  compiles_regionOf (List.mem_cons_of_mem _ List.mem_cons_self)

/-- Regions behind the word that is replaced are the same, and of the others the hashes differ. -/
theorem overlay_regionWords (pc : Word)
    (hhash : regionHash overlayOld pc = regionHash overlayNew pc) :
    regionWords overlayOld pc = regionWords overlayNew pc := by
  by_cases h7 : 7 ≤ CPU.wordPc pc
  · refine regionWords_of_region fun i hi _ => ?_
    by_cases h8 : 8 ≤ i
    · exact (imemOf_zero _ h8).trans (imemOf_zero _ h8).symm
    · obtain rfl : i = 7 := by omega
      rfl
  · have hall : ∀ w < 7, regionHash overlayOld (BitVec.ofNat 32 (4 * w)) =
        regionHash overlayNew (BitVec.ofNat 32 (4 * w)) →
          regionWords overlayOld (BitVec.ofNat 32 (4 * w)) =
            regionWords overlayNew (BitVec.ofNat 32 (4 * w)) := by decide
    have hpc := CPU.wordPc_ofNat pc
    rw [CPU.regionHash_eq, CPU.regionHash_eq] at hhash
    rw [← CPU.regionWords_congr overlayOld hpc, ← CPU.regionWords_congr overlayNew hpc] at hhash ⊢
    refine hall _ (not_le.1 h7) ?_
    rwa [CPU.regionHash_eq, CPU.regionHash_eq, hpc]

theorem noCollision_overlay : Tables.NoCollision OverlayRegion := by
  refine noCollision_regionOf fun imem h imem' h' pc hhash => ?_
  rcases List.mem_pair.1 h with rfl | rfl <;> rcases List.mem_pair.1 h' with rfl | rfl
  · rfl
  · exact overlay_regionWords pc hhash
  · exact (overlay_regionWords pc hhash.symm).symm
  · rfl

/-- The host that has loaded the program, with some marks on the code blocks. -/
def overlayHost (marks : Word) : Host smallTarget :=
  { (Host.zero : Host smallTarget) with
    st := { (Host.zero : Host smallTarget).st with
      imem := overlayOld
      rdram := imemOf [0x20020002#32, 0x0000000d#32]
      dirtyBlocks := marks } }

/-- The machine there. -/
def overlayMachine : Mips.State := (overlayHost 0#32).machine 0#32

/-- The processor in front of the program. -/
def overlayFirst : Mips.State := (overlayMachine.beginCycles 0#32).mark 0#32

/-- And behind the DMA. -/
def overlaySecond : Mips.State :=
  ((Mips.steps smallEnv.toHelpers 4 overlayFirst).leave .checkFlags).mark 0#32

/-- Where it has executed `BREAK`. -/
def overlayEnd : Mips.State := (Mips.steps smallEnv.toHelpers 2 overlaySecond).leave .break

theorem overlayHost_shows (marks : Word) : (overlayHost marks).Shows overlayMachine :=
  ⟨⟨rfl, fun _ _ => rfl, rfl⟩, .refl _, rfl⟩

theorem overlayHost_running (marks : Word) : ¬(overlayHost marks).st.toArch.Halted := by
  have h : ¬overlayMachine.arch.Halted := by decide
  exact h

theorem overlaySecond_imem : overlaySecond.arch.imem = overlayNew := by
  have hdma : overlaySecond.arch.imem =
      Function.update (Function.update overlayOld 6 0x20020002#32) 7 0x0000000d#32 := rfl
  rw [hdma, overlayOld, update_imemOf (by decide), update_imemOf (by decide)]
  rfl

theorem overlayFirst_leaves : LeavesAfter smallEnv.toHelpers 3 overlayFirst := by
  have hgo : ∀ k < 3, (Mips.steps smallEnv.toHelpers k overlayFirst).mode smallEnv.toHelpers =
      .continue := by decide
  exact ⟨hgo, by decide⟩

theorem overlaySecond_leaves : LeavesAfter smallEnv.toHelpers 1 overlaySecond := by
  have hgo : ∀ k < 1, (Mips.steps smallEnv.toHelpers k overlaySecond).mode smallEnv.toHelpers =
      .continue := by decide
  exact ⟨hgo, by decide⟩

/-- The DMA ends the first run. -/
theorem overlayFirst_mode : (Mips.steps smallEnv.toHelpers 3 overlayFirst).mode
    smallEnv.toHelpers = .checkFlags := by decide

/-- The processor goes from the first run to the second. -/
theorem overlay_again : Relation.ReflTransGen
    (Processor.ProgramStep smallEnv.toHelpers OverlayRegion)
    ⟨.returned .checkFlags, Mips.steps smallEnv.toHelpers 4 overlayFirst⟩
    ⟨.running, overlaySecond⟩ := by
  have hfinish : Processor.Step smallEnv.toHelpers
      ⟨.returned .checkFlags, Mips.steps smallEnv.toHelpers 4 overlayFirst⟩
      ⟨.cycling, (Mips.steps smallEnv.toHelpers 4 overlayFirst).leave .checkFlags⟩ := .finish
  have hagain : Processor.Step smallEnv.toHelpers
      ⟨.cycling, (Mips.steps smallEnv.toHelpers 4 overlayFirst).leave .checkFlags⟩
      ⟨.running, overlaySecond⟩ := .run (by decide)
  exact (Relation.ReflTransGen.single ⟨hfinish, by rintro ⟨⟩⟩).tail ⟨hagain, by rintro ⟨⟩⟩

theorem overlay_returns : Relation.ReflTransGen
    (Processor.ProgramStep smallEnv.toHelpers OverlayRegion)
    ⟨.running, overlaySecond⟩ ⟨.outside, overlayEnd⟩ := by
  have hreturn := overlaySecond_leaves.programReaches (overlaySecond_imem ▸ overlayNew_regular)
    (overlaySecond_imem ▸ compiles_overlayNew)
  have hmode : (Mips.steps smallEnv.toHelpers 1 overlaySecond).mode smallEnv.toHelpers =
      .break := by decide
  rw [hmode] at hreturn
  have hfinish : Processor.Step smallEnv.toHelpers
      ⟨.returned .break, Mips.steps smallEnv.toHelpers 2 overlaySecond⟩ ⟨.cycling, overlayEnd⟩ :=
    .finish
  exact (hreturn.tail ⟨hfinish, by rintro ⟨⟩⟩).tail
    ⟨.done (Arch.halted_breakStatus _), by rintro ⟨⟩⟩

/-- The plugin in a call of `DoRspCycles`. -/
abbrev overlayCall (marks : Word) (t : Tables) : Plugin smallTarget :=
  ⟨.cycling, (overlayHost marks).beginCycles t 0#32, t⟩

variable {marks : Word}

/-- The call enters the region at 0 and returns. -/
theorem callReaches_overlay (hr : Plugin.Reaches smallEnv OverlayRegion Plugin.start
      ⟨.outside, overlayHost marks, t⟩) :
    ∃ R code h₀ t₀ h' t', R.func = ⟨0, regionWords overlayOld 0#32⟩ ∧
      Plugin.CallReaches smallEnv OverlayRegion (overlayCall marks t)
        ⟨.inside R code [code], h₀, t₀⟩ ∧
      Plugin.CallReaches smallEnv OverlayRegion ⟨.inside R code [code], h₀, t₀⟩
        ⟨.outside, h', t'⟩ ∧
      h'.Shows overlayEnd := by
  have hs := (overlayHost_shows marks).beginCycles t 0#32
  have hentry : Plugin.CallReaches smallEnv OverlayRegion (overlayCall marks t) _ :=
    .single (Plugin.Step.run (hs.halted_iff.not.2 (overlayHost_running 0#32))).of_cycling
  have hi := Plugin.inv_call noCollision_overlay hr (overlayHost_running marks) 0#32
  obtain ⟨R, code, h₀, t₀, h₁, t₁, hfunc, hblock, hreturn, hshow, hresult⟩ :=
    Plugin.callReaches_returned noCollision_overlay overlayFirst_leaves (hs.run t)
      (Plugin.callReaches_inv noCollision_overlay hentry hi) overlayOld_regular compiles_overlayOld
  have hcall := hentry.trans hblock
  rw [overlayFirst_mode] at hresult
  obtain ⟨s, hs', -, ha⟩ := (Ahead.simulates noCollision_overlay).run
    (overlay_again.trans overlay_returns)
    ⟨Plugin.callReaches_inv noCollision_overlay (hcall.trans hreturn) hi,
      .returned hshow (by decide) hresult⟩
  obtain ⟨h', t', rfl, hend⟩ := ha.exists_outside
  exact ⟨R, code, h₀, t₀, h', t', hfunc, hcall, hreturn.trans hs', hend⟩

theorem reaches_overlay : Plugin.Reaches smallEnv OverlayRegion Plugin.start
    ⟨.outside, overlayHost 0#32, CPU.initial.tables⟩ := .single (.host rfl)

/-- A call that has returned, and the host has loaded the program again. -/
theorem exists_overlay_again : ∃ h t, Plugin.CallReaches smallEnv OverlayRegion
      (overlayCall 0#32 CPU.initial.tables) ⟨.outside, h, t⟩ ∧
    Plugin.Reaches smallEnv OverlayRegion ⟨.outside, h, t⟩
      ⟨.outside, overlayHost h.st.dirtyBlocks, t⟩ ∧
    Plugin.Reaches smallEnv OverlayRegion Plugin.start
      ⟨.outside, overlayHost h.st.dirtyBlocks, t⟩ := by
  obtain ⟨_, _, _, _, h, t, -, hin, hout, -⟩ := callReaches_overlay reaches_overlay
  have hs := hin.trans hout
  have hload : Plugin.Reaches smallEnv OverlayRegion ⟨.outside, h, t⟩
      ⟨.outside, overlayHost h.st.dirtyBlocks, t⟩ := .single (.host rfl)
  exact ⟨h, t, hs, hload, ((reaches_overlay.tail (.call (overlayHost_running 0#32))).trans
    (Plugin.callReaches_reaches hs)).trans hload⟩

/-! ### Whole calls -/

namespace Plugin

/-- **The plugin is the processor.** Whatever has been compiled and replaced before, a call of
`DoRspCycles` does what the processor does that executes the words of IMEM one at a time. -/
theorem refines_processor (E : Env T) [E.Stdcall] {S : ℕ → List Word → Prop}
    (hS : Tables.NoCollision S) {h : Host T} {t : Tables} (hr : Reaches E S start ⟨.outside, h, t⟩)
    (hhalt : ¬h.st.toArch.Halted) {m : Mips.State} (hm : h.Shows m) (spPc : Word) {s : Plugin T}
    (hs : CallReaches E S ⟨.cycling, h.beginCycles t spPc, t⟩ s) :
    ∃ p, Processor.Reaches E.toHelpers ⟨.cycling, m.beginCycles spPc⟩ p ∧ s.Shows E p := by
  obtain ⟨p, hp, -, hshow⟩ := (simulates hS).run hs
    ⟨inv_call hS hr hhalt spPc, .cycling (hm.beginCycles t spPc)⟩
  exact ⟨p, hp, hshow⟩

end Plugin

/-- The second call with the program: a jump from one region to the next, an instruction that is
loaded over another, and the end. -/
theorem refines_overlay : ∃ h₁ t₁ h₂ t₂ p,
    Plugin.CallReaches smallEnv OverlayRegion (overlayCall 0#32 CPU.initial.tables)
      ⟨.outside, h₁, t₁⟩ ∧
    Plugin.CallReaches smallEnv OverlayRegion (overlayCall h₁.st.dirtyBlocks t₁)
      ⟨.outside, h₂, t₂⟩ ∧
    h₂.log.map Prod.fst = [28#32, 24#32, 20#32, 16#32, 4#32, 0#32] ∧ h₂.st.sr 2 = 2#32 ∧
    Processor.Reaches smallEnv.toHelpers ⟨.cycling, overlayMachine.beginCycles 0#32⟩ p ∧
    Plugin.Shows smallEnv ⟨.outside, h₂, t₂⟩ p := by
  obtain ⟨h₁, t₁, hs₁, -, hr⟩ := exists_overlay_again
  obtain ⟨_, _, _, _, h₂, t₂, -, hin, hout, hend⟩ := callReaches_overlay hr
  have hs₂ := hin.trans hout
  obtain ⟨p, hp, hshow⟩ := Plugin.refines_processor smallEnv noCollision_overlay hr
    (overlayHost_running _) (overlayHost_shows _) 0#32 hs₂
  have hlog : overlayEnd.log.map Prod.fst = [28#32, 24#32, 20#32, 16#32, 4#32, 0#32] := by
    decide
  have hsr : overlayEnd.arch.sr 2 = 2#32 := by decide
  exact ⟨h₁, t₁, h₂, t₂, p, hs₁, hs₂, hend.agree.log ▸ hlog,
    (hend.agree.sr 2 (by decide)).trans hsr, hp, hshow⟩

namespace Plugin

end Plugin

namespace Plugin

end Plugin

namespace Plugin

end Plugin

end ParallelRsp.Jit
