import ParallelRsp.Jit.Exits
import ParallelRsp.Jit.Plugin
import ParallelRsp.Jit.WayOut

/-!
# Compiled code is current

Over whole runs of the plugin, whatever the host and the program write to IMEM, `get_jit_block`
returns code that was compiled from the words that IMEM has, and no compiled instruction
starts when the words of its region have changed: a DMA that marks a code block returns
`MODE_CHECK_FLAGS`, which `RSP_MTC0`'s caller looks at next.
-/

namespace ParallelRsp

theorem Arch.breakStatus_sameCode (a : Arch) : SameCode a a.breakStatus := by
  rw [Arch.breakStatus]
  dsimp only
  split <;> exact ⟨rfl, rfl⟩

theorem Arch.breakStatus_cr (a : Arch) :
    a.breakStatus.cp0.cr CP.spStatus = a.cp0.cr CP.spStatus |||
      (CP.spStatusBroke ||| CP.spStatusHalt) := by
  rw [Arch.breakStatus]
  dsimp only
  split <;> exact Function.update_self (CP.spStatus : Fin 16) _ a.cp0.cr

theorem Arch.halted_breakStatus (a : Arch) : a.breakStatus.Halted := by
  intro h0
  rw [Arch.breakStatus_cr] at h0
  have hbit := congrArg (BitVec.getLsbD · 0) h0
  simp at hbit

namespace Jit

open Codegen
open CPU (regionWords)

variable {T : Target} {E : Env T} {h : Host T}

/-! ### What the instructions do to IMEM -/

theorem Callee.sameCode {f : Callee} (hf : (Op.call f : Op T).Plain) (H : Helpers) (a : Arch) :
    SameCode a (f.run H a).1 := by
  cases f with
  | vu op e vd vs vt => exact ⟨rfl, rfl⟩
  | mfc0 rt rd => exact CP.rspMFC0_sameCode rt rd a
  | mtc0 rt rd => exact hf.elim
  | mfc2 rt rd e => exact CP.rspMFC2_sameCode rt rd e a
  | mtc2 rt rd e => exact CP.rspMTC2_sameCode rt rd e a
  | cfc2 rt rd => exact CP.rspCFC2_sameCode rt rd a
  | ctc2 rt rd => exact ⟨rfl, rfl⟩
  | lwc2 op e rt rs offset => exact LS.lwc2_sameCode H.build op e rt rs offset a
  | swc2 op e rt rs offset => exact ⟨rfl, rfl⟩

theorem stepOp_sameCode [E.SparesState] {i : Op T} (hi : i.Plain) (h : Host T) :
    SameCode h.st.toArch (stepOp E i h).st.toArch := by
  cases i with
  | call f => exact f.sameCode hi E.toHelpers h.st.toArch
  | callUnaligned f =>
    obtain ⟨dmem, hst⟩ := Env.SparesState.stepOp_callUnaligned (E := E) f h
    rw [hst]
    exact ⟨rfl, rfl⟩
  | stField f a => cases f <;> exact ⟨rfl, rfl⟩
  | _ => exact ⟨rfl, rfl⟩

/-! ### From the call of `RSP_MTC0` to the return thunk -/

/-- When a code block is marked, the value is `MODE_CHECK_FLAGS`. -/
def Host.Told (h : Host T) (x : BitVec T.wordSize) : Prop :=
  h.st.dirtyBlocks = 0#32 ∨ x = BitVec.ofNat _ (modeCode .checkFlags)

/-- What is left of a region's code, and what is known there about the marks. -/
inductive Phase (h : Host T) : List (HostCode T) → Prop where
  /-- In front of instructions. -/
  | plain {ks : List (HostCode T)} (hks : ∀ k ∈ ks, Guarded k) (h0 : h.st.dirtyBlocks = 0#32) :
      Phase h ks
  /-- In front of a call. -/
  | call {rt rd : Fin 32} {x : HostCode T} {ks : List (HostCode T)} (hx : ∀ ks, ExitPath (x :: ks))
    (hks : ∀ k ∈ ks, Guarded k) (h0 : h.st.dirtyBlocks = 0#32) :
    Phase h (.op (.call (.mtc0 rt rd)) :: lookAtMode x :: ks)
  /-- Behind it. -/
  | called {x : HostCode T} {ks : List (HostCode T)} (hx : ∀ ks, ExitPath (x :: ks))
      (hks : ∀ k ∈ ks, Guarded k)
    (ht : h.Told h.ret) : Phase h (lookAtMode x :: ks)
  /-- In front of the read of its result. -/
  | retval {x : HostCode T} {ks : List (HostCode T)} (hx : ∀ ks, ExitPath (x :: ks))
      (hks : ∀ k ∈ ks, Guarded k)
    (ht : h.Told h.ret) :
    Phase h (.op (.retval registerMode) ::
      .ite (.eqi registerMode (BitVec.ofNat _ (modeCode .continue))) .nil x :: ks)
  /-- In front of the branch. -/
  | decide {x : HostCode T} {ks : List (HostCode T)} (hx : ∀ ks, ExitPath (x :: ks))
      (hks : ∀ k ∈ ks, Guarded k)
    (ht : h.Told (h.regs registerMode)) :
    Phase h (.ite (.eqi registerMode (BitVec.ofNat _ (modeCode .continue))) .nil x :: ks)
  /-- On the way out. -/
  | exit {ks : List (HostCode T)} (hks : ExitPath ks) (ht : h.Told (h.regs registerMode)) :
      Phase h ks

/-- What holds where a step of a region's code ends. -/
def Settled : Config (Op T) (Cond T) Label Exit (Host T) → Prop
  | .at ks h => Phase h ks
  | .out .enterThunk h => h.st.dirtyBlocks = 0#32
  | .out .returnThunk h => h.Told (h.regs registerMode)

variable {code : HostCode T} {ks : List (HostCode T)}
  {c : Config (Op T) (Cond T) Label Exit (Host T)}

theorem phase_iff : Phase h ks ↔ Waits (h.st.dirtyBlocks = 0#32) h ks := by
  constructor
  · rintro (⟨hks, h0⟩ | ⟨hx, hks, h0⟩ | ⟨hx, hks, ht⟩ | ⟨hx, hks, ht⟩ | ⟨hx, hks, ht⟩ | ⟨hks, ht⟩)
    exacts [.plain hks h0, .call hx hks h0, .called hx hks ht,
      .retval hx hks ht, .decide hx hks ht, .exit hks ht]
  · rintro (⟨hks, h0⟩ | ⟨hx, hks, h0⟩ | ⟨hx, hks, ht⟩ | ⟨hx, hks, ht⟩ | ⟨hx, hks, ht⟩ | ⟨hks, ht⟩)
    exacts [.plain hks h0, .call hx hks h0, .called hx hks ht,
      .retval hx hks ht, .decide hx hks ht, .exit hks ht]

theorem settled_iff : Settled c ↔ Ends (c.state.st.dirtyBlocks = 0#32) c := by
  cases c with
  | «at» => exact phase_iff
  | out x => cases x <;> exact Iff.rfl

/-- A step that is no call of `RSP_MTC0` touches neither IMEM nor the marks. -/
theorem Phase.sameCode [E.SparesState] (hp : Phase h ks) (hcall : isCall ks = false)
    (hs : Codegen.Step (lightning E) code (.at ks h) c) :
    SameCode h.st.toArch c.state.st.toArch := by
  cases hs with
  | @op i =>
    refine stepOp_sameCode ?_ h
    generalize hl : Code.op i :: _ = l at hp hcall
    cases hp with
    | plain hks =>
      subst hl
      exact (hks _ List.mem_cons_self).of_op
    | call => cases hcall
    | called | decide => cases hl
    | retval =>
      cases hl
      trivial
    | exit hks =>
      subst hl
      cases hks with
      | op hi => exact hi.plain
  | _ => exact ⟨rfl, rfl⟩

/-- **One step** of a region's code marks the words of IMEM that it changes, and when it does the
code is on its way to the return thunk. -/
theorem Phase.step [E.SparesState] (hw : Guarded code) (hp : Phase h ks)
    (hs : Codegen.Step (lightning E) code (.at ks h) c) :
    Dirtied h.st.toArch c.state.st.toArch ∧ Settled c := by
  cases hcall : isCall ks with
  | false =>
    have hsame := hp.sameCode hcall hs
    refine ⟨hsame.dirtied,
      settled_iff.2 ((phase_iff.1 hp).step hw hs (fun _ h0 => hsame.2.trans h0) fun hc => ?_)⟩
    exact absurd (hcall.symm.trans hc) Bool.false_ne_true
  | true =>
    obtain ⟨rt, rd, ks', rfl⟩ := exists_of_isCall hcall
    cases hs with
    | op =>
      refine ⟨(CP.mtc0Value_marks _ _ _ _).1,
        settled_iff.2 ((phase_iff.1 hp).step hw .op nofun fun _ h0 => ?_)⟩
      exact (CP.mtc0Value_checkFlags _ _ _ h0).imp_right fun hm =>
        congrArg (fun m => BitVec.ofNat _ (modeCode m)) hm

/-- In front of an instruction no code block is marked, or the code is on its way out. -/
theorem Phase.of_op {i : Op T} (hp : Phase h (.op i :: ks)) :
    h.st.dirtyBlocks = 0#32 ∨ i.Quiet ∨ i = .retval registerMode := by
  generalize hl : Code.op i :: ks = l at hp
  cases hp with
  | plain _ h0 | call _ _ h0 => exact .inl h0
  | called | decide => cases hl
  | retval =>
    cases hl
    exact .inr (.inr rfl)
  | exit hks =>
    cases hl
    cases hks with
    | op hi => exact .inr (.inl hi)

/-! ### Runs of the plugin -/

/-- The words of the region are those that the tables know. -/
def Tables.Knows (t : Tables) (R : Region) : Prop :=
  ∀ k < R.count, t.cachedImem (R.pcWord + k) = R.word k

/-- Without a mark, the words of the region are in IMEM. -/
theorem Tables.Knows.inImem {t : Tables} {R : Region} {a : Arch} (hR : t.Knows R) (hm : t.Marked a)
    (h0 : a.dirtyBlocks = 0#32) : R.In a := by
  have hin := R.inside
  exact fun k hk => (hm.imem_eq h0 (by omega)).symm.trans (hR k hk)

namespace Plugin

variable {S : ℕ → List Word → Prop} {s s' : Plugin T}

/-- What holds in all states of a run. -/
def Inv (S : ℕ → List Word → Prop) (s : Plugin T) : Prop :=
  s.tables.Coherent S ∧
    match s.stage with
    | .outside => True
    | .cycling => s.tables.Marked s.host.st.toArch
    | .entry => s.tables.Marked s.host.st.toArch ∧ s.host.st.dirtyBlocks = 0#32
    | .inside R code ks =>
        s.tables.Marked s.host.st.toArch ∧ s.tables.Knows R ∧ Guarded code ∧ Phase s.host ks
    | .returned => s.tables.Marked s.host.st.toArch ∧ s.host.Told (s.host.regs registerMode)

theorem inv_start : (start : Plugin T).Inv S :=
  ⟨⟨fun _ _ hf => (Option.some_ne_none _ hf.symm).elim, fun _ _ _ hf =>
    (Option.some_ne_none _ hf.symm).elim⟩, trivial⟩

/-- One step keeps the tables coherent. -/
theorem Step.inv [E.SparesState] (hS : Tables.NoCollision S) (hs : Step E S s s')
    (hi : s.Inv S) : s'.Inv S := by
  cases hs with
  | host hmarks => exact hi
  | @call h t spPc hhalt => exact ⟨hi.1, CPU.marked_invalidateImem (t.cpu h.st.toArch)⟩
  | done hhalt => exact ⟨hi.1, trivial⟩
  | @run h t hhalt =>
    obtain ⟨hc, hm⟩ := hi
    exact ⟨CPU.coherent_invalidateCode (c := t.cpu h.st.toArch) hm hc,
      CPU.marked_invalidateCode (c := t.cpu h.st.toArch) hm,
      CPU.invalidateCode_dirtyBlocks _⟩
  | @block h t R code pc hpc hpcS hR hc =>
    obtain ⟨hco, hm, h0⟩ := hi
    have hfunc := hR.trans (CPU.getJitBlock_current (c := t.cpu h.st.toArch) hS hco hm h0 hpcS)
    have hcached : ((t.cpu h.st.toArch).getJitBlock pc).2.tables.cachedImem = t.cachedImem :=
      CPU.getJitBlock_cachedImem _ pc
    have hm' : ((t.cpu h.st.toArch).getJitBlock pc).2.tables.Marked h.st.toArch := by
      rw [Tables.Marked, hcached]
      exact hm
    refine ⟨CPU.coherent_getJitBlock (c := t.cpu h.st.toArch) hS hco hm h0 hpcS,
      hm', ?_, EmitsGuarded.jitRegion hc,
      .plain (List.forall_mem_singleton.2 (EmitsGuarded.jitRegion hc)) h0⟩
    intro k hk
    rw [← Region.word_of_func hfunc hk]
    exact hm'.imem_eq h0 (by have := R.inside; omega)
  | code hstep =>
    obtain ⟨hco, hm, hR, hw, hp⟩ := hi
    obtain ⟨hd, hp'⟩ := hp.step hw hstep
    exact ⟨hco, hm.dirtied hd, hR, hw, hp'⟩
  | chain hstep =>
    obtain ⟨hco, hm, hR, hw, hp⟩ := hi
    obtain ⟨hd, h0⟩ := hp.step hw hstep
    exact ⟨hco, hm.dirtied hd, h0⟩
  | leave hstep =>
    obtain ⟨hco, hm, hR, hw, hp⟩ := hi
    obtain ⟨hd, ht⟩ := hp.step hw hstep
    exact ⟨hco, hm.dirtied hd, ht⟩
  | @finish h t m hm hmode =>
    obtain ⟨hco, hmarked, -⟩ := hi
    refine ⟨hco, ?_⟩
    by_cases hret : m = .checkFlags ∧ h.st.cp0.irq &&& 1#32 ≠ 0#32
    · simp only [if_pos hret]
    · simp only [if_neg hret]
      split
      · exact hmarked.dirtied h.st.toArch.breakStatus_sameCode.dirtied
      · exact hmarked
  | @again h t hmode =>
    obtain ⟨hco, hm, ht⟩ := hi
    refine ⟨hco, hm, ht.resolve_right fun hflags => hmode .checkFlags (by decide) ?_⟩
    rw [Host.result, hflags]
    exact BitVec.setWidth_ofNat_of_le T.wide _

theorem Reaches.inv [E.SparesState] (hS : Tables.NoCollision S) (hs : Reaches E S s s')
    (hi : s.Inv S) : s'.Inv S := by
  induction hs with
  | refl => exact hi
  | tail _ hstep ih => exact hstep.inv hS ih

end Plugin

namespace Plugin

variable {S : ℕ → List Word → Prop} {R : Region} {t : Tables}

/-- A call of `DoRspCycles` comes to the entry thunk. -/
theorem reaches_entry (E : Env T) (S : ℕ → List Word → Prop)
    (hhalt : ¬h.st.toArch.Halted) (t : Tables) (spPc : Word) :
    Reaches E S ⟨.outside, h, t⟩ ⟨.entry,
      ((h.beginCycles t spPc).withArch
        (t.cpu (h.beginCycles t spPc).st.toArch).invalidateCode.state).enterFrame,
      (t.cpu (h.beginCycles t spPc).st.toArch).invalidateCode.tables⟩ :=
  .tail (.single (.call hhalt)) (.run hhalt)

/-- The plugin where a run of the code of a region is. -/
def placed (R : Region) (code : HostCode T) (t : Tables) :
    Config (Op T) (Cond T) Label Exit (Host T) → Plugin T
  | .at ks h => ⟨.inside R code ks, h, t⟩
  | .out .enterThunk h => ⟨.entry, h, t⟩
  | .out .returnThunk h => ⟨.returned, h.returnThunk, t⟩

end Plugin

/-- `BREAK`. -/
def firstWords : List Word := [0x0000000d#32]

/-- The region of the first program. -/
def firstRegion : Region := ⟨imemOf firstWords, 0, 1, Nat.one_pos, by decide, by decide⟩

/-- The host where a call of `DoRspCycles` with these words in IMEM comes to the entry thunk. -/
def entered (words : List Word) : Host smallTarget :=
  (((Host.withImem words).beginCycles CPU.initial.tables 0#32).withArch
    (CPU.initial.tables.cpu ((Host.withImem words).beginCycles
      CPU.initial.tables 0#32).st.toArch).invalidateCode.state).enterFrame

end Jit

end ParallelRsp
