import ParallelRsp.Jit.Coherence

/-!
# A program that halts itself

The end of `DoRspCycles`. The loop ends when `HALT` is set or an interrupt is to be reported,
and what follows tells the cases apart by `BROKE`, the interrupt and `HALT`, in this order, and
clears `HALT` unless it finds that the program has halted. A program that halts itself by a
write to `SP_STATUS`, with `BROKE` clear and the interrupt raised, is taken for one that has an
interrupt to report, and does not stay halted (`stays_halted_iff`).

After such a write nothing else happens before the loop ends: the helper returns
`MODE_CHECK_FLAGS`, with which compiled code goes straight to the return thunk.
-/

namespace ParallelRsp

/-- `SP_STATUS_BROKE` is set. -/
def Arch.Broken (a : Arch) : Prop := a.cp0.cr CP.spStatus &&& CP.spStatusBroke ≠ 0#32

instance (a : Arch) : Decidable a.Broken := inferInstanceAs (Decidable (_ ≠ _))

/-- The SP interrupt is raised. -/
def Arch.Interrupted (a : Arch) : Prop := a.cp0.irq &&& 1#32 ≠ 0#32

instance (a : Arch) : Decidable a.Interrupted := inferInstanceAs (Decidable (_ ≠ _))

/-! ### The status register -/

theorem and_bit_ne_zero {x : Word} (i : ℕ) (hi : i < 32) :
    x &&& BitVec.twoPow 32 i ≠ 0#32 ↔ x.getLsbD i = true := by
  rw [BitVec.and_twoPow]
  cases x.getLsbD i with
  | true =>
    refine iff_of_true (fun h => ?_) rfl
    have hbit := congrArg (BitVec.getLsbD · i) h
    simp [hi] at hbit
  | false => exact iff_of_false (fun h => h rfl) Bool.false_ne_true

theorem Arch.halted_iff {a : Arch} : a.Halted ↔ (a.cp0.cr CP.spStatus).getLsbD 0 = true :=
  and_bit_ne_zero 0 (by decide)

theorem Arch.broken_iff {a : Arch} : a.Broken ↔ (a.cp0.cr CP.spStatus).getLsbD 1 = true :=
  and_bit_ne_zero 1 (by decide)

theorem Arch.broken_breakStatus (a : Arch) : a.breakStatus.Broken := by
  rw [Arch.broken_iff, Arch.breakStatus_cr, BitVec.getLsbD_or,
    show (CP.spStatusBroke ||| CP.spStatusHalt).getLsbD 1 = true from rfl, Bool.or_true]

namespace CP

/-- A flag that has another bit leaves the bit alone. -/
theorem getLsbD_handleStatusWrite (val : Word) {status : Word}
    {flag : Word × Word × Word} {i : ℕ} (hi : i < 32) (h : flag.2.2.getLsbD i = false) :
    (handleStatusWrite val status flag).getLsbD i = status.getLsbD i := by
  rw [handleStatusWrite]
  split
  · rw [BitVec.getLsbD_or, h, Bool.or_false]
  · split
    · rw [BitVec.getLsbD_and, BitVec.getLsbD_not, h]
      simp [hi]
    · rfl

theorem getLsbD_handleStatusWrites (val : Word) (flags : List (Word × Word × Word))
    {i : ℕ} (hi : i < 32) (h : ∀ flag ∈ flags, flag.2.2.getLsbD i = false) (status : Word) :
    (flags.foldl (handleStatusWrite val) status).getLsbD i = status.getLsbD i := by
  induction flags generalizing status with
  | nil => rfl
  | cons flag flags ih =>
    obtain ⟨hflag, hflags⟩ := List.forall_mem_cons.1 h
    exact (ih hflags _).trans (getLsbD_handleStatusWrite val hi hflag)

/-- The status behind a write. -/
theorem rspStatusWrite_cr (val : Word) (a : Arch) : (rspStatusWrite val a).1.cp0.cr spStatus =
    if val &&& spClrBroke ≠ 0#32
      then statusFlags.foldl (handleStatusWrite val) (a.cp0.cr spStatus) &&& ~~~spStatusBroke
    else statusFlags.foldl (handleStatusWrite val) (a.cp0.cr spStatus) := by
  rw [rspStatusWrite]
  dsimp only [setCr]
  rw [Function.update_self]

/-- `HALT` behind a write. -/
theorem rspStatusWrite_halted (val : Word) (a : Arch) : (rspStatusWrite val a).1.Halted ↔
    val &&& 0x3#32 = 0x2#32 ∨ val &&& 0x3#32 ≠ 0x1#32 ∧ a.Halted := by
  have hfirst : (statusFlags.foldl (handleStatusWrite val) (a.cp0.cr spStatus)).getLsbD 0 =
      (handleStatusWrite val (a.cp0.cr spStatus)
        (0x00000002#32, 0x00000001#32, 0x0001#32)).getLsbD 0 :=
    getLsbD_handleStatusWrites val statusFlags.tail (by decide) (by simp [statusFlags]) _
  have hbroke (x : Word) : (x &&& ~~~spStatusBroke).getLsbD 0 = x.getLsbD 0 := by
    rw [BitVec.getLsbD_and, show (~~~spStatusBroke).getLsbD 0 = true from rfl, Bool.and_true]
  rw [Arch.halted_iff, Arch.halted_iff, rspStatusWrite_cr, apply_ite (BitVec.getLsbD · 0), hbroke,
    ite_self, hfirst, handleStatusWrite]
  dsimp only
  by_cases hset : val &&& 0x3#32 = 0x2#32
  · simp [hset]
  · by_cases hclr : val &&& 0x3#32 = 0x1#32
    · simp [hclr]
    · simp [hset, hclr]

/-- `BROKE` behind it. -/
theorem rspStatusWrite_broken (val : Word) (a : Arch) : (rspStatusWrite val a).1.Broken ↔
    val &&& spClrBroke = 0#32 ∧ a.Broken := by
  have hflags : (statusFlags.foldl (handleStatusWrite val) (a.cp0.cr spStatus)).getLsbD 1 =
      (a.cp0.cr spStatus).getLsbD 1 :=
    getLsbD_handleStatusWrites val statusFlags (by decide) (by simp [statusFlags]) _
  rw [Arch.broken_iff, Arch.broken_iff, rspStatusWrite_cr]
  by_cases hclr : val &&& spClrBroke = 0#32
  · rw [if_neg (not_not.2 hclr), hflags]
    exact (and_iff_right hclr).symm
  · rw [if_pos hclr]
    refine iff_of_false ?_ fun h => hclr h.1
    rw [BitVec.getLsbD_and, show (~~~spStatusBroke).getLsbD 1 = false from rfl, Bool.and_false]
    exact Bool.false_ne_true

/-- The interrupt behind it. -/
theorem rspStatusWrite_interrupted (val : Word) (a : Arch) : (rspStatusWrite val a).1.Interrupted ↔
    val &&& 0x18#32 = 0x10#32 ∨ val &&& 0x18#32 ≠ 0x8#32 ∧ a.Interrupted := by
  have hirq : (rspStatusWrite val a).1.cp0.irq = if val &&& 0x18#32 = 0x10#32
      then a.cp0.irq ||| 1#32
      else if val &&& 0x18#32 = 0x8#32 then a.cp0.irq &&& ~~~1#32 else a.cp0.irq := rfl
  rw [Arch.Interrupted, Arch.Interrupted, hirq]
  by_cases hset : val &&& 0x18#32 = 0x10#32
  · rw [if_pos hset]
    refine iff_of_true (fun h => ?_) (.inl hset)
    have hbit := congrArg (BitVec.getLsbD · 0) h
    simp at hbit
  · rw [if_neg hset]
    by_cases hclr : val &&& 0x18#32 = 0x8#32
    · simp [hclr, BitVec.and_assoc]
    · simp [hset, hclr]

/-- A write that leaves `HALT` set and `BROKE` clear, with the interrupt raised. -/
def HaltsUnderInterrupt (val : Word) (a : Arch) : Prop :=
  (val &&& 0x3#32 = 0x2#32 ∨ val &&& 0x3#32 ≠ 0x1#32 ∧ a.Halted) ∧
    (val &&& spClrBroke = 0#32 → ¬a.Broken) ∧
    (val &&& 0x18#32 = 0x10#32 ∨ val &&& 0x18#32 ≠ 0x8#32 ∧ a.Interrupted)

instance (val : Word) (a : Arch) : Decidable (HaltsUnderInterrupt val a) :=
  inferInstanceAs (Decidable (_ ∧ _ ∧ _))

theorem haltsUnderInterrupt_iff (val : Word) (a : Arch) : HaltsUnderInterrupt val a ↔
    (rspStatusWrite val a).1.Halted ∧ ¬(rspStatusWrite val a).1.Broken ∧
      (rspStatusWrite val a).1.Interrupted := by
  rw [HaltsUnderInterrupt, rspStatusWrite_halted, rspStatusWrite_broken,
    rspStatusWrite_interrupted, not_and]

/-- A write that leaves `HALT` set is reported. -/
theorem rspStatusWrite_mode {val : Word} {a : Arch} (h : (rspStatusWrite val a).1.Halted) :
    (rspStatusWrite val a).2 = .checkFlags := by
  rw [Arch.Halted, rspStatusWrite_cr] at h
  exact if_pos (.inr h)

end CP

/-! ### The end of `DoRspCycles` -/

/-- `*RSP::rsp.SP_STATUS_REG &= ~SP_STATUS_HALT`. -/
def Arch.clearHalt (a : Arch) : Arch :=
  CP.setCr a CP.spStatus (a.cp0.cr CP.spStatus &&& ~~~CP.spStatusHalt)

/-- `DoRspCycles` behind its loop, where `check` is what `CheckInterrupts` does. -/
def Arch.endCycles (check : CP0 → CP0) (a : Arch) : Arch :=
  if a.Broken then a
  else if a.Interrupted then { a with cp0 := check a.cp0 }.clearHalt
  else if a.Halted then a
  else { a with cp0 := { a.cp0 with spStatusTimeout := 16#32 } }.clearHalt

theorem Arch.not_halted_clearHalt (a : Arch) : ¬a.clearHalt.Halted := by
  rw [Arch.Halted, Arch.clearHalt, CP.setCr]
  dsimp only
  rw [Function.update_self, BitVec.and_assoc, BitVec.and_comm (~~~_), BitVec.and_not_self]
  simp

/-- An interrupt is looked at before `HALT`. -/
theorem Arch.not_halted_endCycles (check : CP0 → CP0) {a : Arch}
    (hbroken : ¬a.Broken) (hirq : a.Interrupted) :
    ¬(a.endCycles check).Halted := by
  rw [Arch.endCycles, if_neg hbroken, if_pos hirq]
  exact Arch.not_halted_clearHalt _

namespace Jit

open Codegen
open CPU (regionWords)

variable {T : Target} {E : Env T} {S : ℕ → List Word → Prop}

/-! ### Runs of the loop -/

/-- What the program has last done to halt or to write the status, in a call of `DoRspCycles`. -/
inductive Did where
  /-- Neither. -/
  | nothing
  /-- It has written a value to `SP_STATUS`, when the registers were these. -/
  | wrote (val : Word) (a : Arch)
  /-- It has executed `BREAK`. -/
  | broke

namespace Did

/-- The program has halted itself. -/
def Halts : Did → Prop
  | nothing => False
  | wrote val a => (CP.rspStatusWrite val a).1.Halted
  | broke => True

instance (d : Did) : Decidable d.Halts := by
  cases d
  · exact inferInstanceAs (Decidable False)
  · exact inferInstanceAs (Decidable (Arch.Halted _))
  · exact inferInstanceAs (Decidable True)

/-- By a write with `BROKE` clear and the interrupt raised. -/
def UnderInterrupt : Did → Prop
  | wrote val a => CP.HaltsUnderInterrupt val a
  | _ => False

end Did

namespace Plugin

/-- What the program has done behind the next step. -/
def watch (s : Plugin T) (d : Did) : Did :=
  match s.stage with
  | .inside _ _ (.op (.call (.mtc0 rt rd)) :: _) =>
    if rd.val % 16 = CP.spStatus.val then .wrote (s.host.st.sr rt) s.host.st.toArch else d
  | .returned => if s.host.result = BitVec.ofNat 32 (modeCode .break) then .broke else d
  | _ => d

/-- The states of a call of `DoRspCycles` until its loop ends, with what the program has done. -/
inductive Cycling (E : Env T) (S : ℕ → List Word → Prop) : Plugin T → Did → Prop where
  | call {h : Host T} {t : Tables} {spPc : Word} (hhalt : ¬h.st.toArch.Halted) :
    Cycling E S ⟨.cycling, h.beginCycles t spPc, t⟩ .nothing
  | step {s s' : Plugin T} {d : Did} (hc : Cycling E S s d)
      (hin : s.stage ≠ .outside) (hs : Step E S s s') :
    Cycling E S s' (s.watch d)

end Plugin

/-! ### What is kept in the loop -/

/-- When the program has halted itself, the registers are as it left them. -/
def Did.Shows (d : Did) (a : Arch) : Prop :=
  match d with
  | .nothing => True
  | .wrote val b => (CP.rspStatusWrite val b).1.Halted → a.cp0 = (CP.rspStatusWrite val b).1.cp0
  | .broke => a.Broken ∧ a.Halted

variable {d : Did} {a a' : Arch}

theorem Did.Shows.of_not_halts (hd : ¬d.Halts) : d.Shows a := by
  cases d with
  | nothing => trivial
  | wrote val b => exact fun h => absurd h hd
  | broke => exact absurd trivial hd

theorem Did.Shows.congr (h : d.Shows a) (ha : a'.cp0 = a.cp0) : d.Shows a' := by
  cases d with
  | nothing => trivial
  | wrote val b => exact fun hd => ha.trans (h hd)
  | broke =>
    rw [Did.Shows, Arch.Broken, Arch.Halted, ha]
    exact h

/-- A program that has halted itself is halted. -/
theorem Did.Shows.halted (h : d.Shows a) (hd : d.Halts) : a.Halted := by
  cases d with
  | nothing => exact hd.elim
  | wrote val b =>
    rw [Arch.Halted, h hd]
    exact hd
  | broke => exact h.2

namespace Plugin

/-- What holds in all states of a call. -/
def Kept (s : Plugin T) (d : Did) : Prop :=
  match s.stage with
  | .outside => d.Shows s.host.st.toArch ∧ (s.host.st.toArch.Halted ∨ s.host.st.toArch.Interrupted)
  | .cycling => d.Shows s.host.st.toArch
  | .entry => ¬d.Halts
  | .inside _ code ks => Guarded code ∧ Waits (¬d.Halts) s.host ks ∧ d.Shows s.host.st.toArch
  | .returned => Tells (¬d.Halts) (s.host.regs registerMode) ∧ d.Shows s.host.st.toArch

end Plugin

theorem CP.mtc0Value_spStatus (rdp : CP.ProcessRdpList)
    {rd : Fin 16} (hrd : rd = CP.spStatus) (val : Word) (a : Arch) :
    CP.mtc0Value rdp rd val a = CP.rspStatusWrite val a := by
  subst hrd
  rfl

variable {R : Region} {code : HostCode T} {ks : List (HostCode T)} {h : Host T} {t : Tables}
  {c : Config (Op T) (Cond T) Label Exit (Host T)}

theorem Plugin.watch_inside (hks : isCall ks = false) :
    (⟨.inside R code ks, h, t⟩ : Plugin T).watch d = d := by
  rw [Plugin.watch]
  split
  · rename_i hstage
    cases hstage
    cases hks
  · rename_i hstage
    cases hstage
  · rfl

theorem Plugin.watch_returned (h0 : h.result ≠ BitVec.ofNat 32 (modeCode .break)) :
    (⟨.returned, h, t⟩ : Plugin T).watch d = d := if_neg h0

theorem Plugin.watch_break (h0 : h.result = BitVec.ofNat 32 (modeCode .break)) :
    (⟨.returned, h, t⟩ : Plugin T).watch d = .broke := if_pos h0

/-- One step of compiled code. -/
theorem Waits.watch (hw : Guarded code) (hp : Waits (¬d.Halts) h ks) (hsh : d.Shows h.st.toArch)
    (hs : Codegen.Step (lightning E) code (.at ks h) c) :
    Ends (¬((⟨.inside R code ks, h, t⟩ : Plugin T).watch d).Halts) c ∧
      ((⟨.inside R code ks, h, t⟩ : Plugin T).watch d).Shows c.state.st.toArch := by
  cases hcall : isCall ks with
  | false =>
    rw [Plugin.watch_inside hcall]
    refine ⟨hp.step hw hs (fun _ => id) fun hc =>
      absurd (hcall.symm.trans hc) Bool.false_ne_true, ?_⟩
    by_cases hd : d.Halts
    · exact hsh.congr (congrArg Arch.cp0 (hp.quiet (not_not.2 hd) hs).1)
    · exact .of_not_halts hd
  | true =>
    -- no call follows where the program has halted itself
    have hd : ¬d.Halts :=
      fun hd => Bool.false_ne_true ((hp.quiet (not_not.2 hd) hs).2.symm.trans hcall)
    obtain ⟨rt, rd, ks', rfl⟩ := exists_of_isCall hcall
    cases hs with
    | op =>
      rw [Plugin.watch]
      dsimp only
      split
      · rename_i hrd
        have hreg : (⟨rd.val % 16, by omega⟩ : Fin 16) = CP.spStatus := Fin.ext hrd
        have hval := CP.mtc0Value_spStatus E.rdp hreg (h.st.sr rt) h.st.toArch
        refine ⟨hp.step hw .op nofun fun _ _ => ?_, fun _ => congrArg (fun r => r.1.cp0) hval⟩
        by_cases hhalt : (CP.rspStatusWrite (h.st.sr rt) h.st.toArch).1.Halted
        · have hmode := (congrArg Prod.snd hval).trans (CP.rspStatusWrite_mode hhalt)
          exact .inr (congrArg (fun m => BitVec.ofNat _ (modeCode m)) hmode)
        · exact .inl hhalt
      · exact ⟨hp.step hw .op nofun fun _ => .inl, .of_not_halts hd⟩

namespace Plugin

variable {s s' : Plugin T}

theorem result_injective {m m' : ReturnMode}
    (h : BitVec.ofNat 32 (modeCode m) = BitVec.ofNat 32 (modeCode m')) : m = m' := by
  revert h
  cases m <;> cases m' <;> decide

/-- **One step** of a call of `DoRspCycles`. -/
theorem Step.kept (hs : Step E S s s') (hin : s.stage ≠ .outside) (hk : s.Kept d) :
    s'.Kept (s.watch d) := by
  cases hs with
  | host | call => exact absurd rfl hin
  | done hhalt => exact ⟨hk, .inl hhalt⟩
  | run hhalt => exact fun hd => hhalt (hk.halted hd)
  | block hpc hS hR hc =>
    exact ⟨EmitsGuarded.jitRegion hc,
      .plain (List.forall_mem_singleton.2 (EmitsGuarded.jitRegion hc)) hk, .of_not_halts hk⟩
  | code hstep =>
    obtain ⟨hw, hp, hsh⟩ := hk
    obtain ⟨he, hsh'⟩ := hp.watch hw hsh hstep
    exact ⟨hw, he, hsh'⟩
  | chain hstep =>
    obtain ⟨hw, hp, hsh⟩ := hk
    exact (hp.watch hw hsh hstep).1
  | leave hstep =>
    obtain ⟨hw, hp, hsh⟩ := hk
    exact hp.watch hw hsh hstep
  | @finish h t m hm hmode =>
    obtain ⟨ht, hsh⟩ := hk
    by_cases hbreak : m = .break
    · subst hbreak
      rw [if_neg (fun hn : ReturnMode.break = .checkFlags ∧ _ =>
        ReturnMode.noConfusion hn.1), if_pos rfl,
        watch_break hmode]
      exact ⟨h.st.toArch.broken_breakStatus, h.st.toArch.halted_breakStatus⟩
    · rw [watch_returned fun hb => hbreak (result_injective (hmode.symm.trans hb)), if_neg hbreak]
      split
      · rename_i hirq
        exact ⟨hsh, .inr hirq.2⟩
      · exact hsh
  | @again h t hmode =>
    obtain ⟨ht, hsh⟩ := hk
    rw [watch_returned (hmode .break (by decide))]
    refine ht.resolve_right fun hflags => hmode .checkFlags (by decide) ?_
    rw [Host.result, hflags]
    exact BitVec.setWidth_ofNat_of_le T.wide _

theorem Cycling.kept (hc : Cycling E S s d) : s.Kept d := by
  induction hc with
  | call hhalt => trivial
  | step hc hin hs ih => exact hs.kept hin ih

end Plugin

/-! ### What is left of it -/

/-- When the program has halted itself `HALT` is set on return, and it is clear only
when the loop was left for an interrupt and the program has not halted; `a` are the
registers where the loop ends. -/
def StaysHalted (check : CP0 → CP0) (d : Did) (a : Arch) : Prop :=
  (d.Halts → (a.endCycles check).Halted) ∧ (¬(a.endCycles check).Halted → a.Interrupted ∧ ¬d.Halts)

theorem Did.Shows.underInterrupt_iff (h : d.Shows a) :
    d.UnderInterrupt ↔ d.Halts ∧ ¬a.Broken ∧ a.Interrupted := by
  cases d with
  | nothing => exact iff_of_false id fun hn => hn.1
  | broke => exact iff_of_false id fun hn => hn.2.1 h.1
  | wrote val b =>
    refine (CP.haltsUnderInterrupt_iff val b).trans (and_congr_right fun hd => ?_)
    rw [Arch.Broken, Arch.Broken, Arch.Interrupted, Arch.Interrupted, h hd]

/-- **A program that halts itself stays halted**, in a call of `DoRspCycles` whose loop
ends, exactly if it does not halt itself by a write to `SP_STATUS` that leaves `BROKE`
clear and the interrupt raised. -/
theorem stays_halted_iff (check : CP0 → CP0) {s : Plugin T}
    (hc : Plugin.Cycling E S s d) (hout : s.stage = .outside) :
    StaysHalted check d s.host.st.toArch ↔ ¬d.UnderInterrupt := by
  have hk := hc.kept
  rw [Plugin.Kept, hout] at hk
  obtain ⟨hsh, hend⟩ := hk
  generalize s.host.st.toArch = a at hsh hend
  rw [hsh.underInterrupt_iff]
  by_cases hbroken : a.Broken
  · refine iff_of_true ?_ fun hn => hn.2.1 hbroken
    rw [StaysHalted, Arch.endCycles, if_pos hbroken]
    exact ⟨hsh.halted, fun hn => ⟨hend.resolve_left hn, fun hd => hn (hsh.halted hd)⟩⟩
  by_cases hirq : a.Interrupted
  · have hclear := Arch.not_halted_endCycles check hbroken hirq
    constructor
    · exact fun hst hn => (hst.2 hclear).2 hn.1
    · intro hn
      have hd : ¬d.Halts := fun hd => hn ⟨hd, hbroken, hirq⟩
      exact ⟨fun hd' => absurd hd' hd, fun _ => ⟨hirq, hd⟩⟩
  · have hhalt : a.Halted := hend.resolve_right hirq
    refine iff_of_true ?_ fun hn => hirq hn.2.2
    rw [StaysHalted, Arch.endCycles, if_neg hbroken, if_neg hirq, if_pos hhalt]
    exact ⟨fun _ => hhalt, fun hn => absurd hhalt hn⟩

/-! ### Programs of one region -/

namespace Plugin

/-- A run of the code of a region until it leaves, with what the program does. -/
def follow (E : Env T) (R : Region) (code : HostCode T) :
    ℕ → List (HostCode T) → Host T → Did → Option (Exit × Host T × Did)
  | 0, _, _, _ => none
  | n + 1, ks, h, d =>
    let d := (⟨.inside R code ks, h, CPU.initial.tables⟩ : Plugin T).watch d
    match next (lightning E) code (.at ks h) with
    | some (.at ks h) => follow E R code n ks h d
    | some (.out x h) => some (x, h, d)
    | none => none

theorem Cycling.follow {n : ℕ} {x : Exit} {h' : Host T}
    {d' : Did} (hc : Cycling E S ⟨.inside R code ks, h, t⟩ d)
    (hf : follow E R code n ks h d = some (x, h', d')) :
    Cycling E S (placed R code t (.out x h')) d' := by
  induction n generalizing ks h d with
  | zero => cases hf
  | succ n ih =>
    rw [Plugin.follow] at hf
    split at hf
    · rename_i hn
      have hstep := Cycling.step hc nofun (.code (Step.of_next hn))
      exact ih hstep hf
    · rename_i hn
      cases hf
      cases x with
      | enterThunk =>
        have hstep := Cycling.step hc nofun (.chain (Step.of_next hn))
        exact hstep
      | returnThunk =>
        have hstep := Cycling.step hc nofun (.leave (Step.of_next hn))
        exact hstep
    · cases hf

end Plugin

/-- `ADDIU $1, $0, 0x12; MTC0 $1, SP_STATUS; BREAK`: set `HALT` and raise the interrupt. -/
def haltWords : List Word := [0x24010012#32, 0x40812000#32, 0x0000000d#32]

/-- The region of these words. -/
def haltRegion : Region := ⟨imemOf haltWords, 0, haltWords.length, by decide, by decide, by decide⟩

/-- Only these words are compiled. -/
def Single (words : List Word) (pc : ℕ) (ws : List Word) : Prop := pc = 0 ∧ ws = words

theorem noCollision_single (words : List Word) : Tables.NoCollision (Single words) :=
  fun _ _ _ hw hw' _ => hw.2.trans hw'.2.symm

/-- A call of `DoRspCycles` with these words in IMEM comes to their code. -/
theorem cycling_inside {words : List Word} {R : Region}
    {code : HostCode smallTarget} (hc : jitRegion R = some code)
    (hR : R.func = ⟨0, words⟩) (hwords : regionWords (entered words).st.imem 0#32 = words)
    (hhalt : ¬(Host.withImem words : Host smallTarget).st.toArch.Halted) :
    ∃ t, Plugin.Cycling smallEnv (Single words)
      ⟨.inside R code [code], (entered words).enterThunk smallEnv, t⟩ .nothing := by
  have hr : Plugin.Reaches smallEnv (Single words) Plugin.start
      ⟨.outside, Host.withImem words, CPU.initial.tables⟩ :=
    .single (.host rfl)
  have hr := hr.trans (Plugin.reaches_entry smallEnv (Single words) hhalt CPU.initial.tables 0#32)
  change Plugin.Reaches smallEnv (Single words) Plugin.start ⟨.entry, entered words, _⟩ at hr
  obtain ⟨hco, hm, h0⟩ := hr.inv (noCollision_single words) Plugin.inv_start
  have hpc : Single words (CPU.wordPc 0#32) (regionWords (entered words).st.imem 0#32) :=
    ⟨rfl, hwords⟩
  have hfunc : R.func = ⟨CPU.wordPc 0#32, regionWords (entered words).st.imem 0#32⟩ := by
    rw [hwords]
    exact hR
  have hcall : Plugin.Cycling smallEnv (Single words)
      ⟨.cycling, (Host.withImem words).beginCycles CPU.initial.tables 0#32,
        CPU.initial.tables⟩ .nothing := .call hhalt
  have hentry := Plugin.Cycling.step hcall nofun (.run hhalt)
  change Plugin.Cycling smallEnv (Single words) ⟨.entry, entered words, _⟩ .nothing at hentry
  exact ⟨_, .step hentry nofun (.block rfl hpc (hfunc.trans
    (CPU.getJitBlock_current (noCollision_single words) hco hm h0 hpc).symm) hc)⟩

/-- The code of the region of these words, up to the return thunk. -/
def leaves (R : Region) (words : List Word) : Option (Host smallTarget × Did) :=
  (jitRegion R).bind fun code =>
    match Plugin.follow smallEnv R code 200 [code]
      ((entered words).enterThunk smallEnv) .nothing with
    | some (.returnThunk, h, d) => some (h.returnThunk, d)
    | _ => none

theorem cycling_returned {words : List Word} {R : Region} (hR : R.func = ⟨0, words⟩)
    (hwords : regionWords (entered words).st.imem 0#32 = words)
    (hhalt : ¬(Host.withImem words : Host smallTarget).st.toArch.Halted)
    {h : Host smallTarget} (hl : leaves R words = some (h, d)) :
    ∃ t, Plugin.Cycling smallEnv (Single words) ⟨.returned, h, t⟩ d := by
  obtain ⟨code, hc, hl⟩ := Option.bind_eq_some_iff.1 hl
  obtain ⟨t, hin⟩ := cycling_inside hc hR hwords hhalt
  split at hl
  · rename_i hf
    cases hl
    exact ⟨t, hin.follow hf⟩
  · cases hl

/-- The program halts itself, and the processor is not halted when `DoRspCycles` returns. -/
theorem halt_is_cleared : ∃ (s : Plugin smallTarget)
    (d : Did), Plugin.Cycling smallEnv (Single haltWords) s d ∧
    s.stage = .outside ∧ d.Halts ∧ ¬StaysHalted id d s.host.st.toArch := by
  have hleaves : ((leaves haltRegion haltWords).any fun (h, d) =>
      decide (h.result = BitVec.ofNat 32 (modeCode .checkFlags) ∧
      h.st.toArch.Interrupted ∧ ¬h.st.toArch.Broken ∧ d.Halts)) = true := by decide
  obtain ⟨⟨h, d⟩, hl, hfacts⟩ := (Option.any_eq_true _ _).1 hleaves
  obtain ⟨hmode, hirq, hbroken, hd⟩ := of_decide_eq_true hfacts
  obtain ⟨t, hret⟩ := cycling_returned rfl (by decide) (by decide) hl
  have hout := hret.step nofun (.finish (m := .checkFlags) (by decide) hmode)
  rw [Plugin.watch_returned (by rw [hmode]; decide), if_pos ⟨rfl, hirq⟩, if_neg (by decide)] at hout
  exact ⟨_, _, hout, rfl, hd, fun hst => Arch.not_halted_endCycles id hbroken hirq (hst.1 hd)⟩

/-- A program that executes `BREAK`. -/
theorem stays_halted_iff_break : ∃ s :
    Plugin smallTarget, Plugin.Cycling smallEnv (Single firstWords) s .broke ∧
    s.stage = .outside ∧ StaysHalted id .broke s.host.st.toArch := by
  have hleaves : ((leaves firstRegion firstWords).any fun (h, d) =>
      decide (h.result = BitVec.ofNat 32 (modeCode .break))) = true := by decide
  obtain ⟨⟨h, d⟩, hl, hfacts⟩ := (Option.any_eq_true _ _).1 hleaves
  have hmode := of_decide_eq_true hfacts
  obtain ⟨t, hret⟩ := cycling_returned rfl (by decide) (by decide) hl
  have hbroke := hret.step nofun (.finish (m := .break) (by decide) hmode)
  rw [if_neg (fun hn : ReturnMode.break = .checkFlags ∧ _ =>
    ReturnMode.noConfusion hn.1), if_pos rfl,
    Plugin.watch_break hmode] at hbroke
  have hout := hbroke.step nofun (.done h.st.toArch.halted_breakStatus)
  exact ⟨_, hout, rfl, (stays_halted_iff id hout rfl).2 id⟩

end Jit

end ParallelRsp
