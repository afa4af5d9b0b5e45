import ParallelRsp.Jit.RegionTargets

/-!
# One round of a region

What the code of one instruction and of what follows it does, from any contents of the
register cache. `Behind` distinguishes the ways it can end: control passes to the next
instruction, a branch is performed, or the branch that the region has inherited is.
-/

namespace ParallelRsp.Jit

open Codegen

variable {T : Target} {E : Env T} {c c' : RegisterCache T} {h h' : Host T} {v v' : View T}

/-! ### Caches that code can be generated from -/

/-- The host read as if nothing were in the cache. -/
def Host.view (h : Host T) : View T where
  arch := h.st.toArch
  cond := h.st.sr condBranchTaken
  control := h.control

/-- Some host represents some state, and nothing is locked. -/
def Usable (c : RegisterCache T) : Prop := ∃ (h : Host T) (v : View T), Ready c h v

theorem Clean.rep (hC : Clean c) (h : Host T) : Rep c h h.view where
  distinct i _ hil := absurd hil (hC i)
  entry i hil := absurd hil (hC i)
  memory r _ _ := by
    rw [View.mem]
    split
    · rename_i hr
      rw [hr]
      rfl
    · rfl
  rest := rfl
  control := rfl

theorem Empty.usable (he : Empty c) : Usable c := ⟨Host.zero, _, he.clean.rep _, he.locked⟩

theorem Ready.usable (hS : Ready c h v) : Usable c := ⟨h, v, hS⟩

/-- The cache after `reset`. -/
theorem empty_default : Empty ({} : RegisterCache T) :=
  ⟨fun _ => Bool.false_ne_true, fun _ => rfl, fun _ hk => absurd hk List.not_mem_nil⟩

/-! ### Behind an instruction -/

/-- The branch condition after the branch before has been dealt with. -/
def View.resolved (v : View T) (last : InstructionInfo) :
    View T := if last.branch then v.setCond 0#32 else v

/-- What follows instruction `i`, which left the state `v'`. -/
def Behind (R : Region) (i : ℕ) (last : InstructionInfo) (v' : View T) (c' : RegisterCache T)
    (o : Outcome Label Exit (Host T)) : Prop :=
  if i = 0 then
    Empty c' ∧ ∃ h', Rep c' h' v' ∧
      o = if v'.control.hasDelaySlot = 0#32 then .fall h' else .goto .latent h'
  else
    match pendingTarget last v' with
    | none => ∃ h', Ready c' h' (v'.resolved last) ∧ o = .fall h'
    | some t => Empty c' ∧ ∃ h', Rep c' h' (v'.setCond 0#32) ∧
      match R.localLabel last with
      | some l => o = .goto l h'
      | none => o = .leave .enterThunk h' ∧ low (h'.regs registerNextPc) = t

theorem wp_handleDelaySlot (R : Region) {i : ℕ} {info last : InstructionInfo} (hS : Ready c h v)
    (hm : ¬info.handlesDelaySlot) (hno : ¬(info.branch ∧ last.branch)) :
    wp (lightning E) (R.handleDelaySlot i info last) (fun _ c' o => Usable c' ∧
      Behind R i last v c' o) c h := by
  rw [Region.handleDelaySlot]
  by_cases hi : i = 0
  · rw [if_pos ⟨hi, hm⟩]
    refine (wp_jitCheckDelaySlot hS).mono ?_
    rintro _ c₁ o ⟨he, h₁, hR₁, ho⟩
    refine ⟨he.usable, ?_⟩
    rw [Behind, if_pos hi]
    exact ⟨he, h₁, hR₁, ho⟩
  · rw [if_neg fun hn => hi hn.1, if_neg hno]
    by_cases hb : last.branch
    · rw [if_pos ⟨hm, hb⟩]
      refine (wp_jitHandleDelaySlot hS R hb).mono ?_
      rintro _ c₁ o ⟨he, h₁, hR₁, ho⟩
      refine ⟨he.usable, ?_⟩
      rw [Behind, if_neg hi]
      cases hp : pendingTarget last v with
      | none =>
        rw [hp] at ho
        refine ⟨h₁, ?_, ho⟩
        rw [View.resolved, if_pos hb]
        exact he.ready hR₁
      | some t =>
        rw [hp] at ho
        exact ⟨he, h₁, hR₁, ho⟩
    · rw [if_neg fun hn => hb hn.2]
      refine ⟨(), .nil, c, rfl, trivial, hS.usable, ?_⟩
      rw [Behind, if_neg hi, pendingTarget_of_not_taken fun hn => absurd hn hb]
      refine ⟨h, ?_, rfl⟩
      rw [View.resolved, if_neg hb]
      exact hS

/-- Code is generated also behind an instruction that leaves. -/
theorem emits_handleDelaySlot (R : Region) {i : ℕ} {info last : InstructionInfo} (hU : Usable c)
    (hno : ¬(info.branch ∧ last.branch)) :
    emits (R.handleDelaySlot i info last) c fun _ c' => Usable c' := by
  obtain ⟨h, v, hS⟩ := hU
  let E : Env T :=
    { build := .sse2, rdp := fun cp0 _ rdram => (cp0, rdram), clobber := fun _ _ => 0#_,
      stray := fun _ h => h }
  rw [Region.handleDelaySlot, if_neg hno]
  split
  · exact (wp_jitCheckDelaySlot (E := E) hS).emits fun _ _ _ hp => hp.1.usable
  · split
    · rename_i hb
      exact (wp_jitHandleDelaySlot (E := E) hS R hb.2).emits fun _ _ _ hp => hp.1.usable
    · exact ⟨(), .nil, c, rfl, trivial, h, v, hS⟩

/-! ### The round -/

/-- The state with an instruction recorded. -/
def View.record (v : View T) (pc instr : Word) : View T :=
  { v with control := { v.control with log := (pc, instr) :: v.control.log } }

theorem Ready.record (hS : Ready c h v) (pc instr : Word) :
    Ready c ((lightning E).step (.trace pc instr) h) (v.record pc instr) := by
  refine ⟨hS.rep.setControl ?_ (fun _ => rfl) rfl, hS.locked⟩
  rw [← hS.rep.control]
  rfl

/-- How the code of a round ends. -/
inductive BodyPost (E : Env T) (R : Region) (i : ℕ) (last : InstructionInfo)
    (v : View T) (c' : RegisterCache T)
    (o : Outcome Label Exit (Host T)) : Prop where
  /-- The instruction leaves. -/
  | exit (h' : Host T) (ho : o = .leave .returnThunk h')
      (hm : (Mips.exec E.toHelpers (R.pc i) (R.instr i) v.arch).2 ≠ .continue)
      (hmode : h'.regs registerMode =
        BitVec.ofNat _ (modeCode (Mips.exec E.toHelpers (R.pc i) (R.instr i) v.arch).2))
      (hnext : low (h'.regs registerNextPc) =
        (slotTarget last (decide (i = 0)) v).getD (followingPc (R.pc i)))
      (hR : ∃ c', Clean c' ∧ Rep c' h' (View.settle { v.record (R.pc i) (R.word i) with
        arch := (Mips.exec E.toHelpers (R.pc i) (R.instr i) v.arch).1 } (decide (i = 0))))
  /-- Control goes on. -/
  | go (v' : View T) (hm : (Mips.exec E.toHelpers (R.pc i) (R.instr i) v.arch).2 = .continue)
      (hx : Executed E.toHelpers (R.pc i) (R.instr i) last
        (R.nextIsTarget i) (v.record (R.pc i) (R.word i)) v')
      (hb : Behind R i last v' c' o)

theorem handlesDelaySlot_mode {H : Helpers} {pc : Word} {i : Instr} {nextIsTarget : Bool} {a : Arch}
    (hm : (Mips.exec H pc i a).2 = .continue) :
    ¬(instructionInfo pc i nextIsTarget).handlesDelaySlot := by
  cases i with
  | «break» => cases hm
  | bgtz rs instr =>
    rw [instructionInfo]
    split <;> exact Bool.false_ne_true
  | _ => exact Bool.false_ne_true

/-- An instruction, in a region without branches in delay slots of branches. -/
theorem wp_body (R : Region) {i : ℕ} {last : InstructionInfo} (hS : Ready c h v)
    (hno : ¬((R.info i).branch ∧ last.branch)) (hserves : E.Serves (R.instr i) v.arch) :
    wp (lightning E) (R.body i last) (fun info c' o => info = R.info i ∧
      Usable c' ∧ BodyPost E R i last v c' o) c h := by
  refine wp_bind (falls_op ?_)
  have hS₁ := hS.record (E := E) (R.pc i) (R.word i)
  refine wp_bind_outcome
    ((wp_jitInstruction hS₁ (R.pc i) (R.instr i) last (decide (i = 0)) (R.nextIsTarget i)
      hserves).mono ?_)
  rintro info c₁ o ⟨rfl, ho⟩
  cases o with
  | fall h₁ =>
    obtain ⟨hm, v₁, hS₂, hx⟩ := ho
    refine wp_bind_outcome ((wp_handleDelaySlot R hS₂ (handlesDelaySlot_mode hm) hno).mono ?_)
    rintro _ c₂ o ⟨hU, hb⟩
    cases o <;> exact ⟨_, .nil, c₂, rfl, trivial, rfl, hU, .go v₁ hm hx hb⟩
  | goto l h₁ => exact ho.elim
  | leave x h₁ =>
    cases x with
    | enterThunk => exact ho.elim
    | returnThunk =>
      obtain ⟨hm, hC, hL, hmode, hnext, hR⟩ := ho
      refine emits_bind ?_
      obtain ⟨_, k, c₂, hk, hl, hU⟩ := emits_handleDelaySlot R (i := i) (Empty.usable ⟨hC, hL⟩) hno
      exact ⟨(), k, c₂, hk, hl, _, .nil, c₂, rfl, trivial,
        rfl, hU, .exit h₁ rfl hm hmode hnext ⟨c₁, hC, hR⟩⟩

end ParallelRsp.Jit
