import ParallelRsp.Jit.BranchRules
import ParallelRsp.Jit.EmittedCode

/-!
# From a call to the return thunk

Where a run of a region's code is, seen from its calls of `RSP_MTC0`. Before the first call,
and behind one that returned `MODE_CONTINUE`, something may be assumed of the host (`calm`). A
call may break it, if it returns `MODE_CHECK_FLAGS` then; and from there on the code does
nothing but leave through the return thunk with that mode (`Waits.step`, `Waits.quiet`).
-/

namespace ParallelRsp.Jit

open Codegen

variable {T : Target} {E : Env T} {h : Host T} {calm calm' : Prop}
  {code : HostCode T} {ks : List (HostCode T)}
  {c : Config (Op T) (Cond T) Label Exit (Host T)}

/-- What is assumed holds, or the value is `MODE_CHECK_FLAGS`. -/
def Tells (calm : Prop) (x : BitVec T.wordSize) : Prop :=
  calm ∨ x = BitVec.ofNat _ (modeCode .checkFlags)

/-- What is left of a region's code, and what may be assumed there. -/
inductive Waits (calm : Prop) (h : Host T) : List (HostCode T) → Prop where
  /-- In front of instructions. -/
  | plain {ks : List (HostCode T)} (hks : ∀ k ∈ ks, Guarded k) (h0 : calm) : Waits calm h ks
  /-- In front of a call. -/
  | call {rt rd : Fin 32} {x : HostCode T} {ks : List (HostCode T)} (hx : ∀ ks, ExitPath (x :: ks))
    (hks : ∀ k ∈ ks, Guarded k) (h0 : calm) :
    Waits calm h (.op (.call (.mtc0 rt rd)) :: lookAtMode x :: ks)
  /-- Behind it. -/
  | called {x : HostCode T} {ks : List (HostCode T)} (hx : ∀ ks, ExitPath (x :: ks))
      (hks : ∀ k ∈ ks, Guarded k)
    (ht : Tells calm h.ret) : Waits calm h (lookAtMode x :: ks)
  /-- In front of the read of its result. -/
  | retval {x : HostCode T} {ks : List (HostCode T)} (hx : ∀ ks, ExitPath (x :: ks))
      (hks : ∀ k ∈ ks, Guarded k)
    (ht : Tells calm h.ret) :
    Waits calm h (.op (.retval registerMode) ::
      .ite (.eqi registerMode (BitVec.ofNat _ (modeCode .continue))) .nil x :: ks)
  /-- In front of the branch. -/
  | decide {x : HostCode T} {ks : List (HostCode T)} (hx : ∀ ks, ExitPath (x :: ks))
      (hks : ∀ k ∈ ks, Guarded k)
    (ht : Tells calm (h.regs registerMode)) :
    Waits calm h (.ite (.eqi registerMode (BitVec.ofNat _ (modeCode .continue))) .nil x :: ks)
  /-- On the way out. -/
  | exit {ks : List (HostCode T)} (hks : ExitPath ks) (ht : Tells calm (h.regs registerMode)) :
      Waits calm h ks

/-- What holds where a step of a region's code ends. -/
def Ends (calm : Prop) : Config (Op T) (Cond T) Label Exit (Host T) → Prop
  | .at ks h => Waits calm h ks
  | .out .enterThunk _ => calm
  | .out .returnThunk h => Tells calm (h.regs registerMode)

/-- The next instruction is a call of `RSP_MTC0`. -/
def isCall : List (HostCode T) → Bool
  | .op (.call (.mtc0 _ _)) :: _ => true
  | _ => false

theorem isCall_false (hks : ∀ rt rd ks', ks ≠ .op (.call (.mtc0 rt rd)) :: ks') :
    isCall ks = false := by
  unfold isCall
  split
  · exact absurd rfl (hks _ _ _)
  · rfl

theorem Op.Quiet.plain {i : Op T} (hi : i.Quiet) : i.Plain := by
  cases i with
  | movi | movr | ldSr | ldField | stField => trivial
  | _ => exact hi.elim

theorem Op.Quiet.regs {i : Op T} (hi : i.Quiet) (h : Host T) :
    (stepOp E i h).regs registerMode = h.regs registerMode := by
  cases i with
  | movi d x | movr d a | ldSr s d r | ldField d f => exact Function.update_of_ne (Ne.symm hi) _ _
  | stField f a => cases f <;> rfl
  | _ => exact hi.elim

theorem Op.Quiet.arch {i : Op T} (hi : i.Quiet) (h : Host T) :
    (stepOp E i h).st.toArch = h.st.toArch := by
  cases i with
  | movi | movr | ldSr | ldField => rfl
  | stField f a => cases f <;> rfl
  | _ => exact hi.elim

theorem Guarded.of_op {i : Op T} (hk : Guarded (.op i)) : i.Plain := by
  cases hk with
  | plain hk => exact hk

/-- A step in front of instructions. -/
theorem Waits.step_plain (hw : Guarded code) (hks : ∀ k ∈ ks, Guarded k) (h0 : calm')
    (hs : Codegen.Step (lightning E) code (.at ks h) c) : Ends calm' c := by
  cases hs with
  | nil | label | brFall | op => exact .plain (List.forall_mem_cons.1 hks).2 h0
  | seq =>
    obtain ⟨hk, hrest⟩ := List.forall_mem_cons.1 hks
    cases hk with
    | plain hk =>
      exact .plain (List.forall_mem_cons.2 ⟨.plain hk.1,
        List.forall_mem_cons.2 ⟨.plain hk.2, hrest⟩⟩) h0
    | seq ha hb => exact .plain (List.forall_mem_cons.2 ⟨ha, List.forall_mem_cons.2 ⟨hb, hrest⟩⟩) h0
    | call hx he => exact .call he hrest h0
  | iteTrue =>
    obtain ⟨hk, hks⟩ := List.forall_mem_cons.1 hks
    cases hk with
    | plain hk => exact .plain (List.forall_mem_cons.2 ⟨.plain hk.1, hks⟩) h0
  | iteFalse =>
    obtain ⟨hk, hks⟩ := List.forall_mem_cons.1 hks
    cases hk with
    | plain hk => exact .plain (List.forall_mem_cons.2 ⟨.plain hk.2, hks⟩) h0
  | brTaken _ hl | jmp hl => exact .plain (List.forall_mem_singleton.2 (hw.atLabel hl)) h0
  | @leave x =>
    cases x with
    | enterThunk => exact h0
    | returnThunk => exact .inl h0

/-- A step on the way out. -/
theorem Waits.step_exit (hks : ExitPath ks) (ht : Tells calm' (h.regs registerMode))
    (hs : Codegen.Step (lightning E) code (.at ks h) c) : Ends calm' c := by
  cases hks with
  | leave =>
    cases hs with
    | leave => exact ht
  | nil hks =>
    cases hs with
    | nil => exact .exit hks ht
  | @op i ks hi hks =>
    cases hs with
    | op =>
      refine .exit hks ?_
      rw [Tells, lightning_step, hi.regs]
      exact ht
  | seq hks =>
    cases hs with
    | seq => exact .exit hks ht
  | ite ha hb =>
    cases hs with
    | iteTrue => exact .exit ha ht
    | iteFalse => exact .exit hb ht

theorem exists_of_isCall (h : isCall ks = true) :
    ∃ rt rd ks', ks = .op (.call (.mtc0 rt rd)) :: ks' := by
  unfold isCall at h
  split at h
  · exact ⟨_, _, _, rfl⟩
  · cases h

/-- No instruction is a call where the code is on its way out. -/
theorem ExitPath.isCall (hks : ExitPath ks) : isCall ks = false := by
  refine isCall_false ?_
  rintro rt rd ks' rfl
  cases hks with
  | op hi => exact hi

theorem isCall_guarded (hks : ∀ k ∈ ks, Guarded k) : isCall ks = false := by
  refine isCall_false ?_
  rintro rt rd ks' rfl
  exact (hks _ List.mem_cons_self).of_op

/-- **One step** of a region's code: what is assumed is kept by everything but a call, and when
a call breaks it the code is on its way to the return thunk. -/
theorem Waits.step (hw : Guarded code) (hp : Waits calm h ks)
    (hs : Codegen.Step (lightning E) code (.at ks h) c)
    (hkeep : isCall ks = false → calm → calm') (hcall : isCall ks = true →
      calm → Tells calm' c.state.ret) : Ends calm' c := by
  cases hp with
  | plain hks h0 => exact Waits.step_plain hw hks (hkeep (isCall_guarded hks) h0) hs
  | call hx hks h0 =>
    cases hs with
    | op => exact .called hx hks (hcall rfl h0)
  | called hx hks ht =>
    rw [lookAtMode] at hs
    cases hs with
    | seq => exact .retval hx hks (ht.imp_left (hkeep rfl))
  | retval hx hks ht =>
    cases hs with
    | op =>
      have hmode : (h.set registerMode h.ret).regs registerMode = h.ret :=
        h.set_regs_self registerMode h.ret
      exact .decide hx hks ((ht.imp_left (hkeep rfl)).imp_right hmode.trans)
  | decide hx hks ht =>
    cases hs with
    | iteTrue hc =>
      have hmode : h.regs registerMode = BitVec.ofNat _ (modeCode .continue) := eq_of_beq hc
      refine .plain (List.forall_mem_cons.2 ⟨.plain trivial, hks⟩)
        (hkeep rfl (ht.resolve_right fun hm => ?_))
      have hne := ofNat_modeCode_eq (hmode.symm.trans hm)
      cases hne
    | iteFalse => exact .exit (hx _) (ht.imp_left (hkeep rfl))
  | exit hks ht => exact Waits.step_exit hks (ht.imp_left (hkeep hks.isCall)) hs

/-- Where what is assumed does not hold, nothing is written but the control words. -/
theorem Waits.quiet (hp : Waits calm h ks) (hno : ¬calm)
    (hs : Codegen.Step (lightning E) code (.at ks h) c) :
    c.state.st.toArch = h.st.toArch ∧ isCall ks = false := by
  cases hp with
  | plain _ h0 | call _ _ h0 => exact absurd h0 hno
  | called =>
    rw [lookAtMode] at hs ⊢
    cases hs with
    | seq => exact ⟨rfl, rfl⟩
  | retval =>
    cases hs with
    | op => exact ⟨rfl, rfl⟩
  | decide =>
    cases hs with
    | iteTrue | iteFalse => exact ⟨rfl, rfl⟩
  | exit hks =>
    refine ⟨?_, hks.isCall⟩
    cases hks with
    | leave =>
      cases hs with
      | leave => rfl
    | nil =>
      cases hs with
      | nil => rfl
    | op hi =>
      cases hs with
      | op => exact hi.arch h
    | seq =>
      cases hs with
      | seq => rfl
    | ite =>
      cases hs with
      | iteTrue | iteFalse => rfl

end ParallelRsp.Jit
