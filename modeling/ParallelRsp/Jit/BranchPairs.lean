import ParallelRsp.Jit.Boundaries

/-!
# A branch in the delay slot of a branch

Two branches in a row, `A` and `B`. When both are taken, the machine executes one instruction at
the target of `A` and goes on at the target of `B`. In the code of one region this is what
`jit_handle_impossible_delay_slot` is for; when a region ends between the two, `jit_end_of_block`
hands `A` over and `jit_handle_latent_delay_slot` performs it.

The second path does what the machine does. The first one clears the saved condition of `A`
through a scratch register when `A` has a condition; when it has none, the register it clears
is the one with the condition of `B`, and `B` is lost.
-/

namespace ParallelRsp.Jit

open Codegen

variable {T : Target} {E : Env T} {R : Region} {c c' : RegisterCache T} {h h' : Host T}
  {v v' : View T} {m : Mips.State} {i : ℕ} {info last : InstructionInfo} {k : HostCode T}

/-! ### Branches of every form -/

/-- A branch of any form. `BGTZ $0`, which is never taken, is compiled as no branch. -/
def Branches (i : Instr) : Prop := i.isBranch ∨ ∃ w, i = .bgtz 0 w

theorem Branches.mode {x : Instr} (hb : Branches x) (H : Helpers) (pc : Word) (a : Arch) :
    (Mips.exec H pc x a).2 = .continue := by
  rcases hb with hb | ⟨w, rfl⟩
  · cases x with
    | jr _ | jalr _ _ | j _ | jal _ | regimm _ _ _ _ | beq _ _ _ | bne _ _ _ | blez _ _
    | bgtz _ _ => rfl
    | _ => cases hb
  · rfl

/-- A branch calls no `rsp_unaligned_*`. -/
theorem Branches.serves {x : Instr} (hb : Branches x) (E : Env T) (a : Arch) : E.Serves x a := by
  refine .inr ?_
  rcases hb with hb | ⟨w, rfl⟩
  · cases x with
    | jr _ | jalr _ _ | j _ | jal _ | regimm _ _ _ _ | beq _ _ _ | bne _ _ _ | blez _ _
    | bgtz _ _ => exact id
    | _ => cases hb
  · exact id

/-! ### In front of an instruction -/

/-- The host is in front of the code `k` of instruction `i` and of those behind it, generated from
some contents of the register cache, and the machine is in front of that instruction. The branch in
whose delay slot it is, if any, is the one that compiled code would perform. -/
def Front (R : Region) (i : ℕ) (k : HostCode T) (h : Host T) (m : Mips.State) : Prop :=
  ∃ c v first c', R.rounds (List.range' i (R.count - i)) (R.lastInfo i) first c =
    some ((), k, c') ∧ Ready c h v ∧
    Meets R i v m ∧ m.pending.map Mips.Branch.target = slotTarget (R.lastInfo i) (decide (i = 0)) v

/-- The start of a region is in front of its first instruction. -/
theorem Enters.front {code : HostCode T} (hm : Enters R h m) (hc : jitRegion R = some code) :
    ∃ k, exec (lightning E) code h = exec (lightning E) k h ∧ Front R 0 k h m := by
  obtain ⟨k, c', hk, rfl⟩ := jitRegion_rounds hc
  exact ⟨k, rfl, {}, ⟨m.arch, h.st.sr condBranchTaken, h.control⟩, none, c', hk,
    empty_default.ready (hm.agree.rep empty_default.clean), hm.meets, hm.pending⟩

/-- The code of an instruction, with what follows it. -/
theorem Front.pieces (hF : Front R i k h m) (hi : i < R.count) :
    ∃ c h' v k₁ c' k₂, exec (lightning E) k h = exec (lightning E) (.seq k₁ k₂) h' ∧
      Ready c h' v ∧ Meets R i v m ∧
      m.pending.map Mips.Branch.target = slotTarget (R.lastInfo i) (decide (i = 0)) v ∧
      R.body i (R.lastInfo i) c = some (R.info i, k₁, c') ∧
      ∃ first c'', R.rounds (List.range' (i + 1) (R.count - (i + 1)))
        (R.lastInfo (i + 1)) first c' = some ((), k₂, c'') := by
  obtain ⟨c, v, first, c'', hk, hS, hM, hp⟩ := hF
  obtain ⟨n, hn⟩ : ∃ n, R.count - i = n + 1 := ⟨R.count - i - 1, by omega⟩
  rw [hn, List.range'_succ] at hk
  obtain ⟨info, k₁, c₁, k₂, hround, hrest, rfl⟩ := Emit.bind_eq_some hk
  obtain ⟨ka, ca, kb, rfl, hbody, rfl, -, -, -, hfall, -⟩ := round_pieces (E := E) hround hS.usable
  obtain ⟨h₁, hx, hS₁⟩ := hfall hS
  have hn' : R.count - (i + 1) = n := by omega
  rw [← hn', ← lastInfo_succ] at hrest
  refine ⟨ca, h₁, v, kb, c₁, k₂, ?_, hS₁, hM, hp, hbody, _, c'', hrest⟩
  rw [exec, exec, hx]
  rfl

/-- Behind the last instruction the region is left. -/
theorem Front.end (hF : Front R R.count k h m) :
    ∃ h', exec (lightning E) k h = .leave .enterThunk h' ∧ Left h' m := by
  obtain ⟨c, v, first, c', hk, hS, hM, -⟩ := hF
  rw [Nat.sub_self] at hk
  exact hM.end hS hk

/-! ### Without a pending branch -/

theorem pendingTarget_resolved (hno : ¬(info.branch ∧ last.branch)) :
    pendingTarget info (v.resolved last) = pendingTarget info v := by
  rw [View.resolved]
  split
  · rename_i hl
    rw [pendingTarget_not_branch fun hb => hno ⟨hb, hl⟩,
      pendingTarget_not_branch fun hb => hno ⟨hb, hl⟩]
  · rfl

/-- The branch that the machine takes is the one that compiled code has in its registers. -/
theorem Meets.pending_step {H : Helpers} (hM : Meets R i v m) (hi : i < R.count)
    (hx : Executed H (R.pc i) (R.instr i) (R.lastInfo i)
      (R.nextIsTarget i) (v.record (R.pc i) (R.word i)) v') :
    (Mips.step H m).pending.map Mips.Branch.target = pendingTarget (R.info i) v' := by
  have hpend : pendingTarget (R.info i) v' = _ := hx.pending
  rw [hpend, hM.step_pending hi, Option.map_map]
  exact Option.map_id'

/-- Nothing is inherited when nothing is pending. -/
theorem Meets.idle (hM : Meets R i v m) (hp : slotTarget (R.lastInfo i) (decide (i = 0)) v = none) :
    v.control.hasDelaySlot = 0#32 := by
  by_cases h0 : i = 0
  · rw [slotTarget, if_pos (decide_eq_true h0), inheritedTarget] at hp
    by_contra hn
    rw [if_neg hn] at hp
    cases hp
  · exact hM.settled (Nat.pos_of_ne_zero h0)

/-- What control passes behind an instruction: the machine goes to the next one. -/
theorem Meets.behind {H : Helpers} {w : View T} (hM : Meets R i v m)
    (hi : i < R.count) (hm : m.mode H = .continue) (hp : m.pending = none)
    (hx : Executed H (R.pc i) (R.instr i) (R.lastInfo i)
      (R.nextIsTarget i) (v.record (R.pc i) (R.word i)) v')
    (harch : w.arch = v'.arch) (hlog : w.control.log = v'.control.log)
    (hds : w.control.hasDelaySlot = 0#32)
    (hpend : pendingTarget (R.info i) w = pendingTarget (R.info i) v') :
    Meets R (i + 1) w (Mips.step H m) ∧
      (Mips.step H m).pending.map Mips.Branch.target =
        slotTarget (R.lastInfo (i + 1)) (decide (i + 1 = 0)) w := by
  constructor
  · refine hM.succ hi hm hp (harch.trans hx.arch) ?_ hds (hpend.trans hx.pending)
    rw [hlog, hx.control]
    rfl
  · rw [lastInfo_succ, slotTarget, if_neg fun hn =>
      Nat.succ_ne_zero i (of_decide_eq_true hn), hpend]
    exact hM.pending_step hi hx

/-- A branch behind a branch, when nothing or something is pending. -/
theorem wp_body_pair (R : Region) {i : ℕ} {last : InstructionInfo} (hS : Ready c h v) (h0 : i ≠ 0)
    (hb : (R.info i).branch) (hl : last.branch) :
    wp (lightning E) (R.body i last) (fun info c' o => info = R.info i ∧ ∃ v',
      Executed E.toHelpers (R.pc i) (R.instr i) last (R.nextIsTarget i)
        (v.record (R.pc i) (R.word i)) v' ∧
      match pendingTarget last v with
      | none => ∃ h' frame, o = .fall h' ∧ Ready c' h' (v'.setFrame frame)
      | some t => ∃ h', o = .leave .enterThunk h' ∧ HandsOver h' v' t (illegalSlot info last v') ∧
          Flagged info v' h') c h := by
  refine wp_bind (falls_op ?_)
  have hS₁ := hS.record (E := E) (R.pc i) (R.word i)
  have hbranch : Branches (R.instr i) := .inl (by rwa [← R.info_branch])
  refine wp_bind_outcome
    ((wp_jitInstruction hS₁ (R.pc i) (R.instr i) last (decide (i = 0)) (R.nextIsTarget i)
      (hbranch.serves E _)).mono ?_)
  rintro info c₁ o ⟨rfl, ho⟩
  cases o with
  | fall h₁ =>
    obtain ⟨hm, v₁, hS₂, hx⟩ := ho
    have hhandle : (R.handleDelaySlot i (R.info i) last : Gen T Unit) =
        jitHandleImpossibleDelaySlot (R.info i) last := by
      rw [Region.handleDelaySlot, if_neg fun hn => h0 hn.1, if_pos ⟨hb, hl⟩]
    refine wp_bind_outcome ?_
    rw [show instructionInfo (R.pc i) (R.instr i) (R.nextIsTarget i) = R.info i from rfl, hhandle]
    refine (wp_jitHandleImpossibleDelaySlot hS₂ hb hl (hx.saved hb)).mono ?_
    rintro _ c₂ o ⟨he, h₂, ho⟩
    have hpend : pendingTarget last (v.record (R.pc i) (R.word i)) = pendingTarget last v := rfl
    rw [hpend] at ho
    cases hp : pendingTarget last v with
    | none =>
      rw [hp] at ho
      obtain ⟨rfl, frame, hR⟩ := ho
      exact ⟨_, .nil, c₂, rfl, trivial, rfl, v₁, hx, h₂, frame, rfl, he.ready hR⟩
    | some t =>
      rw [hp] at ho
      obtain ⟨rfl, hh, hf⟩ := ho
      exact ⟨_, .nil, c₂, rfl, trivial, rfl, v₁, hx, h₂, rfl, hh, hf⟩
  | goto l h₁ => exact ho.elim
  | leave x h₁ =>
    cases x with
    | enterThunk => exact ho.elim
    | returnThunk => exact absurd (hbranch.mode _ _ _) ho.1

/-- With no branch pending, control passes from a branch to the next instruction. -/
theorem Front.step (hF : Front R i k h m) (hi : i < R.count)
    (hb : Branches m.instr) (hp : m.pending = none) :
    ∃ k' h', exec (lightning E) k h = exec (lightning E) k' h' ∧
      Front R (i + 1) k' h' (Mips.step E.toHelpers m) := by
  obtain ⟨c, h₁, v, k₁, c', k₂, hx, hS, hM, hslot, hbody, first, c'', hrest⟩ :=
    hF.pieces (E := E) hi
  have hm : m.mode E.toHelpers = .continue := hb.mode _ _ _
  rw [hM.instr_eq hi] at hb
  rw [hp, Option.map_none] at hslot
  -- it is enough that the code of the instruction ends behind it
  suffices hpass : ∃ h₂ v₁ w, exec (lightning E) k₁ h₁ = .fall h₂ ∧ Ready c' h₂ w ∧
      Executed E.toHelpers (R.pc i) (R.instr i) (R.lastInfo i)
        (R.nextIsTarget i) (v.record (R.pc i) (R.word i)) v₁ ∧
      w.arch = v₁.arch ∧ w.control.log = v₁.control.log ∧ w.control.hasDelaySlot = 0#32 ∧
      pendingTarget (R.info i) w = pendingTarget (R.info i) v₁ by
    obtain ⟨h₂, v₁, w, hx₂, hS₂, hex, harch, hlog, hds, hpend⟩ := hpass
    obtain ⟨hM₂, hslot₂⟩ := hM.behind hi hm hp hex harch hlog hds hpend
    refine ⟨k₂, h₂, ?_, c', w, first, c'', hrest, hS₂, hM₂, hslot₂⟩
    rw [hx, exec, hx₂]
    rfl
  have hds {v₁ : View T}
      (hex : Executed E.toHelpers (R.pc i) (R.instr i) (R.lastInfo i) (R.nextIsTarget i)
      (v.record (R.pc i) (R.word i)) v₁) : v₁.control.hasDelaySlot = 0#32 :=
    (congrArg Control.hasDelaySlot hex.control).trans (hM.idle hslot.symm)
  by_cases hpair : (R.info i).branch ∧ (R.lastInfo i).branch
  · have h0 : i ≠ 0 := by
      rintro rfl
      exact Bool.false_ne_true hpair.2
    obtain ⟨_, _, _, hwp, -, -, v₁, hex, hpost⟩ := wp_body_pair (E := E) R hS h0 hpair.1 hpair.2
    cases hbody.symm.trans hwp
    rw [slotTarget, if_neg fun hn => h0 (of_decide_eq_true hn)] at hslot
    rw [← hslot] at hpost
    obtain ⟨h₂, frame, hx₂, hS₂⟩ := hpost
    exact ⟨h₂, v₁, v₁.setFrame frame, hx₂, hS₂, hex, rfl, rfl, (hds hex :), rfl⟩
  · obtain ⟨_, _, _, hwp, -, -, -, hpost⟩ := wp_body (E := E) R hS hpair (hb.serves E _)
    cases hbody.symm.trans hwp
    cases hpost with
    | exit h' ho hn _ _ _ => exact absurd (hb.mode _ _ _) hn
    | go v₁ _ hex hbehind =>
      rw [Behind] at hbehind
      by_cases h0 : i = 0
      · rw [if_pos h0] at hbehind
        obtain ⟨he, h₂, hR₂, hx₂⟩ := hbehind
        rw [if_pos (hds hex)] at hx₂
        exact ⟨h₂, v₁, v₁, hx₂, he.ready hR₂, hex, rfl, rfl, hds hex, rfl⟩
      · rw [slotTarget, if_neg fun hn => h0 (of_decide_eq_true hn)] at hslot
        have hlast : pendingTarget (R.lastInfo i) v₁ = none :=
          (hex.pendingTarget_last hpair).trans hslot.symm
        rw [if_neg h0, hlast] at hbehind
        obtain ⟨h₂, hS₂, hx₂⟩ := hbehind
        have hsame : (v₁.resolved (R.lastInfo i)).arch = v₁.arch ∧
            (v₁.resolved (R.lastInfo i)).control = v₁.control := by
          rw [View.resolved]
          split <;> exact ⟨rfl, rfl⟩
        exact ⟨h₂, v₁, _, hx₂, hS₂, hex, hsame.1, by rw [hsame.2], by rw [hsame.2]; exact hds hex,
          pendingTarget_resolved hpair⟩

/-! ### With a pending branch -/

/-- The host goes where the machine is, with `has_delay_slot` one if a branch
is pending there, else zero. -/
structure Goes (h : Host T) (m : Mips.State) : Prop where
  /-- Registers, memories, instructions, the address and the branch. -/
  left : Left h m
  /-- The flag. -/
  flag : h.st.hasDelaySlot = Mips.ofBool m.pending.isSome

theorem Left.goes (hl : Left h m) (hf : h.st.hasDelaySlot = 0#32 ∨ h.st.hasDelaySlot = 1#32) :
    Goes h m := by
  refine ⟨hl, ?_⟩
  have hp := hl.pending
  rw [Host.inherited] at hp
  rcases hf with hf | hf
  · rw [if_pos hf] at hp
    rw [Option.map_eq_none_iff.1 hp, hf]
    rfl
  · rw [if_neg (by rw [hf]; decide)] at hp
    obtain ⟨b, hb, -⟩ := Option.map_eq_some_iff.1 hp
    rw [hb, hf]
    rfl

/-- Nothing is handed over when nothing is pending. -/
theorem Left.goes_of_none (hl : Left h m) (hp : m.pending = none) : Goes h m := by
  refine hl.goes (.inl ?_)
  have hn := hl.pending
  rw [hp, Option.map_none, Host.inherited] at hn
  by_contra h0
  rw [if_neg h0] at hn
  cases hn

/-- Control goes where the machine is, through the entry thunk or, with nothing
pending, to a label of the region. -/
def Arrives (R : Region) (m : Mips.State) : Outcome Label Exit (Host T) → Prop
  | .leave .enterThunk h' => Goes h' m
  | .goto (.instr j) h' =>
      Agree h' m ∧ SamePc m.pc (R.pc j) ∧ m.pending = none ∧ h'.st.hasDelaySlot = 0#32
  | _ => False

theorem Lands.arrives {j : ℕ} (hL : Lands E R j h' m) :
    Arrives R (Mips.step E.toHelpers m) (.goto (.instr j) h' : Outcome Label Exit (Host T)) := by
  obtain ⟨c', v', hC, hR, harch, hlog, -, hds⟩ := hL.state
  exact ⟨hR.agree hC harch hlog, hL.pc, hL.pending, (hR.field_eq .hasDelaySlot).trans hds⟩

/-- Behind the code that performs the first branch: the second one is pending unless its
condition has been cleared. -/
theorem Meets.goes_pair (hM : Meets R i v m) (hi : i < R.count) (h0 : i ≠ 0) {t : Word}
    (ht : pendingTarget (R.lastInfo i) v = some t)
    (hx : Executed E.toHelpers (R.pc i) (R.instr i) (R.lastInfo i)
      (R.nextIsTarget i) (v.record (R.pc i) (R.word i)) v')
    (hh : HandsOver h' v' t (illegalSlot (R.info i) (R.lastInfo i) v'))
    (hf : Flagged (R.info i) v' h') :
    Goes h' (Mips.step E.toHelpers m) ↔
      ¬(¬(R.lastInfo i).conditional ∧ (R.info i).conditional ∧ Mips.taken (R.instr i) v.arch) := by
  have hpend := hM.pending_step hi hx
  have htaken : pendingTarget (R.info i) v' =
      if Mips.taken (R.instr i) v.arch then some (Mips.target (R.pc i) (R.instr i) v.arch)
        else none := hx.pending
  constructor
  · rintro hg ⟨hlast, hinfo, hb⟩
    obtain ⟨-, c'', v'', -, hR, -, -, hs⟩ := hh
    have hnone := hg.left.pending
    rw [hR.inherited, hs, illegalSlot, if_pos ⟨hlast, hinfo⟩, hpend, htaken, if_pos hb] at hnone
    cases hnone
  · intro hn
    have hnext := hM.next hi
    rw [slotTarget, if_neg fun hd => h0 (of_decide_eq_true hd), ht] at hnext
    have hlog : v'.control.log = (Mips.step E.toHelpers m).log := by
      rw [hx.control, hM.step_log hi, ← hM.log]
      rfl
    refine (hh.left (hx.arch.trans (hM.step_arch hi E.toHelpers).symm) hlog hnext ?_).goes
      (hf fun hc => ?_)
    · rw [illegalSlot]
      split
      · rename_i hcl
        rw [hpend, htaken, if_neg fun hb => hn ⟨hcl.1, hcl.2, hb⟩]
      · exact hpend
    · rw [hx.cond hc]
      cases Mips.taken (R.instr i) (v.record (R.pc i) (R.word i)).arch with
      | false => exact .inl rfl
      | true => exact .inr rfl

/-- Behind what is compiled as no branch the branch before is performed. -/
theorem Meets.arrives_plain (hM : Meets R i v m) (hi : i < R.count) (h0 : i ≠ 0)
    (hno : ¬(R.info i).branch) {b : Mips.Branch} (hp : m.pending = some b)
    (ht : pendingTarget (R.lastInfo i) v = some b.target)
    (hm : (Mips.exec E.toHelpers (R.pc i) (R.instr i) v.arch).2 = .continue)
    (hx : Executed E.toHelpers (R.pc i) (R.instr i) (R.lastInfo i)
      (R.nextIsTarget i) (v.record (R.pc i) (R.word i)) v')
    {o : Outcome Label Exit (Host T)} (hb : Behind R i (R.lastInfo i) v' c' o) :
    Arrives R (Mips.step E.toHelpers m) o := by
  have hpair : ¬((R.info i).branch ∧ (R.lastInfo i).branch) := fun hn => hno hn.1
  have hl : (R.lastInfo i).branch := by
    by_contra hl
    rw [pendingTarget_not_branch hl] at ht
    cases ht
  have hlast : pendingTarget (R.lastInfo i) v' = some b.target :=
    (hx.pendingTarget_last hpair).trans ht
  rw [Behind, if_neg h0, hlast] at hb
  obtain ⟨he, h', hR, ho⟩ := hb
  cases hM.round_branch (E := E) hi h0 hpair hm hx ht he hR ho with
  | exit h'' ho' hn _ _ _ => exact absurd ((hM.mode_eq hi E.toHelpers).trans hm) hn
  | next h'' v'' ho' _ hn _ _ =>
    rw [hp] at hn
    cases hn
  | jump h'' j ho' _ _ hL =>
    rw [ho']
    exact hL.arrives
  | latent h'' v'' ho' _ _ _ _ _ _ _ =>
    rw [ho'] at ho
    cases hlab : R.localLabel (R.lastInfo i) with
    | none =>
      rw [hlab] at ho
      cases ho.1
    | some l =>
      rw [hlab] at ho
      have hlast' : R.lastInfo i = R.info (i - 1) := if_neg h0
      rw [hlast'] at hlab hl
      obtain ⟨j, rfl, -⟩ := R.localLabel_some (by omega) hl hlab
      cases ho
  | thunk h'' ho' _ hleft =>
    rw [ho']
    exact hleft.goes_of_none
      (Option.map_eq_none_iff.1 ((hM.pending_step hi hx).trans (pendingTarget_not_branch hno)))

/-- A branch in the delay slot of a taken branch: whether control goes where the machine does. -/
theorem Front.taken (hF : Front R i k h m) (hi : i < R.count) (h0 : i ≠ 0) (hb : Branches m.instr)
    (hp : m.pending ≠ none) :
    Arrives R (Mips.step E.toHelpers m) (exec (lightning E) k h) ↔
      ¬(¬(R.lastInfo i).conditional ∧ (R.info i).conditional ∧ Mips.taken m.instr m.arch) := by
  obtain ⟨c, h₁, v, k₁, c', k₂, hx, hS, hM, hslot, hbody, -⟩ := hF.pieces (E := E) hi
  rw [hM.instr_eq hi] at hb ⊢
  rw [slotTarget, if_neg fun hn => h0 (of_decide_eq_true hn)] at hslot
  obtain ⟨b, hpb⟩ := Option.ne_none_iff_exists'.1 hp
  rw [hpb, Option.map_some] at hslot
  rw [hx, exec, ← hM.arch]
  by_cases hbr : (R.info i).branch
  · have hl : (R.lastInfo i).branch := by
      by_contra hl
      rw [pendingTarget_not_branch hl] at hslot
      cases hslot
    obtain ⟨_, _, _, hwp, -, -, v₁, hex, hpost⟩ := wp_body_pair (E := E) R hS h0 hbr hl
    cases hbody.symm.trans hwp
    rw [← hslot] at hpost
    obtain ⟨h₂, hx₂, hh, hflag⟩ := hpost
    rw [hx₂]
    exact hM.goes_pair hi h0 hslot.symm hex hh hflag
  · obtain ⟨_, _, _, hwp, -, -, -, hpost⟩ := wp_body (E := E) R hS (fun hn => hbr hn.1)
      (hb.serves E _)
    cases hbody.symm.trans hwp
    rw [R.info_branch] at hbr
    refine iff_of_true ?_ fun hn => hbr (taken_isBranch hn.2.2)
    cases hpost with
    | exit h' ho hn _ _ _ => exact absurd (hb.mode _ _ _) hn
    | go v₁ hm₁ hex hbehind =>
      have ho := hM.arrives_plain hi h0 (by rwa [R.info_branch]) hpb hslot.symm hm₁ hex hbehind
      -- nothing but the code of the instruction is reached
      cases hexec : exec (lightning E) k₁ h₁ with
      | fall h₂ =>
        rw [hexec] at ho
        exact ho.elim
      | goto l h₂ =>
        rw [hexec] at ho
        exact ho
      | leave x h₂ =>
        rw [hexec] at ho
        exact ho

/-! ### Across a boundary -/

/-- A branch inherited is performed behind the first instruction, and what
that one takes is handed over. -/
theorem Enters.latent {code : HostCode T} (hm : Enters R h m)
    (hc : jitRegion R = some code) (hb : Branches m.instr) (hp : m.pending ≠ none) (fuel : ℕ) :
    ∃ h', run (lightning E) code (fuel + 1) code h = .left .enterThunk h' ∧
      Goes h' (Mips.step E.toHelpers m) := by
  obtain ⟨k, hx, hF⟩ := hm.front (E := E) hc
  obtain ⟨c, h₁, v, k₁, c', k₂, hx₁, hS, hM, hslot, hbody, -⟩ := hF.pieces (E := E) R.pos
  rw [hM.instr_eq R.pos] at hb
  have hno : ¬((R.info 0).branch ∧ (R.lastInfo 0).branch) := fun hn => Bool.false_ne_true hn.2
  obtain ⟨_, _, _, hwp, -, -, -, hpost⟩ := wp_body (E := E) R hS hno (hb.serves E _)
  cases hbody.symm.trans hwp
  cases hpost with
  | exit h' ho hn _ _ _ => exact absurd (hb.mode _ _ _) hn
  | go v₁ hm₁ hex hbehind =>
    rw [Behind, if_pos rfl] at hbehind
    obtain ⟨he, h₂, hR₂, ho⟩ := hbehind
    have hcontrol : v₁.control.hasDelaySlot = v.control.hasDelaySlot ∧
        v₁.control.branchTarget = v.control.branchTarget ∧
          v₁.control.log = (R.pc 0, R.word 0) :: v.control.log := by
      rw [hex.control]
      exact ⟨rfl, rfl, rfl⟩
    have hds : v.control.hasDelaySlot ≠ 0#32 := by
      intro h0
      have hslot' : m.pending.map Mips.Branch.target = inheritedTarget v := hslot
      rw [inheritedTarget_none h0] at hslot'
      exact hp (Option.map_eq_none_iff.1 hslot')
    rw [hcontrol.1, if_neg hds] at ho
    obtain ⟨k', hat, hexec⟩ := jitRegion_latent (E := E) hc (handlesDelaySlot_mode hm₁)
    obtain ⟨h₃, hx₃, hh, hf⟩ := hexec ⟨c', he.clean, hR₂⟩
    refine ⟨h₃, ?_, ?_⟩
    · rw [run, hx, hx₁, exec, ho]
      simp only [Outcome.goto_andThen, hat]
      rw [run, hx₃]
    · have hnext := hM.next R.pos
      rw [slotTarget, if_pos (decide_eq_true rfl), inheritedTarget_some hds,
        Option.getD_some, ← hcontrol.2.1] at hnext
      refine (hh.left (hex.arch.trans (hM.step_arch R.pos E.toHelpers).symm) ?_ hnext
        (hM.pending_step R.pos hex)).goes (hf fun hc => ?_)
      · rw [hcontrol.2.2, hM.step_log R.pos, ← hM.log]
      · rw [hex.cond hc]
        cases Mips.taken (R.instr 0) (v.record (R.pc 0) (R.word 0)).arch with
        | false => exact .inl rfl
        | true => exact .inr rfl

/-! ### Both ways -/

/-- Two branches compiled into one region, with the code `k` in front of the first one. If that is
taken, control goes to its target, and the branch that is pending there is the second one if it is
taken. If it is not taken, control passes behind the second one, which is pending if it is taken. -/
def Joined (E : Env T) (R : Region) (i : ℕ) (k : HostCode T) (h : Host T) (m : Mips.State) : Prop :=
  if Mips.taken m.instr m.arch then Arrives R (Mips.steps E.toHelpers 2 m) (exec (lightning E) k h)
  else ∃ k₂ h₂, exec (lightning E) k h = exec (lightning E) k₂ h₂ ∧
    Front R (i + 2) k₂ h₂ (Mips.steps E.toHelpers 2 m)

/-- The same with the boundary between two regions behind the first branch. -/
def Cut (E : Env T) (m : Mips.State) : Prop :=
  ∀ (R₁ : Region) (k₁ : HostCode T) (h₁ : Host T), Front R₁ (R₁.count - 1) k₁ h₁ m →
    ∃ h₂, exec (lightning E) k₁ h₁ = .leave .enterThunk h₂ ∧
      ∀ (R₂ : Region) (code : HostCode T), R₂.At h₂ → jitRegion R₂ = some code →
        if Mips.taken m.instr m.arch then
          ∀ fuel, ∃ h₃, run (lightning E) code (fuel + 1) code (h₂.enterThunk E) =
            .left .enterThunk h₃ ∧
            Goes h₃ (Mips.steps E.toHelpers 2 m)
        else ∃ k₃ h₃, exec (lightning E) code (h₂.enterThunk E) = exec (lightning E) k₃ h₃ ∧
          Front R₂ 1 k₃ h₃ (Mips.steps E.toHelpers 2 m)

theorem pending_of_taken {H : Helpers} (ht : Mips.taken m.instr m.arch) :
    (Mips.step H m).pending ≠ none := by
  rw [Mips.step, Mips.State.branch, if_pos ht]
  exact Option.some_ne_none _

theorem pending_of_not_taken {H : Helpers} (ht : ¬Mips.taken m.instr m.arch) :
    (Mips.step H m).pending = none :=
  if_neg ht

theorem Branches.cut (E : Env T) (hA : Branches m.instr) (hp : m.pending = none)
    (hB : Branches (Mips.step E.toHelpers m).instr) : Cut E m := by
  intro R₁ k₁ h₁ hF
  have hpos := R₁.pos
  obtain ⟨k, h', hx, hF'⟩ := hF.step (E := E) (Nat.sub_lt hpos Nat.one_pos) hA hp
  rw [Nat.sub_add_cancel hpos] at hF'
  obtain ⟨h₂, hx₂, hl⟩ := hF'.end (E := E)
  refine ⟨h₂, hx.trans hx₂, fun R₂ code hR hc => ?_⟩
  have henter := hl.enters (E := E) hR
  split
  · rename_i ht
    exact henter.latent hc hB (pending_of_taken ht)
  · rename_i ht
    obtain ⟨k₀, hx₀, hF₀⟩ := henter.front (E := E) hc
    obtain ⟨k₃, h₃, hx₃, hF₃⟩ := hF₀.step (E := E) R₂.pos hB (pending_of_not_taken ht)
    exact ⟨k₃, h₃, hx₀.trans hx₃, hF₃⟩

/-- The second branch is lost: the first one is compiled without a condition and the second
one with one, and it is taken. -/
def Region.Clobbers (R : Region) (H : Helpers) (i : ℕ) (m : Mips.State) : Prop :=
  (R.info i).branch ∧ ¬(R.info i).conditional ∧ (R.info (i + 1)).conditional ∧
    Mips.taken (Mips.step H m).instr (Mips.step H m).arch

/-- A branch without a condition is taken. -/
theorem taken_of_unconditional {pc : Word} {x : Instr} {nextIsTarget : Bool}
    (hb : (instructionInfo pc x nextIsTarget).branch)
    (hc : ¬(instructionInfo pc x nextIsTarget).conditional) (a : Arch) :
    Mips.taken x a := by
  cases x with
  | jr _ | jalr _ _ | j _ | jal _ => rfl
  | regimm _ _ _ _ | beq _ _ _ | bne _ _ _ => exact absurd rfl hc
  | blez rs w =>
    have h0 : rs = 0 := not_not.1 fun h0 => hc (decide_eq_true h0)
    rw [h0]
    rfl
  | bgtz rs w =>
    rw [instructionInfo] at hb hc
    split at hb
    · cases hb
    · rename_i h0
      rw [if_neg h0] at hc
      exact absurd rfl hc
  | _ => cases hb

/-- **A branch in the delay slot of a branch.** Compiled into one region and with the boundary
between two regions in the middle, two branches do what the machine does, except in one case, and
only in one region: when the first one is compiled without a condition, the second one with one,
and the second one is taken. -/
theorem branch_pair (E : Env T) (R : Region) {i : ℕ} (hi : i + 1 < R.count)
    {k : HostCode T} {h : Host T} {m : Mips.State}
    (hF : Front R i k h m) (hp : m.pending = none) (hA : Branches m.instr)
    (hB : Branches (Mips.step E.toHelpers m).instr) :
    (Joined E R i k h m ∧ Cut E m) ↔ ¬R.Clobbers E.toHelpers i m := by
  rw [and_iff_left (hA.cut E hp hB), Joined, Region.Clobbers]
  have hinstr : m.instr = R.instr i := by
    obtain ⟨c, v, first, c', -, -, hM, -⟩ := hF
    exact hM.instr_eq (Nat.lt_of_succ_lt hi)
  obtain ⟨k₁, h₁, hx₁, hF₁⟩ := hF.step (E := E) (Nat.lt_of_succ_lt hi) hA hp
  by_cases ht : Mips.taken m.instr m.arch
  · have hb : (R.info i).branch := by
      rw [R.info_branch, ← hinstr]
      exact taken_isBranch ht
    rw [if_pos ht, hx₁, and_iff_right hb]
    have htaken := hF₁.taken (E := E) hi (Nat.succ_ne_zero i) hB (pending_of_taken ht)
    rwa [lastInfo_succ] at htaken
  · rw [if_neg ht]
    refine iff_of_true ?_ ?_
    · obtain ⟨k₂, h₂, hx₂, hF₂⟩ := hF₁.step (E := E) hi hB (pending_of_not_taken ht)
      exact ⟨k₂, h₂, hx₁.trans hx₂, hF₂⟩
    · rintro ⟨hb, hc, -⟩
      refine ht ?_
      rw [hinstr]
      exact taken_of_unconditional hb hc m.arch

/-! ### A branch that is lost -/

/-- `BEQ $0, $0, 12; BEQ $0, $0, 20; NOP; NOP; NOP; BREAK`, all in the region at 0. -/
def beqPairWords : List Word :=
  [0x10000002#32, 0x10000003#32, 0x00000000#32, 0x00000000#32, 0x00000000#32, 0x0000000d#32]

/-- The region of these words. -/
def beqPairRegion : Region := ⟨imemOf beqPairWords, 0, 6, by decide, by decide, by decide⟩

theorem beqPairWords_pair : ∃ k, Front beqPairRegion 0 k (Host.withImem beqPairWords)
      (beqPairRegion.machine (Host.withImem beqPairWords)) ∧
    Joined smallEnv beqPairRegion 0 k (Host.withImem beqPairWords)
      (beqPairRegion.machine (Host.withImem beqPairWords)) ∧
    Cut smallEnv (beqPairRegion.machine (Host.withImem beqPairWords)) := by
  obtain ⟨code, hc⟩ := jitRegion_isSome (T := smallTarget) beqPairRegion
  have hin : beqPairRegion.In (Host.withImem beqPairWords).st.toArch := fun _ _ => rfl
  obtain ⟨k, -, hF⟩ := (Region.enters hin).front (E := smallEnv) hc
  refine ⟨k, hF, (branch_pair smallEnv beqPairRegion (by decide) hF rfl
    (.inl (by decide)) (.inl (by decide))).2 ?_⟩
  rintro ⟨-, hcond, -⟩
  exact hcond (by decide)

/-- `J 12; BEQ $0, $0, 20; NOP; NOP; BREAK`. The region at 0 ends behind the `BEQ`. -/
def jumpPairWords : List Word :=
  [0x08000003#32, 0x10000003#32, 0x00000000#32, 0x00000000#32, 0x0000000d#32]

/-- The region of these words. -/
def jumpPairRegion : Region := ⟨imemOf jumpPairWords, 0, 2, Nat.two_pos, by decide, by decide⟩

/-- `has_delay_slot` where code has gone to the entry thunk. -/
def handedOver : Outcome Label Exit (Host T) → Option Word
  | .leave .enterThunk h' => some h'.st.hasDelaySlot
  | _ => none

/-- The code goes to 12 with nothing pending, the machine with the branch to 20. -/
theorem jumpPairWords_lost : ∃ k, Front jumpPairRegion 0 k (Host.withImem jumpPairWords)
      (jumpPairRegion.machine (Host.withImem jumpPairWords)) ∧
    ¬(Joined smallEnv jumpPairRegion 0 k (Host.withImem jumpPairWords)
      (jumpPairRegion.machine (Host.withImem jumpPairWords)) ∧
      Cut smallEnv (jumpPairRegion.machine (Host.withImem jumpPairWords))) := by
  obtain ⟨code, hc⟩ := jitRegion_isSome (T := smallTarget) jumpPairRegion
  have hin : jumpPairRegion.In (Host.withImem jumpPairWords).st.toArch := fun _ _ => rfl
  obtain ⟨k, hx, hF⟩ := (Region.enters hin).front (E := smallEnv) hc
  refine ⟨k, hF, ?_⟩
  rintro ⟨hjoined, -⟩
  have hrun : ((jitRegion (T := smallTarget) jumpPairRegion).bind fun code =>
      handedOver (exec (lightning smallEnv) code (Host.withImem jumpPairWords))) =
        some 0#32 := by decide
  have hmachine : (Mips.steps smallEnv.toHelpers 2
      (jumpPairRegion.machine (Host.withImem jumpPairWords))).pending.isSome =
        true := by decide
  rw [hc, Option.bind_some, hx] at hrun
  rw [Joined, if_pos (by decide)] at hjoined
  cases ho : exec (lightning smallEnv) k (Host.withImem jumpPairWords) with
  | leave x h' =>
    rw [ho] at hrun hjoined
    cases x with
    | enterThunk =>
      have hflag := hjoined.flag
      rw [hmachine, Option.some.inj hrun] at hflag
      cases hflag
    | returnThunk => cases hrun
  | fall h' =>
    rw [ho] at hrun
    cases hrun
  | goto l h' =>
    rw [ho] at hrun
    cases hrun

end ParallelRsp.Jit
