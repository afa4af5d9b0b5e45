import ParallelRsp.Jit.Passes

/-!
# A region runs as the machine does

Compiled code from the start of a region until it leaves, pass by pass. Where a direct branch
goes to the delay slot of another one, the condition of the other one has been cleared, so it
is not performed. The exception is `BLEZ $0`, which is compiled without a condition: behind its
delay slot the code goes to its target, however it got there. `Region.follow` is the machine
with this exception, which compiled code follows in every run.
-/

namespace ParallelRsp.Jit

open Codegen

variable {T : Target} {E : Env T} {R : Region} {c c' : RegisterCache T}
  {h h' : Host T} {v v' : View T}
  {m : Mips.State} {i j k : ℕ}

/-! ### Landing in the delay slot of `BLEZ $0` -/

namespace Region

/-- The branch that the code behind a label performs though it was not executed. -/
def phantom (R : Region) (target : Word) : Option Mips.Branch :=
  let j := (target.toNat - 4 * R.pcWord) / 4
  if R.Has target ∧ 0 < j then
    match R.instr (j - 1) with
    | .blez rs w =>
      if rs = 0 ∧ branchTarget (R.pc (j - 1)) w ≠ followingPc (R.pc j) then
        some ⟨branchTarget (R.pc (j - 1)) w, false⟩
      else none
    | _ => none
  else none

/-- The branch that compiled code takes to be pending where the pending branch goes. -/
def misled (R : Region) (m : Mips.State) : Option Mips.Branch :=
  match m.pending with
  | some b => if b.indirect then none else R.phantom b.target
  | none => none

/-- A step of the machine that compiled code follows. -/
def follow (R : Region) (H : Helpers) (m : Mips.State) : Mips.State :=
  match R.misled m with
  | some b => { Mips.step H m with pending := some b }
  | none => Mips.step H m

/-- Steps of it. -/
def follows (R : Region) (H : Helpers) (n : ℕ) (m : Mips.State) : Mips.State := (R.follow H)^[n] m

theorem follows_succ (H : Helpers) (n : ℕ) (m : Mips.State) :
    R.follows H (n + 1) m = R.follows H n (R.follow H m) :=
  Function.iterate_succ_apply _ _ _

theorem follows_succ' (H : Helpers) (n : ℕ) (m : Mips.State) :
    R.follows H (n + 1) m = R.follow H (R.follows H n m) :=
  Function.iterate_succ_apply' _ _ _

theorem follow_of_none {H : Helpers} (hm : R.misled m = none) : R.follow H m = Mips.step H m := by
  rw [follow, hm]

/-- Where compiled code is not misled it follows the machine. -/
theorem follows_eq_steps_of_not_misled {H : Helpers} {n : ℕ}
    (hm : ∀ k < n, R.misled (R.follows H k m) = none) :
    R.follows H n m = Mips.steps H n m := by
  induction n with
  | zero => rfl
  | succ n ih =>
    rw [follows_succ', follow_of_none (hm n (Nat.lt_succ_self n)), ih fun k hk =>
      hm k (Nat.lt_succ_of_lt hk),
      Mips.steps_succ]

theorem misled_of_none (hp : m.pending = none) : R.misled m = none := by
  rw [misled, hp]

theorem misled_of_direct {b : Mips.Branch} (hp : m.pending = some b) (hb : b.indirect = false) :
    R.misled m = R.phantom b.target := by
  rw [misled, hp]
  exact if_neg (Bool.eq_false_iff.1 hb)

theorem phantom_zero : R.phantom (R.pc 0) = none := by
  have hlt := R.word_lt R.pos
  rw [phantom, R.pc_eq, toNat_wordPc hlt.le]
  exact if_neg fun hn => by omega

theorem phantom_succ (hj : k + 1 < R.count) :
    R.phantom (R.pc (k + 1)) =
      match R.instr k with
      | .blez rs w =>
        if rs = 0 ∧ branchTarget (R.pc k) w ≠ followingPc (R.pc (k + 1)) then
          some ⟨branchTarget (R.pc k) w, false⟩
        else none
      | _ => none := by
  have hlt := R.word_lt hj
  have hidx : ((R.pc (k + 1)).toNat - 4 * R.pcWord) / 4 = k + 1 := by
    rw [R.pc_eq, toNat_wordPc hlt.le]
    omega
  have hhas : R.Has (R.pc (k + 1)) := (R.has_wordPc hlt).2 ⟨Nat.le_add_right _ _, by omega⟩
  rw [phantom]
  simp only [hidx]
  rw [if_pos ⟨hhas, Nat.succ_pos k⟩, Nat.add_sub_cancel]

/-- Only a `BLEZ $0` is performed though it was not executed. -/
theorem phantom_eq_none (hj : k + 1 < R.count) (hb : ∀ w, R.instr k ≠ .blez 0 w) :
    R.phantom (R.pc (k + 1)) = none := by
  rw [phantom_succ hj]
  split
  · rename_i rs w hw
    refine if_neg ?_
    rintro ⟨rfl, -⟩
    exact hb w hw
  · rfl

end Region

/-- The branch that is pending in the followed machine behind a jump to a label. -/
theorem Lands.pending_follow (hL : Lands E R j h' m) :
    (R.follow E.toHelpers m).pending = R.misled m := by
  rw [Region.follow]
  cases hm : R.misled m with
  | none => exact hL.pending
  | some b => rfl

/-- Behind a label the branch before it is what the followed machine has. -/
theorem Lands.slotOk (hL : Lands E R j h' m) (hc : v'.cond = 0#32)
    (hd : v'.control.hasDelaySlot = 0#32) :
    SlotOk R j v' (R.follow E.toHelpers m) := by
  rw [SlotOk, hL.pending_follow]
  cases j with
  | zero =>
    rw [if_pos rfl, inheritedTarget_none hd]
    rcases hL.origin with ⟨b, hp, hb, ht⟩ | ⟨hp, k, hk, -⟩
    · rw [R.misled_of_direct hp hb, ht, R.phantom_zero]
      rfl
    · exact absurd hk (Nat.succ_ne_zero k).symm
  | succ k =>
    rw [if_neg (Nat.succ_ne_zero k), lastInfo_succ]
    have hlt := hL.lt
    by_cases hun : (R.info k).branch ∧ ¬(R.info k).conditional
    · obtain ⟨w, hw⟩ := R.unconditional_before_entry hlt hL.entry hun.1 hun.2
      have hinfo : (R.info k).branchTarget = branchTarget (R.pc k) w ∧
          (R.info k).indirect = false := by
        rw [Region.info, hw]
        exact ⟨rfl, rfl⟩
      have hpend : pendingTarget (R.info k) v' = some (branchTarget (R.pc k) w) := by
        rw [pendingTarget_of_taken hun.1 fun hn => absurd hn hun.2,
          if_neg (by rw [hinfo.2]; exact Bool.false_ne_true), hinfo.1]
      rcases hL.origin with ⟨b, hp, hb, ht⟩ | ⟨-, k', hk', hno⟩
      · rw [R.misled_of_direct hp hb, ht, R.phantom_succ hlt, hw, hpend, hinfo.2]
        simp only [true_and, Bool.false_eq_true, not_false_eq_true, Option.map_some]
        by_cases hf : branchTarget (R.pc k) w = followingPc (R.pc (k + 1))
        · -- the branch goes where control goes anyway
          exact .inr ⟨hlt, if_neg fun hn => hn hf, congrArg some hf⟩
        · exact .inl (if_pos hf)
      · obtain rfl : k = k' := Nat.succ_injective hk'
        rw [hw] at hno
        exact absurd rfl hno
    · have hnone : pendingTarget (R.info k) v' = none :=
        pendingTarget_of_not_taken fun hb => ⟨by_contra fun hn => hun ⟨hb, hn⟩, hc⟩
      have hne (w : Word) : R.instr k ≠ .blez 0 w := by
        intro hw
        refine hun ⟨by rw [R.info_branch, hw]; rfl, ?_⟩
        rw [Region.info, hw]
        exact of_decide_eq_false rfl
      refine .inl ?_
      rw [hnone, Option.map_none]
      rcases hL.origin with ⟨b, hp, hb, ht⟩ | ⟨hp, -⟩
      · rw [R.misled_of_direct hp hb, ht, R.phantom_eq_none hlt hne]
      · exact R.misled_of_none hp

theorem Lands.meets (hL : Lands E R j h' m) :
    ∃ v', (∀ c, Empty c → Ready c h' v') ∧ Meets R j v' (R.follow E.toHelpers m) := by
  obtain ⟨c', v', hC, hR, harch, hlog, hcond, hds⟩ := hL.state
  have hfollow : (R.follow E.toHelpers m).arch = (Mips.step E.toHelpers m).arch ∧
      (R.follow E.toHelpers m).log = (Mips.step E.toHelpers m).log ∧
      (R.follow E.toHelpers m).pc = (Mips.step E.toHelpers m).pc := by
    rw [Region.follow]
    split <;> exact ⟨rfl, rfl, rfl⟩
  obtain ⟨ha, hl, hp⟩ := hfollow
  refine ⟨v', fun c he => he.ready (hR.clean_congr hC he.clean), ?_⟩
  exact ⟨ha ▸ harch, hl ▸ hlog, ha ▸ hL.code, hp ▸ hL.pc.fetch, fun _ =>
    hp ▸ hL.pc, fun _ => hds, hL.slotOk hcond hds⟩

/-! ### Runs -/

namespace Region

/-- No label is in the delay slot of a `BLEZ $0`. -/
def Clear (R : Region) : Prop :=
  ∀ k w, k + 1 < R.count → R.blockEntry (k + 1) → R.instr k ≠ .blez 0 w

/-- The machine stays in the region for `n` steps. -/
structure Inside (R : Region) (H : Helpers) (n : ℕ) (m : Mips.State) : Prop where
  /-- It does not leave. -/
  stays : ∀ k < n, ¬R.Leaves H (R.follows H k m)
  /-- A branch that was not executed is only performed where there is a label behind a `BLEZ $0`. -/
  clear : R.Clear → ∀ k < n, R.misled (R.follows H k m) = none

theorem Inside.zero {H : Helpers} : R.Inside H 0 m := ⟨nofun, fun _ => nofun⟩

theorem Inside.step {H : Helpers} {n : ℕ} (hn : ¬R.Leaves H m) (hc : R.Clear → R.misled m = none)
    (hs : R.Inside H n (R.follow H m)) : R.Inside H (n + 1) m where
  stays k hk := by
    cases k with
    | zero => exact hn
    | succ k =>
      rw [follows_succ]
      exact hs.stays k (Nat.lt_of_succ_lt_succ hk)
  clear hR k hk := by
    cases k with
    | zero => exact hc hR
    | succ k =>
      rw [follows_succ]
      exact hs.clear hR k (Nat.lt_of_succ_lt_succ hk)

end Region

/-- While the machine stays in the region, every function that is called for an unaligned access
finds its arguments. -/
def Region.Served (R : Region) (E : Env T) (m : Mips.State) : Prop :=
  ∀ n, R.Inside E.toHelpers n m → E.ServesStep (R.follows E.toHelpers n m)

theorem Region.served [E.Stdcall] : R.Served E m := fun _ _ => E.serves _ _

/-- Behind a step. -/
theorem Region.Served.step (hserved : R.Served E m) (hn : ¬R.Leaves E.toHelpers m)
    (hc : R.Clear → R.misled m = none) : R.Served E (R.follow E.toHelpers m) := by
  intro n hs
  rw [← R.follows_succ]
  exact hserved (n + 1) (hs.step hn hc)

/-- The same behind an instruction that no branch goes from. -/
theorem Region.Served.straight (hserved : R.Served E m) (hp : m.pending = none)
    (hn : ¬R.Leaves E.toHelpers m) : R.Served E (Mips.step E.toHelpers m) := by
  have hmis := R.misled_of_none hp
  rw [← R.follow_of_none hmis]
  exact hserved.step hn fun _ => hmis

/-- A jump to a label is not misled in a region without labels behind a `BLEZ $0`. -/
theorem Lands.not_misled (hL : Lands E R j h' m) (hR : R.Clear) : R.misled m = none := by
  rcases hL.origin with ⟨b, hp, hb, ht⟩ | ⟨hp, -⟩
  · rw [R.misled_of_direct hp hb, ht]
    cases j with
    | zero => exact R.phantom_zero
    | succ k => exact R.phantom_eq_none hL.lt fun w => hR k w hL.lt hL.entry
  · exact R.misled_of_none hp

/-- How a run of the code of a region ends that follows at most `fuel` jumps. -/
def RunPost (E : Env T) (R : Region) (fuel : ℕ) (m : Mips.State) : Result Exit (Host T) → Prop
  | .left x h' => ∃ n, R.Inside E.toHelpers n m ∧ LeavesBy E x h' (R.follows E.toHelpers n m)
  | .running h' => ∃ n, fuel ≤ n ∧ R.Inside E.toHelpers n m ∧
      Agree h' (Mips.step E.toHelpers (R.follows E.toHelpers n m))
  | .stuck => False

theorem RunPost.mono {fuel fuel' : ℕ} {r : Result Exit (Host T)}
    (hf : fuel' ≤ fuel) (hr : RunPost E R fuel m r) :
    RunPost E R fuel' m r := by
  cases r with
  | left x h' => exact hr
  | running h' =>
    obtain ⟨n, hn, hrest⟩ := hr
    exact ⟨n, hf.trans hn, hrest⟩
  | stuck => exact hr

/-- A step in front of a run. -/
theorem RunPost.step {fuel : ℕ} {r : Result Exit (Host T)} (hn : ¬R.Leaves E.toHelpers m)
    (hc : R.Clear → R.misled m = none) (hr : RunPost E R fuel (R.follow E.toHelpers m) r) :
    RunPost E R (fuel + 1) m r := by
  cases r with
  | left x h' =>
    obtain ⟨n, hs, hl⟩ := hr
    exact ⟨n + 1, hs.step hn hc, R.follows_succ _ n m ▸ hl⟩
  | running h' =>
    obtain ⟨n, hf, hs, ha⟩ := hr
    exact ⟨n + 1, Nat.succ_le_succ hf, hs.step hn hc, R.follows_succ _ n m ▸ ha⟩
  | stuck => exact hr

/-- The same behind an instruction that no branch goes from. -/
theorem RunPost.straight {fuel : ℕ} {r : Result Exit (Host T)}
    (hp : m.pending = none) (hn : ¬R.Leaves E.toHelpers m)
    (hr : RunPost E R fuel (Mips.step E.toHelpers m) r) : RunPost E R fuel m r := by
  have hmis := R.misled_of_none hp
  rw [← R.follow_of_none hmis] at hr
  exact (hr.step hn fun _ => hmis).mono (Nat.le_succ _)

/-- The machine goes where the inherited branch goes. -/
theorem next_of_pending {t : Word} (ht : m.pending.map Mips.Branch.target = some t) :
    m.next = t := by
  obtain ⟨b, hp, rfl⟩ := Option.map_eq_some_iff.1 ht
  rw [Mips.State.next, hp]

/-- A run from where a pass starts. -/
theorem run_post {code : HostCode T} (hc : jitRegion R = some code)
    (hN : R.NoBranchInSlot) {fuel : ℕ} {k : HostCode T} (hP : Pass E R (exec (lightning E) k h) m)
    (hserved : R.Served E m) : RunPost E R fuel m (run (lightning E) code fuel k h) := by
  induction fuel generalizing k h m with
  | zero =>
    rw [run]
    induction hP with
    | next hp hn _ ih => exact (ih (hserved.straight hp hn)).straight hp hn
    | leave x h' ho hl =>
      rw [ho]
      exact ⟨0, .zero, hl⟩
    | jump h' j ho hn hL =>
      rw [ho]
      obtain ⟨c', v', hC, hR, harch, hlog, -, -⟩ := hL.state
      exact ⟨0, le_rfl, .zero, hR.agree hC harch hlog⟩
    | latent h' v' ho hm hd hR ht harch hlog hp =>
      rw [ho]
      obtain ⟨c', hC, hR⟩ := hR
      exact ⟨0, le_rfl, .zero, hR.agree hC harch hlog⟩
    | stray hno => exact absurd (hserved 0 .zero) hno
  | succ fuel ihf =>
    rw [run]
    induction hP with
    | next hp hn _ ih => exact (ih (hserved.straight hp hn)).straight hp hn
    | leave x h' ho hl =>
      rw [ho]
      exact ⟨0, .zero, hl⟩
    | jump h' j ho hn hL =>
      rw [ho]
      obtain ⟨v', hR, hM⟩ := hL.meets
      obtain ⟨k', hat, hpass⟩ := jitRegion_label (E := E) hc hN hL.lt hL.entry
      simp only [hat]
      exact (ihf (hpass hR hM) (hserved.step hn hL.not_misled)).step hn hL.not_misled
    | latent h' v' ho hm hd hR ht harch hlog hp =>
      rw [ho]
      obtain ⟨k', hat, hexec⟩ := jitRegion_latent (E := E) hc hd
      obtain ⟨h'', hx, hh, -⟩ := hexec hR
      simp only [hat]
      rw [run, hx]
      have hpc := congrArg (· &&& 0xfff#32) (next_of_pending ht).symm
      exact ⟨0, .zero, hh.left harch hlog hpc hp, hm⟩
    | stray hno => exact absurd (hserved 0 .zero) hno

/-! ### From the start of a region -/

/-- The host is in front of the code of a region, and the machine in
front of its first instruction. -/
structure Enters (R : Region) (h : Host T) (m : Mips.State) : Prop where
  /-- Registers, memories and instructions. -/
  agree : Agree h m
  /-- The address. -/
  pc : Mips.fetchPc m.pc = R.pc 0
  /-- The branch that the region inherits. -/
  pending : m.pending.map Mips.Branch.target = h.inherited
  /-- The region is compiled from IMEM. -/
  code : R.In m.arch

theorem Agree.rep (ha : Agree h m) (hC : Clean c) :
    Rep c h ⟨m.arch, h.st.sr condBranchTaken, h.control⟩ where
  distinct i _ hil := absurd hil (hC i)
  entry i hil := absurd hil (hC i)
  memory r hr _ := by
    rw [View.mem]
    split
    · rename_i hcond
      rw [hcond]
    · rename_i hcond
      exact ha.sr r (Nat.lt_of_le_of_ne hr hcond)
  rest := ha.arch
  control := rfl

/-- The machine is in front of the first instruction. -/
theorem Enters.meets (hm : Enters R h m) :
    Meets R 0 (⟨m.arch, h.st.sr condBranchTaken, h.control⟩ : View T) m where
  arch := rfl
  log := hm.agree.log
  code := hm.code
  pc := hm.pc.trans (fetchPc_pc R.pos).symm
  aligned hn := absurd hn (Nat.lt_irrefl 0)
  settled hn := absurd hn (Nat.lt_irrefl 0)
  slot := (if_pos rfl).mpr hm.pending

theorem Enters.post {code : HostCode T} (hm : Enters R h m)
    (hc : jitRegion R = some code) (hN : R.NoBranchInSlot) (hserved : R.Served E m)
    (fuel : ℕ) : RunPost E R fuel m (run (lightning E) code fuel code h) := by
  exact run_post hc hN
    (jitRegion_start hc hN (fun c he => he.ready (hm.agree.rep he.clean)) hm.meets) hserved

end ParallelRsp.Jit
