import ParallelRsp.Jit.RegionRuns

/-!
# Delay slots within a region

The code of a region, entered with no branch inherited, executes what the machine with one
delay slot executes, until it leaves where the machine goes on. A delay slot can be the
target of another branch: every form of branch is then compiled with a condition, which is
clear for whoever jumps there. `BLEZ $0` has been left out: it is compiled unconditional whether
or not its delay slot is a label, and who jumps there performs it. `misledWords` does.
-/

namespace ParallelRsp.Jit

open Codegen

variable {T : Target} {E : Env T} {R : Region} {h : Host T} {m : Mips.State}

/-- The machine with the registers, the memories and the inherited branch
of the host, at an address. -/
def Host.machine (h : Host T) (pc : Word) : Mips.State :=
  ⟨h.st.toArch, pc, h.inherited.map (⟨·, true⟩), h.log⟩

/-- The machine where the code of a region starts. -/
def Region.machine (R : Region) (h : Host T) : Mips.State := h.machine (R.pc 0)

theorem Host.agree_machine (h : Host T) (pc : Word) : Agree h (h.machine pc) :=
  ⟨rfl, fun _ _ => rfl, rfl⟩

theorem Host.pending_machine (h : Host T) (pc : Word) :
    (h.machine pc).pending.map Mips.Branch.target = h.inherited := by
  rw [Host.machine, Option.map_map]
  exact Option.map_id'

theorem Region.enters (hcode : R.In h.st.toArch) : Enters R h (R.machine h) where
  agree := h.agree_machine _
  pc := fetchPc_pc R.pos
  pending := h.pending_machine _
  code := hcode

/-- Where the machine is not misled, compiled code follows it. -/
theorem Region.follows_eq_steps {H : Helpers} {n : ℕ}
    (hgood : ∀ n, (∀ k ≤ n, ¬R.Leaves H (Mips.steps H k m)) → R.misled (Mips.steps H n m) = none)
    (hs : ∀ k < n, ¬R.Leaves H (R.follows H k m)) :
    ∀ k ≤ n, R.follows H k m = Mips.steps H k m := by
  induction n with
  | zero =>
    intro k hk
    rw [Nat.le_zero.1 hk]
    rfl
  | succ n ih =>
    have ih' := ih fun k hk => hs k (Nat.lt_succ_of_lt hk)
    intro k hk
    rcases Nat.le_succ_iff.1 hk with hk | rfl
    · exact ih' k hk
    · have hsteps : ∀ k ≤ n, ¬R.Leaves H (Mips.steps H k m) := by
        intro k hk
        rw [← ih' k hk]
        exact hs k (Nat.lt_succ_of_le hk)
      rw [R.follows_succ', ih' n le_rfl, R.follow_of_none (hgood n hsteps), Mips.steps_succ]

/-- Where the machine is not misled, compiled code calls the functions for unaligned accesses when
the machine makes such accesses. -/
theorem Region.served_of_steps
    (hgood : ∀ n, (∀ k ≤ n, ¬R.Leaves E.toHelpers (Mips.steps E.toHelpers k m)) →
      R.misled (Mips.steps E.toHelpers n m) = none)
    (hserves : ∀ n, (∀ k < n, ¬R.Leaves E.toHelpers (Mips.steps E.toHelpers k m)) →
      T.wordSize = 32 ∨
        ¬CallsUnaligned (Mips.steps E.toHelpers n m).instr (Mips.steps E.toHelpers n m).arch) :
    R.Served E m := by
  intro n hs
  have heq := R.follows_eq_steps hgood hs.stays
  rw [heq n le_rfl]
  refine E.serves_of (hserves n fun k hk => ?_)
  rw [← heq k hk.le]
  exact hs.stays k hk

/-- The run ends as one of the machine `m` does: the region is left with the registers, the memories
and the instructions of the machine, to where the machine is and with the branch that is pending
there. A run that goes on has executed what the machine has. -/
def RunsAs (E : Env T) (R : Region) (fuel : ℕ) (m : Mips.State) : Result Exit (Host T) → Prop
  | .left _ h' => ∃ n, (∀ k < n, ¬R.Leaves E.toHelpers (Mips.steps E.toHelpers k m)) ∧
      Left h' (Mips.steps E.toHelpers (n + 1) m)
  | .running h' => ∃ n, fuel ≤ n ∧ (∀ k < n, ¬R.Leaves E.toHelpers (Mips.steps E.toHelpers k m)) ∧
      Agree h' (Mips.steps E.toHelpers (n + 1) m)
  | .stuck => False

/-- **Compiled code executes what the machine executes**, in a region without branches
in delay slots, as long as no branch goes within the region to the delay slot of a
`BLEZ $0` that goes elsewhere, and on hosts of other sizes than 32 bits as long as no access is
executed that is not aligned. -/
theorem region_follows_machine (E : Env T) (R : Region)
    {code : HostCode T} (hc : jitRegion R = some code)
    (hN : R.NoBranchInSlot) (h : Host T) (hcode : R.In h.st.toArch)
    (hgood : ∀ n, (∀ k ≤ n, ¬R.Leaves E.toHelpers (Mips.steps E.toHelpers k (R.machine h))) →
      R.misled (Mips.steps E.toHelpers n (R.machine h)) = none)
    (hserves : ∀ n, (∀ k < n, ¬R.Leaves E.toHelpers (Mips.steps E.toHelpers k (R.machine h))) →
      T.wordSize = 32 ∨ ¬CallsUnaligned (Mips.steps E.toHelpers n (R.machine h)).instr
        (Mips.steps E.toHelpers n (R.machine h)).arch) (fuel : ℕ) :
    RunsAs E R fuel (R.machine h) (run (lightning E) code fuel code h) := by
  have hrun := (R.enters hcode).post hc hN (E := E) (R.served_of_steps hgood hserves) fuel
  have hinside {n : ℕ} (hs : R.Inside E.toHelpers n (R.machine h)) :
      (∀ k < n, ¬R.Leaves E.toHelpers (Mips.steps E.toHelpers k (R.machine h))) ∧
      Mips.step E.toHelpers (R.follows E.toHelpers n (R.machine h)) =
        Mips.steps E.toHelpers (n + 1) (R.machine h) := by
    have heq := R.follows_eq_steps hgood hs.stays
    constructor
    · intro k hk
      rw [← heq k hk.le]
      exact hs.stays k hk
    · rw [heq n le_rfl, Mips.steps_succ]
  cases hr : run (lightning E) code fuel code h with
  | left x h' =>
    rw [hr] at hrun
    obtain ⟨n, hs, hl⟩ := hrun
    exact ⟨n, (hinside hs).1, (hinside hs).2 ▸ hl.1⟩
  | running h' =>
    rw [hr] at hrun
    obtain ⟨n, hf, hs, ha⟩ := hrun
    exact ⟨n, hf, (hinside hs).1, (hinside hs).2 ▸ ha⟩
  | stuck =>
    rw [hr] at hrun
    exact hrun

/-! ### Where compiled code is misled -/

/-- IMEM that begins with the given words. -/
def imemOf (words : List Word) : ℕ → Word := fun i => words.getD i 0#32

/-- A host that has just started, with this IMEM. -/
def Host.withImem (words : List Word) : Host smallTarget :=
  { (Host.zero : Host smallTarget) with
    st := { (Host.zero : Host smallTarget).st with imem := imemOf words } }

/-- `BEQ $0, $0, 12; NOP; BLEZ $0, 24; ADDI $8, $0, 1; BREAK; NOP; BREAK`. -/
def misledWords : List Word :=
  [0x10000002#32, 0x00000000#32, 0x18000003#32, 0x20080001#32,
    0x0000000d#32, 0x00000000#32, 0x0000000d#32]

/-- The region of these words. -/
def misledRegion : Region := ⟨imemOf misledWords, 0, 7, by decide, by decide, by decide⟩

/-- `BEQ $0, $0, 12; NOP; J 24; ADDI $8, $0, 1; BREAK; NOP; BREAK`. -/
def jumpWords : List Word :=
  [0x10000002#32, 0x00000000#32, 0x08000006#32, 0x20080001#32,
    0x0000000d#32, 0x00000000#32, 0x0000000d#32]

/-- The region of these words. -/
def jumpRegion : Region := ⟨imemOf jumpWords, 0, 7, by decide, by decide, by decide⟩

/-- `BLEZ`. -/
def isBlez : Instr → Bool
  | .blez _ _ => true
  | _ => false

/-- A region without `BLEZ` misleads nobody. -/
theorem Region.misled_eq_none (hb : ∀ k < R.count, isBlez (R.instr k) = false) (m : Mips.State) :
    R.misled m = none := by
  have hphantom (target : Word) : R.phantom target = none := by
    rw [phantom]
    split
    · rename_i hj
      have hlt : (target.toNat - 4 * R.pcWord) / 4 - 1 < R.count := by
        obtain ⟨⟨hlo, hhi⟩, hpos⟩ := hj
        omega
      split
      · rename_i rs w hw
        exact absurd (hb _ hlt) (by rw [hw]; exact Bool.noConfusion)
      · rfl
    · rfl
  rw [misled]
  split
  · split
    · rfl
    · exact hphantom _
  · rfl

/-- The addresses of the instructions executed in a run that has left. -/
def executed : Result Exit (Host T) → Option (List Word)
  | .left _ h' => some (h'.log.map Prod.fst)
  | _ => none

theorem jumpRegion_noBranchInSlot : jumpRegion.NoBranchInSlot := by
  have hall : ∀ i < 6, (jumpRegion.instr i).isBranch → ¬(jumpRegion.instr (i + 1)).isBranch := by
    decide
  exact fun i hi => hall i (Nat.lt_of_succ_lt_succ hi)

/-- The delay slot of the jump is executed, but not the jump. -/
theorem jump_run : ∃ code : HostCode smallTarget, jitRegion jumpRegion = some code ∧
    executed (run (lightning smallEnv) code 2 code (Host.withImem jumpWords)) =
      some [16#32, 12#32, 4#32, 0#32] ∧
    RunsAs smallEnv jumpRegion 2 (jumpRegion.machine (Host.withImem jumpWords))
      (run (lightning smallEnv) code 2 code (Host.withImem jumpWords)) := by
  obtain ⟨code, hc⟩ := jitRegion_isSome (T := smallTarget) jumpRegion
  have hrun : ((jitRegion (T := smallTarget) jumpRegion).bind fun code =>
      executed (run (lightning smallEnv) code 2 code (Host.withImem jumpWords))) =
        some [16#32, 12#32, 4#32, 0#32] := by decide
  rw [hc, Option.bind_some] at hrun
  have hblez : ∀ k < 7, isBlez (jumpRegion.instr k) = false := by decide
  exact ⟨code, hc, hrun, region_follows_machine smallEnv jumpRegion hc jumpRegion_noBranchInSlot _
    (fun _ _ => rfl) (fun _ _ => jumpRegion.misled_eq_none hblez _) (fun _ _ => .inl rfl) 2⟩

theorem log_length (H : Helpers) (n : ℕ) (m : Mips.State) :
    (Mips.steps H n m).log.length = m.log.length + n := by
  induction n with
  | zero => rfl
  | succ n ih =>
    rw [Mips.steps_succ, Mips.step]
    dsimp only
    rw [List.length_cons, ih]
    omega

theorem misledRegion_noBranchInSlot : misledRegion.NoBranchInSlot := by
  have hall : ∀ i < 6, (misledRegion.instr i).isBranch →
      ¬(misledRegion.instr (i + 1)).isBranch := by decide
  exact fun i hi => hall i (Nat.lt_of_succ_lt_succ hi)

/-- The code of `misledRegion` executes the delay slot of `BLEZ $0` and then
goes to 24, the machine to 16. -/
theorem misled_run : misledRegion.NoBranchInSlot ∧ ∃ code :
    HostCode smallTarget, jitRegion misledRegion = some code ∧
    ¬RunsAs smallEnv misledRegion 2 (misledRegion.machine (Host.withImem misledWords))
      (run (lightning smallEnv) code 2 code (Host.withImem misledWords)) := by
  have hrun : ((jitRegion (T := smallTarget) misledRegion).bind fun code =>
      executed (run (lightning smallEnv) code 2 code (Host.withImem misledWords))) =
        some [24#32, 12#32, 4#32, 0#32] := by decide
  have hmachine :
      (Mips.steps smallEnv.toHelpers 4 (misledRegion.machine (Host.withImem misledWords))).log.map
      Prod.fst = [16#32, 12#32, 4#32, 0#32] := by decide
  constructor
  · exact misledRegion_noBranchInSlot
  · obtain ⟨code, hc⟩ := jitRegion_isSome (T := smallTarget) misledRegion
    refine ⟨code, hc, fun hruns => ?_⟩
    rw [hc, Option.bind_some] at hrun
    cases hx : run (lightning smallEnv) code 2 code (Host.withImem misledWords) with
    | left x h' =>
      rw [hx] at hrun hruns
      obtain ⟨n, -, hl⟩ := hruns
      have hlog := Option.some.inj hrun
      have hlen := congrArg List.length hlog
      rw [hl.agree.log] at hlog hlen
      -- the machine has made four steps, and they are others
      have hn : n + 1 = 4 := by
        rw [List.length_map, log_length] at hlen
        exact (Nat.zero_add _).symm.trans hlen
      rw [hn, hmachine] at hlog
      exact absurd hlog (by decide)
    | running h' =>
      rw [hx] at hrun
      cases hrun
    | stuck =>
      rw [hx] at hrun
      cases hrun

end ParallelRsp.Jit
