import ParallelRsp.Jit.Emission
import ParallelRsp.Jit.Simulation

/-!
# Passes through a region

A pass runs from the start of a region, or from a label, to the next jump. It is a sequence
of rounds, and each of them is a step of the machine (`Meets.round`), so a pass is a sequence
of steps (`Pass`). Control can enter at every label that is jumped to, since the code in front
of a label leaves all registers in memory and the code behind it expects them there.
-/

namespace ParallelRsp.Jit

open Codegen

variable {T : Target} {E : Env T} {R : Region} {c c' c'' : RegisterCache T}
  {h h' : Host T} {v v' : View T}
  {m : Mips.State} {i j : ℕ} {o : Outcome Label Exit (Host T)}

/-- The host leaves a region by an exit where the machine makes a step. -/
def LeavesBy (E : Env T) (x : Exit) (h' : Host T) (m : Mips.State) : Prop :=
  Left h' (Mips.step E.toHelpers m) ∧
    match x with
    | .enterThunk => m.mode E.toHelpers = .continue
    | .returnThunk => m.mode E.toHelpers ≠ .continue ∧ h'.st.hasDelaySlot = 0#32 ∧
        h'.regs registerMode = BitVec.ofNat _ (modeCode (m.mode E.toHelpers))

/-- If the machine makes an unaligned access, the function that is called for it finds its
arguments. -/
def Env.ServesStep (E : Env T) (m : Mips.State) : Prop := E.Serves m.instr m.arch

/-- How a piece of the code of a region ends, and the steps of the machine until then. Nothing is
said behind a call that does not find its arguments. -/
inductive Pass (E : Env T) (R : Region) (o : Outcome Label Exit (Host T)) : Mips.State → Prop where
  /-- Control passes to the next instruction. -/
  | next {m : Mips.State} (hp : m.pending = none) (hn : ¬R.Leaves E.toHelpers m)
      (hP : Pass E R o (Mips.step E.toHelpers m)) :
    Pass E R o m
  /-- The region is left. -/
  | leave {m : Mips.State} (x : Exit) (h' : Host T) (ho : o = .leave x h')
      (hl : LeavesBy E x h' m) : Pass E R o m
  /-- A branch goes to a label. -/
  | jump {m : Mips.State} (h' : Host T) (j : ℕ) (ho : o = .goto (.instr j) h')
      (hn : ¬R.Leaves E.toHelpers m)
    (hL : Lands E R j h' m) : Pass E R o m
  /-- The inherited branch is to be performed. -/
  | latent {m : Mips.State} (h' : Host T) (v' : View T)
      (ho : o = .goto .latent h') (hm : m.mode E.toHelpers = .continue)
    (hd : ¬(R.info 0).handlesDelaySlot) (hR : ∃ c', Clean c' ∧
      Rep c' h' v') (ht : m.pending.map Mips.Branch.target = some v'.control.branchTarget)
    (harch : v'.arch = (Mips.step E.toHelpers m).arch)
    (hlog : v'.control.log = (Mips.step E.toHelpers m).log)
    (hp : (Mips.step E.toHelpers m).pending.map Mips.Branch.target = pendingTarget (R.info 0) v') :
    Pass E R o m
  /-- The arguments of a call are not found. -/
  | stray {m : Mips.State} (hserves : ¬E.ServesStep m) : Pass E R o m

/-- How the code from instruction `i` on ends. Behind the last one, the region is left. -/
def Tail (E : Env T) (R : Region) (i : ℕ) (o : Outcome Label Exit (Host T))
    (m : Mips.State) : Prop :=
  if i < R.count then Pass E R o m else ∃ h', o = .leave .enterThunk h' ∧ Left h' m

/-! ### The end of a region -/

theorem Meets.end (hM : Meets R R.count v m) (hS : Ready c h v)
    {first : Option InstructionInfo} {k : HostCode T}
    (hk : R.finish (R.lastInfo R.count) first c = some ((), k, c')) :
    ∃ h', exec (lightning E) k h = .leave .enterThunk h' ∧ Left h' m := by
  obtain ⟨_, k₁, c₁, k₂, hk₁, hk₂, rfl⟩ := Emit.bind_eq_some hk
  obtain ⟨_, k₃, c₂, k₄, hk₃, -, rfl⟩ := Emit.bind_eq_some hk₂
  obtain ⟨_, _, _, hf, -, h₁, hx₁, -, hR₁, he₁⟩ := falls_flush (E := E) hS
  cases hk₁.symm.trans hf
  have hds := hM.settled R.pos
  obtain ⟨_, _, _, hf, -, -, h₂, hx₂, hh⟩ :=
    wp_jitEndOfBlock (E := E) hR₁ he₁ hds (R.pc R.count) (R.lastInfo R.count)
  cases hk₃.symm.trans hf
  refine ⟨h₂, ?_, hh.left hM.arch hM.log (hM.aligned R.pos).symm ?_⟩
  · rw [exec, hx₁, Outcome.fall_andThen, exec, hx₂]
    rfl
  · have hslot := hM.slot
    rw [SlotOk, if_neg R.pos.ne'] at hslot
    rcases hslot with hp | ⟨hlt, -⟩
    · rw [hp, Option.map_map]
      exact Option.map_id'
    · exact absurd hlt (Nat.lt_irrefl _)

/-! ### Rounds one after another -/

/-- A round, and then the rest of the region. -/
theorem Meets.tail (hM : Meets R i v m) (hi : i < R.count)
    (hN : R.NoBranchInSlot) (hS : Ready c h v) {info : InstructionInfo} {k k' : HostCode T}
    (hk : R.body i (R.lastInfo i) c = some (info, k, c'))
    (hrest : ∀ {h' : Host T} {v' : View T} {m' : Mips.State}, Ready c' h' v' →
      Meets R (i + 1) v' m' →
      Tail E R (i + 1) (exec (lightning E) k' h') m') :
    Pass E R (exec (lightning E) (.seq k k') h) m := by
  by_cases hserves : E.ServesStep m
  case neg => exact .stray hserves
  rw [Env.ServesStep, hM.instr_eq hi, ← hM.arch] at hserves
  obtain ⟨_, _, _, hb, -, -, -, hpost⟩ := wp_body (E := E) R hS (hN.info hi) hserves
  cases hk.symm.trans hb
  rw [exec]
  cases hM.round hi (hN.info hi) hpost with
  | exit h' ho hm hmode hl hs =>
    rw [ho]
    exact .leave _ h' rfl ⟨hl, hm, hs, hmode⟩
  | next h' v' ho hm hp hS' hM' =>
    rw [ho, Outcome.fall_andThen]
    have htail := hrest hS' hM'
    rw [Tail] at htail
    split at htail
    · rename_i hlt
      refine .next hp ?_ htail
      rintro (hn | hn)
      · exact hn hm
      · rw [hp] at hn
        have := R.pc_injective hi (by omega) ((hM.fetchPc_eq hi).symm.trans hn)
        omega
    · obtain ⟨h'', ho'', hl⟩ := htail
      exact .leave _ h'' ho'' ⟨hl, hm⟩
  | jump h' j ho hm hn hL =>
    rw [ho]
    exact .jump h' j rfl hn hL
  | latent h' v' ho hm hd hR ht harch hlog hp =>
    rw [ho]
    exact .latent h' v' rfl hm hd hR ht harch hlog hp
  | thunk h' ho hm hl =>
    rw [ho]
    exact .leave _ h' rfl ⟨hl, hm⟩

/-- The registers are in memory behind the code in front of a label, and the
label is the only one there. -/
theorem enterBlock_spec {k : HostCode T} (hk : Region.enterBlock i c = some ((), k, c'))
    (hU : Usable c) :
    Empty c' ∧ (∀ {h : Host T} {v : View T}, Ready c h v →
      ∃ h', exec (lightning E) k h = .fall h' ∧ Ready c' h' v) ∧
      ∀ l, atLabel l k = if l = .instr i then some .nil else none := by
  obtain ⟨_, k₁, c₁, k₂, hk₁, hk₂, rfl⟩ := Emit.bind_eq_some hk
  cases hk₂
  have hempty : Empty (T := T) { entries := fun _ => {}, timestamp := c₁.timestamp } :=
    ⟨fun _ => Bool.false_ne_true, fun _ => rfl, fun _ hk => absurd hk List.not_mem_nil⟩
  refine ⟨hempty, fun {h v} hS => ?_, fun l => ?_⟩
  · obtain ⟨_, _, _, hf, -, h₁, hx₁, -, hR₁, he₁⟩ := falls_flush (E := E) hS
    cases hk₁.symm.trans hf
    refine ⟨h₁, ?_, hempty.ready (hR₁.clean_congr he₁.clean hempty.clean)⟩
    rw [exec, hx₁]
    rfl
  · obtain ⟨h, v, hS⟩ := hU
    obtain ⟨_, _, _, hf, hfree, -⟩ := falls_flush (E := E) hS
    cases hk₁.symm.trans hf
    rw [hfree.atLabel_seq]
    rfl

theorem lastInfo_succ (R : Region) (i : ℕ) : R.lastInfo (i + 1) = R.info i := by
  rw [Region.lastInfo, if_neg (Nat.succ_ne_zero i), Nat.add_sub_cancel]

/-- The pieces of a round: what is in front of a label, and the instruction with what follows it. -/
theorem round_pieces {last info : InstructionInfo} {k : HostCode T}
    (hk : R.round i last c = some (info, k, c')) (hU : Usable c) :
    ∃ k₁ c₁ k₂, k = .seq k₁ k₂ ∧ R.body i last c₁ = some (info, k₂, c') ∧
      info = R.info i ∧ k₂.labelFree ∧
      Usable c₁ ∧ Usable c' ∧
      (∀ {h : Host T} {v : View T}, Ready c h v → ∃ h', exec (lightning E) k₁ h = .fall h' ∧
        Ready c₁ h' v) ∧
      (∀ l, l ≠ .instr i → atLabel l k₁ = none) ∧
      (R.blockEntry i → atLabel (.instr i) k₁ = some .nil ∧ Empty c₁) := by
  obtain ⟨_, k₁, c₁, k₂, hk₁, hk₂, rfl⟩ := Emit.bind_eq_some hk
  have hbody (hU₁ : Usable c₁) : info = R.info i ∧ k₂.labelFree ∧ Usable c' := by
    obtain ⟨_, _, _, hb, hfree, hinfo, hU₂⟩ := hU₁.body R i last
    cases hk₂.symm.trans hb
    exact ⟨hinfo, hfree, hU₂⟩
  by_cases he : R.blockEntry i
  · rw [Emit.when, if_pos he] at hk₁
    obtain ⟨hempty, hfall, hlabel⟩ := enterBlock_spec (E := E) hk₁ hU
    obtain ⟨hinfo, hfree, hU₂⟩ := hbody hempty.usable
    refine ⟨k₁, c₁, k₂, rfl, hk₂, hinfo, hfree, hempty.usable, hU₂, hfall, fun l hl =>
      ?_, fun _ => ⟨?_, hempty⟩⟩
    · rw [hlabel, if_neg hl]
    · rw [hlabel, if_pos rfl]
  · rw [Emit.when, if_neg he] at hk₁
    cases hk₁
    obtain ⟨hinfo, hfree, hU₂⟩ := hbody hU
    exact ⟨.nil, c, k₂, rfl, hk₂, hinfo, hfree, hU, hU₂, fun hS =>
      ⟨_, rfl, hS⟩, fun _ _ => rfl, fun h => absurd h he⟩

/-- The rest of a region, from the instruction where it starts and from every label in it. -/
theorem rounds_pass (hN : R.NoBranchInSlot) {n : ℕ} {first : Option InstructionInfo}
    {k : HostCode T} (hn : i + n = R.count) (hU : Usable c)
    (hk : R.rounds (List.range' i n) (R.lastInfo i) first c = some ((), k, c'')) :
    (∀ {h : Host T} {v : View T} {m : Mips.State}, Ready c h v →
      Meets R i v m → Tail E R i (exec (lightning E) k h) m) ∧
    ∀ j, i ≤ j → j < R.count → R.blockEntry j → ∃ k', atLabel (.instr j) k = some k' ∧
      ∀ {h : Host T} {v : View T} {m : Mips.State}, (∀ c, Empty c → Ready c h v) → Meets R j v m →
        Pass E R (exec (lightning E) k' h) m := by
  induction n generalizing i c first k with
  | zero =>
    obtain rfl : i = R.count := hn
    refine ⟨fun hS hM => ?_, fun j hij hj => absurd hj (by omega)⟩
    rw [Tail, if_neg (Nat.lt_irrefl _)]
    exact hM.end hS hk
  | succ n ih =>
    have hi : i < R.count := by omega
    rw [List.range'_succ] at hk
    obtain ⟨info, k₁, c₁, k₂, hround, hrest, rfl⟩ := Emit.bind_eq_some hk
    obtain ⟨ka, ca, kb, rfl, hbody, rfl, hfree, hUa, hU₁, hfall, hlabel, hentry⟩ :=
      round_pieces (E := E) hround hU
    rw [← lastInfo_succ] at hrest
    obtain ⟨htail, hlabels⟩ := ih (by omega) hU₁ hrest
    constructor
    · intro h v m hS hM
      obtain ⟨h₁, hx₁, hS₁⟩ := hfall hS
      rw [Tail, if_pos hi, exec, exec, hx₁]
      exact hM.tail hi hN hS₁ hbody htail
    · intro j hij hj hb
      by_cases hji : j = i
      · subst hji
        obtain ⟨hat, he⟩ := hentry hb
        refine ⟨.seq (.seq .nil kb) k₂, atLabel_seq_of_some (atLabel_seq_of_some hat),
          fun hS hM => ?_⟩
        have hpass := hM.tail hi hN (hS ca he) hbody htail
        exact hpass
      · obtain ⟨k', hat, hpass⟩ := hlabels j (by omega) hj hb
        refine ⟨k', ?_, hpass⟩
        rwa [atLabel_seq_of_none
          ((atLabel_seq_of_none (hlabel _ (by simpa using hji))).trans (hfree.atLabel_eq_none _))]

/-- The code that performs a branch inherited. -/
theorem rounds_latent {is : List ℕ} {last info : InstructionInfo}
    {k : HostCode T} (his : ∀ i ∈ is, i ≠ 0) (hU : Usable c)
    (hk : R.rounds is last (some info) c = some ((), k, c'')) :
    ∃ k', atLabel .latent k = some k' ∧ ∀ {h : Host T} {v : View T}, (∃ c, Clean c ∧ Rep c h v) →
      ∃ h', exec (lightning E) k' h = .leave .enterThunk h' ∧
        HandsOver h' v v.control.branchTarget (pendingTarget info v) ∧ Flagged info v h' := by
  induction is generalizing c last k with
  | nil =>
    obtain ⟨_, k₁, c₁, k₂, hk₁, hk₂, rfl⟩ := Emit.bind_eq_some hk
    obtain ⟨_, k₃, c₂, k₄, hk₃, hk₄, rfl⟩ := Emit.bind_eq_some hk₂
    obtain ⟨_, k₅, c₃, k₆, hk₅, hk₆, rfl⟩ := Emit.bind_eq_some hk₄
    cases hk₅
    obtain ⟨h₀, v₀, hS₀⟩ := hU
    obtain ⟨_, _, _, hf, hfree₁, -, -, -, -, he₁⟩ := falls_flush (E := E) hS₀
    cases hk₁.symm.trans hf
    obtain ⟨_, _, _, hf, hfree₃, he₂, -⟩ :=
      wp_jitEndOfBlock (E := E) (he₁.clean.rep Host.zero) he₁ rfl (R.pc R.count) last
    cases hk₃.symm.trans hf
    refine ⟨.seq .nil k₆, ?_, fun {h v} hR => ?_⟩
    · rw [hfree₁.atLabel_seq, hfree₃.atLabel_seq]
      rfl
    · obtain ⟨c₀, hC₀, hR₀⟩ := hR
      obtain ⟨_, _, _, hf, -, -, h', hx, hh⟩ :=
        wp_jitHandleLatentDelaySlot (E := E) (hR₀.clean_congr hC₀ he₂.clean) he₂ info
      cases hk₆.symm.trans hf
      exact ⟨h', hx, hh⟩
  | cons i is ih =>
    obtain ⟨hi, his'⟩ := List.forall_mem_cons.1 his
    obtain ⟨_, k₁, c₁, k₂, hround, hrest, rfl⟩ := Emit.bind_eq_some hk
    obtain ⟨ka, ca, kb, rfl, -, -, hfree, -, hU₁, -, hlabel, -⟩ := round_pieces (E := E) hround hU
    rw [if_neg fun hn => hi hn.1] at hrest
    obtain ⟨k', hat, hexec⟩ := ih his' hU₁ hrest
    refine ⟨k', ?_, hexec⟩
    rwa [atLabel_seq_of_none
      ((atLabel_seq_of_none (hlabel .latent Label.noConfusion)).trans (hfree.atLabel_eq_none _))]

/-! ### The code of a region -/

/-- The code of a region is that of its rounds. -/
theorem jitRegion_rounds {code : HostCode T} (hc : jitRegion R = some code) :
    ∃ k c', R.rounds (List.range' 0 R.count) (R.lastInfo 0) none {} = some ((), k, c') ∧
      code = .seq .nil (.seq .nil k) := by
  obtain ⟨⟨_, _, c'⟩, hgen, rfl⟩ := Option.map_eq_some_iff.1 hc
  obtain ⟨_, k₁, c₁, k₂, hk₁, hk₂, rfl⟩ := Emit.bind_eq_some hgen
  obtain ⟨_, k₃, c₂, k₄, hk₃, hk₄, rfl⟩ := Emit.bind_eq_some hk₂
  cases hk₁
  rw [Emit.assert, if_pos R.small] at hk₃
  cases hk₃
  rw [List.range_eq_range'] at hk₄
  exact ⟨k₄, c', hk₄, rfl⟩

/-- A pass from the start of a region. -/
theorem jitRegion_start {code : HostCode T} (hc : jitRegion R = some code) (hN : R.NoBranchInSlot)
    (hR : ∀ c, Empty c → Ready c h v) (hM : Meets R 0 v m) :
    Pass E R (exec (lightning E) code h) m := by
  obtain ⟨k, c', hk, rfl⟩ := jitRegion_rounds hc
  have hpass := (rounds_pass (E := E) hN (Nat.zero_add _) empty_default.usable hk).1
    (hR _ empty_default) hM
  rw [Tail, if_pos R.pos] at hpass
  exact hpass

/-- A pass from a label. -/
theorem jitRegion_label {code : HostCode T} (hc : jitRegion R = some code)
    (hN : R.NoBranchInSlot) (hj : j < R.count) (hb : R.blockEntry j) :
    ∃ k', atLabel (.instr j) code = some k' ∧ ∀ {h : Host T} {v : View T} {m : Mips.State},
      (∀ c, Empty c → Ready c h v) → Meets R j v m → Pass E R (exec (lightning E) k' h) m := by
  obtain ⟨k, c', hk, rfl⟩ := jitRegion_rounds hc
  obtain ⟨k', hat, hpass⟩ :=
    (rounds_pass (E := E) hN (Nat.zero_add _) empty_default.usable hk).2 j (Nat.zero_le j) hj hb
  exact ⟨k', hat, hpass⟩

/-- The code that performs a branch inherited, when the first instruction does not leave. -/
theorem jitRegion_latent {code : HostCode T} (hc : jitRegion R = some code)
    (hd : ¬(R.info 0).handlesDelaySlot) :
    ∃ k', atLabel .latent code = some k' ∧ ∀ {h : Host T} {v : View T}, (∃ c, Clean c ∧ Rep c h v) →
      ∃ h', exec (lightning E) k' h = .leave .enterThunk h' ∧
        HandsOver h' v v.control.branchTarget (pendingTarget (R.info 0) v) ∧
          Flagged (R.info 0) v h' := by
  obtain ⟨k, c', hk, rfl⟩ := jitRegion_rounds hc
  obtain ⟨n, hn⟩ : ∃ n, R.count = n + 1 := ⟨R.count - 1, by have := R.pos; omega⟩
  rw [hn, List.range'_succ] at hk
  obtain ⟨_, k₁, c₁, k₂, hround, hrest, rfl⟩ := Emit.bind_eq_some hk
  obtain ⟨ka, ca, kb, rfl, -, rfl, hfree, -, hU₁, -, hlabel, -⟩ :=
    round_pieces (E := E) hround empty_default.usable
  rw [if_pos ⟨rfl, hd⟩] at hrest
  have hpos : ∀ i ∈ List.range' (0 + 1) n, i ≠ 0 := fun i hi => by
    obtain ⟨j, -, rfl⟩ := List.mem_range'.1 hi
    omega
  obtain ⟨k', hat, hexec⟩ := rounds_latent (E := E) hpos hU₁ hrest
  refine ⟨k', ?_, hexec⟩
  have hround : atLabel .latent (.seq ka kb) = none :=
    (atLabel_seq_of_none (hlabel .latent Label.noConfusion)).trans (hfree.atLabel_eq_none _)
  exact (atLabel_seq_of_none rfl).trans
    ((atLabel_seq_of_none rfl).trans ((atLabel_seq_of_none hround).trans hat))

end ParallelRsp.Jit
