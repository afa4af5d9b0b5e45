import ParallelRsp.Jit.CodeCache
import ParallelRsp.Jit.EmittedCode
import ParallelRsp.Jit.Emission

/-!
# Local branches

A branch into the region is a jump whose address is patched in when all instructions have been
compiled. Whatever the words of the region are, its label is then in the code: the emitter, which
computes the target from byte addresses, jumps only to instructions that the scan for block entries
has marked.

The words from the start of a region to its end determine where it ends, its block entries and its
code. The scan for the end may stop early, but it has then looked at no word behind the end.
-/

namespace ParallelRsp.Jit

open Codegen

open CPU (regionEnd)

variable {T : Target}

/-- `local_branches`, each by its `local_index`. -/
def localBranches (k : HostCode T) : List ℕ :=
  k.targets.filterMap fun
    | .instr j => some j
    | .latent => none

theorem mem_localBranches {k : HostCode T} {j : ℕ} :
    j ∈ localBranches k ↔ Label.instr j ∈ k.targets := by
  rw [localBranches, List.mem_filterMap]
  constructor
  · rintro ⟨l, hl, hj⟩
    cases l with
    | instr i => exact Option.some.inj hj ▸ hl
    | latent => cases hj
  · exact fun hl => ⟨.instr j, hl, rfl⟩

/-! ### Where the code jumps to -/

section Targets

variable {J : Label → Prop}

instance : OfJumpless (Code.Targets J : HostCode T → Prop) where
  code {k} hk := by
    induction k with
    | seq a b iha ihb | ite c a b iha ihb => exact (iha hk.1).append (ihb hk.2)
    | label l | br c l | jmp l => exact hk.elim
    | _ => exact fun _ hl => absurd hl List.not_mem_nil

theorem AllowsJump.targets {l : Label} (hl : J l) :
    AllowsJump (Code.Targets J : HostCode T → Prop) l :=
  ⟨List.forall_mem_singleton.2 hl, fun _ => List.forall_mem_singleton.2 hl⟩

/-- An instruction jumps to no label. -/
theorem targets_jitInstruction (pc : Word) (i : Instr) (last : InstructionInfo)
    (first nextIsTarget : Bool) :
    Emit.Only (Code.Targets J) (jitInstruction pc i last first nextIsTarget : Gen T _) := by
  by_cases hi : ∃ rt rd, i = .mtc0 rt rd
  · obtain ⟨rt, rd, rfl⟩ := hi
    have hcall : Code.Targets J (.op (.call (.mtc0 rt rd)) : HostCode T) :=
      fun _ hl => absurd hl List.not_mem_nil
    exact .bind (EmitsPlain.emitCop0 _ hcall pc last first) fun _ => .pure _
  · exact EmitsPlain.jitInstruction pc i (fun rt rd h => hi ⟨rt, rd, h⟩) last first nextIsTarget

end Targets

namespace Region

variable (R : Region)

/-- The labels that the code of a region may jump to. -/
def IsTarget : Label → Prop
  | .instr j => j < R.count ∧ R.blockEntry j
  | .latent => True

variable {R} {i : ℕ} {c c' : RegisterCache T} {k : HostCode T}

/-- The branch before an instruction is compiled as a jump to a block entry. -/
theorem localLabel_lastInfo {l : Label} (hi : i < R.count) (hb : (R.lastInfo i).branch)
    (hl : R.localLabel (R.lastInfo i) = some l) :
    ∃ j, l = .instr j ∧ j < R.count ∧ R.blockEntry j := by
  rw [lastInfo] at hb hl
  split at hb
  · cases hb
  · rename_i h0
    rw [if_neg h0] at hl
    obtain ⟨j, rfl, hj, he, -⟩ := localLabel_some (by omega) hb hl
    exact ⟨j, rfl, hj, he⟩

/-- Only the first instruction of a region jumps to `latent`. -/
theorem targets_body {info : InstructionInfo} (hi : i < R.count)
    (h : R.body i (R.lastInfo i) c = some (info, k, c')) :
    k.Targets fun l => R.IsTarget l ∧ (l = .latent → i = 0 ∧ ¬info.handlesDelaySlot) := by
  obtain ⟨_, k₁, c₁, k₂, hk₁, hrest, rfl⟩ := Emit.bind_eq_some h
  obtain ⟨info', k₃, c₂, k₄, hk₃, hslot, rfl⟩ := Emit.bind_eq_some hrest
  obtain ⟨_, k₅, c₃, k₆, hk₅, hpure, rfl⟩ := Emit.bind_eq_some hslot
  cases hk₁
  cases hpure
  have hnil {J : Label → Prop} : ∀ l ∈ ([] : List Label), J l := fun _ hl =>
    absurd hl List.not_mem_nil
  refine .append hnil (.append (targets_jitInstruction _ _ _ _ _ _ _ _ _ hk₃) (.append ?_ hnil))
  refine EmitsPlain.handleDelaySlot R i info _ (fun h0 hm => .targets ⟨trivial, fun _ => ⟨h0, hm⟩⟩)
    (fun hb l hl => ?_) _ _ _ _ hk₅
  obtain ⟨j, rfl, hj, he⟩ := localLabel_lastInfo hi hb hl
  exact .targets ⟨⟨hj, he⟩, by simp⟩

/-! ### The labels of the code -/

/-- The code from an instruction on: what it jumps to, and the labels in it. -/
structure Labelled (R : Region) (i : ℕ) (k : HostCode T) : Prop where
  /-- It jumps to block entries. -/
  targets : k.Targets R.IsTarget
  /-- Every block entry from here on has its label. -/
  entry : ∀ j, i ≤ j → j < R.count → R.blockEntry j → (atLabel (.instr j) k).isSome
  /-- The code that a branch handed over is performed by is there if needed. -/
  latent : .latent ∈ k.targets → (atLabel .latent k).isSome

theorem atLabel_enterBlock (h : enterBlock i c = some ((), k, c')) :
    (atLabel (.instr i) k).isSome := by
  obtain ⟨_, k₁, c₁, k₂, -, hrest, rfl⟩ := Emit.bind_eq_some h
  obtain ⟨_, k₃, c₂, k₄, -, hlabel, rfl⟩ := Emit.bind_eq_some hrest
  cases hlabel
  exact isSome_atLabel_seq.2 (.inr (isSome_atLabel_seq.2 (.inr (isSome_atLabel_label _))))

/-- The end of a region. -/
theorem labelled_finish {last : InstructionInfo} {first : Option InstructionInfo}
    (h : R.finish last first c = some ((), k, c')) :
    R.Labelled R.count k ∧ (first.isSome → (atLabel .latent k).isSome) := by
  have htargets (J : Label → Prop) : k.Targets J :=
    EmitsPlain.finish R last first (fun _ hl => absurd hl List.not_mem_nil) _ _ _ _ h
  refine ⟨⟨htargets _, fun j hlo hhi => absurd hhi (by omega), fun hl =>
    (htargets (fun _ => False) _ hl).elim⟩, fun hfirst => ?_⟩
  obtain ⟨_, k₁, c₁, k₂, -, hrest, rfl⟩ := Emit.bind_eq_some h
  obtain ⟨_, k₃, c₂, k₄, -, hfinish, rfl⟩ := Emit.bind_eq_some hrest
  cases first with
  | none => cases hfirst
  | some info =>
    obtain ⟨_, k₅, c₃, k₆, hlabel, -, rfl⟩ := Emit.bind_eq_some hfinish
    cases hlabel
    exact isSome_atLabel_seq.2 (.inr (isSome_atLabel_seq.2 (.inr
      (isSome_atLabel_seq.2 (.inl (isSome_atLabel_label _))))))

/-- One round in front of code with its labels. -/
theorem labelled_round {info : InstructionInfo} {k' : HostCode T} (hi : i < R.count)
    (h : R.round i (R.lastInfo i) c = some (info, k, c')) (hk' : R.Labelled (i + 1) k')
    (hlatent : i = 0 → ¬info.handlesDelaySlot → (atLabel .latent k').isSome) :
    R.Labelled i (.seq k k') := by
  obtain ⟨_, k₁, c₁, k₂, henter, hbody, rfl⟩ := Emit.bind_eq_some h
  have htargets := targets_body hi hbody
  have hnone : ∀ l ∈ k₁.targets, False := by
    have hlabel : Code.Targets (fun _ => False) (.label (.instr i) : HostCode T) :=
      fun _ hl => absurd hl List.not_mem_nil
    have hemits : Emit.Only (Code.Targets fun _ => False)
        (Emit.when (R.blockEntry i) (enterBlock i) : Gen T Unit) :=
      .when fun _ => .bind EmitsPlain.flushRegisterWindow fun _ =>
        .bind (.change _) fun _ => .code hlabel
    exact hemits _ _ _ _ henter
  refine ⟨.append (.append (fun l hl => (hnone l hl).elim) fun l hl => (htargets l hl).1)
    hk'.targets, fun j hlo hhi he => ?_, fun hl => isSome_atLabel_seq.2 (.inr ?_)⟩
  · rcases hlo.eq_or_lt with rfl | hlt
    · rw [Emit.when, if_pos he] at henter
      exact isSome_atLabel_seq.2 (.inl (isSome_atLabel_seq.2 (.inl (atLabel_enterBlock henter))))
    · exact isSome_atLabel_seq.2 (.inr (hk'.entry j hlt hhi he))
  · rcases List.mem_append.1 hl with hl | hl
    · rcases List.mem_append.1 hl with hl | hl
      · exact (hnone _ hl).elim
      · obtain ⟨h0, hm⟩ := (htargets _ hl).2 rfl
        exact hlatent h0 hm
    · exact hk'.latent hl

/-- The code of the instructions left has its labels. -/
theorem labelled_rounds {n : ℕ} {first : Option InstructionInfo} (hU : Usable c)
    (hn : i + n = R.count)
    (h : R.rounds (List.range' i n) (R.lastInfo i) first c = some ((), k, c')) :
    R.Labelled i k ∧ (first.isSome → (atLabel .latent k).isSome) := by
  induction n generalizing i c k first with
  | zero =>
    obtain rfl : i = R.count := by omega
    exact labelled_finish h
  | succ n ih =>
    obtain ⟨info, k₁, c₁, k₂, hround, hrest, rfl⟩ := Emit.bind_eq_some h
    obtain ⟨_, _, _, hround', rfl, hU₁⟩ := hU.round R i (R.lastInfo i)
    rw [hround] at hround'
    cases hround'
    obtain ⟨hk₂, hlatent⟩ := ih (i := i + 1) hU₁ (by omega) hrest
    refine ⟨labelled_round (by omega) hround hk₂ fun h0 hm => hlatent ?_, fun hfirst => ?_⟩
    · rw [if_pos ⟨h0, hm⟩]
      rfl
    · refine isSome_atLabel_seq.2 (.inr (hlatent ?_))
      split
      · rfl
      · exact hfirst

/-- The code of a region jumps to block entries, and the labels it jumps to are in it. -/
theorem labelled_jitRegion (h : jitRegion R = some k) : R.Labelled 0 k := by
  obtain ⟨⟨_, k, c⟩, hk, rfl⟩ := Option.map_eq_some_iff.mp h
  obtain ⟨_, k₁, c₁, k₂, hreset, hrest, rfl⟩ := Emit.bind_eq_some hk
  cases hreset
  rw [List.range_eq_range'] at hrest
  obtain ⟨_, k₃, c₂, k₄, hassert, hrounds, rfl⟩ := Emit.bind_eq_some hrest
  rw [Emit.assert, if_pos R.small] at hassert
  cases hassert
  obtain ⟨⟨htargets, hentry, hlatent⟩, -⟩ :=
    labelled_rounds (i := 0) empty_default.usable (by omega) hrounds
  refine ⟨htargets, fun j hlo hhi he => ?_, fun hl => ?_⟩
  · exact isSome_atLabel_seq.2 (.inr (isSome_atLabel_seq.2 (.inr (hentry j hlo hhi he))))
  · exact isSome_atLabel_seq.2 (.inr (isSome_atLabel_seq.2 (.inr (hlatent hl))))

end Region

/-! ### Self-contained regions -/

variable {imem imem' : ℕ → Word} {pc : Word}

/-- IMEM with the same words from the start of a region to its end. -/
theorem same_regionAt (h : ∀ i, CPU.wordPc pc ≤ i → i < regionEnd imem pc → imem i = imem' i) :
    (regionAt imem pc).Same (regionAt imem' pc) where
  pcWord := rfl
  count := congrArg (· - CPU.wordPc pc) (analyzeStaticEnd_congr h)
  word i hi := h _ (Nat.le_add_right _ _) (by
    change i < regionEnd imem pc - CPU.wordPc pc at hi
    change CPU.wordPc pc + i < regionEnd imem pc
    omega)

/-- The region that is compiled at a program counter: it ends in its window, every entry of
`local_branches` names a block entry whose label is in the code, and no word outside it has a
say in where it ends, in its block entries or in its code. -/
theorem regionAt_selfContained (T : Target) (imem : ℕ → Word) (pc : Word) :
    (CPU.wordPc pc < regionEnd imem pc ∧ regionEnd imem pc ≤ windowEnd (pc &&& 0xfff#32).toNat ∧
      regionEnd imem pc - CPU.wordPc pc ≤ codeBlockWords * 2) ∧
    (∃ k : HostCode T, jitRegion (regionAt imem pc) = some k ∧
      (∀ j ∈ localBranches k, j < (regionAt imem pc).count ∧ (regionAt imem pc).blockEntry j ∧
        (atLabel (.instr j) k).isSome) ∧
      (.latent ∈ k.targets → (atLabel .latent k).isSome)) ∧
    ∀ imem' : ℕ → Word, (∀ i, CPU.wordPc pc ≤ i → i < regionEnd imem pc → imem i = imem' i) →
      regionEnd imem' pc = regionEnd imem pc ∧
      (∀ j, (regionAt imem' pc).blockEntry j = (regionAt imem pc).blockEntry j) ∧
      (jitRegion (regionAt imem' pc) : Option (HostCode T)) = jitRegion (regionAt imem pc) := by
  refine ⟨⟨wordPc_lt_regionEnd imem pc, regionEnd_le_windowEnd imem pc, (regionAt imem pc).small⟩,
    ?_, fun imem' h => ?_⟩
  · obtain ⟨k, hk⟩ := jitRegion_isSome (T := T) (regionAt imem pc)
    have hlabelled := Region.labelled_jitRegion hk
    refine ⟨k, hk, fun j hj => ?_, hlabelled.latent⟩
    obtain ⟨hlt, he⟩ := hlabelled.targets _ (mem_localBranches.1 hj)
    exact ⟨hlt, he, hlabelled.entry j (Nat.zero_le j) hlt he⟩
  · have hsame := same_regionAt h
    exact ⟨(analyzeStaticEnd_congr h).symm, fun j => (hsame.blockEntry_eq j).symm,
      hsame.jitRegion_eq.symm⟩

end ParallelRsp.Jit
