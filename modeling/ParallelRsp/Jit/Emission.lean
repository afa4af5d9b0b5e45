import ParallelRsp.Jit.Rounds

/-!
# Every region compiles

No assertion of the register cache or of `jit_region` fails, whatever the instructions: from
a usable cache every round generates code and leaves a usable cache (`emits_body`), so
`jit_region` does (`jitRegion_isSome`).
-/

namespace ParallelRsp.Jit

open Codegen

variable {T : Target} {c : RegisterCache T} {h : Host T} {v : View T}

/-- Some helpers, to speak of what is generated for any. -/
def Env.simple : Env T where
  build := .sse2
  rdp := fun cp0 _ rdram => (cp0, rdram)
  clobber := fun _ _ => 0#_
  stray := fun f h => ({ h with
    regs := fun r => match r with | .R _ => 0#_ | .V i => h.regs (.V i) } : Host T).stdcall f

instance : (Env.simple : Env T).Stdcall := ⟨fun _ _ => ite_self _⟩

/-- A host of 32 bits. -/
def smallTarget : Target := ⟨32, 2, 2, by decide, by decide⟩

instance : smallTarget.Stdcall := ⟨rfl⟩

/-- Its helpers. -/
def smallEnv : Env smallTarget := Env.simple

/-- The generator succeeds, with a result and a compile-time state as
wanted; it may define labels. -/
def Succeeds {α : Type} (m : Gen T α) (c : RegisterCache T)
    (P : α → RegisterCache T → Prop) : Prop :=
  ∃ a k c', m c = some (a, k, c') ∧ P a c'

section Rules

variable {α β : Type} {m : Gen T α} {f : α → Gen T β}

theorem Succeeds.of_emits {P : α → RegisterCache T → Prop} (h : emits m c P) : Succeeds m c P := by
  obtain ⟨a, k, c', hm, -, hP⟩ := h
  exact ⟨a, k, c', hm, hP⟩

theorem Succeeds.bind {P : β → RegisterCache T → Prop}
    (h : Succeeds m c fun a c' => Succeeds (f a) c' P) :
    Succeeds (m >>= f) c P := by
  obtain ⟨a, k, c', hm, b, k', c'', hf, hP⟩ := h
  exact ⟨b, .seq k k', c'', Emit.bind_apply hm hf, hP⟩

theorem Succeeds.code {k : HostCode T} {P : Unit → RegisterCache T → Prop} (h : P () c) :
    Succeeds (Emit.code k) c P :=
  ⟨(), k, c, rfl, h⟩

theorem Succeeds.pure {a : α} {P : α → RegisterCache T → Prop} (h : P a c) :
    Succeeds (Pure.pure a) c P :=
  ⟨a, .nil, c, rfl, h⟩

end Rules

/-- The first branch that the frame speaks of. -/
theorem exists_saved (last : InstructionInfo) (v : View T) :
    ∃ v₀, Saved last v₀ v.control.frame := by
  refine ⟨{ v with
    cond := if v.control.frame illegalCondSlot = 0#_ then 0#32 else 1#32
    control := { v.control with indirectPc := v.control.frame illegalIndirectSlot } }, fun _ _ =>
      ?_, fun _ _ => rfl⟩
  dsimp only
  split
  · rename_i h0
    exact iff_of_true h0 rfl
  · rename_i h0
    exact iff_of_false h0 (by decide)

/-- Code is generated behind any instruction. -/
theorem Usable.handleDelaySlot (hU : Usable c) (R : Region) (i : ℕ) (info last : InstructionInfo) :
    emits (R.handleDelaySlot i info last) c fun _ c' => Usable c' := by
  by_cases hno : info.branch ∧ last.branch
  · obtain ⟨h, v, hS⟩ := hU
    obtain ⟨v₀, hs⟩ := exists_saved last v
    rw [Region.handleDelaySlot]
    split
    · exact (wp_jitCheckDelaySlot (E := Env.simple) hS).emits fun _ _ _ hp => hp.1.usable
    · exact (wp_jitHandleImpossibleDelaySlot (E := Env.simple) hS hno.1 hno.2 hs).emits
        fun _ _ _ hp => hp.1.usable
  · exact emits_handleDelaySlot R hU hno

/-- Code is generated for any instruction. -/
theorem Usable.jitInstruction (hU : Usable c) (pc : Word)
    (i : Instr) (last : InstructionInfo) (first nextIsTarget : Bool) :
    emits (jitInstruction pc i last first nextIsTarget) c
      fun info c' => info = instructionInfo pc i nextIsTarget ∧ Usable c' := by
  obtain ⟨h, v, hS⟩ := hU
  refine (wp_jitInstruction (E := Env.simple) hS pc i last first nextIsTarget
    (Env.simple.serves i v.arch)).emits
    fun info c' o ho => ⟨ho.1, ?_⟩
  obtain ⟨-, ho⟩ := ho
  cases o with
  | fall h' =>
    obtain ⟨-, v', hS', -⟩ := ho
    exact hS'.usable
  | goto l h' => exact ho.elim
  | leave x h' =>
    cases x with
    | enterThunk => exact ho.elim
    | returnThunk => exact Empty.usable ⟨ho.2.1, ho.2.2.1⟩

theorem Usable.body (hU : Usable c) (R : Region) (i : ℕ) (last : InstructionInfo) :
    emits (R.body i last) c fun info c' => info = R.info i ∧ Usable c' := by
  refine emits_bind ⟨(), _, c, rfl, trivial, emits_bind ?_⟩
  obtain ⟨info, k, c₁, hk, hl, hinfo, hU₁⟩ :=
    hU.jitInstruction (R.pc i) (R.instr i) last (decide (i = 0)) (R.nextIsTarget i)
  refine ⟨info, k, c₁, hk, hl, emits_bind ?_⟩
  obtain ⟨_, k, c₂, hk, hl, hU₂⟩ := hU₁.handleDelaySlot R i info last
  exact ⟨(), k, c₂, hk, hl, info, .nil, c₂, rfl, trivial, hinfo, hU₂⟩

theorem Usable.flush (hU : Usable c) : Succeeds flushRegisterWindow c fun _ c' => Empty c' := by
  obtain ⟨h, v, hS⟩ := hU
  refine .of_emits ((falls_flush (E := Env.simple) hS).emits fun _ _ _ ho => ?_)
  obtain ⟨_, -, -, -, he⟩ := ho
  exact he

theorem Usable.round (hU : Usable c) (R : Region) (i : ℕ) (last : InstructionInfo) :
    Succeeds (R.round i last) c fun info c' => info = R.info i ∧ Usable c' := by
  have hbody {c : RegisterCache T} (hU : Usable c) := Succeeds.of_emits (hU.body R i last)
  refine .bind ?_
  rw [Emit.when]
  split
  · refine .bind ?_
    obtain ⟨_, k, c₁, hk, -⟩ := hU.flush
    refine ⟨(), k, c₁, hk, .bind ⟨(), .nil, _, rfl, .code (hbody ?_)⟩⟩
    exact Empty.usable ⟨fun _ => Bool.false_ne_true, fun _ =>
      rfl, fun _ hk => absurd hk List.not_mem_nil⟩
  · exact .pure (hbody hU)

theorem Usable.finish (hU : Usable c) (R : Region) (last : InstructionInfo)
    (first : Option InstructionInfo) :
    Succeeds (R.finish last first) c fun _ _ => True := by
  refine .bind ?_
  obtain ⟨_, k, c₁, hk, he₁⟩ := hU.flush
  refine ⟨(), k, c₁, hk, .bind ?_⟩
  obtain ⟨_, k, c₂, hk, -, he₂⟩ :=
    (wp_jitEndOfBlock (E := Env.simple) (he₁.clean.rep Host.zero) he₁ rfl
      (R.pc R.count) last).emits fun _ _ _ ho => ho.1
  refine ⟨(), k, c₂, hk, ?_⟩
  cases first with
  | none => exact .pure trivial
  | some info =>
    refine .bind (.code (.of_emits ?_))
    exact (wp_jitHandleLatentDelaySlot (E := Env.simple)
      (he₂.clean.rep Host.zero) he₂ info).emits fun _ _ _ _ => trivial

theorem Usable.rounds (hU : Usable c) (R : Region) (is : List ℕ)
    (last : InstructionInfo) (first : Option InstructionInfo) :
    Succeeds (R.rounds is last first) c fun _ _ => True := by
  induction is generalizing c last first with
  | nil => exact hU.finish R last first
  | cons i is ih =>
    refine .bind ?_
    obtain ⟨info, k, c₁, hk, -, hU₁⟩ := hU.round R i last
    exact ⟨info, k, c₁, hk, ih hU₁ _ _⟩

/-- Every region compiles. -/
theorem jitRegion_isSome (R : Region) : ∃ code : HostCode T, jitRegion R = some code := by
  have hgen : Succeeds (T := T) (do
      reset
      Emit.assert (R.count ≤ codeBlockWords * 2)
      R.rounds (List.range R.count) {} none) {} fun _ _ => True := by
    refine .bind ⟨(), .nil, _, rfl, .bind ⟨(), .nil, _, if_pos R.small, ?_⟩⟩
    exact empty_default.usable.rounds R _ _ _
  obtain ⟨_, k, c', hk, -⟩ := hgen
  exact ⟨k, Option.map_eq_some_iff.mpr ⟨_, hk, rfl⟩⟩

end ParallelRsp.Jit
