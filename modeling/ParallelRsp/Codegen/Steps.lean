import Mathlib.Logic.Relation
import ParallelRsp.Codegen.Emit

/-!
# Code step by step

`exec` and `run` say where a piece of code ends. `Step` says what it does on the way, one
instruction at a time, and `run_reaches` that both speak of the same runs. What every
instruction of the code preserves, every step preserves (`Step.invariant`).

`Emit.Only` says which code a generator emits, whatever the compile-time state; it has a
rule for each way to build a generator.

This module is general: it mentions no instruction set.
-/

namespace ParallelRsp.Codegen

open Relation

section Steps

variable {I C L X σ : Type*}

/-- Where a run is: in front of some pieces of code, or out of the code. -/
inductive Config (I C L X σ : Type*) where
  /-- The pieces follow, one after another. -/
  | at (ks : List (Code I C L X)) (s : σ)
  /-- It has left. -/
  | out (x : X) (s : σ)

/-- The state of a run. -/
def Config.state : Config I C L X σ → σ
  | .at _ s => s
  | .out _ s => s

variable [DecidableEq L] (M : Interp I C σ) (whole : Code I C L X)

/-- One step of a run of the program `whole`. -/
inductive Step : Config I C L X σ → Config I C L X σ → Prop where
  | nil {ks s} : Step (.at (.nil :: ks) s) (.at ks s)
  | op {i ks s} : Step (.at (.op i :: ks) s) (.at ks (M.step i s))
  | seq {a b ks s} : Step (.at (.seq a b :: ks) s) (.at (a :: b :: ks) s)
  | iteTrue {c a b ks s} (h : M.holds c s = true) :
      Step (.at (.ite c a b :: ks) s) (.at (a :: ks) s)
  | iteFalse {c a b ks s} (h : M.holds c s = false) :
      Step (.at (.ite c a b :: ks) s) (.at (b :: ks) s)
  | label {l ks s} : Step (.at (.label l :: ks) s) (.at ks s)
  | brTaken {c l k ks s} (h : M.holds c s = true) (hl : atLabel l whole = some k) :
    Step (.at (.br c l :: ks) s) (.at [k] s)
  | brFall {c l ks s} (h : M.holds c s = false) : Step (.at (.br c l :: ks) s) (.at ks s)
  | jmp {l k ks s} (hl : atLabel l whole = some k) : Step (.at (.jmp l :: ks) s) (.at [k] s)
  | leave {x ks s} : Step (.at (.leave x :: ks) s) (.out x s)

/-- Any number of steps. -/
abbrev Reaches : Config I C L X σ → Config I C L X σ → Prop := ReflTransGen (Step M whole)

/-- What is reached where a piece of code ends. -/
def Outcome.Reached (ks : List (Code I C L X)) (start : Config I C L X σ) : Outcome L X σ → Prop
  | .fall s => Reaches M whole start (.at ks s)
  | .goto l s => ∀ k, atLabel l whole = some k → Reaches M whole start (.at [k] s)
  | .leave x s => Reaches M whole start (.out x s)

variable {M whole}

theorem Outcome.Reached.trans {ks : List (Code I C L X)}
    {c c' : Config I C L X σ} {o : Outcome L X σ}
    (h : o.Reached M whole ks c') (hs : Reaches M whole c c') : o.Reached M whole ks c := by
  cases o with
  | fall s => exact ReflTransGen.trans hs h
  | goto l s => exact fun k hk => ReflTransGen.trans hs (h k hk)
  | leave x s => exact ReflTransGen.trans hs h

theorem Outcome.Reached.head {ks : List (Code I C L X)}
    {c c' : Config I C L X σ} {o : Outcome L X σ}
    (hs : Step M whole c c') (h : o.Reached M whole ks c') :
    o.Reached M whole ks c := h.trans (.single hs)

/-- Where a piece of code ends is reached. -/
theorem exec_reached (k : Code I C L X) (ks : List (Code I C L X)) (s : σ) :
    (exec M k s).Reached M whole ks (.at (k :: ks) s) := by
  induction k generalizing ks s with
  | nil => exact .single .nil
  | op i => exact .single .op
  | seq a b iha ihb =>
    refine .head .seq ?_
    have ha := iha (b :: ks) s
    rw [exec]
    cases ho : exec M a s with
    | fall s' =>
      rw [ho] at ha
      exact (ihb ks s').trans ha
    | goto l s' =>
      rw [ho] at ha
      exact ha
    | leave x s' =>
      rw [ho] at ha
      exact ha
  | ite c a b iha ihb =>
    rw [exec]
    cases hc : M.holds c s with
    | true => exact .head (.iteTrue hc) (iha ks s)
    | false => exact .head (.iteFalse hc) (ihb ks s)
  | label l => exact .single .label
  | br c l =>
    rw [exec]
    cases hc : M.holds c s with
    | true => exact fun k hk => .single (.brTaken hc hk)
    | false => exact .single (.brFall hc)
  | jmp l => exact fun k hk => .single (.jmp hk)
  | leave x => exact .single .leave

variable (M whole) in
/-- The step, computed. -/
def next : Config I C L X σ → Option (Config I C L X σ)
  | .at (.nil :: ks) s => some (.at ks s)
  | .at (.op i :: ks) s => some (.at ks (M.step i s))
  | .at (.seq a b :: ks) s => some (.at (a :: b :: ks) s)
  | .at (.ite c a b :: ks) s => some (.at ((if M.holds c s then a else b) :: ks) s)
  | .at (.label _ :: ks) s => some (.at ks s)
  | .at (.br c l :: ks) s =>
      if M.holds c s then (atLabel l whole).map fun k => .at [k] s else some (.at ks s)
  | .at (.jmp l :: _) s => (atLabel l whole).map fun k => .at [k] s
  | .at (.leave x :: _) s => some (.out x s)
  | _ => none

theorem Step.of_next {c c' : Config I C L X σ} (h : next M whole c = some c') :
    Step M whole c c' := by
  cases c with
  | out x s => cases h
  | «at» ks s =>
    cases ks with
    | nil => cases h
    | cons k ks =>
      cases k with
      | nil => exact Option.some_inj.1 h ▸ .nil
      | op i => exact Option.some_inj.1 h ▸ .op
      | seq a b => exact Option.some_inj.1 h ▸ .seq
      | ite c a b =>
        rw [next] at h
        split at h
        · rename_i hc
          exact Option.some_inj.1 h ▸ .iteTrue hc
        · rename_i hc
          exact Option.some_inj.1 h ▸ .iteFalse (Bool.eq_false_iff.2 hc)
      | label l => exact Option.some_inj.1 h ▸ .label
      | br c l =>
        rw [next] at h
        split at h
        · rename_i hc
          obtain ⟨k, hl, rfl⟩ := Option.map_eq_some_iff.1 h
          exact .brTaken hc hl
        · rename_i hc
          exact Option.some_inj.1 h ▸ .brFall (Bool.eq_false_iff.2 hc)
      | jmp l =>
        obtain ⟨k, hl, rfl⟩ := Option.map_eq_some_iff.1 h
        exact .jmp hl
      | leave x => exact Option.some_inj.1 h ▸ .leave

/-- A run that leaves does so step by step. -/
theorem run_reaches {fuel : ℕ} {k : Code I C L X} {s s' : σ}
    {x : X} (h : run M whole fuel k s = .left x s') :
    Reaches M whole (.at [k] s) (.out x s') := by
  induction fuel generalizing k s with
  | zero =>
    have hk : (exec M k s).Reached M whole [] (.at [k] s) := exec_reached k [] s
    rw [run] at h
    split at h
    · cases h
    · rename_i ho
      cases h
      rwa [ho] at hk
    · cases h
  | succ fuel ih =>
    have hk : (exec M k s).Reached M whole [] (.at [k] s) := exec_reached k [] s
    rw [run] at h
    split at h
    · cases h
    · rename_i ho
      cases h
      rwa [ho] at hk
    · rename_i l s₁ ho
      rw [ho] at hk
      dsimp only at h
      split at h
      · rename_i k' hk'
        exact ReflTransGen.trans (hk k' hk') (ih h)
      · cases h

/-! ### From steps to runs -/

variable (M whole) in
/-- A run depends on where its piece of code ends only. -/
theorem run_congr {k k' : Code I C L X} {s s' : σ} (h : exec M k s = exec M k' s') (fuel : ℕ) :
    run M whole fuel k s = run M whole fuel k' s' := by
  cases fuel with
  | zero => rw [run, run, h]
  | succ fuel => rw [run, run, h]

omit [DecidableEq L] in
theorem exec_block_singleton (k : Code I C L X) (s : σ) : exec M (.block [k]) s = exec M k s := by
  show (exec M k s).andThen .fall = exec M k s
  cases exec M k s <;> rfl

/-- A run from where a step starts is one from where it ends. -/
theorem Step.run_eq {ks ks' : List (Code I C L X)} {s s' : σ}
    (h : Step M whole (.at ks s) (.at ks' s')) (fuel : ℕ) :
    ∃ fuel', run M whole fuel' (.block ks) s = run M whole fuel (.block ks') s' := by
  cases h with
  | nil | op | label =>
    refine ⟨fuel, run_congr M whole ?_ fuel⟩
    rfl
  | @seq a b =>
    refine ⟨fuel, run_congr M whole ?_ fuel⟩
    show ((exec M a s).andThen (exec M b)).andThen _ = (exec M a s).andThen _
    cases exec M a s <;> rfl
  | iteTrue hc | iteFalse hc | brFall hc =>
    refine ⟨fuel, run_congr M whole ?_ fuel⟩
    rw [Code.block, exec, exec, hc]
    rfl
  | @brTaken c l k ks _ hc hl =>
    refine ⟨fuel + 1, ?_⟩
    have hgoto : exec M (.block (.br c l :: ks)) s = .goto l s := by
      rw [Code.block, exec, exec, hc]
      rfl
    rw [run, hgoto]
    simp only [hl]
    exact run_congr M whole (exec_block_singleton k s).symm fuel
  | @jmp l k ks _ hl =>
    refine ⟨fuel + 1, ?_⟩
    have hgoto : exec M (.block (.jmp l :: ks)) s = .goto l s := rfl
    rw [run, hgoto]
    simp only [hl]
    exact run_congr M whole (exec_block_singleton k s).symm fuel

/-- A run from where any number of steps start is one from where they end. -/
theorem Reaches.run_eq {ks ks' : List (Code I C L X)} {s s' : σ}
    (h : Reaches M whole (.at ks s) (.at ks' s')) (fuel : ℕ) :
    ∃ fuel', run M whole fuel' (.block ks) s = run M whole fuel (.block ks') s' := by
  generalize hc : Config.at ks s = c at h
  induction h using ReflTransGen.head_induction_on generalizing ks s with
  | refl =>
    cases hc
    exact ⟨fuel, rfl⟩
  | @head c c' hs hrest ih =>
    subst hc
    cases c' with
    | «at» ks₁ s₁ =>
      obtain ⟨fuel₁, h₁⟩ := ih rfl
      obtain ⟨fuel₂, h₂⟩ := hs.run_eq fuel₁
      exact ⟨fuel₂, h₂.trans h₁⟩
    | out x s₁ =>
      rcases ReflTransGen.cases_head hrest with he | ⟨_, hs', -⟩
      · cases he
      · cases hs'

/-- What leaves step by step is a run that leaves: the other direction of `run_reaches`. -/
theorem run_of_reaches {k : Code I C L X} {ks : List (Code I C L X)} {s s₁ s' : σ} {x : X}
    (h : Reaches M whole (.at [k] s) (.at ks s₁)) (hs : Step M whole (.at ks s₁) (.out x s')) :
    ∃ fuel, run M whole fuel k s = .left x s' := by
  cases hs with
  | leave =>
    obtain ⟨fuel, hf⟩ := h.run_eq 0
    exact ⟨fuel, (run_congr M whole (exec_block_singleton k s) fuel).symm.trans hf⟩

end Steps

/-! ### The instructions of a piece of code -/

section All

variable {I C L X σ : Type*} {P : I → Prop}

/-- Every instruction of the code satisfies `P`. -/
def Code.All (P : I → Prop) : Code I C L X → Prop
  | .op i => P i
  | .seq a b => a.All P ∧ b.All P
  | .ite _ a b => a.All P ∧ b.All P
  | _ => True

theorem Code.All.mono {P' : I → Prop} {k : Code I C L X} (hk : k.All P) (h : ∀ i, P i → P' i) :
    k.All P' := by
  induction k with
  | op i => exact h i hk
  | seq a b iha ihb => exact ⟨iha hk.1, ihb hk.2⟩
  | ite c a b iha ihb => exact ⟨iha hk.1, ihb hk.2⟩
  | _ => trivial

theorem Code.All.atLabel [DecidableEq L] {k k' : Code I C L X}
    {l : L} (h : k.All P) (hl : atLabel l k = some k') :
    k'.All P := by
  induction k generalizing k' with
  | seq a b iha ihb =>
    simp only [Codegen.atLabel] at hl
    split at hl
    · rename_i k ha
      obtain rfl := Option.some.inj hl
      exact ⟨iha h.1 ha, h.2⟩
    · exact ihb h.2 hl
  | label l' =>
    simp only [Codegen.atLabel] at hl
    split at hl
    · obtain rfl := Option.some.inj hl
      trivial
    · cases hl
  | _ => cases hl

/-- The code in front of which a run is. -/
def Config.All (P : I → Prop) : Config I C L X σ → Prop
  | .at ks _ => ∀ k ∈ ks, k.All P
  | .out _ _ => True

variable [DecidableEq L] {M : Interp I C σ} {whole : Code I C L X} {J : σ → Prop}

end All

/-! ### The jumps of a piece of code -/

section Targets

variable {I C L X : Type*}

/-- The labels that the code jumps to. -/
def Code.targets : Code I C L X → List L
  | .seq a b | .ite _ a b => a.targets ++ b.targets
  | .br _ l | .jmp l => [l]
  | _ => []

/-- The code jumps only to labels that satisfy `P`. -/
def Code.Targets (P : L → Prop) (k : Code I C L X) : Prop := ∀ l ∈ k.targets, P l

theorem Code.Targets.append {P : L → Prop} {a b : Code I C L X}
    (ha : a.Targets P) (hb : b.Targets P) : ∀ l ∈ a.targets ++ b.targets, P l := fun l hl =>
  (List.mem_append.1 hl).elim (ha l) (hb l)

theorem isSome_atLabel_label [DecidableEq L] (l : L) :
    (atLabel l (.label l : Code I C L X)).isSome := by
  rw [atLabel, if_pos rfl]
  rfl

/-- A label of a sequence is one of its pieces'. -/
theorem isSome_atLabel_seq [DecidableEq L] {l : L} {a b : Code I C L X} :
    (atLabel l (.seq a b)).isSome ↔ (atLabel l a).isSome ∨ (atLabel l b).isSome := by
  cases ha : atLabel l a with
  | some k => simp [atLabel_seq_of_some ha]
  | none => simp [atLabel_seq_of_none ha]

end Targets

/-! ### The instructions of a generator -/

section Only

variable {I C L X κ α β : Type} {P : I → Prop}

theorem Emit.bind_none {m : Emit I C L X κ α} {f : α → Emit I C L X κ β} {c : κ} (h : m c = none) :
    (m >>= f) c = none := by
  simp only [bind, h]

/-- A property of code that what is put together has when its pieces have it. -/
class Code.Closed (Q : Code I C L X → Prop) : Prop where
  /-- No code. -/
  nil : Q .nil
  /-- One piece after another. -/
  seq : ∀ {a b}, Q a → Q b → Q (.seq a b)

instance : Code.Closed (Code.All P : Code I C L X → Prop) where
  nil := trivial
  seq ha hb := ⟨ha, hb⟩

instance {J : L → Prop} : Code.Closed (Code.Targets J : Code I C L X → Prop) where
  nil := fun _ hl => absurd hl List.not_mem_nil
  seq ha hb := ha.append hb

/-- The generator emits only code that satisfies `Q`. -/
def Emit.Only (Q : Code I C L X → Prop) (m : Emit I C L X κ α) : Prop :=
  ∀ c a k c', m c = some (a, k, c') → Q k

namespace Emit.Only

variable {Q Q' : Code I C L X → Prop}

theorem mono {m : Emit I C L X κ α} (hm : Only Q m) (h : ∀ k, Q k → Q' k) : Only Q' m :=
  fun c a k c' hk => h k (hm c a k c' hk)

theorem code {k : Code I C L X} (h : Q k) : Only Q (Emit.code k : Emit I C L X κ Unit) := by
  rintro c _ _ _ ⟨⟩
  exact h

theorem op {i : I} (h : Q (.op i)) : Only Q (Emit.op i : Emit I C L X κ Unit) := code h

section Closed

variable [hQ : Code.Closed Q]

theorem bind {m : Emit I C L X κ α} {f : α → Emit I C L X κ β}
    (hm : Only Q m) (hf : ∀ a, Only Q (f a)) :
    Only Q (m >>= f) := by
  intro c b k c' h
  obtain ⟨a, k₁, c₁, k₂, h₁, h₂, rfl⟩ := Emit.bind_eq_some h
  exact hQ.seq (hm _ _ _ _ h₁) (hf a _ _ _ _ h₂)

theorem pure (a : α) : Only Q (Pure.pure a : Emit I C L X κ α) := by
  rintro c _ _ _ ⟨⟩
  exact hQ.nil

theorem look : Only Q (Emit.look : Emit I C L X κ κ) := by
  rintro c _ _ _ ⟨⟩
  exact hQ.nil

theorem change (f : κ → κ) : Only Q (Emit.change f : Emit I C L X κ Unit) := by
  rintro c _ _ _ ⟨⟩
  exact hQ.nil

theorem assert (p : Prop) [Decidable p] : Only Q (Emit.assert p : Emit I C L X κ Unit) := by
  intro c a k c' h
  rw [Emit.assert] at h
  split at h
  · cases h
    exact hQ.nil
  · cases h

/-- What follows an assertion is emitted only when it holds. -/
theorem assert_bind {p : Prop} [Decidable p] {m : Emit I C L X κ β} (h : p → Only Q m) :
    Only Q (Emit.assert p >>= fun _ => m) := by
  by_cases hp : p
  · exact bind (assert p) fun _ => h hp
  · intro c b k c' hb
    have hnone : (Emit.assert p : Emit I C L X κ Unit) c = none := if_neg hp
    exact nomatch (Emit.bind_none hnone).symm.trans hb

theorem when {p : Prop} [Decidable p] {m : Emit I C L X κ Unit} (h : p → Only Q m) :
    Only Q (Emit.when p m) := by
  rw [Emit.when]
  split
  · rename_i hp
    exact h hp
  · exact pure ()

theorem each (bs : List β) {m : β → Emit I C L X κ Unit} (h : ∀ b, Only Q (m b)) :
    Only Q (Emit.each bs m) := by
  induction bs with
  | nil => exact pure ()
  | cons b bs ih => exact bind (h b) fun _ => ih

theorem force (o : Option α) : Only Q (Emit.force o : Emit I C L X κ α) := by
  intro c a k c' h
  cases o with
  | none => cases h
  | some b =>
    cases h
    exact hQ.nil

end Closed

theorem ite {p : Prop} [Decidable p] {m n : Emit I C L X κ α}
    (hm : p → Only Q m) (hn : ¬p → Only Q n) :
    Only Q (if p then m else n) := by
  split
  · rename_i hp
    exact hm hp
  · rename_i hp
    exact hn hp

end Emit.Only

end Only

end ParallelRsp.Codegen
