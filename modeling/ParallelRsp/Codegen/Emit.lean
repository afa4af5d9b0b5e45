import ParallelRsp.Codegen.Code

/-!
# Code generators

A code generator reads and changes a compile-time state `κ`, emits code, and may fail an
assertion. `Emit` is the monad of such generators, and `wp` says that a generator does
not fail and that the code it emits, run from a machine state, ends as wanted; it has the
usual rules. `falls` is the special case of code that ends at its end.

This module is general: it knows neither the compile-time state nor the machine.
-/

namespace ParallelRsp.Codegen

section Monad

variable {I C L X : Type} {κ : Type}

/-- A generator: from the compile-time state, a result, code, and the new state, or `none`
when an assertion fails. -/
def Emit (I C L X κ α : Type) : Type := κ → Option (α × Code I C L X × κ)

namespace Emit

variable {α β : Type}

instance : Monad (Emit I C L X κ) where
  pure a := fun c => some (a, .nil, c)
  bind m f := fun c =>
    match m c with
    | none => none
    | some (a, k, c') =>
      match f a c' with
      | none => none
      | some (b, k', c'') => some (b, .seq k k', c'')

/-- Emit a piece of code. -/
def code (k : Code I C L X) : Emit I C L X κ Unit := fun c => some ((), k, c)

/-- Emit an instruction. -/
def op (i : I) : Emit I C L X κ Unit := code (.op i)

/-- Look at the compile-time state. -/
def look : Emit I C L X κ κ := fun c => some (c, .nil, c)

/-- Change the compile-time state. -/
def change (f : κ → κ) : Emit I C L X κ Unit := fun c => some ((), .nil, f c)

/-- `assert`. -/
def assert (p : Prop) [Decidable p] : Emit I C L X κ Unit :=
  fun c => if p then some ((), .nil, c) else none

/-- Emit under a condition that the generator decides. -/
def when (p : Prop) [Decidable p] (m : Emit I C L X κ Unit) :
    Emit I C L X κ Unit := if p then m else pure ()

/-- A loop over a list. -/
def each : List β → (β → Emit I C L X κ Unit) → Emit I C L X κ Unit
  | [], _ => pure ()
  | b :: bs, m => do
    m b
    each bs m

/-- A value that an assertion says is there. -/
def force (o : Option α) : Emit I C L X κ α := fun c => o.map fun a => (a, .nil, c)

end Emit

end Monad

section Rules

variable {I C L X κ σ α β : Type} (M : Interp I C σ)

/-- The generator succeeds and defines no label, with a result and a
compile-time state as wanted. -/
def emits (m : Emit I C L X κ α) (c : κ) (P : α → κ → Prop) : Prop :=
  ∃ a k c', m c = some (a, k, c') ∧ k.labelFree ∧ P a c'

/-- The generator succeeds and defines no label, and its code ends as wanted. -/
def wp (m : Emit I C L X κ α) (Q : α → κ → Outcome L X σ → Prop) (c : κ) (s : σ) : Prop :=
  ∃ a k c', m c = some (a, k, c') ∧ k.labelFree ∧ Q a c' (exec M k s)

/-- The same of code that ends at its end. -/
def falls (m : Emit I C L X κ α) (Q : α → κ → σ → Prop) (c : κ) (s : σ) : Prop :=
  wp M m (fun a c' o => ∃ s', o = .fall s' ∧ Q a c' s') c s

variable {M}

theorem wp.emits {m : Emit I C L X κ α} {Q : α → κ → Outcome L X σ → Prop} {c : κ} {s : σ}
    {P : α → κ → Prop} (h : wp M m Q c s) (hq : ∀ a c' o, Q a c' o → P a c') : emits m c P := by
  obtain ⟨a, k, c', hm, hk, ho⟩ := h
  exact ⟨a, k, c', hm, hk, hq _ _ _ ho⟩

theorem wp.mono {m : Emit I C L X κ α} {Q Q' : α → κ → Outcome L X σ → Prop} {c : κ} {s : σ}
    (h : wp M m Q c s) (hq : ∀ a c' o, Q a c' o → Q' a c' o) : wp M m Q' c s := by
  obtain ⟨a, k, c', hm, hk, ho⟩ := h
  exact ⟨a, k, c', hm, hk, hq _ _ _ ho⟩

theorem falls.mono {m : Emit I C L X κ α} {Q Q' : α → κ → σ → Prop} {c : κ} {s : σ}
    (h : falls M m Q c s) (hq : ∀ a c' s', Q a c' s' → Q' a c' s') : falls M m Q' c s := by
  refine wp.mono h ?_
  rintro a c' o ⟨s', rfl, hs⟩
  exact ⟨s', rfl, hq _ _ _ hs⟩

/-- What a sequence of two generators emits. -/
theorem Emit.bind_apply {m : Emit I C L X κ α} {f : α → Emit I C L X κ β}
    {c c' c'' : κ} {a : α} {b : β}
    {k k' : Code I C L X} (hm : m c = some (a, k, c')) (hf : f a c' = some (b, k', c'')) :
    (m >>= f) c = some (b, .seq k k', c'') := by
  show (match m c with
    | none => none
    | some (a, k, c') =>
      match f a c' with
      | none => none
      | some (b, k', c'') => some (b, Code.seq k k', c'')) = _
  rw [hm]
  dsimp only
  rw [hf]

theorem Emit.bind_eq_some {m : Emit I C L X κ α} {f : α → Emit I C L X κ β}
    {c c'' : κ} {b : β} {k : Code I C L X} (h : (m >>= f) c = some (b, k, c'')) :
    ∃ a k₁ c' k₂, m c = some (a, k₁, c') ∧ f a c' = some (b, k₂, c'') ∧ k = .seq k₁ k₂ := by
  simp only [bind] at h
  split at h
  · cases h
  · rename_i a k₁ c' hm
    split at h
    · cases h
    · rename_i b' k₂ c₂ hf
      cases h
      exact ⟨a, k₁, c', k₂, hm, hf, rfl⟩

theorem emits_bind {m : Emit I C L X κ α} {f : α → Emit I C L X κ β} {P : β → κ → Prop} {c : κ}
    (h : emits m c fun a c' => emits (f a) c' P) : emits (m >>= f) c P := by
  obtain ⟨a, k, c', hm, hk, b, k', c'', hf, hk', hP⟩ := h
  exact ⟨b, .seq k k', c'', Emit.bind_apply hm hf, ⟨hk, hk'⟩, hP⟩

/-- Sequencing behind code that may jump: what follows is emitted all the same. -/
theorem wp_bind_outcome {m : Emit I C L X κ α} {f : α → Emit I C L X κ β}
    {Q : β → κ → Outcome L X σ → Prop} {c : κ} {s : σ}
    (h : wp M m (fun a c' o =>
      match o with
      | .fall s' => wp M (f a) Q c' s'
      | o => emits (f a) c' fun b c'' => Q b c'' o) c s) : wp M (m >>= f) Q c s := by
  obtain ⟨a, k, c', hm, hl, ho⟩ := h
  cases hk : exec M k s with
  | fall s' =>
    rw [hk] at ho
    obtain ⟨b, k', c'', hf, hl', hQ⟩ := ho
    exact ⟨b, .seq k k', c'', Emit.bind_apply hm hf, ⟨hl, hl'⟩, by rwa [exec, hk]⟩
  | goto l s' =>
    rw [hk] at ho
    obtain ⟨b, k', c'', hf, hl', hQ⟩ := ho
    exact ⟨b, .seq k k', c'', Emit.bind_apply hm hf, ⟨hl, hl'⟩, by rwa [exec, hk]⟩
  | leave x s' =>
    rw [hk] at ho
    obtain ⟨b, k', c'', hf, hl', hQ⟩ := ho
    exact ⟨b, .seq k k', c'', Emit.bind_apply hm hf, ⟨hl, hl'⟩, by rwa [exec, hk]⟩

/-- Sequencing: the first piece of code falls through into the second. -/
theorem wp_bind {m : Emit I C L X κ α} {f : α → Emit I C L X κ β}
    {Q : β → κ → Outcome L X σ → Prop} {c : κ} {s : σ}
    (h : falls M m (fun a c' s' => wp M (f a) Q c' s') c s) : wp M (m >>= f) Q c s := by
  refine wp_bind_outcome (wp.mono h ?_)
  rintro a c' o ⟨s', rfl, hf⟩
  exact hf

/-- Sequencing of code that falls through. -/
theorem falls_bind {m : Emit I C L X κ α} {f : α → Emit I C L X κ β} {Q : β → κ → σ → Prop}
    {c : κ} {s : σ} (h : falls M m (fun a c' s' => falls M (f a) Q c' s') c s) :
    falls M (m >>= f) Q c s :=
  wp_bind h

theorem falls_pure {a : α} {Q : α → κ → σ → Prop} {c : κ} {s : σ} (h : Q a c s) :
    falls M (pure a : Emit I C L X κ α) Q c s := ⟨a, .nil, c, rfl, trivial, s, rfl, h⟩

theorem wp_code {k : Code I C L X} {Q : Unit → κ → Outcome L X σ → Prop} {c : κ} {s : σ}
    (hk : k.labelFree) (h : Q () c (exec M k s)) : wp M (Emit.code k) Q c s :=
      ⟨(), k, c, rfl, hk, h⟩

theorem falls_op {i : I} {Q : Unit → κ → σ → Prop} {c : κ} {s : σ} (h : Q () c (M.step i s)) :
    falls M (Emit.op i : Emit I C L X κ Unit) Q c s :=
      ⟨(), .op i, c, rfl, trivial, M.step i s, rfl, h⟩

theorem falls_look {Q : κ → κ → σ → Prop} {c : κ} {s : σ} (h : Q c c s) :
    falls M (Emit.look : Emit I C L X κ κ) Q c s := ⟨c, .nil, c, rfl, trivial, s, rfl, h⟩

theorem falls_change {f : κ → κ} {Q : Unit → κ → σ → Prop} {c : κ} {s : σ} (h : Q () (f c) s) :
    falls M (Emit.change f : Emit I C L X κ Unit) Q c s := ⟨(), .nil, f c, rfl, trivial, s, rfl, h⟩

theorem falls_assert {p : Prop} [Decidable p] {Q : Unit → κ → σ → Prop} {c : κ} {s : σ} (hp : p)
    (h : Q () c s) : falls M (Emit.assert p : Emit I C L X κ Unit) Q c s :=
  ⟨(), .nil, c, if_pos hp, trivial, s, rfl, h⟩

theorem falls_when {p : Prop} [Decidable p] {m : Emit I C L X κ Unit}
    {Q : Unit → κ → σ → Prop} {c : κ}
    {s : σ} (h : p → falls M m Q c s) (h' : ¬p → Q () c s) : falls M (Emit.when p m) Q c s := by
  by_cases hp : p
  · rw [Emit.when, if_pos hp]
    exact h hp
  · rw [Emit.when, if_neg hp]
    exact falls_pure (h' hp)

/-- A loop keeps an invariant that may speak of the rounds to come. -/
theorem falls_each {m : β → Emit I C L X κ Unit} {P : List β → κ → σ → Prop}
    (step : ∀ b bs c s, P (b :: bs) c s → falls M (m b) (fun _ => P bs) c s)
    (bs : List β) {c : κ} {s : σ}
    (h : P bs c s) : falls M (Emit.each bs m) (fun _ => P []) c s := by
  induction bs generalizing c s with
  | nil => exact falls_pure h
  | cons b bs ih =>
    refine falls_bind ((step b bs c s h).mono ?_)
    intro _ c' s' h'
    exact ih h'

theorem falls_force {o : Option α} {a : α} {Q : α → κ → σ → Prop} {c : κ} {s : σ} (ho : o = some a)
    (h : Q a c s) : falls M (Emit.force o : Emit I C L X κ α) Q c s :=
  ⟨a, .nil, c, by rw [Emit.force, ho]; rfl, trivial, s, rfl, h⟩

end Rules

end ParallelRsp.Codegen
