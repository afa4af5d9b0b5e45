import ParallelRsp.Codegen.Emit

/-!
# Code without its grouping

`bind` groups the code that generators emit, so that the laws of a monad hold only up to that
grouping. `Code.pieces` forgets it, and `Emit.flat` is what a generator does up to it.

This module is general: it knows neither the compile-time state nor the machine.
-/

namespace ParallelRsp.Codegen

variable {I C L X κ α β γ : Type}

/-- The pieces that code consists of, one after another. -/
def Code.pieces : Code I C L X → List (Code I C L X)
  | .nil => []
  | .seq a b => a.pieces ++ b.pieces
  | k => [k]

namespace Emit

/-- What a generator does: its result, the pieces of code, and the new state. -/
def flat (m : Emit I C L X κ α) (c : κ) : Option (α × List (Code I C L X) × κ) :=
  (m c).map fun r => (r.1, r.2.1.pieces, r.2.2)

@[simp] theorem flat_pure (a : α) (c : κ) :
    flat (pure a : Emit I C L X κ α) c = some (a, [], c) := rfl

theorem flat_bind (m : Emit I C L X κ α) (f : α → Emit I C L X κ β) (c : κ) :
    flat (m >>= f) c = (flat m c).bind fun r =>
      (flat (f r.1) r.2.2).map fun r' => (r'.1, r.2.1 ++ r'.2.1, r'.2.2) := by
  simp only [flat, bind]
  cases m c with
  | none => rfl
  | some r =>
    obtain ⟨a, k, c'⟩ := r
    dsimp only [Option.map_some, Option.bind_some]
    cases f a c' with
    | none => rfl
    | some r => rfl

/-- Sequencing is associative. -/
theorem flat_bind_assoc (m : Emit I C L X κ α) (f : α → Emit I C L X κ β)
    (g : β → Emit I C L X κ γ) (c : κ) :
    flat (m >>= f >>= g) c = flat (m >>= fun a => f a >>= g) c := by
  simp only [flat_bind, Option.bind_assoc, Option.map_bind, Option.bind_map, Function.comp_def,
    Option.map_map, List.append_assoc]

/-- A generator whose result is used at once. -/
theorem flat_bind_pure {m : Emit I C L X κ α} {c c' : κ} {a : α} {ks : List (Code I C L X)}
    (hm : flat m c = some (a, ks, c')) (g : α → β) :
    flat (m >>= fun a => pure (g a)) c = some (g a, ks, c') := by
  rw [flat_bind, hm, Option.bind_some, flat_pure, Option.map_some, List.append_nil]

theorem flat_of_falls {σ : Type} {M : Interp I C σ} {m : Emit I C L X κ α}
    {Q : α → κ → σ → Prop} {c : κ} {s : σ} (h : falls M m Q c s) :
    ∃ a ks c' s', flat m c = some (a, ks, c') ∧ Q a c' s' := by
  obtain ⟨a, k, c', hm, -, s', -, hQ⟩ := h
  exact ⟨a, k.pieces, c', s', by rw [flat, hm]; rfl, hQ⟩

end Emit

end ParallelRsp.Codegen
