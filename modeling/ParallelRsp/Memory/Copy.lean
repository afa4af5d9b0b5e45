import Mathlib.Data.List.Basic
import Mathlib.Logic.Function.Basic

/-!
# Copying word by word

A memory is a function from addresses. A copy runs through a list of pairs, a source
address and a destination address, and moves one word for each pair in turn. Nothing is
said of where the pairs come from: destinations may repeat, and then the last one counts.

The main result is `copy_swap`: what has been copied out can be copied back, along the
same pairs in the same order, when no destination was reached from two sources.
-/

namespace ParallelRsp.Copy

variable {ι κ α : Type*} [DecidableEq κ]

/-- The memory `g` after the words of `f` have been copied to it along `l`. -/
def copy (f : ι → α) (l : List (ι × κ)) (g : κ → α) : κ → α :=
  l.foldl (fun g p => Function.update g p.2 (f p.1)) g

@[simp] theorem copy_nil (f : ι → α) (g : κ → α) : copy f [] g = g := rfl

theorem copy_cons (f : ι → α) (p : ι × κ) (l : List (ι × κ)) (g : κ → α) :
    copy f (p :: l) g = copy f l (Function.update g p.2 (f p.1)) := rfl

theorem copy_append (f : ι → α) (l l' : List (ι × κ)) (g : κ → α) :
    copy f (l ++ l') g = copy f l' (copy f l g) :=
  List.foldl_append

/-- The last pair counts. -/
theorem copy_append_singleton (f : ι → α) (l : List (ι × κ)) (p : ι × κ) (g : κ → α) :
    copy f (l ++ [p]) g p.2 = f p.1 := by
  rw [copy_append, copy_cons, copy_nil, Function.update_self]

/-- A word that is no destination stays. -/
theorem copy_of_notMem {f : ι → α} {l : List (ι × κ)} {g : κ → α} {k : κ} (hk : ∀ i, (i, k) ∉ l) :
    copy f l g k = g k := by
  induction l generalizing g with
  | nil => rfl
  | cons p l ih =>
    have hp : k ≠ p.2 := by
      rintro rfl
      exact hk p.1 List.mem_cons_self
    rw [copy_cons, ih fun i hi => hk i (List.mem_cons_of_mem _ hi), Function.update_of_ne hp]

/-- A destination holds the word of one of its sources. -/
theorem copy_of_mem {f : ι → α} {l : List (ι × κ)} {g : κ → α} {i : ι} {k : κ} (hk : (i, k) ∈ l) :
    ∃ j, (j, k) ∈ l ∧ copy f l g k = f j := by
  induction l generalizing g i with
  | nil => cases hk
  | cons p l ih =>
    by_cases htail : ∃ j, (j, k) ∈ l
    · obtain ⟨j, hj⟩ := htail
      obtain ⟨j', hj', heq⟩ := ih (g := Function.update g p.2 (f p.1)) hj
      exact ⟨j', List.mem_cons_of_mem _ hj', heq⟩
    · rcases List.mem_cons.1 hk with rfl | hmem
      · refine ⟨i, List.mem_cons_self, ?_⟩
        rw [copy_cons, copy_of_notMem fun j hj => htail ⟨j, hj⟩, Function.update_self]
      · exact absurd ⟨i, hmem⟩ htail

/-- No destination is reached from two sources. -/
def Single (l : List (ι × κ)) : Prop :=
  ∀ ⦃i j k⦄, (i, k) ∈ l → (j, k) ∈ l → i = j

theorem Single.copy_of_mem {f : ι → α} {l : List (ι × κ)} {g : κ → α} {i : ι} {k : κ} (h : Single l)
    (hk : (i, k) ∈ l) : copy f l g k = f i := by
  obtain ⟨j, hj, heq⟩ := Copy.copy_of_mem (f := f) (g := g) hk
  rw [heq, h hj hk]

/-- Copying what is already there changes nothing. -/
theorem copy_eq_self {f : ι → α} {l : List (ι × κ)} {g : κ → α} (h : ∀ p ∈ l, f p.1 = g p.2) :
    copy f l g = g := by
  induction l with
  | nil => rfl
  | cons p l ih =>
    rw [copy_cons, h p List.mem_cons_self, Function.update_eq_self]
    exact ih fun q hq => h q (List.mem_cons_of_mem _ hq)

/-- Copied out and back again. -/
theorem Single.copy_swap [DecidableEq ι] {f : ι → α} {l : List (ι × κ)} {g : κ → α} (h : Single l) :
    copy (copy f l g) (l.map Prod.swap) f = f := by
  refine copy_eq_self fun p hp => ?_
  obtain ⟨q, hq, rfl⟩ := List.mem_map.1 hp
  exact h.copy_of_mem hq

end ParallelRsp.Copy
