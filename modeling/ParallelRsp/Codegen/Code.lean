import Mathlib.Data.Nat.Notation
import Mathlib.Logic.Function.Basic

/-!
# Code with forward branches and labels

What a one-pass code generator emits: instructions, branches that are patched to a place
further on, and jumps to named labels or out of the code. Over a machine with instructions
`I`, conditions `C`, label names `L` and exits `X`.

## The model

A forward branch over a piece of code, patched right behind it, is a structured `ite`;
everything else keeps its place in the sequence. `exec` runs a piece of code from its
start until it falls out of its end, jumps to a label or leaves. Since it never goes
back, `exec` is total. `atLabel` is the code behind a label, and `run` follows the jumps,
each of which costs one unit of fuel.

This module is general: it mentions no instruction set.
-/

namespace ParallelRsp.Codegen

/-- Emitted code. -/
inductive Code (I C L X : Type*) where
  /-- No code. -/
  | nil
  /-- One instruction. -/
  | op (i : I)
  /-- One piece of code after another. -/
  | seq (a b : Code I C L X)
  /-- A forward branch: the first piece when the condition holds, else the second. -/
  | ite (c : C) (a b : Code I C L X)
  /-- The place of a label. -/
  | label (l : L)
  /-- A conditional jump to a label. -/
  | br (c : C) (l : L)
  /-- A jump to a label. -/
  | jmp (l : L)
  /-- A jump out of the code. -/
  | leave (x : X)

/-- Pieces of code one after another. -/
def Code.block {I C L X : Type*} : List (Code I C L X) → Code I C L X
  | [] => .nil
  | a :: as => .seq a (block as)

/-- How a piece of code ends. -/
inductive Outcome (L X σ : Type*) where
  /-- At its end. -/
  | fall (s : σ)
  /-- With a jump to a label. -/
  | goto (l : L) (s : σ)
  /-- With a jump out of the code. -/
  | leave (x : X) (s : σ)

/-- Go on behind a piece of code, if it ends at its end. -/
def Outcome.andThen {L X σ : Type*} (o : Outcome L X σ) (f : σ → Outcome L X σ) : Outcome L X σ :=
  match o with
  | .fall s => f s
  | .goto l s => .goto l s
  | .leave x s => .leave x s

@[simp] theorem Outcome.fall_andThen {L X σ : Type*} (s : σ) (f : σ → Outcome L X σ) :
    (Outcome.fall s).andThen f = f s := rfl

@[simp] theorem Outcome.goto_andThen {L X σ : Type*} (l : L) (s : σ) (f : σ → Outcome L X σ) :
    (Outcome.goto l s : Outcome L X σ).andThen f = .goto l s := rfl

@[simp] theorem Outcome.leave_andThen {L X σ : Type*} (x : X) (s : σ) (f : σ → Outcome L X σ) :
    (Outcome.leave x s : Outcome L X σ).andThen f = .leave x s := rfl

/-- A machine: what an instruction does, and when a condition holds. -/
structure Interp (I C σ : Type*) where
  /-- One instruction. -/
  step : I → σ → σ
  /-- A condition. -/
  holds : C → σ → Bool

section Exec

variable {I C L X σ : Type*} (M : Interp I C σ)

/-- Run a piece of code from its start. -/
def exec : Code I C L X → σ → Outcome L X σ
  | .nil, s => .fall s
  | .op i, s => .fall (M.step i s)
  | .seq a b, s => (exec a s).andThen (exec b)
  | .ite c a b, s => if M.holds c s then exec a s else exec b s
  | .label _, s => .fall s
  | .br c l, s => if M.holds c s then .goto l s else .fall s
  | .jmp l, s => .goto l s
  | .leave x, s => .leave x s

/-- The code behind a label. Labels stand in the sequence only, not under a branch. -/
def atLabel [DecidableEq L] (l : L) : Code I C L X → Option (Code I C L X)
  | .label l' => if l = l' then some .nil else none
  | .seq a b =>
    match atLabel l a with
    | some k => some (.seq k b)
    | none => atLabel l b
  | _ => none

/-- No label stands anywhere in the code. -/
def Code.labelFree : Code I C L X → Prop
  | .label _ => False
  | .seq a b => a.labelFree ∧ b.labelFree
  | .ite _ a b => a.labelFree ∧ b.labelFree
  | _ => True

theorem Code.labelFree.atLabel_eq_none [DecidableEq L] {k : Code I C L X}
    (h : k.labelFree) (l : L) :
    atLabel l k = none := by
  induction k with
  | seq a b iha ihb => simp [atLabel, iha h.1, ihb h.2]
  | label l' => exact h.elim
  | _ => rfl

theorem atLabel_seq_of_some [DecidableEq L] {l : L} {a b k : Code I C L X}
    (h : atLabel l a = some k) :
    atLabel l (.seq a b) = some (.seq k b) := by
  rw [atLabel, h]

theorem atLabel_seq_of_none [DecidableEq L] {l : L} {a b : Code I C L X} (h : atLabel l a = none) :
    atLabel l (.seq a b) = atLabel l b := by
  rw [atLabel, h]

theorem Code.labelFree.atLabel_seq [DecidableEq L] {a b : Code I C L X} (h : a.labelFree) (l : L) :
    atLabel l (.seq a b) = atLabel l b :=
  atLabel_seq_of_none (h.atLabel_eq_none l)

/-- How a run ends: it left, it is still going on when the fuel is spent, or it went where
there is no code. -/
inductive Result (X σ : Type*) where
  /-- It left. -/
  | left (x : X) (s : σ)
  /-- It is about to jump once more. -/
  | running (s : σ)
  /-- It fell out of the code or jumped to a label that is not there. -/
  | stuck

/-- Run a piece of code of the program `whole`, following at most `fuel` jumps. -/
def run [DecidableEq L] (whole : Code I C L X) : ℕ → Code I C L X → σ → Result X σ
  | fuel, k, s =>
    match exec M k s with
    | .fall _ => .stuck
    | .leave x s' => .left x s'
    | .goto l s' =>
      match fuel with
      | 0 => .running s'
      | fuel + 1 =>
        match atLabel l whole with
        | some k' => run whole fuel k' s'
        | none => .stuck

end Exec

end ParallelRsp.Codegen
