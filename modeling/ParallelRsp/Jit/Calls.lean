import ParallelRsp.Codegen.Pieces
import ParallelRsp.Jit.Region

/-!
# What an emission asks of the register cache

An emission is one straight line of calls of the register cache, with code in between that names
the host registers handed out so far. `Call` is one of them and `Plan` the line; `Plan.run` performs
it, and `Follows` says that a generator does what a plan says.

In a plan the host registers are bound variables, the one handed out last being number 0. So a plan
also says which of the registers handed out are still to be read at any point of it.
-/

namespace ParallelRsp.Jit

open Codegen

variable {T : Target} {α β : Type}

/-- A call of the register cache, or a piece of code between two. -/
inductive Call (T : Target) where
  /-- `load_mips_register_noext` and its variants. -/
  | load (ext : Extension) (r : ℕ)
  /-- `modify_mips_register`. -/
  | modify (r : ℕ)
  /-- `immediate_mips_register`, whose result nobody uses. -/
  | immediate (r : ℕ) (x : BitVec T.wordSize)
  /-- `unlock_mips_register`. -/
  | unlock (r : ℕ)
  /-- `flush_register_window`. -/
  | flushWindow
  /-- `flush_caller_save_registers`. -/
  | flushCallerSave
  /-- `flush_mips_register`. -/
  | flushMips (r : ℕ)
  /-- `reset`. -/
  | reset
  /-- Code, given the host registers handed out. -/
  | code (k : (ℕ → HReg) → HostCode T)

/-- The calls of an emission. -/
abbrev Plan (T : Target) : Type := List (Call T)

/-- The host registers handed out, by how many have been handed out since. -/
def handed (hs : List HReg) (n : ℕ) : HReg := hs.getD n (.R 0)

namespace Call

/-- Perform a call. -/
def run (hs : List HReg) : Call T → Gen T (List HReg)
  | .load ext r => do
    let d ← loadMipsRegister ext r
    pure (d :: hs)
  | .modify r => do
    let d ← modifyMipsRegister r
    pure (d :: hs)
  | .immediate r x => do
    let _ ← immediateMipsRegister r x
    pure hs
  | .unlock r => do
    unlockMipsRegister r
    pure hs
  | .flushWindow => do
    flushRegisterWindow
    pure hs
  | .flushCallerSave => do
    flushCallerSaveRegisters
    pure hs
  | .flushMips r => do
    flushMipsRegister r
    pure hs
  | .reset => do
    Jit.reset
    pure hs
  | .code k => do
    Emit.code (k (handed hs))
    pure hs

/-- How many host registers it hands out. -/
def hands : Call T → ℕ
  | .load _ _ | .modify _ => 1
  | _ => 0

end Call

/-- A value that a host register is handed out for: a register, and how often the cache was told
that it is written. -/
structure Version where
  /-- The register. -/
  register : ℕ
  /-- The number of writes. -/
  writes : ℕ
  deriving DecidableEq

/-- What host registers have been handed out for. -/
structure Asked where
  /-- The values, the last one first. -/
  values : List Version := []
  /-- How often each register is written. -/
  writes : ℕ → ℕ := fun _ => 0

namespace Asked

/-- The value that a register has now. -/
def current (s : Asked) (r : ℕ) : Version := ⟨r, s.writes r⟩

/-- A register written. -/
def written (s : Asked) (r : ℕ) : Asked :=
  { s with writes := Function.update s.writes r (s.writes r + 1) }

/-- A host register handed out for the value that a register has now. -/
def handOut (s : Asked) (r : ℕ) : Asked := { s with values := s.current r :: s.values }

/-- What a call asks for. -/
def next (s : Asked) : Call T → Asked
  | .load _ r => s.handOut r
  | .modify r => (s.written r).handOut r
  | .immediate r _ => s.written r
  | _ => s

end Asked

namespace Plan

/-- Perform a plan. -/
def run : Plan T → List HReg → Gen T (List HReg)
  | [], hs => pure hs
  | x :: xs, hs => do
    let hs ← x.run hs
    run xs hs

/-- What host registers have been handed out for. -/
def asked (xs : Plan T) (s : Asked) : Asked := xs.foldl Asked.next s

theorem flat_run_append (xs ys : Plan T) (hs : List HReg) (c : RegisterCache T) :
    (Plan.run (xs ++ ys) hs).flat c = (Plan.run xs hs >>= Plan.run ys).flat c := by
  induction xs generalizing hs c with
  | nil => simp [Plan.run, Emit.flat_bind]
  | cons x xs ih =>
    rw [List.cons_append, Plan.run, Plan.run, Emit.flat_bind_assoc, Emit.flat_bind, Emit.flat_bind]
    simp only [ih]

end Plan

/-! ### Generators that follow a plan -/

/-- The generator does what the plan says, with `a` as its result. -/
def Follows (m : Gen T α) (hs : List HReg) (xs : Plan T) (a : α) : Prop :=
  ∀ c, m.flat c = ((Plan.run xs hs).flat c).map fun r => (a, r.2)

namespace Follows

variable {hs : List HReg} {xs ys : Plan T} {a : α} {b : β} {f : α → Gen T β}

theorem pure : Follows (Pure.pure a : Gen T α) hs [] a := fun _ => rfl

theorem pure_bind (h : Follows (f a) hs xs b) : Follows (Pure.pure a >>= f) hs xs b := by
  intro c
  rw [Emit.flat_bind, Emit.flat_pure, Option.bind_some, h c, Option.map_map]
  rfl

theorem assoc {γ : Type} {m : Gen T γ} {g : γ → Gen T α}
    (h : Follows (m >>= fun x => g x >>= f) hs xs b) : Follows (m >>= g >>= f) hs xs b := fun c =>
  (Emit.flat_bind_assoc m g f c).trans (h c)

/-- One emission after another. -/
theorem bind {m : Gen T α} (hm : Follows m hs xs a) (hf : ∀ hs', Follows (f a) hs' ys b) :
    Follows (m >>= f) hs (xs ++ ys) b := by
  intro c
  rw [Plan.flat_run_append, Emit.flat_bind, Emit.flat_bind, hm c]
  cases (Plan.run xs hs).flat c with
  | none => rfl
  | some r =>
    rw [Option.map_some, Option.bind_some, Option.bind_some, hf r.1 r.2.2, Option.map_map,
      Option.map_map]
    rfl

/-- A call in front. -/
theorem cons {m : Gen T α} {x : Call T} {g : α → List HReg}
    (hx : x.run hs = m >>= fun a => Pure.pure (g a)) (hf : ∀ a, Follows (f a) (g a) xs b) :
    Follows (m >>= f) hs (x :: xs) b := by
  intro c
  rw [Plan.run, hx, Emit.flat_bind_assoc, Emit.flat_bind, Emit.flat_bind]
  cases m.flat c with
  | none => rfl
  | some r =>
    simp only [Option.bind_some, hf _ _, Emit.flat_bind, Emit.flat_pure, Option.map_map,
      List.nil_append]
    rfl

/-- A call that hands out a host register. -/
theorem load {ext : Extension} {r : ℕ} {f : HReg → Gen T β}
    (hf : ∀ d, Follows (f d) (d :: hs) xs b) :
    Follows (loadMipsRegister ext r >>= f) hs (.load ext r :: xs) b :=
  cons rfl hf

theorem modify {r : ℕ} {f : HReg → Gen T β} (hf : ∀ d, Follows (f d) (d :: hs) xs b) :
    Follows (modifyMipsRegister r >>= f) hs (.modify r :: xs) b :=
  cons rfl hf

theorem immediate {r : ℕ} {x : BitVec T.wordSize} {f : HReg → Gen T β}
    (hf : ∀ d, Follows (f d) hs xs b) :
    Follows (immediateMipsRegister r x >>= f) hs (.immediate r x :: xs) b :=
  cons (g := fun _ => hs) rfl hf

/-- A call that hands out none. -/
theorem call {m : Gen T Unit} {x : Call T} {f : Unit → Gen T β}
    (hx : x.run hs = m >>= fun _ => Pure.pure hs) (hf : Follows (f ()) hs xs b) :
    Follows (m >>= f) hs (x :: xs) b :=
  cons hx fun _ => hf

/-- The last one. -/
theorem last {m : Gen T Unit} {x : Call T} (hx : x.run hs = m >>= fun _ => Pure.pure hs) :
    Follows m hs [x] () := by
  intro c
  rw [Plan.run, hx, Emit.flat_bind_assoc, Emit.flat_bind]
  cases m.flat c with
  | none => rfl
  | some r => simp [Emit.flat_bind, Plan.run]

theorem ite {p : Prop} [Decidable p] {m n : Gen T α} (hm : p → Follows m hs xs a)
    (hn : ¬p → Follows n hs ys a) :
    Follows (if p then m else n) hs (if p then xs else ys) a := by
  split
  · rename_i hp
    exact hm hp
  · rename_i hp
    exact hn hp

/-- An emission under a condition. -/
theorem when {p : Prop} [Decidable p] {m : Gen T Unit} (hm : p → Follows m hs xs ()) :
    Follows (Emit.when p m) hs (if p then xs else []) () :=
  ite hm fun _ => .pure

end Follows

/-! ### What is still to be read -/

/-- The registers that an instruction reads. -/
def Op.reads : Op T → List HReg
  | .movr _ a | .bini _ _ a _ | .extr _ _ a | .stSr _ a | .stField _ a | .stFrame _ a
  | .ldDmem _ _ a | .pushr a => [a]
  | .binr _ _ a b | .stDmem _ a b => [a, b]
  | .movi _ _ | .ldSr _ _ _ | .ldField _ _ | .ldFrame _ _ | .call _ | .pushDmem
  | .callUnaligned _ | .retval _ | .trace _ _ => []

/-- The registers that an instruction writes. -/
def Op.writes : Op T → List HReg
  | .movi d _ | .movr d _ | .binr _ d _ _ | .bini _ d _ _ | .extr _ d _ | .ldSr _ d _
  | .ldField d _ | .ldFrame d _ | .ldDmem _ d _ | .retval d => [d]
  | .stSr _ _ | .stField _ _ | .stFrame _ _ | .stDmem _ _ _ | .call _ | .pushr _ | .pushDmem
  | .callUnaligned _ | .trace _ _ => []

/-- The register that a condition reads. -/
def Cond.reads : Cond T → HReg
  | .eqi a _ | .nei a _ | .msi a _ => a

/-- The registers that a piece of code reads. -/
def readsOf : HostCode T → List HReg
  | .op i => i.reads
  | .seq a b => readsOf a ++ readsOf b
  | .ite c a b => c.reads :: (readsOf a ++ readsOf b)
  | .br c _ => [c.reads]
  | .nil | .label _ | .jmp _ | .leave _ => []

/-- The contents of the register are still to be read before a piece of code, by the code itself or
by what follows. A jump counts as one to what follows. -/
def ReadFirst : HostCode T → (HReg → Prop) → HReg → Prop
  | .op i, after, d => d ∈ i.reads ∨ d ∉ i.writes ∧ after d
  | .seq a b, after, d => ReadFirst a (ReadFirst b after) d
  | .ite c a b, after, d => d = c.reads ∨ ReadFirst a after d ∨ ReadFirst b after d
  | .br c _, after, d => d = c.reads ∨ after d
  | .nil, after, d | .label _, after, d | .jmp _, after, d | .leave _, after, d => after d

/-- At some point of a piece of code the contents of both registers are still to be read. -/
def BothRead : HostCode T → (HReg → Prop) → HReg → HReg → Prop
  | .seq a b, after, d, e => BothRead a (ReadFirst b after) d e ∨ BothRead b after d e
  | .ite c a b, after, d, e =>
    ReadFirst (.ite c a b) after d ∧ ReadFirst (.ite c a b) after e ∨
      BothRead a after d e ∨ BothRead b after d e
  | k, after, d, e => ReadFirst k after d ∧ ReadFirst k after e

/-- A name for a host register handed out, which none that code names itself has. -/
def name (n : ℕ) : HReg := .V (n + 3)

/-- The code reads the host register with this number. -/
def Call.Reads (i : ℕ) : Call T → Prop
  | .code k => name i ∈ readsOf (k name)
  | _ => False

namespace Plan

/-- Some code of the plan reads the host register with this number. -/
def Reads : Plan T → ℕ → Prop
  | [], _ => False
  | x :: xs, i => x.Reads i ∨ Reads xs (i + x.hands)

/-- The contents of the host register with this number are still to be read. -/
def StillRead : Plan T → ℕ → Prop
  | [], _ => False
  | .code k :: xs, i => ReadFirst (k name) (fun d => ∃ j, name j = d ∧ StillRead xs j) (name i)
  | x :: xs, i => StillRead xs (i + x.hands)

/-- At some point the contents of both host registers are still to be read. -/
def BothRead : Plan T → ℕ → ℕ → Prop
  | [], _, _ => False
  | .code k :: xs, i, j =>
    Jit.BothRead (k name) (fun d => ∃ j, name j = d ∧ StillRead xs j) (name i) (name j) ∨
      BothRead xs i j
  | x :: xs, i, j =>
    StillRead (x :: xs) i ∧ StillRead (x :: xs) j ∨ BothRead xs (i + x.hands) (j + x.hands)

end Plan

attribute [simp] Call.hands Op.reads Op.writes Cond.reads readsOf ReadFirst BothRead Call.Reads
  Plan.Reads Plan.StillRead Plan.BothRead

end ParallelRsp.Jit
