import Mathlib.Data.Nat.Notation
import Mathlib.Logic.Function.Basic

/-!
# A fragment of C

Straight-line C over 32-bit integers: assignments to variables of type `unsigned`, reads and
writes of one memory through pointers to three element types, `if`, and calls that do not
return.

## The model

A value is 32 bits and one of the types `int` and `unsigned` (`Val`), since an operand of a
smaller type is promoted to `int`. The usual arithmetic conversions make an operation
unsigned when one operand is. Both types have two's complement representation, so the type
of a value decides how it is compared and how it is shifted to the right, and nothing else;
signed arithmetic wraps. The host is little-endian.

Where an `int` is not negative its type does not matter (`Val.Small`), neither to `<`
(`BinOp.eval_lt`) nor to `>>` (`BinOp.eval_shr`).

This module is general: the names of the variables are a parameter.
-/

namespace ParallelRsp.CLang

/-! ### Values -/

/-- The types of operands. -/
inductive Ty where
  | int | unsigned
  deriving DecidableEq

/-- The usual arithmetic conversions. -/
def Ty.common : Ty → Ty → Ty
  | .int, .int => .int
  | _, _ => .unsigned

/-- A value. -/
structure Val where
  /-- Its type. -/
  ty : Ty
  /-- Its representation. -/
  bits : BitVec 32

/-- An integer constant without suffix. -/
def Val.int (x : BitVec 32) : Val := ⟨.int, x⟩

/-- What a comparison yields. -/
def Val.truth (b : Bool) : Val := .int (if b then 1#32 else 0#32)

/-- An `int` that is not negative, or an `unsigned`. -/
def Val.Small (x : Val) : Prop := x.ty = .int → x.bits.msb = false

/-- `<` between two values of one type. -/
def Ty.lt : Ty → BitVec 32 → BitVec 32 → Bool
  | .int, x, y => x.slt y
  | .unsigned, x, y => x.ult y

/-- The binary operators. -/
inductive BinOp where
  | add | sub | and | or | xor | shl | shr | lt | le | gt | ge | eq | ne
  deriving DecidableEq

/-- What an operator computes. A shift has the type of its left operand. -/
def BinOp.eval (o : BinOp) (a b : Val) : Val :=
  let ty := a.ty.common b.ty
  match o with
  | .add => ⟨ty, a.bits + b.bits⟩
  | .sub => ⟨ty, a.bits - b.bits⟩
  | .and => ⟨ty, a.bits &&& b.bits⟩
  | .or => ⟨ty, a.bits ||| b.bits⟩
  | .xor => ⟨ty, a.bits ^^^ b.bits⟩
  | .shl => ⟨a.ty, a.bits <<< b.bits.toNat⟩
  | .shr =>
    match a.ty with
    | .int => ⟨.int, a.bits.sshiftRight b.bits.toNat⟩
    | .unsigned => ⟨.unsigned, a.bits >>> b.bits.toNat⟩
  | .lt => .truth (ty.lt a.bits b.bits)
  | .le => .truth !(ty.lt b.bits a.bits)
  | .gt => .truth (ty.lt b.bits a.bits)
  | .ge => .truth !(ty.lt a.bits b.bits)
  | .eq => .truth (a.bits == b.bits)
  | .ne => .truth (a.bits != b.bits)

theorem Val.small_unsigned (x : BitVec 32) : Small ⟨.unsigned, x⟩ := nofun

theorem Val.small_int {x : BitVec 32} (h : x.msb = false) : Small (.int x) := fun _ => h

/-- A mask keeps it so. -/
theorem Val.Small.and {a : Val} (ha : a.Small) (b : Val) : (BinOp.and.eval a b).Small := by
  obtain ⟨ta, x⟩ := a
  intro hty
  cases ta with
  | unsigned => cases hty
  | int =>
    have hx : x.msb = false := ha rfl
    show (x &&& b.bits).msb = false
    rw [BitVec.msb_and, hx, Bool.false_and]

/-- A comparison of values whose types do not matter is unsigned. -/
theorem Ty.lt_common {a b : Val} (ha : a.Small) (hb : b.Small) :
    (a.ty.common b.ty).lt a.bits b.bits = a.bits.ult b.bits := by
  obtain ⟨ta, x⟩ := a
  obtain ⟨tb, y⟩ := b
  cases ta with
  | unsigned => rfl
  | int =>
    cases tb with
    | unsigned => rfl
    | int =>
      have hx : x.msb = false := ha rfl
      have hy : y.msb = false := hb rfl
      rw [Ty.common, Ty.lt, BitVec.slt_eq_ult, hx, hy]
      simp

theorem BinOp.eval_lt {a b : Val} (ha : a.Small) (hb : b.Small) :
    lt.eval a b = .truth (a.bits.ult b.bits) :=
  congrArg Val.truth (Ty.lt_common ha hb)

/-- So is its shift to the right. -/
theorem BinOp.eval_shr {a : Val} (ha : a.Small) (b : Val) :
    (shr.eval a b).bits = a.bits >>> b.bits.toNat := by
  obtain ⟨ta, x⟩ := a
  cases ta with
  | unsigned => rfl
  | int => exact BitVec.sshiftRight_eq_of_msb_false (ha rfl)

/-! ### Memory -/

/-- The types of elements. -/
inductive Elem where
  | uchar | ushort | uint
  deriving DecidableEq

/-- An element read and promoted. -/
def Elem.load (mem : ℕ → BitVec 8) (i : ℕ) : Elem → Val
  | .uchar => .int ((mem i).setWidth 32)
  | .ushort => .int ((mem (2 * i + 1) ++ mem (2 * i)).setWidth 32)
  | .uint => ⟨.unsigned, mem (4 * i + 3) ++ mem (4 * i + 2) ++ (mem (4 * i + 1) ++ mem (4 * i))⟩

/-- An element written. -/
def Elem.store (mem : ℕ → BitVec 8) (i : ℕ) (x : BitVec 32) : Elem → ℕ → BitVec 8
  | .uchar => Function.update mem i (x.setWidth 8)
  | .ushort =>
      Function.update (Function.update mem (2 * i) (x.extractLsb' 0 8))
        (2 * i + 1) (x.extractLsb' 8 8)
  | .uint =>
    Function.update (Function.update
      (Function.update (Function.update mem (4 * i) (x.extractLsb' 0 8))
      (4 * i + 1) (x.extractLsb' 8 8)) (4 * i + 2) (x.extractLsb' 16 8))
        (4 * i + 3) (x.extractLsb' 24 8)

/-! ### Expressions and statements -/

section Syntax

variable (V : Type)

/-- An expression without side effects. -/
inductive Expr where
  /-- A constant. -/
  | const (x : Val)
  /-- A variable. -/
  | var (v : V)
  /-- A conversion to `int` or `unsigned`. -/
  | cast (ty : Ty) (e : Expr)
  /-- A conversion to a signed type of `n` bits. -/
  | narrow (n : ℕ) (e : Expr)
  /-- `~e`. -/
  | not (e : Expr)
  /-- A binary operator. -/
  | bin (o : BinOp) (a b : Expr)
  /-- `c ? a : b`. -/
  | cond (c a b : Expr)
  /-- An element of the memory; the index is not negative. -/
  | elem (k : Elem) (i : Expr)

/-- A statement. -/
inductive Stmt where
  /-- No statement. -/
  | skip
  /-- `v = e;`. -/
  | assign (v : V) (e : Expr V)
  /-- An assignment to an element of the memory. -/
  | store (k : Elem) (i e : Expr V)
  /-- One after the other. -/
  | seq (s t : Stmt)
  /-- `if (c) s else t`. -/
  | ite (c : Expr V) (s t : Stmt)
  /-- A call that does not return, with its argument. -/
  | exit (e : Expr V)

/-- What variables and memory hold. -/
structure State where
  /-- The variables. -/
  vars : V → BitVec 32
  /-- The bytes of the memory. -/
  mem : ℕ → BitVec 8

/-- How a statement ends. -/
inductive Outcome where
  /-- At its end. -/
  | fall (s : State V)
  /-- With a call that does not return. -/
  | exit (x : BitVec 32) (s : State V)

end Syntax

section Semantics

variable {V : Type} {σ : State V}

/-- The value of an expression. -/
def Expr.eval : Expr V → State V → Val
  | .const x, _ => x
  | .var v, σ => ⟨.unsigned, σ.vars v⟩
  | .cast ty e, σ => ⟨ty, (e.eval σ).bits⟩
  | .narrow n e, σ => .int (((e.eval σ).bits.setWidth n).signExtend 32)
  | .not e, σ => ⟨(e.eval σ).ty, ~~~(e.eval σ).bits⟩
  | .bin o a b, σ => o.eval (a.eval σ) (b.eval σ)
  | .cond c a b, σ =>
    ⟨(a.eval σ).ty.common (b.eval σ).ty, if (c.eval σ).bits = 0#32
      then (b.eval σ).bits else (a.eval σ).bits⟩
  | .elem k i, σ => k.load σ.mem (i.eval σ).bits.toNat

/-! The operators of C that Lean has a sign for are written with it. -/

instance : Add (Expr V) := ⟨.bin .add⟩

instance : Sub (Expr V) := ⟨.bin .sub⟩

instance : AndOp (Expr V) := ⟨.bin .and⟩

instance : OrOp (Expr V) := ⟨.bin .or⟩

instance : XorOp (Expr V) := ⟨.bin .xor⟩

instance : ShiftLeft (Expr V) := ⟨.bin .shl⟩

instance : ShiftRight (Expr V) := ⟨.bin .shr⟩

section Operators

variable (a b : Expr V) (σ : State V)

@[simp] theorem Expr.eval_add : ((a + b).eval σ).bits = (a.eval σ).bits + (b.eval σ).bits := rfl

@[simp] theorem Expr.eval_and : ((a &&& b).eval σ).bits = (a.eval σ).bits &&& (b.eval σ).bits := rfl

@[simp] theorem Expr.eval_or : ((a ||| b).eval σ).bits = (a.eval σ).bits ||| (b.eval σ).bits := rfl

@[simp] theorem Expr.eval_shl :
    ((a <<< b).eval σ).bits = (a.eval σ).bits <<< (b.eval σ).bits.toNat := rfl

@[simp] theorem Expr.eval_narrow (n : ℕ) :
    ((narrow n a).eval σ).bits = ((a.eval σ).bits.setWidth n).signExtend 32 := rfl

@[simp] theorem Expr.eval_bin (o : BinOp) : (bin o a b).eval σ = o.eval (a.eval σ) (b.eval σ) := rfl

theorem Expr.small_and (h : (a.eval σ).Small) : ((a &&& b).eval σ).Small := h.and _

theorem Expr.eval_shr (h : (a.eval σ).Small) :
    ((a >>> b).eval σ).bits = (a.eval σ).bits >>> (b.eval σ).bits.toNat :=
  BinOp.eval_shr h _

end Operators

/-- Statements one after another. -/
def Stmt.block : List (Stmt V) → Stmt V
  | [] => .skip
  | s :: ss => .seq s (block ss)

/-- Go on behind a statement, if it ends at its end. -/
def Outcome.andThen (o : Outcome V) (f : State V → Outcome V) : Outcome V :=
  match o with
  | .fall σ => f σ
  | .exit x σ => .exit x σ

@[simp] theorem Outcome.fall_andThen (σ : State V) (f : State V → Outcome V) :
    (Outcome.fall σ).andThen f = f σ := rfl

variable [DecidableEq V]

/-- A variable assigned. -/
def State.set (σ : State V) (v : V) (x : BitVec 32) : State V :=
  { σ with vars := Function.update σ.vars v x }

/-- Run a statement. -/
def Stmt.exec : Stmt V → State V → Outcome V
  | .skip, σ => .fall σ
  | .assign v e, σ => .fall (σ.set v (e.eval σ).bits)
  | .store k i e, σ => .fall { σ with mem := k.store σ.mem (i.eval σ).bits.toNat (e.eval σ).bits }
  | .seq s t, σ => (s.exec σ).andThen t.exec
  | .ite c s t, σ => if (c.eval σ).bits = 0#32 then t.exec σ else s.exec σ
  | .exit e, σ => .exit (e.eval σ).bits σ

@[simp] theorem State.set_vars_self (σ : State V) (v : V) (x : BitVec 32) :
    (σ.set v x).vars v = x :=
  Function.update_self _ _ _

theorem State.set_vars_of_ne (σ : State V) {v w : V} (x : BitVec 32) (h : w ≠ v) :
    (σ.set v x).vars w = σ.vars w :=
  Function.update_of_ne h _ _

@[simp] theorem Stmt.exec_block_nil (σ : State V) : (block []).exec σ = .fall σ := rfl

@[simp] theorem Stmt.exec_block_cons (s : Stmt V) (ss : List (Stmt V)) (σ : State V) :
    (block (s :: ss)).exec σ = (s.exec σ).andThen (block ss).exec := rfl

/-- Two runs of statements. -/
theorem Stmt.exec_block_append (ss ts : List (Stmt V)) (σ : State V) :
    (block (ss ++ ts)).exec σ = ((block ss).exec σ).andThen (block ts).exec := by
  induction ss generalizing σ with
  | nil => rfl
  | cons s ss ih =>
    rw [List.cons_append, exec_block_cons, exec_block_cons]
    cases s.exec σ with
    | fall σ' => exact ih σ'
    | exit x σ' => rfl

end Semantics

end ParallelRsp.CLang
