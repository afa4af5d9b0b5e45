import ParallelRsp.Jit.Lightning

/-!
# The register cache

`RegisterCache` of `rsp_jit.cpp`: which host register holds which MIPS register while
code is compiled. Its functions emit the loads and stores that they need. Numbers above
31 name the pending branch condition and two scratch registers, which have no place in
memory.

The three loads differ in how they extend a register; they are one generator with the
extension as a parameter, and three names for it.
-/

namespace ParallelRsp.Jit

open Codegen

/-- The labels of a region: the instructions, and the code that consumes a branch inherited
from the region before. -/
inductive Label where
  /-- The instruction with this index. -/
  | instr (i : ℕ)
  /-- `latent_delay_slot`. -/
  | latent
  deriving DecidableEq

/-- The ways out of a region. -/
inductive Exit where
  /-- `thunks.enter_thunk`. -/
  | enterThunk
  /-- `thunks.return_thunk`. -/
  | returnThunk
  deriving DecidableEq

/-- `RegisterCache::COND_BRANCH_TAKEN`. -/
abbrev condBranchTaken : ℕ := 32

/-- `RegisterCache::SCRATCH_REGISTER0`. -/
abbrev scratchRegister0 : ℕ := 33

/-- `RegisterCache::SCRATCH_REGISTER1`. -/
abbrev scratchRegister1 : ℕ := 34

/-- `RegisterCache::SignState`. -/
inductive SignState where
  | sExt | zExt | unknown
  deriving DecidableEq

/-- `RegisterCache::CacheEntry`. -/
structure CacheEntry where
  /-- `mips_register`. -/
  mipsRegister : ℕ := 0
  /-- `timestamp`. -/
  timestamp : Word := 0#32
  /-- `num_locks`. -/
  numLocks : ℕ := 0
  /-- `sign`. -/
  sign : SignState := .sExt
  /-- `is_live`. -/
  isLive : Bool := false
  /-- `modified`. -/
  modified : Bool := false

/-- `NumFreeRegisters`. -/
abbrev Target.numFree (T : Target) : ℕ := T.numR + T.numV

/-- `RegisterCache`. -/
@[ext]
structure RegisterCache (T : Target) where
  /-- `entries`. -/
  entries : Fin T.numFree → CacheEntry := fun _ => {}
  /-- `timestamp`. -/
  timestamp : Word := 0#32

/-- A generator of the compiler. -/
abbrev Gen (T : Target) (α : Type) : Type := Emit (Op T) (Cond T) Label Exit (RegisterCache T) α

variable {T : Target}

/-- `entry_to_jit_register`. -/
def home (i : Fin T.numFree) : HReg :=
  if i.val < T.numR then .R i.val else .V (3 + (i.val - T.numR))

namespace RegisterCache

/-- An entry replaced. -/
def set (c : RegisterCache T) (i : Fin T.numFree) (e : CacheEntry) : RegisterCache T :=
  { c with entries := Function.update c.entries i e }

/-- `find_live_mips_register`. -/
def findLive (c : RegisterCache T) (r : ℕ) : Option (Fin T.numFree) :=
  (List.finRange T.numFree).find? fun i => (c.entries i).isLive ∧ (c.entries i).mipsRegister = r

/-- `find_free_register`. -/
def findFree (c : RegisterCache T) : Option (Fin T.numFree) :=
  (List.finRange T.numFree).find? fun i => ¬(c.entries i).isLive

/-- One round of `find_oldest_unlocked_register`. -/
def older (c : RegisterCache T) (best : Option (Fin T.numFree)) (i : Fin T.numFree) :
    Option (Fin T.numFree) :=
  if (c.entries i).isLive ∧ (c.entries i).numLocks = 0 then
    match best with
    | none => some i
    | some b => if (c.entries i).timestamp < (c.entries b).timestamp then some i else some b
  else best

/-- `find_oldest_unlocked_register`. -/
def findOldest (c : RegisterCache T) : Option (Fin T.numFree) :=
  (List.finRange T.numFree).foldl c.older none

/-- `find_register`, before its assertion. -/
def findRegister (c : RegisterCache T) (r : ℕ) : Option (Fin T.numFree) :=
  ((c.findLive r).or c.findFree).or c.findOldest

/-- An entry used: it is the youngest, and locked once more. -/
def touch (c : RegisterCache T) (i : Fin T.numFree) : RegisterCache T :=
  { c.set i { c.entries i with
      timestamp := c.timestamp + 1#32
      numLocks := (c.entries i).numLocks + 1 } with
    timestamp := c.timestamp + 1#32 }

end RegisterCache

/-- Write an entry of the cache. -/
def setEntry (i : Fin T.numFree) (f : CacheEntry → CacheEntry) : Gen T Unit :=
  Emit.change fun c => c.set i (f (c.entries i))

/-- `writeback_register`. -/
def writebackRegister (i : Fin T.numFree) : Gen T Unit := do
  let c ← Emit.look
  let r := (c.entries i).mipsRegister
  Emit.assert (r ≠ 0)
  Emit.when (r ≤ condBranchTaken) (Emit.op (.stSr r (home i)))
  setEntry i fun e => { e with modified := false }

/-! ### Loads -/

/-- The extension a load asks for. -/
inductive Extension where
  | noext | sext | zext
  deriving DecidableEq

/-- What the load then knows of the register. -/
def Extension.sign : Extension → SignState
  | .zext => .zExt
  | _ => .sExt

/-- Load a register that is not in the cache. -/
def fillRegister (ext : Extension) (r : ℕ) (i : Fin T.numFree) : Gen T Unit := do
  (if r ≠ 0 then Emit.op (.ldSr (ext ≠ .zext) (home i) r) else Emit.op (.movi (home i) 0#_))
  setEntry i fun e =>
    { e with mipsRegister := r, sign := ext.sign, isLive := true, modified := false }

/-- Extend a register that is in the cache; nothing to be emitted on a host of 32 bits. -/
def extendRegister (ext : Extension) (r : ℕ) (i : Fin T.numFree) : Gen T Unit := do
  let c ← Emit.look
  Emit.when (ext ≠ .noext ∧ (c.entries i).sign ≠ ext.sign) do
    Emit.when (32 < T.wordSize ∧ r ≠ 0) (Emit.op (.extr (ext ≠ .zext) (home i) (home i)))
    setEntry i fun e => { e with sign := ext.sign }

/-- Write back what the entry holds if that is another register. -/
def evictRegister (r : ℕ) (i : Fin T.numFree) : Gen T Unit := do
  let c ← Emit.look
  Emit.when ((c.entries i).isLive ∧ (c.entries i).mipsRegister ≠ r ∧ (c.entries i).modified)
    (writebackRegister i)

/-- `load_mips_register_noext` and its variants. -/
def loadMipsRegister (ext : Extension) (r : ℕ) : Gen T HReg := do
  let c ← Emit.look
  let i ← Emit.force (c.findRegister r)
  Emit.assert (r ≤ condBranchTaken)
  evictRegister r i
  (if (c.entries i).isLive ∧ (c.entries i).mipsRegister = r then extendRegister ext r i
    else fillRegister ext r i)
  Emit.change fun c => c.touch i
  pure (home i)

/-- `load_mips_register_noext`. -/
def loadMipsRegisterNoext (r : ℕ) : Gen T HReg := loadMipsRegister .noext r

/-- `load_mips_register_sext`. -/
def loadMipsRegisterSext (r : ℕ) : Gen T HReg := loadMipsRegister .sext r

/-- `load_mips_register_zext`. -/
def loadMipsRegisterZext (r : ℕ) : Gen T HReg := loadMipsRegister .zext r

/-! ### Modifications -/

/-- `modify_mips_register`, with the number of the entry. -/
def modifyEntry (r : ℕ) : Gen T (Fin T.numFree) := do
  let c ← Emit.look
  let i ← Emit.force (c.findRegister r)
  evictRegister r i
  setEntry i fun e =>
    { e with mipsRegister := r, isLive := true, sign := .unknown, modified := true }
  Emit.change fun c => c.touch i
  pure i

/-- `modify_mips_register`. -/
def modifyMipsRegister (r : ℕ) : Gen T HReg := do
  let i ← modifyEntry r
  pure (home i)

/-- `immediate_mips_register`. -/
def immediateMipsRegister (r : ℕ) (x : BitVec T.wordSize) : Gen T HReg := do
  let i ← modifyEntry r
  Emit.op (.movi (home i) x)
  setEntry i fun e => { e with sign := .sExt }
  pure (home i)

/-- `unlock_mips_register`. -/
def unlockMipsRegister (r : ℕ) : Gen T Unit := do
  let c ← Emit.look
  let i ← Emit.force (c.findLive r)
  Emit.assert (0 < (c.entries i).numLocks)
  setEntry i fun e => { e with numLocks := e.numLocks - 1 }

/-! ### Flushes -/

/-- One entry flushed. -/
def flushEntry (i : Fin T.numFree) : Gen T Unit := do
  let c ← Emit.look
  Emit.when (c.entries i).isLive do
    Emit.when (c.entries i).modified (writebackRegister i)
    Emit.assert ((c.entries i).numLocks = 0)
    setEntry i fun _ => {}

/-- `flush_register_window`. -/
def flushRegisterWindow : Gen T Unit := do
  Emit.each (List.finRange T.numFree) flushEntry
  Emit.change fun c => { c with timestamp := 0#32 }

/-- `flush_caller_save_registers`. -/
def flushCallerSaveRegisters : Gen T Unit :=
  Emit.each ((List.finRange T.numFree).filter fun i => i.val < T.numR) flushEntry

/-- `flush_mips_register`. -/
def flushMipsRegister (r : ℕ) : Gen T Unit := do
  let c ← Emit.look
  match c.findLive r with
  | some i => flushEntry i
  | none => pure ()

/-- `reset`, which leaves the timestamp. -/
def reset : Gen T Unit := Emit.change fun c => { c with entries := fun _ => {} }

end ParallelRsp.Jit
