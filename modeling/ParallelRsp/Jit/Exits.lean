import ParallelRsp.Jit.Boundaries

/-!
# Exits and the way back

`BREAK`, and `MFC0` or `MTC0` when the helper says so, leave compiled code through the return
thunk. What is saved is where the machine goes next: the branch in whose delay slot the
instruction is has been consumed, whichever of the places it was kept in. So compiled code that
is entered again, also after the program counter has been through `SP_PC_REG`, goes on as if
nothing had happened.
-/

namespace ParallelRsp.Jit

open Codegen

variable {T : Target} {E : Env T} {R : Region} {h h' : Host T} {m : Mips.State} {n : ℕ}

/-! ### Leaving and entering again -/

/-- A run that has left through the return thunk. -/
def returned : Result Exit (Host T) → Option (Host T)
  | .left .returnThunk h' => some h'
  | _ => none

end ParallelRsp.Jit
