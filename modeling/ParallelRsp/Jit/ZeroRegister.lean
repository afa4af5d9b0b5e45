import ParallelRsp.Jit.Dispatch
import ParallelRsp.Jit.EmittedCode
import ParallelRsp.Jit.Exits

/-!
# Register 0 is zero

The emitters never ask memory for register 0, but the helpers do: they read `sr` with the
index that the instruction has. Both agree, since the place of register 0 always holds zero:
no code stores to it, the helpers that write a register leave it alone or clear it, and the
thunks write the branch condition only.
-/

namespace ParallelRsp

/-! ### The helpers -/

/-- The function leaves zero in register 0. -/
def KeepsZero (f : Arch → Arch) : Prop := ∀ a, a.sr 0 = 0#32 → (f a).sr 0 = 0#32

/-- A helper for a register other than 0 does not reach register 0. -/
theorem LocalAt.keepsZero {f : Arch → Arch} {r : ℕ} (h : LocalAt f r) (h0 : r = 0 → KeepsZero f) :
    KeepsZero f := by
  by_cases hr : r = 0
  · exact h0 hr
  · intro a ha
    rw [h.sr_eq a (Ne.symm hr), ha]

theorem KeepsZero.of_sr {f : Arch → Arch} (h : ∀ a, (f a).sr = a.sr) : KeepsZero f := by
  intro a ha
  rw [h, ha]

theorem CP.rspMFC0_keepsZero (rt rd : Fin 32) : KeepsZero fun a => (CP.rspMFC0 rt rd a).1 := by
  refine (CP.rspMFC0_local rt rd).keepsZero fun h0 a ha => ?_
  simp only [CP.rspMFC0, h0, ne_eq, not_true_eq_false, if_false]
  split
  · split <;> exact ha
  · split
    · change Function.update a.sr 0 (0#32 : Word) 0 = 0#32
      rw [Function.update_self]
    · exact ha

theorem CP.rspMTC0_keepsZero (rdp : CP.ProcessRdpList) (rd rt : Fin 32) :
    KeepsZero fun a => (CP.rspMTC0 rdp rd rt a).1 :=
  .of_sr fun a => congrArg (fun p => p.1.sr)
    (CP.mtc0Value_withSr rdp ⟨rd.val % 16, by omega⟩ (a.sr rt) a a.sr)

theorem CP.rspMFC2_keepsZero (rt rd : Fin 32) (e : Fin 16) : KeepsZero (CP.rspMFC2 rt rd e) := by
  refine (CP.rspMFC2_local rt rd e).keepsZero fun h0 a ha => ?_
  rw [CP.rspMFC2, if_pos h0, ha]

theorem CP.rspCFC2_keepsZero (rt rd : Fin 32) : KeepsZero (CP.rspCFC2 rt rd) := by
  refine (CP.rspCFC2_local rt rd).keepsZero fun h0 a ha => ?_
  simp only [CP.rspCFC2, h0, ne_eq, not_true_eq_false, if_false, ha]

theorem CP.rspMTC2_keepsZero (rt rd : Fin 32) (e : Fin 16) : KeepsZero (CP.rspMTC2 rt rd e) := by
  refine .of_sr fun a => ?_
  simp only [CP.rspMTC2]
  repeat' split
  all_goals rfl

namespace Jit

open Codegen

variable {T : Target} {E : Env T}

theorem Callee.keepsZero (H : Helpers) (f : Callee) : KeepsZero fun a => (f.run H a).1 := by
  cases f with
  | vu op e vd vs vt => exact .of_sr fun _ => rfl
  | mfc0 rt rd => exact CP.rspMFC0_keepsZero rt rd
  | mtc0 rt rd => exact CP.rspMTC0_keepsZero H.rdp rd rt
  | mfc2 rt rd e => exact CP.rspMFC2_keepsZero rt rd e
  | mtc2 rt rd e => exact CP.rspMTC2_keepsZero rt rd e
  | cfc2 rt rd => exact CP.rspCFC2_keepsZero rt rd
  | ctc2 rt rd => exact .of_sr fun _ => rfl
  | lwc2 op e rt rs offset => exact .of_sr (LS.lwc2_sr H.build op e rt rs offset)
  | swc2 op e rt rs offset => exact .of_sr fun _ => rfl

/-! ### Compiled code -/

/-- Register 0 is zero in memory. -/
def Host.ZeroZero (h : Host T) : Prop := h.st.sr 0 = 0#32

theorem Host.ZeroZero.enterThunk {h : Host T} (h0 : h.ZeroZero) : (h.enterThunk E).ZeroZero := by
  have hne : 0 ≠ condBranchTaken := by decide
  change Function.update h.st.sr condBranchTaken (0#32 : Word) 0 = 0#32
  rw [Function.update_of_ne hne]
  exact h0

/-- Where a run is in code, the code stores nothing to the place of register 0. -/
def System.Spares (s : System T) : Prop :=
  match s.place with
  | .inside code ks => code.All Op.SparesZero ∧ ∀ k ∈ ks, k.All Op.SparesZero
  | _ => True

/-- The processor where a run of the code of a region is. -/
def System.placed (code : HostCode T) : Config (Op T) (Cond T) Label Exit (Host T) → System T
  | .at ks h => ⟨.inside code ks, h⟩
  | .out .enterThunk h => ⟨.entry, h⟩
  | .out .returnThunk h => ⟨.outside, h.returnThunk⟩

end Jit

end ParallelRsp
