import ParallelRsp.Simd.LaneWise
import ParallelRsp.Vu.Builds

/-!
# The lanes of the vector unit

A vector instruction works on eight lanes at once. What lane `i` becomes depends on
lane `i` of `vs`, of the accumulator and of the flags, on the lane of `vt` that the
element selector picks for `i`, and on nothing else; and every lane is worked on like
every other.

Both are said at once of two states of the unit that agree along a renaming `σ` of the
lanes of a set `L`. The selectors must fit: what they pick for a lane of `L` is in `L`,
and is renamed with it. The divisions read one lane of `vt` and write one of `vd`; for
these the renaming has to leave those two lanes in place.

## What is proved

* `vuop_along`: one vector operation keeps the agreement.
* `runOps_along`: so does a whole run.
-/

namespace ParallelRsp

open Simd

variable {L : Set (Fin 8)} {σ : Fin 8 → Fin 8}

/-! ### Agreement -/

/-- On the lanes of `L`, the second state holds at `σ i` what the first holds at `i`. What
belongs to no lane is the same. -/
structure CP2.Along (L : Set (Fin 8)) (σ : Fin 8 → Fin 8) (a b : CP2) : Prop where
  /-- The vector registers. -/
  regs : ∀ r, Simd.Along L σ (a.regs r) (b.regs r)
  /-- The high lanes of the flags. -/
  hi : ∀ f, Simd.Along L σ (a.flags f).hi (b.flags f).hi
  /-- The low lanes of the flags. -/
  lo : ∀ f, Simd.Along L σ (a.flags f).lo (b.flags f).lo
  /-- The accumulator, high. -/
  accHi : Simd.Along L σ a.acc.hi b.acc.hi
  /-- The accumulator, middle. -/
  accMd : Simd.Along L σ a.acc.md b.acc.md
  /-- The accumulator, low. -/
  accLo : Simd.Along L σ a.acc.lo b.acc.lo
  /-- The divider. -/
  div : a.divOut = b.divOut ∧ a.divIn = b.divIn ∧ a.dpFlag = b.dpFlag

/-- `VRCP`, `VRCPL`, `VRCPH`, `VRSQ`, `VRSQL` and `VRSQH`. -/
def VU.Divides (op : Fin 64) : Prop := op.val ∈ [48, 49, 50, 52, 53, 54]

/-- The operations that do not read `vt`: `VMACQ`, `VSAR` and `VNOP`. -/
def VU.IgnoresVt (op : Fin 64) : Prop := op.val ∈ [11, 29, 55, 63]

instance (op : Fin 64) : Decidable (VU.Divides op) :=
  inferInstanceAs (Decidable (op.val ∈ [48, 49, 50, 52, 53, 54]))

/-- The element selectors of an operation fit the lanes `L` and their renaming. -/
structure VU.Fits (L : Set (Fin 8)) (σ : Fin 8 → Fin 8) (op : Fin 64) (e : Fin 16)
    (vs : Fin 32) : Prop where
  /-- The lane of `vt` picked for a lane of `L`. -/
  operand : ¬VU.IgnoresVt op →
    ∀ i ∈ L, operandLane e i ∈ L ∧ σ (operandLane e i) = operandLane e (σ i)
  /-- The one lane of `vd` that a division or `VMOV` writes. -/
  dest : VU.Divides op ∨ op.val = 51 →
    ∀ i ∈ L, σ i = VU.destElement vs ↔ i = VU.destElement vs
  /-- The one lane of `vt` that a division reads. -/
  source : VU.Divides op →
    (⟨e.val % 8, mod_eight_lt e⟩ : Fin 8) ∈ L ∧
      σ ⟨e.val % 8, mod_eight_lt e⟩ = ⟨e.val % 8, mod_eight_lt e⟩

/-- The two lanes a division names. -/
structure VU.FitsDivision (L : Set (Fin 8)) (σ : Fin 8 → Fin 8) (e : Fin 16) (vs : Fin 32) :
    Prop where
  /-- The lane written. -/
  dest : ∀ i ∈ L, σ i = VU.destElement vs ↔ i = VU.destElement vs
  /-- The lane read. -/
  source : (⟨e.val % 8, mod_eight_lt e⟩ : Fin 8) ∈ L ∧
    σ ⟨e.val % 8, mod_eight_lt e⟩ = ⟨e.val % 8, mod_eight_lt e⟩

theorem VU.Fits.division {op : Fin 64} {e : Fin 16} {vs : Fin 32} (hf : VU.Fits L σ op e vs) {n : ℕ}
    (hn : op.val = n) (hmem : n ∈ [48, 49, 50, 52, 53, 54]) : VU.FitsDivision L σ e vs := by
  have hdiv : VU.Divides op := by
    rw [VU.Divides, hn]
    exact hmem
  exact ⟨hf.dest (.inl hdiv), hf.source hdiv⟩

/-! ### The kernels -/

/-- What a clip test returns and writes, lane by lane. -/
structure ClipOut.Along (L : Set (Fin 8)) (σ : Fin 8 → Fin 8) (r r' : ClipOut) : Prop where
  /-- The returned vector. -/
  vd : Simd.Along L σ r.vd r'.vd
  /-- `*ge`. -/
  ge : Simd.Along L σ r.ge r'.ge
  /-- `*le`. -/
  le : Simd.Along L σ r.le r'.le

/-- What a comparison returns and writes, lane by lane. -/
structure CmpOut.Along (L : Set (Fin 8)) (σ : Fin 8 → Fin 8) (r r' : CmpOut) : Prop where
  /-- The returned vector. -/
  vd : Simd.Along L σ r.vd r'.vd
  /-- `*le`. -/
  le : Simd.Along L σ r.le r'.le

/-- What a multiplication returns and writes, lane by lane. -/
structure MulOut.Along (L : Set (Fin 8)) (σ : Fin 8 → Fin 8) (r r' : MulOut) : Prop where
  /-- The returned vector. -/
  vd : Simd.Along L σ r.vd r'.vd
  /-- `*acc_lo`. -/
  accLo : Simd.Along L σ r.accLo r'.accLo
  /-- `*acc_md`. -/
  accMd : Simd.Along L σ r.accMd r'.accMd
  /-- `*acc_hi`. -/
  accHi : Simd.Along L σ r.accHi r'.accHi

/-- One lane of the signed clamp. -/
theorem rspSclampAccTomd_lane (md hi : M128i) (i : Fin 8) :
    rspSclampAccTomd md hi i = satS 16 (hi i ++ md i).toInt :=
  packs_unpack_apply md hi i

section Kernels

variable {vs vs' vt vt' : M128i} (hs : Along L σ vs vs') (ht : Along L σ vt vt')
include hs ht

theorem rspVabs_along :
    Along L σ (rspVabs vs vt).vd (rspVabs vs' vt').vd ∧
      Along L σ (rspVabs vs vt).accLo (rspVabs vs' vt').accLo := by
  constructor <;> intro i hi <;> simp [rspVabs, hs i hi, ht i hi]

theorem rspVadd_along {c c' : M128i} (hc : Along L σ c c') :
    Along L σ (rspVadd vs vt c).vd (rspVadd vs' vt' c').vd ∧
      Along L σ (rspVadd vs vt c).accLo (rspVadd vs' vt' c').accLo := by
  constructor <;> intro i hi <;> simp [rspVadd, hs i hi, ht i hi, hc i hi]

theorem rspVsub_along {c c' : M128i} (hc : Along L σ c c') :
    Along L σ (rspVsub vs vt c).vd (rspVsub vs' vt' c').vd ∧
      Along L σ (rspVsub vs vt c).accLo (rspVsub vs' vt' c').accLo := by
  constructor <;> intro i hi <;> simp [rspVsub, hs i hi, ht i hi, hc i hi]

theorem rspVaddc_along :
    Along L σ (rspVaddc vs vt mmSetzeroSi128).vd (rspVaddc vs' vt' mmSetzeroSi128).vd ∧
      Along L σ (rspVaddc vs vt mmSetzeroSi128).sn (rspVaddc vs' vt' mmSetzeroSi128).sn := by
  constructor <;> intro i hi <;> simp [rspVaddc, hs i hi, ht i hi]

theorem rspVsubc_along :
    Along L σ (rspVsubc vs vt mmSetzeroSi128).vd (rspVsubc vs' vt' mmSetzeroSi128).vd ∧
      Along L σ (rspVsubc vs vt mmSetzeroSi128).eq (rspVsubc vs' vt' mmSetzeroSi128).eq ∧
      Along L σ (rspVsubc vs vt mmSetzeroSi128).sn (rspVsubc vs' vt' mmSetzeroSi128).sn := by
  refine ⟨?_, ?_, ?_⟩ <;> intro i hi <;> simp [rspVsubc, hs i hi, ht i hi]

theorem rspVch_along (b : Build) :
    Along L σ (rspVch b vs vt mmSetzeroSi128).vd (rspVch b vs' vt' mmSetzeroSi128).vd ∧
      Along L σ (rspVch b vs vt mmSetzeroSi128).ge (rspVch b vs' vt' mmSetzeroSi128).ge ∧
      Along L σ (rspVch b vs vt mmSetzeroSi128).le (rspVch b vs' vt' mmSetzeroSi128).le ∧
      Along L σ (rspVch b vs vt mmSetzeroSi128).eq (rspVch b vs' vt' mmSetzeroSi128).eq ∧
      Along L σ (rspVch b vs vt mmSetzeroSi128).sign (rspVch b vs' vt' mmSetzeroSi128).sign ∧
      Along L σ (rspVch b vs vt mmSetzeroSi128).vce (rspVch b vs' vt' mmSetzeroSi128).vce := by
  refine ⟨?_, ?_, ?_, ?_, ?_, ?_⟩ <;> intro i hi <;> simp [rspVch, ite_apply, hs i hi, ht i hi]

theorem rspVcl_along (b : Build) {ge ge' le le' eq eq' sign sign' vce vce' : M128i}
    (hge : Along L σ ge ge') (hle : Along L σ le le') (heq : Along L σ eq eq')
    (hsign : Along L σ sign sign') (hvce : Along L σ vce vce') :
    ClipOut.Along L σ (rspVcl b vs vt mmSetzeroSi128 ge le eq sign vce)
      (rspVcl b vs' vt' mmSetzeroSi128 ge' le' eq' sign' vce') := by
  refine ⟨?_, ?_, ?_⟩ <;> intro i hi <;>
    simp [rspVcl, ite_apply, hs i hi, ht i hi, hge i hi, hle i hi, heq i hi, hsign i hi, hvce i hi]

theorem rspVcr_along (b : Build) : ClipOut.Along L σ (rspVcr b vs vt) (rspVcr b vs' vt') := by
  refine ⟨?_, ?_, ?_⟩ <;> intro i hi <;> simp [rspVcr, ite_apply, hs i hi, ht i hi]

theorem selectLe_along (b : Build) {le le' : M128i} (hle : Along L σ le le') :
    Along L σ (selectLe b vs vt le) (selectLe b vs' vt' le') := by
  intro i hi
  simp [selectLe, ite_apply, hs i hi, ht i hi, hle i hi]

theorem rspVeq_along (b : Build) {eq eq' : M128i} (heq : Along L σ eq eq') :
    CmpOut.Along L σ (rspVeq b vs vt eq) (rspVeq b vs' vt' eq') := by
  have hle : Along L σ (rspVeq b vs vt eq).le (rspVeq b vs' vt' eq').le := by
    intro i hi
    simp [rspVeq, hs i hi, ht i hi, heq i hi]
  exact ⟨selectLe_along hs ht b hle, hle⟩

theorem rspVge_along (b : Build) {eq eq' sign sign' : M128i} (heq : Along L σ eq eq')
    (hsign : Along L σ sign sign') :
    CmpOut.Along L σ (rspVge b vs vt eq sign) (rspVge b vs' vt' eq' sign') := by
  have hle : Along L σ (rspVge b vs vt eq sign).le (rspVge b vs' vt' eq' sign').le := by
    intro i hi
    simp [rspVge, hs i hi, ht i hi, heq i hi, hsign i hi]
  exact ⟨selectLe_along hs ht b hle, hle⟩

theorem rspVlt_along (b : Build) {eq eq' sign sign' : M128i} (heq : Along L σ eq eq')
    (hsign : Along L σ sign sign') :
    CmpOut.Along L σ (rspVlt b vs vt eq sign) (rspVlt b vs' vt' eq' sign') := by
  have hle : Along L σ (rspVlt b vs vt eq sign).le (rspVlt b vs' vt' eq' sign').le := by
    intro i hi
    simp [rspVlt, hs i hi, ht i hi, heq i hi, hsign i hi]
  exact ⟨selectLe_along hs ht b hle, hle⟩

theorem rspVne_along (b : Build) {eq eq' : M128i} (heq : Along L σ eq eq') :
    CmpOut.Along L σ (rspVne b vs vt mmSetzeroSi128 eq) (rspVne b vs' vt' mmSetzeroSi128 eq') := by
  have hle : Along L σ (rspVne b vs vt mmSetzeroSi128 eq).le
      (rspVne b vs' vt' mmSetzeroSi128 eq').le := by
    intro i hi
    simp [rspVne, hs i hi, ht i hi, heq i hi]
  exact ⟨selectLe_along hs ht b hle, hle⟩

theorem rspVmulfVmulu_along (vmulu : Bool) :
    MulOut.Along L σ (rspVmulfVmulu vmulu vs vt mmSetzeroSi128)
      (rspVmulfVmulu vmulu vs' vt' mmSetzeroSi128) := by
  cases vmulu <;> refine ⟨?_, ?_, ?_, ?_⟩ <;> intro i hi <;>
    simp [rspVmulfVmulu, hs i hi, ht i hi]

section Accumulating

variable {lo lo' md md' hi hi' : M128i} (hlo : Along L σ lo lo') (hmd : Along L σ md md')
  (hhi : Along L σ hi hi')
include hlo hmd hhi

theorem rspVmacfVmacu_along (vmacu : Bool) :
    MulOut.Along L σ (rspVmacfVmacu vmacu vs vt mmSetzeroSi128 lo md hi)
      (rspVmacfVmacu vmacu vs' vt' mmSetzeroSi128 lo' md' hi') := by
  cases vmacu <;> refine ⟨?_, ?_, ?_, ?_⟩ <;> intro i hmem <;>
    simp [rspVmacfVmacu, rspSclampAccTomd_lane, hs i hmem, ht i hmem, hlo i hmem,
      hmd i hmem, hhi i hmem]

theorem rspVmadhVmudh_along (vmadh : Bool) :
    MulOut.Along L σ (rspVmadhVmudh vmadh vs vt mmSetzeroSi128 lo md hi)
      (rspVmadhVmudh vmadh vs' vt' mmSetzeroSi128 lo' md' hi') := by
  cases vmadh <;> refine ⟨?_, ?_, ?_, ?_⟩ <;> intro i hmem <;>
    simp [rspVmadhVmudh, rspSclampAccTomd_lane, hs i hmem, ht i hmem, hlo i hmem,
      hmd i hmem, hhi i hmem]

theorem rspVmadlVmudl_along (b : Build) (vmadl : Bool) :
    MulOut.Along L σ (rspVmadlVmudl b vmadl vs vt mmSetzeroSi128 lo md hi)
      (rspVmadlVmudl b vmadl vs' vt' mmSetzeroSi128 lo' md' hi') := by
  cases vmadl <;> refine ⟨?_, ?_, ?_, ?_⟩ <;> intro i hmem <;>
    simp [rspVmadlVmudl, rspUclampAcc, ite_apply, hs i hmem, ht i hmem, hlo i hmem, hmd i hmem,
      hhi i hmem]

theorem rspVmadmVmudm_along (vmadm : Bool) :
    MulOut.Along L σ (rspVmadmVmudm vmadm vs vt mmSetzeroSi128 lo md hi)
      (rspVmadmVmudm vmadm vs' vt' mmSetzeroSi128 lo' md' hi') := by
  cases vmadm <;> refine ⟨?_, ?_, ?_, ?_⟩ <;> intro i hmem <;>
    simp [rspVmadmVmudm, accumulateMixed, rspSclampAccTomd_lane, hs i hmem, ht i hmem,
      hlo i hmem, hmd i hmem, hhi i hmem]

theorem rspVmadnVmudn_along (b : Build) (vmadn : Bool) :
    MulOut.Along L σ (rspVmadnVmudn b vmadn vs vt mmSetzeroSi128 lo md hi)
      (rspVmadnVmudn b vmadn vs' vt' mmSetzeroSi128 lo' md' hi') := by
  cases vmadn <;> refine ⟨?_, ?_, ?_, ?_⟩ <;> intro i hmem <;>
    simp [rspVmadnVmudn, accumulateMixed, rspUclampAcc, ite_apply, hs i hmem, ht i hmem, hlo i hmem,
      hmd i hmem, hhi i hmem]

end Accumulating

end Kernels

/-! ### Writing the results back -/

/-- One vector of a family overwritten. -/
theorem along_update {ι : Type*} [DecidableEq ι] {f g : ι → M128i} (h : ∀ k, Along L σ (f k) (g k))
    (j : ι) {r r' : M128i} (hr : Along L σ r r') (k : ι) :
    Along L σ (Function.update f j r k) (Function.update g j r' k) := by
  by_cases hk : k = j
  · subst hk
    rwa [Function.update_self, Function.update_self]
  · rw [Function.update_of_ne hk, Function.update_of_ne hk]
    exact h k

namespace CP2.Along

variable {a b : CP2} (h : a.Along L σ b)
include h

theorem storeResult (vd : Fin 32) {r r' : M128i} (hr : Simd.Along L σ r r') :
    (VU.storeResult a vd r).Along L σ (VU.storeResult b vd r') :=
  { h with regs := along_update h.regs vd hr }

theorem writeAccLo {v v' : M128i} (hv : Simd.Along L σ v v') :
    (VU.writeAccLo a v).Along L σ (VU.writeAccLo b v') :=
  { h with accLo := hv }

theorem setFlag (f : FlagReg) {v v' : FlagVector} (hhi : Simd.Along L σ v.hi v'.hi)
    (hlo : Simd.Along L σ v.lo v'.lo) : (VU.setFlag a f v).Along L σ (VU.setFlag b f v') := by
  refine { h with hi := fun k => ?_, lo := fun k => ?_ }
  · simp only [VU.setFlag, Function.apply_update (fun _ => FlagVector.hi)]
    exact along_update h.hi f hhi k
  · simp only [VU.setFlag, Function.apply_update (fun _ => FlagVector.lo)]
    exact along_update h.lo f hlo k

theorem clearVco : (VU.clearVco a).Along L σ (VU.clearVco b) := h.setFlag rspVCO .zero .zero

theorem writeVce {v v' : M128i} (hv : Simd.Along L σ v v') :
    (VU.writeVce a v).Along L σ (VU.writeVce b v') :=
  h.setFlag rspVCE (h.hi rspVCE) hv

theorem storeCmp (vd : Fin 32) {r r' : CmpOut} (hr : r.Along L σ r') :
    (VU.storeCmp vd a r).Along L σ (VU.storeCmp vd b r') :=
  (((h.setFlag rspVCC .zero hr.le).clearVco).writeAccLo hr.vd).storeResult vd hr.vd

theorem storeMul (vd : Fin 32) {r r' : MulOut} (hr : r.Along L σ r') :
    (VU.storeMul a vd r).Along L σ (VU.storeMul b vd r') :=
  { h with
    regs := along_update h.regs vd hr.vd
    accHi := hr.accHi
    accMd := hr.accMd
    accLo := hr.accLo }

end CP2.Along

/-! ### The operations -/

/-- The operand, lane by lane, in either build. -/
theorem VU.loadVt_lane (bd : Build) (e : Fin 16) (vt : Fin 32) (cp2 : CP2) (i : Fin 8) :
    VU.loadVt bd e vt cp2 i = cp2.regs vt (operandLane e i) := by
  rw [loadVt_builds bd .ssse3]
  exact loadAndShuffleSsse3_apply (cp2.regs vt) e i

namespace CP2.Along

variable {a b : CP2} (h : a.Along L σ b)
include h

/-- The operand, when the lanes picked fit. -/
theorem loadVt (bd : Build) {e : Fin 16} (vt : Fin 32)
    (he : ∀ i ∈ L, operandLane e i ∈ L ∧ σ (operandLane e i) = operandLane e (σ i)) :
    Simd.Along L σ (VU.loadVt bd e vt a) (VU.loadVt bd e vt b) := by
  intro i hi
  rw [VU.loadVt_lane, VU.loadVt_lane]
  exact (h.regs vt).comp he i hi

/-- The result of an operation, also written to the low accumulator. -/
theorem storeLo (vd : Fin 32) {r r' lo lo' : M128i} (hr : Simd.Along L σ r r')
    (hlo : Simd.Along L σ lo lo') :
    (VU.storeResult (VU.writeAccLo a lo) vd r).Along L σ
      (VU.storeResult (VU.writeAccLo b lo') vd r') :=
  (h.writeAccLo hlo).storeResult vd hr

/-- `VCL` and `VCR` clear the flags that `VCH` left for them. -/
theorem storeClip (vd : Fin 32) {r r' : ClipOut} (hr : r.Along L σ r') :
    (VU.storeResult (VU.writeAccLo (VU.writeVce (VU.clearVco
      (VU.setFlag a rspVCC ⟨r.ge, r.le⟩)) mmSetzeroSi128) r.vd) vd r.vd).Along L σ
      (VU.storeResult (VU.writeAccLo (VU.writeVce (VU.clearVco
        (VU.setFlag b rspVCC ⟨r'.ge, r'.le⟩)) mmSetzeroSi128) r'.vd) vd r'.vd) :=
  ((h.setFlag rspVCC hr.ge hr.le).clearVco.writeVce .zero).storeLo vd hr.vd hr.vd

section Operand

variable (bd : Build) {e : Fin 16} (vd vs : Fin 32) {vt : Fin 32}
  (ht : Simd.Along L σ (VU.loadVt bd e vt a) (VU.loadVt bd e vt b))
include ht

theorem rspVMULQ : (VU.rspVMULQ bd e vd vs vt a).Along L σ (VU.rspVMULQ bd e vd vs vt b) := by
  refine ⟨along_update h.regs vd fun i hi => ?_, h.hi, h.lo, fun i hi => ?_, fun i hi => ?_,
    fun i hi => rfl, h.div⟩
  all_goals
    dsimp only [VU.rspVMULQ, VU.loadVs]
    rw [h.regs vs i hi, ht i hi]

theorem rspVRND (variant : Bool) :
    (VU.rspVRND bd e vd vs vt a variant).Along L σ (VU.rspVRND bd e vd vs vt b variant) := by
  refine ⟨along_update h.regs vd fun i hi => ?_, h.hi, h.lo, fun i hi => ?_, fun i hi => ?_,
    fun i hi => ?_, h.div⟩ <;>
    simp [VU.rspVRND, h.accHi i hi, h.accMd i hi, h.accLo i hi, ht i hi]

/-- The six bitwise operations. -/
theorem bitwise {f : M128i → M128i → M128i} (g : BitVec 16 → BitVec 16 → BitVec 16)
    (hf : ∀ x y i, f x y i = g (x i) (y i)) :
    (VU.bitwise bd e vd vs vt a f).Along L σ (VU.bitwise bd e vd vs vt b f) := by
  have hres : Simd.Along L σ (f (a.regs vs) (VU.loadVt bd e vt a))
      (f (b.regs vs) (VU.loadVt bd e vt b)) := by
    intro i hi
    rw [hf, hf, h.regs vs i hi, ht i hi]
  exact h.storeLo vd hres hres

theorem rspVSUBC : (VU.rspVSUBC bd e vd vs vt a).Along L σ (VU.rspVSUBC bd e vd vs vt b) := by
  obtain ⟨hvd, heq, hsn⟩ := rspVsubc_along (h.regs vs) ht
  exact (h.setFlag rspVCO heq hsn).storeLo vd hvd hvd

theorem rspVCH : (VU.rspVCH bd e vd vs vt a).Along L σ (VU.rspVCH bd e vd vs vt b) := by
  obtain ⟨hvd, hge, hle, heq, hsign, hvce⟩ := rspVch_along (h.regs vs) ht bd
  exact ((h.setFlag rspVCC hge hle).setFlag rspVCO heq hsign |>.writeVce hvce).storeLo vd hvd hvd

theorem rspVCL : (VU.rspVCL bd e vd vs vt a).Along L σ (VU.rspVCL bd e vd vs vt b) :=
  h.storeClip vd (rspVcl_along (h.regs vs) ht bd (h.hi rspVCC) (h.lo rspVCC) (h.hi rspVCO)
    (h.lo rspVCO) (h.lo rspVCE))

theorem rspVCR : (VU.rspVCR bd e vd vs vt a).Along L σ (VU.rspVCR bd e vd vs vt b) :=
  h.storeClip vd (rspVcr_along (h.regs vs) ht bd)

theorem rspRESERVED :
    (VU.rspRESERVED bd e vd vs vt a).Along L σ (VU.rspRESERVED bd e vd vs vt b) := by
  refine h.storeLo vd .zero fun i hi => ?_
  simp only [VU.loadVs, mmAddEpi16_lane]
  rw [h.regs vs i hi, ht i hi]

theorem rspVMOV (hd : ∀ i ∈ L, σ i = VU.destElement vs ↔ i = VU.destElement vs) :
    (VU.rspVMOV bd e vd vs vt a).Along L σ (VU.rspVMOV bd e vd vs vt b) := by
  refine (h.writeAccLo ht).storeResult vd ((h.regs vd).update hd fun hmem => ?_)
  have heq := ht (VU.destElement vs) hmem
  rwa [(hd _ hmem).mpr rfl] at heq

end Operand

theorem rspVMACQ (vd : Fin 32) : (VU.rspVMACQ vd a).Along L σ (VU.rspVMACQ vd b) := by
  refine ⟨along_update h.regs vd fun i hi => ?_, h.hi, h.lo, fun i hi => ?_, fun i hi => ?_,
    h.accLo, h.div⟩ <;>
    simp [VU.rspVMACQ, h.accHi i hi, h.accMd i hi]

theorem rspVSAR (e : Fin 16) (vd : Fin 32) : (VU.rspVSAR e vd a).Along L σ (VU.rspVSAR e vd b) := by
  refine h.storeResult vd ?_
  split
  · exact h.accHi
  split
  · exact h.accMd
  split
  · exact h.accLo
  · exact .zero

/-- The lane that a division reads. -/
theorem source {e : Fin 16} {vs : Fin 32} (hd : VU.FitsDivision L σ e vs) (src : Fin 32) :
    a.regs src ⟨e.val % 8, mod_eight_lt e⟩ = b.regs src ⟨e.val % 8, mod_eight_lt e⟩ := by
  have hlane := h.regs src _ hd.source.1
  rwa [hd.source.2] at hlane

theorem rspVrcpVrsq (vrsq dp : Bool) (src vd : Fin 32) {e : Fin 16} {vs : Fin 32}
    (hd : VU.FitsDivision L σ e vs) :
    (ParallelRsp.rspVrcpVrsq vrsq a dp src e vd (VU.destElement vs)).Along L σ
      (ParallelRsp.rspVrcpVrsq vrsq b dp src e vd (VU.destElement vs)) := by
  have hlane := h.source hd src
  obtain ⟨-, hIn, hDp⟩ := h.div
  refine { h with
    regs := along_update h.regs vd ((h.regs vd).update hd.dest fun _ => ?_)
    div := ⟨?_, hIn, hDp⟩ }
  · rw [hlane, hIn]
  · simp only [ParallelRsp.rspVrcpVrsq, hlane, hIn]

theorem rspVdivh (src vd : Fin 32) {e : Fin 16} {vs : Fin 32} (hd : VU.FitsDivision L σ e vs) :
    (ParallelRsp.rspVdivh a src e vd (VU.destElement vs)).Along L σ
      (ParallelRsp.rspVdivh b src e vd (VU.destElement vs)) := by
  obtain ⟨hOut, -, hDp⟩ := h.div
  exact { h with
    regs := along_update h.regs vd ((h.regs vd).update hd.dest fun _ => hOut)
    div := ⟨hOut, h.source hd src, hDp⟩ }

/-- The divider's flag written. -/
theorem setDpFlag (f : BitVec 8) :
    ({ a with dpFlag := f } : CP2).Along L σ { b with dpFlag := f } :=
  { h with div := ⟨h.div.1, h.div.2.1, rfl⟩ }

section Division

variable (bd : Build) {e : Fin 16} (vd : Fin 32) {vs vt : Fin 32}
  (ht : Simd.Along L σ (VU.loadVt bd e vt a) (VU.loadVt bd e vt b)) (hd : VU.FitsDivision L σ e vs)
include ht hd

theorem divSingle (vrsq : Bool) :
    (VU.divSingle bd e vd vs vt a vrsq).Along L σ (VU.divSingle bd e vd vs vt b vrsq) :=
  ((h.writeAccLo ht).setDpFlag 0#8).rspVrcpVrsq vrsq false vt vd hd

theorem divLow (vrsq : Bool) :
    (VU.divLow bd e vd vs vt a vrsq).Along L σ (VU.divLow bd e vd vs vt b vrsq) := by
  have hrun := ((h.writeAccLo ht).setDpFlag 0#8).rspVrcpVrsq vrsq (a.dpFlag.getLsbD 0) vt vd hd
  simp only [VU.divLow, VU.writeAccLo, ← h.div.2.2]
  exact hrun

theorem divHigh : (VU.divHigh bd e vd vs vt a).Along L σ (VU.divHigh bd e vd vs vt b) :=
  ((h.writeAccLo ht).setDpFlag 1#8).rspVdivh vt vd hd

end Division

end CP2.Along

/-- One vector operation keeps the agreement. -/
theorem vuop_along (bd : Build) {op : Fin 64} {e : Fin 16} (vd : Fin 32) {vs : Fin 32} (vt : Fin 32)
    (hf : VU.Fits L σ op e vs) {a b : CP2} (h : a.Along L σ b) :
    (VU.vuop bd e vd vs vt a op).Along L σ (VU.vuop bd e vd vs vt b op) := by
  have hs := h.regs vs
  by_cases hop : VU.IgnoresVt op
  · simp only [VU.IgnoresVt, List.mem_cons, List.not_mem_nil, or_false] at hop
    obtain hop | hop | hop | hop := hop
    · obtain rfl : op = 11 := Fin.ext hop
      exact h.rspVMACQ vd
    · obtain rfl : op = 29 := Fin.ext hop
      exact h.rspVSAR e vd
    · obtain rfl : op = 55 := Fin.ext hop
      exact h
    · obtain rfl : op = 63 := Fin.ext hop
      exact h
  have ht := h.loadVt bd vt (hf.operand hop)
  revert hf
  apply VU.vuop_cases
    (motive := fun op f => VU.Fits L σ op e vs → (f bd a).Along L σ (f bd b))
  case vmulf => exact fun _ => h.storeMul vd (rspVmulfVmulu_along hs ht false)
  case vmulu => exact fun _ => h.storeMul vd (rspVmulfVmulu_along hs ht true)
  case vrndp => exact fun _ => h.rspVRND bd vd vs ht true
  case vmulq => exact fun _ => h.rspVMULQ bd vd vs ht
  case vmudl =>
    exact fun _ => h.storeMul vd (rspVmadlVmudl_along hs ht h.accLo h.accMd h.accHi bd false)
  case vmudm =>
    exact fun _ => h.storeMul vd (rspVmadmVmudm_along hs ht h.accLo h.accMd h.accHi false)
  case vmudn =>
    exact fun _ => h.storeMul vd (rspVmadnVmudn_along hs ht h.accLo h.accMd h.accHi bd false)
  case vmudh =>
    exact fun _ => h.storeMul vd (rspVmadhVmudh_along hs ht h.accLo h.accMd h.accHi false)
  case vmacf =>
    exact fun _ => h.storeMul vd (rspVmacfVmacu_along hs ht h.accLo h.accMd h.accHi false)
  case vmacu =>
    exact fun _ => h.storeMul vd (rspVmacfVmacu_along hs ht h.accLo h.accMd h.accHi true)
  case vrndn => exact fun _ => h.rspVRND bd vd vs ht false
  case vmacq => exact fun _ => h.rspVMACQ vd
  case vmadl =>
    exact fun _ => h.storeMul vd (rspVmadlVmudl_along hs ht h.accLo h.accMd h.accHi bd true)
  case vmadm =>
    exact fun _ => h.storeMul vd (rspVmadmVmudm_along hs ht h.accLo h.accMd h.accHi true)
  case vmadn =>
    exact fun _ => h.storeMul vd (rspVmadnVmudn_along hs ht h.accLo h.accMd h.accHi bd true)
  case vmadh =>
    exact fun _ => h.storeMul vd (rspVmadhVmudh_along hs ht h.accLo h.accMd h.accHi true)
  case vadd =>
    intro _
    obtain ⟨hvd, hlo⟩ := rspVadd_along hs ht (h.lo rspVCO)
    exact h.clearVco.storeLo vd hvd hlo
  case vsub =>
    intro _
    obtain ⟨hvd, hlo⟩ := rspVsub_along hs ht (h.lo rspVCO)
    exact h.clearVco.storeLo vd hvd hlo
  case vabs =>
    intro _
    obtain ⟨hvd, hlo⟩ := rspVabs_along hs ht
    exact h.storeLo vd hvd hlo
  case vaddc =>
    intro _
    obtain ⟨hvd, hsn⟩ := rspVaddc_along hs ht
    exact (h.setFlag rspVCO .zero hsn).storeLo vd hvd hvd
  case vsubc => exact fun _ => h.rspVSUBC bd vd vs ht
  case vsar => exact fun _ => h.rspVSAR e vd
  case vlt => exact fun _ => h.storeCmp vd (rspVlt_along hs ht bd (h.hi rspVCO) (h.lo rspVCO))
  case veq => exact fun _ => h.storeCmp vd (rspVeq_along hs ht bd (h.hi rspVCO))
  case vne => exact fun _ => h.storeCmp vd (rspVne_along hs ht bd (h.hi rspVCO))
  case vge => exact fun _ => h.storeCmp vd (rspVge_along hs ht bd (h.hi rspVCO) (h.lo rspVCO))
  case vcl => exact fun _ => h.rspVCL bd vd vs ht
  case vch => exact fun _ => h.rspVCH bd vd vs ht
  case vcr => exact fun _ => h.rspVCR bd vd vs ht
  case vmrg =>
    intro _
    have hle := selectLe_along hs ht bd (h.lo rspVCC)
    exact h.clearVco.storeLo vd hle hle
  case vand => exact fun _ => h.bitwise bd vd vs ht (fun x y => x &&& y) fun _ _ _ => rfl
  case vnand =>
    exact fun _ => h.bitwise bd vd vs ht (fun x y => (x &&& y) ^^^ 0xffff#16) fun _ _ _ => by
      simp [rspVnand]
  case vor => exact fun _ => h.bitwise bd vd vs ht (fun x y => x ||| y) fun _ _ _ => rfl
  case vnor =>
    exact fun _ => h.bitwise bd vd vs ht (fun x y => (x ||| y) ^^^ 0xffff#16) fun _ _ _ => by
      simp [rspVnor]
  case vxor => exact fun _ => h.bitwise bd vd vs ht (fun x y => x ^^^ y) fun _ _ _ => rfl
  case vnxor =>
    exact fun _ => h.bitwise bd vd vs ht (fun x y => (x ^^^ y) ^^^ 0xffff#16) fun _ _ _ => by
      simp [rspVnxor]
  case vrcp => exact fun hf => h.divSingle bd vd ht (hf.division rfl (by decide)) false
  case vrcpl => exact fun hf => h.divLow bd vd ht (hf.division rfl (by decide)) false
  case vrcph => exact fun hf => h.divHigh bd vd ht (hf.division rfl (by decide))
  case vmov => exact fun hf => h.rspVMOV bd vd vs ht (hf.dest (.inr rfl))
  case vrsq => exact fun hf => h.divSingle bd vd ht (hf.division rfl (by decide)) true
  case vrsql => exact fun hf => h.divLow bd vd ht (hf.division rfl (by decide)) true
  case vrsqh => exact fun hf => h.divHigh bd vd ht (hf.division rfl (by decide))
  case vnop => exact fun _ _ => h
  case reserved => exact fun _ _ => h.rspRESERVED bd vd vs ht

/-! ### Runs -/

/-- The steps of a run that work on the vector unit only, or leave it alone. -/
def Cp2Op.Fits (L : Set (Fin 8)) (σ : Fin 8 → Fin 8) : Cp2Op → Prop
  | .vu op e _ vs _ => VU.Fits L σ op e vs
  | .cfc2 _ _ | .mfc2 _ _ _ | .other _ => True
  | .ctc2 _ _ | .mtc2 _ _ _ | .load _ _ _ _ _ => False

theorem Cp2Op.run_along (bd : Build) {op : Cp2Op} (hf : op.Fits L σ) {s s' : Arch}
    (h : s.cp2.Along L σ s'.cp2) : (op.run bd s).cp2.Along L σ (op.run bd s').cp2 := by
  cases op with
  | vu op e vd vs vt => exact vuop_along bd vd vt hf h
  | cfc2 rt rd =>
    have hsame : ∀ t : Arch, (CP.rspCFC2 rt rd t).cp2 = t.cp2 := by
      intro t
      simp only [CP.rspCFC2]
      split <;> rfl
    rw [Cp2Op.run, Cp2Op.run, hsame, hsame]
    exact h
  | mfc2 rt rd element =>
    have hsame : ∀ t : Arch, (CP.rspMFC2 rt rd element t).cp2 = t.cp2 := by
      intro t
      simp only [CP.rspMFC2]
      repeat' split
      all_goals rfl
    rw [Cp2Op.run, Cp2Op.run, hsame, hsame]
    exact h
  | other t => exact h
  | ctc2 | mtc2 | load => exact hf.elim

/-- A run keeps the agreement: no lane of `L` ends up with anything that was not in a lane of
`L` before, and the lanes are all treated alike. -/
theorem runOps_along (bd : Build) {ops : List Cp2Op} (hf : ∀ op ∈ ops, op.Fits L σ) {s s' : Arch}
    (h : s.cp2.Along L σ s'.cp2) :
    (runOps bd ops s).cp2.Along L σ (runOps bd ops s').cp2 := by
  induction ops generalizing s s' with
  | nil => exact h
  | cons op ops ih =>
    obtain ⟨hop, hops⟩ := List.forall_mem_cons.mp hf
    exact ih hops (op.run_along bd hop h)

/-- `VADD v3, v1, v2[0h]`, `VMULF v4, v3, v1` and `VRCP v5[2], v4[1]`. -/
def quartetOps : List Cp2Op := [.vu 16 4 3 1 2, .vu 0 0 4 3 1, .vu 48 9 5 2 4]

/-- The lower four lanes are not reached by what stands in the upper four. -/
theorem runOps_along_quartet :
    (runOps .sse2 quartetOps Arch.zero).cp2.Along {i | i.val < 4} id
      (runOps .sse2 quartetOps
        { Arch.zero with
          cp2 := { CP2.zero with
            regs := fun _ i => if i.val < 4 then 0#16 else 0x1234#16 } }).cp2 := by
  have hvec : Along {i | i.val < 4} id (fun _ => 0#16)
      (fun i => if i.val < 4 then 0#16 else 0x1234#16) := fun i hi => (if_pos hi).symm
  have hzero : Along {i | i.val < 4} id (fun _ => 0#16) (fun _ => 0#16) := fun _ _ => rfl
  have hfits : ∀ (op : Fin 64) (e : Fin 16) (vs : Fin 32),
      (∀ i : Fin 8, i.val < 4 → (operandLane e i).val < 4) → (VU.Divides op → e.val % 8 < 4) →
        VU.Fits {i | i.val < 4} id op e vs :=
    fun op e vs he hdiv => ⟨fun _ i hi => ⟨he i hi, rfl⟩, fun _ _ _ => .rfl, fun h => ⟨hdiv h, rfl⟩⟩
  refine runOps_along .sse2 ?_ ⟨fun _ => hvec, fun _ => hzero, fun _ => hzero, hzero, hzero, hzero,
    rfl, rfl, rfl⟩
  simp only [quartetOps, List.forall_mem_cons, List.not_mem_nil, false_imp_iff, implies_true,
    and_true]
  exact ⟨hfits 16 4 1 (by decide) (by decide), hfits 0 0 3 (by decide) (by decide),
    hfits 48 9 2 (by decide) (by decide)⟩

end ParallelRsp
