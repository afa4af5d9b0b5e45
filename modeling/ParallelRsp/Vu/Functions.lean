import ParallelRsp.Vu.Lanes
import ParallelRsp.Vu.Reciprocal

/-!
# The vector instructions

`rsp/vfunctions.cpp`: one function for each operation of the vector unit, and the
dispatch table by which compiled code chooses among them. The source compiles each
function once for each element selector `e`; here `e` is an argument. `vd`, `vs` and
`vt` are the register numbers of the packed operand.
-/

namespace ParallelRsp.VU

open Simd

/-- `write_vco_hi`, `write_vco_lo` and the like: a flag register overwritten. -/
def setFlag (cp2 : CP2) (f : FlagReg) (v : FlagVector) : CP2 :=
  { cp2 with flags := Function.update cp2.flags f v }

/-- `write_vco_hi` and `write_vco_lo` with zeros. -/
def clearVco (cp2 : CP2) : CP2 := setFlag cp2 rspVCO ⟨mmSetzeroSi128, mmSetzeroSi128⟩

/-- `write_vce`: only the low lanes are written. -/
def writeVce (cp2 : CP2) (vce : M128i) : CP2 :=
  setFlag cp2 rspVCE ⟨(cp2.flags rspVCE).hi, vce⟩

/-- `write_acc_lo`. -/
def writeAccLo (cp2 : CP2) (v : M128i) : CP2 := { cp2 with acc := { cp2.acc with lo := v } }

/-- `write_acc_lo`, `write_acc_md` and `write_acc_hi`, then `STORE_RESULT`, after a
multiplication. -/
def storeMul (cp2 : CP2) (vd : Fin 32) (r : MulOut) : CP2 :=
  { cp2 with
    acc := ⟨r.accHi, r.accMd, r.accLo⟩
    regs := Function.update cp2.regs vd r.vd }

/-- `STORE_RESULT`. -/
def storeResult (cp2 : CP2) (vd : Fin 32) (result : M128i) : CP2 :=
  { cp2 with regs := Function.update cp2.regs vd result }

/-- `clamp16s`. -/
def clamp16s (x : ℤ) : ℤ := if x > 0x7fff then 0x7fff else if x < -0x8000 then -0x8000 else x

section Operations

variable (b : Build) (e : Fin 16) (vd vs vt : Fin 32) (cp2 : CP2)

/-- `LOAD_VS`. -/
def loadVs : M128i := cp2.regs vs

/-- `LOAD_VT`. -/
def loadVt : M128i := rspVectLoadAndShuffleOperand b (cp2.regs vt) e

/-! ### Additions and subtractions -/

/-- `RSP_VABS`. -/
def rspVABS : CP2 :=
  let r := rspVabs (loadVs vs cp2) (loadVt b e vt cp2)
  storeResult (writeAccLo cp2 r.accLo) vd r.vd

/-- `RSP_VADD`. -/
def rspVADD : CP2 :=
  let carry := (cp2.flags rspVCO).lo
  let r := rspVadd (loadVs vs cp2) (loadVt b e vt cp2) carry
  storeResult (writeAccLo (clearVco cp2) r.accLo) vd r.vd

/-- `RSP_VADDC`. -/
def rspVADDC : CP2 :=
  let r := rspVaddc (loadVs vs cp2) (loadVt b e vt cp2) mmSetzeroSi128
  storeResult (writeAccLo (setFlag cp2 rspVCO ⟨mmSetzeroSi128, r.sn⟩) r.vd) vd r.vd

/-- `RSP_VSUB`. -/
def rspVSUB : CP2 :=
  let carry := (cp2.flags rspVCO).lo
  let r := rspVsub (loadVs vs cp2) (loadVt b e vt cp2) carry
  storeResult (writeAccLo (clearVco cp2) r.accLo) vd r.vd

/-- `RSP_VSUBC`. -/
def rspVSUBC : CP2 :=
  let r := rspVsubc (loadVs vs cp2) (loadVt b e vt cp2) mmSetzeroSi128
  storeResult (writeAccLo (setFlag cp2 rspVCO ⟨r.eq, r.sn⟩) r.vd) vd r.vd

/-! ### Bitwise operations -/

/-- The shape of the six bitwise operations. -/
def bitwise (f : M128i → M128i → M128i) : CP2 :=
  let result := f (loadVs vs cp2) (loadVt b e vt cp2)
  storeResult (writeAccLo cp2 result) vd result

/-- `RSP_VAND`. -/
def rspVAND : CP2 := bitwise b e vd vs vt cp2 rspVand

/-- `RSP_VNAND`. -/
def rspVNAND : CP2 := bitwise b e vd vs vt cp2 rspVnand

/-- `RSP_VOR`. -/
def rspVOR : CP2 := bitwise b e vd vs vt cp2 rspVor

/-- `RSP_VNOR`. -/
def rspVNOR : CP2 := bitwise b e vd vs vt cp2 rspVnor

/-- `RSP_VXOR`. -/
def rspVXOR : CP2 := bitwise b e vd vs vt cp2 rspVxor

/-- `RSP_VNXOR`. -/
def rspVNXOR : CP2 := bitwise b e vd vs vt cp2 rspVnxor

/-! ### Clip tests -/

/-- `RSP_VCH`. -/
def rspVCH : CP2 :=
  let r := rspVch b (loadVs vs cp2) (loadVt b e vt cp2) mmSetzeroSi128
  let cp2 := setFlag cp2 rspVCC ⟨r.ge, r.le⟩
  let cp2 := setFlag cp2 rspVCO ⟨r.eq, r.sign⟩
  let cp2 := writeVce cp2 r.vce
  storeResult (writeAccLo cp2 r.vd) vd r.vd

/-- `RSP_VCL`. -/
def rspVCL : CP2 :=
  let ge := (cp2.flags rspVCC).hi
  let le := (cp2.flags rspVCC).lo
  let eq := (cp2.flags rspVCO).hi
  let sign := (cp2.flags rspVCO).lo
  let vce := (cp2.flags rspVCE).lo
  let r := rspVcl b (loadVs vs cp2) (loadVt b e vt cp2) mmSetzeroSi128 ge le eq sign vce
  let cp2 := setFlag cp2 rspVCC ⟨r.ge, r.le⟩
  let cp2 := clearVco cp2
  let cp2 := writeVce cp2 mmSetzeroSi128
  storeResult (writeAccLo cp2 r.vd) vd r.vd

/-- `RSP_VCR`. -/
def rspVCR : CP2 :=
  let r := rspVcr b (loadVs vs cp2) (loadVt b e vt cp2)
  let cp2 := setFlag cp2 rspVCC ⟨r.ge, r.le⟩
  let cp2 := clearVco cp2
  let cp2 := writeVce cp2 mmSetzeroSi128
  storeResult (writeAccLo cp2 r.vd) vd r.vd

/-! ### Comparisons and merging -/

/-- What the four comparisons do with the result of their kernel. -/
def storeCmp (r : CmpOut) : CP2 :=
  let cp2 := setFlag cp2 rspVCC ⟨mmSetzeroSi128, r.le⟩
  let cp2 := clearVco cp2
  storeResult (writeAccLo cp2 r.vd) vd r.vd

/-- `RSP_VEQ`. -/
def rspVEQ : CP2 :=
  let eq := (cp2.flags rspVCO).hi
  storeCmp vd cp2 (rspVeq b (loadVs vs cp2) (loadVt b e vt cp2) eq)

/-- `RSP_VGE`. -/
def rspVGE : CP2 :=
  let eq := (cp2.flags rspVCO).hi
  let sign := (cp2.flags rspVCO).lo
  storeCmp vd cp2 (rspVge b (loadVs vs cp2) (loadVt b e vt cp2) eq sign)

/-- `RSP_VLT`. -/
def rspVLT : CP2 :=
  let eq := (cp2.flags rspVCO).hi
  let sign := (cp2.flags rspVCO).lo
  storeCmp vd cp2 (rspVlt b (loadVs vs cp2) (loadVt b e vt cp2) eq sign)

/-- `RSP_VNE`. -/
def rspVNE : CP2 :=
  let eq := (cp2.flags rspVCO).hi
  storeCmp vd cp2 (rspVne b (loadVs vs cp2) (loadVt b e vt cp2) mmSetzeroSi128 eq)

/-- `RSP_VMRG`. -/
def rspVMRG : CP2 :=
  let le := (cp2.flags rspVCC).lo
  let result := rspVmrg b (loadVs vs cp2) (loadVt b e vt cp2) le
  storeResult (writeAccLo (clearVco cp2) result) vd result

/-! ### Multiplications -/

/-- `RSP_VMACF`. -/
def rspVMACF : CP2 :=
  storeMul cp2 vd (rspVmacfVmacu false (loadVs vs cp2) (loadVt b e vt cp2) mmSetzeroSi128
    cp2.acc.lo cp2.acc.md cp2.acc.hi)

/-- `RSP_VMACU`. -/
def rspVMACU : CP2 :=
  storeMul cp2 vd (rspVmacfVmacu true (loadVs vs cp2) (loadVt b e vt cp2) mmSetzeroSi128
    cp2.acc.lo cp2.acc.md cp2.acc.hi)

/-- `RSP_VMULF`. -/
def rspVMULF : CP2 :=
  storeMul cp2 vd (rspVmulfVmulu false (loadVs vs cp2) (loadVt b e vt cp2) mmSetzeroSi128)

/-- `RSP_VMULU`. -/
def rspVMULU : CP2 :=
  storeMul cp2 vd (rspVmulfVmulu true (loadVs vs cp2) (loadVt b e vt cp2) mmSetzeroSi128)

/-- `RSP_VMADH`. -/
def rspVMADH : CP2 :=
  storeMul cp2 vd (rspVmadhVmudh true (loadVs vs cp2) (loadVt b e vt cp2) mmSetzeroSi128
    cp2.acc.lo cp2.acc.md cp2.acc.hi)

/-- `RSP_VMUDH`. -/
def rspVMUDH : CP2 :=
  storeMul cp2 vd (rspVmadhVmudh false (loadVs vs cp2) (loadVt b e vt cp2) mmSetzeroSi128
    cp2.acc.lo cp2.acc.md cp2.acc.hi)

/-- `RSP_VMADL`. -/
def rspVMADL : CP2 :=
  storeMul cp2 vd (rspVmadlVmudl b true (loadVs vs cp2) (loadVt b e vt cp2) mmSetzeroSi128
    cp2.acc.lo cp2.acc.md cp2.acc.hi)

/-- `RSP_VMUDL`. -/
def rspVMUDL : CP2 :=
  storeMul cp2 vd (rspVmadlVmudl b false (loadVs vs cp2) (loadVt b e vt cp2) mmSetzeroSi128
    cp2.acc.lo cp2.acc.md cp2.acc.hi)

/-- `RSP_VMADM`. -/
def rspVMADM : CP2 :=
  storeMul cp2 vd (rspVmadmVmudm true (loadVs vs cp2) (loadVt b e vt cp2) mmSetzeroSi128
    cp2.acc.lo cp2.acc.md cp2.acc.hi)

/-- `RSP_VMUDM`. -/
def rspVMUDM : CP2 :=
  storeMul cp2 vd (rspVmadmVmudm false (loadVs vs cp2) (loadVt b e vt cp2) mmSetzeroSi128
    cp2.acc.lo cp2.acc.md cp2.acc.hi)

/-- `RSP_VMADN`. -/
def rspVMADN : CP2 :=
  storeMul cp2 vd (rspVmadnVmudn b true (loadVs vs cp2) (loadVt b e vt cp2) mmSetzeroSi128
    cp2.acc.lo cp2.acc.md cp2.acc.hi)

/-- `RSP_VMUDN`. -/
def rspVMUDN : CP2 :=
  storeMul cp2 vd (rspVmadnVmudn b false (loadVs vs cp2) (loadVt b e vt cp2) mmSetzeroSi128
    cp2.acc.lo cp2.acc.md cp2.acc.hi)

/-- The rounding of one lane by `RSP_VMACQ`, on the high and middle accumulator. -/
def vmacqProd (hi md : BitVec 16) : ℤ :=
  let prod : Word := (hi ++ md)
  if prod.toInt < 0 ∧ prod.getLsbD 5 = false then (prod + 32#32).toInt
  else if 32 ≤ prod.toInt ∧ prod.getLsbD 5 = false then (prod - 32#32).toInt
  else prod.toInt

/-- `RSP_VMACQ`. -/
def rspVMACQ : CP2 :=
  let prod : Fin 8 → ℤ := fun i => vmacqProd (cp2.acc.hi i) (cp2.acc.md i)
  { cp2 with
    acc := { cp2.acc with
      hi := fun i => BitVec.ofInt 16 (prod i / 2 ^ 16)
      md := fun i => BitVec.ofInt 16 (prod i) }
    regs := Function.update cp2.regs vd fun i =>
      BitVec.ofInt 16 (clamp16s (prod i / 2)) &&& ~~~(15#16) }

/-- `RSP_VMULQ`. -/
def rspVMULQ : CP2 :=
  let vte := loadVt b e vt cp2
  let prod : Fin 8 → ℤ := fun i =>
    let p := (loadVs vs cp2 i).toInt * (vte i).toInt
    if p < 0 then p + 31 else p
  { cp2 with
    acc := {
      hi := fun i => BitVec.ofInt 16 (prod i / 2 ^ 16)
      md := fun i => BitVec.ofInt 16 (prod i)
      lo := fun _ => 0#16 }
    regs := Function.update cp2.regs vd fun i =>
      BitVec.ofInt 16 (clamp16s (prod i / 2)) &&& ~~~(15#16) }

/-- `RSP_VRND`; `variant` is set for `VRNDP`. -/
def rspVRND (variant : Bool) : CP2 :=
  let vte := loadVt b e vt cp2
  let acc48 : Fin 8 → ℤ := fun i =>
    let a : ℤ := (cp2.acc.hi i ++ cp2.acc.md i ++ cp2.acc.lo i : BitVec 48).toInt
    let value := (vte i).toInt
    let value := if vs.val % 2 = 1 then value * 2 ^ 16 else value
    if variant != decide (a < 0) then a + value else a
  { cp2 with
    acc := {
      hi := fun i => BitVec.ofInt 16 (acc48 i / 2 ^ 32)
      md := fun i => BitVec.ofInt 16 (acc48 i / 2 ^ 16)
      lo := fun i => BitVec.ofInt 16 (acc48 i) }
    regs := Function.update cp2.regs vd fun i =>
      BitVec.ofInt 16 (clamp16s (BitVec.ofInt 32 (acc48 i / 2 ^ 16)).toInt) }

/-- `RSP_VRNDN`. -/
def rspVRNDN : CP2 := rspVRND b e vd vs vt cp2 false

/-- `RSP_VRNDP`. -/
def rspVRNDP : CP2 := rspVRND b e vd vs vt cp2 true

/-! ### Moves -/

/-- `RSP_VMOV`. -/
def rspVMOV : CP2 :=
  let cp2 := writeAccLo cp2 (loadVt b e vt cp2)
  let i : Fin 8 := ⟨vs.val % 8, by omega⟩
  storeResult cp2 vd (Function.update (cp2.regs vd) i (cp2.acc.lo i))

/-- `RSP_VNOP`. -/
def rspVNOP : CP2 := cp2

/-- `RSP_VSAR`. -/
def rspVSAR : CP2 :=
  let result :=
    if e.val = 8 then cp2.acc.hi
    else if e.val = 9 then cp2.acc.md
    else if e.val = 10 then cp2.acc.lo
    else mmSetzeroSi128
  storeResult cp2 vd result

/-- `RSP_RESERVED`. -/
def rspRESERVED : CP2 :=
  let result := mmAddEpi16 (loadVs vs cp2) (loadVt b e vt cp2)
  storeResult (writeAccLo cp2 result) vd mmSetzeroSi128

/-! ### Divisions

The kernels write one lane of `vd` and return the register; storing it again changes
nothing. -/

/-- `de`, the lane of the destination. -/
def destElement : Fin 8 := ⟨vs.val % 8, by omega⟩

/-- `RSP_VRCP` and `RSP_VRSQ`. -/
def divSingle (vrsq : Bool) : CP2 :=
  let cp2 := writeAccLo cp2 (loadVt b e vt cp2)
  let cp2 := { cp2 with dpFlag := 0#8 }
  rspVrcpVrsq vrsq cp2 false vt e vd (destElement vs)

/-- `RSP_VRCPL` and `RSP_VRSQL`. -/
def divLow (vrsq : Bool) : CP2 :=
  let cp2 := writeAccLo cp2 (loadVt b e vt cp2)
  let dp := cp2.dpFlag.getLsbD 0
  let cp2 := { cp2 with dpFlag := 0#8 }
  rspVrcpVrsq vrsq cp2 dp vt e vd (destElement vs)

/-- `RSP_VRCPH` and `RSP_VRSQH`. -/
def divHigh : CP2 :=
  let cp2 := writeAccLo cp2 (loadVt b e vt cp2)
  let cp2 := { cp2 with dpFlag := 1#8 }
  rspVdivh cp2 vt e vd (destElement vs)

/-- `RSP_VRCP`. -/
def rspVRCP : CP2 := divSingle b e vd vs vt cp2 false

/-- `RSP_VRCPL`. -/
def rspVRCPL : CP2 := divLow b e vd vs vt cp2 false

/-- `RSP_VRCPH`. -/
def rspVRCPH : CP2 := divHigh b e vd vs vt cp2

/-- `RSP_VRSQ`. -/
def rspVRSQ : CP2 := divSingle b e vd vs vt cp2 true

/-- `RSP_VRSQL`. -/
def rspVRSQL : CP2 := divLow b e vd vs vt cp2 true

/-- `RSP_VRSQH`. -/
def rspVRSQH : CP2 := divHigh b e vd vs vt cp2

/-- The dispatch table of compiled code; an empty entry is `RSP_RESERVED`. -/
def vuop (op : Fin 64) : CP2 :=
  match op.val with
  | 0 => rspVMULF b e vd vs vt cp2
  | 1 => rspVMULU b e vd vs vt cp2
  | 2 => rspVRNDP b e vd vs vt cp2
  | 3 => rspVMULQ b e vd vs vt cp2
  | 4 => rspVMUDL b e vd vs vt cp2
  | 5 => rspVMUDM b e vd vs vt cp2
  | 6 => rspVMUDN b e vd vs vt cp2
  | 7 => rspVMUDH b e vd vs vt cp2
  | 8 => rspVMACF b e vd vs vt cp2
  | 9 => rspVMACU b e vd vs vt cp2
  | 10 => rspVRNDN b e vd vs vt cp2
  | 11 => rspVMACQ vd cp2
  | 12 => rspVMADL b e vd vs vt cp2
  | 13 => rspVMADM b e vd vs vt cp2
  | 14 => rspVMADN b e vd vs vt cp2
  | 15 => rspVMADH b e vd vs vt cp2
  | 16 => rspVADD b e vd vs vt cp2
  | 17 => rspVSUB b e vd vs vt cp2
  | 19 => rspVABS b e vd vs vt cp2
  | 20 => rspVADDC b e vd vs vt cp2
  | 21 => rspVSUBC b e vd vs vt cp2
  | 29 => rspVSAR e vd cp2
  | 32 => rspVLT b e vd vs vt cp2
  | 33 => rspVEQ b e vd vs vt cp2
  | 34 => rspVNE b e vd vs vt cp2
  | 35 => rspVGE b e vd vs vt cp2
  | 36 => rspVCL b e vd vs vt cp2
  | 37 => rspVCH b e vd vs vt cp2
  | 38 => rspVCR b e vd vs vt cp2
  | 39 => rspVMRG b e vd vs vt cp2
  | 40 => rspVAND b e vd vs vt cp2
  | 41 => rspVNAND b e vd vs vt cp2
  | 42 => rspVOR b e vd vs vt cp2
  | 43 => rspVNOR b e vd vs vt cp2
  | 44 => rspVXOR b e vd vs vt cp2
  | 45 => rspVNXOR b e vd vs vt cp2
  | 48 => rspVRCP b e vd vs vt cp2
  | 49 => rspVRCPL b e vd vs vt cp2
  | 50 => rspVRCPH b e vd vs vt cp2
  | 51 => rspVMOV b e vd vs vt cp2
  | 52 => rspVRSQ b e vd vs vt cp2
  | 53 => rspVRSQL b e vd vs vt cp2
  | 54 => rspVRSQH b e vd vs vt cp2
  | 55 => rspVNOP cp2
  | 63 => rspVNOP cp2
  | _ => rspRESERVED b e vd vs vt cp2

end Operations

/-- What holds of the entries of the dispatch table holds of every operation. -/
theorem vuop_cases {motive : Fin 64 → (Build → CP2 → CP2) → Prop} (e : Fin 16) (vd vs vt : Fin 32)
    (vmulf : motive 0 (fun b => rspVMULF b e vd vs vt))
    (vmulu : motive 1 (fun b => rspVMULU b e vd vs vt))
    (vrndp : motive 2 (fun b => rspVRNDP b e vd vs vt))
    (vmulq : motive 3 (fun b => rspVMULQ b e vd vs vt))
    (vmudl : motive 4 (fun b => rspVMUDL b e vd vs vt))
    (vmudm : motive 5 (fun b => rspVMUDM b e vd vs vt))
    (vmudn : motive 6 (fun b => rspVMUDN b e vd vs vt))
    (vmudh : motive 7 (fun b => rspVMUDH b e vd vs vt))
    (vmacf : motive 8 (fun b => rspVMACF b e vd vs vt))
    (vmacu : motive 9 (fun b => rspVMACU b e vd vs vt))
    (vrndn : motive 10 (fun b => rspVRNDN b e vd vs vt))
    (vmacq : motive 11 (fun _ => rspVMACQ vd))
    (vmadl : motive 12 (fun b => rspVMADL b e vd vs vt))
    (vmadm : motive 13 (fun b => rspVMADM b e vd vs vt))
    (vmadn : motive 14 (fun b => rspVMADN b e vd vs vt))
    (vmadh : motive 15 (fun b => rspVMADH b e vd vs vt))
    (vadd : motive 16 (fun b => rspVADD b e vd vs vt))
    (vsub : motive 17 (fun b => rspVSUB b e vd vs vt))
    (vabs : motive 19 (fun b => rspVABS b e vd vs vt))
    (vaddc : motive 20 (fun b => rspVADDC b e vd vs vt))
    (vsubc : motive 21 (fun b => rspVSUBC b e vd vs vt))
    (vsar : motive 29 (fun _ => rspVSAR e vd))
    (vlt : motive 32 (fun b => rspVLT b e vd vs vt))
    (veq : motive 33 (fun b => rspVEQ b e vd vs vt))
    (vne : motive 34 (fun b => rspVNE b e vd vs vt))
    (vge : motive 35 (fun b => rspVGE b e vd vs vt))
    (vcl : motive 36 (fun b => rspVCL b e vd vs vt))
    (vch : motive 37 (fun b => rspVCH b e vd vs vt))
    (vcr : motive 38 (fun b => rspVCR b e vd vs vt))
    (vmrg : motive 39 (fun b => rspVMRG b e vd vs vt))
    (vand : motive 40 (fun b => rspVAND b e vd vs vt))
    (vnand : motive 41 (fun b => rspVNAND b e vd vs vt))
    (vor : motive 42 (fun b => rspVOR b e vd vs vt))
    (vnor : motive 43 (fun b => rspVNOR b e vd vs vt))
    (vxor : motive 44 (fun b => rspVXOR b e vd vs vt))
    (vnxor : motive 45 (fun b => rspVNXOR b e vd vs vt))
    (vrcp : motive 48 (fun b => rspVRCP b e vd vs vt))
    (vrcpl : motive 49 (fun b => rspVRCPL b e vd vs vt))
    (vrcph : motive 50 (fun b => rspVRCPH b e vd vs vt))
    (vmov : motive 51 (fun b => rspVMOV b e vd vs vt))
    (vrsq : motive 52 (fun b => rspVRSQ b e vd vs vt))
    (vrsql : motive 53 (fun b => rspVRSQL b e vd vs vt))
    (vrsqh : motive 54 (fun b => rspVRSQH b e vd vs vt))
    (vnop : ∀ op, motive op fun _ => rspVNOP)
    (reserved : ∀ op, motive op (fun b => rspRESERVED b e vd vs vt))
    (op : Fin 64) : motive op fun b cp2 => vuop b e vd vs vt cp2 op := by
  obtain ⟨n, hn⟩ := op
  match n, hn with
  | 0, _ => exact vmulf
  | 1, _ => exact vmulu
  | 2, _ => exact vrndp
  | 3, _ => exact vmulq
  | 4, _ => exact vmudl
  | 5, _ => exact vmudm
  | 6, _ => exact vmudn
  | 7, _ => exact vmudh
  | 8, _ => exact vmacf
  | 9, _ => exact vmacu
  | 10, _ => exact vrndn
  | 11, _ => exact vmacq
  | 12, _ => exact vmadl
  | 13, _ => exact vmadm
  | 14, _ => exact vmadn
  | 15, _ => exact vmadh
  | 16, _ => exact vadd
  | 17, _ => exact vsub
  | 19, _ => exact vabs
  | 20, _ => exact vaddc
  | 21, _ => exact vsubc
  | 29, _ => exact vsar
  | 32, _ => exact vlt
  | 33, _ => exact veq
  | 34, _ => exact vne
  | 35, _ => exact vge
  | 36, _ => exact vcl
  | 37, _ => exact vch
  | 38, _ => exact vcr
  | 39, _ => exact vmrg
  | 40, _ => exact vand
  | 41, _ => exact vnand
  | 42, _ => exact vor
  | 43, _ => exact vnor
  | 44, _ => exact vxor
  | 45, _ => exact vnxor
  | 48, _ => exact vrcp
  | 49, _ => exact vrcpl
  | 50, _ => exact vrcph
  | 51, _ => exact vmov
  | 52, _ => exact vrsq
  | 53, _ => exact vrsql
  | 54, _ => exact vrsqh
  | 55, _ | 63, _ => exact vnop _
  | 18, _ | 22, _ | 23, _ | 24, _ | 25, _ | 26, _ | 27, _ | 28, _ | 30, _ | 31, _ |
      46, _ | 47, _ | 56, _ | 57, _ | 58, _ | 59, _ | 60, _ | 61, _ | 62, _ =>
    exact reserved _
  | n + 64, hn => exact absurd hn (Nat.not_lt.2 (Nat.le_add_left 64 n))

end ParallelRsp.VU
