import ParallelRsp.Vu.Common

/-!
# The vector kernels

The functions of `arch/simd/rsp/v*.h` and `clamp.h`, intrinsic by intrinsic: clamping,
the additions and subtractions, the clip tests, the comparisons, the multiplications
and the bitwise operations. Where the source has two bodies under `__SSE4_1__`, both
are here, chosen by the `Build`.

A kernel returns its result together with what the source writes through pointers.
-/

namespace ParallelRsp

open Simd

/-! ### Clamping -/

/-- `rsp_sclamp_acc_tomd`. -/
def rspSclampAccTomd (accMd accHi : M128i) : M128i :=
  let l := mmUnpackloEpi16 accMd accHi
  let h := mmUnpackhiEpi16 accMd accHi
  mmPacksEpi32 l h

/-- `rsp_uclamp_acc`. -/
def rspUclampAcc (b : Build) (val accMd accHi zero : M128i) : M128i :=
  let hiNegative := mmSraiEpi16 accHi 15
  let mdNegative := mmSraiEpi16 accMd 15
  let hiSignCheck := mmCmpeqEpi16 hiNegative accHi
  let mdSignCheck := mmCmpeqEpi16 hiNegative mdNegative
  let clampMask := mmAndSi128 mdSignCheck hiSignCheck
  let clampedVal := mmCmpeqEpi16 hiNegative zero
  if b.hasSse41 then mmBlendvEpi8 clampedVal val clampMask
  else
    let tmp := mmAndSi128 clampMask val
    let val := mmAndnotSi128 clampMask clampedVal
    mmOrSi128 val tmp

/-! ### Additions and subtractions -/

/-- A result, with the low part of the accumulator. -/
structure AddOut where
  /-- The returned vector. -/
  vd : M128i
  /-- `*acc_lo`. -/
  accLo : M128i

/-- `rsp_vabs`. -/
def rspVabs (vs vt : M128i) : AddOut :=
  let vsZero := mmCmpeqEpi16 vs mmSetzeroSi128
  let signLt := mmSraiEpi16 vs 15
  let vd := mmAndnotSi128 vsZero vt
  -- if `vt` is `0x8000` and `vs` negative, `accLo` is `0x8000` but `vd` is `0x7FFF`
  let vd := mmXorSi128 vd signLt
  ⟨mmSubsEpi16 vd signLt, mmSubEpi16 vd signLt⟩

/-- `rsp_vadd`. -/
def rspVadd (vs vt carry : M128i) : AddOut :=
  let vd := mmAddEpi16 vs vt
  let accLo := mmSubEpi16 vd carry
  let minimum := mmMinEpi16 vs vt
  let maximum := mmMaxEpi16 vs vt
  let minimum := mmSubsEpi16 minimum carry
  ⟨mmAddsEpi16 minimum maximum, accLo⟩

/-- A result, with the carry. -/
structure AddcOut where
  /-- The returned vector. -/
  vd : M128i
  /-- `*sn`. -/
  sn : M128i

/-- `rsp_vaddc`. -/
def rspVaddc (vs vt zero : M128i) : AddcOut :=
  let satSum := mmAddsEpu16 vs vt
  let unsatSum := mmAddEpi16 vs vt
  let sn := mmCmpeqEpi16 satSum unsatSum
  let sn := mmCmpeqEpi16 sn zero
  ⟨unsatSum, sn⟩

/-- `rsp_vsub`. -/
def rspVsub (vs vt carry : M128i) : AddOut :=
  let unsatDiff := mmSubEpi16 vt carry
  let satDiff := mmSubsEpi16 vt carry
  let accLo := mmSubEpi16 vs unsatDiff
  let vd := mmSubsEpi16 vs satDiff
  let overflow := mmCmpgtEpi16 satDiff unsatDiff
  ⟨mmAddsEpi16 vd overflow, accLo⟩

/-- A result, with the borrow and the inequality. -/
structure SubcOut where
  /-- The returned vector. -/
  vd : M128i
  /-- `*eq`, set where the operands differ. -/
  eq : M128i
  /-- `*sn`. -/
  sn : M128i

/-- `rsp_vsubc`. -/
def rspVsubc (vs vt zero : M128i) : SubcOut :=
  let satUdiff := mmSubsEpu16 vs vt
  let equal := mmCmpeqEpi16 vs vt
  let satUdiffZero := mmCmpeqEpi16 satUdiff zero
  let eq := mmCmpeqEpi16 equal zero
  let sn := mmAndnotSi128 equal satUdiffZero
  ⟨mmSubEpi16 vs vt, eq, sn⟩

/-! ### Clip tests -/

/-- What `rsp_vch` returns and writes. -/
structure VchOut where
  /-- The returned vector. -/
  vd : M128i
  /-- `*ge`. -/
  ge : M128i
  /-- `*le`. -/
  le : M128i
  /-- `*eq`, set where the test is not decided by the high half. -/
  eq : M128i
  /-- `*sign`. -/
  sign : M128i
  /-- `*vce`. -/
  vce : M128i

/-- `rsp_vch`. -/
def rspVch (b : Build) (vs vt zero : M128i) : VchOut :=
  -- sign = (vs ^ vt) < 0
  let sign := mmXorSi128 vs vt
  let sign := mmCmpltEpi16 sign zero
  -- signNegvt = sign ? -vt : vt
  let signNegvt := mmXorSi128 vt sign
  let signNegvt := mmSubEpi16 signNegvt sign
  let diff := mmSubEpi16 vs signNegvt
  let diffZero := mmCmpeqEpi16 diff zero
  let vtNeg := mmCmpltEpi16 vt zero
  let diffLez := mmCmpgtEpi16 diff zero
  let diffGez := mmOrSi128 diffLez diffZero
  let diffLez := mmCmpeqEpi16 zero diffLez
  let ge :=
    if b.hasSse41 then mmBlendvEpi8 diffGez vtNeg sign
    else mmOrSi128 (mmAndSi128 sign vtNeg) (mmAndnotSi128 sign diffGez)
  let le :=
    if b.hasSse41 then mmBlendvEpi8 vtNeg diffLez sign
    else mmOrSi128 (mmAndSi128 sign diffLez) (mmAndnotSi128 sign vtNeg)
  let vce := mmCmpeqEpi16 diff sign
  let vce := mmAndSi128 vce sign
  let eq := mmOrSi128 diffZero vce
  let eq := mmCmpeqEpi16 eq zero
  let vd :=
    if b.hasSse41 then
      let diffSelMask := mmBlendvEpi8 ge le sign
      mmBlendvEpi8 vs signNegvt diffSelMask
    else
      let diffLez := mmAndSi128 sign le
      let diffGez := mmAndnotSi128 sign ge
      let diffSelMask := mmOrSi128 diffLez diffGez
      let diffLez := mmAndSi128 diffSelMask signNegvt
      let diffGez := mmAndnotSi128 diffSelMask vs
      mmOrSi128 diffLez diffGez
  ⟨vd, ge, le, eq, sign, vce⟩

/-- What `rsp_vcl` and `rsp_vcr` return and write. -/
structure ClipOut where
  /-- The returned vector. -/
  vd : M128i
  /-- `*ge`. -/
  ge : M128i
  /-- `*le`. -/
  le : M128i

/-- `rsp_vcl`. -/
def rspVcl (b : Build) (vs vt zero ge le eq sign vce : M128i) : ClipOut :=
  -- signNegvt = sign ? -vt : vt
  let signNegvt := mmXorSi128 vt sign
  let signNegvt := mmSubEpi16 signNegvt sign
  let diff := mmSubEpi16 vs signNegvt
  let ncarry := mmAddsEpu16 vs vt
  let ncarry := mmCmpeqEpi16 diff ncarry
  let nvce := mmCmpeqEpi16 vce zero
  let diffZero := mmCmpeqEpi16 diff zero
  -- results for `sign && ne`
  let leCase1 := mmAndSi128 diffZero ncarry
  let leCase1 := mmAndSi128 nvce leCase1
  let leCase2 := mmOrSi128 diffZero ncarry
  let leCase2 := mmAndSi128 vce leCase2
  let leEq := mmOrSi128 leCase1 leCase2
  -- results for `!sign && ne`
  let geEq := mmSubsEpu16 vt vs
  let geEq := mmCmpeqEpi16 geEq zero
  -- `ge` and `le` keep their values where `ne` is false
  let doLe := mmAndnotSi128 eq sign
  let le :=
    if b.hasSse41 then mmBlendvEpi8 le leEq doLe
    else mmOrSi128 (mmAndSi128 doLe leEq) (mmAndnotSi128 doLe le)
  let doGe := mmOrSi128 sign eq
  let ge :=
    if b.hasSse41 then mmBlendvEpi8 geEq ge doGe
    else mmOrSi128 (mmAndnotSi128 doGe geEq) (mmAndSi128 doGe ge)
  let muxMask :=
    if b.hasSse41 then mmBlendvEpi8 ge le sign
    else mmOrSi128 (mmAndSi128 sign le) (mmAndnotSi128 sign ge)
  let vd :=
    if b.hasSse41 then mmBlendvEpi8 vs signNegvt muxMask
    else mmOrSi128 (mmAndSi128 muxMask signNegvt) (mmAndnotSi128 muxMask vs)
  ⟨vd, ge, le⟩

/-- `rsp_vcr`. -/
def rspVcr (b : Build) (vs vt : M128i) : ClipOut :=
  -- sign = (vs ^ vt) < 0
  let sign := mmXorSi128 vs vt
  let sign := mmSraiEpi16 sign 15
  let diffLez := mmAndSi128 vs sign
  let diffLez := mmAddEpi16 diffLez vt
  let le := mmSraiEpi16 diffLez 15
  let diffGez := mmOrSi128 vs sign
  let diffGez := mmMinEpi16 diffGez vt
  let ge := mmCmpeqEpi16 diffGez vt
  -- signNotvt = sn ? ~vt : vt
  let signNotvt := mmXorSi128 vt sign
  let vd :=
    if b.hasSse41 then
      let diffSelMask := mmBlendvEpi8 ge le sign
      mmBlendvEpi8 vs signNotvt diffSelMask
    else
      let diffSelMask := mmSubEpi16 le ge
      let diffSelMask := mmAndSi128 diffSelMask sign
      let diffSelMask := mmAddEpi16 diffSelMask ge
      let zero := mmSubEpi16 signNotvt vs
      let zero := mmAndSi128 zero diffSelMask
      mmAddEpi16 zero vs
  ⟨vd, ge, le⟩

/-! ### Comparisons and merging -/

/-- A result, with the comparison mask. -/
structure CmpOut where
  /-- The returned vector. -/
  vd : M128i
  /-- `*le`. -/
  le : M128i

/-- The selection every comparison ends with: `vs` where `le` is set, else `vt`. -/
def selectLe (b : Build) (vs vt le : M128i) : M128i :=
  if b.hasSse41 then mmBlendvEpi8 vt vs le
  else
    let vs := mmAndSi128 le vs
    let vt := mmAndnotSi128 le vt
    mmOrSi128 vs vt

/-- `rsp_veq`. -/
def rspVeq (b : Build) (vs vt eq : M128i) : CmpOut :=
  let equal := mmCmpeqEpi16 vs vt
  let le := mmAndnotSi128 eq equal
  ⟨selectLe b vs vt le, le⟩

/-- `rsp_vge`. -/
def rspVge (b : Build) (vs vt eq sign : M128i) : CmpOut :=
  let equal := mmCmpeqEpi16 vs vt
  let gt := mmCmpgtEpi16 vs vt
  let equalsign := mmAndSi128 eq sign
  let equal := mmAndnotSi128 equalsign equal
  let le := mmOrSi128 gt equal
  ⟨selectLe b vs vt le, le⟩

/-- `rsp_vlt`. -/
def rspVlt (b : Build) (vs vt eq sign : M128i) : CmpOut :=
  let equal := mmCmpeqEpi16 vs vt
  let lt := mmCmpltEpi16 vs vt
  let equal := mmAndSi128 eq equal
  let equal := mmAndSi128 sign equal
  let le := mmOrSi128 lt equal
  ⟨selectLe b vs vt le, le⟩

/-- `rsp_vne`. -/
def rspVne (b : Build) (vs vt zero eq : M128i) : CmpOut :=
  let equal := mmCmpeqEpi16 vs vt
  let nequal := mmCmpeqEpi16 equal zero
  let le := mmAndSi128 eq equal
  let le := mmOrSi128 le nequal
  ⟨selectLe b vs vt le, le⟩

/-- `rsp_vmrg`. -/
def rspVmrg (b : Build) (vs vt le : M128i) : M128i := selectLe b vs vt le

/-! ### Multiplications -/

/-- What a multiplication returns and writes. -/
structure MulOut where
  /-- The returned vector. -/
  vd : M128i
  /-- `*acc_lo`. -/
  accLo : M128i
  /-- `*acc_md`. -/
  accMd : M128i
  /-- `*acc_hi`. -/
  accHi : M128i

/-- `rsp_vmacf_vmacu`. -/
def rspVmacfVmacu (vmacu : Bool) (vs vt zero accLo accMd accHi : M128i) : MulOut :=
  -- the product shifted left by one, in `lo`, `md` and `hi`
  let lo := mmMulloEpi16 vs vt
  let hi := mmMulhiEpi16 vs vt
  let md := mmSlliEpi16 hi 1
  let carry := mmSrliEpi16 lo 15
  let hi := mmSraiEpi16 hi 15
  let md := mmOrSi128 md carry
  let lo := mmSlliEpi16 lo 1
  -- the low part, and its carry
  let overflowMask := mmAddsEpu16 accLo lo
  let accLo := mmAddEpi16 accLo lo
  let overflowMask := mmCmpeqEpi16 accLo overflowMask
  let overflowMask := mmCmpeqEpi16 overflowMask zero
  -- a middle part of `0xFFFF` passes the carry on to `hi`
  let md := mmSubEpi16 md overflowMask
  let carry := mmCmpeqEpi16 md zero
  let carry := mmAndSi128 carry overflowMask
  let hi := mmSubEpi16 hi carry
  let overflowMask := mmAddsEpu16 accMd md
  let accMd := mmAddEpi16 accMd md
  let overflowMask := mmCmpeqEpi16 accMd overflowMask
  let overflowMask := mmCmpeqEpi16 overflowMask zero
  let accHi := mmAddEpi16 accHi hi
  let accHi := mmSubEpi16 accHi overflowMask
  let vd :=
    if vmacu then
      let overflowHiMask := mmSraiEpi16 accHi 15
      let overflowMdMask := mmSraiEpi16 accMd 15
      let md := mmOrSi128 overflowMdMask accMd
      let overflowMask := mmCmpgtEpi16 accHi zero
      let md := mmAndnotSi128 overflowHiMask md
      mmOrSi128 overflowMask md
    else rspSclampAccTomd accMd accHi
  ⟨vd, accLo, accMd, accHi⟩

/-- `rsp_vmulf_vmulu`. -/
def rspVmulfVmulu (vmulu : Bool) (vs vt zero : M128i) : MulOut :=
  let lo := mmMulloEpi16 vs vt
  let round := mmCmpeqEpi16 zero zero
  let sign1 := mmSrliEpi16 lo 15
  let lo := mmAddEpi16 lo lo
  let round := mmSlliEpi16 round 15
  let hi := mmMulhiEpi16 vs vt
  let sign2 := mmSrliEpi16 lo 15
  let accLo := mmAddEpi16 round lo
  let sign1 := mmAddEpi16 sign1 sign2
  let hi := mmSlliEpi16 hi 1
  let eq := mmCmpeqEpi16 vs vt
  let neq := eq
  let accMd := mmAddEpi16 hi sign1
  let neg := mmSraiEpi16 accMd 15
  if vmulu then
    let accHi := mmAndnotSi128 eq neg
    let hi := mmOrSi128 accMd neg
    ⟨mmAndnotSi128 accHi hi, accLo, accMd, accHi⟩
  else
    let eq := mmAndSi128 eq neg
    let accHi := mmAndnotSi128 neq neg
    ⟨mmAddEpi16 accMd eq, accLo, accMd, accHi⟩

/-- `rsp_vmadh_vmudh`. -/
def rspVmadhVmudh (vmadh : Bool) (vs vt zero accLo accMd accHi : M128i) : MulOut :=
  let lo := mmMulloEpi16 vs vt
  let hi := mmMulhiEpi16 vs vt
  if vmadh then
    let overflowMask := mmAddsEpu16 accMd lo
    let accMd := mmAddEpi16 accMd lo
    let overflowMask := mmCmpeqEpi16 accMd overflowMask
    let overflowMask := mmCmpeqEpi16 overflowMask zero
    let hi := mmSubEpi16 hi overflowMask
    let accHi := mmAddEpi16 accHi hi
    ⟨rspSclampAccTomd accMd accHi, accLo, accMd, accHi⟩
  else
    ⟨rspSclampAccTomd lo hi, zero, lo, hi⟩

/-- `rsp_vmadl_vmudl`. -/
def rspVmadlVmudl (b : Build) (vmadl : Bool) (vs vt zero accLo accMd accHi : M128i) : MulOut :=
  let hi := mmMulhiEpu16 vs vt
  if vmadl then
    let overflowMask := mmAddsEpu16 accLo hi
    let accLo := mmAddEpi16 accLo hi
    let overflowMask := mmCmpeqEpi16 accLo overflowMask
    let overflowMask := mmCmpeqEpi16 overflowMask zero
    let hi := mmSubEpi16 zero overflowMask
    let overflowMask := mmAddsEpu16 accMd hi
    let accMd := mmAddEpi16 accMd hi
    let overflowMask := mmCmpeqEpi16 accMd overflowMask
    let overflowMask := mmCmpeqEpi16 overflowMask zero
    -- the product is unsigned, so only a carry can reach the high part
    let accHi := mmSubEpi16 accHi overflowMask
    ⟨rspUclampAcc b accLo accMd accHi zero, accLo, accMd, accHi⟩
  else
    ⟨hi, hi, zero, zero⟩

/-- The accumulation `rsp_vmadm_vmudm` and `rsp_vmadn_vmudn` share: the low half `lo` and
the signed high half `hi` of a product are added to the accumulator. The carry of the
low part is folded into `hi`, which cannot overflow since the product has one signed
and one unsigned factor. -/
def accumulateMixed (lo hi zero accLo accMd accHi : M128i) : AccVector :=
  let overflowMask := mmAddsEpu16 accLo lo
  let accLo := mmAddEpi16 accLo lo
  let overflowMask := mmCmpeqEpi16 accLo overflowMask
  let overflowMask := mmCmpeqEpi16 overflowMask zero
  let hi := mmSubEpi16 hi overflowMask
  let overflowMask := mmAddsEpu16 accMd hi
  let accMd := mmAddEpi16 accMd hi
  let overflowMask := mmCmpeqEpi16 accMd overflowMask
  let overflowMask := mmCmpeqEpi16 overflowMask zero
  let accHi := mmAddEpi16 accHi (mmSraiEpi16 hi 15)
  let accHi := mmSubEpi16 accHi overflowMask
  ⟨accHi, accMd, accLo⟩

/-- `rsp_vmadm_vmudm`. -/
def rspVmadmVmudm (vmadm : Bool) (vs vt zero accLo accMd accHi : M128i) : MulOut :=
  let lo := mmMulloEpi16 vs vt
  let hi := mmMulhiEpu16 vs vt
  -- the unsigned product is fixed up where `vs` is negative
  let sign := mmSraiEpi16 vs 15
  let vt := mmAndSi128 vt sign
  let hi := mmSubEpi16 hi vt
  if vmadm then
    let acc := accumulateMixed lo hi zero accLo accMd accHi
    ⟨rspSclampAccTomd acc.md acc.hi, acc.lo, acc.md, acc.hi⟩
  else
    ⟨hi, lo, hi, mmSraiEpi16 hi 15⟩

/-- `rsp_vmadn_vmudn`. -/
def rspVmadnVmudn (b : Build) (vmadn : Bool) (vs vt zero accLo accMd accHi : M128i) : MulOut :=
  let lo := mmMulloEpi16 vs vt
  let hi := mmMulhiEpu16 vs vt
  -- the unsigned product is fixed up where `vt` is negative
  let sign := mmSraiEpi16 vt 15
  let vs := mmAndSi128 vs sign
  let hi := mmSubEpi16 hi vs
  if vmadn then
    let acc := accumulateMixed lo hi zero accLo accMd accHi
    ⟨rspUclampAcc b acc.lo acc.md acc.hi zero, acc.lo, acc.md, acc.hi⟩
  else
    ⟨lo, lo, hi, mmSraiEpi16 hi 15⟩

/-! ### Bitwise operations -/

/-- `rsp_vand`. -/
def rspVand (vs vt : M128i) : M128i := mmAndSi128 vs vt

/-- `rsp_vnand`. -/
def rspVnand (vs vt : M128i) : M128i :=
  let vd := mmAndSi128 vs vt
  mmXorSi128 vd (mmSet1Epi32 0xffffffff#32)

/-- `rsp_vor`. -/
def rspVor (vs vt : M128i) : M128i := mmOrSi128 vs vt

/-- `rsp_vnor`. -/
def rspVnor (vs vt : M128i) : M128i :=
  let vd := mmOrSi128 vs vt
  mmXorSi128 vd (mmSet1Epi32 0xffffffff#32)

/-- `rsp_vxor`. -/
def rspVxor (vs vt : M128i) : M128i := mmXorSi128 vs vt

/-- `rsp_vnxor`. -/
def rspVnxor (vs vt : M128i) : M128i :=
  let vd := mmXorSi128 vs vt
  mmXorSi128 vd (mmSet1Epi32 0xffffffff#32)

end ParallelRsp
