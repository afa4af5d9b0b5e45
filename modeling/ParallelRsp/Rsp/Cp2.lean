import ParallelRsp.Rsp.LoadStore

/-!
# Moves between the scalar registers and the vector unit

`rsp/cp2.cpp`. `MFC2` and `MTC2` move one element of a vector register, `CFC2` and
`CTC2` a flag register as a 16-bit number. The number `rd` of a flag register counts
modulo four, with `3` another name of `VCE`.
-/

namespace ParallelRsp.CP

open Simd

section Moves

variable (rt rd : Fin 32) (element : Fin 16) (s : Arch)

/-- A scalar register written. -/
def setSr (r : ℕ) (x : Word) : Arch := { s with sr := Function.update s.sr r x }

/-- The flag register that `rd` names. -/
def flagIndex : FlagReg :=
  match rd.val % 4 with
  | 0 => rspVCO
  | 1 => rspVCC
  | _ => rspVCE

/-- `RSP_CFC2`. -/
def rspCFC2 : Arch :=
  let res := rspGetFlags (s.cp2.flags (flagIndex rd))
  if rt.val ≠ 0 then setSr s rt (res.signExtend 32) else s

/-- The 16 bits that `RSP_CTC2` hands to `rsp_set_flags`. -/
def ctc2Value (x : Word) : BitVec 16 :=
  let rt := x.setWidth 16
  if flagIndex rd = rspVCE then rt &&& 0xff#16 else rt

/-- `RSP_CTC2`. -/
def rspCTC2 : Arch :=
  { s with cp2 := { s.cp2 with
      flags := Function.update s.cp2.flags (flagIndex rd) (rspSetFlags (ctc2Value rd (s.sr rt))) } }

/-- `RSP_MTC2`. An odd element straddles two lanes, and the last one loses its low byte. -/
def rspMTC2 : Arch :=
  let e := s.cp2.regs rd
  let v : BitVec 16 := (s.sr rt).setWidth 16
  let i : Fin 8 := ⟨element.val / 2, half_lt_eight element⟩
  if element.val % 2 = 1 then
    let e := Function.update e i ((e i &&& 0xff00#16) ||| v >>> 8)
    if element.val ≠ 0xf then
      let i1 : Fin 8 := ⟨(element.val / 2 + 1) % 8, by omega⟩
      LS.setReg s rd (Function.update e i1 ((e i1 &&& 0xff#16) ||| v <<< 8))
    else LS.setReg s rd e
  else LS.setReg s rd (Function.update e i v)

/-- `RSP_MFC2`. -/
def rspMFC2 : Arch :=
  if rt.val = 0 then s
  else
    let e := s.cp2.regs rd
    let lo : Fin 8 := ⟨element.val / 2, half_lt_eight element⟩
    if element.val % 2 = 1 then
      let hi : Fin 8 := ⟨(element.val + 1) / 2 % 8, by omega⟩
      let high : BitVec 16 := e lo <<< 8
      let low : BitVec 16 := e hi >>> 8
      setSr s rt ((high ||| low).signExtend 32)
    else setSr s rt ((e lo).signExtend 32)

end Moves

end ParallelRsp.CP
