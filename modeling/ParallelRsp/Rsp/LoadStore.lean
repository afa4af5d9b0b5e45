import ParallelRsp.Vu.Common

/-!
# Vector loads and stores

`rsp/ls.cpp`. A load writes bytes of vector registers from DMEM, a store bytes of DMEM
from vector registers.

DMEM is addressed as the code does: the byte with RSP address `a` lies at index
`a ^ 3` of the host's memory (`BES`), a halfword at `a ^ 2` (`HES`), and byte `i` of a
vector register at byte `i ^ 1` of the host's vector (`MES`). Addresses are 32-bit
numbers, and only what the source masks is masked.

A store is given by the list of the bytes it writes, in order, so that it can be asked
where each of them lands. The word-swapping paths of LLV, LDV, LQV, SDV and SQV move
halfwords: halfword `k` of one side is halfword `k ^ 1` of the other.

`offset` is the sign-extended offset of the instruction, `base` the number of the base
register.
-/

namespace ParallelRsp

open Simd

/-! ### Bytes -/

/-- `READ_MEM_U8`. -/
def readMemU8 (mem : ℕ → Byte) (addr : Word) : Byte := mem (addr ^^^ 3#32).toNat

/-- `READ_VEC_U8`. -/
def readVecU8 (v : M128i) (i : ℕ) : Byte := byteAt v ⟨(i ^^^ 1) % 16, by omega⟩

/-- `WRITE_VEC_U8`. -/
def writeVecU8 (v : M128i) (i : ℕ) (data : Byte) : M128i :=
  ofBytes (Function.update (byteAt v) ⟨(i ^^^ 1) % 16, by omega⟩ data)

/-- A byte written to the host's memory, and its index there. -/
abbrev Write := ℕ × Byte

/-- `WRITE_MEM_U8`. -/
def writeMemU8 (addr : Word) (data : Byte) : Write := ((addr ^^^ 3#32).toNat, data)

/-- `WRITE_MEM_U16`. -/
def writeMemU16 (addr : Word) (data : BitVec 16) : List Write :=
  let i := 2 * ((addr ^^^ 2#32) >>> 1).toNat
  [(i, data.extractLsb' 0 8), (i + 1, data.extractLsb' 8 8)]

/-- The memory after the writes. -/
def applyWrites (mem : ℕ → Byte) (ws : List Write) : ℕ → Byte :=
  ws.foldl (fun m w => Function.update m w.1 w.2) mem

/-- The bytes of a register written by a loop that reads memory: element and address of
each round. -/
def loadBytes (mem : ℕ → Byte) (v : M128i) (rounds : List (ℕ × Word)) : M128i :=
  rounds.foldl (fun v r => writeVecU8 v r.1 (readMemU8 mem r.2)) v

/-- The `n` halfwords from lane `first` on, from the host's halfwords at `addr` with the
halves of each word swapped. -/
def loadHalves (mem : ℕ → Byte) (v : M128i) (first n : ℕ) (addr : Word) : M128i := fun i =>
  if first ≤ i.val ∧ i.val < first + n then
    let a := addr.toNat + 2 * ((i.val - first) ^^^ 1)
    mem (a + 1) ++ mem a
  else v i

/-- The writes of the `n` halfwords from lane `first` on to the host's halfwords at
`addr`, the halves of each word swapped. -/
def storeHalves (v : M128i) (first n : ℕ) (addr : Word) : List Write :=
  (List.range n).flatMap fun k =>
    let x := v ⟨(first + (k ^^^ 1)) % 8, by omega⟩
    [(addr.toNat + 2 * k, x.extractLsb' 0 8), (addr.toNat + 2 * k + 1, x.extractLsb' 8 8)]

/-- A number as an address. -/
def addrOf (n : ℕ) : Word := BitVec.ofNat 32 n

namespace LS

/-- Scalar register `base` plus `offset` scaled. -/
def lsAddr (sr : ℕ → Word) (base : Fin 32) (offset : Word) (scale : ℕ) : Word :=
  sr base + offset * BitVec.ofNat 32 scale

section Loads

variable (e : Fin 16) (rt base : Fin 32) (offset : Word) (s : Arch)

/-- A load of one register. -/
def setReg (r : Fin 32) (v : M128i) : Arch :=
  { s with cp2 := { s.cp2 with regs := Function.update s.cp2.regs r v } }

/-- The loop `for (i = start; i < end; i++)` that reads `addr++ & 0xfff` into byte
`i & 0xf` of `rt`. -/
def loadLoop (start stop : ℕ) (addr : Word) : Arch :=
  setReg s rt (loadBytes s.dmem (s.cp2.regs rt)
    ((List.range (stop - start)).map fun k => ((start + k) % 16, (addr + addrOf k) &&& 0xfff#32)))

/-- `RSP_LBV`. -/
def rspLBV : Arch :=
  let addr := lsAddr s.sr base offset 1 &&& 0xfff#32
  setReg s rt (writeVecU8 (s.cp2.regs rt) e (readMemU8 s.dmem addr))

/-- `RSP_LSV`. -/
def rspLSV : Arch :=
  let addr := lsAddr s.sr base offset 2
  loadLoop rt s e (if e.val > 14 then 16 else e.val + 2) addr

/-- `RSP_LLV`. -/
def rspLLV : Arch :=
  let addr := lsAddr s.sr base offset 4 &&& 0xfff#32
  if e.val % 4 = 0 ∧ addr &&& 3#32 = 0#32 then
    setReg s rt (loadHalves s.dmem (s.cp2.regs rt) (e.val / 2) 2 addr)
  else loadLoop rt s e (if e.val > 12 then 16 else e.val + 4) addr

/-- `RSP_LDV`. -/
def rspLDV : Arch :=
  let addr := lsAddr s.sr base offset 8
  if (e.val = 0 ∨ e.val = 8) ∧ addr &&& 7#32 = 0#32 then
    setReg s rt (loadHalves s.dmem (s.cp2.regs rt) (e.val / 2) 4 (addr &&& 0xfff#32))
  else loadLoop rt s e (if e.val > 8 then 16 else e.val + 8) addr

/-- The loop of `LPV` and `LUV`: eight bytes, each shifted into a lane. -/
def loadPacked (shift : ℕ) : Arch :=
  let addr := lsAddr s.sr base offset 8 &&& 0xfff#32
  let index := (addr &&& 7#32) - addrOf e
  let addr := addr &&& ~~~7#32
  setReg s rt fun i =>
    (readMemU8 s.dmem ((addr + ((addrOf i + index) &&& 0xf#32)) &&& 0xfff#32)).setWidth 16 <<< shift

/-- `RSP_LPV`. The SSSE3 build has a path of its own for aligned addresses, reading the
bytes of each word last to first. -/
def rspLPV (b : Build) : Arch :=
  let addr := lsAddr s.sr base offset 8 &&& 0xfff#32
  if b.hasSsse3 ∧ e.val = 0 ∧ addr &&& 7#32 = 0#32 then
    setReg s rt fun i =>
      (s.dmem (addr.toNat + 4 * (i.val / 4) + (3 - i.val % 4))).setWidth 16 <<< 8
  else loadPacked e rt base offset s 8

/-- `RSP_LUV`. -/
def rspLUV : Arch := loadPacked e rt base offset s 7

/-- `RSP_LHV`. -/
def rspLHV : Arch :=
  let addr := lsAddr s.sr base offset 16
  let index := (addr &&& 7#32) - addrOf e
  let addr := addr &&& ~~~7#32
  setReg s rt fun i =>
    (readMemU8 s.dmem ((addr + ((index + addrOf i * 2#32) &&& 0xf#32)) &&&
      0xfff#32)).setWidth 16 <<< 7

/-- `RSP_LFV`. -/
def rspLFV : Arch :=
  let addr := lsAddr s.sr base offset 16
  let index := (addr &&& 7#32) - addrOf e
  let stop := if e.val > 8 then 16 else e.val + 8
  let addr := addr &&& ~~~7#32
  let temp : M128i := fun i =>
    let off := if i.val < 4 then index + addrOf i * 4#32
      else index + addrOf (i.val - 4) * 4#32 + 8#32
    (readMemU8 s.dmem ((addr + (off &&& 0xf#32)) &&& 0xfff#32)).setWidth 16 <<< 7
  setReg s rt ((List.range (stop - e.val)).foldl
    (fun v k => writeVecU8 v (e.val + k) (readVecU8 temp (e.val + k))) (s.cp2.regs rt))

/-- `RSP_LWV`. -/
def rspLWV : Arch :=
  let addr := lsAddr s.sr base offset 16
  setReg s rt (loadBytes s.dmem (s.cp2.regs rt)
    ((List.range (2 * e.val)).map fun k =>
      ((16 - e.val + k) % 16, (addr + addrOf k * 4#32) &&& 0xfff#32)))

/-- `RSP_LQV`. -/
def rspLQV : Arch :=
  let addr := lsAddr s.sr base offset 16
  if addr &&& 0xf#32 = 0#32 then
    let addr := addr &&& 0xfff#32
    if e.val = 0 then setReg s rt (loadHalves s.dmem (s.cp2.regs rt) 0 8 addr)
    else
      let stop := if 16 + e.val > 16 then 16 else 16 + e.val
      -- here the address is not masked again
      setReg s rt (loadBytes s.dmem (s.cp2.regs rt)
        ((List.range (stop - e.val)).map fun k => ((e.val + k) % 16, addr + addrOf k)))
  else
    let stop := 16 + e.val - (addr &&& 0xf#32).toNat
    loadLoop rt s e (if stop > 16 then 16 else stop) addr

/-- `RSP_LRV`. On an aligned address the loop starts at `16 + e` and does nothing. -/
def rspLRV : Arch :=
  let addr := lsAddr s.sr base offset 16
  if addr &&& 0xf#32 = 0#32 then s
  else
    -- `start` wraps below zero for no address: `addr & 0xf` is at most 15
    let start := 16 + e.val - (addr &&& 0xf#32).toNat
    loadLoop rt s start 16 (addr &&& ~~~0xf#32)

/-- One round of the loop of `RSP_LTV`: two bytes of one register of the group. -/
def ltvRound (vt0 : Fin 32) (start : Word) (st : (Fin 32 → M128i) × Word × ℕ) (i : ℕ) :
    (Fin 32 → M128i) × Word × ℕ :=
  let (regs, addr, j) := st
  let j := j % 8
  let r : Fin 32 := ⟨(vt0.val + j) % 32, by omega⟩
  let wrap := fun a : Word => if a = start + 16#32 then start else a
  let regs := Function.update regs r
    (writeVecU8 (regs r) (2 * i) (readMemU8 s.dmem (addr &&& 0xfff#32)))
  let addr := wrap (addr + 1#32)
  let regs := Function.update regs r
    (writeVecU8 (regs r) (2 * i + 1) (readMemU8 s.dmem (addr &&& 0xfff#32)))
  (regs, wrap (addr + 1#32), j + 1)

/-- `RSP_LTV`. -/
def rspLTV : Arch :=
  let addr := lsAddr s.sr base offset 16
  let start := addr &&& ~~~7#32
  let vt0 : Fin 32 := ⟨rt.val / 8 * 8, by omega⟩
  let addr := start + ((addrOf e + (addr &&& 8#32)) &&& 0xf#32)
  let (regs, _, _) := (List.range 8).foldl (ltvRound s vt0 start) (s.cp2.regs, addr, e.val / 2)
  { s with cp2 := { s.cp2 with regs := regs } }

end Loads

/-! ### Stores -/

section Stores

variable (e : Fin 16) (rt base : Fin 32) (offset : Word) (s : Arch)

/-- The bytes `SBV` writes. -/
def writesSBV : List Write :=
  let addr := lsAddr s.sr base offset 1 &&& 0xfff#32
  [writeMemU8 addr (readVecU8 (s.cp2.regs rt) e)]

/-- The bytes `SSV` writes. -/
def writesSSV : List Write :=
  let addr := lsAddr s.sr base offset 2 &&& 0xfff#32
  [writeMemU8 addr (readVecU8 (s.cp2.regs rt) e),
    writeMemU8 ((addr + 1#32) &&& 0xfff#32) (readVecU8 (s.cp2.regs rt) ((e.val + 1) % 16))]

/-- The bytes `SLV` writes. -/
def writesSLV : List Write :=
  let addr := lsAddr s.sr base offset 4 &&& 0xfff#32
  (List.range 4).map fun k =>
    writeMemU8 (addr + addrOf k) (readVecU8 (s.cp2.regs rt) ((e.val + k) % 16))

/-- The bytes `SDV` writes. -/
def writesSDV : List Write :=
  let addr := lsAddr s.sr base offset 8 &&& 0xfff#32
  if e.val > 8 ∨ e.val % 2 = 1 ∨ addr &&& 1#32 ≠ 0#32 then
    (List.range 8).map fun i =>
      writeMemU8 ((addr + addrOf i) &&& 0xfff#32) (readVecU8 (s.cp2.regs rt) ((e.val + i) % 16))
  else if (e.val = 0 ∨ e.val = 8) ∧ addr &&& 7#32 = 0#32 then
    storeHalves (s.cp2.regs rt) (e.val / 2) 4 addr
  else
    (List.range 4).flatMap fun i =>
      writeMemU16 ((addr + 2#32 * addrOf i) &&& 0xfff#32)
        (s.cp2.regs rt ⟨(e.val / 2 + i) % 8, by omega⟩)

/-- The loop of `SPV` and `SUV`: eight lanes, shifted by `s0` or `s1`, to masked addresses. -/
def writesPacked (s0 s1 : ℕ) : List Write :=
  let addr := lsAddr s.sr base offset 8 &&& 0xfff#32
  (List.range 8).map fun k =>
    let i := e.val + k
    let shift := if i % 16 < 8 then s0 else s1
    let x := s.cp2.regs rt ⟨i % 8, by omega⟩
    writeMemU8 ((addr + addrOf k) &&& 0xfff#32) ((x.sshiftRight shift).setWidth 8)

/-- The bytes `SPV` writes. -/
def writesSPV : List Write := writesPacked e rt base offset s 8 7

/-- The bytes `SUV` writes. -/
def writesSUV : List Write := writesPacked e rt base offset s 7 8

/-- The bytes `SHV` writes. -/
def writesSHV : List Write :=
  let addr := lsAddr s.sr base offset 16 &&& 0xfff#32
  let index := addr &&& 7#32
  let addr := addr &&& ~~~7#32
  (List.range 8).map fun i =>
    let b := e.val + 2 * i
    let byte := readVecU8 (s.cp2.regs rt) (b % 16) <<< 1 |||
      readVecU8 (s.cp2.regs rt) ((b + 1) % 16) >>> 7
    writeMemU8 (addr + ((index + addrOf i * 2#32) &&& 0xf#32)) byte

/-- The four lanes that `SFV` stores; on the other elements it stores zeros. -/
def sfvLanes : Fin 16 → Option (Fin 4 → Fin 8)
  | 0 => some ![0, 1, 2, 3]
  | 15 => some ![0, 1, 2, 3]
  | 1 => some ![6, 7, 4, 5]
  | 4 => some ![1, 2, 3, 0]
  | 5 => some ![7, 4, 5, 6]
  | 8 => some ![4, 5, 6, 7]
  | 11 => some ![3, 0, 1, 2]
  | 12 => some ![5, 6, 7, 4]
  | _ => none

/-- The four bytes `SFV` stores. -/
def sfvBytes (k : Fin 4) : Byte :=
  match sfvLanes e with
  | some lanes => ((s.cp2.regs rt (lanes k)).sshiftRight 7).setWidth 8
  | none => 0#8

/-- The bytes `SFV` writes. -/
def writesSFV : List Write :=
  let addr := lsAddr s.sr base offset 16 &&& 0xfff#32
  let index := addr &&& 7#32
  let addr := addr &&& ~~~7#32
  [writeMemU8 (addr + index) (sfvBytes e rt s 0),
    writeMemU8 (addr + 4#32 + index) (sfvBytes e rt s 1),
    writeMemU8 (addr + ((8#32 + index) &&& 0xf#32)) (sfvBytes e rt s 2),
    writeMemU8 (addr + ((12#32 + index) &&& 0xf#32)) (sfvBytes e rt s 3)]

/-- The bytes `SWV` writes. -/
def writesSWV : List Write :=
  let addr := lsAddr s.sr base offset 16 &&& 0xfff#32
  let index := addr &&& 7#32
  let addr := addr &&& ~~~7#32
  (List.range 16).map fun k =>
    writeMemU8 (addr + ((index + addrOf k) &&& 0xf#32))
      (readVecU8 (s.cp2.regs rt) ((e.val + k) % 16))

/-- The loop of `SQV`: `n` bytes from element `e` on, to addresses that are not masked again. -/
def quadLoop (n : ℕ) (addr : Word) : List Write :=
  (List.range n).map fun k =>
    writeMemU8 (addr + addrOf k) (readVecU8 (s.cp2.regs rt) ((e.val + k) % 16))

/-- The bytes `SQV` writes. -/
def writesSQV : List Write :=
  let addr := lsAddr s.sr base offset 16 &&& 0xfff#32
  if addr &&& 0xf#32 = 0#32 then
    if e.val = 0 then storeHalves (s.cp2.regs rt) 0 8 addr
    else quadLoop e rt s 16 addr
  else quadLoop e rt s (16 - (addr &&& 0xf#32).toNat) addr

/-- The bytes `SRV` writes. -/
def writesSRV : List Write :=
  let addr := lsAddr s.sr base offset 16 &&& 0xfff#32
  -- on an aligned address the loop runs from `e` to `e`
  if addr &&& 0xf#32 = 0#32 then []
  else
    let n := (addr &&& 0xf#32).toNat
    let addr := addr &&& ~~~0xf#32
    (List.range n).map fun k =>
      writeMemU8 (addr + addrOf k) (readVecU8 (s.cp2.regs rt) ((e.val + k + (16 - n)) % 16))

/-- The bytes `STV` writes. -/
def writesSTV : List Write :=
  let e' := e.val / 2 * 2
  let rt := rt.val / 8 * 8
  let addr := lsAddr s.sr base offset 16 &&& 0xfff#32
  let element := 16 - e'
  let index := (addr &&& 7#32) - addrOf e'
  let addr := addr &&& ~~~7#32
  (List.range 16).map fun k =>
    writeMemU8 (addr + ((index + addrOf k) &&& 0xf#32))
      (readVecU8 (s.cp2.regs ⟨(rt + k / 2) % 32, by omega⟩) ((element + k) % 16))

end Stores

/-! ### Dispatch -/

/-- The operations of `LWC2` and `SWC2`, in the order of their opcodes. -/
inductive LsOp where
  | b | s | l | d | q | r | p | u | h | f | w | t
  deriving DecidableEq

/-- The table of `SWC2`; it has no entry above 11. -/
def swc2Ops (rd : Fin 32) : Option LsOp :=
  [LsOp.b, .s, .l, .d, .q, .r, .p, .u, .h, .f, .w, .t][rd.val]?

/-- The table of `LWC2`, which lacks the entry of `LWV`. -/
def lwc2Ops (rd : Fin 32) : Option LsOp := if rd.val = 10 then none else swc2Ops rd

/-- The loads, by operation. -/
def lwc2 (b : Build) (op : LsOp) (e : Fin 16) (rt base : Fin 32)
    (offset : Word) (s : Arch) : Arch :=
  match op with
  | .b => rspLBV e rt base offset s
  | .s => rspLSV e rt base offset s
  | .l => rspLLV e rt base offset s
  | .d => rspLDV e rt base offset s
  | .q => rspLQV e rt base offset s
  | .r => rspLRV e rt base offset s
  | .p => rspLPV e rt base offset s b
  | .u => rspLUV e rt base offset s
  | .h => rspLHV e rt base offset s
  | .f => rspLFV e rt base offset s
  | .w => rspLWV e rt base offset s
  | .t => rspLTV e rt base offset s

/-- The bytes a store writes, by operation. -/
def storeWrites (op : LsOp) (e : Fin 16) (rt base : Fin 32) (offset : Word) (s : Arch) :
    List Write :=
  match op with
  | .b => writesSBV e rt base offset s
  | .s => writesSSV e rt base offset s
  | .l => writesSLV e rt base offset s
  | .d => writesSDV e rt base offset s
  | .q => writesSQV e rt base offset s
  | .r => writesSRV e rt base offset s
  | .p => writesSPV e rt base offset s
  | .u => writesSUV e rt base offset s
  | .h => writesSHV e rt base offset s
  | .f => writesSFV e rt base offset s
  | .w => writesSWV e rt base offset s
  | .t => writesSTV e rt base offset s

/-- The stores, by operation. -/
def swc2 (op : LsOp) (e : Fin 16) (rt base : Fin 32) (offset : Word) (s : Arch) : Arch :=
  { s with dmem := applyWrites s.dmem (storeWrites op e rt base offset s) }

end LS

end ParallelRsp
