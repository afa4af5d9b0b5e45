import ParallelRsp.State

/-!
# The system control registers

`rsp/cp0.cpp`, as the plugin is built (`PARALLEL_INTEGRATION`): reads with their polling
counters, writes with their side effects, the status register and the two DMA transfers.

What `RSP::rsp.ProcessRdpList` does belongs to another plugin. It is a parameter, which
may change the registers and RDRAM.
-/

namespace ParallelRsp

/-- A word of DMEM. -/
def readDmemWord (mem : ℕ → Byte) (i : ℕ) : Word :=
  mem (4 * i + 3) ++ mem (4 * i + 2) ++ mem (4 * i + 1) ++ mem (4 * i)

/-- DMEM with a word written. -/
def writeDmemWord (mem : ℕ → Byte) (i : ℕ) (x : Word) : ℕ → Byte := fun a =>
  if a / 4 = i then x.extractLsb' (8 * (a % 4)) 8 else mem a

namespace CP

/-- `ProcessRdpList`: the registers and RDRAM after the display list has been processed. -/
abbrev ProcessRdpList := CP0 → (ℕ → Byte) → (ℕ → Word) → CP0 × (ℕ → Word)

/-! ### Registers and bits -/

/-- `CP0_REGISTER_DMA_CACHE`. -/
abbrev dmaCache : Fin 16 := 0

/-- `CP0_REGISTER_DMA_DRAM`. -/
abbrev dmaDram : Fin 16 := 1

/-- `CP0_REGISTER_DMA_READ_LENGTH`. -/
abbrev dmaReadLength : Fin 16 := 2

/-- `CP0_REGISTER_DMA_WRITE_LENGTH`. -/
abbrev dmaWriteLength : Fin 16 := 3

/-- `CP0_REGISTER_SP_STATUS`. -/
abbrev spStatus : Fin 16 := 4

/-- `CP0_REGISTER_SP_SEMAPHORE`. -/
abbrev spSemaphore : Fin 16 := 7

/-- `CP0_REGISTER_CMD_START`. -/
abbrev cmdStart : Fin 16 := 8

/-- `CP0_REGISTER_CMD_END`. -/
abbrev cmdEnd : Fin 16 := 9

/-- `CP0_REGISTER_CMD_CURRENT`. -/
abbrev cmdCurrent : Fin 16 := 10

/-- `CP0_REGISTER_CMD_STATUS`. -/
abbrev cmdStatus : Fin 16 := 11

/-- `CP0_REGISTER_CMD_CLOCK`. -/
abbrev cmdClock : Fin 16 := 12

/-- `CP0_REGISTER_CMD_BUSY`. -/
abbrev cmdBusy : Fin 16 := 13

/-- `CP0_REGISTER_CMD_PIPE_BUSY`. -/
abbrev cmdPipeBusy : Fin 16 := 14

/-- `CP0_REGISTER_CMD_TMEM_BUSY`. -/
abbrev cmdTmemBusy : Fin 16 := 15

/-- `SP_STATUS_HALT`. -/
abbrev spStatusHalt : Word := 0x0001#32

/-- `SP_STATUS_BROKE`. -/
abbrev spStatusBroke : Word := 0x0002#32

/-- `SP_STATUS_INTR_BREAK`. -/
abbrev spStatusIntrBreak : Word := 0x0040#32

/-- The flags of `rsp_status_write` in its order: set bit, clear bit, status bit. -/
def statusFlags : List (Word × Word × Word) := [
  (0x00000002#32, 0x00000001#32, 0x0001#32), -- HALT
  (0x00000040#32, 0x00000020#32, 0x0020#32), -- SSTEP
  (0x00000100#32, 0x00000080#32, 0x0040#32), -- INTR_BREAK
  (0x00000400#32, 0x00000200#32, 0x0080#32), -- SIG0
  (0x00001000#32, 0x00000800#32, 0x0100#32), -- SIG1
  (0x00004000#32, 0x00002000#32, 0x0200#32), -- SIG2
  (0x00010000#32, 0x00008000#32, 0x0400#32), -- SIG3
  (0x00040000#32, 0x00020000#32, 0x0800#32), -- SIG4
  (0x00100000#32, 0x00080000#32, 0x1000#32), -- SIG5
  (0x00400000#32, 0x00200000#32, 0x2000#32), -- SIG6
  (0x01000000#32, 0x00800000#32, 0x4000#32)] -- SIG7

/-- `SP_SET_INTR`. -/
abbrev spSetIntr : Word := 0x00000010#32

/-- `SP_CLR_INTR`. -/
abbrev spClrIntr : Word := 0x00000008#32

/-- `SP_CLR_BROKE`. -/
abbrev spClrBroke : Word := 0x00000004#32

/-- A control register written. -/
def setCr (s : Arch) (r : Fin 16) (x : Word) : Arch :=
  { s with cp0 := { s.cp0 with cr := Function.update s.cp0.cr r x } }

/-! ### Reads -/

/-- `RSP_MFC0`. -/
def rspMFC0 (rt rd : Fin 32) (s : Arch) : Arch × ReturnMode :=
  let rd : Fin 16 := ⟨rd.val % 16, by omega⟩
  let res := s.cp0.cr rd
  let s := if rt.val ≠ 0 then { s with sr := Function.update s.sr rt res } else s
  if rd = spStatus then
    let count := s.cp0.mfc0Count rt + 1#16
    let s := { s with cp0 := { s.cp0 with mfc0Count := Function.update s.cp0.mfc0Count rt count } }
    if s.cp0.spStatusTimeout.toInt ≤ count.toInt then
      (setCr s spStatus (s.cp0.cr spStatus ||| spStatusHalt), .checkFlags)
    else (s, .continue)
  else if rd = spSemaphore ∧ s.cp0.graphicsHle then
    ({ s with sr := Function.update s.sr rt 0#32 }, .continue)
  else (s, .continue)

/-! ### The status register -/

/-- `RSP_HANDLE_STATUS_WRITE`. -/
def handleStatusWrite (rt status : Word) (flag : Word × Word × Word) : Word :=
  if rt &&& (flag.1 ||| flag.2.1) = flag.1 then status ||| flag.2.2
  else if rt &&& (flag.1 ||| flag.2.1) = flag.2.1 then status &&& ~~~flag.2.2
  else status

/-- `rsp_status_write`. -/
def rspStatusWrite (rt : Word) (s : Arch) : Arch × ReturnMode :=
  let status := statusFlags.foldl (handleStatusWrite rt) (s.cp0.cr spStatus)
  let irq :=
    if rt &&& (spSetIntr ||| spClrIntr) = spSetIntr then s.cp0.irq ||| 1#32
    else if rt &&& (spSetIntr ||| spClrIntr) = spClrIntr then s.cp0.irq &&& ~~~1#32
    else s.cp0.irq
  let status := if rt &&& spClrBroke ≠ 0#32 then status &&& ~~~spStatusBroke else status
  let s := setCr { s with cp0 := { s.cp0 with irq := irq } } spStatus status
  (s, if irq &&& 1#32 ≠ 0#32 ∨ status &&& spStatusHalt ≠ 0#32 then .checkFlags else .continue)

/-! ### DMA -/

/-- The fields of a length register: length, skip and count. -/
def dmaLength (reg : Word) : Word := ((reg &&& 0xFFF#32) + 1#32 + 0x7#32) &&& ~~~0x7#32

/-- Bits `31..20`. -/
def dmaSkip (reg : Word) : Word := (reg >>> 20) &&& 0xFFF#32

/-- Bits `19..12`. -/
def dmaCount (reg : Word) : ℕ := ((reg >>> 12) &&& 0xFF#32).toNat

/-- The length, cut off at the end of the bank that `cache` lies in. -/
def dmaCheckLength (cache length : Word) : Word :=
  if 0x1000 < ((cache &&& 0xFFF#32) + length).toNat then 0x1000#32 - (cache &&& 0xFFF#32)
  else length

/-- One word of a DMA into the SP. -/
def dmaReadWord (source dest : Word) (s : Arch) : Arch :=
  let sourceAddr := source &&& 0x7FFFFC#32
  let destAddr := dest &&& 0x1FFC#32
  let word := s.rdram (sourceAddr >>> 2).toNat
  if destAddr &&& 0x1000#32 ≠ 0#32 then
    let block := (destAddr &&& 0xfff#32).toNat / 256
    { s with
      dirtyBlocks := s.dirtyBlocks ||| (0x3#32 <<< block) >>> 1
      imem := Function.update s.imem ((destAddr &&& 0xfff#32) >>> 2).toNat word }
  else { s with dmem := writeDmemWord s.dmem (destAddr >>> 2).toNat word }

/-- One word of a DMA out of the SP. -/
def dmaWriteWord (source dest : Word) (s : Arch) : Arch :=
  let sourceAddr := source &&& 0x1FFC#32
  let destAddr := dest &&& 0x7FFFFC#32
  let word :=
    if sourceAddr &&& 0x1000#32 ≠ 0#32 then s.imem ((sourceAddr &&& 0xfff#32) >>> 2).toNat
    else readDmemWord s.dmem (sourceAddr >>> 2).toNat
  { s with rdram := Function.update s.rdram (destAddr >>> 2).toNat word }

/-- The inner loop of a DMA: `length` bytes, a word at a time. -/
def dmaRow (word : Word → Word → Arch → Arch) (length source dest : Word) (s : Arch) : Arch :=
  (List.range (length.toNat / 4)).foldl
    (fun s k => word (source + BitVec.ofNat 32 (4 * k)) (dest + BitVec.ofNat 32 (4 * k)) s) s

/-- The outer loop of a DMA: `n` rows, each source and destination moved on by its own step. -/
def dmaRows (word : Word → Word → Arch → Arch) (length sourceStep destStep : Word) :
    ℕ → Word → Word → Arch → Arch × Word × Word
  | 0, source, dest, s => (s, source, dest)
  | n + 1, source, dest, s =>
    dmaRows word length sourceStep destStep n (source + sourceStep) (dest + destStep)
      (dmaRow word length source dest s)

/-- `rsp_dma_read`. -/
def rspDmaRead (s : Arch) : Arch × ReturnMode :=
  let lengthReg := s.cp0.cr dmaReadLength
  let s := setCr s dmaCache (s.cp0.cr dmaCache &&& ~~~0x7#32)
  let s := setCr s dmaDram (s.cp0.cr dmaDram &&& ~~~0x7#32)
  let length := dmaCheckLength (s.cp0.cr dmaCache) (dmaLength lengthReg)
  let (s, source, dest) := dmaRows dmaReadWord length (length + dmaSkip lengthReg) length
    (dmaCount lengthReg + 1) (s.cp0.cr dmaDram) (s.cp0.cr dmaCache) s
  let s := setCr s dmaDram source
  let s := setCr s dmaCache dest
  let s := setCr s dmaReadLength 0xff8#32
  (s, if s.dirtyBlocks ≠ 0#32 then .checkFlags else .continue)

/-- `rsp_dma_write`. -/
def rspDmaWrite (s : Arch) : Arch :=
  let lengthReg := s.cp0.cr dmaWriteLength
  let s := setCr s dmaCache (s.cp0.cr dmaCache &&& ~~~0x3#32)
  let s := setCr s dmaDram (s.cp0.cr dmaDram &&& ~~~0x7#32)
  let length := dmaCheckLength (s.cp0.cr dmaCache) (dmaLength lengthReg)
  let (s, source, dest) := dmaRows dmaWriteWord length length (length + dmaSkip lengthReg)
    (dmaCount lengthReg + 1) (s.cp0.cr dmaCache) (s.cp0.cr dmaDram) s
  let s := setCr s dmaCache source
  let s := setCr s dmaDram dest
  setCr s dmaWriteLength 0xff8#32

/-! ### Writes -/

/-- The bits of `CP0_REGISTER_CMD_STATUS` that a write clears or sets, in its order: bit of
the written value, bit of the register, whether it is set. -/
def cmdStatusBits : List (ℕ × ℕ × Bool) :=
  [(0, 0, false), (1, 0, true), (2, 1, false), (3, 1, true), (4, 2, false), (5, 2, true)]

/-- One of them. -/
def cmdStatusBit (val status : Word) (b : ℕ × ℕ × Bool) : Word :=
  let bit : Word := (if val.getLsbD b.1 then 1#32 else 0#32) <<< b.2.1
  if b.2.2 then status ||| bit else status &&& ~~~bit

/-- `RSP_MTC0` with the value to be written. -/
def mtc0Value (rdp : ProcessRdpList) (rd : Fin 16) (val : Word) (s : Arch) : Arch × ReturnMode :=
  if rd = dmaCache then (setCr s dmaCache (val &&& 0x1fff#32), .continue)
  else if rd = dmaDram then (setCr s dmaDram (val &&& 0xffffff#32), .continue)
  else if rd = dmaReadLength then rspDmaRead (setCr s dmaReadLength val)
  else if rd = dmaWriteLength then (rspDmaWrite (setCr s dmaWriteLength val), .continue)
  else if rd = spStatus then rspStatusWrite val s
  else if rd = spSemaphore then (setCr s spSemaphore 0#32, .continue)
  else if rd = cmdStart then
    let x := val &&& 0xfffffff8#32
    (setCr (setCr (setCr s cmdEnd x) cmdCurrent x) cmdStart x, .continue)
  else if rd = cmdEnd then
    let s := setCr s cmdEnd (val &&& 0xfffffff8#32)
    let (cp0, rdram) := rdp s.cp0 s.dmem s.rdram
    ({ s with cp0 := cp0, rdram := rdram }, .continue)
  else if rd = cmdClock then (setCr s cmdClock val, .continue)
  else if rd = cmdStatus then
    let s := setCr s cmdStatus (cmdStatusBits.foldl (cmdStatusBit val) (s.cp0.cr cmdStatus))
    let s := if val &&& 0x40#32 ≠ 0#32 then setCr s cmdTmemBusy 0#32 else s
    let s := if val &&& 0x200#32 ≠ 0#32 then setCr s cmdClock 0#32 else s
    (s, .continue)
  else if rd = cmdCurrent ∨ rd = cmdBusy ∨ rd = cmdPipeBusy ∨ rd = cmdTmemBusy then (s, .continue)
  else (setCr s rd val, .continue)

/-- `RSP_MTC0`. -/
def rspMTC0 (rdp : ProcessRdpList) (rd rt : Fin 32) (s : Arch) : Arch × ReturnMode :=
  mtc0Value rdp ⟨rd.val % 16, by omega⟩ (s.sr rt) s

end CP

end ParallelRsp
