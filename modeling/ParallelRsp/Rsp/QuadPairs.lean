import ParallelRsp.Rsp.ByteTransfers

/-!
# Unaligned quads

A quad at an address that is not a multiple of 16 is moved by two instructions: `LQV` or
`SQV` at `A` moves the part up to the end of the line of `A`, and `LRV` or `SRV` at
`A + 16` the rest, from the start of the next line. The second instruction computes its
bounds in its own way; on an aligned address it does nothing.

`quad_pair`: with element 0 the two are one transfer of sixteen bytes, for every address,
in both directions and, for the loads, in either order. So the pair of loads brings back
what the pair of stores put down.
-/

namespace ParallelRsp.LS

open Simd Bits

variable {n m start : ℕ} {rt : Fin 32} {addr A : Word} {s : Arch}

/-! ### Transfers that follow one another -/

@[simp] theorem setReg_dmem (s : Arch) (r : Fin 32) (v : M128i) :
    (setReg s r v).dmem = s.dmem := rfl

@[simp] theorem setReg_sr (s : Arch) (r : Fin 32) (v : M128i) : (setReg s r v).sr = s.sr := rfl

@[simp] theorem setReg_self (s : Arch) (r : Fin 32) (v : M128i) : (setReg s r v).cp2.regs r = v :=
  Function.update_self _ _ _

@[simp] theorem setReg_setReg (s : Arch) (r : Fin 32) (v w : M128i) :
    setReg (setReg s r v) r w = setReg s r w := by
  simp [setReg]

@[simp] theorem setReg_regs (s : Arch) (r : Fin 32) : setReg s r (s.cp2.regs r) = s := by
  simp [setReg]

theorem bytesIn_zero : bytesIn 0 start rt addr s = s := by
  rw [bytesIn, ← eq_ofVecBytes (v := s.cp2.regs rt) fun i _ =>
    (if_neg (by omega)).symm, setReg_regs]

theorem bytesOut_zero : bytesOut 0 start rt addr s = s := by
  simp [bytesOut]

section Append

variable (start rt s)

/-- The address of a later byte, from either start. -/
theorem next_start (h : addr.toNat % dmemSize = (A.toNat + n) % dmemSize)
    {i : ℕ} (hi : start + n ≤ i) :
    (addr.toNat + (i - (start + n))) % dmemSize = (A.toNat + (i - start)) % dmemSize := by
  rw [Nat.add_mod, h, ← Nat.add_mod, show A.toNat + n +
    (i - (start + n)) = A.toNat + (i - start) by omega]

/-- Two transfers in that follow one another. -/
theorem bytesIn_append (h : addr.toNat % dmemSize = (A.toNat + n) % dmemSize) :
    bytesIn m (start + n) rt addr (bytesIn n start rt A s) = bytesIn (n + m) start rt A s := by
  unfold bytesIn
  simp only [setReg_setReg, setReg_dmem, setReg_self]
  congr 1
  refine ofVecBytes_congr fun i hi => ?_
  rw [readVecU8_ofVecBytes _ hi]
  by_cases hlater : start + n ≤ i
  · rw [next_start start h hlater, if_neg (show ¬(start ≤ i ∧ i < start + n) by omega)]
    exact if_congr (by omega) rfl rfl
  · rw [if_neg (show ¬(start + n ≤ i ∧ i < start + n + m) by omega)]
    exact if_congr (by omega) rfl rfl

/-- The order of the two does not matter. -/
theorem bytesIn_swap :
    bytesIn n start rt A (bytesIn m (start + n) rt addr s) =
      bytesIn m (start + n) rt addr (bytesIn n start rt A s) := by
  unfold bytesIn
  simp only [setReg_setReg, setReg_dmem, setReg_self]
  congr 1
  refine ofVecBytes_congr fun i hi => ?_
  rw [readVecU8_ofVecBytes _ hi, readVecU8_ofVecBytes _ hi]
  by_cases hlater : start + n ≤ i
  · rw [if_neg (show ¬(start ≤ i ∧ i < start + n) by omega),
      if_neg (show ¬(start ≤ i ∧ i < start + n) by omega)]
  · rw [if_neg (show ¬(start + n ≤ i ∧ i < start + n + m) by omega),
      if_neg (show ¬(start + n ≤ i ∧ i < start + n + m) by omega)]

/-- Two transfers out that follow one another. -/
theorem bytesOut_append (h : addr.toNat % dmemSize = (A.toNat + n) % dmemSize) (hn : n < dmemSize)
    (hm : n + m ≤ dmemSize) :
    bytesOut m (start + n) rt addr (bytesOut n start rt A s) = bytesOut (n + m) start rt A s := by
  unfold bytesOut
  simp only [view_view, Window.fill_congr_start h]
  rw [← Window.fill_append hn hm]
  simp only [Nat.add_assoc]

end Append

/-- What has been stored and is loaded to the same bytes of a register. -/
theorem bytesIn_bytesOut (hn : n ≤ 16) {rt' : Fin 32} :
    bytesIn n 0 rt' A (bytesOut n 0 rt A s) = setReg (bytesOut n 0 rt A s) rt' (ofVecBytes fun i =>
      if i < n then readVecU8 (s.cp2.regs rt) i else readVecU8 (s.cp2.regs rt') i) := by
  unfold bytesIn
  congr 1
  refine ofVecBytes_congr fun i hi => ?_
  by_cases hin : i < n
  · rw [if_pos (by omega), if_pos hin]
    simp only [bytesOut, view_view, Nat.sub_zero]
    rw [Window.fill_apply_add hin (hn.trans (by decide)), Nat.zero_add, Nat.mod_eq_of_lt hi]
  · rw [if_neg (by omega), if_neg hin]
    rfl

/-! ### The second instruction of a pair -/

section Second

variable (rt base : Fin 32) (offset : Word) (s : Arch)

/-- The start of the line of an address, in DMEM. -/
theorem line_mod (B : Word) :
    (B &&& ~~~0xf#32).toNat % dmemSize = B.toNat % dmemSize / 16 * 16 := by
  rw [toNat_and_not_15]
  unfold dmemSize
  omega

/-- `LRV` with element 0 loads the last vector bytes from the start of the line. -/
theorem rspLRV_zero (b : Build) : lwc2 b .r 0 rt base offset s =
    bytesIn ((lsAddr s.sr base offset 16).toNat % 16)
      (16 - (lsAddr s.sr base offset 16).toNat % 16) rt
      (lsAddr s.sr base offset 16 &&& ~~~0xf#32) s := by
  show rspLRV 0 rt base offset s = _
  unfold rspLRV
  generalize lsAddr s.sr base offset 16 = B
  have hline := toNat_and_15 B
  dsimp only
  split
  · rename_i h
    rw [← hline, h]
    exact bytesIn_zero.symm
  · rw [hline, loadLoop_eq (n := B.toNat % 16) (by show 16 + 0 - _ ≤ 16; omega)
      (by show 16 = min 16 (16 + 0 - _ + _); omega)]
    rfl

/-- `SRV` with element 0 stores the last vector bytes to the start of the line. -/
theorem writesSRV_zero : swc2 .r 0 rt base offset s =
    bytesOut ((lsAddr s.sr base offset 16).toNat % 16)
      (16 - (lsAddr s.sr base offset 16).toNat % 16) rt
      (lsAddr s.sr base offset 16 &&& ~~~0xf#32) s := by
  simp only [swc2, storeWrites, writesSRV]
  generalize lsAddr s.sr base offset 16 = B
  have hmask := toNat_and_fff B
  have hline : ((B &&& 0xfff#32) &&& 0xf#32).toNat = B.toNat % 16 := by
    rw [toNat_and_15, hmask]
    omega
  split
  · rename_i h
    rw [← hline, h]
    exact bytesOut_zero.symm
  · rw [hline]
    unfold bytesOut
    congr 1
    have hstart : ((B &&& 0xfff#32) &&& ~~~0xf#32).toNat = B.toNat % dmemSize / 16 * 16 := by
      rw [toNat_and_not_15, hmask]
      rfl
    have hlt : B.toNat % dmemSize / 16 * 16 + 16 ≤ dmemSize := by
      unfold dmemSize
      omega
    refine (applyWrites_bytes (A := (B &&& ~~~0xf#32).toNat)
      (by unfold dmemSize; omega) fun k hk => ?_).trans
      (congrArg view (Window.fill_congr fun k _ => ?_))
    · rw [← Nat.mod_add_mod, line_mod, toNat_add_addrOf (by rw [hstart]; omega) (by omega), hstart]
      exact (Nat.mod_eq_of_lt (by omega)).symm
    · rw [Nat.add_comm (16 - B.toNat % 16)]
      exact congrArg (fun t => readVecU8 _ ((t + _) % 16)) (Nat.zero_add k)

end Second

/-! ### The pair -/

/-- The second instruction's window follows the first one's. -/
theorem second_start {B : Word} (h : B = A + 16#32) :
    B.toNat % 16 = A.toNat % 16 ∧
      (B &&& ~~~0xf#32).toNat % dmemSize = (A.toNat + (16 - A.toNat % 16)) % dmemSize := by
  have hB : B.toNat = (A.toNat + 16) % 2 ^ 32 := by
    rw [h, BitVec.toNat_add]
    rfl
  rw [line_mod]
  unfold dmemSize
  omega

section Pair

variable (b : Build) (rt base base' : Fin 32) (offset offset' : Word) (s : Arch)

/-- The parts of the sixteen bytes. -/
theorem parts (A : Word) : 16 - A.toNat % 16 + A.toNat % 16 = 16 := Nat.sub_add_cancel (by omega)

theorem store_pair (h : lsAddr s.sr base' offset' 16 = lsAddr s.sr base offset 16 + 16#32) :
    swc2 .r 0 rt base' offset' (swc2 .q 0 rt base offset s) =
      bytesOut 16 0 rt (lsAddr s.sr base offset 16) s := by
  obtain ⟨hr, hstart⟩ := second_start h
  have happend := bytesOut_append (m := (lsAddr s.sr base offset 16).toNat % 16) 0 rt s hstart
    (by unfold dmemSize; omega) (by unfold dmemSize; omega)
  rw [Nat.zero_add, parts] at happend
  rw [writesSRV_zero, show (swc2 .q 0 rt base offset s).sr = s.sr from rfl, hr, swc2_q_eq]
  exact happend

theorem load_pair (h : lsAddr s.sr base' offset' 16 = lsAddr s.sr base offset 16 + 16#32) :
    lwc2 b .r 0 rt base' offset' (lwc2 b .q 0 rt base offset s) =
      bytesIn 16 0 rt (lsAddr s.sr base offset 16) s := by
  obtain ⟨hr, hstart⟩ := second_start h
  have happend := bytesIn_append (m := (lsAddr s.sr base offset 16).toNat % 16) 0 rt s hstart
  rw [Nat.zero_add, parts] at happend
  have hquad : lwc2 b .q 0 rt base offset s = _ := rspLQV_eq 0 rt base offset s
  have hsr : (lwc2 b .q 0 rt base offset s).sr = s.sr := by rw [hquad, bytesIn, setReg_sr]
  rw [rspLRV_zero, hsr, hr, hquad]
  exact happend

theorem load_pair' (h : lsAddr s.sr base' offset' 16 = lsAddr s.sr base offset 16 + 16#32) :
    lwc2 b .q 0 rt base offset (lwc2 b .r 0 rt base' offset' s) =
      bytesIn 16 0 rt (lsAddr s.sr base offset 16) s := by
  obtain ⟨hr, hstart⟩ := second_start h
  have happend := (bytesIn_swap 0 rt s).trans
    (bytesIn_append (m := (lsAddr s.sr base offset 16).toNat % 16) 0 rt s hstart)
  rw [Nat.zero_add, parts] at happend
  rw [rspLRV_zero, hr]
  refine (rspLQV_eq 0 rt base offset _).trans ?_
  exact happend

end Pair

/-- A quad at any address `A` is moved by two instructions: `SQV` at `A` and `SRV` at `A + 16`
store the sixteen bytes of the register to the sixteen bytes from `A` on and nothing else, `LQV`
and `LRV`, in either order, load them from there, and the loads after the stores, to any
register, bring back the stored one. -/
theorem quad_pair (b : Build) (rt rt' base base' : Fin 32) (offset offset' : Word) (s : Arch)
    (h : lsAddr s.sr base' offset' 16 = lsAddr s.sr base offset 16 + 16#32) :
    swc2 .r 0 rt base' offset' (swc2 .q 0 rt base offset s) =
      bytesOut 16 0 rt (lsAddr s.sr base offset 16) s ∧
    lwc2 b .r 0 rt base' offset' (lwc2 b .q 0 rt base offset s) =
      bytesIn 16 0 rt (lsAddr s.sr base offset 16) s ∧
    lwc2 b .q 0 rt base offset (lwc2 b .r 0 rt base' offset' s) =
      bytesIn 16 0 rt (lsAddr s.sr base offset 16) s ∧
    (let stored := swc2 .r 0 rt base' offset' (swc2 .q 0 rt base offset s)
     lwc2 b .r 0 rt' base' offset' (lwc2 b .q 0 rt' base offset stored) =
       setReg stored rt' (s.cp2.regs rt)) := by
  have hstore := store_pair rt base base' offset offset' s h
  refine ⟨hstore, load_pair b rt base base' offset offset' s h,
    load_pair' b rt base base' offset offset' s h, ?_⟩
  dsimp only
  rw [hstore, load_pair b rt' base base' offset offset'
    (bytesOut 16 0 rt (lsAddr s.sr base offset 16) s) h]
  refine (bytesIn_bytesOut le_rfl).trans ?_
  rw [← ofVecBytes_readVecU8 (s.cp2.regs rt)]
  congr 1
  refine ofVecBytes_congr fun i hi => ?_
  rw [if_pos hi, ofVecBytes_readVecU8]

/-- A register with the address `0xffa`, from which the sixteen bytes cross the end of DMEM. -/
def quadState : Arch := { Arch.zero with sr := Function.update Arch.zero.sr 1 0xffa#32 }

theorem quad_pair_wraps :
    swc2 .r 0 3 1 1#32 (swc2 .q 0 3 1 0#32 quadState) = bytesOut 16 0 3 0xffa#32 quadState ∧
    lwc2 .ssse3 .r 0 3 1 1#32 (lwc2 .ssse3 .q 0 3 1 0#32 quadState) =
      bytesIn 16 0 3 0xffa#32 quadState :=
  have h := quad_pair .ssse3 3 3 1 1 0#32 1#32 quadState (by decide)
  ⟨h.1, h.2.1⟩

end ParallelRsp.LS
