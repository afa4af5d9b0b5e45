import Mathlib.Data.Fintype.Card
import ParallelRsp.Jit.RegisterCache

/-!
# What the register cache means

`Rep c h v` says that the host `h`, read through the cache `c`, is the state `v` of a
machine that keeps its registers in memory. `Locked c ks` says which registers are
locked, and how often. Every function of the cache keeps both, and this is stated once
for each of them as a rule of `falls`.

A register that is to be written is in the cache with some value or other. The rule of
`modifyMipsRegister` therefore says what holds after any value has been written
(`Writable`).
-/

namespace ParallelRsp.Jit

open Codegen

variable {T : Target}

/-! ### Values -/

theorem low_extend (signed : Bool) (x : Word) : low (extend T signed x) = x := by
  cases signed
  · rw [extend, if_neg (by decide), low, BitVec.setWidth_setWidth_of_le x T.wide,
      BitVec.setWidth_eq]
  · rw [extend, if_pos rfl, low]
    ext i hi
    simp [BitVec.getElem_signExtend, hi, Nat.lt_of_lt_of_le hi T.wide]

/-- The word is what the sign state says. -/
def HasSign : SignState → BitVec T.wordSize → Prop
  | .sExt, x => x = extend T true (low x)
  | .zExt, x => x = extend T false (low x)
  | .unknown, _ => True

theorem hasSign_extend (signed : Bool) (x : Word) :
    HasSign (if signed then .sExt else .zExt) (extend T signed x) := by
  cases signed
  · exact congrArg (extend T false) (low_extend false x).symm
  · exact congrArg (extend T true) (low_extend true x).symm

theorem extend_zero (signed : Bool) : extend T signed 0#32 = 0#_ := by
  cases signed
  · rw [extend, if_neg (by decide)]
    exact BitVec.setWidth_zero _ _
  · rw [extend, if_pos rfl, BitVec.signExtend_eq_setWidth_of_msb_false rfl]
    exact BitVec.setWidth_zero _ _

theorem hasSign_zero (s : SignState) : HasSign s (0#T.wordSize) := by
  have hl : low (0#T.wordSize) = 0#32 := by simp [low]
  cases s
  · rw [HasSign, hl, extend_zero]
  · rw [HasSign, hl, extend_zero]
  · trivial

/-! ### States -/

/-- What compiled code keeps besides registers and memories of the RSP. -/
@[ext]
structure Control (T : Target) where
  /-- `JIT_REGISTER_INDIRECT_PC`. -/
  indirectPc : BitVec T.wordSize
  /-- The stack frame. -/
  frame : ℕ → BitVec T.wordSize
  /-- `pc` of `CPUState`. -/
  pc : Word
  /-- `has_delay_slot`. -/
  hasDelaySlot : Word
  /-- `branch_target`. -/
  branchTarget : Word
  /-- The instructions executed. -/
  log : List (Word × Word)

/-- The control part of a host. -/
def Host.control (h : Host T) : Control T where
  indirectPc := h.regs registerIndirectPc
  frame := h.frame
  pc := h.st.pc
  hasDelaySlot := h.st.hasDelaySlot
  branchTarget := h.st.branchTarget
  log := h.log

/-- A machine that keeps its registers in memory. -/
@[ext]
structure View (T : Target) where
  /-- Registers and memories of the RSP. -/
  arch : Arch
  /-- The pending branch condition. -/
  cond : Word
  /-- The rest. -/
  control : Control T

namespace View

/-- What is in memory at a register's place. -/
def mem (v : View T) (r : ℕ) : Word := if r = condBranchTaken then v.cond else v.arch.sr r

/-- What a register reads as. -/
def reg (v : View T) (r : ℕ) : Word := if r = 0 then 0#32 else v.mem r

/-- A register written; the scratch registers are nobody's. -/
def put (v : View T) (r : ℕ) (x : Word) : View T :=
  if r = condBranchTaken then { v with cond := x }
  else if r < condBranchTaken then { v with arch := CP.setSr v.arch r x }
  else v

end View

/-! ### The invariant -/

/-- An entry in use holds its register. -/
structure EntryOk (h : Host T) (v : View T) (d : HReg) (e : CacheEntry) : Prop where
  /-- Register 0 is zero and not to be written back. -/
  zero : e.mipsRegister = 0 → ¬e.modified ∧ h.regs d = 0#_
  /-- The value. -/
  value : e.mipsRegister ≤ condBranchTaken → low (h.regs d) = v.reg e.mipsRegister
  /-- The sign state is right. -/
  sign : e.mipsRegister ≤ condBranchTaken → HasSign e.sign (h.regs d)
  /-- The branch condition is zero as a host word when it is zero. -/
  cond : e.mipsRegister = condBranchTaken → HasSign .sExt (h.regs d)

/-- The entry is in use and has a value of register `r` that memory does not have. -/
def CacheEntry.Owes (e : CacheEntry) (r : ℕ) : Prop := e.isLive ∧ e.mipsRegister = r ∧ e.modified

/-- The host, read through the cache, is the state `v`. -/
structure Rep (c : RegisterCache T) (h : Host T) (v : View T) : Prop where
  /-- No two entries hold the same register. -/
  distinct : ∀ i j, (c.entries i).isLive → (c.entries j).isLive →
    (c.entries i).mipsRegister = (c.entries j).mipsRegister → i = j
  /-- The entries. -/
  entry : ∀ i, (c.entries i).isLive → EntryOk h v (home i) (c.entries i)
  /-- What is not modified in the cache is in memory. -/
  memory : ∀ r ≤ condBranchTaken, (∀ i, ¬(c.entries i).Owes r) → h.st.sr r = v.mem r
  /-- The other registers and memories. -/
  rest : h.st.toArch = v.arch.withSr h.st.sr
  /-- The control part. -/
  control : h.control = v.control

/-- Register `ks` are locked, each as often as it is listed. -/
structure Locked (c : RegisterCache T) (ks : List ℕ) : Prop where
  /-- The counts. -/
  count : ∀ i, (c.entries i).numLocks =
    if (c.entries i).isLive then ks.count (c.entries i).mipsRegister else 0
  /-- Locked registers are in the cache. -/
  held : ∀ k ∈ ks, ∃ i, (c.entries i).isLive ∧ (c.entries i).mipsRegister = k

/-- Register `r` is in host register `d`, extended as `s` says. -/
def At (c : RegisterCache T) (r : ℕ) (d : HReg) (s : SignState) : Prop :=
  ∃ i, (c.entries i).isLive ∧ (c.entries i).mipsRegister = r ∧ home i = d ∧
    (s = .unknown ∨ (c.entries i).sign = s)

/-- Register `r` is in host register `d`, to be written there. -/
def Owned (c : RegisterCache T) (r : ℕ) (d : HReg) : Prop :=
  ∃ i, (c.entries i).isLive ∧ (c.entries i).mipsRegister = r ∧ home i = d ∧
    (c.entries i).sign = .unknown ∧ (c.entries i).modified

/-- Whatever is written to host register `d` is then the value of `r`. -/
def Writable (c : RegisterCache T) (h : Host T) (v : View T) (r : ℕ) (d : HReg) : Prop :=
  ∀ x, (r = condBranchTaken → HasSign .sExt x) → Rep c (h.set d x) (v.put r (low x))

/-- No entry is in use. -/
def Clean (c : RegisterCache T) : Prop := ∀ i, ¬(c.entries i).isLive

/-! ### Registers of the host -/

theorem home_injective : Function.Injective (home (T := T)) := by
  intro i j h
  simp only [home] at h
  split at h <;> split at h
  · exact Fin.ext (HReg.R.inj h)
  · cases h
  · cases h
  · have hk := HReg.V.inj h
    omega

theorem home_ne_indirectPc (i : Fin T.numFree) : home i ≠ registerIndirectPc := by
  intro h
  simp only [home] at h
  split at h
  · cases h
  · have hk := HReg.V.inj h
    omega

@[simp] theorem Host.set_regs_self (h : Host T) (d : HReg) (x : BitVec T.wordSize) :
    (h.set d x).regs d = x :=
  Function.update_self _ _ _

theorem Host.set_regs_of_ne (h : Host T) {d d' : HReg} (x : BitVec T.wordSize) (hd : d' ≠ d) :
    (h.set d x).regs d' = h.regs d' := Function.update_of_ne hd _ _

@[simp] theorem Host.set_st (h : Host T) (d : HReg) (x : BitVec T.wordSize) :
    (h.set d x).st = h.st := rfl

@[simp] theorem Host.set_set (h : Host T) (d : HReg) (x y : BitVec T.wordSize) :
    (h.set d x).set d y = h.set d y := by
  simp [Host.set]

@[simp] theorem Host.set_self (h : Host T) (d : HReg) : h.set d (h.regs d) = h := by
  simp [Host.set]

theorem Host.control_set (h : Host T) {d : HReg} (x : BitVec T.wordSize)
    (hd : d ≠ registerIndirectPc) :
    (h.set d x).control = h.control := by
  simp only [Host.control, Host.set_regs_of_ne h x hd.symm]
  rfl

/-! ### Entries -/

namespace RegisterCache

variable (c : RegisterCache T) (i : Fin T.numFree) (e : CacheEntry)

@[simp] theorem set_entries_self : (c.set i e).entries i = e := Function.update_self _ _ _

theorem set_entries_of_ne {j : Fin T.numFree} (h : j ≠ i) : (c.set i e).entries j = c.entries j :=
  Function.update_of_ne h _ _

@[simp] theorem set_set (e' : CacheEntry) : (c.set i e).set i e' = c.set i e' := by
  simp [set]

@[simp] theorem set_self : c.set i (c.entries i) = c := by
  simp [set]

@[simp] theorem touch_entries_self :
    (c.touch i).entries i =
      { c.entries i with
        timestamp := c.timestamp + 1#32
        numLocks := (c.entries i).numLocks + 1 } :=
  set_entries_self _ _ _

theorem touch_entries_of_ne {j : Fin T.numFree} (h : j ≠ i) : (c.touch i).entries j = c.entries j :=
  set_entries_of_ne _ _ _ h

theorem findLive_some {r : ℕ} {i : Fin T.numFree} (h : c.findLive r = some i) :
    (c.entries i).isLive ∧ (c.entries i).mipsRegister = r := by
  simpa using List.find?_some h

theorem findLive_none {r : ℕ} (h : c.findLive r = none)
    (i : Fin T.numFree) (hi : (c.entries i).isLive) :
    (c.entries i).mipsRegister ≠ r := by
  have := List.find?_eq_none.1 h i (List.mem_finRange i)
  simpa [hi] using this

theorem findFree_some {i : Fin T.numFree} (h : c.findFree = some i) : ¬(c.entries i).isLive := by
  simpa using List.find?_some h

theorem findFree_none (h : c.findFree = none) (i : Fin T.numFree) : (c.entries i).isLive := by
  simpa using List.find?_eq_none.1 h i (List.mem_finRange i)

/-- Whether an entry may be given away. -/
def Unlocked (i : Fin T.numFree) : Prop := (c.entries i).isLive ∧ (c.entries i).numLocks = 0

theorem older_some {best : Option (Fin T.numFree)} {i j : Fin T.numFree}
    (h : c.older best i = some j) :
    (j = i ∧ c.Unlocked i) ∨ best = some j := by
  simp only [older] at h
  split at h
  · rename_i hi
    split at h
    · exact .inl ⟨(Option.some.inj h).symm, hi⟩
    · split at h
      · exact .inl ⟨(Option.some.inj h).symm, hi⟩
      · exact .inr h
  · exact .inr h

theorem older_none {best : Option (Fin T.numFree)} {i : Fin T.numFree} (h : c.older best i = none) :
    best = none ∧ ¬c.Unlocked i := by
  simp only [older] at h
  split at h
  · split at h
    · cases h
    · split at h <;> cases h
  · rename_i hi
    exact ⟨h, hi⟩

theorem findOldest_some {i : Fin T.numFree} (h : c.findOldest = some i) : c.Unlocked i := by
  have main (is : List (Fin T.numFree)) (best : Option (Fin T.numFree))
      (hb : ∀ j, best = some j → c.Unlocked j) (h : is.foldl c.older best = some i) :
      c.Unlocked i := by
    induction is generalizing best with
    | nil => exact hb i h
    | cons k ks ih =>
      refine ih (c.older best k) ?_ h
      intro j hj
      rcases c.older_some hj with ⟨rfl, hk⟩ | hj
      · exact hk
      · exact hb j hj
  exact main _ none (by simp) h

theorem findOldest_none (h : c.findOldest = none) (i : Fin T.numFree) : ¬c.Unlocked i := by
  have main (is : List (Fin T.numFree)) (best : Option (Fin T.numFree))
      (h : is.foldl c.older best = none) : best = none ∧ ∀ i ∈ is, ¬c.Unlocked i := by
    induction is generalizing best with
    | nil => exact ⟨h, by simp⟩
    | cons k ks ih =>
      obtain ⟨hk, hks⟩ := ih (c.older best k) h
      obtain ⟨hb, hk⟩ := c.older_none hk
      exact ⟨hb, List.forall_mem_cons.2 ⟨hk, hks⟩⟩
  exact (main _ none h).2 i (List.mem_finRange i)

end RegisterCache

/-- Some entry is not in use. -/
def Spare (c : RegisterCache T) : Prop := ∃ i, ¬(c.entries i).isLive

/-- What `find_register` returns: the entry that holds the register, or one that may be
given away, which is not in use if there is such an entry. -/
def Found (c : RegisterCache T) (r : ℕ) (i : Fin T.numFree) : Prop :=
  ((c.entries i).isLive ∧ (c.entries i).mipsRegister = r) ∨
    ((∀ j, (c.entries j).isLive → (c.entries j).mipsRegister ≠ r) ∧ (c.entries i).numLocks = 0 ∧
      (Spare c → ¬(c.entries i).isLive))

/-- An entry is found while fewer registers are locked than there are entries: the one
that holds the register, or one that can be given away. -/
theorem findRegister_spec {c : RegisterCache T} {ks : List ℕ} (hL : Locked c ks)
    (hD : ∀ i j, (c.entries i).isLive → (c.entries j).isLive →
      (c.entries i).mipsRegister = (c.entries j).mipsRegister → i = j)
    (hk : ks.length < T.numFree) (r : ℕ) :
    ∃ i, c.findRegister r = some i ∧ Found c r i := by
  rw [RegisterCache.findRegister]
  cases hl : c.findLive r with
  | some i => exact ⟨i, rfl, .inl (c.findLive_some hl)⟩
  | none =>
    have hnone := c.findLive_none hl
    cases hf : c.findFree with
    | some i =>
      have hi := c.findFree_some hf
      exact ⟨i, rfl, .inr ⟨hnone, by rw [hL.count, if_neg hi], fun _ => hi⟩⟩
    | none =>
      have hlive := c.findFree_none hf
      cases ho : c.findOldest with
      | some i =>
          exact ⟨i, rfl, .inr ⟨hnone, (c.findOldest_some ho).2, fun ⟨j, hj⟩ => absurd (hlive j) hj⟩⟩
      | none =>
        -- all entries are live and locked, hence as many different registers are
        exfalso
        have hmem (i : Fin T.numFree) : (c.entries i).mipsRegister ∈ ks.toFinset := by
          have hi := c.findOldest_none ho i
          rw [RegisterCache.Unlocked, hL.count i, if_pos (hlive i)] at hi
          rw [List.mem_toFinset, ← List.count_pos_iff]
          exact Nat.pos_of_ne_zero fun h => hi ⟨hlive i, h⟩
        have hcard := Finset.card_le_card_of_injOn (s := Finset.univ)
          (fun i => (c.entries i).mipsRegister)
          (fun i _ => hmem i) (fun i _ j _ h => hD i j (hlive i) (hlive j) h)
        have hle := List.toFinset_card_le ks
        rw [Finset.card_univ, Fintype.card_fin] at hcard
        omega

/-! ### Registers written -/

namespace View

variable (v : View T) {r k : ℕ} (x : Word)

theorem put_of_lt (h : condBranchTaken < r) : v.put r x = v := by
  rw [put, if_neg (by omega), if_neg (by omega)]

theorem put_mem (hr : r ≤ condBranchTaken) : (v.put r x).mem r = x := by
  rw [put]
  split
  · rename_i h
    rw [mem, if_pos h]
  · rename_i h
    rw [if_pos (by omega), mem, if_neg h]
    exact Function.update_self _ _ _

theorem put_mem_of_ne (h : k ≠ r) : (v.put r x).mem k = v.mem k := by
  rw [put]
  split
  · rename_i hr
    rw [mem, mem, if_neg (by omega), if_neg (by omega)]
  · split
    · rw [mem, mem]
      refine if_congr Iff.rfl rfl ?_
      exact Function.update_of_ne h _ _
    · rfl

theorem put_reg (hr : r ≤ condBranchTaken) (h0 : r ≠ 0) : (v.put r x).reg r = x := by
  rw [reg, if_neg h0, put_mem v x hr]

theorem put_reg_of_ne (h : k ≠ r) : (v.put r x).reg k = v.reg k := by
  rw [reg, reg, put_mem_of_ne v x h]

@[simp] theorem put_control : (v.put r x).control = v.control := by
  rw [put]
  split
  · rfl
  · split <;> rfl

theorem put_withSr (sr : ℕ → Word) : (v.put r x).arch.withSr sr = v.arch.withSr sr := by
  rw [put]
  split
  · rfl
  · split <;> rfl

end View

/-! ### The invariant under changes of one entry -/

/-- A statement about all entries after one has been replaced. -/
theorem RegisterCache.forall_set {c : RegisterCache T} {i : Fin T.numFree} {e : CacheEntry}
    {P : Fin T.numFree → CacheEntry → Prop} (hi : P i e) (h : ∀ j, j ≠ i → P j (c.entries j)) :
    ∀ j, P j ((c.set i e).entries j) := by
  intro j
  by_cases hj : j = i
  · rw [hj, c.set_entries_self]
    exact hi
  · rw [c.set_entries_of_ne i e hj]
    exact h j hj

section Entry

variable {c : RegisterCache T} {h : Host T} {v : View T}
  {i : Fin T.numFree} {e : CacheEntry} {r : ℕ}

theorem Rep.distinct_set (hR : Rep c h v)
    (hj : ∀ j, j ≠ i → (c.entries j).isLive → e.isLive →
      (c.entries j).mipsRegister ≠ e.mipsRegister) :
    ∀ j k, ((c.set i e).entries j).isLive → ((c.set i e).entries k).isLive →
      ((c.set i e).entries j).mipsRegister = ((c.set i e).entries k).mipsRegister → j = k := by
  intro j k hjl hkl hjk
  by_cases hji : j = i
  · by_cases hki : k = i
    · rw [hji, hki]
    · rw [hji, c.set_entries_self] at hjl hjk
      rw [c.set_entries_of_ne i e hki] at hkl hjk
      exact absurd hjk.symm (hj k hki hkl hjl)
  · rw [c.set_entries_of_ne i e hji] at hjl hjk
    by_cases hki : k = i
    · rw [hki, c.set_entries_self] at hkl hjk
      exact absurd hjk (hj j hji hjl hkl)
    · rw [c.set_entries_of_ne i e hki] at hkl hjk
      exact hR.distinct j k hjl hkl hjk

/-- An entry depends on its own host register only. -/
theorem EntryOk.of_ne {d d' : HReg} {x : BitVec T.wordSize} (hE : EntryOk h v d e) (hd : d ≠ d') :
    EntryOk (h.set d' x) v d e where
  zero h0 := by rw [h.set_regs_of_ne x hd]; exact hE.zero h0
  value hr := by rw [h.set_regs_of_ne x hd, hE.value hr]
  sign hr := by rw [h.set_regs_of_ne x hd]; exact hE.sign hr
  cond hr := by rw [h.set_regs_of_ne x hd]; exact hE.cond hr

/-- An entry depends on its own register only. -/
theorem EntryOk.put_of_ne {d : HReg} {x : Word} (hE : EntryOk h v d e) (hr : e.mipsRegister ≠ r) :
    EntryOk h (v.put r x) d e where
  zero := hE.zero
  value h32 := by rw [v.put_reg_of_ne x hr, hE.value h32]
  sign := hE.sign
  cond := hE.cond

/-- Only what the cache says of registers counts. -/
theorem Rep.congr {c' : RegisterCache T} (hR : Rep c h v)
    (hl : ∀ i, (c'.entries i).isLive = (c.entries i).isLive)
    (hr : ∀ i, (c'.entries i).mipsRegister = (c.entries i).mipsRegister)
    (hs : ∀ i, (c'.entries i).sign = (c.entries i).sign)
    (hm : ∀ i, (c'.entries i).modified = (c.entries i).modified) : Rep c' h v where
  distinct i j := by
    rw [hl, hl, hr, hr]
    exact hR.distinct i j
  entry i hli := by
    rw [hl] at hli
    obtain ⟨hz, hv, hsi, hc⟩ := hR.entry i hli
    exact ⟨by rwa [hr, hm], by rwa [hr], by rwa [hr, hs], by rwa [hr]⟩
  memory r h32 hno := by
    refine hR.memory r h32 fun i => ?_
    have hi := hno i
    rwa [CacheEntry.Owes, hl, hr, hm] at hi
  rest := hR.rest
  control := hR.control

/-- What memory does not have after an entry has been replaced. -/
theorem Rep.memory_set (hR : Rep c h v) (hr : r ≤ condBranchTaken)
    (hi : (c.entries i).Owes r → e.Owes r) (hno : ∀ j, ¬((c.set i e).entries j).Owes r) :
    h.st.sr r = v.mem r := by
  refine hR.memory r hr fun j hj => ?_
  by_cases hji : j = i
  · subst hji
    refine hno j ?_
    rw [c.set_entries_self]
    exact hi hj
  · refine hno j ?_
    rwa [c.set_entries_of_ne i e hji]

/-- An entry is given up that is in memory. -/
theorem Rep.kill (hR : Rep c h v) (he : ¬e.isLive)
    (hi : ∀ r ≤ condBranchTaken, ¬(c.entries i).Owes r) : Rep (c.set i e) h v where
  distinct := hR.distinct_set fun _ _ _ hl => absurd hl he
  entry := RegisterCache.forall_set (P := fun j e => e.isLive → EntryOk h v (home j) e)
    (fun hl => absurd hl he) fun j _ => hR.entry j
  memory r hr := hR.memory_set hr fun ho => absurd ho (hi r hr)
  rest := hR.rest
  control := hR.control

/-- A register is taken up from memory. -/
theorem Rep.fill (hR : Rep c h v)
    (hnone : ∀ j, (c.entries j).isLive → (c.entries j).mipsRegister ≠ e.mipsRegister)
    (hi : ∀ r ≤ condBranchTaken, ¬(c.entries i).Owes r) {x : BitVec T.wordSize}
    (he : EntryOk (h.set (home i) x) v (home i) e) : Rep (c.set i e) (h.set (home i) x) v where
  distinct := hR.distinct_set fun j _ hjl _ => hnone j hjl
  entry := RegisterCache.forall_set (P := fun j e => e.isLive →
    EntryOk (h.set (home i) x) v (home j) e)
    (fun _ => he) fun j hj hjl => (hR.entry j hjl).of_ne (home_injective.ne hj)
  memory r hr := hR.memory_set hr fun ho => absurd ho (hi r hr)
  rest := hR.rest
  control := by rw [h.control_set x (home_ne_indirectPc i), hR.control]

/-- A register is written in the cache. -/
theorem Rep.modify (hR : Rep c h v) (hl : e.isLive) (hm : e.modified) (h0 : e.mipsRegister ≠ 0)
    (hnone : ∀ j, j ≠ i → (c.entries j).isLive → (c.entries j).mipsRegister ≠ e.mipsRegister)
    (hi : ∀ r ≤ condBranchTaken, (c.entries i).Owes r → r = e.mipsRegister) {x : BitVec T.wordSize}
    (hs : HasSign e.sign x) (hc : e.mipsRegister = condBranchTaken → HasSign .sExt x) :
    Rep (c.set i e) (h.set (home i) x) (v.put e.mipsRegister (low x)) where
  distinct := hR.distinct_set fun j hj hjl _ => hnone j hj hjl
  entry := by
    refine RegisterCache.forall_set
      (P := fun j e' => e'.isLive →
        EntryOk (h.set (home i) x) (v.put e.mipsRegister (low x)) (home j) e') ?_ ?_
    · refine fun _ => ⟨fun hz => absurd hz h0, fun hr => ?_, fun _ => ?_, fun hr => ?_⟩
      · rw [h.set_regs_self, v.put_reg _ hr h0]
      · rwa [h.set_regs_self]
      · rw [h.set_regs_self]
        exact hc hr
    · intro j hj hjl
      exact ((hR.entry j hjl).of_ne (home_injective.ne hj)).put_of_ne (hnone j hj hjl)
  memory r hr hno := by
    have hre : r ≠ e.mipsRegister := by
      rintro rfl
      refine hno i ?_
      rw [c.set_entries_self]
      exact ⟨hl, rfl, hm⟩
    rw [v.put_mem_of_ne _ hre]
    exact hR.memory_set hr (fun ho => absurd (hi r hr ho) hre) hno
  rest := by
    rw [v.put_withSr]
    exact hR.rest
  control := by rw [h.control_set x (home_ne_indirectPc i), hR.control, v.put_control]

/-- A cached register is extended in its host register. -/
theorem Rep.extend (hR : Rep c h v) {s : SignState} {x : BitVec T.wordSize}
    (h0 : (c.entries i).mipsRegister ≠ 0) (hx : low x = low (h.regs (home i))) (hs : HasSign s x)
    (hc : (c.entries i).mipsRegister = condBranchTaken → HasSign .sExt x) :
    Rep (c.set i { c.entries i with sign := s }) (h.set (home i) x) v where
  distinct := hR.distinct_set fun j hj hjl hil hji => hj (hR.distinct j i hjl hil hji)
  entry := by
    refine RegisterCache.forall_set (P := fun j e => e.isLive →
      EntryOk (h.set (home i) x) v (home j) e) ?_ ?_
    · intro hl
      have hE := hR.entry i hl
      refine ⟨fun hz => absurd hz h0, fun hr => ?_, fun _ => ?_, fun hr => ?_⟩
      · rw [h.set_regs_self, hx]
        exact hE.value hr
      · rwa [h.set_regs_self]
      · rw [h.set_regs_self]
        exact hc hr
    · intro j hj hjl
      exact (hR.entry j hjl).of_ne (home_injective.ne hj)
  memory r hr := hR.memory_set hr id
  rest := hR.rest
  control := by rw [h.control_set x (home_ne_indirectPc i), hR.control]

/-- The sign state of an entry is set to what it is. -/
theorem Rep.setSign (hR : Rep c h v) {s : SignState} (hs : HasSign s (h.regs (home i))) :
    Rep (c.set i { c.entries i with sign := s }) h v where
  distinct := hR.distinct_set fun j hj hjl hil hji => hj (hR.distinct j i hjl hil hji)
  entry := by
    refine RegisterCache.forall_set (P := fun j e => e.isLive →
      EntryOk h v (home j) e) ?_ fun j _ => hR.entry j
    intro hl
    have hE := hR.entry i hl
    exact ⟨hE.zero, hE.value, fun _ => hs, hE.cond⟩
  memory r hr := hR.memory_set hr id
  rest := hR.rest
  control := hR.control

theorem Rep.touch (hR : Rep c h v) : Rep (c.touch i) h v := by
  have hj (j : Fin T.numFree) :
      ∃ t n, (c.touch i).entries j = { c.entries j with timestamp := t, numLocks := n } := by
    by_cases hj : j = i
    · subst hj
      exact ⟨_, _, c.touch_entries_self j⟩
    · exact ⟨_, _, c.touch_entries_of_ne i hj⟩
  refine hR.congr ?_ ?_ ?_ ?_
  all_goals
    intro j
    obtain ⟨t, n, hj⟩ := hj j
    rw [hj]

/-- An entry is locked once more, or taken up and locked. -/
theorem Locked.take {c' : RegisterCache T} {ks : List ℕ} (hL : Locked c ks) (hR : Rep c h v)
    (hi : Found c r i) (hne : ∀ j, j ≠ i → c'.entries j = c.entries j) (hl : (c'.entries i).isLive)
    (hr : (c'.entries i).mipsRegister = r)
    (hn : (c'.entries i).numLocks = (c.entries i).numLocks + 1) :
    Locked c' (ks ++ [r]) := by
  have hother (j : Fin T.numFree) (hj : j ≠ i) (hjl : (c.entries j).isLive) :
      (c.entries j).mipsRegister ≠ r := by
    rcases hi with ⟨hil, hir⟩ | ⟨hnone, -, -⟩
    · exact fun hjr => hj (hR.distinct j i hjl hil (hjr.trans hir.symm))
    · exact hnone j hjl
  constructor
  · intro j
    by_cases hj : j = i
    · subst hj
      rw [if_pos hl, hn, hr, List.count_append, List.count_singleton_self]
      rcases hi with ⟨hil, hir⟩ | ⟨hnone, h0, -⟩
      · rw [hL.count, if_pos hil, hir]
      · rw [h0, List.count_eq_zero_of_not_mem fun hmem => ?_]
        obtain ⟨k, hkl, hkr⟩ := hL.held r hmem
        exact hnone k hkl hkr
    · rw [hne j hj, hL.count]
      split
      · rename_i hjl
        rw [List.count_append, List.count_singleton, beq_eq_false_iff_ne.2 (hother j hj hjl).symm]
        rfl
      · rfl
  · intro k hk
    rcases List.mem_append.1 hk with hk | hk
    · obtain ⟨j, hjl, hjk⟩ := hL.held k hk
      by_cases hj : j = i
      · subst hj
        rcases hi with ⟨-, hir⟩ | ⟨-, h0, -⟩
        · exact ⟨j, hl, by rw [hr, ← hir, hjk]⟩
        · rw [hL.count, if_pos hjl, hjk] at h0
          exact absurd hk (List.count_eq_zero.1 h0)
      · exact ⟨j, by rwa [hne j hj], by rwa [hne j hj]⟩
    · exact ⟨i, hl, by rw [hr, List.mem_singleton.1 hk]⟩

end Entry

end ParallelRsp.Jit
