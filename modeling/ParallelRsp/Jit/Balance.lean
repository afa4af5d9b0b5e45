import ParallelRsp.Jit.Ledger

/-!
# The register cache never runs out and stays balanced

Every emission is tidy whatever the ledger it starts from, and reads no host register but its own
(`Plan.Sealed`), so the emissions of a region can be put one after another. This gives for any
region what `registerCache_balanced` says of the compiler at every call: no assertion of the
register cache fails, nothing is locked between two emissions, and host registers still to be read
are distinct.
-/

namespace ParallelRsp.Jit

open Codegen

variable {T : Target}

/-! ### Plans put together -/

namespace Plan

/-- A plan in order by itself, which reads no host register handed out before it. -/
structure Sealed (xs : Plan T) : Prop where
  /-- In order whenever nothing is locked. -/
  tidy : ∀ L : Ledger, L.held = [] → Tidy L xs
  /-- Host registers handed out before it have a number that it does not read. -/
  closed : ∀ i, ¬xs.Reads i

variable {xs ys : Plan T} {i j : ℕ}

theorem reads_append (hy : ∀ i, ¬ys.Reads i) : (xs ++ ys).Reads i ↔ xs.Reads i := by
  induction xs generalizing i with
  | nil => exact iff_of_false (hy i) id
  | cons x xs ih => exact or_congr_right ih

theorem stillRead_append (xs : Plan T) (hy : ∀ i, ¬ys.Reads i) :
    (xs ++ ys).StillRead i ↔ xs.StillRead i := by
  induction xs generalizing i with
  | nil => exact iff_of_false (fun h => hy i h.reads) id
  | cons x xs ih => cases x <;> simp only [List.cons_append, StillRead, ih]

theorem bothRead_append (hy : ∀ i, ¬ys.Reads i) (h : (xs ++ ys).BothRead i j) :
    xs.BothRead i j := by
  induction xs generalizing i j with
  | nil => exact hy i h.reads
  | cons x xs ih =>
    cases x with
    | code k =>
      refine h.imp (fun hk => ?_) ih
      change Jit.BothRead (k name) (fun d => ∃ j, name j = d ∧ StillRead (xs ++ ys) j) _ _ at hk
      simpa only [stillRead_append xs hy] using hk
    | _ => exact h.imp (And.imp (stillRead_append xs hy).1 (stillRead_append xs hy).1) ih

end Plan

namespace Ledger

variable {L : Ledger} {r : ℕ} {xs ys : Plan T}

theorem Admits.append (hA : L.Admits r xs) (hy : ∀ i, ¬ys.Reads i) : L.Admits r (xs ++ ys) where
  held := hA.held
  apart h0 i hi := by
    obtain ⟨a, ha, hc, hk, hold⟩ :=
      hA.apart ((Plan.reads_append hy).1 h0) i ((Plan.reads_append hy).1 hi)
    exact ⟨a, ha, hc, hk, fun hr => (hold hr).imp_right (mt (Plan.bothRead_append hy))⟩

/-- The host register with this number holds this register. -/
def Cached (L : Ledger) (i r : ℕ) : Prop :=
  ∃ a, L.hands[i]? = some a ∧ a.cached ∧ a.version.register = r

theorem cached_self (L : Ledger) (r : ℕ) : (L.handOut r).Cached 0 r := ⟨_, rfl, rfl, rfl⟩

theorem Cached.write {i k : ℕ} (h : L.Cached i k) (r : ℕ) : (L.write r).Cached i k := h

theorem Cached.handOut {i k : ℕ} (h : L.Cached i k) (hk : L.Keeps k) (r : ℕ) :
    (L.handOut r).Cached (i + 1) k := by
  obtain ⟨a, ha, hc, rfl⟩ := h
  refine ⟨L.take a, ?_, ?_, rfl⟩
  · rw [Ledger.handOut, List.getElem?_cons_succ, List.getElem?_map, ha]
    rfl
  · rw [take, hc, decide_eq_true hk]
    rfl

/-- All other host registers read are in the cache to stay, and those of the register itself are
not read any more when this one is. -/
theorem admits_of_cached (hk : L.held.length < 3) (h : ∀ i, xs.Reads (i + 1) →
    ∃ k, L.Cached i k ∧ L.Keeps k ∧ (k = r → ¬xs.BothRead 0 (i + 1))) : L.Admits r xs where
  held := hk
  apart _ i hi := by
    obtain ⟨k, ⟨a, ha, hc, rfl⟩, hkeeps, hapart⟩ := h i hi
    exact ⟨a, ha, hc, hkeeps, fun hr => .inr (hapart hr)⟩

end Ledger

theorem Tidy.append {L : Ledger} {xs ys : Plan T} (hx : Tidy L xs) (hy : ys.Sealed) :
    Tidy L (xs ++ ys) := by
  induction hx with
  | nil hk => exact hy.tidy _ hk
  | load hr hext hA _ ih => exact .load hr hext (hA.append hy.closed) ih
  | modify h0 hA _ ih => exact .modify h0 (hA.append hy.closed) ih
  | immediate h0 hk _ ih => exact .immediate h0 hk ih
  | unlock hp _ ih => exact .unlock hp ih
  | flushWindow hk _ ih => exact .flushWindow hk ih
  | flushCallerSave hk _ ih => exact .flushCallerSave hk ih
  | flushMips hk _ ih => exact .flushMips hk ih
  | reset hk _ ih => exact .reset hk ih
  | code _ ih => exact .code ih

namespace Plan.Sealed

variable {xs ys : Plan T}

theorem nil : Sealed ([] : Plan T) := ⟨fun _ hk => .nil hk, fun _ => id⟩

theorem append (hx : xs.Sealed) (hy : ys.Sealed) : (xs ++ ys).Sealed :=
  ⟨fun L hk => (hx.tidy L hk).append hy, fun i h => hx.closed i ((reads_append hy.closed).1 h)⟩

theorem ite {p : Prop} [Decidable p] (hx : p → xs.Sealed) (hy : ¬p → ys.Sealed) :
    Sealed (if p then xs else ys) := by
  split
  · rename_i hp
    exact hx hp
  · rename_i hp
    exact hy hp

theorem when {p : Prop} [Decidable p] (hx : p → xs.Sealed) : Sealed (if p then xs else []) :=
  ite hx fun _ => nil

theorem flatten {es : List (Plan T)} (h : ∀ e ∈ es, e.Sealed) : Sealed es.flatten := by
  induction es with
  | nil => exact nil
  | cons e es ih =>
    obtain ⟨he, hes⟩ := List.forall_mem_cons.1 h
    exact he.append (ih hes)

/-- A plan is in order from every ledger without locks. -/
theorem of_unlocked (h : ∀ hands writes room, Tidy ⟨hands, writes, [], room⟩ xs)
    (hx : ∀ i, ¬xs.Reads i) : xs.Sealed := by
  refine ⟨?_, hx⟩
  rintro ⟨hands, writes, _, room⟩ rfl
  exact h hands writes room

end Plan.Sealed

namespace Tidy

variable {L : Ledger} {xs : Plan T}

/-- The first register loaded. -/
theorem loadFirst {ext : Extension} {r : ℕ} (hr : r ≤ condBranchTaken)
    (hext : r = condBranchTaken → ext ≠ .zext) (hk : L.held = []) (hx : ∀ i, ¬xs.Reads (i + 1))
    (h : Tidy (L.handOut r) xs) : Tidy L (.load ext r :: xs) := by
  refine .load hr hext ⟨?_, fun _ i hi => absurd hi (hx i)⟩ h
  rw [hk]
  exact Nat.zero_lt_succ _

theorem loadRegister {ext : Extension} (r : Fin 32) (hk : L.held = [])
    (hx : ∀ i, ¬xs.Reads (i + 1)) (h : Tidy (L.handOut r) xs) : Tidy L (.load ext r :: xs) :=
  .loadFirst r.isLt.le (fun hr => absurd hr r.isLt.ne) hk hx h

theorem loadCondition (hk : L.held = []) (hx : ∀ i, ¬xs.Reads (i + 1))
    (h : Tidy (L.handOut condBranchTaken) xs) : Tidy L (.load .noext condBranchTaken :: xs) :=
  .loadFirst le_rfl (fun _ => by decide) hk hx h

/-- A register written whose host register is not read. -/
theorem modifyUnread {r : ℕ} (h0 : r ≠ 0) (hk : L.held.length < 3) (hx : ¬xs.Reads 0)
    (h : Tidy ((L.write r).handOut r) xs) : Tidy L (.modify r :: xs) :=
  .modify h0 ⟨hk, fun h => absurd h hx⟩ h

/-- Two registers of the instruction loaded, which may be the same, and a third one written. Where
that is one of the two, the new value and the old one are not read at the same time. -/
theorem threeRegisters {ext ext' : Extension} {r s : Fin 32} {k : ℕ} (hk : L.held = []) (h0 : k ≠ 0)
    (hx : ∀ i, ¬xs.Reads (i + 3)) (hr : r = k → ¬xs.BothRead 0 2) (hs : s = k → ¬xs.BothRead 0 1)
    (h : Tidy ((((L.handOut r).handOut s).write k).handOut k) xs) :
    Tidy L (.load ext r :: .load ext' s :: .modify k :: xs) := by
  refine .loadRegister r hk (fun i hi => hx i ((hi.resolve_left id).resolve_left id)) ?_
  refine .load s.isLt.le (fun hs => absurd hs s.isLt.ne) ⟨by simp [hk], fun _ i hi => ?_⟩ ?_
  · cases i with
    | zero =>
      refine ⟨_, rfl, rfl, .inl (by simp), fun hrs => .inl ?_⟩
      exact congrArg (fun k => (⟨k, L.writes k⟩ : Version)) hrs
    | succ i => exact absurd (hi.resolve_left id) (hx i)
  refine .modify h0 (Ledger.admits_of_cached (by simp [hk]) fun i hi => ?_) h
  match i with
  | 0 => exact ⟨s, Ledger.cached_self _ _, .inl (by simp), hs⟩
  | 1 => exact ⟨r, (Ledger.cached_self _ _).handOut (.inl (by simp)) _, .inl (by simp), hr⟩
  | i + 2 => exact absurd hi (hx i)

end Tidy

theorem register_ne_scratch (r : Fin 32) : (r : ℕ) ≠ scratchRegister0 :=
  Nat.ne_of_lt (r.isLt.trans (by decide))

/-! ### What the code between two calls reads -/

section Reads

variable {d : HReg} {last info : InstructionInfo} {i j k : ℕ}

@[simp] theorem mem_readsOf_flipped {flip : ℕ} {t : HReg} {access : Op T} :
    d ∈ readsOf (flipped flip t access) ↔ flip ≠ 0 ∧ d = t ∨ d ∈ access.reads := by
  rw [flipped]
  split
  · rename_i hf
    simp [hf]
  · rename_i hf
    simp [hf]

@[simp] theorem not_mem_readsOf_loadTarget : name i ∉ readsOf (loadTarget (T := T) d info) := by
  rw [loadTarget]
  split
  · exact fun h => name_ne_indirectPc (List.mem_singleton.1 h)
  · exact List.not_mem_nil

@[simp] theorem not_mem_readsOf_jitExitDynamic {pc : Word} {first : Bool} :
    name i ∉ readsOf (jitExitDynamic (T := T) pc last first) := by
  rw [jitExitDynamic]
  split
  · simp [Code.block]
  · split
    · simp [Code.block]
    · split <;> simp [Code.block]

theorem mem_readsOf_takeIllegalBranch
    (h : name i ∈ readsOf (takeIllegalBranch (T := T) info last (name j))) : i = j := by
  rw [takeIllegalBranch] at h
  split_ifs at h <;> simpa [Code.block] using h

theorem mem_readsOf_handOver {cond : HReg}
    (h : name i ∈ readsOf (handOver (T := T) last cond (name k))) : name i = cond ∨ i = k := by
  simp only [handOver] at h
  split_ifs at h
  · simpa [Code.block] using h
  · exact .inr (by simpa [Code.block] using h)
  · exact absurd h List.not_mem_nil

end Reads

/-! ### Instructions -/

namespace Plan.Sealed

/-- A constant written to a register. -/
theorem constant {k : ℕ} {x : BitVec T.wordSize} (h0 : k ≠ 0) :
    Sealed [.immediate k x, .unlock k] :=
  .of_unlocked (fun _ _ _ => .immediate h0 (by simp) (.unlock (.refl _) (.nil rfl))) (by simp)

/-- A register written from one other. -/
theorem oneOperand {ext : Extension} {o : BinOp} {r : Fin 32} {k : ℕ} {x : BitVec T.wordSize}
    (h0 : k ≠ 0) :
    Sealed [.load ext r, .modify k, .code fun h => .op (.bini o (h 0) (h 1) x), .unlock r,
      .unlock k] := by
  refine .of_unlocked (fun _ _ _ => ?_) (by simp)
  refine .loadRegister r rfl (by simp) (.modifyUnread h0 (by simp) (by simp) ?_)
  exact .code (.unlock (.refl _) (.unlock (.refl _) (.nil rfl)))

/-- A register written from two others. -/
theorem twoOperands {ext : Extension} {o : BinOp} {r s : Fin 32} {k : ℕ} (h0 : k ≠ 0) :
    Sealed (T := T) ([.load ext r, .load ext s, .modify k,
      .code fun h => .op (.binr o (h 0) (h 2) (h 1))] ++ unlockThree r s k) := by
  refine .of_unlocked (fun _ _ _ => ?_) (by simp [unlockThree])
  refine .threeRegisters rfl h0 (by simp [unlockThree])
    (fun _ => mt BothRead.reads (by simp [unlockThree]))
    (fun _ => mt BothRead.reads (by simp [unlockThree])) ?_
  exact .code (.unlock (.refl _) (.unlock (.refl _) (.unlock (.refl _) (.nil rfl))))

theorem jitSaveIndirectRegister (r : Fin 32) :
    (Plan.jitSaveIndirectRegister (T := T) r).Sealed := by
  refine .of_unlocked (fun _ _ _ => ?_) (by simp [Plan.jitSaveIndirectRegister])
  exact .loadRegister r rfl (by simp) (.code (.unlock (.refl _) (.nil rfl)))

theorem jitSaveIllegalCondBranchTaken : (Plan.jitSaveIllegalCondBranchTaken (T := T)).Sealed := by
  refine .of_unlocked (fun _ _ _ => ?_) (by simp [Plan.jitSaveIllegalCondBranchTaken])
  exact .loadCondition rfl (by simp) (.code (.unlock (.refl _) (.nil rfl)))

theorem flushImpossibleDelaySlot (last : InstructionInfo) :
    (Plan.flushImpossibleDelaySlot (T := T) last).Sealed := by
  refine (when fun _ => jitSaveIllegalCondBranchTaken).append (when fun _ => ⟨fun L hk => ?_, ?_⟩)
  · exact .code (.nil hk)
  · simp

theorem jitExit (pc : Word) (last : InstructionInfo) (mode : ReturnMode) (first : Bool) :
    (Plan.jitExit (T := T) pc last mode first).Sealed :=
  ⟨fun _ hk => .flushWindow hk (.code (.code (.nil hk))), by simp [Plan.jitExit]⟩

theorem jitEmitStoreOperation (op : StoreOp) (rt rs : Fin 32) (x : BitVec 16) :
    (Plan.jitEmitStoreOperation (T := T) op rt rs x).Sealed := by
  rw [Plan.jitEmitStoreOperation]
  split
  · refine .of_unlocked (fun _ _ _ => ?_) (by simp [unlockThree, Code.block])
    refine .threeRegisters rfl (by decide) (by simp [unlockThree, Code.block])
      (fun h => absurd h (register_ne_scratch _)) (fun h => absurd h (register_ne_scratch _)) ?_
    exact .code (.code (.unlock (.refl _) (.unlock (.refl _) (.unlock (.refl _)
      (.flushCallerSave rfl (.code (.nil rfl)))))))
  · refine .of_unlocked (fun _ _ _ => ?_) (by simp [unlockThree])
    refine .threeRegisters rfl (by decide) (by simp [unlockThree])
      (fun h => absurd h (register_ne_scratch _)) (fun h => absurd h (register_ne_scratch _)) ?_
    exact .code (.code (.code (.unlock (.refl _) (.unlock (.refl _) (.unlock (.refl _)
      (.nil rfl))))))

theorem reads_emitLoadAccess {op : LoadOp} {rs : Fin 32} {ys : Plan T} {i : ℕ}
    (h : Reads (Plan.emitLoadAccess op rs ++ ys) i) : i = 1 ∨ ys.Reads i := by
  rw [emitLoadAccess] at h
  split at h
  · have h : i = 1 ∨ LoadOp.endianFlip op ≠ 0 ∧ i = 1 ∨ i = 1 ∨ ys.Reads i := by
      simpa [unlockThree, Code.block, or_assoc] using h
    rcases h with h | ⟨-, h⟩ | h | h
    · exact .inl h
    · exact .inl h
    · exact .inl h
    · exact .inr h
  · have h : LoadOp.endianFlip op ≠ 0 ∧ i = 1 ∨ i = 1 ∨ ys.Reads i := by
      simpa [unlockThree, or_assoc] using h
    rcases h with ⟨-, h⟩ | h | h
    · exact .inl h
    · exact .inl h
    · exact .inr h

theorem tidy_emitLoadAccess {op : LoadOp} {rs : Fin 32} {ys : Plan T} {hands : List Hand}
    {writes : ℕ → ℕ} {room : Room} (h : ∀ hands room, Tidy ⟨hands, writes, [], room⟩ ys) :
    Tidy ⟨hands, writes, [↑rs, scratchRegister0, scratchRegister1], room⟩
      (Plan.emitLoadAccess op rs ++ ys) := by
  rw [emitLoadAccess]
  split
  · exact .unlock (.refl _) (.unlock (.refl _) (.unlock (.refl _)
      (.flushCallerSave rfl (.code (h _ _)))))
  · exact .code (.unlock (.refl _) (.unlock (.refl _) (.unlock (.refl _) (h _ _))))

theorem jitEmitLoadOperation (op : LoadOp) (rt rs : Fin 32) (x : BitVec 16) :
    (Plan.jitEmitLoadOperation (T := T) op rt rs x).Sealed := by
  refine .when fun ht => ?_
  rw [List.append_assoc]
  -- behind the address the result is written and the address read
  have hreads {i : ℕ} (hi : Reads (emitLoadAccess (T := T) op rs ++ [.modify rt,
      .code fun h => .op (.movr (h 0) (h 1)), .unlock rt]) i) : i < 2 := by
    rcases reads_emitLoadAccess hi with rfl | hi
    · decide
    · obtain rfl : i = 0 := by simpa using hi
      decide
  have hlast {hands : List Hand} {writes : ℕ → ℕ} {room : Room} :
      Tidy (T := T) ⟨hands, writes, [], room⟩ [.modify rt,
        .code fun h => .op (.movr (h 0) (h 1)), .unlock rt] := by
    refine .modifyUnread (Fin.val_ne_zero_iff.2 ht) (by simp) (by simp) (.code ?_)
    exact .unlock (.refl _) (.nil rfl)
  refine .of_unlocked (fun _ _ _ => .loadRegister rs rfl (fun i hi => ?_) ?_) fun i hi => ?_
  · have := hreads (i := i + 3) (by simpa using hi)
    omega
  · refine .modify (by decide) (Ledger.admits_of_cached (by simp) fun i hi => ?_) ?_
    · have hi : i = 0 ∨ Reads (T := T) (emitLoadAccess op rs ++ [.modify rt,
          .code fun h => .op (.movr (h 0) (h 1)), .unlock rt]) (i + 2) := by simpa using hi
      obtain rfl : i = 0 := by
        rcases hi with hi | hi
        · exact hi
        · have := hreads hi
          omega
      exact ⟨rs, Ledger.cached_self _ _, .inl (by simp),
        fun h => absurd h (register_ne_scratch rs)⟩
    refine .code (.code (.modify (by decide) (Ledger.admits_of_cached (by simp) fun i hi => ?_) ?_))
    · have := hreads hi
      obtain rfl : i = 0 := by omega
      exact ⟨scratchRegister0, Ledger.cached_self _ _, .inl (by simp),
        fun h => absurd h (by decide)⟩
    exact tidy_emitLoadAccess fun _ _ => hlast
  · have := hreads (i := i + 3) (by simpa using hi)
    omega

theorem emitShift (op : ShiftOp) (rd rt sa : Fin 32) :
    (Plan.emitShift (T := T) op rd rt sa).Sealed :=
  .when fun hd => oneOperand (Fin.val_ne_zero_iff.2 hd)

theorem emitShiftv (op : ShiftOp) (rd rt rs : Fin 32) :
    (Plan.emitShiftv (T := T) op rd rt rs).Sealed := by
  refine .when fun hd => .of_unlocked (fun _ _ _ => ?_) (by simp [unlockThree])
  refine .threeRegisters rfl (by decide) (by simp [unlockThree])
    (fun h => absurd h (register_ne_scratch _)) (fun h => absurd h (register_ne_scratch _)) ?_
  refine .code (.unlock (.swap _ _ _)
    (.modifyUnread (by simpa using hd) (by simp) (by simp [unlockThree]) ?_))
  exact .code (.unlock (.refl _) (.unlock (.swap _ _ _) (.unlock (.refl _) (.nil rfl))))

theorem threeRegOp (o : BinOp) (ext : Extension) (rd rs rt : Fin 32) :
    (Plan.threeRegOp (T := T) o ext rd rs rt).Sealed :=
  .when fun hd => twoOperands (Fin.val_ne_zero_iff.2 hd)

theorem emitNor (rd rs rt : Fin 32) : (Plan.emitNor (T := T) rd rs rt).Sealed := by
  refine .when fun hd => .of_unlocked (fun _ _ _ => ?_) (by simp [unlockThree])
  refine .threeRegisters rfl (by simpa using hd) (by simp [unlockThree])
    (fun _ => by simp [unlockThree]) (fun _ => by simp [unlockThree]) ?_
  exact .code (.code (.unlock (.refl _) (.unlock (.refl _) (.unlock (.refl _) (.nil rfl)))))

theorem emitAlu (op : AluOp) (rd rs rt : Fin 32) : (Plan.emitAlu (T := T) op rd rs rt).Sealed := by
  cases op with
  | nor => exact emitNor rd rs rt
  | _ => exact threeRegOp _ _ rd rs rt

theorem twoRegImmOp (o : BinOp) (x : BitVec T.wordSize) (ext : Extension) (rt rs : Fin 32) :
    (Plan.twoRegImmOp o x ext rt rs).Sealed :=
  .when fun ht => oneOperand (Fin.val_ne_zero_iff.2 ht)

theorem emitConstant (rt : Fin 32) (x : BitVec T.wordSize) : (Plan.emitConstant rt x).Sealed :=
  .when fun ht => constant (Fin.val_ne_zero_iff.2 ht)

theorem emitImm (op : ImmOp) (rt rs : Fin 32) (x : BitVec 16) :
    (Plan.emitImm (T := T) op rt rs x).Sealed := by
  cases op with
  | addi | ori => exact .ite (fun _ => emitConstant rt _) fun _ => twoRegImmOp _ _ _ rt rs
  | _ => exact twoRegImmOp _ _ _ rt rs

theorem emitZeroBranch (o : BinOp) (rs : Fin 32) : (Plan.emitZeroBranch (T := T) o rs).Sealed :=
  oneOperand (by decide)

theorem emitRegBranch (o : BinOp) (rs rt : Fin 32) :
    (Plan.emitRegBranch (T := T) o rs rt).Sealed :=
  twoOperands (by decide)

theorem emitJumpCondition (nextIsTarget : Bool) :
    (Plan.emitJumpCondition (T := T) nextIsTarget).Sealed :=
  constant (by decide)

theorem emitLink (r : Fin 32) (pc : Word) (h0 : r ≠ 0) : (Plan.emitLink (T := T) r pc).Sealed :=
  constant (Fin.val_ne_zero_iff.2 h0)

theorem emitCall (f : Callee) (r : Option (Fin 32)) : (Plan.emitCall (T := T) f r).Sealed := by
  cases r with
  | none => exact ⟨fun _ hk => .flushCallerSave hk (.code (.nil hk)), by simp [Plan.emitCall]⟩
  | some r =>
    exact ⟨fun _ hk => .flushCallerSave hk (.flushMips hk (.code (.nil hk))),
      by simp [Plan.emitCall]⟩

theorem emitCop0 (f : Callee) (pc : Word) (last : InstructionInfo) (first : Bool) :
    (Plan.emitCop0 (T := T) f pc last first).Sealed :=
  ⟨fun _ hk => .flushWindow hk (.code (.code (.code (.nil hk)))), by simp [Plan.emitCop0]⟩

theorem jitInstruction (pc : Word) (i : Instr) (last : InstructionInfo)
    (first nextIsTarget : Bool) :
    (Plan.jitInstruction (T := T) pc i last first nextIsTarget).Sealed := by
  cases i with
  | vu op e vd vs vt => exact emitCall (.vu op e vd vs vt) none
  | shift op rd rt sa => exact emitShift op rd rt sa
  | shiftv op rd rt rs => exact emitShiftv op rd rt rs
  | alu op rd rs rt => exact emitAlu op rd rs rt
  | imm op rt rs x => exact emitImm op rt rs x
  | lui rt x => exact emitConstant rt _
  | jr rs =>
    exact (flushImpossibleDelaySlot last).append
      ((jitSaveIndirectRegister rs).append (emitJumpCondition nextIsTarget))
  | jalr rd rs =>
    exact (flushImpossibleDelaySlot last).append ((jitSaveIndirectRegister rs).append
      ((when fun hd => emitLink rd pc hd).append (emitJumpCondition nextIsTarget)))
  | j instr => exact (flushImpossibleDelaySlot last).append (emitJumpCondition nextIsTarget)
  | jal instr =>
    refine (flushImpossibleDelaySlot last).append ?_
    refine .of_unlocked (fun _ _ _ => ?_) (by simp)
    exact .immediate (by decide) (by simp) (.immediate (by decide) (by simp)
      (.unlock (.refl _) (.unlock (.refl _) (.nil rfl))))
  | regimm c link rs instr =>
    exact (flushImpossibleDelaySlot last).append ((emitZeroBranch _ rs).append
      (when fun _ => emitLink 31 pc (by decide)))
  | beq rs rt instr | bne rs rt instr =>
    exact (flushImpossibleDelaySlot last).append (emitRegBranch _ rs rt)
  | blez rs instr =>
    exact (flushImpossibleDelaySlot last).append (when fun _ => emitZeroBranch _ rs)
  | bgtz rs instr =>
    exact (flushImpossibleDelaySlot last).append (ite (fun _ => nil) fun _ => emitZeroBranch _ rs)
  | «break» => exact jitExit pc last .break first
  | mfc0 rt rd | mtc0 rt rd => exact emitCop0 _ pc last first
  | mfc2 rt rd e => exact emitCall (.mfc2 rt rd e) (some rt)
  | mtc2 rt rd e => exact emitCall (.mtc2 rt rd e) (some rt)
  | cfc2 rt rd => exact emitCall (.cfc2 rt rd) (some rt)
  | ctc2 rt rd => exact emitCall (.ctc2 rt rd) (some rt)
  | load op rt rs x => exact jitEmitLoadOperation op rt rs x
  | store op rt rs x => exact jitEmitStoreOperation op rt rs x
  | lwc2 op e rt rs offset => exact emitCall (.lwc2 op e rt rs offset) (some rs)
  | swc2 op e rt rs offset => exact emitCall (.swc2 op e rt rs offset) (some rs)
  | nop => exact nil

/-! ### Behind delay slots and between regions -/

theorem jitHandleDelaySlot (R : Region) (last : InstructionInfo) :
    (Plan.jitHandleDelaySlot (T := T) R last).Sealed := by
  rw [Plan.jitHandleDelaySlot]
  generalize R.localLabel last = target
  split
  · refine .of_unlocked (fun _ _ _ => ?_) (by cases target <;> simp [unlockThree, Code.block])
    refine .loadCondition rfl (by cases target <;> simp [unlockThree, Code.block]) ?_
    refine .modify (by decide) (Ledger.admits_of_cached (by simp)
      (by cases target <;> simp [unlockThree, Code.block])) ?_
    refine .modify (by decide) (Ledger.admits_of_cached (by simp) fun i hi => ?_) ?_
    · obtain rfl : i = 0 := by cases target <;> simpa [unlockThree, Code.block] using hi
      exact ⟨condBranchTaken, Ledger.cached_self _ _, .inl (by simp), fun h => absurd h (by decide)⟩
    exact .code (.code (.unlock (.refl _) (.unlock (.refl _) (.unlock (.refl _)
      (.flushWindow rfl (.code (.nil rfl)))))))
  · refine .of_unlocked (fun _ _ _ => ?_) (by cases target <;> simp [Code.block])
    refine .modifyUnread (by decide) (by simp) (by cases target <;> simp [Code.block]) ?_
    exact .code (.unlock (.refl _) (.flushWindow rfl (.code (.nil rfl))))

theorem jitHandleImpossibleDelaySlot (info last : InstructionInfo) :
    (Plan.jitHandleImpossibleDelaySlot (T := T) info last).Sealed := by
  rw [Plan.jitHandleImpossibleDelaySlot]
  generalize hcode : (fun h : ℕ → HReg => if last.conditional then _ else _) = code
  have hreads {i : ℕ} (hi : name i ∈ readsOf (code name)) : i < 3 := by
    subst hcode
    split at hi
    · have hi : i = 1 ∨ i = 0 ∨
          name i ∈ readsOf (takeIllegalBranch (T := T) info last (name 2)) := by
        simpa [Code.block] using hi
      rcases hi with rfl | rfl | hi
      · decide
      · decide
      · exact mem_readsOf_takeIllegalBranch hi ▸ by decide
    · have hi : i = 2 ∨ name i ∈ readsOf (takeIllegalBranch (T := T) info last (name 2)) := by
        simpa [Code.block] using hi
      rcases hi with rfl | hi
      · decide
      · exact mem_readsOf_takeIllegalBranch hi ▸ by decide
  refine .of_unlocked (fun _ _ _ => .loadCondition rfl (fun i hi => ?_) ?_) fun i hi => ?_
  · have := hreads (i := i + 3) (by simpa [unlockThree] using hi)
    omega
  · refine .modify (by decide) (Ledger.admits_of_cached (by simp) fun i hi => ?_) ?_
    · have := hreads (i := i + 2) (by simpa [unlockThree] using hi)
      obtain rfl : i = 0 := by omega
      exact ⟨condBranchTaken, Ledger.cached_self _ _, .inl (by simp), fun h => absurd h (by decide)⟩
    refine .modify (by decide) (Ledger.admits_of_cached (by simp) fun i hi => ?_) ?_
    · have := hreads (i := i + 1) (by simpa [unlockThree] using hi)
      obtain rfl | rfl : i = 0 ∨ i = 1 := by omega
      · exact ⟨scratchRegister0, Ledger.cached_self _ _, .inl (by simp),
          fun h => absurd h (by decide)⟩
      · exact ⟨condBranchTaken, ((Ledger.cached_self _ _).write _).handOut (.inl (by simp))
          scratchRegister0, .inl (by simp), fun h => absurd h (by decide)⟩
    exact .unlock (.refl _) (.unlock (.refl _) (.unlock (.refl _)
      (.flushWindow rfl (.code (.nil rfl)))))
  · have := hreads (i := i + 3) (by simpa [unlockThree] using hi)
    omega

/-- The cache is empty before `jit_end_of_block`, so the condition stays where it is. -/
theorem jitEndOfBlock (pc : Word) (last : InstructionInfo) :
    Sealed (.flushWindow :: Plan.jitEndOfBlock (T := T) pc last) := by
  rw [Plan.jitEndOfBlock, Plan.loadCondition]
  generalize hcode : (fun h : ℕ → HReg => Code.block _) = code
  split
  · rename_i hb
    have hreads {i : ℕ} (hi : name i ∈ readsOf (code name)) : i < 2 := by
      subst hcode
      have hi := mem_readsOf_handOver (by simpa [Code.block] using hi)
      rw [if_pos hb, name_inj] at hi
      omega
    refine .of_unlocked (fun _ _ _ => ?_) fun i hi => ?_
    · refine .flushWindow rfl (.loadCondition rfl (fun i hi => ?_) (.unlock (.refl _) ?_))
      · have := hreads (i := i + 2) (by simpa using hi)
        omega
      refine .modify (by decide) (Ledger.admits_of_cached (by simp) fun i hi => ?_) ?_
      · have := hreads (i := i + 1) (by simpa using hi)
        obtain rfl : i = 0 := by omega
        -- not locked any more, but the entry that is given away is a free one
        exact ⟨condBranchTaken, Ledger.cached_self _ _,
          .inr (show Room.spare ≠ .unknown by decide), fun h => absurd h (by decide)⟩
      exact .unlock (.refl _) (.flushWindow rfl (.code (.nil rfl)))
    · have := hreads (i := i + 2) (by simpa using hi)
      omega
  · rename_i hb
    have hreads {i : ℕ} (hi : name i ∈ readsOf (code name)) : i < 1 := by
      subst hcode
      have hi := mem_readsOf_handOver (by simpa [Code.block] using hi)
      rw [if_neg hb] at hi
      have := hi.resolve_left name_ne_R
      omega
    refine .of_unlocked (fun _ _ _ => ?_) fun i hi => ?_
    · refine .flushWindow rfl (.modify (by decide)
        (Ledger.admits_of_cached (by simp) fun i hi => ?_) ?_)
      · have := hreads (i := i + 1) (by simpa using hi)
        omega
      exact .unlock (.refl _) (.flushWindow rfl (.code (.nil rfl)))
    · have := hreads (i := i + 1) (by simpa using hi)
      omega

theorem jitCheckDelaySlot : (Plan.jitCheckDelaySlot (T := T)).Sealed := by
  refine .of_unlocked (fun _ _ _ => ?_) (by simp [Plan.jitCheckDelaySlot])
  refine .modify (by decide) (Ledger.admits_of_cached (by simp) (by simp)) ?_
  exact .code (.unlock (.refl _) (.flushWindow rfl (.code (.nil rfl))))

theorem jitHandleLatentDelaySlot (last : InstructionInfo) :
    (Plan.jitHandleLatentDelaySlot (T := T) last).Sealed := by
  rw [Plan.jitHandleLatentDelaySlot, Plan.loadCondition]
  split
  · rename_i hb
    simp only [if_pos hb.1, if_pos hb.2]
    refine .of_unlocked (fun _ _ _ => .loadCondition rfl (by simp [Code.block]) ?_)
      (by simp [Code.block])
    exact .unlock (.refl _) (.flushWindow rfl (.code (.nil rfl)))
  · rename_i hb
    refine ⟨fun _ hk => .flushWindow hk (.code (.nil hk)), ?_⟩
    by_cases hbranch : last.branch
    · have hcond : last.conditional = false := by simpa [hbranch] using hb
      simp [hbranch, hcond, Code.block]
    · simp [hbranch, Code.block]

theorem enterBlock (i : ℕ) : (Plan.enterBlock (T := T) i).Sealed :=
  ⟨fun _ hk => .flushWindow hk (.reset hk (.code (.nil hk))), by simp [Plan.enterBlock]⟩

theorem handleDelaySlot (R : Region) (i : ℕ) (info last : InstructionInfo) :
    (Plan.handleDelaySlot (T := T) R i info last).Sealed :=
  .ite (fun _ => jitCheckDelaySlot) fun _ =>
    .ite (fun _ => jitHandleImpossibleDelaySlot info last) fun _ =>
      .when fun _ => jitHandleDelaySlot R last

end Plan.Sealed

/-! ### Regions -/

namespace Region

variable (R : Region)

theorem sealed_roundEmissions (i : ℕ) : ∀ e ∈ R.roundEmissions (T := T) i, e.Sealed := by
  refine List.forall_mem_cons.2 ⟨.when fun _ => .enterBlock i, List.forall_mem_cons.2 ⟨?_,
    List.forall_mem_singleton.2 (.handleDelaySlot R i _ _)⟩⟩
  have htrace : Plan.Sealed (T := T) [.code fun _ => .op (.trace (R.pc i) (R.word i))] :=
    ⟨fun _ hk => .code (.nil hk), by simp⟩
  exact htrace.append (.jitInstruction _ _ _ _ _)

theorem sealed_finishEmissions (last : InstructionInfo) (first : Option InstructionInfo) :
    ∀ e ∈ R.finishEmissions (T := T) last first, e.Sealed := by
  refine List.forall_mem_cons.2 ⟨.jitEndOfBlock _ last, ?_⟩
  cases first with
  | none => simp
  | some info =>
    have hlabel : Plan.Sealed (T := T) [.code fun _ => .label .latent] :=
      ⟨fun _ hk => .code (.nil hk), by simp⟩
    exact List.forall_mem_singleton.2 (hlabel.append (.jitHandleLatentDelaySlot info))

theorem sealed_emissions : ∀ e ∈ R.emissions (T := T), e.Sealed := by
  refine List.forall_mem_cons.2 ⟨⟨fun _ hk => .reset hk (.nil hk), by simp⟩, fun e he => ?_⟩
  rcases List.mem_append.1 he with he | he
  · obtain ⟨i, -, he⟩ := List.mem_flatMap.1 he
    exact R.sealed_roundEmissions i e he
  · exact R.sealed_finishEmissions _ _ e he

end Region

/-! ### The compiler -/

/-- What is so at any point of an emission, of which the calls `pre` have been made and the calls
`post` are to come. The host registers handed out so far are `hs`, for the values `vs`. -/
structure Balanced (pre post : Plan T) (hs : List HReg) (vs : List Version)
    (c : RegisterCache T) : Prop where
  /-- The assertions of the next call hold. -/
  asserted : ∀ x xs, post = x :: xs → x.Asserted c
  /-- Before the emission and after it nothing is locked. -/
  unlocked : pre = [] ∨ post = [] → ∀ i, (c.entries i).numLocks = 0
  /-- What is read has been handed out. -/
  given : ∀ i, post.Reads i → ∃ d v, hs[i]? = some d ∧ vs[i]? = some v
  /-- Host registers whose contents are to be read at the same time are the same for the same value
  only. -/
  distinct : ∀ i j, post.BothRead i j → ∀ d e v w,
    hs[i]? = some d → hs[j]? = some e → vs[i]? = some v → vs[j]? = some w → (d = e ↔ v = w)

/-- Nothing is locked behind emissions in order. -/
theorem Plan.Sealed.unlocked {xs : Plan T} (hx : xs.Sealed) {hs : List HReg}
    {ks : List (HostCode T)} {c : RegisterCache T} (hrun : (xs.run []).flat {} = some (hs, ks, c))
    (i : Fin T.numFree) : (c.entries i).numLocks = 0 := by
  have hnil := hx.append .nil
  obtain ⟨L, _, _, c', hrun', hT, hS, -⟩ := Sound.run xs (hnil.tidy {} rfl) (.init hnil.closed)
  rw [hrun] at hrun'
  cases hrun'
  cases hT with
  | nil hk =>
    have hL := hS.locked
    rw [hk] at hL
    exact hL.numLocks_eq_zero i

/-- The register cache never runs out and stays balanced, whatever the instructions. The compiler
makes the calls of `Region.emissions`, in every round and at the end of the region, and it compiles
every region; and at each of these calls `Balanced` holds. A target has three entries or more. -/
theorem jitRegion_balanced (T : Target) (R : Region) :
    (∀ i hs, Follows (T := T) (R.round i (R.lastInfo i)) hs (R.roundEmissions i).flatten
      (R.info i)) ∧
    (∀ hs, Follows (T := T) (R.finish (R.lastInfo R.count) R.firstInfo) hs
      (R.finishEmissions (R.lastInfo R.count) R.firstInfo).flatten ()) ∧
    (∃ (code : HostCode T) (hs : List HReg) (c : RegisterCache T), jitRegion R = some code ∧
      (Plan.run R.emissions.flatten []).flat {} = some (hs, code.pieces, c)) ∧
    ∀ es pre post es', R.emissions (T := T) = es ++ (pre ++ post) :: es' →
      ∃ hs ks c, (Plan.run (es.flatten ++ pre) []).flat {} = some (hs, ks, c) ∧
        Balanced pre post hs (Plan.asked (es.flatten ++ pre) {}).values c := by
  refine ⟨fun i _ => .round R i, fun _ => .finish R _ _, ?_, ?_⟩
  · obtain ⟨code, hcode⟩ := jitRegion_isSome (T := T) R
    have hfollows := Follows.jitRegion (T := T) R
    rw [hcode, Option.map_some] at hfollows
    obtain ⟨⟨hs, ks, c⟩, hrun, hks⟩ := Option.map_eq_some_iff.1 hfollows.symm
    cases hks
    exact ⟨code, hs, c, hcode, hrun⟩
  · intro es pre post es' hsplit
    have hsealed := R.sealed_emissions (T := T)
    rw [hsplit] at hsealed
    have hes : Plan.Sealed es.flatten :=
      .flatten fun e he => hsealed e (List.mem_append_left _ he)
    have he : Plan.Sealed (pre ++ post) :=
      hsealed _ (List.mem_append_right _ List.mem_cons_self)
    have hall : Plan.Sealed (es.flatten ++ pre ++ post) := by
      rw [List.append_assoc]
      exact hes.append he
    obtain ⟨L, hs, ks, c, hrun, hT, hS, hasked⟩ :=
      Sound.run (es.flatten ++ pre) (hall.tidy {} rfl) (.init hall.closed)
    replace hasked : L.asked = Plan.asked (es.flatten ++ pre) {} := hasked
    refine ⟨hs, ks, c, hrun, ?_, ?_, fun i hi => ?_, fun i j hij d e v w hd he hv hw => ?_⟩
    · rintro x xs rfl
      exact hS.asserted hT
    · rintro (rfl | rfl)
      · rw [List.append_nil] at hrun
        exact hes.unlocked hrun
      · rw [List.append_nil] at hall
        exact hall.unlocked hrun
    · rw [← hasked]
      exact hS.given hi
    · rw [← hasked] at hv hw
      exact hS.distinct hij hd he hv hw

end ParallelRsp.Jit
