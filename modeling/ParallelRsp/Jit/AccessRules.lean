import ParallelRsp.Jit.InstructionRules

/-!
# Compiled loads, stores and calls

The two paths of a scalar access to DMEM, the aligned one in line and the unaligned one
through a C function, do the same and end with the same register cache. A helper of
`rsp/` is called with the `R` registers written back, and the one scalar register that it
sees: by `LocalAt` it does what it does in a machine that has all registers in memory.
-/

namespace ParallelRsp.Jit

open Codegen

variable {T : Target} {E : Env T} {c : RegisterCache T} {h : Host T} {v : View T} {ks : List ℕ}

/-! ### Host registers that hold no MIPS register -/

/-- The host register is a scratch register, or not in use. -/
def Free (c : RegisterCache T) (d : HReg) : Prop :=
  ∀ i, (c.entries i).isLive → home i = d → condBranchTaken < (c.entries i).mipsRegister

theorem At.free {r : ℕ} {d : HReg} {s : SignState} (hA : At c r d s) (hr : condBranchTaken < r) :
    Free c d := by
  obtain ⟨i, -, rfl, rfl, -⟩ := hA
  intro j _ hj
  rwa [home_injective hj]

theorem Flushed.free {c' : RegisterCache T} {h' : Host T}
    {d : HReg} (hF : Flushed c h v c' h') (hd : Free c d) :
    Free c' d := by
  intro i hil hid
  rcases hF.entries i with hi | hi
  · rw [hi] at hil ⊢
    exact hd i hil hid
  · exact absurd hil hi

/-- Such a register can be written. -/
theorem Rep.setFree {d : HReg} (hR : Rep c h v) (hd : Free c d)
    (hi : d ≠ registerIndirectPc) (x : BitVec T.wordSize) :
    Rep c (h.set d x) v where
  distinct := hR.distinct
  entry i hil := by
    have hE := hR.entry i hil
    by_cases hid : home i = d
    · have hr := hd i hil hid
      exact ⟨fun h0 => absurd h0 (Nat.ne_zero_of_lt hr), fun h32 =>
        absurd h32 hr.not_ge, fun h32 => absurd h32 hr.not_ge,
        fun h32 => absurd h32 hr.ne'⟩
    · exact hE.of_ne hid
  memory := hR.memory
  rest := hR.rest
  control := by rw [h.control_set x hi, hR.control]

/-- The `R` registers hold nothing. -/
def RegsDead (c : RegisterCache T) : Prop :=
  ∀ i : Fin T.numFree, i.val < T.numR → ¬(c.entries i).isLive

/-- A call loses the `R` registers, which hold nothing. -/
theorem Rep.lose (hR : Rep c h v) (hdead : RegsDead c) : Rep c (h.lose E) v where
  distinct := hR.distinct
  entry i hil := by
    have hi : ¬i.val < T.numR := fun hi => hdead i hi hil
    have hhome : home i = .V (3 + (i.val - T.numR)) := if_neg hi
    have hregs : (h.lose E).regs (home i) = h.regs (home i) := by rw [hhome]; rfl
    have hE := hR.entry i hil
    exact ⟨by rw [hregs]; exact hE.zero, by rw [hregs]; exact hE.value,
      by rw [hregs]; exact hE.sign,
      by rw [hregs]; exact hE.cond⟩
  memory := hR.memory
  rest := hR.rest
  control := hR.control

/-! ### DMEM -/

/-- The state with another DMEM. -/
def View.setDmem (v : View T) (mem : ℕ → Byte) : View T :=
  { v with arch := { v.arch with dmem := mem } }

theorem Rep.dmem_eq (hR : Rep c h v) : h.st.dmem = v.arch.dmem :=
  (congrArg Arch.dmem hR.rest).trans (Arch.withSr_dmem _ _)

theorem Rep.setDmem (hR : Rep c h v) (mem : ℕ → Byte) :
    Rep c { h with st := { h.st with dmem := mem } } (v.setDmem mem) where
  distinct := hR.distinct
  entry i hil :=
    have hE := hR.entry i hil
    ⟨hE.zero, hE.value, hE.sign, hE.cond⟩
  memory := hR.memory
  rest := congrArg (fun a : Arch => { a with dmem := mem }) hR.rest
  control := hR.control

/-! ### Addresses -/

theorem falls_code {k : HostCode T} {h' : Host T} {Q : Unit → RegisterCache T → Host T → Prop}
    (hk : k.labelFree) (hx : exec (lightning E) k h = .fall h') (hQ : Q () c h') :
    falls (lightning E) (Emit.code k : Gen T Unit) Q c h :=
  wp_code hk ⟨h', hx, hQ⟩

/-- The effective address in a scratch register. -/
theorem falls_emitAddress {t a : HReg} {x : BitVec 16} {y : Word}
    (hW : ∀ z, Rep c (h.set t z) v) (ha : low (h.regs a) = y) :
    falls (lightning E) (emitAddress t a x)
      (fun _ c' h' => c' = c ∧ (∃ z, h' = h.set t z) ∧ Rep c h' v ∧
        HoldsAddr (h'.regs t) (y + x.signExtend 32)) c h := by
  refine falls_bind (falls_op (falls_op ?_))
  have hset : stepOp E (.bini .and t t 0xfff#_) (stepOp E (.bini .add t a (x.signExtend _)) h) =
      h.set t ((h.regs a + x.signExtend _) &&& 0xfff#_) := by
    simp [stepOp, BinOp.eval]
  refine ⟨rfl, ⟨_, hset⟩, ?_, ?_⟩
  · rw [show (lightning E).step = stepOp E from rfl, hset]
    exact hW _
  · rw [show (lightning E).step = stepOp E from rfl, hset, h.set_regs_self]
    exact holdsAddr_add ha x

theorem exec_flipped (flip : ℕ) (t : HReg) (i : Op T) (h : Host T) :
    exec (lightning E) (flipped flip t i) h =
      .fall (stepOp E i (h.set t (flipAddr flip (h.regs t)))) := by
  by_cases hf : flip ≠ 0
  · rw [flipped, if_pos hf, flipAddr, if_pos hf]
    rfl
  · rw [flipped, if_neg hf, flipAddr, if_neg hf, Host.set_self]
    rfl

theorem flipped_labelFree (flip : ℕ) (t : HReg) (i : Op T) : (flipped flip t i).labelFree := by
  rw [flipped]
  split <;> exact ⟨trivial, trivial⟩

/-- Three locks given back, and the `R` registers flushed before a call. -/
theorem falls_unlock3_flush {r r' r'' : ℕ} {α : Type} {m : Gen T α}
    {Q : α → RegisterCache T → Host T → Prop} (hR : Rep c h v) (hL : Locked c [r, r', r''])
    (hQ : ∀ c' h', h'.regs = h.regs → Ready c' h' v →
      RegsDead c' →
      (∀ k d s, At c k d s → condBranchTaken < k → Free c' d) → falls (lightning E) m Q c' h') :
    falls (lightning E) (do
      unlockMipsRegister r
      unlockMipsRegister r'
      unlockMipsRegister r''
      flushCallerSaveRegisters
      m) Q c h := by
  refine falls_bind ((falls_unlockMipsRegister hR hL (.refl _)).mono ?_)
  rintro _ c₁ h₁ ⟨rfl, hR₁, hL₁, hA₁, -⟩
  refine falls_bind ((falls_unlockMipsRegister hR₁ hL₁ (.refl _)).mono ?_)
  rintro _ c₂ h₂ ⟨rfl, hR₂, hL₂, hA₂, -⟩
  refine falls_bind ((falls_unlockMipsRegister hR₂ hL₂ (.refl _)).mono ?_)
  rintro _ c₃ h₃ ⟨rfl, hR₃, hL₃, hA₃, -⟩
  refine falls_bind ((falls_flushCallerSaveRegisters hR₃ hL₃).mono ?_)
  rintro _ c₄ h₄ ⟨hF, hdead⟩
  refine hQ c₄ h₄ hF.regs ⟨hF.rep, hF.locked⟩ hdead fun k d s hA hk => hF.free ?_
  exact (hA₃ _ _ _ (hA₂ _ _ _ (hA₁ _ _ _ hA))).free hk

theorem not_msi {mask : ℕ} {t : HReg} (hm : ¬holdsCond (.msi t (BitVec.ofNat _ mask)) h) :
    h.regs t &&& BitVec.ofNat _ mask = 0#_ := by
  simpa [holdsCond] using hm

theorem ne_of_msi {mask : ℕ} {t : HReg} (hm : holdsCond (.msi t (BitVec.ofNat _ mask)) h) :
    h.regs t &&& BitVec.ofNat _ mask ≠ 0#_ := by
  simpa [holdsCond] using hm

/-! ### Calls with arguments on the stack -/

/-- The words pushed do not count. -/
theorem Rep.setStack (hR : Rep c h v) (stack : List (Pushed T)) : Rep c { h with stack } v where
  distinct := hR.distinct
  entry i hil :=
    have hE := hR.entry i hil
    ⟨hE.zero, hE.value, hE.sign, hE.cond⟩
  memory := hR.memory
  rest := hR.rest
  control := hR.control

/-- Nor does the result of a call. -/
theorem Rep.setRet (hR : Rep c h v) (ret : BitVec T.wordSize) : Rep c { h with ret } v where
  distinct := hR.distinct
  entry i hil :=
    have hE := hR.entry i hil
    ⟨hE.zero, hE.value, hE.sign, hE.cond⟩
  memory := hR.memory
  rest := hR.rest
  control := hR.control

/-- If the code of an instruction calls such a function, the function finds its arguments. -/
def Env.Serves (E : Env T) (i : Instr) (a : Arch) : Prop := E.Stdcall ∨ ¬CallsUnaligned i a

theorem Env.serves (E : Env T) [E.Stdcall] (i : Instr) (a : Arch) : E.Serves i a := .inl ‹_›

theorem Env.serves_of (E : Env T) {i : Instr} {a : Arch}
    (h : T.wordSize = 32 ∨ ¬CallsUnaligned i a) : E.Serves i a := by
  refine h.imp_left fun h32 => ?_
  have : T.Stdcall := ⟨h32⟩
  infer_instance

/-- What the call of a function for an unaligned store leaves in DMEM. -/
def StoreLeaves (E : Env T) (v : View T) (op : StoreOp) (addr y : Word) (mem : ℕ → Byte) : Prop :=
  ∀ (c : RegisterCache T) (h : Host T) (t d : BitVec T.wordSize) (stack : List (Pushed T)),
    Rep c h v → RegsDead c → HoldsAddr t addr → low d = y →
    h.stack = .dmem :: .word t :: .word d :: stack →
    Rep c (stepOp E (.callUnaligned (.store op)) h) (v.setDmem mem)

/-- What the call of a function for an unaligned load leaves in DMEM, and what it returns. -/
def LoadLeaves (E : Env T) (v : View T) (op : LoadOp) (addr : Word) (mem : ℕ → Byte)
    (y : Word) : Prop :=
  ∀ (c : RegisterCache T) (h : Host T) (t : BitVec T.wordSize) (stack : List (Pushed T)),
    Rep c h v → RegsDead c → HoldsAddr t addr → h.stack = .dmem :: .word t :: stack →
    Rep c (stepOp E (.callUnaligned (.load op)) h) (v.setDmem mem) ∧
      low (stepOp E (.callUnaligned (.load op)) h).ret = y

theorem Host.stdcall_store {t d : BitVec T.wordSize} {stack : List (Pushed T)} (op : StoreOp)
    (hstack : h.stack = .dmem :: .word t :: .word d :: stack) :
    h.stdcall (.store op) =
      { h with stack, st := { h.st with dmem := rspUnalignedStore h.st.dmem t d op } } := by
  obtain ⟨regs, frame, stack', ret, st, log⟩ := h
  cases hstack
  rfl

theorem Host.stdcall_load {t : BitVec T.wordSize} {stack : List (Pushed T)} (op : LoadOp)
    (hstack : h.stack = .dmem :: .word t :: stack) :
    h.stdcall (.load op) = { h with stack, ret := rspUnalignedLoad h.st.dmem t op } := by
  obtain ⟨regs, frame, stack', ret, st, log⟩ := h
  cases hstack
  rfl

/-- A `__stdcall` function finds the arguments of a store. -/
theorem storeLeaves [E.Stdcall] {op : StoreOp} (hop : StoreOp.endianFlip op ≠ 3) (addr y : Word) :
    StoreLeaves E v op addr y (Mips.store op v.arch.dmem addr y) := by
  intro c h t d stack hR hdead ht hd hstack
  have hL := hR.lose (E := E) hdead
  rw [Env.Stdcall.stepOp_callUnaligned, Host.stdcall_store op (h := h.lose E) hstack,
    rspUnalignedStore_eq op ht hop, hd, hL.dmem_eq]
  exact (hL.setDmem (Mips.store op v.arch.dmem addr y)).setStack stack

/-- And that of a load. -/
theorem loadLeaves [E.Stdcall] {op : LoadOp} (hop : LoadOp.endianFlip op ≠ 3) (addr : Word) :
    LoadLeaves E v op addr v.arch.dmem (Mips.load op v.arch.dmem addr) := by
  intro c h t stack hR hdead ht hstack
  have hL := hR.lose (E := E) hdead
  rw [Env.Stdcall.stepOp_callUnaligned, Host.stdcall_load op (h := h.lose E) hstack]
  refine ⟨(hL.setStack stack).setRet _, ?_⟩
  rw [low_rspUnalignedLoad op ht hop, hL.dmem_eq]

/-! ### Stores -/

section Store

variable {op : StoreOp} {t d : HReg} {addr y : Word}

theorem alignedFor_iff_store (op : StoreOp) (rt : Fin 32) {rs : Fin 32} {x : BitVec 16} {a : Arch}
    {t : BitVec T.wordSize} (ht : HoldsAddr t (Mips.address a rs x)) :
    AlignedFor (StoreOp.endianFlip op) t ↔ ¬CallsUnaligned (.store op rt rs x) a := by
  rw [CallsUnaligned, not_not]
  cases op with
  | sb => exact ht.alignedFor_iff (k := 0) (by norm_num) rfl
  | sh => exact ht.alignedFor_iff (k := 1) (by norm_num) rfl
  | sw => exact ht.alignedFor_iff (k := 2) (by norm_num) rfl

theorem exec_storeAligned (hR : Rep c h v) (hfree : Free c t)
    (hti : t ≠ registerIndirectPc) (htd : d ≠ t)
    (ht : HoldsAddr (h.regs t) addr) (hal : AlignedFor (StoreOp.endianFlip op) (h.regs t))
    (hd : low (h.regs d) = y) :
    ∃ h', exec (lightning E) (flipped (StoreOp.endianFlip op) t (.stDmem op t d)) h = .fall h' ∧
      Rep c h' (v.setDmem (Mips.store op v.arch.dmem addr y)) := by
  refine ⟨_, exec_flipped _ _ _ _, ?_⟩
  have hR' := (hR.setFree hfree hti (flipAddr (StoreOp.endianFlip op) (h.regs t))).setDmem
    (hostStore h.st.dmem (flipAddr (StoreOp.endianFlip op) (h.regs t)).toNat (h.regs d) op)
  rw [hostStore_flip op ht hal, hd, hR.dmem_eq] at hR'
  have hstep : stepOp E (.stDmem op t d) (h.set t (flipAddr (StoreOp.endianFlip op) (h.regs t))) =
      { h.set t (flipAddr (StoreOp.endianFlip op) (h.regs t)) with
        st := { h.st with dmem := Mips.store op v.arch.dmem addr y } } := by
    rw [stepOp, Host.set_regs_self, Host.set_regs_of_ne _ _ htd,
      Host.set_st, hostStore_flip op ht hal, hd, hR.dmem_eq]
  rw [hstep]
  exact hR'

/-- A store, whatever the call leaves in DMEM when it is not aligned. -/
theorem falls_store (hS : Ready c h v) (op : StoreOp) (rt rs : Fin 32) (x : BitVec 16)
    {mem : ℕ → Byte}
    (hin : ¬CallsUnaligned (.store op rt rs x) v.arch →
      mem = Mips.store op v.arch.dmem (Mips.address v.arch rs x) (Mips.read v.arch rt))
    (hcall : CallsUnaligned (.store op rt rs x) v.arch →
      StoreLeaves E v op (Mips.address v.arch rs x) (Mips.read v.arch rt) mem) :
    falls (lightning E) (jitEmitStoreOperation op rt rs x)
      (fun _ c' h' => Ready c' h' (v.setDmem mem)) c h := by
  refine falls_bind ((falls_loadFin hS.rep hS.locked (by simp)).mono ?_)
  rintro d c₁ h₁ ⟨hR₁, hL₁, hD₁, -⟩
  refine falls_bind ((falls_loadFin hR₁ hL₁ (by simp)).mono ?_)
  rintro a c₂ h₂ ⟨hR₂, hL₂, hA₂, hK₂⟩
  have hD₂ := hK₂.stay rt (.inl (by simp)) d _ hD₁ fun _ => .inl rfl
  refine falls_bind ((falls_modifyScratch hR₂ hL₂ cond_lt_scratch0 (by simp)).mono ?_)
  rintro t c₃ h₃ ⟨hregs₃, hW₃, hL₃, hO₃, hK₃⟩
  have hD₃ := hK₃.stay rt (.inl (by simp)) d _ hD₂ fun _ => rfl
  have hdt : d ≠ t := hD₃.ne hO₃.at ((fin_lt_condBranchTaken rt).trans cond_lt_scratch0).ne
  have hti : t ≠ registerIndirectPc := by
    obtain ⟨i, -, -, rfl, -⟩ := hO₃
    exact home_ne_indirectPc i
  refine falls_bind ((falls_emitAddress hW₃ (hregs₃ ▸ (hR₂.at_fin hA₂).1)).mono ?_)
  rintro _ _ h₄ ⟨rfl, ⟨z, rfl⟩, hR₄, ht₄⟩
  have hd₄ : low ((h₃.set t z).regs d) = Mips.read v.arch rt := by
    rw [Host.set_regs_of_ne _ _ hdt, hregs₃]
    exact (hR₂.at_fin hD₂).1
  split
  · refine falls_unlock3_flush hR₄ hL₃ fun c₅ h₅ hregs₅ hS₅ hdead hfree => ?_
    rw [← hregs₅] at hd₄ ht₄
    have hal := alignedFor_iff_store op rt ht₄
    refine wp_code ⟨⟨trivial, trivial, trivial, trivial, trivial⟩, flipped_labelFree _ _ _⟩ ?_
    by_cases hc : holdsCond (.msi t (BitVec.ofNat _ (3 - StoreOp.endianFlip op))) h₅
    · refine ⟨_, if_pos hc, ?_, hS₅.locked⟩
      exact hcall (not_not.1 fun hn => ne_of_msi hc (hal.2 hn)) _ _ _ _ _ (hS₅.rep.setStack _) hdead
        ht₄ hd₄ rfl
    · obtain ⟨h₆, hx, hR₆⟩ :=
        exec_storeAligned hS₅.rep (hfree _ _ _ hO₃.at cond_lt_scratch0) hti hdt ht₄ (not_msi hc) hd₄
      obtain rfl := hin (hal.1 (not_msi hc))
      exact ⟨h₆, (if_neg hc).trans hx, hR₆, hS₅.locked⟩
  · rename_i hm
    have hal : AlignedFor (StoreOp.endianFlip op) ((h₃.set t z).regs t) := by
      rw [AlignedFor, not_not.1 hm]
      exact BitVec.and_zero
    obtain ⟨h₅, hx, hR₅⟩ :=
      exec_storeAligned (E := E) hR₄ (hO₃.at.free cond_lt_scratch0) hti hdt ht₄ hal hd₄
    obtain rfl := hin ((alignedFor_iff_store op rt ht₄).1 hal)
    exact falls_bind (falls_code (flipped_labelFree _ _ _) hx (falls_unlock3 hR₅ hL₃))

theorem CallsUnaligned.store_flip {rt rs : Fin 32} {x : BitVec 16} {a : Arch}
    (hu : CallsUnaligned (.store op rt rs x) a) : StoreOp.endianFlip op ≠ 3 := by
  intro h3
  refine hu ?_
  rw [h3]
  exact BitVec.and_zero

theorem falls_jitEmitStoreOperation (hS : Ready c h v) (op : StoreOp)
    (rt rs : Fin 32) (x : BitVec 16)
    (hserves : E.Serves (.store op rt rs x) v.arch) :
    falls (lightning E) (jitEmitStoreOperation op rt rs x)
      (fun _ c' h' => Ready c' h'
        (v.setDmem (Mips.store op v.arch.dmem (Mips.address v.arch rs x)
          (Mips.read v.arch rt)))) c h := by
  refine falls_store hS op rt rs x (fun _ => rfl) fun hu => ?_
  have := hserves.resolve_right (not_not.2 hu)
  exact storeLeaves hu.store_flip _ _

end Store

/-! ### Loads -/

section Load

variable {op : LoadOp} {t ret : HReg} {addr : Word}

theorem alignedFor_iff_load (op : LoadOp) {rt rs : Fin 32} (hrt : rt ≠ 0) {x : BitVec 16} {a : Arch}
    {t : BitVec T.wordSize} (ht : HoldsAddr t (Mips.address a rs x)) :
    AlignedFor (LoadOp.endianFlip op) t ↔ ¬CallsUnaligned (.load op rt rs x) a := by
  rw [CallsUnaligned, and_iff_right hrt, not_not]
  cases op with
  | lb | lbu => exact ht.alignedFor_iff (k := 0) (by norm_num) rfl
  | lh | lhu => exact ht.alignedFor_iff (k := 1) (by norm_num) rfl
  | lw => exact ht.alignedFor_iff (k := 2) (by norm_num) rfl

theorem exec_loadAligned (hR : Rep c h v) (hfree : Free c t)
    (hti : t ≠ registerIndirectPc) (hret : Free c ret)
    (hri : ret ≠ registerIndirectPc) (ht : HoldsAddr (h.regs t) addr)
    (hal : AlignedFor (LoadOp.endianFlip op) (h.regs t)) :
    ∃ h', exec (lightning E) (flipped (LoadOp.endianFlip op) t (.ldDmem op ret t)) h =
      .fall h' ∧ Rep c h' v ∧
      low (h'.regs ret) = Mips.load op v.arch.dmem addr := by
  refine ⟨_, exec_flipped _ _ _ _, ?_, ?_⟩
  · exact (hR.setFree hfree hti _).setFree hret hri _
  · rw [stepOp, Host.set_regs_self, Host.set_regs_self, Host.set_st, low_hostLoad op ht hal,
      hR.dmem_eq]

/-- The access of a load, whatever the call leaves when it is not aligned. -/
theorem falls_emitLoadAccess {rt rs : Fin 32} {x : BitVec 16} {a : Arch} {mem : ℕ → Byte} {y : Word}
    (hrt : rt ≠ 0) (hR : Rep c h v)
    (hL : Locked c [rs.val, scratchRegister0, scratchRegister1])
    (ht : At c scratchRegister0 t .unknown) (hret : At c scratchRegister1 ret .unknown)
    (hta : HoldsAddr (h.regs t) (Mips.address a rs x))
    (hin : ¬CallsUnaligned (.load op rt rs x) a →
      mem = v.arch.dmem ∧ y = Mips.load op v.arch.dmem (Mips.address a rs x))
    (hcall : CallsUnaligned (.load op rt rs x) a →
      LoadLeaves E v op (Mips.address a rs x) mem y) :
    falls (lightning E) (emitLoadAccess op rs t ret)
      (fun _ c' h' => Ready c' h' (v.setDmem mem) ∧ low (h'.regs ret) = y) c h := by
  have hti : t ≠ registerIndirectPc := by
    obtain ⟨i, -, -, rfl, -⟩ := ht
    exact home_ne_indirectPc i
  have hri : ret ≠ registerIndirectPc := by
    obtain ⟨i, -, -, rfl, -⟩ := hret
    exact home_ne_indirectPc i
  have hmask : LoadOp.endianFlip op ^^^ 3 = 3 - LoadOp.endianFlip op := by cases op <;> rfl
  rw [emitLoadAccess, hmask]
  split
  · refine falls_unlock3_flush hR hL fun c₁ h₁ hregs₁ hS₁ hdead hfree => ?_
    rw [← hregs₁] at hta
    have hal := alignedFor_iff_load op hrt hta
    have hret₁ := hfree _ _ _ hret cond_lt_scratch1
    refine wp_code ⟨⟨trivial, trivial, trivial, trivial, trivial⟩, flipped_labelFree _ _ _⟩ ?_
    by_cases hc : holdsCond (.msi t (BitVec.ofNat _ (3 - LoadOp.endianFlip op))) h₁
    · obtain ⟨hR₂, hy⟩ :=
        hcall (not_not.1 fun hn => ne_of_msi hc (hal.2 hn)) _ _ _ _ (hS₁.rep.setStack _) hdead hta
          rfl
      exact ⟨_, if_pos hc, ⟨hR₂.setFree hret₁ hri _, hS₁.locked⟩,
        (congrArg low (Host.set_regs_self _ ret _)).trans hy⟩
    · obtain ⟨h₂, hx, hR₂, hv₂⟩ :=
        exec_loadAligned (E := E) hS₁.rep (hfree _ _ _ ht cond_lt_scratch0) hti hret₁ hri hta
        (not_msi hc)
      obtain ⟨rfl, rfl⟩ := hin (hal.1 (not_msi hc))
      exact ⟨h₂, (if_neg hc).trans hx, ⟨hR₂, hS₁.locked⟩, hv₂⟩
  · rename_i hm
    have hal : AlignedFor (LoadOp.endianFlip op) (h.regs t) := by
      rw [AlignedFor, not_not.1 hm]
      exact BitVec.and_zero
    obtain ⟨h₁, hx, hR₁, hv₁⟩ :=
      exec_loadAligned (E := E) hR (ht.free cond_lt_scratch0) hti (hret.free cond_lt_scratch1)
      hri hta hal
    obtain ⟨rfl, rfl⟩ := hin ((alignedFor_iff_load op hrt hta).1 hal)
    refine falls_bind (falls_code (flipped_labelFree _ _ _) hx ?_)
    refine falls_bind ((falls_unlockMipsRegister hR₁ hL (.refl _)).mono ?_)
    rintro _ c₂ h₂ ⟨rfl, hR₂, hL₂, -, -⟩
    refine falls_bind ((falls_unlockMipsRegister hR₂ hL₂ (.refl _)).mono ?_)
    rintro _ c₃ h₃ ⟨rfl, hR₃, hL₃, -, -⟩
    refine (falls_unlockMipsRegister hR₃ hL₃ (.refl _)).mono ?_
    rintro _ c₄ h₄ ⟨rfl, hR₄, hL₄, -, -⟩
    exact ⟨⟨hR₄, hL₄⟩, hv₁⟩

/-- A load, whatever the call leaves when it is not aligned. -/
theorem falls_load (hS : Ready c h v) (op : LoadOp) (rt rs : Fin 32) (x : BitVec 16)
    {mem : ℕ → Byte} {y : Word}
    (hin : ¬CallsUnaligned (.load op rt rs x) v.arch →
      mem = v.arch.dmem ∧ y = Mips.load op v.arch.dmem (Mips.address v.arch rs x))
    (hcall : CallsUnaligned (.load op rt rs x) v.arch →
      LoadLeaves E v op (Mips.address v.arch rs x) mem y) :
    falls (lightning E) (jitEmitLoadOperation op rt rs x)
      (fun _ c' h' => Ready c' h' ((v.setDmem mem).write rt y)) c h := by
  refine falls_when (fun h0 => ?_) (fun h0 => ?_)
  · refine falls_bind ((falls_loadFin hS.rep hS.locked (by simp)).mono ?_)
    rintro a c₁ h₁ ⟨hR₁, hL₁, hA₁, -⟩
    refine falls_bind ((falls_modifyScratch hR₁ hL₁ cond_lt_scratch0 (by simp)).mono ?_)
    rintro t c₂ h₂ ⟨hregs₂, hW₂, hL₂, hT₂, -⟩
    refine falls_bind ((falls_emitAddress hW₂ (hregs₂ ▸ (hR₁.at_fin hA₁).1)).mono ?_)
    rintro _ _ h₃ ⟨rfl, ⟨z, rfl⟩, hR₃, ht₃⟩
    refine falls_bind ((falls_modifyScratch hR₃ hL₂ cond_lt_scratch1 (by simp)).mono ?_)
    rintro ret c₄ h₄ ⟨hregs₄, hW₄, hL₄, hO₄, hK₄⟩
    have hT₄ := hK₄.stay scratchRegister0 (.inl (by simp)) t _ hT₂.at fun _ => rfl
    have hR₄ := hW₄ (h₄.regs ret)
    rw [Host.set_self] at hR₄
    rw [← hregs₄] at ht₃
    refine falls_bind ((falls_emitLoadAccess h0 hR₄ hL₄ hT₄ hO₄.at ht₃ hin hcall).mono ?_)
    rintro _ c₅ h₅ ⟨hS₅, hv₅⟩
    refine falls_bind ((falls_modifyFin hS₅.rep hS₅.locked h0 (by simp)).mono ?_)
    rintro d c₆ h₆ ⟨hregs₆, hW₆, hL₆⟩
    have hR₆ := hW₆ (h₆.regs ret)
    rw [hregs₆, hv₅, ← hregs₆] at hR₆
    exact falls_bind (falls_op (falls_unlock hR₆ hL₆))
  · obtain ⟨rfl, -⟩ := hin fun hu => h0 hu.1
    rw [not_not.1 h0]
    exact hS

theorem CallsUnaligned.load_flip {rt rs : Fin 32} {x : BitVec 16} {a : Arch}
    (hu : CallsUnaligned (.load op rt rs x) a) : LoadOp.endianFlip op ≠ 3 := by
  intro h3
  refine hu.2 ?_
  rw [h3]
  exact BitVec.and_zero

theorem falls_jitEmitLoadOperation (hS : Ready c h v) (op : LoadOp)
    (rt rs : Fin 32) (x : BitVec 16)
    (hserves : E.Serves (.load op rt rs x) v.arch) :
    falls (lightning E) (jitEmitLoadOperation op rt rs x)
      (fun _ c' h' => Ready c' h'
        (v.write rt (Mips.load op v.arch.dmem (Mips.address v.arch rs x)))) c h := by
  refine falls_load hS op rt rs x (fun _ => ⟨rfl, rfl⟩) fun hu => ?_
  have := hserves.resolve_right (not_not.2 hu)
  exact loadLeaves hu.load_flip _

end Load

/-! ### Calls -/

section Call

/-- The scalar register that a helper sees. -/
def Callee.register : Callee → Option (Fin 32)
  | .vu _ _ _ _ _ => none
  | .mfc0 rt _ | .mtc0 rt _ | .mfc2 rt _ _ | .mtc2 rt _ _ | .cfc2 rt _ | .ctc2 rt _ => some rt
  | .lwc2 _ _ _ rs _ | .swc2 _ _ _ rs _ => some rs

/-- Every helper sees that register at most. -/
theorem Callee.localAt (H : Helpers) (f : Callee) :
    LocalAt (fun a => (f.run H a).1) (f.register.getD 0) := by
  cases f with
  | vu op e vd vs vt => exact LocalAt.of_reads (fun _ => rfl) fun _ _ _ => rfl
  | mfc0 rt rd => exact CP.rspMFC0_local rt rd
  | mtc0 rt rd => exact CP.rspMTC0_local H.rdp rd rt
  | mfc2 rt rd e => exact CP.rspMFC2_local rt rd e
  | mtc2 rt rd e => exact CP.rspMTC2_local rt rd e
  | cfc2 rt rd => exact CP.rspCFC2_local rt rd
  | ctc2 rt rd => exact CP.rspCTC2_local rt rd
  | lwc2 op e rt rs offset => exact LS.lwc2_local H.build op e rt rs offset
  | swc2 op e rt rs offset => exact LS.swc2_local op e rt rs offset

/-- The result of a helper does not depend on the other registers, either. -/
theorem Callee.run_mode (H : Helpers) (f : Callee) (a : Arch) (sr : ℕ → Word)
    (hr : sr (f.register.getD 0) = a.sr (f.register.getD 0)) :
    (f.run H (a.withSr sr)).2 = (f.run H a).2 := by
  cases f with
  | mfc0 rt rd => exact CP.rspMFC0_mode rt rd a sr
  | mtc0 rt rd => exact CP.rspMTC0_mode H.rdp rd rt a sr hr
  | _ => rfl

/-- No entry holds the register that a helper sees. -/
def Uncached (c : RegisterCache T) (f : Callee) : Prop :=
  ∀ r, f.register = some r → ∀ i, (c.entries i).isLive → (c.entries i).mipsRegister ≠ r

/-- The state after a helper. -/
def View.call (v : View T) (H : Helpers) (f : Callee) :
    View T := { v with arch := (f.run H v.arch).1 }

theorem Rep.sr_of_uncached {f : Callee} (hR : Rep c h v) (hu : Uncached c f) :
    h.st.sr (f.register.getD 0) = v.arch.sr (f.register.getD 0) := by
  have hlt := fin_lt_condBranchTaken (f.register.getD 0)
  refine (hR.memory _ hlt.le ?_).trans (if_neg hlt.ne)
  rintro i ⟨hil, hir, him⟩
  cases hf : f.register with
  | none =>
    rw [hf] at hir
    exact ((hR.entry i hil).zero hir).1 him
  | some r =>
    rw [hf] at hir
    exact hu r hf i hil hir

theorem Rep.call {f : Callee} (hR : Rep c h v) (hdead : RegsDead c) (hu : Uncached c f) :
    Rep c (stepOp E (.call f) h) (v.call E.toHelpers f) := by
  have hloc := f.localAt E.toHelpers
  have hrun : (f.run E.toHelpers h.st.toArch).1 =
      (f.run E.toHelpers v.arch).1.withSr (Function.update h.st.sr
      (f.register.getD 0) ((f.run E.toHelpers v.arch).1.sr (f.register.getD 0))) := by
    rw [hR.rest]
    exact hloc v.arch h.st.sr (hR.sr_of_uncached hu)
  have hmem (k : ℕ) (hk : k ≠ f.register.getD 0) : (v.call E.toHelpers f).mem k = v.mem k :=
    if_congr Iff.rfl rfl (hloc.sr_eq v.arch hk)
  have hL := hR.lose (E := E) hdead
  constructor
  · exact hR.distinct
  · intro i hil
    have hE := hL.entry i hil
    have hreg : (v.call E.toHelpers f).reg (c.entries i).mipsRegister =
        v.reg (c.entries i).mipsRegister := by
      rw [View.reg, View.reg]
      by_cases h0 : (c.entries i).mipsRegister = 0
      · rw [if_pos h0, if_pos h0]
      · rw [if_neg h0, if_neg h0]
        refine hmem _ fun hk => ?_
        cases hf : f.register with
        | none =>
          rw [hf] at hk
          exact h0 hk
        | some r =>
          rw [hf] at hk
          exact hu r hf i hil hk
    exact ⟨hE.zero, fun h32 => (hE.value h32).trans hreg.symm, hE.sign, hE.cond⟩
  · intro k hk hno
    have hsr : (stepOp E (.call f) h).st.sr k = (f.run E.toHelpers h.st.toArch).1.sr k := rfl
    rw [hsr, hrun, Arch.withSr_sr]
    by_cases hkr : k = f.register.getD 0
    · subst hkr
      rw [Function.update_self]
      exact (if_neg (fin_lt_condBranchTaken _).ne).symm
    · rw [Function.update_of_ne hkr, hmem k hkr]
      exact hR.memory k hk hno
  · have hst : (stepOp E (.call f) h).st.toArch = (f.run E.toHelpers h.st.toArch).1 := rfl
    rw [hst, hrun]
    rfl
  · exact hR.control

theorem falls_emitCall {f : Callee} (hS : Ready c h v) :
    falls (lightning E) (emitCall f f.register)
      (fun _ c' h' => Ready c' h' (v.call E.toHelpers f) ∧ Uncached c' f) c h := by
  refine falls_bind ((falls_flushCallerSaveRegisters hS.rep hS.locked).mono ?_)
  rintro _ c₁ h₁ ⟨hF₁, hdead⟩
  cases hf : f.register with
  | none =>
    have hu : Uncached c₁ f := by
      intro r hr
      rw [hf] at hr
      cases hr
    exact falls_op ⟨⟨hF₁.rep.call hdead hu, hF₁.locked⟩, hu⟩
  | some r =>
    refine falls_bind ((falls_flushMipsRegister hF₁.rep hF₁.locked).mono ?_)
    rintro _ c₂ h₂ ⟨hF₂, hnone⟩
    have hu : Uncached c₂ f := by
      intro r' hr'
      obtain rfl := Option.some.inj (hf.symm.trans hr')
      exact hnone
    exact falls_op ⟨⟨hF₂.rep.call (fun i hi => hF₂.dead (hdead i hi)) hu, hF₂.locked⟩, hu⟩

end Call

end ParallelRsp.Jit
