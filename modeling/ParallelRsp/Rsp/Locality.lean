import ParallelRsp.Mips.Machine

/-!
# What a helper sees of the scalar registers

Compiled code keeps scalar registers in host registers and writes back, before it calls a
helper, only what the helper looks at. Every helper of `rsp/` reads and writes one scalar
register at most: it does the same whatever the others hold, and leaves them alone.
-/

namespace ParallelRsp

/-- The same state with other scalar registers. -/
def Arch.withSr (a : Arch) (sr : ℕ → Word) : Arch := { a with sr := sr }

@[simp] theorem Arch.withSr_sr (a : Arch) (sr : ℕ → Word) : (a.withSr sr).sr = sr := rfl

@[simp] theorem Arch.withSr_cp2 (a : Arch) (sr : ℕ → Word) : (a.withSr sr).cp2 = a.cp2 := rfl

@[simp] theorem Arch.withSr_dmem (a : Arch) (sr : ℕ → Word) : (a.withSr sr).dmem = a.dmem := rfl

@[simp] theorem Arch.withSr_imem (a : Arch) (sr : ℕ → Word) : (a.withSr sr).imem = a.imem := rfl

@[simp] theorem Arch.withSr_cp0 (a : Arch) (sr : ℕ → Word) : (a.withSr sr).cp0 = a.cp0 := rfl

@[simp] theorem Arch.withSr_withSr (a : Arch) (sr sr' : ℕ → Word) :
    (a.withSr sr).withSr sr' = a.withSr sr' := rfl

@[simp] theorem Arch.withSr_self (a : Arch) : a.withSr a.sr = a := rfl

variable {f : Arch → Arch} {r : ℕ}

/-- The function reads and writes no scalar register but `r`. -/
def LocalAt (f : Arch → Arch) (r : ℕ) : Prop :=
  ∀ (a : Arch) (sr : ℕ → Word), sr r = a.sr r →
    f (a.withSr sr) = (f a).withSr (Function.update sr r ((f a).sr r))

theorem LocalAt.sr_eq (h : LocalAt f r) (a : Arch) {k : ℕ} (hk : k ≠ r) : (f a).sr k = a.sr k := by
  have hf : (f a).sr = Function.update a.sr r ((f a).sr r) := congrArg Arch.sr (h a a.sr rfl)
  rw [hf, Function.update_of_ne hk]

/-- A function that writes no scalar register, and reads `r` at most. -/
theorem LocalAt.of_reads (hsr : ∀ a, (f a).sr = a.sr)
    (h : ∀ (a : Arch) (sr : ℕ → Word), sr r = a.sr r → f (a.withSr sr) = (f a).withSr sr) :
    LocalAt f r := by
  intro a sr hr
  have hu : Function.update sr r ((f a).sr r) = sr := by
    rw [hsr, ← hr]
    exact Function.update_eq_self r sr
  rw [hu]
  exact h a sr hr

/-! ### The vector loads and stores -/

theorem LS.lwc2_sr (b : Build) (op : LS.LsOp) (e : Fin 16)
    (rt base : Fin 32) (offset : Word) (a : Arch) :
    (LS.lwc2 b op e rt base offset a).sr = a.sr := by
  cases op <;> simp only [LS.lwc2, LS.rspLBV, LS.rspLSV, LS.rspLLV, LS.rspLDV, LS.rspLQV, LS.rspLRV,
    LS.rspLPV, LS.rspLUV, LS.rspLHV, LS.rspLFV, LS.rspLWV,
    LS.rspLTV, LS.loadPacked, LS.loadLoop] <;>
    repeat' split
  all_goals rfl

theorem LS.lwc2_local (b : Build) (op : LS.LsOp) (e : Fin 16) (rt base : Fin 32) (offset : Word) :
    LocalAt (LS.lwc2 b op e rt base offset) base := by
  refine LocalAt.of_reads (LS.lwc2_sr b op e rt base offset) ?_
  intro a sr hr
  have haddr (k : ℕ) : LS.lsAddr sr base offset k = LS.lsAddr a.sr base offset k := by
    rw [LS.lsAddr, hr, LS.lsAddr]
  cases op <;> simp only [LS.lwc2, LS.rspLBV, LS.rspLSV, LS.rspLLV, LS.rspLDV, LS.rspLQV, LS.rspLRV,
    LS.rspLPV, LS.rspLUV, LS.rspLHV, LS.rspLFV, LS.rspLWV,
    LS.rspLTV, LS.loadPacked, LS.loadLoop, Arch.withSr_sr, haddr] <;>
    repeat' split
  all_goals rfl

theorem LS.storeWrites_sr (op : LS.LsOp) (e : Fin 16) (rt base : Fin 32) (offset : Word) (a : Arch)
    (sr : ℕ → Word) (hr : sr base = a.sr base) :
    LS.storeWrites op e rt base offset (a.withSr sr) = LS.storeWrites op e rt base offset a := by
  have haddr (k : ℕ) : LS.lsAddr sr base offset k = LS.lsAddr a.sr base offset k := by
    rw [LS.lsAddr, hr, LS.lsAddr]
  cases op <;> simp only [LS.storeWrites, LS.writesSBV, LS.writesSSV, LS.writesSLV, LS.writesSDV,
    LS.writesSQV, LS.writesSRV, LS.writesSPV, LS.writesSUV,
    LS.writesSHV, LS.writesSFV, LS.writesSWV,
    LS.writesSTV, LS.writesPacked, LS.quadLoop, LS.sfvBytes, Arch.withSr_sr, Arch.withSr_cp2, haddr]

theorem LS.swc2_local (op : LS.LsOp) (e : Fin 16) (rt base : Fin 32) (offset : Word) :
    LocalAt (LS.swc2 op e rt base offset) base := by
  refine LocalAt.of_reads (fun a => rfl) ?_
  intro a sr hr
  rw [LS.swc2, LS.storeWrites_sr op e rt base offset a sr hr]
  rfl

/-! ### The moves -/

theorem CP.rspMFC2_local (rt rd : Fin 32) (e : Fin 16) : LocalAt (CP.rspMFC2 rt rd e) rt := by
  by_cases h : rt.val = 0
  · refine LocalAt.of_reads ?_ ?_ <;> intros <;> simp [CP.rspMFC2, h]
  · by_cases he : e.val % 2 = 1
    · intro a sr _
      simp [CP.rspMFC2, h, he, CP.setSr, Arch.withSr]
    · intro a sr _
      simp [CP.rspMFC2, h, he, CP.setSr, Arch.withSr]

theorem CP.rspCFC2_local (rt rd : Fin 32) : LocalAt (CP.rspCFC2 rt rd) rt := by
  by_cases h : rt.val = 0
  · refine LocalAt.of_reads ?_ ?_ <;> intros <;> simp [CP.rspCFC2, h]
  · intro a sr _
    simp [CP.rspCFC2, h, CP.setSr, Arch.withSr]

theorem CP.rspCTC2_local (rt rd : Fin 32) : LocalAt (CP.rspCTC2 rt rd) rt := by
  refine LocalAt.of_reads (fun a => rfl) ?_
  intro a sr hr
  simp only [CP.rspCTC2, Arch.withSr, hr]

theorem CP.rspMTC2_local (rt rd : Fin 32) (e : Fin 16) : LocalAt (CP.rspMTC2 rt rd e) rt := by
  refine LocalAt.of_reads (fun a => ?_) ?_
  · simp only [CP.rspMTC2]
    repeat' split
    all_goals rfl
  · intro a sr hr
    simp only [CP.rspMTC2, Arch.withSr_sr, hr]
    repeat' split
    all_goals rfl

/-! ### The system control registers -/

theorem CP.rspMFC0_local (rt rd : Fin 32) : LocalAt (fun a => (CP.rspMFC0 rt rd a).1) rt := by
  intro a sr hr
  by_cases h : rt.val = 0
  · simp only [CP.rspMFC0, Arch.withSr_cp0, h, ne_eq, not_true_eq_false, if_false]
    rw [h] at hr
    repeat' split
    all_goals simp [CP.setCr, Arch.withSr, ← hr]
  · simp only [CP.rspMFC0, Arch.withSr_cp0, h, ne_eq, not_false_eq_true, if_true]
    repeat' split
    all_goals simp [CP.setCr, Arch.withSr]

theorem CP.rspMFC0_mode (rt rd : Fin 32) (a : Arch) (sr : ℕ → Word) :
    (CP.rspMFC0 rt rd (a.withSr sr)).2 = (CP.rspMFC0 rt rd a).2 := by
  by_cases h : rt.val = 0
  · simp only [CP.rspMFC0, Arch.withSr_cp0, h, ne_eq, not_true_eq_false, if_false]
    repeat' split
    all_goals rfl
  · simp only [CP.rspMFC0, Arch.withSr_cp0, h, ne_eq, not_false_eq_true, if_true]
    repeat' split
    all_goals rfl

/-- A write to a control register neither depends on the scalar registers nor changes them. -/
theorem CP.setCr_withSr (a : Arch) (sr : ℕ → Word) (r : Fin 16) (x : Word) :
    CP.setCr (a.withSr sr) r x = (CP.setCr a r x).withSr sr := rfl

theorem CP.dmaReadWord_withSr (source dest : Word) (a : Arch) (sr : ℕ → Word) :
    CP.dmaReadWord source dest (a.withSr sr) = (CP.dmaReadWord source dest a).withSr sr := by
  rw [CP.dmaReadWord, CP.dmaReadWord]
  split <;> rfl

theorem CP.dmaWriteWord_withSr (source dest : Word) (a : Arch) (sr : ℕ → Word) :
    CP.dmaWriteWord source dest (a.withSr sr) = (CP.dmaWriteWord source dest a).withSr sr := rfl

theorem CP.dmaRow_withSr {word : Word → Word → Arch → Arch}
    (hw : ∀ source dest a sr, word source dest (a.withSr sr) = (word source dest a).withSr sr)
    (length source dest : Word) (a : Arch) (sr : ℕ → Word) :
    CP.dmaRow word length source dest (a.withSr sr) =
      (CP.dmaRow word length source dest a).withSr sr := by
  rw [CP.dmaRow, CP.dmaRow]
  induction List.range (length.toNat / 4) generalizing a with
  | nil => rfl
  | cons k ks ih => rw [List.foldl_cons, List.foldl_cons, hw, ih]

theorem CP.dmaRows_withSr {word : Word → Word → Arch → Arch}
    (hw : ∀ source dest a sr, word source dest (a.withSr sr) = (word source dest a).withSr sr)
    (length sourceStep destStep : Word) (n : ℕ) (source dest : Word) (a : Arch) (sr : ℕ → Word) :
    CP.dmaRows word length sourceStep destStep n source dest (a.withSr sr) =
      ((CP.dmaRows word length sourceStep destStep n source dest a).1.withSr sr,
        (CP.dmaRows word length sourceStep destStep n source dest a).2) := by
  induction n generalizing source dest a with
  | zero => rfl
  | succ n ih => rw [CP.dmaRows, CP.dmaRow_withSr hw, ih, CP.dmaRows]

theorem CP.rspDmaRead_withSr (a : Arch) (sr : ℕ → Word) :
    CP.rspDmaRead (a.withSr sr) = ((CP.rspDmaRead a).1.withSr sr, (CP.rspDmaRead a).2) := by
  simp only [CP.rspDmaRead, Arch.withSr_cp0, CP.setCr_withSr,
    CP.dmaRows_withSr CP.dmaReadWord_withSr]
  rfl

theorem CP.rspDmaWrite_withSr (a : Arch) (sr : ℕ → Word) :
    CP.rspDmaWrite (a.withSr sr) = (CP.rspDmaWrite a).withSr sr := by
  simp only [CP.rspDmaWrite, Arch.withSr_cp0, CP.setCr_withSr,
    CP.dmaRows_withSr CP.dmaWriteWord_withSr]

theorem CP.rspStatusWrite_withSr (x : Word) (a : Arch) (sr : ℕ → Word) :
    CP.rspStatusWrite x (a.withSr sr) =
      ((CP.rspStatusWrite x a).1.withSr sr, (CP.rspStatusWrite x a).2) := rfl

theorem CP.ite_withSr {p : Prop} [Decidable p] {x y x' y' : Arch × ReturnMode} {sr : ℕ → Word}
    (hx : x' = (x.1.withSr sr, x.2)) (hy : y' = (y.1.withSr sr, y.2)) :
    (if p then x' else y') = ((if p then x else y).1.withSr sr, (if p then x else y).2) := by
  split
  · exact hx
  · exact hy

theorem CP.mtc0Value_withSr (rdp : CP.ProcessRdpList) (rd : Fin 16)
    (x : Word) (a : Arch) (sr : ℕ → Word) :
    CP.mtc0Value rdp rd x (a.withSr sr) =
      ((CP.mtc0Value rdp rd x a).1.withSr sr, (CP.mtc0Value rdp rd x a).2) := by
  rw [CP.mtc0Value, CP.mtc0Value]
  repeat' apply CP.ite_withSr
  · rfl
  · rfl
  · exact CP.rspDmaRead_withSr (CP.setCr a CP.dmaReadLength x) sr
  · exact congrArg (·, ReturnMode.continue)
      (CP.rspDmaWrite_withSr (CP.setCr a CP.dmaWriteLength x) sr)
  · exact CP.rspStatusWrite_withSr _ _ _
  · rfl
  · rfl
  · rfl
  · rfl
  · dsimp only
    split <;> split <;> rfl
  · rfl
  · rfl

theorem CP.rspMTC0_mode (rdp : CP.ProcessRdpList) (rd rt : Fin 32) (a : Arch) (sr : ℕ → Word)
    (hr : sr rt = a.sr rt) :
    (CP.rspMTC0 rdp rd rt (a.withSr sr)).2 = (CP.rspMTC0 rdp rd rt a).2 := by
  rw [CP.rspMTC0, CP.rspMTC0, CP.mtc0Value_withSr, Arch.withSr_sr, hr]

theorem CP.rspMTC0_local (rdp : CP.ProcessRdpList) (rd rt : Fin 32) :
    LocalAt (fun a => (CP.rspMTC0 rdp rd rt a).1) rt := by
  refine LocalAt.of_reads ?_ ?_
  · intro a
    have h := congrArg (fun p => p.1.sr)
      (CP.mtc0Value_withSr rdp ⟨rd.val % 16, by omega⟩ (a.sr rt) a a.sr)
    exact h
  · intro a sr hr
    simp only [CP.rspMTC0, CP.mtc0Value_withSr, Arch.withSr_sr, hr]

end ParallelRsp
