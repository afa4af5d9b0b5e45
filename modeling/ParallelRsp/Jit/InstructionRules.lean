import ParallelRsp.Jit.CacheRules
import ParallelRsp.Jit.Values

/-!
# Compiled instructions

For every instruction, what the code that `jit_instruction` emits does: from a host that
represents a state, whatever the cache holds, it leads to a host that represents the
state the reference machine goes to. `Ready` says that the host represents a state and
nothing is locked, as is the case between two instructions.
-/

namespace ParallelRsp.Jit

open Codegen

variable {T : Target}

/-- The host represents the state, and nothing is locked. -/
structure Ready (c : RegisterCache T) (h : Host T) (v : View T) : Prop where
  /-- The meaning. -/
  rep : Rep c h v
  /-- No locks. -/
  locked : Locked c []

/-- The state with a scalar register written as the machine does. -/
def View.write (v : View T) (r : Fin 32) (x : Word) : View T :=
  { v with arch := Mips.write v.arch r x }

theorem fin_lt_condBranchTaken (r : Fin 32) : r.val < condBranchTaken := r.isLt

section Steps

variable {E : Env T} {c : RegisterCache T} {h : Host T} {v : View T} {ks : List ℕ}

theorem View.reg_fin (v : View T) (r : Fin 32) : v.reg r = Mips.read v.arch r := by
  rw [View.reg, View.mem, if_neg (fin_lt_condBranchTaken r).ne, Mips.read]
  exact if_congr Fin.val_eq_zero_iff rfl rfl

theorem View.put_fin (v : View T) {r : Fin 32} (h0 : r ≠ 0) (x : Word) :
    v.put r x = v.write r x := by
  have hr := fin_lt_condBranchTaken r
  rw [View.put, if_neg hr.ne, if_pos hr, View.write, Mips.write, if_neg h0]

theorem Rep.at_holds {r : ℕ} {d : HReg} {s : SignState}
    (hR : Rep c h v) (hA : At c r d s) (hr : r ≤ condBranchTaken) :
    Holds s (h.regs d) (v.reg r) := by
  obtain ⟨i, hil, rfl, rfl, hs⟩ := hA
  have hE := hR.entry i hil
  refine ⟨hE.value hr, ?_⟩
  rcases hs with rfl | hs
  · trivial
  · rw [← hs]
    exact hE.sign hr

theorem Rep.at_fin {r : Fin 32} {d : HReg} {s : SignState} (hR : Rep c h v) (hA : At c r d s) :
    Holds s (h.regs d) (Mips.read v.arch r) := by
  have hH := hR.at_holds hA (fin_lt_condBranchTaken r).le
  rwa [v.reg_fin] at hH

/-! ### Locks given back -/

theorem falls_unlock {M : Interp (Op T) (Cond T) (Host T)}
    {r : ℕ} (hR : Rep c h v) (hL : Locked c [r]) :
    falls M (unlockMipsRegister r) (fun _ c' h' => Ready c' h' v) c h := by
  refine (falls_unlockMipsRegister hR hL (.refl _)).mono ?_
  rintro _ c' h' ⟨rfl, hR', hL', -, -⟩
  exact ⟨hR', hL'⟩

theorem falls_unlock2 {M : Interp (Op T) (Cond T) (Host T)}
    {r r' : ℕ} (hR : Rep c h v) (hL : Locked c [r, r']) :
    falls M (do unlockMipsRegister r; unlockMipsRegister r')
      (fun _ c' h' => Ready c' h' v) c h := by
  refine falls_bind ((falls_unlockMipsRegister hR hL (.refl _)).mono ?_)
  rintro _ c' h' ⟨rfl, hR', hL', -, -⟩
  exact falls_unlock hR' hL'

theorem falls_unlock3 {M : Interp (Op T) (Cond T) (Host T)} {r r' r'' : ℕ} (hR : Rep c h v)
    (hL : Locked c [r, r', r'']) :
    falls M (do unlockMipsRegister r; unlockMipsRegister r'; unlockMipsRegister r'')
      (fun _ c' h' => Ready c' h' v) c h := by
  refine falls_bind ((falls_unlockMipsRegister hR hL (.refl _)).mono ?_)
  rintro _ c' h' ⟨rfl, hR', hL', -, -⟩
  exact falls_unlock2 hR' hL'

/-! ### Operations -/

theorem falls_loadFin {ext : Extension} {r : Fin 32} (hR : Rep c h v)
    (hL : Locked c ks) (hk : ks.length < 3) :
    falls (lightning E) (loadMipsRegister ext r)
      (fun d c' h' => Rep c' h' v ∧ Locked c' (ks ++ [r.val]) ∧
        At c' r d ext.known ∧ Kept c c' ks r ext.Keeps) c h :=
  falls_loadMipsRegister hR hL (fin_lt_condBranchTaken r).le hk fun h32 =>
    absurd h32 (fin_lt_condBranchTaken r).ne

theorem falls_modifyFin {r : Fin 32} (hR : Rep c h v) (hL : Locked c ks)
    (h0 : r ≠ 0) (hk : ks.length < 3) :
    falls (lightning E) (modifyMipsRegister r)
      (fun d c' h' => h'.regs = h.regs ∧ (∀ x, Rep c' (h'.set d x) (v.write r (low x))) ∧
        Locked c' (ks ++ [r.val])) c h := by
  refine (falls_modifyMipsRegister hR hL (fun h => h0 (Fin.ext h)) hk).mono ?_
  rintro d c' h' ⟨hregs, hW, hL', -, -⟩
  refine ⟨hregs, fun x => ?_, hL'⟩
  rw [← v.put_fin h0]
  exact hW x fun h32 => absurd h32 (fin_lt_condBranchTaken r).ne

theorem low_shift (op : ShiftOp) {a b : BitVec T.wordSize} {x : Word} {n : ℕ}
    (ha : Holds (ShiftOp.extension op).known a x) (hb : b.toNat = n) :
    low ((ShiftOp.binOp op).eval a b) = Mips.shift op x n := by
  subst hb
  cases op with
  | sll =>
    rw [← ha.1]
    exact low_shiftLeft a _
  | srl => exact ha.srl _
  | sra => exact ha.sra _

theorem falls_emitShift (hS : Ready c h v) (op : ShiftOp) (rd rt sa : Fin 32) :
    falls (lightning E) (emitShift op rd rt sa)
      (fun _ c' h' => Ready c' h' (v.write rd (Mips.shift op (Mips.read v.arch rt) sa))) c h := by
  refine falls_when (fun h0 => ?_) (fun h0 => ?_)
  · refine falls_bind ((falls_loadFin hS.rep hS.locked (by simp)).mono ?_)
    rintro b c₁ h₁ ⟨hR₁, hL₁, hA₁, -⟩
    have hB := hR₁.at_fin hA₁
    refine falls_bind ((falls_modifyFin hR₁ hL₁ h0 (by simp)).mono ?_)
    rintro d c₂ h₂ ⟨hregs, hW, hL₂⟩
    have hR₂ := hW ((ShiftOp.binOp op).eval (h₁.regs b) (BitVec.ofNat _ sa))
    rw [low_shift op hB (toNat_ofNat_small (by omega)), ← hregs] at hR₂
    exact falls_bind (falls_op (falls_unlock2 hR₂ hL₂))
  · rw [not_not.1 h0]
    exact hS

/-- The count of a shift by a register. -/
theorem toNat_and_31 {a : BitVec T.wordSize} {x : Word} (ha : low a = x) :
    (a &&& 31#_).toNat = x.toNat % 32 := by
  have := T.wide
  have hmask := Bits.toNat_and_ones a 5 (by omega)
  rw [← ha, low, BitVec.toNat_setWidth]
  exact hmask.trans (Nat.mod_mod_of_dvd _ (by norm_num : 2 ^ 5 ∣ 2 ^ 32)).symm

/-- A scratch register is locked and written. -/
theorem falls_modifyScratch {r : ℕ} (hR : Rep c h v) (hL : Locked c ks)
    (hr : condBranchTaken < r) (hk : ks.length < 3) :
    falls (lightning E) (modifyMipsRegister r)
      (fun d c' h' => h'.regs = h.regs ∧ (∀ x, Rep c' (h'.set d x) v) ∧
        Locked c' (ks ++ [r]) ∧ Owned c' r d ∧
        Kept c c' ks r Forgets) c h := by
  refine (falls_modifyMipsRegister hR hL (Nat.ne_zero_of_lt hr) hk).mono ?_
  rintro d c' h' ⟨hregs, hW, hL', hO, hK⟩
  refine ⟨hregs, fun x => ?_, hL', hO, hK⟩
  have hW := hW x fun h32 => absurd h32 hr.ne'
  rwa [v.put_of_lt _ hr] at hW

theorem cond_lt_scratch0 : condBranchTaken < scratchRegister0 := by norm_num

theorem cond_lt_scratch1 : condBranchTaken < scratchRegister1 := by norm_num

/-- Two registers in use are in two host registers. -/
theorem At.ne {r r' : ℕ} {d d' : HReg} {s s' : SignState}
    (hA : At c r d s) (hA' : At c r' d' s') (hr : r ≠ r') :
    d ≠ d' := by
  obtain ⟨i, -, rfl, rfl, -⟩ := hA
  obtain ⟨j, -, rfl, rfl, -⟩ := hA'
  exact fun hd => hr (by rw [home_injective hd])

theorem At.forget {r : ℕ} {d : HReg} {s : SignState} (hA : At c r d s) : At c r d .unknown := by
  obtain ⟨i, hil, hir, hid, -⟩ := hA
  exact ⟨i, hil, hir, hid, .inl rfl⟩

theorem Owned.at {r : ℕ} {d : HReg} (hO : Owned c r d) : At c r d .unknown := by
  obtain ⟨i, hil, hir, hid, -⟩ := hO
  exact ⟨i, hil, hir, hid, .inl rfl⟩

theorem falls_emitShiftv (hS : Ready c h v) (op : ShiftOp) (rd rt rs : Fin 32) :
    falls (lightning E) (emitShiftv op rd rt rs)
      (fun _ c' h' => Ready c' h'
        (v.write rd (Mips.shift op (Mips.read v.arch rt)
          ((Mips.read v.arch rs).toNat % 32)))) c h := by
  refine falls_when (fun h0 => ?_) (fun h0 => ?_)
  · refine falls_bind ((falls_loadFin hS.rep hS.locked (by simp)).mono ?_)
    rintro b c₁ h₁ ⟨hR₁, hL₁, hB₁, -⟩
    refine falls_bind ((falls_loadFin hR₁ hL₁ (by simp)).mono ?_)
    rintro a c₂ h₂ ⟨hR₂, hL₂, hA₂, hK₂⟩
    have hB₂ := hK₂.stay rt (.inl (by simp)) b _ hB₁ fun _ => .inl rfl
    refine falls_bind ((falls_modifyScratch hR₂ hL₂ cond_lt_scratch0 (by simp)).mono ?_)
    rintro t c₃ h₃ ⟨hregs₃, hW₃, hL₃, hO₃, hK₃⟩
    have hB₃ := hR₂.at_fin hB₂
    have hA₃ := hR₂.at_fin hA₂
    have htb : b ≠ t :=
      ((hK₃.stay rt (.inl (by simp)) b _ (hB₂.forget) fun _ =>
        rfl).ne hO₃.at (fin_lt_condBranchTaken rt |>.trans cond_lt_scratch0).ne)
    refine falls_bind (falls_op ?_)
    refine falls_bind ((falls_unlockMipsRegister (hW₃ _) hL₃ (.swap _ _ _)).mono ?_)
    rintro _ c₄ h₄ ⟨rfl, hR₄, hL₄, -, -⟩
    refine falls_bind ((falls_modifyFin hR₄ hL₄ h0 (by simp)).mono ?_)
    rintro d c₅ h₅ ⟨hregs₅, hW₅, hL₅⟩
    have hb : h₅.regs b = h₂.regs b := by
      rw [hregs₅]
      exact (h₃.set_regs_of_ne _ htb).trans (congrFun hregs₃ b)
    have ht : h₅.regs t = h₂.regs a &&& 31#_ := by
      rw [hregs₅]
      refine (h₃.set_regs_self t _).trans ?_
      rw [hregs₃]
      rfl
    have hR₅ := hW₅ ((ShiftOp.binOp op).eval (h₅.regs b) (h₅.regs t))
    rw [low_shift op (hb ▸ hB₃) (ht ▸ toNat_and_31 hA₃.1)] at hR₅
    refine falls_bind (falls_op ?_)
    refine falls_bind ((falls_unlockMipsRegister hR₅ hL₅ (.refl _)).mono ?_)
    rintro _ c₆ h₆ ⟨rfl, hR₆, hL₆, -, -⟩
    refine falls_bind ((falls_unlockMipsRegister hR₆ hL₆ (.swap _ _ _)).mono ?_)
    rintro _ c₇ h₇ ⟨rfl, hR₇, hL₇, -, -⟩
    exact falls_unlock hR₇ hL₇
  · rw [not_not.1 h0]
    exact hS

theorem falls_threeRegOp (hS : Ready c h v) {o : BinOp}
    {ext : Extension} {f : Word → Word → Word} (rd rs rt : Fin 32)
    (hf : ∀ (a b : BitVec T.wordSize) (x y : Word), Holds ext.known a x →
      Holds ext.known b y → low (o.eval a b) = f x y) :
    falls (lightning E) (threeRegOp o ext rd rs rt)
      (fun _ c' h' => Ready c' h'
        (v.write rd (f (Mips.read v.arch rs) (Mips.read v.arch rt)))) c h := by
  refine falls_when (fun h0 => ?_) (fun h0 => ?_)
  · refine falls_bind ((falls_loadFin hS.rep hS.locked (by simp)).mono ?_)
    rintro a c₁ h₁ ⟨hR₁, hL₁, hA₁, -⟩
    refine falls_bind ((falls_loadFin hR₁ hL₁ (by simp)).mono ?_)
    rintro b c₂ h₂ ⟨hR₂, hL₂, hB₂, hK₂⟩
    have hA₂ := hK₂.stay rs (.inl (by simp)) a _ hA₁ fun _ => .inr (.inr rfl)
    refine falls_bind ((falls_modifyFin hR₂ hL₂ h0 (by simp)).mono ?_)
    rintro d c₃ h₃ ⟨hregs, hW, hL₃⟩
    have hR₃ := hW (o.eval (h₂.regs a) (h₂.regs b))
    rw [hf _ _ _ _ (hR₂.at_fin hA₂) (hR₂.at_fin hB₂), ← hregs] at hR₃
    exact falls_bind (falls_op (falls_unlock3 hR₃ hL₃))
  · rw [not_not.1 h0]
    exact hS

theorem falls_emitNor (hS : Ready c h v) (rd rs rt : Fin 32) :
    falls (lightning E) (emitNor rd rs rt)
      (fun _ c' h' => Ready c' h'
        (v.write rd (~~~(Mips.read v.arch rs ||| Mips.read v.arch rt)))) c h := by
  refine falls_when (fun h0 => ?_) (fun h0 => ?_)
  · refine falls_bind ((falls_loadFin hS.rep hS.locked (by simp)).mono ?_)
    rintro b c₁ h₁ ⟨hR₁, hL₁, hB₁, -⟩
    refine falls_bind ((falls_loadFin hR₁ hL₁ (by simp)).mono ?_)
    rintro a c₂ h₂ ⟨hR₂, hL₂, hA₂, hK₂⟩
    have hB₂ := hK₂.stay rt (.inl (by simp)) b _ hB₁ fun _ => .inl rfl
    refine falls_bind ((falls_modifyFin hR₂ hL₂ h0 (by simp)).mono ?_)
    rintro d c₃ h₃ ⟨hregs, hW, hL₃⟩
    refine falls_bind (falls_op (falls_bind (falls_op ?_)))
    have hR₃ := hW ((h₃.regs b ||| h₃.regs a) ^^^ BitVec.allOnes _)
    have hval : low ((h₃.regs b ||| h₃.regs a) ^^^ BitVec.allOnes T.wordSize) =
        ~~~(Mips.read v.arch rs ||| Mips.read v.arch rt) := by
      rw [BitVec.xor_allOnes, low_not, low_or, hregs, (hR₂.at_fin hA₂).1,
        (hR₂.at_fin hB₂).1, BitVec.or_comm]
    rw [hval] at hR₃
    have hset : stepOp E (.bini .xor d d (BitVec.allOnes _)) (stepOp E (.binr .or d b a) h₃) =
        h₃.set d ((h₃.regs b ||| h₃.regs a) ^^^ BitVec.allOnes _) := by
      simp [stepOp, BinOp.eval]
    rw [← hset] at hR₃
    exact falls_unlock3 hR₃ hL₃
  · rw [not_not.1 h0]
    exact hS

theorem falls_emitAlu (hS : Ready c h v) (op : AluOp) (rd rs rt : Fin 32) :
    falls (lightning E) (emitAlu op rd rs rt)
      (fun _ c' h' => Ready c' h'
        (v.write rd (Mips.alu op (Mips.read v.arch rs) (Mips.read v.arch rt)))) c h := by
  cases op with
  | add =>
      exact falls_threeRegOp hS rd rs rt fun a b _ _ ha hb => by
        rw [← ha.1, ← hb.1]; exact low_add a b
  | sub =>
      exact falls_threeRegOp hS rd rs rt fun a b _ _ ha hb => by
        rw [← ha.1, ← hb.1]; exact low_sub a b
  | and =>
      exact falls_threeRegOp hS rd rs rt fun a b _ _ ha hb => by
        rw [← ha.1, ← hb.1]; exact low_and a b
  | or =>
      exact falls_threeRegOp hS rd rs rt fun a b _ _ ha hb => by
        rw [← ha.1, ← hb.1]; exact low_or a b
  | xor =>
      exact falls_threeRegOp hS rd rs rt fun a b _ _ ha hb => by
        rw [← ha.1, ← hb.1]; exact low_xor a b
  | nor => exact falls_emitNor hS rd rs rt
  | slt =>
    refine falls_threeRegOp hS rd rs rt fun a b x y ha hb => ?_
    rw [Mips.alu, ← ha.slt hb]
    exact low_flag _
  | sltu =>
    refine falls_threeRegOp hS rd rs rt fun a b x y ha hb => ?_
    rw [Mips.alu, ← ha.zext_ult hb]
    exact low_flag _

/-! ### Immediates -/

theorem falls_twoRegImmOp (hS : Ready c h v) {o : BinOp}
    {ext : Extension} {y : BitVec T.wordSize} {f : Word → Word}
    (rt rs : Fin 32) (hf : ∀ (a : BitVec T.wordSize) (x : Word), Holds ext.known a x →
      low (o.eval a y) = f x) :
    falls (lightning E) (twoRegImmOp o y ext rt rs)
      (fun _ c' h' => Ready c' h' (v.write rt (f (Mips.read v.arch rs)))) c h := by
  refine falls_when (fun h0 => ?_) (fun h0 => ?_)
  · refine falls_bind ((falls_loadFin hS.rep hS.locked (by simp)).mono ?_)
    rintro a c₁ h₁ ⟨hR₁, hL₁, hA₁, -⟩
    refine falls_bind ((falls_modifyFin hR₁ hL₁ h0 (by simp)).mono ?_)
    rintro d c₂ h₂ ⟨hregs, hW, hL₂⟩
    have hR₂ := hW (o.eval (h₁.regs a) y)
    rw [hf _ _ (hR₁.at_fin hA₁), ← hregs] at hR₂
    exact falls_bind (falls_op (falls_unlock2 hR₂ hL₂))
  · rw [not_not.1 h0]
    exact hS

theorem falls_emitConstant (hS : Ready c h v) (rt : Fin 32)
    {y : BitVec T.wordSize} (hy : HasSign .sExt y) :
    falls (lightning E) (emitConstant rt y) (fun _ c' h' =>
      Ready c' h' (v.write rt (low y))) c h := by
  refine falls_when (fun h0 => ?_) (fun h0 => ?_)
  · refine falls_bind
      ((falls_immediateMipsRegister hS.rep hS.locked (fun h =>
        h0 (Fin.ext h)) (by simp) hy).mono ?_)
    rintro _ c₁ h₁ ⟨hR₁, hL₁⟩
    rw [v.put_fin h0] at hR₁
    exact falls_unlock hR₁ hL₁
  · rw [not_not.1 h0]
    exact hS

theorem read_zero (a : Arch) : Mips.read a 0 = 0#32 := rfl

theorem setWidth_setWidth_of_ge {n m k : ℕ} (x : BitVec n) (h : n ≤ m) :
    (x.setWidth m).setWidth k = x.setWidth k := by
  apply BitVec.eq_of_toNat_eq
  rw [BitVec.toNat_setWidth, BitVec.toNat_setWidth_of_le h, BitVec.toNat_setWidth]

/-- A number of at most 31 bits is its own sign extension. -/
theorem hasSign_setWidth {n : ℕ} (x : BitVec n) (hn : n < 32) :
    HasSign .sExt (x.setWidth T.wordSize) := by
  have hmsb : (x.setWidth 32).msb = false := by
    rw [BitVec.msb_eq_decide, decide_eq_false_iff_not, BitVec.toNat_setWidth_of_le hn.le]
    have hx := x.isLt
    have hpow : 2 ^ n ≤ 2 ^ 31 := Nat.pow_le_pow_right (by norm_num) (by omega)
    omega
  rw [HasSign, low_setWidth, extend, if_pos rfl, BitVec.signExtend_eq_setWidth_of_msb_false hmsb,
    setWidth_setWidth_of_ge x hn.le]

theorem falls_emitImm (hS : Ready c h v) (op : ImmOp) (rt rs : Fin 32) (x : BitVec 16) :
    falls (lightning E) (emitImm op rt rs x)
      (fun _ c' h' => Ready c' h' (v.write rt (Mips.imm op (Mips.read v.arch rs) x))) c h := by
  cases op with
  | addi =>
    rw [emitImm]
    split
    · rename_i h0
      subst h0
      have hf := falls_emitConstant (E := E) hS rt (holds_signExtend (T := T) x (by norm_num)).2
      rw [low_signExtend] at hf
      rwa [read_zero, Mips.imm.eq_1, BitVec.zero_add]
    · refine falls_twoRegImmOp (f := fun z => Mips.imm .addi z x) hS rt rs fun a z ha => ?_
      rw [Mips.imm.eq_1, ← ha.1, ← low_signExtend (T := T)]
      exact low_add a _
  | slti =>
    refine falls_twoRegImmOp (f := fun z => Mips.imm .slti z x) hS rt rs fun a z ha => ?_
    rw [Mips.imm.eq_2, ← ha.slt (holds_signExtend x (by norm_num))]
    exact low_flag _
  | sltiu =>
    refine falls_twoRegImmOp (f := fun z => Mips.imm .sltiu z x) hS rt rs fun a z ha => ?_
    rw [Mips.imm.eq_3, ← ha.sext_ult (holds_signExtend x (by norm_num))]
    exact low_flag _
  | andi =>
    refine falls_twoRegImmOp (f := fun z => Mips.imm .andi z x) hS rt rs fun a z ha => ?_
    rw [Mips.imm.eq_4, ← ha.1, ← low_setWidth (T := T)]
    exact low_and a _
  | ori =>
    rw [emitImm]
    split
    · rename_i h0
      subst h0
      have hf := falls_emitConstant (E := E) hS rt (hasSign_setWidth (T := T) x (by norm_num))
      rw [low_setWidth] at hf
      rwa [read_zero, Mips.imm.eq_5, BitVec.zero_or]
    · refine falls_twoRegImmOp (f := fun z => Mips.imm .ori z x) hS rt rs fun a z ha => ?_
      rw [Mips.imm.eq_5, ← ha.1, ← low_setWidth (T := T)]
      exact low_or a _
  | xori =>
    refine falls_twoRegImmOp (f := fun z => Mips.imm .xori z x) hS rt rs fun a z ha => ?_
    rw [Mips.imm.eq_6, ← ha.1, ← low_setWidth (T := T)]
    exact low_xor a _

end Steps

end ParallelRsp.Jit
