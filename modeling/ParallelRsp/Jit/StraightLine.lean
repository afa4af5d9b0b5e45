import ParallelRsp.Jit.Emission

/-!
# The register cache is invisible

Instructions without branches and exits, compiled one after another with one register cache,
against an interpreter that keeps the 32 registers in memory. `Intact` spells out what `Rep`
means for the registers: it holds behind every instruction, whatever the cache had to evict
for it, and at every call of a helper the register that the helper sees is in memory.

Hosts of 64 bits have no `__stdcall`, so there an access that is not aligned goes wrong. They are
the exception, and the only one.
-/

namespace ParallelRsp

/-! ### Straight-line code -/

/-- The instruction neither branches nor leaves. -/
def Instr.isStraight : Instr → Bool
  | .jr _ | .jalr _ _ | .j _ | .jal _ | .regimm _ _ _ _ |
      .beq _ _ _ | .bne _ _ _ | .blez _ _ | .bgtz _ _
  | .break | .mfc0 _ _ | .mtc0 _ _ => false
  | _ => true

/-- The helper that is called for an instruction. -/
def Instr.callee : Instr → Option Jit.Callee
  | .vu op e vd vs vt => some (.vu op e vd vs vt)
  | .mfc2 rt rd e => some (.mfc2 rt rd e)
  | .mtc2 rt rd e => some (.mtc2 rt rd e)
  | .cfc2 rt rd => some (.cfc2 rt rd)
  | .ctc2 rt rd => some (.ctc2 rt rd)
  | .lwc2 op e rt rs offset => some (.lwc2 op e rt rs offset)
  | .swc2 op e rt rs offset => some (.swc2 op e rt rs offset)
  | _ => none

namespace Jit

open Codegen

variable {T : Target} {E : Env T} {c : RegisterCache T} {h : Host T} {v : View T}

/-- The interpreter. -/
def interpret (H : Helpers) : Word → List Instr → Arch → Arch
  | _, [], a => a
  | pc, i :: is, a => interpret H (pc + 4#32) is (Mips.exec H pc i a).1

/-- The compiler. -/
def compile : Word → List Instr → Gen T Unit
  | _, [] => pure ()
  | pc, i :: is => do
    let _ ← jitInstruction pc i {} false false
    compile (pc + 4#32) is

/-- Compiled code with all registers written back. -/
def compileAll (pc : Word) (is : List Instr) : Gen T Unit := do
  compile pc is
  flushRegisterWindow

/-! ### The invariant -/

/-- The host, read through the cache, has the registers and the DMEM of the interpreter. -/
structure Intact (c : RegisterCache T) (h : Host T) (a : Arch) : Prop where
  /-- No two live entries hold the same register. -/
  distinct : ∀ i j, (c.entries i).isLive → (c.entries j).isLive →
    (c.entries i).mipsRegister = (c.entries j).mipsRegister → i = j
  /-- The value of a register is in its entry, -/
  cached : ∀ i, (c.entries i).isLive → ∀ r : Fin 32, (c.entries i).mipsRegister = r →
    low (h.regs (home i)) = Mips.read a r
  /-- or else in memory. -/
  memory : ∀ r : Fin 32, r ≠ 0 → (∀ i, (c.entries i).isLive → (c.entries i).mipsRegister ≠ r) →
    h.st.sr r = a.sr r
  /-- An entry that is tagged as extended is. -/
  sign : ∀ i, (c.entries i).isLive → (c.entries i).mipsRegister < 32 →
    HasSign (c.entries i).sign (h.regs (home i))
  /-- An entry that is not modified is what memory has. -/
  clean : ∀ i, (c.entries i).isLive → ¬(c.entries i).modified → ∀ r :
    Fin 32, r ≠ 0 → (c.entries i).mipsRegister = r →
    h.st.sr r = low (h.regs (home i))
  /-- Register 0 is not modified. -/
  zero : ∀ i, (c.entries i).isLive → (c.entries i).mipsRegister = 0 → ¬(c.entries i).modified
  /-- DMEM. -/
  dmem : h.st.dmem = a.dmem

theorem Rep.intact (hR : Rep c h v) : Intact c h v.arch where
  distinct := hR.distinct
  cached i hil r hir := by
    rw [← v.reg_fin, ← hir]
    refine (hR.entry i hil).value ?_
    rw [hir]
    exact (fin_lt_condBranchTaken r).le
  memory r _ hno := by
    refine (hR.memory r (fin_lt_condBranchTaken r).le fun i ho => hno i ho.1 ho.2.1).trans ?_
    exact if_neg (fin_lt_condBranchTaken r).ne
  sign i hil hir := (hR.entry i hil).sign hir.le
  clean i hil hmod r h0 hir := by
    have hle : r.val ≤ condBranchTaken := (fin_lt_condBranchTaken r).le
    have h0' : r.val ≠ 0 := fun hn => h0 (Fin.ext hn)
    have hvalue := (hR.entry i hil).value (hir ▸ hle)
    rw [hvalue, hir, View.reg, if_neg h0']
    refine hR.memory r hle ?_
    -- another entry that owes the register would be this one
    rintro j ⟨hjl, hjr, hjm⟩
    rw [hR.distinct j i hjl hil (hjr.trans hir.symm)] at hjm
    exact hmod hjm
  zero i hil hir := ((hR.entry i hil).zero hir).1
  dmem := by
    rw [hR.rest]
    rfl

/-! ### One instruction -/

theorem exec_straight_mode {H : Helpers} {pc : Word} {i : Instr} {a : Arch} (hi : i.isStraight) :
    (Mips.exec H pc i a).2 = .continue := by
  cases i with
  | «break» | mfc0 rt rd | mtc0 rt rd => cases hi
  | _ => rfl

/-- The code of a straight instruction falls out of its end with what the instruction does. -/
theorem falls_jitInstruction {i : Instr} (hi : i.isStraight) (hserves : E.Serves i v.arch)
    (hS : Ready c h v) (pc : Word) (last : InstructionInfo) (first nextIsTarget : Bool) :
    falls (lightning E) (jitInstruction pc i last first nextIsTarget)
      (fun _ c' h' => ∃ v', Ready c' h' v' ∧
        v'.arch = (Mips.exec E.toHelpers pc i v.arch).1) c h := by
  refine (wp_jitInstruction hS pc i last first nextIsTarget hserves).mono ?_
  rintro info c' o ⟨-, ho⟩
  cases o with
  | fall h' =>
    obtain ⟨-, v', hS', hx⟩ := ho
    exact ⟨h', rfl, v', hS', hx.arch⟩
  | goto l h' => exact ho.elim
  | leave x h' =>
    cases x with
    | enterThunk => exact ho.elim
    | returnThunk => exact absurd (exec_straight_mode hi) ho.1

/-- Every function that is called for an access finds its arguments. -/
def ServesAll (E : Env T) (pc : Word) (is : List Instr) (a : Arch) : Prop :=
  ∀ xs i ys, is = xs ++ i :: ys → E.Serves i (interpret E.toHelpers pc xs a)

theorem ServesAll.head {i : Instr} {is : List Instr} {pc : Word} {a : Arch}
    (hs : ServesAll E pc (i :: is) a) : E.Serves i a := hs [] i is rfl

theorem ServesAll.tail {i : Instr} {is : List Instr} {pc : Word} {a : Arch}
    (hs : ServesAll E pc (i :: is) a) :
    ServesAll E (pc + 4#32) is (Mips.exec E.toHelpers pc i a).1 := by
  rintro xs j ys rfl
  exact hs (i :: xs) j ys rfl

theorem ServesAll.prefix {xs ys : List Instr} {pc : Word} {a : Arch}
    (hs : ServesAll E pc (xs ++ ys) a) : ServesAll E pc xs a := by
  rintro zs i us rfl
  exact hs zs i (us ++ ys) (List.append_assoc zs (i :: us) ys)

theorem falls_compile {is : List Instr} (his : ∀ i ∈ is, i.isStraight) (hS : Ready c h v)
    (pc : Word) (hserves : ServesAll E pc is v.arch) :
    falls (lightning E) (compile pc is)
      (fun _ c' h' => ∃ v', Ready c' h' v' ∧ v'.arch = interpret E.toHelpers pc is v.arch) c h := by
  induction is generalizing c h v pc with
  | nil => exact falls_pure ⟨v, hS, rfl⟩
  | cons i is ih =>
    obtain ⟨hi, his'⟩ := List.forall_mem_cons.1 his
    refine falls_bind ((falls_jitInstruction hi hserves.head hS pc {} false false).mono ?_)
    rintro _ c₁ h₁ ⟨v₁, hS₁, harch₁⟩
    refine (ih his' hS₁ (pc + 4#32) (harch₁ ▸ hserves.tail)).mono ?_
    rintro _ c₂ h₂ ⟨v₂, hS₂, harch₂⟩
    refine ⟨v₂, hS₂, ?_⟩
    rw [harch₂, harch₁, interpret]

theorem falls_compileAll {is : List Instr} (his : ∀ i ∈ is, i.isStraight)
    (hS : Ready c h v) (pc : Word) (hserves : ServesAll E pc is v.arch) :
    falls (lightning E) (compileAll pc is)
      (fun _ c' h' => ∃ v', Rep c' h' v' ∧ Empty c' ∧
        v'.arch = interpret E.toHelpers pc is v.arch) c h := by
  refine falls_bind ((falls_compile his hS pc hserves).mono ?_)
  rintro _ c₁ h₁ ⟨v₁, hS₁, harch₁⟩
  refine (falls_flush hS₁).mono ?_
  rintro _ c₂ h₂ ⟨-, hR₂, he₂⟩
  exact ⟨v₁, hR₂, he₂, harch₁⟩

/-! ### Calls that do not find their arguments -/

section Stray

variable {mem : ℕ → Byte}

/-- Every call of a function for an unaligned access leaves the same in DMEM. -/
def Leaves (E : Env T) (mem : ℕ → Byte) : Prop :=
  ∀ f h, stepOp E (.callUnaligned f) h = { h with ret := 0#_, st := { h.st with dmem := mem } }

theorem Leaves.store (hmem : Leaves E mem) (op : StoreOp) (addr y : Word) :
    StoreLeaves E v op addr y mem := by
  intro c h t d stack hR _ _ _ _
  rw [hmem]
  exact (hR.setDmem mem).setRet 0#_

theorem Leaves.load (hmem : Leaves E mem) (op : LoadOp) (addr : Word) :
    LoadLeaves E v op addr mem 0#32 := by
  intro c h t stack hR _ _ _
  rw [hmem]
  exact ⟨(hR.setDmem mem).setRet 0#_, low_zero⟩

theorem View.write_dmem (v : View T) (r : Fin 32) (x : Word) :
    (v.write r x).arch.dmem = v.arch.dmem := by
  rw [View.write, Mips.write]
  dsimp only
  split <;> rfl

/-- The unaligned access of an instruction has what its call has done. -/
theorem falls_unaligned (hmem : Leaves E mem) {i : Instr} (hu : CallsUnaligned i v.arch)
    (hS : Ready c h v) (pc : Word) (last : InstructionInfo) (first nextIsTarget : Bool) :
    falls (lightning E) (jitInstruction pc i last first nextIsTarget)
      (fun _ c' h' => ∃ v', Ready c' h' v' ∧ v'.arch.dmem = mem) c h := by
  cases i with
  | load op rt rs x =>
    exact falls_bind ((falls_load hS op rt rs x (absurd hu) fun _ =>
      hmem.load op _).mono fun _ _ _ hS' => falls_pure ⟨_, hS', View.write_dmem _ _ _⟩)
  | store op rt rs x =>
    exact falls_bind ((falls_store hS op rt rs x (absurd hu) fun _ =>
      hmem.store op _ _).mono fun _ _ _ hS' => falls_pure ⟨_, hS', rfl⟩)
  | _ => exact hu.elim

theorem falls_compile_unaligned (hmem : Leaves E mem) {xs : List Instr} {i : Instr}
    (hxs : ∀ j ∈ xs, j.isStraight) (hS : Ready c h v) (pc : Word)
    (hserves : ServesAll E pc xs v.arch)
    (hu : CallsUnaligned i (interpret E.toHelpers pc xs v.arch)) :
    falls (lightning E) (compile pc (xs ++ [i])) (fun _ _ h' => h'.st.dmem = mem) c h := by
  induction xs generalizing c h v pc with
  | nil =>
    refine falls_bind ((falls_unaligned hmem hu hS pc {} false false).mono ?_)
    rintro _ c' h' ⟨v', hS', hd⟩
    exact falls_pure (hS'.rep.dmem_eq.trans hd)
  | cons j xs ih =>
    obtain ⟨hj, hxs'⟩ := List.forall_mem_cons.1 hxs
    refine falls_bind ((falls_jitInstruction hj hserves.head hS pc {} false false).mono ?_)
    rintro _ c₁ h₁ ⟨v₁, hS₁, harch₁⟩
    rw [interpret, ← harch₁] at hu
    exact ih hxs' hS₁ (pc + 4#32) (harch₁ ▸ hserves.tail) hu

end Stray

/-! ### Calls -/

theorem jitInstruction_callee {i : Instr} {f : Callee} (hf : i.callee = some f) (pc : Word)
    (last : InstructionInfo) (first nextIsTarget : Bool) :
    (jitInstruction pc i last first nextIsTarget : Gen T InstructionInfo) =
      (do
        emitCall f f.register
        pure {}) := by
  cases i with
  | vu op e vd vs vt | mfc2 rt rd e | mtc2 rt rd e | cfc2 rt rd | ctc2 rt rd
  | lwc2 op e rt rs offset | swc2 op e rt rs offset =>
    cases hf
    rfl
  | _ => cases hf

/-- The last instruction of a piece of code without branches. -/
def lastOp : HostCode T → Option (Op T)
  | .op i => some i
  | .seq a b => (lastOp b).or (lastOp a)
  | _ => none

/-- The helper neither reads nor writes register `r`. -/
def Callee.Ignores (H : Helpers) (f : Callee) (r : ℕ) : Prop :=
  ∀ (a : Arch) (x : Word), f.run H (a.withSr (Function.update a.sr r x)) =
    ((f.run H a).1.withSr (Function.update (f.run H a).1.sr r x), (f.run H a).2)

theorem Callee.ignores (H : Helpers) {f : Callee} {r : ℕ}
    (hr : ∀ r' : Fin 32, f.register = some r' → r ≠ r') :
    f.Ignores H r := by
  intro a x
  by_cases hreg : r = f.register.getD 0
  · cases f with
    | vu op e vd vs vt => rfl
    | _ => exact absurd hreg (hr _ rfl)
  · have hsr : Function.update a.sr r x (f.register.getD 0) = a.sr (f.register.getD 0) :=
      Function.update_of_ne (Ne.symm hreg) _ _
    refine Prod.ext ?_ (f.run_mode H a _ hsr)
    refine (f.localAt H a _ hsr).trans (congrArg (Arch.withSr _) ?_)
    funext k
    by_cases hk : k = f.register.getD 0
    · rw [hk, Function.update_self, Function.update_of_ne (Ne.symm hreg)]
    · rw [Function.update_of_ne hk]
      by_cases hkr : k = r
      · rw [hkr, Function.update_self, Function.update_self]
      · rw [Function.update_of_ne hkr, Function.update_of_ne hkr, (f.localAt H).sr_eq a hk]

/-- The call is the last thing that is emitted, and nothing is cached there that
the helper reads or writes. -/
theorem jitInstruction_call (H : Helpers) {i : Instr} {f : Callee}
    (hf : i.callee = some f) (hS : Ready c h v)
    (pc : Word) (last : InstructionInfo) (first nextIsTarget : Bool) :
    ∃ k c', jitInstruction pc i last first nextIsTarget c = some ({}, k, c') ∧
      lastOp k = some (.call f) ∧
      ∀ j, (c'.entries j).isLive → f.Ignores H (c'.entries j).mipsRegister := by
  rw [jitInstruction_callee hf, emitCall]
  obtain ⟨_, k, c₁, hk, -, h₁, -, hF₁, -⟩ :=
    falls_flushCallerSaveRegisters (E := Env.simple) hS.rep hS.locked
  cases hreg : f.register with
  | none =>
    exact ⟨_, c₁, Emit.bind_apply (Emit.bind_apply hk rfl) rfl, rfl,
      fun j _ => f.ignores H fun r hr => nomatch hreg.symm.trans hr⟩
  | some r =>
    obtain ⟨_, k', c₂, hk', -, h₂, -, -, hnone⟩ :=
      falls_flushMipsRegister (E := Env.simple) (r := r) hF₁.rep hF₁.locked
    refine ⟨_, c₂, Emit.bind_apply (Emit.bind_apply hk (Emit.bind_apply hk' rfl)) rfl, rfl,
      fun j hj => f.ignores H fun r' hr' => ?_⟩
    obtain rfl := Option.some.inj (hreg.symm.trans hr')
    exact hnone j hj

/-- The register cache is invisible in straight-line code. With everything written back, compiled
code leaves the registers and the DMEM of the interpreter. Between any two instructions the cache
and memory together are what the interpreter has, and no helper reads or writes a register that
is cached when it is called. -/
structure CacheInvisible (E : Env T) (pc : Word) (is : List Instr) (h : Host T) : Prop where
  /-- What is left in the end. -/
  final : ∃ k c' h', compileAll pc is {} = some ((), k, c') ∧ exec (lightning E) k h = .fall h' ∧
    (∀ r : Fin 32, r ≠ 0 → h'.st.sr r = (interpret E.toHelpers pc is h.st.toArch).sr r) ∧
    h'.st.dmem = (interpret E.toHelpers pc is h.st.toArch).dmem
  /-- What holds in between. -/
  between : ∀ xs ys, is = xs ++ ys → ∃ k c' h', compile pc xs {} = some ((), k, c') ∧
    exec (lightning E) k h = .fall h' ∧
    Intact c' h' (interpret E.toHelpers pc xs h.st.toArch) ∧
    ∀ i f, ys.head? = some i → i.callee = some f → ∃ k' c'',
      jitInstruction (pc + BitVec.ofNat 32 (4 * xs.length)) i {} false false c' =
        some ({}, k', c'') ∧
      lastOp k' = some (.call f) ∧
      ∀ j, (c''.entries j).isLive → f.Ignores E.toHelpers (c''.entries j).mipsRegister

/-- It is, if every function that is called for an access finds its arguments. -/
theorem ServesAll.invisible {pc : Word} {is : List Instr} (his : ∀ i ∈ is, i.isStraight)
    (hserves : ServesAll E pc is h.st.toArch) : CacheInvisible E pc is h := by
  have hS : Ready {} h h.view := empty_default.ready (empty_default.clean.rep h)
  constructor
  · obtain ⟨_, k, c', hk, -, h', hx, v', hR, he, harch⟩ := falls_compileAll his hS pc hserves
    have hI := hR.intact
    rw [harch] at hI
    exact ⟨k, c', h', hk, hx, fun r h0 => hI.memory r h0 fun i hil =>
      absurd hil (he.clean i), hI.dmem⟩
  · rintro xs ys rfl
    have hxs : ∀ i ∈ xs, i.isStraight := fun i hi => his i (List.mem_append_left ys hi)
    obtain ⟨_, k, c', hk, -, h', hx, v', hS', harch⟩ := falls_compile hxs hS pc hserves.prefix
    exact ⟨k, c', h', hk, hx, harch ▸ hS'.rep.intact, fun i f _ hf =>
      jitInstruction_call E.toHelpers hf hS' _ _ _ _⟩

/-- On other hosts than those of 32 bits a call can leave in DMEM what nobody wants there. -/
theorem exists_leaves (H : Helpers) (h32 : T.wordSize ≠ 32) (mem : ℕ → Byte) :
    ∃ E : Env T, ∃ bad, E.toHelpers = H ∧ Leaves E bad ∧ bad ≠ mem := by
  have hne : ∀ x : Byte, x + 1#8 ≠ x := by decide
  refine ⟨{ H with
    clobber := fun _ _ => 0#_
    stray := fun _ h => { h with ret := 0#_, st := { h.st with dmem := fun k => mem k + 1#8 } } },
    _, rfl, fun f h => if_neg h32, fun heq => hne (mem 0) (congrFun heq 0)⟩

/-- It is not, if a call that does not find its arguments leaves something else in DMEM. -/
theorem not_cacheInvisible (H : Helpers) (h32 : T.wordSize ≠ 32) {pc : Word} {xs : List Instr}
    {i : Instr} (ys : List Instr) (hxs : ∀ j ∈ xs, j.isStraight)
    (hserves : ∀ E : Env T, E.toHelpers = H → ServesAll E pc xs h.st.toArch)
    (hu : CallsUnaligned i (interpret H pc xs h.st.toArch)) :
    ∃ E : Env T, E.toHelpers = H ∧ ¬CacheInvisible E pc (xs ++ i :: ys) h := by
  obtain ⟨E, bad, rfl, hmem, hbad⟩ :=
    exists_leaves (T := T) H h32 (interpret H pc (xs ++ [i]) h.st.toArch).dmem
  refine ⟨E, rfl, fun hI => hbad ?_⟩
  have hS : Ready {} h h.view := empty_default.ready (empty_default.clean.rep h)
  obtain ⟨_, k, c', hk, -, h', hx, hd⟩ :=
    falls_compile_unaligned hmem hxs hS pc (hserves E rfl) hu
  obtain ⟨k₁, c₁, h₁, hk₁, hx₁, hint, -⟩ := hI.between (xs ++ [i]) ys (List.append_cons xs i ys)
  cases hk₁.symm.trans hk
  cases hx₁.symm.trans hx
  exact hd.symm.trans hint.dmem

/-- **When the register cache is invisible**, whatever the `R` registers hold behind a call and
whatever a function does that does not find its arguments: on a host of 32 bits always, and on other
hosts as long as no access is executed that is not aligned. -/
theorem cache_invisible_iff (H : Helpers) (pc : Word) (is : List Instr)
    (his : ∀ i ∈ is, i.isStraight) (h : Host T) :
    (∀ E : Env T, E.toHelpers = H → CacheInvisible E pc is h) ↔
      T.wordSize = 32 ∨
        ∀ xs i ys, is = xs ++ i :: ys → ¬CallsUnaligned i (interpret H pc xs h.st.toArch) := by
  constructor
  · intro hI
    refine or_iff_not_imp_left.2 fun h32 xs => ?_
    induction hn : xs.length using Nat.strong_induction_on generalizing xs with
    | _ n ih =>
      subst hn
      rintro i ys rfl hu
      have hxs : ∀ j ∈ xs, j.isStraight := fun j hj => his j (List.mem_append_left _ hj)
      -- no access in front of this one is unaligned
      have hserves (E : Env T) (hE : E.toHelpers = H) : ServesAll E pc xs h.st.toArch := by
        subst hE
        rintro zs j us rfl
        refine .inr (ih zs.length ?_ zs rfl j (us ++ i :: ys) ?_)
        · rw [List.length_append, List.length_cons]
          omega
        · rw [List.append_assoc, List.cons_append]
      obtain ⟨E, rfl, hno⟩ := not_cacheInvisible H h32 ys hxs hserves hu
      exact hno (hI E rfl)
  · rintro hor E rfl
    exact ServesAll.invisible his fun xs i ys hxs =>
      E.serves_of (hor.imp_right fun hall => hall xs i ys hxs)

/-- `ADDI $8, $0, 1; LW $9, 2($8); SRA $9, $9, 3; MTC2 $9; SH $9, 0($8)`. -/
def straightInstrs : List Instr :=
  [.imm .addi 8 0 1#16, .load .lw 9 8 2#16, .shift .sra 9 9 3, .mtc2 9 0 0, .store .sh 9 8 0#16]

theorem straightInstrs_cache :
    CacheInvisible smallEnv 0#32 straightInstrs (Host.zero : Host smallTarget) :=
  (cache_invisible_iff smallEnv.toHelpers 0#32 straightInstrs (by decide) Host.zero).2 (.inl rfl)
    smallEnv rfl

/-- A host of 64 bits. -/
def wideTarget : Target := ⟨64, 2, 2, by decide, smallTarget.enough⟩

/-- Its helpers; a function that does not find its arguments leaves DMEM alone. -/
def wideEnv : Env wideTarget := { (Env.simple : Env wideTarget) with stray := fun _ h => h }

/-- `ADDI $2, $0, 1; SW $2, 1($0)`. -/
def unalignedInstrs : List Instr := [.imm .addi 2 0 1#16, .store .sw 2 0 1#16]

/-- The store is lost. -/
theorem unalignedInstrs_lost : (∀ i ∈ unalignedInstrs, i.isStraight) ∧
    ¬CacheInvisible wideEnv 0#32 unalignedInstrs (Host.zero : Host wideTarget) := by
  refine ⟨by decide, fun hI => ?_⟩
  obtain ⟨k, c', h', hk, hx, -, hd⟩ := hI.final
  have hlost : (compileAll (T := wideTarget) 0#32 unalignedInstrs {}).map (fun r =>
      match exec (lightning wideEnv) r.2.1 Host.zero with
      | .fall h' => h'.st.dmem 7
      | .goto _ _ | .leave _ _ => 0#8) = some 0#8 := by decide
  rw [hk, Option.map_some, hx] at hlost
  have hlost' := Option.some.inj hlost
  have hstored : (interpret wideEnv.toHelpers 0#32 unalignedInstrs
      (Host.zero : Host wideTarget).st.toArch).dmem 7 = 1#8 := by decide
  exact absurd (hstored.symm.trans ((congrFun hd 7).symm.trans hlost')) (by decide)

end Jit

end ParallelRsp
