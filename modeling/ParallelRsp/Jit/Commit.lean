import ParallelRsp.Jit.Allocator

/-!
# Committing compiled code

`init_jit_thunks` and `jit_region` allocate a range for the data and one for the code of
what they compiled, have Lightning write both, and commit them. Lightning changes no
protection of a buffer that it was given, so it is left to `commit` that the code may be
executed. Its conditional expressions keep `ok` where it is true, and true is what it starts
as: no call of the system is made (`Config.commit_eq`), and the ranges stay readable and
writable. It does what it says of empty ranges only (`commit_protects_iff`).
-/

namespace ParallelRsp.Allocator

open Pages

/-! ### The callers -/

/-- What is compiled, with the sizes that `jit_get_code` and `jit_get_data` return. -/
inductive Emission where
  | initJitThunks (codeSize dataSize noteSize : ℕ)
  | jitRegion (codeSize dataSize noteSize : ℕ)
  deriving DecidableEq, Repr

/-- The size of the code range. -/
def Emission.codeSize : Emission → ℕ
  | initJitThunks codeSize _ _ => codeSize + 144
  | jitRegion codeSize _ _ => codeSize

/-- The size of the data range. -/
def Emission.dataSize : Emission → ℕ
  | initJitThunks _ dataSize noteSize => dataSize + noteSize
  | jitRegion _ dataSize noteSize => dataSize + noteSize

/-- A call of `commit`, with the protections that it finds. -/
structure Commit where
  sys : Sys
  code : ℕ
  codeSize : ℕ
  data : ℕ
  dataSize : ℕ

/-- The result of the call. -/
def Commit.run (c : Config) (env : Env) (k : Commit) : Bool × Sys :=
  c.commit env k.sys k.code k.codeSize k.data k.dataSize

/-- Both functions up to their call of `commit`, `none` where they abort. -/
def Emission.place (c : Config) (env : Env) (st : State) (e : Emission) :
    Option (Commit × State) := do
  let (data, st) ← st.allocateData c env e.dataSize
  if data = 0 then none
  let (code, st) ← st.allocateCode c env e.codeSize
  if code = 0 then none
  some (⟨st.sys, code, e.codeSize, data, e.dataSize⟩, st)

/-- Both functions to their end. -/
def Emission.emit (c : Config) (env : Env) (st : State) (e : Emission) : Option State := do
  let (k, st) ← e.place c env st
  let (ok, sys) := k.run c env
  if ok then some { st with sys := sys } else none

/-- No sum that the allocations compute wraps. -/
def Emission.Fits (c : Config) (st : State) (e : Emission) : Prop :=
  c.Fits st.dataBlocks e.dataSize ∧ c.Fits st.codeBlocks e.codeSize

instance (c : Config) (st : State) (e : Emission) : Decidable (e.Fits c st) :=
  inferInstanceAs (Decidable (_ ∧ _))

/-- The states that thunks and regions, in any order and of any sizes, leave behind. -/
inductive Emits (c : Config) (env : Env) : State → Prop where
  | start : Emits c env State.init
  | emit {st st' : State} {e : Emission} (h : Emits c env st)
      (hfits : e.Fits c st) (hemit : e.emit c env st = some st') :
      Emits c env st'

/-! ### What a commit is for -/

namespace Commit

variable (c : Config) (env : Env) (k : Commit)

/-- One of the two changes of protection fails where it is made. -/
def ChangeFails : Prop :=
  (c.commitExecute env k.sys k.code k.codeSize).1 = false ∨
    (c.commitReadOnly env
      (c.commitExecute env k.sys k.code k.codeSize).2 k.data k.dataSize).1 = false

instance : Decidable (k.ChangeFails c env) := inferInstanceAs (Decidable (_ ∨ _))

/-- The code can be executed and no longer be written, and the data can only be read. -/
def Protected (prot : ℕ → Prot) : Prop :=
  (∀ page, Pages.Touches c.pageSize k.code k.codeSize page →
    (prot page).executable ∧ ¬(prot page).writable) ∧
    ∀ page, Pages.Touches c.pageSize k.data k.dataSize page → prot page = .readOnly

/-- When the commit returns true the ranges are protected, and it returns false when a
change of protection fails. -/
def Meets : Prop :=
  ((k.run c env).1 = true → k.Protected c (k.run c env).2.prot) ∧
    (k.ChangeFails c env → (k.run c env).1 = false)

end Commit

variable {c : Config} {env : Env} {st st' : State} {e : Emission} {k : Commit} {ranges : List Range}

/-- `commit` asks for nothing and returns true. -/
theorem Config.commit_eq (sys : Sys) (code codeSize data dataSize : ℕ) :
    c.commit env sys code codeSize data dataSize = (true, sys) := rfl

theorem Commit.run_eq : k.run c env = (true, k.sys) := Config.commit_eq ..

/-- What it takes to come to the call of `commit`. -/
theorem Emission.place_cases (h : e.place c env st = some (k, st')) :
    ∃ data mid code, st.allocateData c env e.dataSize = some (data, mid) ∧ data ≠ 0 ∧
      mid.allocateCode c env e.codeSize = some (code, st') ∧
        code ≠ 0 ∧ k = ⟨st'.sys, code, e.codeSize, data, e.dataSize⟩ := by
  obtain ⟨⟨data, mid⟩, hdata, h⟩ := Option.bind_eq_some_iff.mp h
  by_cases hd : data = 0
  · simp [hd] at h
  simp only [hd, if_false] at h
  obtain ⟨⟨code, last⟩, hcode, h⟩ := Option.bind_eq_some_iff.mp h
  by_cases hc : code = 0
  · simp [hc] at h
  simp only [hc, if_false] at h
  obtain ⟨rfl, rfl⟩ := Prod.mk.inj (Option.some_inj.mp h)
  exact ⟨data, mid, code, hdata, hd, hcode, hc, rfl⟩

/-- The system is left as the allocations left it. -/
theorem Emission.emit_cases (h : e.emit c env st = some st') :
    ∃ k, e.place c env st = some (k, st') := by
  obtain ⟨⟨k, last⟩, hplace, h⟩ := Option.bind_eq_some_iff.mp h
  obtain ⟨data, mid, code, -, -, -, -, rfl⟩ := Emission.place_cases hplace
  obtain rfl := Option.some_inj.mp h
  exact ⟨_, hplace⟩

/-- The code blocks are as they were when the code is allocated. -/
theorem allocateData_codeBlocks {mid : State} {ptr size : ℕ}
    (h : st.allocateData c env size = some (ptr, mid)) :
    mid.codeBlocks = st.codeBlocks := by
  obtain ⟨blocks, sys, -, rfl⟩ := allocateData_cases h
  rfl

theorem Emission.place_run (hrun : Run c env st ranges)
    (hfits : e.Fits c st) (h : e.place c env st = some (k, st')) :
    Run c env st' (⟨k.code, k.codeSize⟩ :: ⟨k.data, k.dataSize⟩ :: ranges) := by
  obtain ⟨data, mid, code, hdata, hd, hcode, hc, rfl⟩ := Emission.place_cases h
  have hmid := Run.data hrun hfits.1 hdata
  have hlast := Run.code hmid (allocateData_codeBlocks hdata ▸ hfits.2) hcode
  rwa [extend, if_neg hc, extend, if_neg hd] at hlast

theorem Emission.place_readWrite (hrun : Run c env st ranges)
    (hfits : e.Fits c st) (h : e.place c env st = some (k, st'))
    (hsound : c.Sound (extents st'.blocks)) :
    (∀ page, Pages.Touches c.pageSize k.code k.codeSize page → k.sys.prot page = .readWrite) ∧
      ∀ page, Pages.Touches c.pageSize k.data k.dataSize page → k.sys.prot page = .readWrite := by
  obtain ⟨data, mid, code, hdata, hd, hcode, hc, rfl⟩ := Emission.place_cases h
  have hmid := allocateCode_before hsound hcode
  have hinv := hrun.inv (allocateData_before hmid hdata)
  have hdata' := allocateData_allocated hinv hmid hfits.1 hdata
  have hcode' := allocateCode_allocated hdata'.inv hsound
    (allocateData_codeBlocks hdata ▸ hfits.2) hcode
  refine ⟨hcode'.readWrite hc, fun page hpage => ?_⟩
  have hmem : (⟨data, e.dataSize⟩ : Range) ∈ extend data e.dataSize ranges := by
    rw [extend, if_neg hd]
    exact List.mem_cons_self
  exact (hcode'.keeps _ hmem page hpage).trans (hdata'.readWrite hd page hpage)

/-- Every state that thunks and regions leave behind is one of a run of the allocator. -/
theorem Emits.run (h : Emits c env st) : ∃ ranges, Run c env st ranges := by
  induction h with
  | start => exact ⟨[], .start⟩
  | emit h hfits hemit ih =>
    obtain ⟨ranges, hrun⟩ := ih
    obtain ⟨k, hplace⟩ := Emission.emit_cases hemit
    exact ⟨_, Emission.place_run hrun hfits hplace⟩

/-- Where every page of the range is readable and writable, and has another protection too,
there is no page. -/
theorem size_eq_zero {P ptr size : ℕ} {prot : ℕ → Prot} (hptr : P ∣ ptr)
    (hprot : ∀ page, Pages.Touches P ptr size page → prot page = .readWrite)
    (h : ∀ page, Pages.Touches P ptr size page → prot page ≠ .readWrite) : size = 0 := by
  by_contra hsize
  have hpage := touches_first hptr (Nat.pos_of_ne_zero hsize)
  exact h _ hpage (hprot _ hpage)

/-- Whatever thunks and regions were placed before, a commit does what it is for exactly if
both ranges are empty and neither change of protection would fail. -/
theorem commit_protects_iff (hemits : Emits c env st) (hfits : e.Fits c st)
    (hplace : e.place c env st = some (k, st')) (hsound : c.Sound (extents st'.blocks)) :
    k.Meets c env ↔ e.codeSize = 0 ∧ e.dataSize = 0 ∧ ¬k.ChangeFails c env := by
  obtain ⟨ranges, hrun⟩ := hemits.run
  obtain ⟨hcode, hdata⟩ := Emission.place_readWrite hrun hfits hplace hsound
  have hinv := (Emission.place_run hrun hfits hplace).inv hsound
  have hptr := hinv.ptr_dvd _ List.mem_cons_self
  have hptr' := hinv.ptr_dvd _ (List.mem_cons_of_mem _ List.mem_cons_self)
  obtain ⟨data, mid, code, -, -, -, -, rfl⟩ := Emission.place_cases hplace
  rw [Commit.Meets, Commit.run_eq]
  constructor
  · rintro ⟨hprotected, hfails⟩
    obtain ⟨hexec, hread⟩ := hprotected rfl
    refine ⟨size_eq_zero hptr hcode fun page hpage h =>
      ?_, size_eq_zero hptr' hdata fun page hpage h => ?_, fun hf => ?_⟩
    · exact absurd (hexec page hpage).1 (by rw [h]; decide)
    · exact absurd ((hread page hpage).symm.trans h) (by decide)
    · exact Bool.noConfusion (hfails hf)
  · rintro ⟨hcode0, hdata0, hfails⟩
    refine ⟨fun _ => ⟨fun page hpage => ?_, fun page hpage => ?_⟩, fun hf => absurd hf hfails⟩
    · exact absurd (hcode0 ▸ hpage) not_touches_zero
    · exact absurd (hdata0 ▸ hpage) not_touches_zero

/-- The thunks, which are the first code: their page is never made executable. -/
theorem commit_leaves_thunks_writable :
    ∃ k st', Emits smallSystem roomyEnv State.init ∧
      (Emission.initJitThunks 512 32 0).place smallSystem roomyEnv State.init = some (k, st') ∧
      (k.run smallSystem roomyEnv).1 = true ∧ ¬k.Meets smallSystem roomyEnv := by
  refine ⟨_, _, .start, rfl, rfl, fun h => ?_⟩
  exact absurd ((h.1 rfl).1 0x30000 (by decide)).1 (by decide)

/-- A region after the thunks. -/
theorem commit_protects_iff_region :
    ∃ st k st', Emits smallSystem roomyEnv st ∧
      (Emission.jitRegion 200 0 0).place smallSystem roomyEnv st = some (k, st') ∧
        ¬k.Meets smallSystem roomyEnv := by
  have hsound : smallSystem.Sound [⟨0x30000000, 0x200000⟩, ⟨0x10000000, 0x200000⟩] :=
    ⟨by decide, by decide, by decide, .inl (by decide)⟩
  have hstart : Emits smallSystem roomyEnv State.init := .start
  have hthunks := @Emits.emit _ _ _ _ (.initJitThunks 512 32 0) hstart (by decide) rfl
  have hiff := @commit_protects_iff _ _ _ _ (.jitRegion 200 0 0) _ hthunks (by decide) rfl hsound
  exact ⟨_, _, _, hthunks, rfl, fun h => absurd (hiff.mp h).1 (by decide)⟩

end ParallelRsp.Allocator
