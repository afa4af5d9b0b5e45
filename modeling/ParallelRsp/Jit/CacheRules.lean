import ParallelRsp.Jit.CacheInvariant

/-!
# The rules of the register cache

One rule of `falls` for each function of the cache: from a host that represents a state,
with some registers locked, the code it emits leads to a host that represents the state
that the function is for.

At most two registers are locked when a third is asked for, so a cache of three entries
always has one to give.
-/

namespace ParallelRsp.Jit

open Codegen

variable {T : Target}

section Rules

variable {E : Env T} {c : RegisterCache T} {h : Host T} {v : View T} {ks : List ℕ} {r : ℕ}
  {i : Fin T.numFree}

/-- An entry marked as written back. -/
def CacheEntry.clean (e : CacheEntry) : CacheEntry := { e with modified := false }

theorem Rep.clean (hR : Rep c h v)
    (hm : (c.entries i).mipsRegister ≤ condBranchTaken →
      (c.entries i).isLive → (c.entries i).modified →
      h.st.sr (c.entries i).mipsRegister = v.mem (c.entries i).mipsRegister) :
    Rep (c.set i (c.entries i).clean) h v where
  distinct := hR.distinct_set fun j hj hjl hil hji => hj (hR.distinct j i hjl hil hji)
  entry := by
    refine RegisterCache.forall_set (P := fun j e => e.isLive →
      EntryOk h v (home j) e) ?_ fun j _ => hR.entry j
    intro hl
    have hE := hR.entry i hl
    exact ⟨fun h0 => ⟨Bool.false_ne_true, (hE.zero h0).2⟩, hE.value, hE.sign, hE.cond⟩
  memory k hk hno := by
    by_cases ho : (c.entries i).Owes k
    · obtain ⟨hl, rfl, hmod⟩ := ho
      exact hm hk hl hmod
    · exact hR.memory_set hk (fun h => absurd h ho) hno
  rest := hR.rest
  control := hR.control

/-- A scalar register of `CPUState` written. -/
def Host.setSr (h : Host T) (r : ℕ) (x : Word) : Host T :=
  { h with st := { h.st with sr := Function.update h.st.sr r x } }

/-- A register is brought up to date in memory. -/
theorem Rep.setSr (hR : Rep c h v) : Rep c (h.setSr r (v.mem r)) v where
  distinct := hR.distinct
  entry i hl :=
    have hE := hR.entry i hl
    ⟨hE.zero, hE.value, hE.sign, hE.cond⟩
  memory k hk hno := by
    by_cases hkr : k = r
    · subst hkr
      exact Function.update_self _ _ _
    · exact (Function.update_of_ne hkr _ _).trans (hR.memory k hk hno)
  rest := congrArg (fun a => a.withSr (Function.update h.st.sr r (v.mem r))) hR.rest
  control := hR.control

theorem falls_writebackRegister (hR : Rep c h v) (hl : (c.entries i).isLive)
    (hm : (c.entries i).modified) :
    falls (lightning E) (writebackRegister i)
      (fun _ c' h' => c' = c.set i (c.entries i).clean ∧ h'.regs = h.regs ∧ Rep c' h' v) c h := by
  have hE := hR.entry i hl
  have h0 : (c.entries i).mipsRegister ≠ 0 := fun h0 => (hE.zero h0).1 hm
  refine falls_bind (falls_look (falls_bind (falls_assert h0 (falls_bind (falls_when ?_ ?_)))))
  · intro hr
    refine falls_op (falls_change ⟨rfl, rfl, ?_⟩)
    have hx : low (h.regs (home i)) = v.mem (c.entries i).mipsRegister := by
      rw [hE.value hr, View.reg, if_neg h0]
    have hS := (hR.setSr (r := (c.entries i).mipsRegister)).clean (i := i) fun _ _ _ =>
      Function.update_self _ _ _
    rw [← hx] at hS
    exact hS
  · intro hr
    exact falls_change ⟨rfl, rfl, hR.clean fun h32 => absurd h32 hr⟩

theorem falls_findRegister {M : Interp (Op T) (Cond T) (Host T)}
    {Q : Fin T.numFree → RegisterCache T → Host T → Prop}
    (hR : Rep c h v) (hL : Locked c ks) (hk : ks.length < T.numFree)
    (hQ : ∀ i, Found c r i → Q i c h) :
    falls M (Emit.force (c.findRegister r) : Gen T _) Q c h := by
  obtain ⟨i, hi, hf⟩ := findRegister_spec hL hR.distinct hk r
  exact falls_force hi (hQ i hf)

/-- After the eviction the entry can be given to the register. -/
theorem falls_evictRegister (hR : Rep c h v) :
    falls (lightning E) (evictRegister r i)
      (fun _ c' h' => (∃ m, c' = c.set i { c.entries i with modified := m }) ∧
        h'.regs = h.regs ∧ Rep c' h' v ∧
        (∀ k ≤ condBranchTaken, (c'.entries i).Owes k → k = r) ∧
        ((c.entries i).isLive → (c.entries i).mipsRegister = r → c' = c)) c h := by
  refine falls_bind (falls_look (falls_when ?_ ?_))
  · rintro ⟨hl, hr, hm⟩
    refine (falls_writebackRegister hR hl hm).mono ?_
    rintro _ c' h' ⟨rfl, hregs, hR'⟩
    refine ⟨⟨false, rfl⟩, hregs, hR', ?_, fun _ h => absurd h hr⟩
    rintro k - ⟨-, -, hmk⟩
    rw [c.set_entries_self] at hmk
    cases hmk
  · intro hno
    refine ⟨⟨(c.entries i).modified, (c.set_self i).symm⟩, rfl, hR, ?_, fun _ _ => rfl⟩
    rintro k - ⟨hl, hk, hm⟩
    by_contra hkr
    exact hno ⟨hl, hk ▸ hkr, hm⟩

/-- What a load promises of the host register. -/
def Extension.known : Extension → SignState
  | .noext => .unknown
  | .sext => .sExt
  | .zext => .zExt

/-- The register cannot be evicted: it is locked, or there is an entry to spare. -/
def Safe (c : RegisterCache T) (ks : List ℕ) (k : ℕ) : Prop := k ∈ ks ∨ Spare c

/-- A load leaves a register of that sign state as it is. -/
def Extension.Keeps (ext : Extension) (t : SignState) : Prop :=
  ext = .noext ∨ t = .unknown ∨ ext.known = t

/-- A modification forgets the sign state. -/
def Forgets (t : SignState) : Prop := t = .unknown

/-- Registers that cannot be evicted stay where they are, and extended as they were, `r` only
if its sign state is kept. -/
structure Kept (c c' : RegisterCache T) (ks : List ℕ) (r : ℕ) (keep : SignState → Prop) : Prop where
  /-- Registers loaded. -/
  stay : ∀ k, Safe c ks k → ∀ d t, At c k d t → (k = r → keep t) → At c' k d t
  /-- Registers to be written. -/
  owned : ∀ k, Safe c ks k → k ≠ r → ∀ d, Owned c k d → Owned c' k d
  /-- At most one entry changed. -/
  one : ∃ i, ∀ j, j ≠ i → c'.entries j = c.entries j

theorem Locked.kept {c' : RegisterCache T} {keep : SignState → Prop}
    (hL : Locked c ks) (hi : Found c r i)
    (hne : ∀ j, j ≠ i → c'.entries j = c.entries j) (hl : (c'.entries i).isLive)
    (hr : (c'.entries i).mipsRegister = r)
    (hs : (c.entries i).isLive → (c.entries i).mipsRegister = r →
      ∀ t, keep t → (c.entries i).sign = t →
      t = .unknown ∨ (c'.entries i).sign = t) : Kept c c' ks r keep := by
  -- the entry that was given away held none of these registers but `r`
  have hother {k : ℕ} (hk : Safe c ks k) {j : Fin T.numFree} (hjl : (c.entries j).isLive)
      (hjk : (c.entries j).mipsRegister = k) (hj : j = i) : k = r := by
    subst hj
    rcases hi with ⟨-, hir⟩ | ⟨-, h0, hspare⟩
    · exact hjk.symm.trans hir
    · rcases hk with hk | hk
      · rw [hL.count, if_pos hjl, hjk] at h0
        exact absurd hk (List.count_eq_zero.1 h0)
      · exact absurd hjl (hspare hk)
  refine ⟨?_, ?_, i, hne⟩
  · rintro k hk d t ⟨j, hjl, hjk, hjd, hjt⟩ hext
    by_cases hj : j = i
    · have hkr := hother hk hjl hjk hj
      subst hj
      refine ⟨j, hl, hr.trans hkr.symm, hjd, ?_⟩
      rcases hjt with ht | ht
      · exact .inl ht
      · exact hs hjl (hjk.trans hkr) t (hext hkr) ht
    · exact ⟨j, by rwa [hne j hj], by rwa [hne j hj], hjd, by rwa [hne j hj]⟩
  · rintro k hk hkr d ⟨j, hjl, hjk, hjd, hjs, hjm⟩
    have hj : j ≠ i := fun hj => hkr (hother hk hjl hjk hj)
    exact ⟨j, by rwa [hne j hj], by rwa [hne j hj], hjd, by rwa [hne j hj], by rwa [hne j hj]⟩

/-- A register to be written can be written. -/
theorem Owned.writable {d : HReg} (hO : Owned c r d) (hR : Rep c h v) (h0 : r ≠ 0) :
    Writable c h v r d := by
  obtain ⟨i, hil, rfl, rfl, his, him⟩ := hO
  intro x hx
  have hW := hR.modify (i := i) (e := c.entries i) hil him h0
    (fun j hj hjl hji => hj (hR.distinct j i hjl hil hji))
    (fun k _ ho => ho.2.1.symm) (by rw [his]; trivial) hx
  rwa [c.set_self] at hW

theorem Extension.hasSign (ext : Extension) (x : Word) :
    HasSign ext.sign (extend T (ext ≠ .zext) x) := by
  have h := hasSign_extend (T := T) (decide (ext ≠ .zext)) x
  cases ext <;> exact h

theorem falls_fillRegister {ext : Extension} (hR : Rep c h v) (hr : r ≤ condBranchTaken)
    (hnone : ∀ j, (c.entries j).isLive → (c.entries j).mipsRegister ≠ r)
    (hi : ∀ k ≤ condBranchTaken, ¬(c.entries i).Owes k) (hc : r = condBranchTaken → ext ≠ .zext) :
    falls (lightning E) (fillRegister ext r i)
      (fun _ c' h' => c' = c.set i { c.entries i with
          mipsRegister := r, sign := ext.sign, isLive := true, modified := false } ∧
            Rep c' h' v) c h := by
  have hmem : h.st.sr r = v.mem r := hR.memory r hr fun i ho => hnone i ho.1 ho.2.1
  by_cases h0 : r = 0
  · have hreg : v.reg r = 0#32 := if_pos h0
    have hlow : low (0#T.wordSize) = v.reg r := by rw [hreg]; simp [low]
    refine falls_bind ?_
    rw [if_neg (not_not_intro h0)]
    refine falls_op (falls_change
      ⟨rfl, hR.fill hnone hi ⟨fun _ => ⟨Bool.false_ne_true, ?_⟩, ?_, ?_, ?_⟩⟩)
    · exact h.set_regs_self _ _
    · intro _
      rw [h.set_regs_self]
      exact hlow
    · intro _
      rw [h.set_regs_self]
      exact hasSign_zero _
    · intro _
      rw [h.set_regs_self]
      exact hasSign_zero _
  · have hreg : v.reg r = h.st.sr r := by rw [View.reg, if_neg h0, hmem]
    refine falls_bind ?_
    rw [if_pos h0]
    refine falls_op (falls_change ⟨rfl, hR.fill hnone hi ⟨fun h => absurd h h0, ?_, ?_, ?_⟩⟩)
    · intro _
      rw [h.set_regs_self, low_extend]
      exact hreg.symm
    · intro _
      rw [h.set_regs_self]
      exact ext.hasSign _
    · intro h32
      rw [h.set_regs_self, decide_eq_true (hc h32)]
      exact hasSign_extend true _

/-- Extending changes no register, and no register at all when the host has 32 bits. -/
theorem hasSign_of_eq (hw : T.wordSize = 32) (s : SignState) (x : BitVec T.wordSize) :
    HasSign s x := by
  obtain ⟨w, numR, numV, wide, enough⟩ := T
  subst hw
  cases s <;> simp [HasSign, extend, low]

theorem falls_extendRegister {ext : Extension} (hR : Rep c h v)
    (hl : (c.entries i).isLive) (hir : (c.entries i).mipsRegister = r)
    (hc : r = condBranchTaken → ext ≠ .zext) :
    falls (lightning E) (extendRegister ext r i)
      (fun _ c' h' => (∃ s, c' = c.set i { c.entries i with sign := s } ∧
        (ext.known = .unknown ∨ s = ext.known) ∧
        (ext = .noext → s = (c.entries i).sign)) ∧ Rep c' h' v) c h := by
  have hE := hR.entry i hl
  refine falls_bind (falls_look (falls_when ?_ ?_))
  · rintro ⟨hext, -⟩
    have hknown : ext.sign = ext.known := by
      cases ext
      · exact absurd rfl hext
      · rfl
      · rfl
    refine falls_bind (falls_when ?_ ?_)
    · rintro ⟨-, h0⟩
      refine falls_op (falls_change ⟨⟨ext.sign, rfl, .inr hknown, fun h => absurd h hext⟩,
        hR.extend (hir ▸ h0) ?_ ?_ ?_⟩)
      · exact low_extend _ _
      · exact ext.hasSign _
      · intro h32
        rw [decide_eq_true (hc (hir ▸ h32))]
        exact hasSign_extend true _
    · intro hno
      refine falls_change ⟨⟨ext.sign, rfl, .inr hknown, fun h => absurd h hext⟩, hR.setSign ?_⟩
      by_cases h0 : r = 0
      · rw [(hE.zero (hir.trans h0)).2]
        exact hasSign_zero _
      · refine hasSign_of_eq ?_ _ _
        have := T.wide
        by_contra hw
        exact hno ⟨by omega, h0⟩
  · intro hno
    refine ⟨⟨(c.entries i).sign, (c.set_self i).symm, ?_, fun _ => rfl⟩, hR⟩
    cases ext
    · exact .inl rfl
    · by_contra h
      exact hno ⟨by decide, fun hs => h (.inr hs)⟩
    · by_contra h
      exact hno ⟨by decide, fun hs => h (.inr hs)⟩

/-- The entry brought in and locked. -/
theorem falls_touch {M : Interp (Op T) (Cond T) (Host T)}
    {Q : Unit → RegisterCache T → Host T → Prop}
    {e : CacheEntry} (keep : SignState → Prop) {c₀ : RegisterCache T} {h₀ : Host T}
    (hR₀ : Rep c₀ h₀ v) (hL : Locked c₀ ks) (hi : Found c₀ r i) (hc : c = c₀.set i e)
    (hl : e.isLive) (her : e.mipsRegister = r) (hn : e.numLocks = (c₀.entries i).numLocks)
    (hs : (c₀.entries i).isLive → (c₀.entries i).mipsRegister = r →
      ∀ t, keep t → (c₀.entries i).sign = t →
      t = .unknown ∨ e.sign = t)
    (hQ : Locked (c.touch i) (ks ++ [r]) →
      (∀ s, s = .unknown ∨ e.sign = s → At (c.touch i) r (home i) s) →
      Kept c₀ (c.touch i) ks r keep → Q () (c.touch i) h) :
    falls M (Emit.change fun c => c.touch i : Gen T Unit) Q c h := by
  have hne (j : Fin T.numFree) (hj : j ≠ i) : (c.touch i).entries j = c₀.entries j := by
    rw [c.touch_entries_of_ne i hj, hc, c₀.set_entries_of_ne i e hj]
  have hself : (c.touch i).entries i =
      { e with timestamp := c.timestamp + 1#32, numLocks := (c₀.entries i).numLocks + 1 } := by
    rw [c.touch_entries_self, hc, c₀.set_entries_self, hn]
  have hlive : ((c.touch i).entries i).isLive := by rw [hself]; exact hl
  have hreg : ((c.touch i).entries i).mipsRegister = r := by rw [hself]; exact her
  have hsign : ((c.touch i).entries i).sign = e.sign := by rw [hself]
  refine falls_change (hQ ?_ (fun s hs => ⟨i, hlive, hreg, rfl, by rwa [hsign]⟩) ?_)
  · exact hL.take hR₀ hi hne hlive hreg (by rw [hself])
  · exact hL.kept hi hne hlive hreg (by rwa [hsign])

theorem falls_loadMipsRegister {ext : Extension} (hR : Rep c h v)
    (hL : Locked c ks) (hr : r ≤ condBranchTaken)
    (hk : ks.length < 3) (hc : r = condBranchTaken → ext ≠ .zext) :
    falls (lightning E) (loadMipsRegister ext r)
      (fun d c' h' => Rep c' h' v ∧ Locked c' (ks ++ [r]) ∧
        At c' r d ext.known ∧ Kept c c' ks r ext.Keeps) c h := by
  refine falls_bind (falls_look
    (falls_bind (falls_findRegister hR hL (hk.trans_le T.enough) fun i hi => ?_)))
  refine falls_bind (falls_assert hr
    (falls_bind ((falls_evictRegister (r := r) (i := i) hR).mono ?_)))
  rintro _ c₁ h₁ ⟨⟨m, hc₁⟩, -, hR₁, howe, hsame⟩
  rcases id hi with hlr | ⟨hnone, -, -⟩
  · -- the register is in the cache
    rw [hsame hlr.1 hlr.2] at hR₁ ⊢
    rw [if_pos hlr]
    refine falls_bind ((falls_extendRegister hR₁ hlr.1 hlr.2 hc).mono ?_)
    rintro _ c₂ h₂ ⟨⟨s, hc₂, hs, hsame⟩, hR₂⟩
    refine falls_bind (falls_touch ext.Keeps hR hL hi hc₂ hlr.1 hlr.2 rfl ?_ ?_)
    · rintro - - t (hno | ht | rfl) hold
      · exact .inr ((hsame hno).trans hold)
      · exact .inl ht
      · exact hs
    · intro hL' hA hK
      exact falls_pure ⟨hR₂.touch, hL', hA _ hs, hK⟩
  · rw [if_neg fun hlr => hnone i hlr.1 hlr.2]
    have hnone₁ (j : Fin T.numFree) (hj : (c₁.entries j).isLive) :
        (c₁.entries j).mipsRegister ≠ r := by
      by_cases hji : j = i
      · subst hji
        rw [hc₁, c.set_entries_self] at hj ⊢
        exact hnone j hj
      · rw [hc₁, c.set_entries_of_ne i _ hji] at hj ⊢
        exact hnone j hj
    have howe₁ (k : ℕ) (hk : k ≤ condBranchTaken) : ¬(c₁.entries i).Owes k := by
      intro ho
      exact hnone₁ i ho.1 (ho.2.1.trans (howe k hk ho))
    refine falls_bind ((falls_fillRegister hR₁ hr hnone₁ howe₁ hc).mono ?_)
    rintro _ c₂ h₂ ⟨hc₂, hR₂⟩
    rw [hc₁, c.set_set, c.set_entries_self] at hc₂
    refine falls_bind (falls_touch ext.Keeps hR hL hi hc₂ rfl rfl rfl ?_ ?_)
    · intro hil hir
      exact absurd hir (hnone i hil)
    · intro hL' hA hK
      refine falls_pure ⟨hR₂.touch, hL', hA _ ?_, hK⟩
      cases ext
      · exact .inl rfl
      · exact .inr rfl
      · exact .inr rfl

/-- `modify_mips_register`: the host's registers are as before, and what is written to the
one returned is the new value. -/
theorem falls_modifyEntry (hR : Rep c h v) (hL : Locked c ks) (h0 : r ≠ 0) (hk : ks.length < 3) :
    falls (lightning E) (modifyEntry r)
      (fun i c' h' => h'.regs = h.regs ∧ Writable c' h' v r (home i) ∧ Locked c' (ks ++ [r]) ∧
        Owned c' r (home i) ∧ Kept c c' ks r Forgets) c h := by
  refine falls_bind (falls_look
    (falls_bind (falls_findRegister hR hL (hk.trans_le T.enough) fun i hi => ?_)))
  refine falls_bind ((falls_evictRegister (r := r) (i := i) hR).mono ?_)
  rintro _ c₁ h₁ ⟨⟨m, hc₁⟩, hregs, hR₁, howe, -⟩
  refine falls_bind (falls_change ?_)
  have hnone (j : Fin T.numFree) (hj : j ≠ i) (hjl : (c₁.entries j).isLive) :
      (c₁.entries j).mipsRegister ≠ r := by
    rw [hc₁, c.set_entries_of_ne i _ hj] at hjl ⊢
    rcases hi with ⟨hil, hir⟩ | ⟨hnone, -, -⟩
    · exact fun hjr => hj (hR.distinct j i hjl hil (hjr.trans hir.symm))
    · exact hnone j hjl
  have hW (x : BitVec T.wordSize) (hx : r = condBranchTaken → HasSign .sExt x) :
      Rep
        (c₁.set i
          { c₁.entries i with
            mipsRegister := r, isLive := true, sign := .unknown, modified := true })
        (h₁.set (home i) x) (v.put r (low x)) :=
    hR₁.modify rfl rfl h0 hnone howe trivial hx
  have hc₂ :
      c₁.set i
        { c₁.entries i with
          mipsRegister := r, isLive := true, sign := .unknown, modified := true } =
      c.set i
        { c.entries i with
          mipsRegister := r, isLive := true, sign := .unknown, modified := true } := by
    rw [hc₁, c.set_set, c.set_entries_self]
  refine falls_bind (falls_touch Forgets hR hL hi hc₂ rfl rfl rfl (fun _ _ t ht _ => .inl ht) ?_)
  intro hL' _ hK
  refine falls_pure ⟨hregs, fun x hx => (hW x hx).touch, hL', ⟨i, ?_⟩, hK⟩
  rw [RegisterCache.touch_entries_self, RegisterCache.set_entries_self]
  exact ⟨rfl, rfl, rfl, rfl, rfl⟩

theorem falls_modifyMipsRegister (hR : Rep c h v) (hL : Locked c ks)
    (h0 : r ≠ 0) (hk : ks.length < 3) :
    falls (lightning E) (modifyMipsRegister r)
      (fun d c' h' => h'.regs = h.regs ∧ Writable c' h' v r d ∧
        Locked c' (ks ++ [r]) ∧ Owned c' r d ∧
        Kept c c' ks r Forgets) c h := by
  refine falls_bind ((falls_modifyEntry hR hL h0 hk).mono ?_)
  rintro i c' h' ⟨hregs, hW, hL', hO, hK⟩
  exact falls_pure ⟨hregs, hW, hL', hO, hK⟩

/-- Locks depend on what the entries hold only. -/
theorem Locked.congr {c' : RegisterCache T} (hL : Locked c ks)
    (hl : ∀ i, (c'.entries i).isLive = (c.entries i).isLive)
    (hr : ∀ i, (c'.entries i).mipsRegister = (c.entries i).mipsRegister)
    (hn : ∀ i, (c'.entries i).numLocks = (c.entries i).numLocks) : Locked c' ks where
  count i := by rw [hl, hr, hn, hL.count]
  held k hk := by
    obtain ⟨i, hil, hik⟩ := hL.held k hk
    exact ⟨i, by rwa [hl], by rwa [hr]⟩

theorem falls_immediateMipsRegister {x : BitVec T.wordSize}
    (hR : Rep c h v) (hL : Locked c ks) (h0 : r ≠ 0) (hk : ks.length < 3) (hx : HasSign .sExt x) :
    falls (lightning E) (immediateMipsRegister r x)
      (fun _ c' h' => Rep c' h' (v.put r (low x)) ∧ Locked c' (ks ++ [r])) c h := by
  refine falls_bind ((falls_modifyEntry hR hL h0 hk).mono ?_)
  rintro i c' h' ⟨-, hW, hL', -, -⟩
  refine falls_bind (falls_op (falls_bind (falls_change (falls_pure ⟨?_, ?_⟩))))
  · refine (hW x fun _ => hx).setSign ?_
    rw [h'.set_regs_self]
    exact hx
  · have hj (j : Fin T.numFree) : ∃ s, (c'.set i { c'.entries i with sign := .sExt }).entries j =
        { c'.entries j with sign := s } := by
      by_cases hj : j = i
      · subst hj
        exact ⟨_, c'.set_entries_self _ _⟩
      · exact ⟨_, c'.set_entries_of_ne _ _ hj⟩
    refine hL'.congr ?_ ?_ ?_
    all_goals
      intro j
      obtain ⟨s, hj⟩ := hj j
      rw [hj]

theorem falls_unlockMipsRegister {M : Interp (Op T) (Cond T) (Host T)}
    {ks' : List ℕ} (hR : Rep c h v) (hL : Locked c ks) (hp : ks.Perm (r :: ks')) :
    falls M (unlockMipsRegister r)
      (fun _ c' h' => h' = h ∧ Rep c' h v ∧ Locked c' ks' ∧ (∀ k d s, At c k d s → At c' k d s) ∧
        (Spare c → Spare c')) c h := by
  have hmem : r ∈ ks := hp.mem_iff.2 List.mem_cons_self
  have hcount (k : ℕ) : ks.count k = (r :: ks').count k := hp.count_eq k
  refine falls_bind (falls_look ?_)
  cases hl : c.findLive r with
  | none =>
    obtain ⟨i, hil, hir⟩ := hL.held r hmem
    exact absurd hir (c.findLive_none hl i hil)
  | some i =>
    obtain ⟨hil, hir⟩ := c.findLive_some hl
    have hn : (c.entries i).numLocks = ks'.count r + 1 := by
      rw [hL.count, if_pos hil, hir, hcount, List.count_cons_self]
    refine falls_bind (falls_force rfl
      (falls_bind (falls_assert (by omega) (falls_change ⟨rfl, ?_, ?_, ?_, ?_⟩))))
    · have hj (j : Fin T.numFree) :
          ∃ n, (c.set i { c.entries i with numLocks := (c.entries i).numLocks - 1 }).entries j =
          { c.entries j with numLocks := n } := by
        by_cases hj : j = i
        · subst hj
          exact ⟨_, c.set_entries_self _ _⟩
        · exact ⟨_, c.set_entries_of_ne _ _ hj⟩
      refine hR.congr ?_ ?_ ?_ ?_
      all_goals
        intro j
        obtain ⟨n, hj⟩ := hj j
        rw [hj]
    · constructor
      · intro j
        by_cases hj : j = i
        · subst hj
          rw [c.set_entries_self, if_pos hil, hir]
          exact Nat.sub_eq_of_eq_add hn
        · rw [c.set_entries_of_ne _ _ hj, hL.count]
          split
          · rename_i hjl
            have hjr : (c.entries j).mipsRegister ≠ r :=
              fun h => hj (hR.distinct j i hjl hil (h.trans hir.symm))
            rw [hcount, List.count_cons_of_ne hjr.symm]
          · rfl
      · intro k hk
        obtain ⟨j, hjl, hjk⟩ := hL.held k (hp.mem_iff.2 (List.mem_cons_of_mem _ hk))
        by_cases hj : j = i
        · subst hj
          exact ⟨j, by rwa [c.set_entries_self], by rwa [c.set_entries_self]⟩
        · exact ⟨j, by rwa [c.set_entries_of_ne _ _ hj], by rwa [c.set_entries_of_ne _ _ hj]⟩
    · rintro k d s ⟨j, hjl, hjk, hjd, hjs⟩
      by_cases hj : j = i
      · subst hj
        exact ⟨j, by rwa [c.set_entries_self], by rwa [c.set_entries_self],
          hjd, by rwa [c.set_entries_self]⟩
      · exact ⟨j, by rwa [c.set_entries_of_ne _ _ hj], by rwa [c.set_entries_of_ne _ _ hj], hjd,
          by rwa [c.set_entries_of_ne _ _ hj]⟩
    · rintro ⟨j, hj⟩
      have hji : j ≠ i := fun h => hj (h ▸ hil)
      exact ⟨j, by rwa [c.set_entries_of_ne _ _ hji]⟩

/-! ### Flushes -/

/-- Without locks, an entry given up is not locked. -/
theorem Locked.kill (hL : Locked c []) : Locked (c.set i {}) [] where
  count := RegisterCache.forall_set
    (P := fun _ e => e.numLocks = if e.isLive then [].count e.mipsRegister else 0)
    rfl fun j _ => hL.count j
  held _ hk := absurd hk List.not_mem_nil

theorem Locked.numLocks_eq_zero (hL : Locked c []) (i : Fin T.numFree) :
    (c.entries i).numLocks = 0 := by
  rw [hL.count]
  split <;> rfl

/-- Some entries were given up, the host's registers are as before. -/
structure Flushed (c : RegisterCache T) (h : Host T) (v : View T)
    (c' : RegisterCache T) (h' : Host T) : Prop where
  /-- The registers. -/
  regs : h'.regs = h.regs
  /-- The meaning. -/
  rep : Rep c' h' v
  /-- No locks. -/
  locked : Locked c' []
  /-- The entries. -/
  entries : ∀ j, c'.entries j = c.entries j ∨ ¬(c'.entries j).isLive

theorem Flushed.refl (hR : Rep c h v) (hL : Locked c []) :
    Flushed c h v c h := ⟨rfl, hR, hL, fun _ => .inl rfl⟩

theorem Flushed.trans {c₁ c₂ : RegisterCache T} {h₁ h₂ : Host T} (h01 : Flushed c h v c₁ h₁)
    (h12 : Flushed c₁ h₁ v c₂ h₂) : Flushed c h v c₂ h₂ where
  regs := h12.regs.trans h01.regs
  rep := h12.rep
  locked := h12.locked
  entries j := by
    rcases h12.entries j with hj | hj
    · rw [hj]
      exact h01.entries j
    · exact .inr hj

/-- An entry that was not in use is not in use. -/
theorem Flushed.dead {c' : RegisterCache T} {h' : Host T}
    (hF : Flushed c h v c' h') (hi : ¬(c.entries i).isLive) :
    ¬(c'.entries i).isLive := by
  rcases hF.entries i with hj | hj
  · rwa [hj]
  · exact hj

theorem falls_flushEntry (hR : Rep c h v) (hL : Locked c []) :
    falls (lightning E) (flushEntry i) (fun _ c' h' => Flushed c h v c' h' ∧
      ¬(c'.entries i).isLive) c h := by
  refine falls_bind (falls_look (falls_when ?_ ?_))
  · intro hl
    have hpost {c₁ : RegisterCache T} {h₁ : Host T} {e : CacheEntry}
        (hc₁ : c₁ = c.set i e) (hregs : h₁.regs = h.regs)
        (hR₁ : Rep c₁ h₁ v) (he : ¬e.modified) :
        Flushed c h v (c₁.set i {}) h₁ ∧ ¬((c₁.set i {}).entries i).isLive := by
      have hdead : ¬((c₁.set i {}).entries i).isLive := by
        rw [c₁.set_entries_self]
        exact Bool.false_ne_true
      refine ⟨⟨hregs, hR₁.kill Bool.false_ne_true ?_, ?_, ?_⟩, hdead⟩
      · rintro k - ⟨-, -, hm⟩
        rw [hc₁, c.set_entries_self] at hm
        exact he hm
      · rw [hc₁, c.set_set]
        exact hL.kill
      · intro j
        by_cases hj : j = i
        · subst hj
          exact .inr hdead
        · exact .inl (by rw [hc₁, c.set_set, c.set_entries_of_ne _ _ hj])
    refine falls_bind (falls_when ?_ ?_)
    · intro hm
      refine (falls_writebackRegister hR hl hm).mono ?_
      rintro _ c₁ h₁ ⟨hc₁, hregs, hR₁⟩
      exact falls_bind (falls_assert (hL.numLocks_eq_zero i)
        (falls_change (hpost hc₁ hregs hR₁ Bool.false_ne_true)))
    · intro hm
      exact falls_bind (falls_assert (hL.numLocks_eq_zero i)
        (falls_change (hpost (c.set_self i).symm rfl hR hm)))
  · intro hl
    exact ⟨.refl hR hL, hl⟩

/-- A list of entries flushed. -/
theorem falls_flushEntries (is : List (Fin T.numFree)) (hR : Rep c h v) (hL : Locked c []) :
    falls (lightning E) (Emit.each is flushEntry)
      (fun _ c' h' => Flushed c h v c' h' ∧ ∀ i ∈ is, ¬(c'.entries i).isLive) c h := by
  let P (js : List (Fin T.numFree)) (c' : RegisterCache T) (h' : Host T) : Prop :=
    Flushed c h v c' h' ∧ ∀ i ∈ is, i ∈ js ∨ ¬(c'.entries i).isLive
  refine (falls_each (P := P) ?_ is ⟨.refl hR hL, fun i hi => .inl hi⟩).mono ?_
  · rintro j js c₁ h₁ ⟨hF, hdone⟩
    refine (falls_flushEntry hF.rep hF.locked).mono ?_
    rintro _ c₂ h₂ ⟨hF₂, hj⟩
    refine ⟨hF.trans hF₂, fun i hi => ?_⟩
    rcases hdone i hi with hjs | hdead
    · rcases List.mem_cons.1 hjs with rfl | hjs
      · exact .inr hj
      · exact .inl hjs
    · exact .inr (hF₂.dead hdead)
  · rintro _ c' h' ⟨hF, hdone⟩
    exact ⟨hF, fun i hi => (hdone i hi).resolve_left List.not_mem_nil⟩

theorem falls_flushRegisterWindow (hR : Rep c h v) (hL : Locked c []) :
    falls (lightning E) flushRegisterWindow
      (fun _ c' h' => h'.regs = h.regs ∧ Rep c' h' v ∧ Locked c' [] ∧
        Clean c' ∧ c'.timestamp = 0#32) c h := by
  refine falls_bind ((falls_flushEntries _ hR hL).mono ?_)
  rintro _ c' h' ⟨hF, hdead⟩
  refine falls_change ⟨hF.regs, ?_, ?_, fun i => hdead i (List.mem_finRange i), rfl⟩
  · exact hF.rep.congr (fun _ => rfl) (fun _ => rfl) (fun _ => rfl) (fun _ => rfl)
  · exact hF.locked.congr (fun _ => rfl) (fun _ => rfl) (fun _ => rfl)

theorem falls_flushCallerSaveRegisters (hR : Rep c h v) (hL : Locked c []) :
    falls (lightning E) flushCallerSaveRegisters
      (fun _ c' h' => Flushed c h v c' h' ∧ ∀ i : Fin T.numFree, i.val < T.numR →
        ¬(c'.entries i).isLive) c h := by
  refine (falls_flushEntries _ hR hL).mono ?_
  rintro _ c' h' ⟨hF, hdead⟩
  exact ⟨hF, fun i hi => hdead i (List.mem_filter.2 ⟨List.mem_finRange i, decide_eq_true hi⟩)⟩

theorem falls_flushMipsRegister (hR : Rep c h v) (hL : Locked c []) :
    falls (lightning E) (flushMipsRegister r)
      (fun _ c' h' => Flushed c h v c' h' ∧ ∀ i, (c'.entries i).isLive →
        (c'.entries i).mipsRegister ≠ r) c h := by
  refine falls_bind (falls_look ?_)
  cases hl : c.findLive r with
  | none => exact falls_pure ⟨.refl hR hL, c.findLive_none hl⟩
  | some i =>
    obtain ⟨hil, hir⟩ := c.findLive_some hl
    refine (falls_flushEntry hR hL).mono ?_
    rintro _ c' h' ⟨hF, hdead⟩
    refine ⟨hF, fun j hjl hjr => ?_⟩
    rcases hF.entries j with hj | hj
    · rw [hj] at hjl hjr
      obtain rfl := hR.distinct j i hjl hil (hjr.trans hir.symm)
      rw [hj] at hdead
      exact hdead hjl
    · exact hj hjl

end Rules

end ParallelRsp.Jit
