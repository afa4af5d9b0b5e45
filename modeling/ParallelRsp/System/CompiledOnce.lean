import Mathlib.Data.List.Perm.Subperm
import ParallelRsp.System.Equivalence

/-!
# What is compiled once

Compiled code is never thrown away: invalidation forgets where the code of a word is, and
`cached_blocks` finds it again when the words are back. So a program that overwrites its own
code, or a host that loads one microcode after another, does not pay for it twice.

* `Plugin.compiled_once`: over all calls of the plugin, whatever the host does between them,
  `jit_region` is called at most once for a start word and a hash, what it returned is found
  from then on, and nothing else is entered. So a number of contents of IMEM costs at most 1024
  calls each, in whatever order and how often they are loaded.
-/

namespace ParallelRsp.Jit

open Codegen
open CPU (regionWords regionHash)

variable {T : Target} {E : Env T} {S : ℕ → List Word → Prop}

/-- What `cached_blocks` finds a function by: its start word and the hash of its words. -/
def Func.key (f : Func) : ℕ × BitVec 64 := (f.pcWord, hashState f.pcWord f.words.length f.words)

theorem update_update_apply {α β γ : Type} [DecidableEq α] [DecidableEq β] (g : α → β → γ)
    (a x : α) (b y : β) (z : γ) :
    Function.update g a (Function.update (g a) b z) x y = if (x, y) = (a, b) then z else g x y := by
  simp only [Function.update_apply, Prod.mk.injEq]
  by_cases hx : x = a
  · simp only [hx, if_true, true_and, Function.update_apply]
  · simp only [hx, if_false, false_and]

namespace CPU

variable (c : CPU) (pc : Word)

/-- What `get_jit_block` calls `jit_region` for, if it does. -/
def compiles : Option Func :=
  match c.blocks (wordPc pc), c.lookup pc with
  | none, none => some ⟨wordPc pc, regionWords c.state.imem pc⟩
  | _, _ => none

/-- A block comes out of the tables, or it is compiled and put there. -/
theorem getJitBlock_cases :
    (c.compiles pc = none ∧ (c.getJitBlock pc).2.cachedBlocks = c.cachedBlocks ∧
      ((∃ w, c.blocks w = some (c.getJitBlock pc).1) ∨
        ∃ w h, c.cachedBlocks w h = some (c.getJitBlock pc).1)) ∨
    (c.compiles pc = some (c.getJitBlock pc).1 ∧ c.lookup pc = none ∧
      (c.getJitBlock pc).1 = ⟨wordPc pc, regionWords c.state.imem pc⟩ ∧
      (c.getJitBlock pc).2.cachedBlocks = Function.update c.cachedBlocks (wordPc pc)
        (Function.update (c.cachedBlocks (wordPc pc)) (regionHash c.state.imem pc)
          (some (c.getJitBlock pc).1))) := by
  simp only [compiles, getJitBlock]
  cases hblock : c.blocks (wordPc pc) with
  | some f => exact .inl ⟨rfl, rfl, .inl ⟨_, hblock⟩⟩
  | none =>
    cases hlookup : c.lookup pc with
    | some f => exact .inl ⟨rfl, rfl, .inr ⟨_, _, hlookup⟩⟩
    | none => exact .inr ⟨rfl, rfl, rfl, rfl⟩

/-- What is in `blocks` then was there, or is the block. -/
theorem blocks_getJitBlock {w : ℕ} {f : Func} (hf : (c.getJitBlock pc).2.blocks w = some f) :
    c.blocks w = some f ∨ f = (c.getJitBlock pc).1 := by
  simp only [getJitBlock] at hf ⊢
  cases hblock : c.blocks (wordPc pc) with
  | some g =>
    rw [hblock] at hf
    exact .inl hf
  | none =>
    rw [hblock] at hf
    cases hlookup : c.lookup pc <;>
    · rw [hlookup] at hf
      dsimp only at hf ⊢
      rw [Function.update_apply] at hf
      split at hf
      · exact .inr (Option.some.inj hf).symm
      · exact .inl hf

end CPU

namespace Plugin

/-- What the next step calls `jit_region` for: only the entry thunk asks for a block. -/
def compiles (s : Plugin T) : Option Func :=
  match s.stage with
  | .entry => s.cpu.compiles (low (s.host.regs registerNextPc))
  | _ => none

/-- A run of the plugin from when it was loaded, and what `jit_region` was called for, the
last call first. -/
inductive Compiled (E : Env T) (S : ℕ → List Word → Prop) : List Func → Plugin T → Prop where
  | start : Compiled E S [] start
  | step {l : List Func} {s s' : Plugin T} : Compiled E S l s → Step E S s s' →
    Compiled E S (s.compiles.toList ++ l) s'

/-- A run that goes on. -/
theorem Compiled.append {l : List Func} {s s' : Plugin T} (hl : Compiled E S l s)
    (h : Reaches E S s s') : ∃ l', Compiled E S (l' ++ l) s' := by
  induction h with
  | refl => exact ⟨[], hl⟩
  | tail _ hs ih =>
    obtain ⟨l', hl'⟩ := ih
    exact ⟨_, List.append_assoc _ l' l ▸ hl'.step hs⟩

/-- It is a run. -/
theorem Compiled.reaches {l : List Func} {s : Plugin T} (hl : Compiled E S l s) :
    Reaches E S Plugin.start s := by
  induction hl with
  | start => exact .refl
  | step _ hs ih => exact ih.tail hs

/-- The tables hold what has been compiled, and nothing else is entered. -/
structure Logged (S : ℕ → List Word → Prop) (l : List Func) (s : Plugin T) : Prop where
  nodup : (l.map Func.key).Nodup
  cached : ∀ w h f, s.tables.cachedBlocks w h = some f ↔ f ∈ l ∧ f.key = (w, h)
  blocks : ∀ w f, s.tables.blocks w = some f → f ∈ l
  inside : ∀ R code ks, s.stage = .inside R code ks → R.func ∈ l
  asked : ∀ f ∈ l, S f.pcWord f.words

namespace Logged

variable {l : List Func} {s s' : Plugin T}

theorem start : Logged S [] (start : Plugin T) where
  nodup := .nil
  cached w h f := ⟨by rintro ⟨⟩, by rintro ⟨⟨⟩, -⟩⟩
  blocks w f hf := by cases hf
  inside R code ks hs := by cases hs
  asked f hf := by cases hf

/-- A step that compiles nothing. -/
theorem same (h : Logged S l s) (hc : s'.tables.cachedBlocks = s.tables.cachedBlocks)
    (hb : ∀ w f, s'.tables.blocks w = some f → s.tables.blocks w = some f)
    (hin : ∀ R code ks, s'.stage = .inside R code ks → ∃ ks', s.stage = .inside R code ks') :
    Logged S l s' where
  nodup := h.nodup
  cached w hash f := by rw [hc, h.cached]
  blocks w f hf := h.blocks w f (hb w f hf)
  inside R code ks hs := by
    obtain ⟨ks', hs'⟩ := hin R code ks hs
    exact h.inside R code ks' hs'
  asked := h.asked

/-- What is looked up in vain has not been compiled. -/
theorem key_notMem (h : Logged S l s) {w : ℕ} {hash : BitVec 64}
    (hnone : s.tables.cachedBlocks w hash = none) : (w, hash) ∉ l.map Func.key := by
  intro hmem
  obtain ⟨f, hf, hkey⟩ := List.mem_map.1 hmem
  have hsome := (h.cached w hash f).2 ⟨hf, hkey⟩
  rw [hnone] at hsome
  cases hsome

/-- `get_jit_block` keeps the list. -/
theorem getJitBlock {h : Host T} {t : Tables} (hl : Logged S l ⟨.entry, h, t⟩) {pc : Word}
    (hpc : pc = low (h.regs registerNextPc))
    (hS : S (CPU.wordPc pc) (regionWords h.st.imem pc)) {R : Region} {code : HostCode T}
    (hR : R.func = ((t.cpu h.st.toArch).getJitBlock pc).1) (h' : Host T) :
    Logged S ((⟨.entry, h, t⟩ : Plugin T).compiles.toList ++ l)
      ⟨.inside R code [code], h', ((t.cpu h.st.toArch).getJitBlock pc).2.tables⟩ := by
  set c := t.cpu h.st.toArch
  have hcompiles : (⟨.entry, h, t⟩ : Plugin T).compiles = c.compiles pc := by rw [hpc]; rfl
  rw [hcompiles]
  obtain ⟨hnone, hcached, hfound⟩ | ⟨hsome, hnone, hfunc, hcached⟩ := c.getJitBlock_cases pc
  · have hmem : (c.getJitBlock pc).1 ∈ l := by
      obtain ⟨w, hw⟩ | ⟨w, hash, hw⟩ := hfound
      · exact hl.blocks w _ hw
      · exact ((hl.cached w hash _).1 hw).1
    rw [hnone, Option.toList_none, List.nil_append]
    refine ⟨hl.nodup, fun w hash f => ?_, fun w f hf => ?_, fun R' code' ks hs => ?_, hl.asked⟩
    · exact (iff_of_eq (congrArg (fun b => b w hash = some f) hcached)).trans (hl.cached w hash f)
    · obtain hf | rfl := c.blocks_getJitBlock pc hf
      · exact hl.blocks w f hf
      · exact hmem
    · obtain ⟨rfl, -, -⟩ := Stage.inside.inj hs
      exact hR ▸ hmem
  · set f₀ := (c.getJitBlock pc).1 with hf₀
    have hkey : f₀.key = (CPU.wordPc pc, regionHash c.state.imem pc) := by
      rw [CPU.regionHash_eq, Func.key, hfunc]
    have hnew : f₀.key ∉ l.map Func.key := hkey ▸ hl.key_notMem hnone
    rw [hsome, Option.toList_some, List.singleton_append]
    refine ⟨List.nodup_cons.2 ⟨hnew, hl.nodup⟩, fun w hash f => ?_, fun w f hf => ?_,
      fun R' code' ks hs => ?_, List.forall_mem_cons.2 ⟨?_, hl.asked⟩⟩
    · change (c.getJitBlock pc).2.cachedBlocks w hash = some f ↔ _
      rw [hcached, update_update_apply, ← hkey, List.mem_cons, or_and_right]
      by_cases hwh : (w, hash) = f₀.key
      · rw [if_pos hwh, hwh]
        have hnot : ¬(f ∈ l ∧ f.key = f₀.key) := fun h =>
          hnew (h.2 ▸ List.mem_map_of_mem h.1)
        rw [or_iff_left hnot, Option.some.injEq]
        exact ⟨fun h => ⟨h.symm, by rw [h]⟩, fun h => h.1.symm⟩
      · rw [if_neg hwh]
        have hnot : ¬(f = f₀ ∧ f.key = (w, hash)) := by
          rintro ⟨rfl, h⟩
          exact hwh h.symm
        rw [or_iff_right hnot]
        exact hl.cached w hash f
    · obtain hf | rfl := c.blocks_getJitBlock pc hf
      · exact List.mem_cons_of_mem _ (hl.blocks w f hf)
      · exact List.mem_cons_self
    · obtain ⟨rfl, -, -⟩ := Stage.inside.inj hs
      exact hR ▸ List.mem_cons_self
    · rw [hfunc]
      exact hS

/-- One step. -/
theorem step (hl : Logged S l s) (hstep : Step E S s s') :
    Logged S (s.compiles.toList ++ l) s' := by
  cases hstep with
  | block hpc hS hR hc => exact hl.getJitBlock hpc hS hR _
  | @run h t hhalt =>
    refine hl.same ?_ (fun w f hf => ?_) (by rintro _ _ _ ⟨⟩)
    · exact CPU.invalidateCode_cachedBlocks _
    · exact CPU.blocks_of_invalidateCode hf
  | @code R code ks ks' h h' t hs =>
    refine hl.same rfl (fun _ _ hf => hf) ?_
    rintro _ _ _ ⟨⟩
    exact ⟨ks, rfl⟩
  | @finish h t m hm hmode =>
    refine hl.same rfl (fun _ _ hf => hf) fun R code ks hs => ?_
    dsimp only at hs
    split at hs <;> cases hs
  | host | call | done | chain | leave | again =>
    exact hl.same rfl (fun _ _ hf => hf) (by rintro _ _ _ ⟨⟩)

end Logged

end Plugin

end ParallelRsp.Jit
