import ParallelRsp.Jit.Emission
import ParallelRsp.Jit.Plans

/-!
# The books of an emission

Whether an emission fails an assertion of the register cache, leaves a lock behind or mixes up two
values depends on the order of its calls, not on what the cache happens to hold. `Ledger` keeps what
it depends on: what host registers were handed out for, which of them cannot have been given to
another register since, and which registers are locked. `Tidy` is the discipline, one rule for each
call, and `Sound` says what a ledger says of a cache.

From a sound ledger a tidy plan runs (`Sound.run`), and every call on the way finds its assertions
true (`Sound.asserted`). At most two registers are locked when a third is asked for, so three
entries are enough.
-/

namespace ParallelRsp.Jit

open Codegen

variable {T : Target} {c c' : RegisterCache T}

/-! ### What is read at the same time -/

theorem name_injective : Function.Injective name := fun _ _ h => Nat.add_right_cancel (HReg.V.inj h)

@[simp] theorem name_inj {i j : ℕ} : name i = name j ↔ i = j := name_injective.eq_iff

@[simp] theorem name_ne_R {i n : ℕ} : name i ≠ .R n := HReg.noConfusion

@[simp] theorem name_ne_indirectPc {i : ℕ} : name i ≠ registerIndirectPc :=
  fun h => absurd (HReg.V.inj h) (by omega)

theorem ReadFirst.reads {k : HostCode T} {after : HReg → Prop} {d : HReg}
    (h : ReadFirst k after d) : d ∈ readsOf k ∨ after d := by
  induction k generalizing after with
  | op i => exact h.imp id And.right
  | seq a b iha ihb =>
    rcases iha h with ha | hb
    · exact .inl (List.mem_append_left _ ha)
    · exact (ihb hb).imp_left (List.mem_append_right _)
  | ite cond a b iha ihb =>
    rcases h with rfl | ha | hb
    · exact .inl List.mem_cons_self
    · exact (iha ha).imp_left fun ha => List.mem_cons_of_mem _ (List.mem_append_left _ ha)
    · exact (ihb hb).imp_left fun hb => List.mem_cons_of_mem _ (List.mem_append_right _ hb)
  | br cond l => exact h.imp_left List.mem_singleton.2
  | nil | label _ | jmp _ | leave _ => exact .inr h

theorem BothRead.symm {k : HostCode T} {after : HReg → Prop} {d e : HReg}
    (h : BothRead k after d e) : BothRead k after e d := by
  induction k generalizing after with
  | seq a b iha ihb => exact h.imp iha ihb
  | ite cond a b iha ihb => exact h.imp And.symm (Or.imp iha ihb)
  | _ => exact And.symm h

theorem BothRead.reads {k : HostCode T} {after : HReg → Prop} {d e : HReg}
    (h : BothRead k after d e) : d ∈ readsOf k ∨ after d := by
  induction k generalizing after with
  | seq a b iha ihb =>
    rcases h with ha | hb
    · rcases iha ha with ha | hb
      · exact .inl (List.mem_append_left _ ha)
      · exact hb.reads.imp_left (List.mem_append_right _)
    · exact (ihb hb).imp_left (List.mem_append_right _)
  | ite cond a b iha ihb =>
    rcases h with h | ha | hb
    · exact h.1.reads
    · exact (iha ha).imp_left fun ha => List.mem_cons_of_mem _ (List.mem_append_left _ ha)
    · exact (ihb hb).imp_left fun hb => List.mem_cons_of_mem _ (List.mem_append_right _ hb)
  | _ => exact (And.left h).reads

namespace Plan

variable {x : Call T} {xs : Plan T} {i j : ℕ}

theorem StillRead.reads (h : xs.StillRead i) : xs.Reads i := by
  induction xs generalizing i with
  | nil => exact h
  | cons x xs ih =>
    cases x with
    | code k =>
      rcases ReadFirst.reads h with hk | ⟨j, hj, hxs⟩
      · exact .inl hk
      · exact .inr (ih (name_injective hj ▸ hxs))
    | _ => exact .inr (ih h)

theorem BothRead.symm (h : xs.BothRead i j) : xs.BothRead j i := by
  induction xs generalizing i j with
  | nil => exact h
  | cons x xs ih =>
    cases x with
    | code k => exact h.imp Jit.BothRead.symm ih
    | _ => exact h.imp And.symm ih

theorem BothRead.reads (h : xs.BothRead i j) : xs.Reads i := by
  induction xs generalizing i j with
  | nil => exact h
  | cons x xs ih =>
    cases x with
    | code k =>
      rcases h with h | h
      · rcases h.reads with hk | ⟨n, hn, hxs⟩
        · exact .inl hk
        · exact .inr (name_injective hn ▸ hxs.reads)
      · exact .inr (ih h)
    | _ =>
      rcases h with h | h
      · exact h.1.reads
      · exact .inr (ih h)

theorem BothRead.cons (h : xs.BothRead (i + x.hands) (j + x.hands)) : BothRead (x :: xs) i j := by
  cases x with
  | _ => exact .inr h

end Plan

/-! ### Ledgers -/

/-- How much of the cache is known to be free. -/
inductive Room where
  /-- All entries. -/
  | clean
  /-- Some entry. -/
  | spare
  /-- Nothing is known. -/
  | unknown
  deriving DecidableEq

namespace Room

/-- What it says of a cache. -/
def Holds : Room → RegisterCache T → Prop
  | .clean, c => Clean c
  | .spare, c => Spare c
  | .unknown, _ => True

/-- What is left when one entry has been taken. -/
def less : Room → Room
  | .clean => .spare
  | _ => .unknown

theorem Holds.less {room : Room} (h : room.Holds c)
    (hone : ∃ i, ∀ j, j ≠ i → c'.entries j = c.entries j) : room.less.Holds c' := by
  cases room with
  | clean => exact Clean.spare h hone
  | spare | unknown => trivial

end Room

/-- A host register handed out. -/
structure Hand where
  /-- What for. -/
  version : Version
  /-- The register is still in it. -/
  cached : Bool

/-- The books. -/
structure Ledger where
  /-- The host registers handed out, the last one first. -/
  hands : List Hand := []
  /-- How often each register is written. -/
  writes : ℕ → ℕ := fun _ => 0
  /-- The registers locked. -/
  held : List ℕ := []
  /-- What is free. -/
  room : Room := .unknown

namespace Ledger

variable (L : Ledger) (r : ℕ)

/-- What host registers have been handed out for. -/
def asked : Asked := ⟨L.hands.map Hand.version, L.writes⟩

/-- The register, if it is in the cache, is not evicted from it. -/
def Keeps : Prop := r ∈ L.held ∨ L.room ≠ .unknown

instance : Decidable (L.Keeps r) := inferInstanceAs (Decidable (_ ∨ _))

/-- A register locked. -/
def lock : Ledger := { L with held := L.held ++ [r] }

/-- A register written. -/
def write : Ledger := { L with writes := Function.update L.writes r (L.writes r + 1) }

/-- An entry taken: registers that may be evicted no longer count as being in the cache. -/
def take (a : Hand) : Hand := { a with cached := a.cached && decide (L.Keeps a.version.register) }

/-- A host register handed out for a register, and the register locked. -/
def handOut : Ledger where
  hands := ⟨⟨r, L.writes r⟩, true⟩ :: L.hands.map L.take
  writes := L.writes
  held := L.held ++ [r]
  room := L.room.less

/-- No register counts as being in the cache any more. -/
def forget (room : Room) : Ledger :=
  { L with hands := L.hands.map fun a => { a with cached := false }, room := room }

/-- Register `r` may be asked for, with the calls `xs` to follow: an entry can be given away, and
if the host register is read at all, it differs from the others that are. -/
structure Admits (xs : Plan T) : Prop where
  /-- Two locks at most. -/
  held : L.held.length < 3
  /-- The others read stay where they are, and none is an older value of the register. -/
  apart : xs.Reads 0 → ∀ i, xs.Reads (i + 1) → ∃ a, L.hands[i]? = some a ∧ a.cached ∧
    L.Keeps a.version.register ∧
      (a.version.register = r → a.version = ⟨r, L.writes r⟩ ∨ ¬xs.BothRead 0 (i + 1))

@[simp] theorem held_write : (L.write r).held = L.held := rfl

@[simp] theorem held_lock : (L.lock r).held = L.held ++ [r] := rfl

@[simp] theorem held_forget (room : Room) : (L.forget room).held = L.held := rfl

@[simp] theorem held_handOut : (L.handOut r).held = L.held ++ [r] := rfl

@[simp] theorem asked_handOut : (L.handOut r).asked = L.asked.handOut r := by
  rw [asked, handOut, List.map_cons, List.map_map]
  rfl

@[simp] theorem asked_forget (room : Room) : (L.forget room).asked = L.asked := by
  rw [asked, forget, List.map_map]
  rfl

end Ledger

/-- The discipline: from the ledger every call of the plan is in order, and nothing is locked at
its end. -/
inductive Tidy : Ledger → Plan T → Prop where
  | nil {L : Ledger} (hk : L.held = []) : Tidy L []
  | load {L : Ledger} {ext : Extension} {r : ℕ} {xs : Plan T} (hr : r ≤ condBranchTaken)
      (hext : r = condBranchTaken → ext ≠ .zext) (hA : L.Admits r xs) (h : Tidy (L.handOut r) xs) :
      Tidy L (.load ext r :: xs)
  | modify {L : Ledger} {r : ℕ} {xs : Plan T} (h0 : r ≠ 0) (hA : (L.write r).Admits r xs)
      (h : Tidy ((L.write r).handOut r) xs) : Tidy L (.modify r :: xs)
  | immediate {L : Ledger} {r : ℕ} {x : BitVec T.wordSize} {xs : Plan T} (h0 : r ≠ 0)
      (hk : L.held.length < 3) (h : Tidy (((L.write r).forget .unknown).lock r) xs) :
      Tidy L (.immediate r x :: xs)
  | unlock {L : Ledger} {r : ℕ} {ks : List ℕ} {xs : Plan T} (hp : L.held.Perm (r :: ks))
      (h : Tidy { L with held := ks } xs) : Tidy L (.unlock r :: xs)
  | flushWindow {L : Ledger} {xs : Plan T} (hk : L.held = []) (h : Tidy (L.forget .clean) xs) :
      Tidy L (.flushWindow :: xs)
  | flushCallerSave {L : Ledger} {xs : Plan T} (hk : L.held = [])
      (h : Tidy (L.forget .unknown) xs) : Tidy L (.flushCallerSave :: xs)
  | flushMips {L : Ledger} {r : ℕ} {xs : Plan T} (hk : L.held = [])
      (h : Tidy (L.forget .unknown) xs) : Tidy L (.flushMips r :: xs)
  | reset {L : Ledger} {xs : Plan T} (hk : L.held = []) (h : Tidy (L.forget .clean) xs) :
      Tidy L (.reset :: xs)
  | code {L : Ledger} {k : (ℕ → HReg) → HostCode T} {xs : Plan T} (h : Tidy L xs) :
      Tidy L (.code k :: xs)

/-! ### What a ledger says of a cache -/

/-- The host register number `i` is `d`, handed out as `a` says. -/
def Ledger.Given (L : Ledger) (hs : List HReg) (i : ℕ) (d : HReg) (a : Hand) : Prop :=
  hs[i]? = some d ∧ L.hands[i]? = some a

/-- The host registers are those that were there before `forget`. -/
theorem Ledger.given_forget {L : Ledger} {hs : List HReg} (room : Room) {i : ℕ} {d : HReg}
    {a : Hand} (ha : (L.forget room).Given hs i d a) :
    ∃ b, L.Given hs i d b ∧ a = { b with cached := false } := by
  obtain ⟨hd, ha⟩ := ha
  rw [forget, List.getElem?_map] at ha
  obtain ⟨b, hb, rfl⟩ := Option.map_eq_some_iff.1 ha
  exact ⟨b, ⟨hd, hb⟩, rfl⟩

/-- The host registers that were there before one is handed out. -/
theorem Ledger.given_handOut {L : Ledger} {r : ℕ} {hs : List HReg} {i : ℕ} {d e : HReg}
    {a : Hand} (ha : (L.handOut r).Given (d :: hs) (i + 1) e a) :
    ∃ b, L.Given hs i e b ∧ a = L.take b := by
  obtain ⟨he, ha⟩ := ha
  rw [handOut, List.getElem?_cons_succ, List.getElem?_map] at ha
  obtain ⟨b, hb, rfl⟩ := Option.map_eq_some_iff.1 ha
  exact ⟨b, ⟨he, hb⟩, rfl⟩

/-- The ledger is right about the cache and the host registers handed out, as far as the calls `xs`
to follow depend on it. -/
structure Sound (L : Ledger) (hs : List HReg) (xs : Plan T) (c : RegisterCache T) : Prop where
  /-- The cache has a meaning. -/
  rep : ∃ h v, Rep c h v
  /-- The locks. -/
  locked : Locked c L.held
  /-- All host registers handed out are in the books. -/
  length : hs.length = L.hands.length
  /-- Only these are read. -/
  closed : ∀ i, xs.Reads i → i < L.hands.length
  /-- The places. -/
  placed : ∀ i d a, L.Given hs i d a → a.cached → At c a.version.register d .unknown
  /-- Host registers are the same for the same register only. -/
  apart : ∀ i j, i < j → xs.Reads i → xs.Reads j → ∀ d e a b,
    L.Given hs i d a → L.Given hs j e b →
      (d = e ↔ a.version.register = b.version.register) ∧
        (a.version.register = b.version.register → a.version = b.version ∨ ¬xs.BothRead i j)
  /-- What is free. -/
  room : L.room.Holds c

/-- Nothing has been handed out. -/
theorem Sound.init {xs : Plan T} (hx : ∀ i, ¬xs.Reads i) : Sound {} [] xs {} where
  rep := ⟨Host.zero, _, empty_default.clean.rep _⟩
  locked := empty_default.locked
  length := rfl
  closed i hi := absurd hi (hx i)
  placed _ _ _ hg := absurd hg.1 (by simp)
  apart _ _ _ _ _ _ _ _ _ hg := absurd hg.1 (by simp)
  room := trivial

/-- The same host register for the same register only. -/
theorem Rep.at_inj {h : Host T} {v : View T} (hR : Rep c h v) {r k : ℕ} {d e : HReg}
    {s t : SignState} (hd : At c r d s) (he : At c k e t) : d = e ↔ r = k := by
  obtain ⟨i, hil, rfl, rfl, -⟩ := hd
  obtain ⟨j, hjl, rfl, rfl, -⟩ := he
  refine ⟨fun hij => ?_, fun hij => ?_⟩
  · rw [home_injective hij]
  · rw [hR.distinct i j hil hjl hij]

theorem Clean.spare_self (hC : Clean c) : Spare c :=
  ⟨⟨0, Nat.lt_of_lt_of_le (by decide) T.enough⟩, hC _⟩

/-- What `immediate_mips_register` does to the cache does not depend on the immediate. -/
theorem flat_immediateMipsRegister {r : ℕ} {x : BitVec T.wordSize} {d : HReg}
    {ks : List (HostCode T)} (y : BitVec T.wordSize)
    (h : (immediateMipsRegister r x).flat c = some (d, ks, c')) :
    ∃ ks', (immediateMipsRegister r y).flat c = some (d, ks', c') := by
  rw [immediateMipsRegister, Emit.flat_bind] at h ⊢
  cases hm : Emit.flat (modifyEntry r) c with
  | none =>
    rw [hm] at h
    cases h
  | some a =>
    rw [hm] at h
    cases h
    exact ⟨_, rfl⟩

namespace Sound

variable {L : Ledger} {hs : List HReg} {x : Call T} {xs : Plan T} {r : ℕ} {room : Room}

theorem safe (hS : Sound L hs xs c) (hk : L.Keeps r) : Safe c L.held r := by
  refine hk.imp_right fun hne => ?_
  have hroom := hS.room
  revert hne hroom
  cases L.room with
  | clean => exact fun _ hC => Clean.spare_self hC
  | spare => exact fun _ hspare => hspare
  | unknown => exact fun hne => absurd rfl hne

theorem write (hS : Sound L hs xs c) (r : ℕ) : Sound (L.write r) hs xs c :=
  ⟨hS.rep, hS.locked, hS.length, hS.closed, hS.placed, hS.apart, hS.room⟩

/-- A call that hands out nothing, as far as the books go. -/
theorem skip (hx : x.hands = 0) (hS : Sound L hs (x :: xs) c) : Sound L hs xs c where
  rep := hS.rep
  locked := hS.locked
  length := hS.length
  closed i hi := hS.closed i (.inr (by rwa [hx]))
  placed := hS.placed
  apart i j hij hi hj d e a b ha hb := by
    have hreads {i : ℕ} (hi : xs.Reads i) : Plan.Reads (x :: xs) i := .inr (by rwa [hx])
    obtain ⟨heq, hold⟩ := hS.apart i j hij (hreads hi) (hreads hj) d e a b ha hb
    refine ⟨heq, fun hr => (hold hr).imp_right fun hno hboth => hno (.cons ?_)⟩
    rwa [hx]
  room := hS.room

/-- Another cache, of which less is known. -/
theorem renew {ks : List ℕ} (hS : Sound L hs xs c) (hR : ∃ h v, Rep c' h v) (hL : Locked c' ks)
    (hroom : room.Holds c') : Sound { L.forget room with held := ks } hs xs c' where
  rep := hR
  locked := hL
  length := by rw [hS.length, Ledger.forget, List.length_map]
  closed i hi := by
    rw [Ledger.forget, List.length_map]
    exact hS.closed i hi
  placed i d a ha hc := by
    obtain ⟨b, -, rfl⟩ := Ledger.given_forget room ha
    cases hc
  apart i j hij hi hj d e a b ha hb := by
    obtain ⟨a, ha', rfl⟩ := Ledger.given_forget room ha
    obtain ⟨b, hb', rfl⟩ := Ledger.given_forget room hb
    exact hS.apart i j hij hi hj d e a b ha' hb'
  room := hroom

/-- A lock taken off. -/
theorem unlock {ks : List ℕ} (hS : Sound L hs xs c) (hmem : r ∈ L.held) (hR : ∃ h v, Rep c' h v)
    (hL : Locked c' ks) (hA : ∀ k d s, At c k d s → At c' k d s) (hspare : Spare c → Spare c') :
    Sound { L with held := ks } hs xs c' where
  rep := hR
  locked := hL
  length := hS.length
  closed := hS.closed
  placed i d a ha hc := hA _ _ _ (hS.placed i d a ha hc)
  apart := hS.apart
  room := by
    have hroom := hS.room
    show L.room.Holds c'
    revert hroom
    cases L.room with
    | clean =>
      intro hC
      obtain ⟨i, hil, -⟩ := hS.locked.held r hmem
      exact absurd hil (hC i)
    | spare => exact hspare
    | unknown => exact id

/-- A host register handed out. -/
theorem handOut {d : HReg} {keep : SignState → Prop} (hx : x.hands = 1)
    (hS : Sound L hs (x :: xs) c) (hA : L.Admits r xs) (hR : ∃ h v, Rep c' h v)
    (hL : Locked c' (L.held ++ [r])) (hd : At c' r d .unknown) (hK : Kept c c' L.held r keep)
    (hkeep : keep .unknown) : Sound (L.handOut r) (d :: hs) xs c' where
  rep := hR
  locked := hL
  length := by
    rw [List.length_cons, hS.length, Ledger.handOut, List.length_cons, List.length_map]
  closed i hi := by
    rw [Ledger.handOut, List.length_cons, List.length_map]
    cases i with
    | zero => exact Nat.zero_lt_succ _
    | succ i => exact Nat.succ_lt_succ (hS.closed i (.inr (by rwa [hx])))
  placed i e a ha hc := by
    cases i with
    | zero =>
      obtain ⟨he, ha⟩ := ha
      cases he
      cases ha
      exact hd
    | succ i =>
      obtain ⟨b, hb, rfl⟩ := Ledger.given_handOut ha
      obtain ⟨hc, hk⟩ := Bool.and_eq_true_iff.1 hc
      exact hK.stay _ (hS.safe (of_decide_eq_true hk)) e _ (hS.placed i e b hb hc) fun _ => hkeep
  apart i j hij hi hj e f a b ha hb := by
    obtain ⟨j, rfl⟩ := Nat.exists_eq_succ_of_ne_zero (Nat.ne_of_gt (Nat.zero_lt_of_lt hij))
    obtain ⟨b, hb', rfl⟩ := Ledger.given_handOut hb
    cases i with
    | zero =>
      -- the new one and one that was there
      obtain ⟨he, ha⟩ := ha
      cases he
      cases ha
      obtain ⟨b', hj', hc, hk, hold⟩ := hA.apart hi j hj
      obtain rfl := Option.some.inj (hb'.2.symm.trans hj')
      obtain ⟨h', v', hR'⟩ := hR
      have hat := hK.stay _ (hS.safe hk) f _ (hS.placed j f b hb' hc) fun _ => hkeep
      refine ⟨hR'.at_inj hd hat, fun hr => ?_⟩
      exact (hold hr.symm).imp_left Eq.symm
    | succ i =>
      obtain ⟨a, ha', rfl⟩ := Ledger.given_handOut ha
      have hreads {i : ℕ} (hi : xs.Reads (i + 1)) : Plan.Reads (x :: xs) i := .inr (by rwa [hx])
      obtain ⟨heq, hold⟩ := hS.apart i j (Nat.lt_of_succ_lt_succ hij) (hreads hi) (hreads hj)
        e f a b ha' hb'
      refine ⟨heq, fun hr => (hold hr).imp_right fun hno hboth => hno (.cons ?_)⟩
      rwa [hx]
  room := hS.room.less hK.one

/-- One call: it succeeds, and the books are right again. -/
theorem step (hT : Tidy L (x :: xs)) (hS : Sound L hs (x :: xs) c) :
    ∃ L' hs' ks c', (x.run hs).flat c = some (hs', ks, c') ∧ Tidy L' xs ∧ Sound L' hs' xs c' ∧
      L'.asked = L.asked.next x := by
  obtain ⟨h, v, hR⟩ := hS.rep
  have hL := hS.locked
  cases hT with
  | load hr hext hA hT =>
    obtain ⟨d, ks, c', h', hm, hR', hL', hd, hK⟩ :=
      Emit.flat_of_falls (falls_loadMipsRegister (E := Env.simple) hR hL hr hA.held hext)
    obtain ⟨i, hil, hir, hid, -⟩ := hd
    exact ⟨_, _, ks, c', Emit.flat_bind_pure hm _, hT,
      hS.handOut rfl hA ⟨h', v, hR'⟩ hL' ⟨i, hil, hir, hid, .inl rfl⟩ hK (.inr (.inl rfl)),
      L.asked_handOut _⟩
  | modify h0 hA hT =>
    obtain ⟨d, ks, c', h', hm, -, hW, hL', hO, hK⟩ :=
      Emit.flat_of_falls (falls_modifyMipsRegister (E := Env.simple) hR hL h0 hA.held)
    obtain ⟨i, hil, hir, hid, -⟩ := hO
    exact ⟨_, _, ks, c', Emit.flat_bind_pure hm _, hT,
      (hS.write _).handOut rfl hA ⟨_, _, hW 0#_ fun _ => hasSign_zero _⟩ hL'
        ⟨i, hil, hir, hid, .inl rfl⟩ hK rfl, Ledger.asked_handOut _ _⟩
  | immediate h0 hk hT =>
    obtain ⟨d, ks, c', h', hm, hR', hL'⟩ :=
      Emit.flat_of_falls
        (falls_immediateMipsRegister (E := Env.simple) hR hL h0 hk (hasSign_zero _))
    obtain ⟨ks', hm⟩ := flat_immediateMipsRegister _ hm
    exact ⟨_, _, ks', c', Emit.flat_bind_pure hm _, hT,
      ((hS.skip rfl).write _).renew ⟨h', _, hR'⟩ hL' trivial, Ledger.asked_forget _ .unknown⟩
  | unlock hp hT =>
    obtain ⟨_, ks, c', h', hm, -, hR', hL', hA, hspare⟩ :=
      Emit.flat_of_falls (falls_unlockMipsRegister (M := lightning Env.simple) hR hL hp)
    exact ⟨_, _, ks, c', Emit.flat_bind_pure hm _, hT,
      (hS.skip rfl).unlock (hp.mem_iff.2 List.mem_cons_self) ⟨h, v, hR'⟩ hL' hA hspare, rfl⟩
  | flushWindow hk hT =>
    rw [hk] at hL
    obtain ⟨_, ks, c', h', hm, -, hR', hL', hC, -⟩ :=
      Emit.flat_of_falls (falls_flushRegisterWindow (E := Env.simple) hR hL)
    rw [← hk] at hL'
    exact ⟨_, _, ks, c', Emit.flat_bind_pure hm _, hT, (hS.skip rfl).renew ⟨h', v, hR'⟩ hL' hC,
      L.asked_forget _⟩
  | flushCallerSave hk hT =>
    rw [hk] at hL
    obtain ⟨_, ks, c', h', hm, hF, -⟩ :=
      Emit.flat_of_falls (falls_flushCallerSaveRegisters (E := Env.simple) hR hL)
    have hL' := hF.locked
    rw [← hk] at hL'
    exact ⟨_, _, ks, c', Emit.flat_bind_pure hm _, hT,
      (hS.skip rfl).renew ⟨h', v, hF.rep⟩ hL' trivial, L.asked_forget _⟩
  | flushMips hk hT =>
    rw [hk] at hL
    obtain ⟨_, ks, c', h', hm, hF, -⟩ :=
      Emit.flat_of_falls (falls_flushMipsRegister (E := Env.simple) hR hL)
    have hL' := hF.locked
    rw [← hk] at hL'
    exact ⟨_, _, ks, c', Emit.flat_bind_pure hm _, hT,
      (hS.skip rfl).renew ⟨h', v, hF.rep⟩ hL' trivial, L.asked_forget _⟩
  | reset hk hT =>
    have hC : Clean ({ c with entries := fun _ => {} } : RegisterCache T) :=
      fun _ => Bool.false_ne_true
    have hL' : Locked ({ c with entries := fun _ => {} } : RegisterCache T) L.held := by
      rw [hk]
      exact ⟨fun _ => rfl, fun _ hk => absurd hk List.not_mem_nil⟩
    exact ⟨_, _, [], _, Emit.flat_bind_pure rfl _, hT,
      (hS.skip rfl).renew ⟨h, _, hC.rep h⟩ hL' hC, L.asked_forget _⟩
  | code hT => exact ⟨L, hs, _, c, Emit.flat_bind_pure rfl _, hT, hS.skip rfl, rfl⟩

/-- A tidy plan runs, as far as one looks. -/
theorem run (xs : Plan T) {ys : Plan T} (hT : Tidy L (xs ++ ys)) (hS : Sound L hs (xs ++ ys) c) :
    ∃ L' hs' ks c', (xs.run hs).flat c = some (hs', ks, c') ∧ Tidy L' ys ∧ Sound L' hs' ys c' ∧
      L'.asked = xs.asked L.asked := by
  induction xs generalizing L hs c with
  | nil => exact ⟨L, hs, [], c, rfl, hT, hS, rfl⟩
  | cons x xs ih =>
    obtain ⟨L₁, hs₁, ks₁, c₁, hm₁, hT₁, hS₁, hasked₁⟩ := hS.step hT
    obtain ⟨L₂, hs₂, ks₂, c₂, hm₂, hT₂, hS₂, hasked₂⟩ := ih hT₁ hS₁
    refine ⟨L₂, hs₂, ks₁ ++ ks₂, c₂, ?_, hT₂, hS₂, ?_⟩
    · rw [Plan.run, Emit.flat_bind, hm₁, Option.bind_some, hm₂]
      rfl
    · rw [hasked₂, hasked₁]
      rfl

end Sound

/-! ### The assertions -/

namespace RegisterCache

/-- The entry can be given to the register: it is live for the register, free or not locked, and
if another register is written back, that is not register 0. -/
def Grants (c : RegisterCache T) (r : ℕ) (i : Fin T.numFree) : Prop :=
  ((c.entries i).isLive ∧ (c.entries i).mipsRegister = r ∨ ¬(c.entries i).isLive ∨
    (c.entries i).numLocks = 0) ∧
  ((c.entries i).isLive → (c.entries i).mipsRegister ≠ r → (c.entries i).modified →
    (c.entries i).mipsRegister ≠ 0)

/-- The entry can be flushed. -/
def Flushable (c : RegisterCache T) (i : Fin T.numFree) : Prop :=
  (c.entries i).isLive → (c.entries i).numLocks = 0 ∧
    ((c.entries i).modified → (c.entries i).mipsRegister ≠ 0)

end RegisterCache

/-- The assertions of a call. -/
def Call.Asserted (c : RegisterCache T) : Call T → Prop
  | .load _ r => r ≤ condBranchTaken ∧ ∃ i, c.findRegister r = some i ∧ c.Grants r i
  | .modify r | .immediate r _ => ∃ i, c.findRegister r = some i ∧ c.Grants r i
  | .unlock r => ∃ i, c.findLive r = some i ∧ 0 < (c.entries i).numLocks
  | .flushWindow | .flushCallerSave | .flushMips _ => ∀ i, c.Flushable i
  | .reset | .code _ => True

namespace Sound

variable {L : Ledger} {hs : List HReg} {x : Call T} {xs : Plan T} {r : ℕ}

theorem grants (hS : Sound L hs xs c) (hk : L.held.length < 3) (r : ℕ) :
    ∃ i, c.findRegister r = some i ∧ c.Grants r i := by
  obtain ⟨h, v, hR⟩ := hS.rep
  obtain ⟨i, hi, hfound⟩ := findRegister_spec hS.locked hR.distinct (hk.trans_le T.enough) r
  refine ⟨i, hi, ?_, fun hl _ hm h0 => ((hR.entry i hl).zero h0).1 hm⟩
  rcases hfound with hlr | ⟨-, h0, -⟩
  · exact .inl hlr
  · exact .inr (.inr h0)

theorem flushable (hS : Sound L hs xs c) (hk : L.held = []) (i : Fin T.numFree) :
    c.Flushable i := by
  obtain ⟨h, v, hR⟩ := hS.rep
  have hL := hS.locked
  rw [hk] at hL
  exact fun hl => ⟨hL.numLocks_eq_zero i, fun hm h0 => ((hR.entry i hl).zero h0).1 hm⟩

/-- The assertions of the call that comes next hold. -/
theorem asserted (hT : Tidy L (x :: xs)) (hS : Sound L hs (x :: xs) c) : x.Asserted c := by
  cases hT with
  | load hr hext hA hT => exact ⟨hr, hS.grants hA.held _⟩
  | modify h0 hA hT => exact hS.grants hA.held _
  | immediate h0 hk hT => exact hS.grants hk _
  | unlock hp hT =>
    rename_i r ks
    have hmem : r ∈ L.held := hp.mem_iff.2 List.mem_cons_self
    cases hl : c.findLive r with
    | none =>
      obtain ⟨i, hil, hir⟩ := hS.locked.held r hmem
      exact absurd hir (c.findLive_none hl i hil)
    | some i =>
      obtain ⟨hil, hir⟩ := c.findLive_some hl
      refine ⟨i, hl, ?_⟩
      rw [hS.locked.count, if_pos hil, hir]
      exact List.count_pos_iff.2 hmem
  | flushWindow hk hT | flushCallerSave hk hT | flushMips hk hT => exact hS.flushable hk
  | reset hk hT | code hT => trivial

/-- A host register that is read has been handed out for some value. -/
theorem given (hS : Sound L hs xs c) {i : ℕ} (hi : xs.Reads i) :
    ∃ d v, hs[i]? = some d ∧ L.asked.values[i]? = some v := by
  have hlt := hS.closed i hi
  have hlt' : i < L.asked.values.length := by rwa [Ledger.asked, List.length_map]
  rw [← hS.length] at hlt
  exact ⟨hs[i], L.asked.values[i], List.getElem?_eq_getElem hlt, List.getElem?_eq_getElem hlt'⟩

/-- Host registers whose contents are to be read at the same time are the same for the same value
only. -/
theorem distinct (hS : Sound L hs xs c) {i j : ℕ} {d e : HReg} {v w : Version}
    (hij : xs.BothRead i j) (hd : hs[i]? = some d) (he : hs[j]? = some e)
    (hv : L.asked.values[i]? = some v) (hw : L.asked.values[j]? = some w) : d = e ↔ v = w := by
  have main {i j : ℕ} {d e : HReg} {v w : Version} (hlt : i < j) (hij : xs.BothRead i j)
      (hd : hs[i]? = some d) (he : hs[j]? = some e)
      (hv : L.asked.values[i]? = some v) (hw : L.asked.values[j]? = some w) : d = e ↔ v = w := by
    obtain ⟨a, ha, rfl⟩ := Option.map_eq_some_iff.1 (List.getElem?_map.symm.trans hv)
    obtain ⟨b, hb, rfl⟩ := Option.map_eq_some_iff.1 (List.getElem?_map.symm.trans hw)
    obtain ⟨heq, hold⟩ :=
      hS.apart i j hlt hij.reads hij.symm.reads d e a b ⟨hd, ha⟩ ⟨he, hb⟩
    refine heq.trans ⟨fun hr => (hold hr).resolve_right fun hno => hno hij, ?_⟩
    exact congrArg Version.register
  rcases Nat.lt_trichotomy i j with hlt | rfl | hlt
  · exact main hlt hij hd he hv hw
  · exact iff_of_true (Option.some.inj (hd.symm.trans he)) (Option.some.inj (hv.symm.trans hw))
  · exact eq_comm.trans ((main hlt hij.symm he hd hw hv).trans eq_comm)

end Sound

end ParallelRsp.Jit
