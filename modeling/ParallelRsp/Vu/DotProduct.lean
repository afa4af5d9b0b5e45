import Mathlib.Algebra.BigOperators.Group.List.Basic
import ParallelRsp.Vu.Flags
import ParallelRsp.Vu.Multiply

/-!
# Products of fixed-point numbers

A number with 16 bits before the point and 16 behind it is kept in two registers. Four
multiplications of halves, the first one plain, make up the product of two such numbers in the
accumulator, and going on with the accumulating ones adds the next product: this is how a
vertex is multiplied by a matrix. A last `VMADN` of nothing fetches the low half of the sum.

* `macs_acc`: a run of accumulating multiplications adds the sum of their products.
* `dot_product`: the run of a whole dot product leaves the exact sum, as far as 48 bits hold it,
  and its destinations hold the sum clamped to 32 bits.
-/

namespace ParallelRsp

open Simd

/-! ### Runs of multiplications -/

/-- An accumulating multiplication with its operands. -/
structure Mac where
  /-- The operation. -/
  op : MacOp
  /-- The element selector. -/
  e : Fin 16
  /-- The first source. -/
  vs : Fin 32
  /-- The second source. -/
  vt : Fin 32

/-- The instruction, with destination `vd`. -/
def Mac.toOp (vd : Fin 32) (m : Mac) : Cp2Op := .vu m.op.code m.e vd m.vs m.vt

/-- What it adds to lane `i` of the accumulator. -/
def Mac.term (b : Build) (cp2 : CP2) (i : Fin 8) (m : Mac) : ℤ :=
  m.op.product (cp2.regs m.vs i) (VU.loadVt b m.e m.vt cp2 i)

theorem Mac.term_congr {b : Build} {c c' : CP2} {m : Mac} (hs : c.regs m.vs = c'.regs m.vs)
    (ht : c.regs m.vt = c'.regs m.vt) (i : Fin 8) : m.term b c i = m.term b c' i := by
  rw [Mac.term, Mac.term, VU.loadVt, VU.loadVt, hs, ht]

theorem vuop_mac_acc (b : Build) (m : Mac) (vd : Fin 32) (cp2 : CP2) (i : Fin 8) :
    acc48 (VU.vuop b m.e vd m.vs m.vt cp2 m.op.code).acc i =
      acc48 cp2.acc i + BitVec.ofInt 48 (m.term b cp2 i) := by
  obtain ⟨op, e, vs, vt⟩ := m
  cases op with
  | vmacf => exact rspVmacfVmacu_acc _ _ _ _ _ i false
  | vmacu => exact rspVmacfVmacu_acc _ _ _ _ _ i true
  | vmadl => exact rspVmadlVmudl_acc b _ _ _ _ _ i
  | vmadm => exact rspVmadmVmudm_acc _ _ _ _ _ i
  | vmadn => exact rspVmadnVmudn_acc b _ _ _ _ _ i
  | vmadh => exact rspVmadhVmudh_acc _ _ _ _ _ i

theorem vuop_mac_regs (b : Build) (m : Mac) (vd : Fin 32) (cp2 : CP2) {r : Fin 32} (hr : r ≠ vd) :
    (VU.vuop b m.e vd m.vs m.vt cp2 m.op.code).regs r = cp2.regs r := by
  obtain ⟨op, e, vs, vt⟩ := m
  have hreg (x : MulOut) : (VU.storeMul cp2 vd x).regs r = cp2.regs r :=
    Function.update_of_ne hr _ _
  cases op <;> exact hreg _

/-- A run that writes none of its sources adds the sum of its products. -/
theorem macs_acc (b : Build) {vd : Fin 32} {ms : List Mac}
    (h : ∀ m ∈ ms, m.vs ≠ vd ∧ m.vt ≠ vd) (s : Arch) (i : Fin 8) :
    acc48 (runOps b (ms.map (Mac.toOp vd)) s).cp2.acc i =
        acc48 s.cp2.acc i + BitVec.ofInt 48 (ms.map (Mac.term b s.cp2 i)).sum ∧
      ∀ r ≠ vd, (runOps b (ms.map (Mac.toOp vd)) s).cp2.regs r = s.cp2.regs r := by
  induction ms generalizing s with
  | nil => exact ⟨(BitVec.add_zero _).symm, fun _ _ => rfl⟩
  | cons m ms ih =>
    obtain ⟨hacc, hregs⟩ := ih (fun m' hm' => h m' (List.mem_cons_of_mem _ hm'))
      (Cp2Op.run b s (m.toOp vd))
    have hkeep (r : Fin 32) (hr : r ≠ vd) :
        (Cp2Op.run b s (m.toOp vd)).cp2.regs r = s.cp2.regs r :=
      vuop_mac_regs b m vd s.cp2 hr
    have hterms : ms.map (Mac.term b (Cp2Op.run b s (m.toOp vd)).cp2 i) =
        ms.map (Mac.term b s.cp2 i) := by
      refine List.map_congr_left fun m' hm' => ?_
      obtain ⟨hs, ht⟩ := h m' (List.mem_cons_of_mem _ hm')
      exact Mac.term_congr (hkeep _ hs) (hkeep _ ht) i
    have hfirst : acc48 (Cp2Op.run b s (m.toOp vd)).cp2.acc i = _ := vuop_mac_acc b m vd s.cp2 i
    rw [hterms, hfirst] at hacc
    refine ⟨?_, fun r hr => (hregs r hr).trans (hkeep r hr)⟩
    rw [List.map_cons, List.map_cons, List.sum_cons, BitVec.ofInt_add, ← BitVec.add_assoc]
    exact hacc

/-! ### One product -/

/-- Two fixed-point numbers to be multiplied: for each one the registers of its halves. -/
structure Factors where
  /-- The first number, before the point. -/
  sHi : Fin 32
  /-- Behind the point. -/
  sLo : Fin 32
  /-- The second number, before the point. -/
  tHi : Fin 32
  /-- Behind the point. -/
  tLo : Fin 32
  /-- The element selector of the second number. -/
  e : Fin 16

namespace Factors

variable (f : Factors)

/-- The registers it reads. -/
def sources : List (Fin 32) := [f.sHi, f.sLo, f.tHi, f.tLo]

/-- The product, half by half. -/
def macs : List Mac :=
  [⟨.vmadl, f.e, f.sLo, f.tLo⟩, ⟨.vmadm, f.e, f.sHi, f.tLo⟩, ⟨.vmadn, f.e, f.sLo, f.tHi⟩,
    ⟨.vmadh, f.e, f.sHi, f.tHi⟩]

/-- The same, from a cleared accumulator. -/
def firstOps (vd : Fin 32) : List Cp2Op :=
  .vu MudOp.vmudl.code f.e vd f.sLo f.tLo :: f.macs.tail.map (Mac.toOp vd)

/-- The first number, as an integer. -/
def s (cp2 : CP2) (i : Fin 8) : ℤ := (cp2.regs f.sHi i ++ cp2.regs f.sLo i : Word).toInt

/-- The second number. -/
def t (b : Build) (cp2 : CP2) (i : Fin 8) : ℤ :=
  (VU.loadVt b f.e f.tHi cp2 i ++ VU.loadVt b f.e f.tLo cp2 i : Word).toInt

/-- The product as a fixed-point number: what is further behind the point is dropped. -/
def product (b : Build) (cp2 : CP2) (i : Fin 8) : ℤ := f.s cp2 i * f.t b cp2 i / 2 ^ 16

theorem product_eq (b : Build) (cp2 : CP2) (i : Fin 8) :
    (f.macs.map (Mac.term b cp2 i)).sum = f.product b cp2 i := by
  rw [product, s, t, toInt_append16 _ _ (by decide), toInt_append16 _ _ (by decide)]
  simp only [macs, List.map_cons, List.map_nil, List.sum_cons, List.sum_nil, Mac.term,
    MacOp.product]
  generalize (cp2.regs f.sHi i).toInt = sh
  generalize (VU.loadVt b f.e f.tHi cp2 i).toInt = th
  generalize (cp2.regs f.sLo i).toNat = sl
  generalize (VU.loadVt b f.e f.tLo cp2 i).toNat = tl
  have hexpand : (2 ^ 16 * sh + sl) * (2 ^ 16 * th + tl) =
      (sl * tl : ℤ) + 2 ^ 16 * (2 ^ 16 * (sh * th) + sh * tl + sl * th) := by ring
  rw [hexpand, Int.add_mul_ediv_left _ _ (by norm_num)]
  ring

theorem macs_sources {vd : Fin 32} (h : vd ∉ f.sources) :
    ∀ m ∈ f.macs, m.vs ≠ vd ∧ m.vt ≠ vd := by
  simp only [sources, List.mem_cons, List.not_mem_nil, or_false, not_or] at h
  obtain ⟨h1, h2, h3, h4⟩ := h
  simp only [macs, List.forall_mem_cons, List.not_mem_nil, false_implies, implies_true, and_true]
  exact ⟨⟨Ne.symm h2, Ne.symm h4⟩, ⟨Ne.symm h1, Ne.symm h4⟩, ⟨Ne.symm h2, Ne.symm h3⟩,
    Ne.symm h1, Ne.symm h3⟩

/-- A single product never overflows the accumulator. -/
theorem product_bounds (b : Build) (cp2 : CP2) (i : Fin 8) :
    -2 ^ 47 ≤ f.product b cp2 i ∧ f.product b cp2 i < 2 ^ 47 := by
  have h1 := BitVec.toInt_lt (x := (cp2.regs f.sHi i ++ cp2.regs f.sLo i : Word))
  have h2 := BitVec.le_toInt (x := (cp2.regs f.sHi i ++ cp2.regs f.sLo i : Word))
  have h3 := BitVec.toInt_lt
    (x := (VU.loadVt b f.e f.tHi cp2 i ++ VU.loadVt b f.e f.tLo cp2 i : Word))
  have h4 := BitVec.le_toInt
    (x := (VU.loadVt b f.e f.tHi cp2 i ++ VU.loadVt b f.e f.tLo cp2 i : Word))
  rw [product, s, t]
  generalize (cp2.regs f.sHi i ++ cp2.regs f.sLo i : Word).toInt = x at *
  generalize (VU.loadVt b f.e f.tHi cp2 i ++ VU.loadVt b f.e f.tLo cp2 i : Word).toInt = y at *
  norm_num at h1 h2 h3 h4
  have hle : x * y ≤ 2 ^ 62 := by nlinarith
  have hge : -2 ^ 62 ≤ x * y := by nlinarith
  omega

end Factors

theorem sum_flatMap_macs (b : Build) (cp2 : CP2) (i : Fin 8) (fs : List Factors) :
    ((fs.flatMap Factors.macs).map (Mac.term b cp2 i)).sum =
      (fs.map fun f => f.product b cp2 i).sum := by
  induction fs with
  | nil => rfl
  | cons f fs ih =>
    rw [List.flatMap_cons, List.map_append, List.sum_append, Factors.product_eq, ih, List.map_cons,
      List.sum_cons]

/-! ### The clamped sum -/

/-- The two halves that `VMADH` and `VMADN` return are the accumulator clamped to 32 bits. -/
theorem clamped_halves (hi md lo : BitVec 16) :
    (clampSigned (join3 hi md lo) ++ clampLow (join3 hi md lo) : Word).toInt =
      max (-2 ^ 31) (min (join3 hi md lo).toInt (2 ^ 31 - 1)) := by
  have hlo := lo.isLt
  rw [toInt_append16 _ _ (by decide), clampSigned, clampLow, accTop_join3, toInt_join3,
    BitVec.toInt_ofInt_eq_self (by omega) (by omega) (by omega), extractLsb'_join3_lo]
  by_cases hfit : -32768 ≤ 2 ^ 16 * hi.toInt + (md.toNat : ℤ) ∧
      2 ^ 16 * hi.toInt + (md.toNat : ℤ) ≤ 32767
  · rw [if_pos hfit]
    omega
  · rw [if_neg hfit]
    split <;> simp only [BitVec.toNat_ofNat] <;> omega

theorem vmadh_result (b : Build) {m : Mac} (hm : m.op = .vmadh) (vd : Fin 32) (s : Arch)
    (i : Fin 8) : (Cp2Op.run b s (m.toOp vd)).cp2.regs vd i =
      clampSigned (acc48 (Cp2Op.run b s (m.toOp vd)).cp2.acc i) := by
  obtain ⟨op, e, vs, vt⟩ := m
  subst hm
  exact (congrFun (Function.update_self vd _ s.cp2.regs) i).trans (rspSclampAccTomd_apply _ _ _ i)

theorem vmadn_result (b : Build) {m : Mac} (hm : m.op = .vmadn) (vd : Fin 32) (s : Arch)
    (i : Fin 8) : (Cp2Op.run b s (m.toOp vd)).cp2.regs vd i =
      clampLow (acc48 (Cp2Op.run b s (m.toOp vd)).cp2.acc i) := by
  obtain ⟨op, e, vs, vt⟩ := m
  subst hm
  exact (congrFun (Function.update_self vd _ s.cp2.regs) i).trans (rspUclampAcc_apply b _ _ _ i)

/-! ### The whole run -/

theorem runOps_append (b : Build) (l l' : List Cp2Op) (s : Arch) :
    runOps b (l ++ l') s = runOps b l' (runOps b l s) :=
  List.foldl_append

/-- The accumulator cleared. -/
def clearAcc (s : Arch) : Arch := { s with cp2 := { s.cp2 with acc := AccVector.zero } }

theorem firstOps_eq (b : Build) (f : Factors) (vd : Fin 32) (s : Arch) :
    runOps b (f.firstOps vd) s = runOps b (f.macs.map (Mac.toOp vd)) (clearAcc s) := by
  have hvmudl : VU.vuop b f.e vd f.sLo f.tLo s.cp2 MudOp.vmudl.code =
      VU.vuop b f.e vd f.sLo f.tLo (clearAcc s).cp2 MacOp.vmadl.code :=
    congrArg (VU.storeMul s.cp2 vd) (rspVmudl_eq b _ _ _ _ _)
  have hstep : Cp2Op.run b s (.vu MudOp.vmudl.code f.e vd f.sLo f.tLo) =
      Cp2Op.run b (clearAcc s) (.vu MacOp.vmadl.code f.e vd f.sLo f.tLo) := by
    rw [Cp2Op.run, Cp2Op.run, hvmudl]
    rfl
  exact congrArg (runOps b (f.macs.tail.map (Mac.toOp vd))) hstep

/-- The dot product of two rows of numbers: the sum goes to `hi` and `lo`, and `zero` is a register
that holds zeros. -/
def dotOps (hi lo zero : Fin 32) (f : Factors) (fs : List Factors) : List Cp2Op :=
  f.firstOps hi ++ (fs.flatMap Factors.macs).map (Mac.toOp hi) ++
    [(⟨.vmadn, 0, zero, zero⟩ : Mac).toOp lo]

/-- The last multiplication before that is a `VMADH`. -/
theorem exists_last (f : Factors) (fs : List Factors) : ∃ ms m,
    (f :: fs).flatMap Factors.macs = ms ++ [m] ∧ m.op = .vmadh := by
  obtain ⟨l, g, hl⟩ := (List.eq_nil_or_concat (f :: fs)).resolve_left (List.cons_ne_nil f fs)
  refine ⟨l.flatMap Factors.macs ++ g.macs.dropLast, ⟨.vmadh, g.e, g.sHi, g.tHi⟩, ?_, rfl⟩
  rw [hl, List.concat_eq_append, List.flatMap_append, List.flatMap_singleton, List.append_assoc]
  rfl

/-- A dot product is exact, as far as the accumulator holds it, and its two destinations are the sum
clamped to 32 bits. A single product is always held. -/
theorem dot_product (b : Build) {hi lo zero : Fin 32} {f : Factors} {fs : List Factors}
    (hsrc : ∀ g ∈ f :: fs, hi ∉ g.sources) (hzero : zero ≠ hi) (hlo : lo ≠ hi) (s : Arch)
    (h0 : s.cp2.regs zero = mmSetzeroSi128) (i : Fin 8) :
    let sum := ((f :: fs).map fun g => g.product b s.cp2 i).sum
    let t := runOps b (dotOps hi lo zero f fs) s
    acc48 t.cp2.acc i = BitVec.ofInt 48 sum ∧
      (t.cp2.regs hi i ++ t.cp2.regs lo i : Word).toInt =
        max (-2 ^ 31) (min (sum.bmod (2 ^ 48)) (2 ^ 31 - 1)) ∧
      (fs = [] → sum.bmod (2 ^ 48) = f.product b s.cp2 i) ∧
      ∀ r, r ≠ hi → r ≠ lo → t.cp2.regs r = s.cp2.regs r := by
  intro sum t
  set ms := (f :: fs).flatMap Factors.macs with hms
  set u := runOps b (ms.map (Mac.toOp hi)) (clearAcc s) with hu
  have ht : t = Cp2Op.run b u ((⟨.vmadn, 0, zero, zero⟩ : Mac).toOp lo) := by
    change runOps b _ _ = _
    rw [dotOps, runOps_append, runOps_append, firstOps_eq, hu, hms, List.flatMap_cons,
      List.map_append, runOps_append]
    rfl
  have hread : ∀ m ∈ ms, m.vs ≠ hi ∧ m.vt ≠ hi := by
    intro m hm
    obtain ⟨g, hg, hmg⟩ := List.mem_flatMap.1 hm
    exact g.macs_sources (hsrc g hg) m hmg
  have hsum : (ms.map (Mac.term b s.cp2 i)).sum = sum := by
    rw [hms, sum_flatMap_macs]
  obtain ⟨hacc, hregs⟩ := macs_acc b hread (clearAcc s) i
  have haccu : acc48 u.cp2.acc i = BitVec.ofInt 48 sum := by
    rw [hacc, ← hsum]
    exact (congrArg (· + _) (acc48_zero i)).trans (BitVec.zero_add _)
  -- the last multiplication adds nothing
  have hzeroTerm : Mac.term b u.cp2 i ⟨.vmadn, 0, zero, zero⟩ = 0 := by
    have hreg : u.cp2.regs zero = mmSetzeroSi128 := (hregs zero hzero).trans h0
    simp only [Mac.term, MacOp.product, hreg, mmSetzeroSi128, BitVec.toNat_ofNat, Nat.zero_mod,
      Nat.cast_zero, zero_mul]
  have hacct : acc48 t.cp2.acc i = acc48 u.cp2.acc i := by
    rw [ht]
    refine (vuop_mac_acc b ⟨.vmadn, 0, zero, zero⟩ lo u.cp2 i).trans ?_
    rw [hzeroTerm]
    exact BitVec.add_zero _
  have htlo : t.cp2.regs lo i = clampLow (acc48 t.cp2.acc i) := by
    rw [ht]
    exact vmadn_result b rfl lo u i
  have hkeep (r : Fin 32) (hr : r ≠ lo) : t.cp2.regs r = u.cp2.regs r := by
    rw [ht]
    exact vuop_mac_regs b ⟨.vmadn, 0, zero, zero⟩ lo u.cp2 hr
  have hthi : t.cp2.regs hi i = clampSigned (acc48 t.cp2.acc i) := by
    obtain ⟨ms', m, hsplit, hm⟩ := exists_last f fs
    rw [hkeep hi hlo.symm, hacct, hu, hms, hsplit, List.map_append, runOps_append]
    exact vmadh_result b hm hi _ i
  refine ⟨hacct.trans haccu, ?_, ?_, fun r hr hr' => (hkeep r hr').trans (hregs r hr)⟩
  · rw [hthi, htlo]
    refine (clamped_halves _ _ _).trans ?_
    rw [← BitVec.toInt_ofInt, ← haccu, ← hacct]
    rfl
  · rintro rfl
    have hsingle : sum = f.product b s.cp2 i := add_zero _
    obtain ⟨hge, hlt⟩ := f.product_bounds b s.cp2 i
    rw [hsingle, Int.bmod_eq_of_le (by omega) (by omega)]

/-- `1.5 * 2.25 + -3.0 * 0.5` in every lane. -/
theorem dot_product_pair :
    let number (hi lo : BitVec 16) (r : Fin 32) (regs : Fin 32 → M128i) : Fin 32 → M128i :=
      Function.update (Function.update regs r fun _ => hi) (r + 1) fun _ => lo
    let s : Arch := { Arch.zero with cp2 := { Arch.zero.cp2 with
      regs := number 1#16 0x8000#16 2 <| number 2#16 0x4000#16 4 <| number 0xfffd#16 0#16 6 <|
        number 0#16 0x8000#16 8 fun _ => mmSetzeroSi128 } }
    let t := runOps .sse2 (dotOps 10 11 0 ⟨2, 3, 4, 5, 0⟩ [⟨6, 7, 8, 9, 0⟩]) s
    ∀ i, (t.cp2.regs 10 i ++ t.cp2.regs 11 i : Word).toInt =
      max (-2 ^ 31) (min ((0x1e000 : ℤ).bmod (2 ^ 48)) (2 ^ 31 - 1)) := by
  intro number s t i
  have hsum : ([⟨2, 3, 4, 5, 0⟩, ⟨6, 7, 8, 9, 0⟩].map
      fun g : Factors => g.product .sse2 s.cp2 i).sum = 0x1e000 := by
    revert i
    decide
  rw [← hsum]
  exact (dot_product .sse2 (by decide) (by decide) (by decide) s rfl i).2.1

end ParallelRsp
