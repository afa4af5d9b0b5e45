import ParallelRsp.Jit.Region

/-!
# The extent of a region

`CPU::analyze_static_end` of `rsp_jit.cpp`: how much of IMEM behind a start word is compiled
at once. The stream of instructions ends behind a jump, a return or a `BREAK`, unless a
branch before goes past it.
-/

namespace ParallelRsp.Jit

/-- The static target of a word, when it is in the window from `pc` to `stop`. -/
def gotoTarget (imem : ℕ → Word) (pc stop i : ℕ) : Option ℕ :=
  (staticTarget (pc + i) (imem (pc + i))).filter fun target => decide (pc ≤ target ∧ target < stop)

/-- One round of the loop of `analyze_static_end`: `max_static_pc`, and whether the stream ends. -/
def analyzeInstr (imem : ℕ → Word) (pc stop i maxStaticPc : ℕ) : ℕ × Bool :=
  let forwardGoto := decide (pc + i + 1 < maxStaticPc)
  let maxStaticPc := if forwardGoto then maxStaticPc else pc + i + 1
  let behindSlot := (max (pc + i + 2) maxStaticPc, true)
  let target := gotoTarget imem pc stop i
  match decode (imem (pc + i)) with
  | .jr _ | .jalr _ _ => if forwardGoto then (maxStaticPc, false) else behindSlot
  | .break => (maxStaticPc, !forwardGoto)
  | .j _ | .jal _ =>
    if forwardGoto then (target.elim maxStaticPc fun target =>
      max maxStaticPc (target + 1), false) else behindSlot
  | _ => (target.elim maxStaticPc fun target => max maxStaticPc (target + 1), false)

/-- The loop of `analyze_static_end` over the `n` words left: `max_static_pc` where it ends. -/
def analyzeFrom (imem : ℕ → Word) (pc stop : ℕ) : ℕ → ℕ → ℕ → ℕ
  | 0, _, maxStaticPc => maxStaticPc
  | n + 1, i, maxStaticPc =>
    let (maxStaticPc, ends) := analyzeInstr imem pc stop i maxStaticPc
    if ends then maxStaticPc else analyzeFrom imem pc stop n (i + 1) maxStaticPc

/-- `analyze_static_end`. -/
def analyzeStaticEnd (imem : ℕ → Word) (pc stop : ℕ) : ℕ :=
  min (analyzeFrom imem pc stop (stop - pc) 0 pc) stop

/-- The end of the window that a region at byte address `pc` may fill: the
end of the code block after. -/
def windowEnd (pc : ℕ) : ℕ := min ((pc + 512) / 256 * 64) imemWords

/-! ### The window -/

variable {imem imem' : ℕ → Word} {pc stop : ℕ}

theorem analyzeInstr_congr {i : ℕ} (h : imem (pc + i) = imem' (pc + i)) (maxStaticPc : ℕ) :
    analyzeInstr imem pc stop i maxStaticPc = analyzeInstr imem' pc stop i maxStaticPc := by
  simp only [analyzeInstr, gotoTarget, h]

theorem le_analyzeInstr (imem : ℕ → Word) (pc stop i maxStaticPc : ℕ) :
    max maxStaticPc (pc + i + 1) ≤ (analyzeInstr imem pc stop i maxStaticPc).1 := by
  have hmax : (if decide (pc + i + 1 < maxStaticPc) then maxStaticPc else pc + i + 1) =
      max maxStaticPc (pc + i + 1) := by
    split
    · rename_i h
      exact (max_eq_left (of_decide_eq_true h).le).symm
    · rename_i h
      exact (max_eq_right (not_lt.1 fun hlt => h (decide_eq_true hlt))).symm
  have hgoto (m : ℕ) : m ≤ (gotoTarget imem pc stop i).elim m fun target => max m (target + 1) := by
    cases gotoTarget imem pc stop i with
    | none => exact le_rfl
    | some target => exact le_max_left _ _
  simp only [analyzeInstr, hmax]
  split
  · split
    · exact le_rfl
    · exact le_max_right _ _
  · split
    · exact le_rfl
    · exact le_max_right _ _
  · exact le_rfl
  · split
    · exact hgoto _
    · exact le_max_right _ _
  · split
    · exact hgoto _
    · exact le_max_right _ _
  · exact hgoto _

theorem le_analyzeFrom (imem : ℕ → Word) (pc stop n i maxStaticPc : ℕ) :
    maxStaticPc ≤ analyzeFrom imem pc stop n i maxStaticPc := by
  induction n generalizing i maxStaticPc with
  | zero => exact le_rfl
  | succ n ih =>
    have hstep := (le_max_left _ _).trans (le_analyzeInstr imem pc stop i maxStaticPc)
    rw [analyzeFrom]
    dsimp only
    split
    · exact hstep
    · exact hstep.trans (ih _ _)

/-- A word that is looked at is in the stream. -/
theorem lt_analyzeFrom (imem : ℕ → Word) (pc stop n i maxStaticPc : ℕ) :
    pc + i < analyzeFrom imem pc stop (n + 1) i maxStaticPc := by
  have hstep := (le_max_right _ _).trans (le_analyzeInstr imem pc stop i maxStaticPc)
  rw [analyzeFrom]
  dsimp only
  split
  · exact hstep
  · exact hstep.trans (le_analyzeFrom _ _ _ _ _ _)

/-- There is always an instruction to compile. -/
theorem lt_analyzeStaticEnd (imem : ℕ → Word) {pc stop : ℕ} (h : pc < stop) :
    pc < analyzeStaticEnd imem pc stop := by
  obtain ⟨n, hn⟩ : ∃ n, stop - pc = n + 1 := ⟨stop - pc - 1, by omega⟩
  rw [analyzeStaticEnd, hn]
  exact lt_min (lt_analyzeFrom imem pc stop n 0 pc) h

/-- The loop looks at words of the stream only, however it ends. -/
theorem analyzeFrom_congr {n i maxStaticPc : ℕ} (hn : i + n = stop - pc)
    (h : ∀ j, i ≤ j → pc + j < min (analyzeFrom imem pc stop n i maxStaticPc) stop →
      imem (pc + j) = imem' (pc + j)) :
    analyzeFrom imem pc stop n i maxStaticPc = analyzeFrom imem' pc stop n i maxStaticPc := by
  induction n generalizing i maxStaticPc with
  | zero => rfl
  | succ n ih =>
    have hi : imem (pc + i) = imem' (pc + i) :=
      h i le_rfl (lt_min (lt_analyzeFrom imem pc stop n i maxStaticPc) (by omega))
    rw [analyzeFrom] at h
    rw [analyzeFrom, analyzeFrom, ← analyzeInstr_congr hi]
    dsimp only at h ⊢
    split
    · rfl
    · rename_i hgo
      rw [if_neg hgo] at h
      exact ih (by omega) fun j hj hlt => h j (by omega) hlt

/-- What is compiled depends on the words that are compiled only. -/
theorem analyzeStaticEnd_congr
    (h : ∀ i, pc ≤ i → i < analyzeStaticEnd imem pc stop → imem i = imem' i) :
    analyzeStaticEnd imem pc stop = analyzeStaticEnd imem' pc stop := by
  rw [analyzeStaticEnd, analyzeStaticEnd,
    analyzeFrom_congr (by omega) fun j _ hlt => h _ (Nat.le_add_right _ _) hlt]

end ParallelRsp.Jit
