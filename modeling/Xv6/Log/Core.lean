import Mathlib.Tactic
import Xv6.Panic
import Xv6.Param

/-!
# The In-Memory Log

`struct log` of `kernel/log.c` and the sections of `begin_op`, `end_op` and `log_write` that run
under `log.lock`, each as one function on that structure.  The header is kept as the source keeps
it, a count and an array; `LogHeader.blocks` is the list of block numbers it stands for, and
`logWrite_blocks` says once what absorption does to that list.
-/

namespace Xv6.Log

/-- `struct logheader`: the number of logged blocks and their block numbers. -/
structure LogHeader where
  n : ℕ
  block : ℕ → ℕ

/-- The block numbers a header lists, in log order. -/
def LogHeader.blocks (lh : LogHeader) : List ℕ := (List.range lh.n).map lh.block

@[simp]
theorem LogHeader.length_blocks (lh : LogHeader) : lh.blocks.length = lh.n := by
  simp [LogHeader.blocks]

/-- `struct log`, less its spinlock and device number. -/
structure LogState where
  start : ℕ
  size : ℕ
  outstanding : ℤ
  committing : Bool
  lh : LogHeader

/-- The test `begin_op` makes before it lets an operation in. -/
def LogState.spaceFor (log : LogState) : Prop :=
  (log.lh.n : ℤ) + (log.outstanding + 1) * MAXOPBLOCKS ≤ LOGSIZE

instance (log : LogState) : Decidable log.spaceFor := inferInstanceAs (Decidable (_ ≤ _))

/-- One pass through the loop of `begin_op`.  `none` is a call of `sleep`. -/
def beginOp (log : LogState) : Option LogState :=
  if log.committing then none
  else if log.spaceFor then some { log with outstanding := log.outstanding + 1 }
  else none

/-- The first locked section of `end_op`; the flag is `do_commit`. -/
def endOp (log : LogState) : Except Panic (LogState × Bool) :=
  let log := { log with outstanding := log.outstanding - 1 }
  if log.committing then .error .logCommitting
  else if log.outstanding = 0 then .ok ({ log with committing := true }, true)
  else .ok (log, false)

/-- The second locked section of `end_op`, after `commit` has returned. -/
def endCommit (log : LogState) : LogState := { log with committing := false }

/-- The search loop of `log_write`: the slot that already holds `blockno`, or `n`. -/
def LogHeader.slotOf (lh : LogHeader) (blockno : ℕ) : ℕ :=
  (List.range lh.n).findIdx fun i ↦ lh.block i == blockno

/-- `log_write`.  The flag says that the block is new to the log, so that `bpin` is called. -/
def logWrite (log : LogState) (blockno : ℕ) : Except Panic (LogState × Bool) :=
  if log.lh.n ≥ LOGSIZE ∨ log.lh.n ≥ log.size - 1 then .error .logTooBig
  else if log.outstanding < 1 then .error .logOutsideTrans
  else
    let i := log.lh.slotOf blockno
    let isNew := decide (i = log.lh.n)
    .ok ({ log with
      lh :=
        { n := if isNew then log.lh.n + 1 else log.lh.n
          block := Function.update log.lh.block i blockno } }, isNew)

/-! ## What absorption does -/

theorem LogHeader.slotOf_eq_n_iff (lh : LogHeader) (blockno : ℕ) :
    lh.slotOf blockno = lh.n ↔ blockno ∉ lh.blocks := by
  have hlen : (List.range lh.n).length = lh.n := List.length_range
  constructor
  · intro hslot hmem
    obtain ⟨i, hi, hblock⟩ := List.mem_map.mp hmem
    have hlt : lh.slotOf blockno < (List.range lh.n).length :=
      List.findIdx_lt_length_of_exists ⟨i, hi, by simpa using hblock⟩
    omega
  · intro hnot
    have hall : ∀ i ∈ List.range lh.n, (lh.block i == blockno) = false := by
      intro i hi
      have hne : lh.block i ≠ blockno := fun heq ↦ hnot (List.mem_map.mpr ⟨i, hi, heq⟩)
      simpa using hne
    rw [LogHeader.slotOf, List.findIdx_eq_length_of_false hall, hlen]

/-- A slot found by the search holds the block searched for. -/
theorem LogHeader.block_slotOf (lh : LogHeader) (blockno : ℕ)
    (hslot : lh.slotOf blockno ≠ lh.n) :
    lh.slotOf blockno < lh.n ∧ lh.block (lh.slotOf blockno) = blockno := by
  have hle : lh.slotOf blockno ≤ lh.n := by
    simpa [LogHeader.slotOf] using
      @List.findIdx_le_length _ (fun i ↦ lh.block i == blockno) (List.range lh.n)
  have hlt : lh.slotOf blockno < lh.n := lt_of_le_of_ne hle hslot
  have hlt' : (List.range lh.n).findIdx (fun i ↦ lh.block i == blockno) <
      (List.range lh.n).length := by
    simpa [LogHeader.slotOf] using hlt
  have hget := List.findIdx_getElem (w := hlt')
  exact ⟨hlt, by simpa [LogHeader.slotOf] using hget⟩

/-- What a `log_write` that returns does to the log: the listed blocks gain the new one at the end
unless it is already there, and nothing else in the structure changes. -/
theorem logWrite_ok {log log' : LogState} {blockno : ℕ} {isNew : Bool}
    (h : logWrite log blockno = .ok (log', isNew)) :
    log.lh.n < LOGSIZE ∧ log.lh.n < log.size - 1 ∧ 1 ≤ log.outstanding ∧
      log'.start = log.start ∧ log'.size = log.size ∧ log'.outstanding = log.outstanding ∧
      log'.committing = log.committing ∧
      log'.lh.blocks = if blockno ∈ log.lh.blocks then log.lh.blocks
        else log.lh.blocks ++ [blockno] := by
  unfold logWrite at h
  split at h
  · cases h
  · rename_i hroom
    split at h
    · cases h
    · rename_i hout
      have hok := Except.ok.inj h
      rw [Prod.mk.injEq] at hok
      obtain ⟨rfl, -⟩ := hok
      refine ⟨by omega, by omega, by omega, rfl, rfl, rfl, rfl, ?_⟩
      by_cases hslot : log.lh.slotOf blockno = log.lh.n
      · -- The search ran to the end: the block is appended.
        rw [if_neg ((log.lh.slotOf_eq_n_iff blockno).mp hslot)]
        simp only [LogHeader.blocks, hslot, decide_true, if_true, List.range_succ, List.map_append,
          List.map_cons, List.map_nil, Function.update_self]
        congr 1
        apply List.map_congr_left
        intro i hi
        exact Function.update_of_ne (List.mem_range.mp hi).ne _ _
      · -- The search stopped early: the store into the slot rewrites the value it holds.
        obtain ⟨-, hblock⟩ := log.lh.block_slotOf blockno hslot
        have hsame : Function.update log.lh.block (log.lh.slotOf blockno) blockno = log.lh.block := by
          conv_lhs => rw [← hblock]
          simp [hblock]
        have hmem : blockno ∈ log.lh.blocks := by
          by_contra hnot
          exact hslot ((log.lh.slotOf_eq_n_iff blockno).mpr hnot)
        rw [if_pos hmem]
        simp [LogHeader.blocks, hslot, hsame]

theorem logWrite_tooBig_iff (log : LogState) (blockno : ℕ) :
    logWrite log blockno = .error .logTooBig ↔ log.lh.n ≥ LOGSIZE ∨ log.lh.n ≥ log.size - 1 := by
  unfold logWrite
  split
  · simp_all
  · split <;> simp_all

/-- A panic of `log_write` other than the one for space means that no operation is outstanding. -/
theorem logWrite_error {log : LogState} {blockno : ℕ} {panic : Panic}
    (h : logWrite log blockno = .error panic) : panic = .logTooBig ∨ log.outstanding < 1 := by
  unfold logWrite at h
  split at h
  · exact Or.inl (Except.error.inj h).symm
  · split at h
    · exact Or.inr ‹_›
    · cases h

end Xv6.Log
