import Mathlib.Algebra.BigOperators.Group.Finset.Basic
import Mathlib.Data.List.Infix
import Xv6.Log.Transactions

/-!
# Log Capacity

`begin_op` reserves `MAXOPBLOCKS` blocks for each operation against `LOGSIZE`, while `log_write`
tests the count against `log.size - 1`, before it looks for the block among those already logged.
`mkfs` gives the log `LOGSIZE` blocks, one of which is the header, so the space reserved is one
block more than the space there is.  This module gives the exact condition for the panic, and a run
of three operations within their bound that reaches it.
-/

namespace Xv6.Log

open Lib

variable {Pid : Type} [DecidableEq Pid]

/-- The blocks a process has passed to `log_write` since its last admission. -/
def opBlocks (p : Pid) (actions : List (Action Pid)) : List ℕ :=
  actions.foldl (fun blocks action ↦
    match action with
    | .enter q => if q = p then [] else blocks
    | .log q b => if q = p then blocks ++ [b] else blocks
    | _ => blocks) []

/-- After a `log_write`, the blocks logged so far by the operation that made it. -/
def currentOp (actions : List (Action Pid)) : List ℕ :=
  match actions.getLast? with
  | some (.log p _) => opBlocks p actions
  | _ => []

/-- Each operation calls `log_write` on at most `bound` distinct blocks. -/
def OpsBounded (bound : ℕ) (actions : List (Action Pid)) : Prop :=
  ∀ before ∈ actions.inits, (currentOp before).toFinset.card ≤ bound

instance (bound : ℕ) (actions : List (Action Pid)) : Decidable (OpsBounded bound actions) :=
  inferInstanceAs (Decidable (∀ before ∈ actions.inits, _))

section Exact

variable {s : System Pid}

theorem step_log_tooBig_iff {p : Pid} {b : ℕ} :
    step s (.log p b) = .error (.panic .logTooBig) ↔
      s.pc p = .inOp ∧ (s.log.lh.n ≥ LOGSIZE ∨ s.log.lh.n ≥ s.log.size - 1) := by
  rw [← logWrite_tooBig_iff s.log b]
  simp only [step, guarded]
  split
  · cases hwrite : logWrite s.log b with
    | ok result => simp [*]
    | error panic => simp [*]
  · simp [*]

/-- Only `log_write` reaches the panic for space. -/
theorem step_tooBig {action : Action Pid} (h : step s action = .error (.panic .logTooBig)) :
    ∃ p b, action = .log p b := by
  cases action with
  | log p b => exact ⟨p, b, rfl⟩
  | endOp p =>
    simp only [step, guarded, endOp] at h
    split at h
    · split at h
      · cases h
      · cases h
      · rename_i herror
        split at herror
        · cases herror
          cases h
        · split at herror <;> cases herror
    · cases h
  | enter p | sleep p =>
    simp only [step, guarded] at h
    split at h
    · split at h <;> cases h
    · cases h
  | copy p b | writeHead p | install p b | clear p =>
    simp only [step] at h
    split at h
    · split at h <;> cases h
    · cases h
  | _ =>
    simp only [step, guarded] at h
    split at h <;> cases h

omit [DecidableEq Pid] in
/-- Outside a commit the count in the header is the number of distinct blocks logged. -/
theorem Ledger.count {segment : List (Action Pid)} (hl : Ledger segment s)
    (hnone : ∀ q c, s.pc q ≠ .commit c) :
    s.log.lh.n = (loggedBlocks segment).toFinset.card := by
  have hset : s.log.lh.blocks.toFinset = (loggedBlocks segment).toFinset := by
    ext b
    rw [List.mem_toFinset, List.mem_toFinset]
    exact (hl.between hnone).2 b
  rw [← hset, List.toFinset_card_of_nodup hl.nodup, LogHeader.length_blocks]

theorem step_size {s' : System Pid} {action : Action Pid} (h : step s action = .ok s') :
    s'.log.size = s.log.size := by
  cases action with
  | call p => rw [(step_call.mp h).2]; rfl
  | enter p => rw [(step_enter.mp h).2.2.2]
  | sleep p => rw [(step_sleep h).2.2]; rfl
  | interrupt p => rw [(step_interrupt.mp h).2]; rfl
  | log p b =>
    obtain ⟨-, log, isNew, hwrite, rfl⟩ := step_log h
    exact (logWrite_ok hwrite).2.2.2.2.1
  | endOp p =>
    obtain ⟨-, -, ⟨-, rfl⟩ | ⟨-, rfl⟩⟩ := step_endOp h <;> rfl
  | test p => rw [(step_test.mp h).2]; rfl
  | copy p b => obtain ⟨tail, -, -, -, rfl⟩ := step_copy h; rfl
  | writeHead p => obtain ⟨tail, -, -, rfl⟩ := step_writeHead h; rfl
  | install p b => obtain ⟨tail, -, -, -, rfl⟩ := step_install h; rfl
  | clear p => obtain ⟨tail, -, -, rfl⟩ := step_clear h; rfl
  | eraseHead p => rw [(step_eraseHead.mp h).2]; rfl
  | finish p => rw [(step_finish.mp h).2]; rfl

theorem run_size {start size : ℕ} {actions : List (Action Pid)}
    (hrun : run step (initial start size) actions = .ok s) : s.log.size = size :=
  run_induction step (P := fun _ s ↦ s.log.size = size) rfl
    (fun _ _ _ _ _ hs h ↦ (step_size h).trans hs) hrun

/-- When `log_write` runs out of space.  On a log of `LOGSIZE` blocks, a run avoids the panic
exactly when no operation calls `log_write` at a point where `LOGSIZE - 1` distinct blocks have
been logged since the last commit. -/
theorem logWrite_fits_iff (start : ℕ) (actions : List (Action Pid)) :
    run step (initial start LOGSIZE) actions ≠ .error (.panic .logTooBig) ↔
      ∀ before p b after s, actions = before ++ .log p b :: after →
        run step (initial start LOGSIZE) before = .ok s → s.pc p = .inOp →
          (loggedBlocks (sinceCommit before)).toFinset.card < LOGSIZE - 1 := by
  have hcount : ∀ {before : List (Action Pid)} {s : System Pid} {p : Pid},
      run step (initial start LOGSIZE) before = .ok s → s.pc p = .inOp →
        ((s.log.lh.n ≥ LOGSIZE ∨ s.log.lh.n ≥ s.log.size - 1) ↔
          ¬ (loggedBlocks (sinceCommit before)).toFinset.card < LOGSIZE - 1) := by
    intro before s p hbefore hp
    have hd := discipline_run hbefore
    have hnone : ∀ q c, s.pc q ≠ .commit c := fun q c hq ↦
      hd.no_op_of_committing (hd.committer.mpr ⟨q, c, hq⟩) hp
    rw [run_size hbefore, (ledger_run hbefore).count hnone]
    omega
  constructor
  · intro hfits before p b after s hsplit hbefore hp
    by_contra hfull
    apply hfits
    rw [run_error]
    exact ⟨before, .log p b, after, s, hsplit, hbefore,
      step_log_tooBig_iff.mpr ⟨hp, (hcount hbefore hp).mpr hfull⟩⟩
  · intro hroom hpanic
    obtain ⟨before, action, after, s, hsplit, hbefore, hstep⟩ := (run_error step).mp hpanic
    obtain ⟨p, b, rfl⟩ := step_tooBig hstep
    obtain ⟨hp, hfull⟩ := step_log_tooBig_iff.mp hstep
    exact (hcount hbefore hp).mp hfull (hroom before p b after s hsplit hbefore hp)

end Exact

/-- Three operations, admitted together, that log ten distinct blocks each. -/
def threeFullOps : List (Action ℕ) :=
  [.call 0, .enter 0, .call 1, .enter 1, .call 2, .enter 2] ++
    (List.range 30).map fun i ↦ .log (i / 10) (100 + i)

/-- The three operations stay within `MAXOPBLOCKS` blocks each and were all admitted by
`begin_op`, yet the last `log_write` panics. -/
theorem threeFullOps_tooBig :
    OpsBounded MAXOPBLOCKS threeFullOps ∧
      run step (initial 2 LOGSIZE) threeFullOps = .error (.panic .logTooBig) :=
  ⟨by decide +kernel, by rfl⟩

end Xv6.Log
