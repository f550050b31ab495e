import Xv6.Log.Interleave

/-!
# The Sleepers of `begin_op`

A process sleeps in `begin_op` while another one commits, or while the log might run out of space.
The operation that makes room and the commit that ends wake all sleepers, so whoever sleeps has
something to wait for: a commit, or an operation that is outstanding.
-/

namespace Xv6.Log

open Lib

variable {Pid : Type} [DecidableEq Pid] {s s' : System Pid} {p q : Pid}

/-- What the sleepers wait for, and why there is room when nothing goes on: a commit has emptied the
header before it ends. -/
structure Awaited (s : System Pid) : Prop where
  sleeper : ∀ q, s.pc q = .sleeping → s.log.committing = true ∨ ¬ s.log.spaceFor
  emptied : ∀ q, s.pc q = .commit .eraseHead ∨ s.pc q = .commit .finish → s.log.lh.n = 0
  empty : s.log.committing = false → s.log.outstanding = 0 → s.log.lh.n = 0

namespace Awaited

omit [DecidableEq Pid] in
theorem initial (start size : ℕ) : Awaited (initial start size : System Pid) where
  sleeper := by simp [Log.initial]
  emptied := by simp [Log.initial]
  empty := by simp [Log.initial]

/-- A step that moves one process and leaves the log alone. -/
theorem goto (h : Awaited s) (pc : Pc)
    (hsleep : pc = .sleeping → s.log.committing = true ∨ ¬ s.log.spaceFor)
    (hemptied : pc = .commit .eraseHead ∨ pc = .commit .finish → s.log.lh.n = 0) :
    Awaited (s.goto p pc) where
  sleeper q hq := by
    rw [System.goto_pc] at hq
    split at hq
    · exact hsleep hq
    · exact h.sleeper q hq
  emptied q hq := by
    rw [System.goto_pc] at hq
    split at hq
    · exact hemptied hq
    · exact h.emptied q hq
  empty := h.empty

omit [DecidableEq Pid] in
/-- Nobody sleeps after `wakeup`. -/
theorem wakeup_ne_sleeping (pc : Pid → Pc) : wakeup pc q ≠ .sleeping := by
  unfold wakeup
  split
  · simp
  · assumption

omit [DecidableEq Pid] in
/-- A block is logged inside an operation: the log only gets fuller, and nobody commits. -/
theorem log (h : Awaited s) (hd : Discipline s) {log : LogState} {blockno : ℕ} {isNew : Bool}
    (hwrite : logWrite s.log blockno = .ok (log, isNew)) : Awaited { s with log := log } := by
  obtain ⟨-, -, hone, -, -, hout, hcommitting, hblocks⟩ := logWrite_ok hwrite
  have hn : s.log.lh.n ≤ log.lh.n := by
    rw [← LogHeader.length_blocks, ← LogHeader.length_blocks, hblocks]
    split
    · exact le_rfl
    · simp
  have hidle : s.log.committing = false := by
    by_contra hcommits
    have hzero := hd.exclusive (Bool.eq_true_of_not_eq_false hcommits)
    omega
  refine ⟨fun q hq ↦ .inr fun hspace ↦ ?_, fun q hq ↦ ?_, fun _ hzero ↦ ?_⟩
  · refine (h.sleeper q hq).elim (by simp [hidle]) fun hfull ↦ hfull ?_
    simp only [LogState.spaceFor, hout] at hspace ⊢
    omega
  · have hcommits := hd.committer.mpr ⟨q, hq.elim (fun h ↦ ⟨_, h⟩) fun h ↦ ⟨_, h⟩⟩
    rw [hidle] at hcommits
    cases hcommits
  · simp only [hout] at hzero
    omega

/-- Every step keeps to it. -/
theorem step (h : Awaited s) (hd : Discipline s) {action : Action Pid}
    (hstep : Log.step s action = .ok s') : Awaited s' := by
  cases action with
  | call p =>
    obtain ⟨-, rfl⟩ := step_call.mp hstep
    exact h.goto _ (by simp) (by simp)
  | enter p =>
    obtain ⟨-, hcommitting, hspace, rfl⟩ := step_enter.mp hstep
    have hnobody : ∀ q, (s.goto p .inOp).pc q ≠ .sleeping := by
      intro q hq
      rw [System.goto_pc] at hq
      split at hq
      · cases hq
      · exact (h.sleeper q hq).elim (by simp [hcommitting]) fun hfull ↦ hfull hspace
    have hgoto := h.goto (p := p) .inOp (by simp) (by simp)
    refine ⟨fun q hq ↦ absurd hq (hnobody q), hgoto.emptied, fun _ hzero ↦ ?_⟩
    obtain ⟨ops, -, hcard⟩ := hd.active
    dsimp only at hzero
    omega
  | sleep p =>
    obtain ⟨-, hnone, rfl⟩ := step_sleep hstep
    refine h.goto _ (fun _ ↦ ?_) (by simp)
    by_contra hgo
    simp only [not_or, Bool.not_eq_true, not_not] at hgo
    simp [beginOp, hgo.1, hgo.2] at hnone
  | interrupt p =>
    obtain ⟨-, rfl⟩ := step_interrupt.mp hstep
    exact h.goto _ (by simp) (by simp)
  | log p blockno =>
    obtain ⟨-, log, isNew, hwrite, rfl⟩ := step_log hstep
    exact h.log hd hwrite
  | endOp p =>
    obtain ⟨hpc, hcommitting, ⟨-, rfl⟩ | ⟨hmore, rfl⟩⟩ := step_endOp hstep
    · have hgoto := h.goto (p := p) (.commit .test) (by simp) (by simp)
      exact ⟨fun _ _ ↦ .inl rfl, hgoto.emptied, by simp⟩
    · refine ⟨fun q hq ↦ absurd hq (wakeup_ne_sleeping _), fun q hq ↦ ?_, fun _ hzero ↦ ?_⟩
      · simp only [wakeup_eq_commit] at hq
        exact (h.goto (p := p) .idle (by simp) (by simp)).emptied q hq
      · have hone : s.log.outstanding - 1 = 0 := hzero
        omega
  | test p =>
    obtain ⟨-, rfl⟩ := step_test.mp hstep
    refine h.goto _ (by split <;> simp) fun hpc ↦ ?_
    split at hpc
    · simp at hpc
    · omega
  | copy p blockno =>
    obtain ⟨tail, -, -, -, rfl⟩ := step_copy hstep
    exact h.goto _ (by simp) (by simp)
  | writeHead p =>
    obtain ⟨tail, -, -, rfl⟩ := step_writeHead hstep
    exact h.goto _ (by simp) (by simp)
  | install p blockno =>
    obtain ⟨tail, -, -, -, rfl⟩ := step_install hstep
    exact h.goto _ (by simp) (by simp)
  | clear p =>
    obtain ⟨tail, hpc, -, rfl⟩ := step_clear hstep
    have hcommits : s.log.committing = true := hd.committer.mpr ⟨p, _, hpc⟩
    exact ⟨fun _ _ ↦ .inl hcommits, fun _ _ ↦ rfl, fun _ _ ↦ rfl⟩
  | eraseHead p =>
    obtain ⟨hpc, rfl⟩ := step_eraseHead.mp hstep
    exact h.goto _ (by simp) fun _ ↦ h.emptied p (.inl hpc)
  | finish p =>
    obtain ⟨hpc, rfl⟩ := step_finish.mp hstep
    have hempty := h.emptied p (.inr hpc)
    exact ⟨fun q hq ↦ absurd hq (wakeup_ne_sleeping _), fun _ _ ↦ hempty, fun _ _ ↦ hempty⟩

theorem of_run {start size : ℕ} {actions : List (Action Pid)}
    (hrun : run Log.step (Log.initial start size) actions = .ok s) : Awaited s :=
  run_induction Log.step (P := fun _ s ↦ Awaited s) (.initial start size)
    (fun _ _ _ _ hrun h hstep ↦ h.step (discipline_run hrun) hstep) hrun

end Awaited

/-- While nobody commits, a process sleeps in `begin_op` only if an operation is outstanding, and only
if there is no room for one more. -/
theorem beginOp_not_stranded {start size : ℕ} {actions : List (Action Pid)}
    (hrun : run step (initial start size) actions = .ok s) (hcommitting : s.log.committing = false)
    {p : Pid} (hsleeps : s.pc p = .sleeping) : 1 ≤ s.log.outstanding ∧ ¬ s.log.spaceFor := by
  have hawaited := Awaited.of_run hrun
  have hfull : ¬ s.log.spaceFor := (hawaited.sleeper p hsleeps).resolve_left (by simp [hcommitting])
  refine ⟨?_, hfull⟩
  by_contra hnone
  obtain ⟨ops, -, hcard⟩ := (discipline_run hrun).active
  have hzero : s.log.outstanding = 0 := by omega
  refine hfull ?_
  rw [LogState.spaceFor, hawaited.empty hcommitting hzero, hzero]
  decide

/-- Three operations are outstanding, and a fourth one sleeps. -/
theorem beginOp_not_stranded_four : ∃ s : System (Fin 4), run step (initial 2 30)
      [.call 0, .enter 0, .call 1, .enter 1, .call 2, .enter 2, .call 3, .sleep 3] = .ok s ∧
    s.log.committing = false ∧ s.pc 3 = .sleeping ∧
    1 ≤ s.log.outstanding ∧ ¬ s.log.spaceFor := by
  have hyields : yields (run step (initial 2 30 : System (Fin 4))
      [.call 0, .enter 0, .call 1, .enter 1, .call 2, .enter 2, .call 3, .sleep 3])
      (fun s ↦ s.log.committing = false ∧ s.pc 3 = .sleeping) = true := by decide +kernel
  obtain ⟨s, hrun, hcommitting, hsleeps⟩ := exists_of_yields hyields
  exact ⟨s, hrun, hcommitting, hsleeps, beginOp_not_stranded hrun hcommitting hsleeps⟩

end Xv6.Log
