import Xv6.Lib.Run
import Xv6.Log.Core

/-!
# Operations and Commits, Interleaved

Any number of processes call `begin_op`, `log_write` and `end_op` on one log.  A step is one
section under `log.lock`, or one iteration of the loops that `commit` runs without the lock.  A
process that sleeps in `begin_op` runs again after a `wakeup` or after a `kill`, and then makes
another pass through the loop.
-/

namespace Xv6.Log

open Lib

/-- Where a committing process is inside `commit` and the end of `end_op`: before the test of
`lh.n`, in the loop of `write_log`, in the loop of `install_trans`, before the last `write_head`,
and before the last locked section. -/
inductive CommitPc where
  | test
  | writeLog (tail : ℕ)
  | install (tail : ℕ)
  | eraseHead
  | finish
  deriving DecidableEq, Repr

/-- Where a process is. -/
inductive Pc where
  | idle
  | starting
  | sleeping
  | inOp
  | commit (stage : CommitPc)
  deriving DecidableEq, Repr

/-- The log and the processes that use it. -/
structure System (Pid : Type) where
  log : LogState
  pc : Pid → Pc

/-- The steps a process can take.  `enter` and `sleep` are the two outcomes of a pass through the
loop of `begin_op`; `interrupt` is the effect of `kill` on a sleeper. -/
inductive Action (Pid : Type) where
  | call (p : Pid)
  | enter (p : Pid)
  | sleep (p : Pid)
  | interrupt (p : Pid)
  | log (p : Pid) (blockno : ℕ)
  | endOp (p : Pid)
  | test (p : Pid)
  | copy (p : Pid) (blockno : ℕ)
  | writeHead (p : Pid)
  | install (p : Pid) (blockno : ℕ)
  | clear (p : Pid)
  | eraseHead (p : Pid)
  | finish (p : Pid)
  deriving DecidableEq, Repr

/-- The steps of `commit` and of the end of `end_op` that follows it. -/
def Action.isCommit {Pid : Type} : Action Pid → Bool
  | .test _ | .copy _ _ | .writeHead _ | .install _ _ | .clear _ | .eraseHead _ | .finish _ => true
  | _ => false

section Step

variable {Pid : Type} [DecidableEq Pid]

/-- `wakeup(&log)`. -/
def wakeup (pc : Pid → Pc) : Pid → Pc :=
  fun p ↦ if pc p = .sleeping then .starting else pc p

/-- Move one process. -/
def System.goto (s : System Pid) (p : Pid) (pc : Pc) : System Pid :=
  { s with pc := Function.update s.pc p pc }

/-- Take a step if the process is at the given point. -/
def guarded (s : System Pid) (p : Pid) (pc : Pc) (next : Except Stop (System Pid)) :
    Except Stop (System Pid) :=
  if s.pc p = pc then next else .error .disabled

/-- The steps of the system. -/
def step (s : System Pid) : Action Pid → Except Stop (System Pid)
  | .call p => guarded s p .idle (.ok (s.goto p .starting))
  | .enter p =>
    guarded s p .starting <|
      match beginOp s.log with
      | some log => .ok { (s.goto p .inOp) with log := log }
      | none => .error .disabled
  | .sleep p =>
    guarded s p .starting <|
      match beginOp s.log with
      | some _ => .error .disabled
      | none => .ok (s.goto p .sleeping)
  | .interrupt p => guarded s p .sleeping (.ok (s.goto p .starting))
  | .log p blockno =>
    guarded s p .inOp <|
      match logWrite s.log blockno with
      | .ok (log, _) => .ok { s with log := log }
      | .error panic => .error (.panic panic)
  | .endOp p =>
    guarded s p .inOp <|
      match endOp s.log with
      | .ok (log, true) => .ok { (s.goto p (.commit .test)) with log := log }
      | .ok (log, false) => .ok { log := log, pc := wakeup (s.goto p .idle).pc }
      | .error panic => .error (.panic panic)
  | .test p =>
    guarded s p (.commit .test) <|
      .ok (s.goto p (.commit (if s.log.lh.n > 0 then .writeLog 0 else .finish)))
  | .copy p blockno =>
    match s.pc p with
    | .commit (.writeLog tail) =>
      if tail < s.log.lh.n ∧ s.log.lh.block tail = blockno then
        .ok (s.goto p (.commit (.writeLog (tail + 1))))
      else .error .disabled
    | _ => .error .disabled
  | .writeHead p =>
    match s.pc p with
    | .commit (.writeLog tail) =>
      if tail < s.log.lh.n then .error .disabled else .ok (s.goto p (.commit (.install 0)))
    | _ => .error .disabled
  | .install p blockno =>
    match s.pc p with
    | .commit (.install tail) =>
      if tail < s.log.lh.n ∧ s.log.lh.block tail = blockno then
        .ok (s.goto p (.commit (.install (tail + 1))))
      else .error .disabled
    | _ => .error .disabled
  | .clear p =>
    match s.pc p with
    | .commit (.install tail) =>
      if tail < s.log.lh.n then .error .disabled
      else .ok { (s.goto p (.commit .eraseHead)) with
        log := { s.log with lh := { s.log.lh with n := 0 } } }
    | _ => .error .disabled
  | .eraseHead p => guarded s p (.commit .eraseHead) (.ok (s.goto p (.commit .finish)))
  | .finish p =>
    guarded s p (.commit .finish) <|
      .ok { log := endCommit s.log, pc := wakeup (s.goto p .idle).pc }

/-- After recovery at boot: an empty log with the geometry of the super block. -/
def initial (start size : ℕ) : System Pid where
  log :=
    { start := start
      size := size
      outstanding := 0
      committing := false
      lh := { n := 0, block := fun _ ↦ 0 } }
  pc _ := .idle

/-! ## What each step does -/

variable {s s' : System Pid} {p q : Pid} {blockno : ℕ}

@[simp]
theorem System.goto_log (s : System Pid) (p : Pid) (pc : Pc) : (s.goto p pc).log = s.log := rfl

theorem System.goto_pc (s : System Pid) (p : Pid) (pc : Pc) :
    (s.goto p pc).pc q = if q = p then pc else s.pc q := by
  simp [System.goto, Function.update_apply]

omit [DecidableEq Pid] in
theorem guarded_ok {pc : Pc} {next : Except Stop (System Pid)} :
    guarded s p pc next = .ok s' ↔ s.pc p = pc ∧ next = .ok s' := by
  unfold guarded
  split <;> simp_all

omit [DecidableEq Pid] in
theorem guarded_ok_ok {pc : Pc} {next : System Pid} :
    guarded s p pc (.ok next) = .ok s' ↔ s.pc p = pc ∧ s' = next := by
  rw [guarded_ok, Except.ok.injEq, eq_comm (a := next)]

theorem step_call : step s (.call p) = .ok s' ↔ s.pc p = .idle ∧ s' = s.goto p .starting :=
  guarded_ok_ok

theorem step_enter :
    step s (.enter p) = .ok s' ↔ s.pc p = .starting ∧ s.log.committing = false ∧
      s.log.spaceFor ∧
      s' = { (s.goto p .inOp) with log := { s.log with outstanding := s.log.outstanding + 1 } } := by
  simp only [step, guarded_ok, beginOp]
  by_cases hcommitting : s.log.committing = true
  · simp [hcommitting]
  · by_cases hspace : s.log.spaceFor <;> simp [hcommitting, hspace, eq_comm]

theorem step_sleep (h : step s (.sleep p) = .ok s') :
    s.pc p = .starting ∧ beginOp s.log = none ∧ s' = s.goto p .sleeping := by
  obtain ⟨hpc, hnext⟩ := guarded_ok.mp h
  cases hbegin : beginOp s.log with
  | none =>
    rw [hbegin] at hnext
    exact ⟨hpc, rfl, (Except.ok.inj hnext).symm⟩
  | some log =>
    rw [hbegin] at hnext
    cases hnext

theorem step_interrupt :
    step s (.interrupt p) = .ok s' ↔ s.pc p = .sleeping ∧ s' = s.goto p .starting :=
  guarded_ok_ok

theorem step_log (h : step s (.log p blockno) = .ok s') :
    s.pc p = .inOp ∧ ∃ log isNew, logWrite s.log blockno = .ok (log, isNew) ∧
      s' = { s with log := log } := by
  obtain ⟨hpc, hnext⟩ := guarded_ok.mp h
  cases hwrite : logWrite s.log blockno with
  | error panic =>
    rw [hwrite] at hnext
    cases hnext
  | ok result =>
    obtain ⟨log, isNew⟩ := result
    rw [hwrite] at hnext
    exact ⟨hpc, log, isNew, rfl, (Except.ok.inj hnext).symm⟩

/-- `end_op` either starts a commit, when the last operation ends, or wakes the sleepers. -/
theorem step_endOp (h : step s (.endOp p) = .ok s') :
    s.pc p = .inOp ∧ s.log.committing = false ∧
      ((s.log.outstanding = 1 ∧ s' = { (s.goto p (.commit .test)) with
          log := { s.log with outstanding := 0, committing := true } }) ∨
        (s.log.outstanding ≠ 1 ∧ s' =
          { log := { s.log with outstanding := s.log.outstanding - 1, committing := false }
            pc := wakeup (s.goto p .idle).pc })) := by
  obtain ⟨hpc, hnext⟩ := guarded_ok.mp h
  by_cases hcommitting : s.log.committing = true
  · simp [endOp, hcommitting] at hnext
  · have hfalse : s.log.committing = false := by simpa using hcommitting
    refine ⟨hpc, hfalse, ?_⟩
    by_cases hone : s.log.outstanding = 1
    · left
      simp [endOp, hone, hfalse] at hnext
      exact ⟨hone, hnext.symm⟩
    · right
      have hne : ¬ s.log.outstanding - 1 = 0 := by omega
      simp [endOp, hfalse, hne] at hnext
      exact ⟨hone, hnext.symm⟩

theorem step_test :
    step s (.test p) = .ok s' ↔ s.pc p = .commit .test ∧
      s' = s.goto p (.commit (if s.log.lh.n > 0 then .writeLog 0 else .finish)) :=
  guarded_ok_ok

theorem step_copy (h : step s (.copy p blockno) = .ok s') :
    ∃ tail, s.pc p = .commit (.writeLog tail) ∧ tail < s.log.lh.n ∧
      s.log.lh.block tail = blockno ∧ s' = s.goto p (.commit (.writeLog (tail + 1))) := by
  simp only [step] at h
  split at h
  · rename_i tail hpc
    split at h
    · rename_i hloop
      exact ⟨tail, hpc, hloop.1, hloop.2, (Except.ok.inj h).symm⟩
    · cases h
  · cases h

theorem step_writeHead (h : step s (.writeHead p) = .ok s') :
    ∃ tail, s.pc p = .commit (.writeLog tail) ∧ s.log.lh.n ≤ tail ∧
      s' = s.goto p (.commit (.install 0)) := by
  simp only [step] at h
  split at h
  · rename_i tail hpc
    split at h
    · cases h
    · rename_i hloop
      exact ⟨tail, hpc, by omega, (Except.ok.inj h).symm⟩
  · cases h

theorem step_install (h : step s (.install p blockno) = .ok s') :
    ∃ tail, s.pc p = .commit (.install tail) ∧ tail < s.log.lh.n ∧
      s.log.lh.block tail = blockno ∧ s' = s.goto p (.commit (.install (tail + 1))) := by
  simp only [step] at h
  split at h
  · rename_i tail hpc
    split at h
    · rename_i hloop
      exact ⟨tail, hpc, hloop.1, hloop.2, (Except.ok.inj h).symm⟩
    · cases h
  · cases h

theorem step_clear (h : step s (.clear p) = .ok s') :
    ∃ tail, s.pc p = .commit (.install tail) ∧ s.log.lh.n ≤ tail ∧
      s' = { (s.goto p (.commit .eraseHead)) with
        log := { s.log with lh := { s.log.lh with n := 0 } } } := by
  simp only [step] at h
  split at h
  · rename_i tail hpc
    split at h
    · cases h
    · rename_i hloop
      exact ⟨tail, hpc, by omega, (Except.ok.inj h).symm⟩
  · cases h

theorem step_eraseHead :
    step s (.eraseHead p) = .ok s' ↔
      s.pc p = .commit .eraseHead ∧ s' = s.goto p (.commit .finish) :=
  guarded_ok_ok

theorem step_finish :
    step s (.finish p) = .ok s' ↔ s.pc p = .commit .finish ∧
      s' = { log := endCommit s.log, pc := wakeup (s.goto p .idle).pc } :=
  guarded_ok_ok

/-- A commit step is taken by a process inside `commit`, and leaves it there or finished. -/
theorem step_commit {action : Action Pid} (haction : action.isCommit = true)
    (h : step s action = .ok s') : ∃ p c, s.pc p = .commit c := by
  cases action with
  | test p => exact ⟨p, _, (step_test.mp h).1⟩
  | copy p b =>
    obtain ⟨tail, hpc, -⟩ := step_copy h
    exact ⟨p, _, hpc⟩
  | writeHead p =>
    obtain ⟨tail, hpc, -⟩ := step_writeHead h
    exact ⟨p, _, hpc⟩
  | install p b =>
    obtain ⟨tail, hpc, -⟩ := step_install h
    exact ⟨p, _, hpc⟩
  | clear p =>
    obtain ⟨tail, hpc, -⟩ := step_clear h
    exact ⟨p, _, hpc⟩
  | eraseHead p => exact ⟨p, _, (step_eraseHead.mp h).1⟩
  | finish p => exact ⟨p, _, (step_finish.mp h).1⟩
  | _ => cases haction

/-! ## Roles -/

omit [DecidableEq Pid] in
/-- Waking sleepers changes neither who is in an operation nor who commits. -/
theorem wakeup_eq_inOp {pc : Pid → Pc} : wakeup pc q = .inOp ↔ pc q = .inOp := by
  unfold wakeup
  split <;> simp_all

omit [DecidableEq Pid] in
theorem wakeup_eq_commit {pc : Pid → Pc} {c : CommitPc} :
    wakeup pc q = .commit c ↔ pc q = .commit c := by
  unfold wakeup
  split <;> simp_all

/-- The locking discipline of the log: `outstanding` counts the processes inside an operation, and
`committing` is set exactly while one process commits, with no operation outstanding. -/
structure Discipline (s : System Pid) : Prop where
  active : ∃ ops : Finset Pid, (∀ q, q ∈ ops ↔ s.pc q = .inOp) ∧ s.log.outstanding = ops.card
  committer : s.log.committing = true ↔ ∃ q c, s.pc q = .commit c
  single : ∀ q q' c c', s.pc q = .commit c → s.pc q' = .commit c' → q = q'
  exclusive : s.log.committing = true → s.log.outstanding = 0

omit [DecidableEq Pid] in
theorem Discipline.no_op_of_committing (hs : Discipline s) (hcommitting : s.log.committing = true) :
    s.pc q ≠ .inOp := by
  intro hq
  obtain ⟨ops, hops, hcard⟩ := hs.active
  have hzero : (ops.card : ℤ) = 0 := hcard ▸ hs.exclusive hcommitting
  have hempty : ops = ∅ := Finset.card_eq_zero.mp (by exact_mod_cast hzero)
  have hmem := (hops q).mpr hq
  rw [hempty] at hmem
  simp at hmem

omit [DecidableEq Pid] in
/-- A step that moves no process into or out of an operation or a commit. -/
theorem Discipline.of_same_roles (hs : Discipline s) (hout : s'.log.outstanding = s.log.outstanding)
    (hcommitting : s'.log.committing = s.log.committing)
    (hinOp : ∀ q, s'.pc q = .inOp ↔ s.pc q = .inOp)
    (hcommit : ∀ q, (∃ c, s'.pc q = .commit c) ↔ ∃ c, s.pc q = .commit c) : Discipline s' := by
  obtain ⟨ops, hops, hcard⟩ := hs.active
  refine ⟨⟨ops, fun q ↦ (hops q).trans (hinOp q).symm, hout.trans hcard⟩, ?_, ?_, ?_⟩
  · rw [hcommitting, hs.committer]
    exact exists_congr fun q ↦ (hcommit q).symm
  · intro q q' c c' hq hq'
    obtain ⟨d, hd⟩ := (hcommit q).mp ⟨c, hq⟩
    obtain ⟨d', hd'⟩ := (hcommit q').mp ⟨c', hq'⟩
    exact hs.single q q' d d' hd hd'
  · rw [hcommitting, hout]
    exact hs.exclusive

/-- Moving one process between two points that are neither in an operation nor in a commit, or
from one point of a commit to another. -/
theorem Discipline.goto (hs : Discipline s) (pc : Pc) (hp : s.pc p ≠ .inOp) (hpc : pc ≠ .inOp)
    (hcommit : (∃ c, pc = .commit c) ↔ ∃ c, s.pc p = .commit c) : Discipline (s.goto p pc) := by
  refine hs.of_same_roles ?_ ?_ ?_ ?_
  · rfl
  · rfl
  · intro q
    rw [System.goto_pc]
    split
    · rename_i hq
      subst hq
      exact ⟨fun h ↦ absurd h hpc, fun h ↦ absurd h hp⟩
    · rfl
  · intro q
    rw [System.goto_pc]
    split
    · rename_i hq
      subst hq
      exact hcommit
    · rfl

/-- Ending an operation, with or without a commit: one process fewer is inside. -/
theorem active_erase {ops : Finset Pid} (hops : ∀ q, q ∈ ops ↔ s.pc q = .inOp)
    (hp : s.pc p = .inOp) (pc : Pc) (hpc : pc ≠ .inOp) :
    (∀ q, q ∈ ops.erase p ↔ (s.goto p pc).pc q = .inOp) ∧
      ((ops.erase p).card : ℤ) = ops.card - 1 := by
  constructor
  · intro q
    rw [Finset.mem_erase, hops, System.goto_pc]
    split
    · rename_i hq
      simp [hq, hpc]
    · rename_i hq
      simp [hq]
  · have hmem : p ∈ ops := (hops p).mpr hp
    have hpos : 0 < ops.card := Finset.card_pos.mpr ⟨p, hmem⟩
    rw [Finset.card_erase_of_mem hmem]
    omega

theorem Discipline.step_enter_ok (hs : Discipline s) (h : step s (.enter p) = .ok s') :
    Discipline s' := by
  obtain ⟨hpc, hcommitting, -, rfl⟩ := step_enter.mp h
  obtain ⟨ops, hops, hcard⟩ := hs.active
  have hnocommit : ¬ ∃ q c, s.pc q = .commit c := by
    rw [← hs.committer, hcommitting]
    simp
  have hnew : p ∉ ops := by
    rw [hops, hpc]
    simp
  have hnocommit' : ∀ q c, (s.goto p .inOp).pc q ≠ .commit c := by
    intro q c hq
    rw [System.goto_pc] at hq
    split at hq
    · cases hq
    · exact hnocommit ⟨q, c, hq⟩
  refine ⟨⟨insert p ops, ?_, ?_⟩, ?_, ?_, ?_⟩
  · intro q
    rw [Finset.mem_insert, hops]
    change _ ↔ (s.goto p .inOp).pc q = .inOp
    rw [System.goto_pc]
    split
    · rename_i hq
      simp [hq]
    · rename_i hq
      simp [hq]
  · rw [Finset.card_insert_of_notMem hnew]
    change s.log.outstanding + 1 = _
    rw [hcard]
    push_cast
    ring
  · change s.log.committing = true ↔ _
    rw [hcommitting]
    exact ⟨fun h ↦ absurd h (by simp), fun ⟨q, c, hq⟩ ↦ absurd hq (hnocommit' q c)⟩
  · intro q q' c c' hq
    exact absurd hq (hnocommit' q c)
  · intro hc
    change s.log.committing = true at hc
    rw [hcommitting] at hc
    cases hc

theorem Discipline.step_endOp_ok (hs : Discipline s) (h : step s (.endOp p) = .ok s') :
    Discipline s' := by
  obtain ⟨hpc, hcommitting, hcases⟩ := step_endOp h
  obtain ⟨ops, hops, hcard⟩ := hs.active
  have hnocommit : ¬ ∃ q c, s.pc q = .commit c := by
    rw [← hs.committer, hcommitting]
    simp
  rcases hcases with ⟨hone, rfl⟩ | ⟨hmore, rfl⟩
  · -- The last operation: its process becomes the only one inside `commit`.
    obtain ⟨hmem, hcard'⟩ := active_erase hops hpc (.commit .test) (by simp)
    have honly : ∀ q c, (s.goto p (.commit .test)).pc q = .commit c → q = p := by
      intro q c hq
      rw [System.goto_pc] at hq
      split at hq
      · assumption
      · exact absurd ⟨q, c, hq⟩ hnocommit
    refine ⟨⟨ops.erase p, hmem, ?_⟩, ?_, ?_, fun _ ↦ rfl⟩
    · change (0 : ℤ) = _
      omega
    · refine ⟨fun _ ↦ ⟨p, .test, ?_⟩, fun _ ↦ rfl⟩
      change (s.goto p (.commit .test)).pc p = _
      simp [System.goto_pc]
    · intro q q' c c' hq hq'
      exact (honly q c hq).trans (honly q' c' hq').symm
  · obtain ⟨hmem, hcard'⟩ := active_erase hops hpc .idle (by simp)
    have hnocommit' : ∀ q c, wakeup (s.goto p .idle).pc q ≠ .commit c := by
      intro q c hq
      rw [wakeup_eq_commit, System.goto_pc] at hq
      split at hq
      · cases hq
      · exact hnocommit ⟨q, c, hq⟩
    refine ⟨⟨ops.erase p, fun q ↦ (hmem q).trans wakeup_eq_inOp.symm, ?_⟩, ?_, ?_, ?_⟩
    · change s.log.outstanding - 1 = _
      omega
    · exact ⟨fun h ↦ absurd h (by simp), fun ⟨q, c, hq⟩ ↦ absurd hq (hnocommit' q c)⟩
    · intro q q' c c' hq
      exact absurd hq (hnocommit' q c)
    · intro hc
      cases hc

theorem Discipline.step_finish_ok (hs : Discipline s) (h : step s (.finish p) = .ok s') :
    Discipline s' := by
  obtain ⟨hpc, rfl⟩ := step_finish.mp h
  have hcommitting : s.log.committing = true := hs.committer.mpr ⟨p, _, hpc⟩
  obtain ⟨ops, hops, hcard⟩ := hs.active
  have hnocommit : ∀ q c, wakeup (s.goto p .idle).pc q ≠ .commit c := by
    intro q c hq
    rw [wakeup_eq_commit, System.goto_pc] at hq
    split at hq
    · cases hq
    · rename_i hne
      exact hne (hs.single q p c _ hq hpc)
  refine ⟨⟨ops, ?_, hcard⟩, ?_, ?_, ?_⟩
  · intro q
    rw [hops, wakeup_eq_inOp, System.goto_pc]
    split
    · rename_i hq
      simp [hq, hpc]
    · rfl
  · exact ⟨fun h ↦ absurd h (by simp [endCommit]), fun ⟨q, c, hq⟩ ↦ absurd hq (hnocommit q c)⟩
  · intro q q' c c' hq
    exact absurd hq (hnocommit q c)
  · intro hc
    cases hc

/-- Every step keeps the discipline. -/
theorem Discipline.step_ok (hs : Discipline s) {action : Action Pid}
    (h : step s action = .ok s') : Discipline s' := by
  cases action with
  | call p =>
    obtain ⟨hpc, rfl⟩ := step_call.mp h
    exact hs.goto _ (by simp [hpc]) (by simp) (by simp [hpc])
  | enter p => exact hs.step_enter_ok h
  | sleep p =>
    obtain ⟨hpc, -, rfl⟩ := step_sleep h
    exact hs.goto _ (by simp [hpc]) (by simp) (by simp [hpc])
  | interrupt p =>
    obtain ⟨hpc, rfl⟩ := step_interrupt.mp h
    exact hs.goto _ (by simp [hpc]) (by simp) (by simp [hpc])
  | log p b =>
    obtain ⟨-, log, isNew, hwrite, rfl⟩ := step_log h
    obtain ⟨-, -, -, -, -, hout, hcommitting, -⟩ := logWrite_ok hwrite
    exact hs.of_same_roles hout hcommitting (fun _ ↦ Iff.rfl) fun _ ↦ Iff.rfl
  | endOp p => exact hs.step_endOp_ok h
  | test p =>
    obtain ⟨hpc, rfl⟩ := step_test.mp h
    exact hs.goto _ (by simp [hpc]) (by simp) (by simp [hpc])
  | copy p b =>
    obtain ⟨tail, hpc, -, -, rfl⟩ := step_copy h
    exact hs.goto _ (by simp [hpc]) (by simp) (by simp [hpc])
  | writeHead p =>
    obtain ⟨tail, hpc, -, rfl⟩ := step_writeHead h
    exact hs.goto _ (by simp [hpc]) (by simp) (by simp [hpc])
  | install p b =>
    obtain ⟨tail, hpc, -, -, rfl⟩ := step_install h
    exact hs.goto _ (by simp [hpc]) (by simp) (by simp [hpc])
  | clear p =>
    obtain ⟨tail, hpc, -, rfl⟩ := step_clear h
    have hgoto := hs.goto (p := p) (.commit .eraseHead) (by simp [hpc]) (by simp)
      (by simp [hpc])
    exact hgoto.of_same_roles rfl rfl (fun _ ↦ Iff.rfl) fun _ ↦ Iff.rfl
  | eraseHead p =>
    obtain ⟨hpc, rfl⟩ := step_eraseHead.mp h
    exact hs.goto _ (by simp [hpc]) (by simp) (by simp [hpc])
  | finish p => exact hs.step_finish_ok h

omit [DecidableEq Pid] in
theorem discipline_initial (start size : ℕ) : Discipline (initial start size : System Pid) where
  active := ⟨∅, by simp [initial], by simp [initial]⟩
  committer := by simp [initial]
  single := by simp [initial]
  exclusive := by simp [initial]

/-- The discipline holds in every reachable state. -/
theorem discipline_run {start size : ℕ} {actions : List (Action Pid)}
    (hrun : run step (initial start size) actions = .ok s) : Discipline s :=
  run_induction step (P := fun _ s ↦ Discipline s) (discipline_initial start size)
    (fun _ _ _ _ _ hs h ↦ hs.step_ok h) hrun

end Step

end Xv6.Log
