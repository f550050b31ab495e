import Xv6.Log.Interleave

/-!
# Transactions Are Never Split

The ledger relates the actions performed so far to the in-memory header.  Since the end of the
last commit, the header lists exactly the blocks logged, each once; a commit installs that list
from the front; and a block logged by an operation that has not ended belongs to a process that is
still inside it.  From it follow the atomicity of operations with respect to commits, and the
exact condition under which `log_write` runs out of space.
-/

namespace Xv6.Log

open Lib

variable {Pid : Type}

/-! ## Reading a list of actions -/

/-- The actions after the last completed commit. -/
def sinceCommit (actions : List (Action Pid)) : List (Action Pid) :=
  actions.foldl (fun segment action ↦
    match action with
    | .finish _ => []
    | action => segment ++ [action]) []

/-- The blocks passed to `log_write`, in order. -/
def loggedBlocks (actions : List (Action Pid)) : List ℕ :=
  actions.filterMap fun
    | .log _ blockno => some blockno
    | _ => none

/-- The blocks copied to their home locations, in order. -/
def installedBlocks (actions : List (Action Pid)) : List ℕ :=
  actions.filterMap fun
    | .install _ blockno => some blockno
    | _ => none

@[simp]
theorem sinceCommit_nil : sinceCommit ([] : List (Action Pid)) = [] := rfl

@[simp]
theorem sinceCommit_finish (actions : List (Action Pid)) (p : Pid) :
    sinceCommit (actions ++ [.finish p]) = [] := by
  simp [sinceCommit]

theorem sinceCommit_snoc (actions : List (Action Pid)) {action : Action Pid}
    (haction : ∀ p, action ≠ .finish p) :
    sinceCommit (actions ++ [action]) = sinceCommit actions ++ [action] := by
  cases action with
  | finish p => exact absurd rfl (haction p)
  | _ => simp [sinceCommit]

@[simp]
theorem loggedBlocks_append (first second : List (Action Pid)) :
    loggedBlocks (first ++ second) = loggedBlocks first ++ loggedBlocks second :=
  List.filterMap_append

@[simp]
theorem installedBlocks_append (first second : List (Action Pid)) :
    installedBlocks (first ++ second) = installedBlocks first ++ installedBlocks second :=
  List.filterMap_append

/-! ## The ledger -/

/-- How the header and the blocks installed so far relate to the blocks logged, at each point of
a commit and between commits. -/
def StageOk (segment : List (Action Pid)) (lh : LogHeader) : Option CommitPc → Prop
  | none | some .test | some (.writeLog _) =>
    installedBlocks segment = [] ∧ ∀ b, b ∈ lh.blocks ↔ b ∈ loggedBlocks segment
  | some (.install tail) =>
    installedBlocks segment = lh.blocks.take tail ∧ ∀ b, b ∈ lh.blocks ↔ b ∈ loggedBlocks segment
  | some .eraseHead | some .finish =>
    lh.n = 0 ∧ ∀ b, b ∈ installedBlocks segment ↔ b ∈ loggedBlocks segment

/-- The relation between the actions since the last commit and the state. -/
structure Ledger (segment : List (Action Pid)) (s : System Pid) : Prop where
  nodup : s.log.lh.blocks.Nodup
  between : (∀ q c, s.pc q ≠ .commit c) → StageOk segment s.log.lh none
  during : ∀ q c, s.pc q = .commit c → StageOk segment s.log.lh (some c)
  pending : ∀ before q b after, segment = before ++ .log q b :: after → .endOp q ∉ after →
    s.pc q = .inOp

theorem StageOk.append_quiet {segment : List (Action Pid)} {lh : LogHeader}
    {stage : Option CommitPc} (h : StageOk segment lh stage) (action : Action Pid)
    (hlog : loggedBlocks [action] = []) (hinstall : installedBlocks [action] = []) :
    StageOk (segment ++ [action]) lh stage := by
  unfold StageOk at *
  simpa only [loggedBlocks_append, installedBlocks_append, hlog, hinstall, List.append_nil] using h

section Steps

variable [DecidableEq Pid] {s s' : System Pid} {p q : Pid}

/-- Only its own `end_op` takes a process out of its operation. -/
theorem step_keeps_inOp {action : Action Pid} (h : step s action = .ok s') (hq : s.pc q = .inOp)
    (haction : action ≠ .endOp q) : s'.pc q = .inOp := by
  have hgoto : ∀ {p pc}, s.pc p ≠ .inOp → (s.goto p pc).pc q = .inOp := by
    intro p pc hp
    have hne : q ≠ p := fun heq ↦ hp (heq ▸ hq)
    simp [System.goto_pc, hne, hq]
  cases action with
  | call p =>
    obtain ⟨hpc, rfl⟩ := step_call.mp h
    exact hgoto (by simp [hpc])
  | enter p =>
    obtain ⟨hpc, -, -, rfl⟩ := step_enter.mp h
    exact hgoto (by simp [hpc])
  | sleep p =>
    obtain ⟨hpc, -, rfl⟩ := step_sleep h
    exact hgoto (by simp [hpc])
  | interrupt p =>
    obtain ⟨hpc, rfl⟩ := step_interrupt.mp h
    exact hgoto (by simp [hpc])
  | log p b =>
    obtain ⟨-, log, isNew, -, rfl⟩ := step_log h
    exact hq
  | endOp p =>
    obtain ⟨-, -, hcases⟩ := step_endOp h
    have hne : q ≠ p := fun heq ↦ haction (heq ▸ rfl)
    rcases hcases with ⟨-, rfl⟩ | ⟨-, rfl⟩
    · simp [System.goto, Function.update_of_ne hne, hq]
    · rw [wakeup_eq_inOp]
      simp [System.goto_pc, hne, hq]
  | test p =>
    obtain ⟨hpc, rfl⟩ := step_test.mp h
    exact hgoto (by simp [hpc])
  | copy p b =>
    obtain ⟨tail, hpc, -, -, rfl⟩ := step_copy h
    exact hgoto (by simp [hpc])
  | writeHead p =>
    obtain ⟨tail, hpc, -, rfl⟩ := step_writeHead h
    exact hgoto (by simp [hpc])
  | install p b =>
    obtain ⟨tail, hpc, -, -, rfl⟩ := step_install h
    exact hgoto (by simp [hpc])
  | clear p =>
    obtain ⟨tail, hpc, -, rfl⟩ := step_clear h
    exact hgoto (by simp [hpc])
  | eraseHead p =>
    obtain ⟨hpc, rfl⟩ := step_eraseHead.mp h
    exact hgoto (by simp [hpc])
  | finish p =>
    obtain ⟨hpc, rfl⟩ := step_finish.mp h
    rw [wakeup_eq_inOp]
    exact hgoto (by simp [hpc])

/-- The `pending` clause survives every step other than the end of a commit. -/
theorem Ledger.pending_snoc {segment : List (Action Pid)} (hs : Ledger segment s)
    {action : Action Pid} (h : step s action = .ok s') :
    ∀ before q b after, segment ++ [action] = before ++ .log q b :: after →
      .endOp q ∉ after → s'.pc q = .inOp := by
  intro before q b after heq hend
  rcases List.eq_nil_or_concat after with rfl | ⟨after', last, rfl⟩
  · -- The action just taken is the `log_write` itself.
    obtain ⟨-, hlast⟩ := List.append_inj' heq rfl
    obtain rfl := List.head_eq_of_cons_eq hlast
    obtain ⟨hpc, log, isNew, -, rfl⟩ := step_log h
    exact hpc
  · have hsplit : segment ++ [action] = (before ++ .log q b :: after') ++ [last] := by
      simpa using heq
    obtain ⟨hsegment, hlast⟩ := List.append_inj' hsplit rfl
    obtain rfl := List.head_eq_of_cons_eq hlast
    have hq := hs.pending before q b after' hsegment (fun hmem ↦ hend (by simp [hmem]))
    exact step_keeps_inOp h hq (fun heq ↦ hend (by simp [heq]))

/-- A step that touches neither the header nor any process inside `commit`. -/
theorem Ledger.quiet {segment : List (Action Pid)} (hs : Ledger segment s) {action : Action Pid}
    (h : step s action = .ok s') (hlh : s'.log.lh = s.log.lh)
    (hcommit : ∀ q c, s'.pc q = .commit c ↔ s.pc q = .commit c)
    (hlog : loggedBlocks [action] = []) (hinstall : installedBlocks [action] = []) :
    Ledger (segment ++ [action]) s' := by
  refine ⟨by rw [hlh]; exact hs.nodup, ?_, ?_, hs.pending_snoc h⟩
  · intro hnone
    rw [hlh]
    exact (hs.between fun q c hq ↦ hnone q c ((hcommit q c).mpr hq)).append_quiet action hlog hinstall
  · intro q c hq
    rw [hlh]
    exact (hs.during q c ((hcommit q c).mp hq)).append_quiet action hlog hinstall

/-- A step of the one committing process. -/
theorem Ledger.advance {segment : List (Action Pid)} (hd : Discipline s) (hs : Ledger segment s)
    {action : Action Pid} (h : step s action = .ok s') {c : CommitPc} (next : CommitPc)
    (hp : s.pc p = .commit c) (hpc : s'.pc = (s.goto p (.commit next)).pc)
    (hnodup : s'.log.lh.blocks.Nodup)
    (hstage : StageOk (segment ++ [action]) s'.log.lh (some next)) :
    Ledger (segment ++ [action]) s' := by
  have hself : s'.pc p = .commit next := by
    rw [hpc]
    simp [System.goto_pc]
  refine ⟨hnodup, fun hnone ↦ absurd hself (hnone p next), ?_, hs.pending_snoc h⟩
  intro q d hq
  by_cases hqp : q = p
  · subst hqp
    rw [hself] at hq
    cases hq
    exact hstage
  · rw [hpc, System.goto_pc, if_neg hqp] at hq
    exact absurd (hd.single q p d c hq hp) hqp

/-- Logging a block adds it to the header and to the blocks logged. -/
theorem Ledger.step_log_ok {segment : List (Action Pid)} (hd : Discipline s)
    (hs : Ledger segment s) {b : ℕ} (h : step s (.log p b) = .ok s') :
    Ledger (segment ++ [.log p b]) s' := by
  have hpending := hs.pending_snoc h
  obtain ⟨hpc, log, isNew, hwrite, rfl⟩ := step_log h
  obtain ⟨-, -, -, -, -, -, -, hblocks⟩ := logWrite_ok hwrite
  have hnocommit : ∀ q c, s.pc q ≠ .commit c := fun q c hq ↦
    hd.no_op_of_committing (hd.committer.mpr ⟨q, c, hq⟩) hpc
  obtain ⟨hinstalled, hlogged⟩ := hs.between hnocommit
  refine ⟨?_, fun _ ↦ ⟨?_, ?_⟩, fun q c hq ↦ absurd hq (hnocommit q c), hpending⟩
  · change log.lh.blocks.Nodup
    rw [hblocks]
    split
    · exact hs.nodup
    · rename_i hnew
      rw [List.nodup_append]
      refine ⟨hs.nodup, List.nodup_singleton b, ?_⟩
      intro x hx y hy heq
      obtain rfl := List.mem_singleton.mp hy
      exact hnew (heq ▸ hx)
  · rw [installedBlocks_append, hinstalled]
    rfl
  · intro x
    change x ∈ log.lh.blocks ↔ _
    have hsnoc : loggedBlocks (segment ++ [.log p b]) = loggedBlocks segment ++ [b] := by
      rw [loggedBlocks_append]
      rfl
    rw [hsnoc, List.mem_append, List.mem_singleton, ← hlogged, hblocks]
    split
    · rename_i hmem
      exact ⟨Or.inl, fun hx ↦ hx.elim id fun heq ↦ heq ▸ hmem⟩
    · simp

/-- Copying one more block to its home location. -/
theorem Ledger.step_install_ok {segment : List (Action Pid)} (hd : Discipline s)
    (hs : Ledger segment s) {b : ℕ} (h : step s (.install p b) = .ok s') :
    Ledger (segment ++ [.install p b]) s' := by
  obtain ⟨tail, hpc, htail, hb, hs'⟩ := step_install h
  have hlh : s'.log.lh = s.log.lh := by rw [hs']; rfl
  obtain ⟨hinstalled, hlogged⟩ := hs.during p _ hpc
  refine hs.advance hd h _ hpc (by rw [hs']) (by rw [hlh]; exact hs.nodup) ?_
  rw [hlh]
  refine ⟨?_, ?_⟩
  · have hget : s.log.lh.blocks[tail]? = some b := by
      simp [LogHeader.blocks, htail, hb]
    rw [installedBlocks_append, hinstalled, List.take_add_one, hget]
    rfl
  · simpa [loggedBlocks] using hlogged

/-- Clearing the count: everything logged has been installed. -/
theorem Ledger.step_clear_ok {segment : List (Action Pid)} (hd : Discipline s)
    (hs : Ledger segment s) (h : step s (.clear p) = .ok s') :
    Ledger (segment ++ [.clear p]) s' := by
  obtain ⟨tail, hpc, htail, hs'⟩ := step_clear h
  obtain ⟨hinstalled, hlogged⟩ := hs.during p _ hpc
  have hn : s'.log.lh.n = 0 := by rw [hs']
  refine hs.advance hd h .eraseHead hpc (by rw [hs']) ?_ ⟨hn, ?_⟩
  · simp [LogHeader.blocks, hn]
  · intro b
    rw [installedBlocks_append, loggedBlocks_append, hinstalled,
      List.take_of_length_le (by simpa using htail)]
    simpa [installedBlocks, loggedBlocks] using hlogged b

/-- Every step keeps the ledger. -/
theorem Ledger.step_ok {actions : List (Action Pid)} (hd : Discipline s)
    (hs : Ledger (sinceCommit actions) s) {action : Action Pid} (h : step s action = .ok s') :
    Ledger (sinceCommit (actions ++ [action])) s' := by
  have hroles : ∀ {p pc}, (∀ c, s.pc p ≠ .commit c) → (∀ c, pc ≠ .commit c) → ∀ q c,
      (s.goto p pc).pc q = .commit c ↔ s.pc q = .commit c := by
    intro p pc hp hpc q c
    rw [System.goto_pc]
    split
    · rename_i hq
      subst hq
      exact ⟨fun heq ↦ absurd heq (hpc c), fun heq ↦ absurd heq (hp c)⟩
    · rfl
  cases action with
  | finish p =>
    obtain ⟨hpc, rfl⟩ := step_finish.mp h
    rw [sinceCommit_finish]
    obtain ⟨hn, -⟩ := hs.during p _ hpc
    have hblocks : s.log.lh.blocks = [] := by simp [LogHeader.blocks, hn]
    refine ⟨hs.nodup, fun _ ↦ ⟨rfl, ?_⟩, ?_, by simp⟩
    · intro b
      change b ∈ s.log.lh.blocks ↔ _
      simp [hblocks, loggedBlocks]
    · intro q c hq
      rw [wakeup_eq_commit, System.goto_pc] at hq
      split at hq
      · cases hq
      · rename_i hne
        exact absurd (hd.single q p c _ hq hpc) hne
  | call p =>
    rw [sinceCommit_snoc _ (by simp)]
    obtain ⟨hpc, hs'⟩ := step_call.mp h
    exact hs.quiet h (by rw [hs']; rfl) (by rw [hs']; exact hroles (by simp [hpc]) (by simp))
      rfl rfl
  | enter p =>
    rw [sinceCommit_snoc _ (by simp)]
    obtain ⟨hpc, -, -, hs'⟩ := step_enter.mp h
    exact hs.quiet h (by rw [hs']) (by rw [hs']; exact hroles (by simp [hpc]) (by simp)) rfl rfl
  | sleep p =>
    rw [sinceCommit_snoc _ (by simp)]
    obtain ⟨hpc, -, hs'⟩ := step_sleep h
    exact hs.quiet h (by rw [hs']; rfl) (by rw [hs']; exact hroles (by simp [hpc]) (by simp))
      rfl rfl
  | interrupt p =>
    rw [sinceCommit_snoc _ (by simp)]
    obtain ⟨hpc, hs'⟩ := step_interrupt.mp h
    exact hs.quiet h (by rw [hs']; rfl) (by rw [hs']; exact hroles (by simp [hpc]) (by simp))
      rfl rfl
  | log p b =>
    rw [sinceCommit_snoc _ (by simp)]
    exact hs.step_log_ok hd h
  | endOp p =>
    rw [sinceCommit_snoc _ (by simp)]
    have hpending := hs.pending_snoc h
    obtain ⟨hpc, hcommitting, hcases⟩ := step_endOp h
    have hnocommit : ∀ q c, s.pc q ≠ .commit c := fun q c hq ↦ by
      have htrue := hd.committer.mpr ⟨q, c, hq⟩
      rw [hcommitting] at htrue
      cases htrue
    have hstage := (hs.between hnocommit).append_quiet (.endOp p) rfl rfl
    rcases hcases with ⟨-, rfl⟩ | ⟨-, rfl⟩
    · refine ⟨hs.nodup, fun hnone ↦ ?_, ?_, hpending⟩
      · exact absurd (by simp [System.goto]) (hnone p .test)
      · intro q c hq
        change (s.goto p (.commit .test)).pc q = .commit c at hq
        rw [System.goto_pc] at hq
        split at hq
        · cases hq
          exact hstage
        · exact absurd hq (hnocommit q c)
    · refine ⟨hs.nodup, fun _ ↦ hstage, ?_, hpending⟩
      intro q c hq
      rw [wakeup_eq_commit, hroles (hnocommit p) (by simp)] at hq
      exact absurd hq (hnocommit q c)
  | test p =>
    rw [sinceCommit_snoc _ (by simp)]
    obtain ⟨hpc, hs'⟩ := step_test.mp h
    have hlh : s'.log.lh = s.log.lh := by rw [hs']; rfl
    have hstage := (hs.during p _ hpc).append_quiet (.test p) rfl rfl
    refine hs.advance hd h _ hpc (by rw [hs']) (by rw [hlh]; exact hs.nodup) ?_
    rw [hlh]
    split
    · exact hstage
    · -- Nothing was logged: the commit is over before it begins.
      rename_i hn
      have hzero : s.log.lh.n = 0 := by omega
      obtain ⟨hinstalled, hlogged⟩ := hstage
      refine ⟨hzero, fun b ↦ ?_⟩
      rw [hinstalled, ← hlogged]
      simp [LogHeader.blocks, hzero]
  | copy p b =>
    rw [sinceCommit_snoc _ (by simp)]
    obtain ⟨tail, hpc, -, -, hs'⟩ := step_copy h
    have hlh : s'.log.lh = s.log.lh := by rw [hs']; rfl
    exact hs.advance hd h _ hpc (by rw [hs']) (by rw [hlh]; exact hs.nodup)
      (by rw [hlh]; exact (hs.during p _ hpc).append_quiet (.copy p b) rfl rfl)
  | writeHead p =>
    rw [sinceCommit_snoc _ (by simp)]
    obtain ⟨tail, hpc, -, hs'⟩ := step_writeHead h
    have hlh : s'.log.lh = s.log.lh := by rw [hs']; rfl
    exact hs.advance hd h _ hpc (by rw [hs']) (by rw [hlh]; exact hs.nodup)
      (by rw [hlh]; exact (hs.during p _ hpc).append_quiet (.writeHead p) rfl rfl)
  | install p b =>
    rw [sinceCommit_snoc _ (by simp)]
    exact hs.step_install_ok hd h
  | clear p =>
    rw [sinceCommit_snoc _ (by simp)]
    exact hs.step_clear_ok hd h
  | eraseHead p =>
    rw [sinceCommit_snoc _ (by simp)]
    obtain ⟨hpc, hs'⟩ := step_eraseHead.mp h
    have hlh : s'.log.lh = s.log.lh := by rw [hs']; rfl
    exact hs.advance hd h _ hpc (by rw [hs']) (by rw [hlh]; exact hs.nodup)
      (by rw [hlh]; exact (hs.during p _ hpc).append_quiet (.eraseHead p) rfl rfl)

theorem ledger_run {start size : ℕ} {actions : List (Action Pid)}
    (hrun : run step (initial start size) actions = .ok s) :
    Ledger (sinceCommit actions) s := by
  refine run_induction step (P := fun actions s ↦ Ledger (sinceCommit actions) s) ?_ ?_ hrun
  · refine ⟨by simp [initial, LogHeader.blocks], fun _ ↦ ⟨rfl, ?_⟩, by simp [initial], by simp⟩
    simp [initial, LogHeader.blocks, loggedBlocks]
  · intro actions action s s' hactions hs h
    exact hs.step_ok (discipline_run hactions) h

/-! ## Operations and commits -/

/-- Until its `end_op`, a process stays inside its operation and nobody takes a commit step. -/
theorem run_inside_op {actions : List (Action Pid)} (hd : Discipline s) (hp : s.pc p = .inOp)
    (hend : .endOp p ∉ actions) (hrun : run step s actions = .ok s') :
    ∀ action ∈ actions, action.isCommit = false := by
  induction actions generalizing s with
  | nil => simp
  | cons action actions ih =>
    obtain ⟨s₁, hstep, hrest⟩ := (run_cons_ok step).mp hrun
    have hhead : action.isCommit = false := by
      by_contra hcommit
      obtain ⟨q, c, hq⟩ := step_commit (by simpa using hcommit) hstep
      exact hd.no_op_of_committing (hd.committer.mpr ⟨q, c, hq⟩) hp
    have hp₁ : s₁.pc p = .inOp := step_keeps_inOp hstep hp fun heq ↦ hend (by simp [heq])
    intro other hother
    rcases List.mem_cons.mp hother with rfl | hother
    · exact hhead
    · exact ih (hd.step_ok hstep) hp₁ (fun hmem ↦ hend (by simp [hmem])) hrest other hother

omit [DecidableEq Pid] in
theorem mem_loggedBlocks {actions : List (Action Pid)} {b : ℕ} :
    b ∈ loggedBlocks actions ↔ ∃ before q after, actions = before ++ .log q b :: after := by
  constructor
  · intro hb
    obtain ⟨action, haction, heq⟩ := List.mem_filterMap.mp hb
    cases action with
    | log q blockno =>
      obtain rfl := Option.some.inj heq
      obtain ⟨before, after, hsplit⟩ := List.append_of_mem haction
      exact ⟨before, q, after, hsplit⟩
    | _ => cases heq
  · rintro ⟨before, q, after, rfl⟩
    exact List.mem_filterMap.mpr ⟨.log q b, by simp, rfl⟩

/-- What the log guarantees of a run that performed `actions` and reached `s`. -/
structure NotSplit (actions : List (Action Pid)) (s : System Pid) : Prop where
  /-- From its admission to its `end_op` an operation sees no commit step. -/
  whole : ∀ before p inside after, actions = before ++ .enter p :: (inside ++ after) →
    .endOp p ∉ inside → ∀ action ∈ inside, action.isCommit = false
  /-- A commit step is taken only while `committing` is set, with no operation outstanding. -/
  alone : ∀ action s', action.isCommit = true → step s action = .ok s' →
    s.log.committing = true ∧ s.log.outstanding = 0 ∧ ∀ q, s.pc q ≠ .inOp
  /-- While `committing` is set no `begin_op` returns and no `log_write` changes the header. -/
  closed : s.log.committing = true →
    ∀ q s', step s (.enter q) ≠ .ok s' ∧ ∀ b, step s (.log q b) ≠ .ok s'
  /-- A commit that finishes has installed exactly the blocks logged by the operations that ended
  since the previous commit. -/
  exact : ∀ p s', step s (.finish p) = .ok s' →
    ∀ b, b ∈ installedBlocks (sinceCommit actions) ↔
      ∃ before q after, sinceCommit actions = before ++ .log q b :: after ∧ .endOp q ∈ after
  /-- Neither of the two panics is reached. -/
  safe : ∀ action, step s action ≠ .error (.panic .logCommitting) ∧
    step s action ≠ .error (.panic .logOutsideTrans)

theorem Discipline.step_ne_panic (hd : Discipline s) (action : Action Pid) :
    step s action ≠ .error (.panic .logCommitting) ∧
      step s action ≠ .error (.panic .logOutsideTrans) := by
  have hguarded : ∀ {p pc next panic}, guarded s p pc next = .error (.panic panic) →
      s.pc p = pc ∧ next = .error (.panic panic) := by
    intro p pc next panic h
    unfold guarded at h
    split at h
    · exact ⟨‹_›, h⟩
    · cases h
  cases action with
  | endOp p =>
    have hpanic : ∀ panic, step s (.endOp p) ≠ .error (.panic panic) := by
      intro panic h
      obtain ⟨hpc, hnext⟩ := hguarded h
      have hcommitting : s.log.committing = false := by
        by_contra hc
        exact hd.no_op_of_committing (by simpa using hc) hpc
      by_cases hone : s.log.outstanding = 1
      · simp [endOp, hcommitting, hone] at hnext
      · have hne : ¬ s.log.outstanding - 1 = 0 := by omega
        simp [endOp, hcommitting, hne] at hnext
    exact ⟨hpanic _, hpanic _⟩
  | log p b =>
    have hother : ∀ panic, step s (.log p b) = .error (.panic panic) → panic = .logTooBig := by
      intro panic h
      obtain ⟨hpc, hnext⟩ := hguarded h
      have hpos : ¬ s.log.outstanding < 1 := by
        obtain ⟨ops, hops, hcard⟩ := hd.active
        have : 0 < ops.card := Finset.card_pos.mpr ⟨p, (hops p).mpr hpc⟩
        omega
      cases hwrite : logWrite s.log b with
      | ok result =>
        rw [hwrite] at hnext
        cases hnext
      | error other =>
        rw [hwrite] at hnext
        cases hnext
        exact (logWrite_error hwrite).resolve_right hpos
    refine ⟨fun h ↦ ?_, fun h ↦ ?_⟩
    · cases hother _ h
    · cases hother _ h
  | enter p =>
    constructor <;>
    · intro h
      obtain ⟨-, hnext⟩ := hguarded h
      split at hnext <;> cases hnext
  | sleep p =>
    constructor <;>
    · intro h
      obtain ⟨-, hnext⟩ := hguarded h
      split at hnext <;> cases hnext
  | call p | interrupt p | test p | eraseHead p | finish p =>
    constructor <;>
    · intro h
      obtain ⟨-, hnext⟩ := hguarded h
      cases hnext
  | copy p b | writeHead p | install p b | clear p =>
    constructor <;>
    · intro h
      simp only [step] at h
      split at h
      · split at h <;> cases h
      · cases h

/-- Transactions are never split, in any interleaving of any number of processes. -/
theorem transactions_never_split (start size : ℕ) (actions : List (Action Pid)) (s : System Pid)
    (hrun : run step (initial start size) actions = .ok s) : NotSplit actions s := by
  have hd := discipline_run hrun
  have hl := ledger_run hrun
  refine ⟨?_, ?_, ?_, ?_, hd.step_ne_panic⟩
  · rintro before p inside after rfl hend
    obtain ⟨s₁, hbefore, hadmit⟩ := (run_append_ok step).mp hrun
    obtain ⟨s₂, hstep, hrest⟩ := (run_cons_ok step).mp hadmit
    obtain ⟨s₃, hinside, -⟩ := (run_append_ok step).mp hrest
    have hp : s₂.pc p = .inOp := by
      obtain ⟨-, -, -, rfl⟩ := step_enter.mp hstep
      simp [System.goto]
    exact run_inside_op ((discipline_run hbefore).step_ok hstep) hp hend hinside
  · intro action s' haction h
    obtain ⟨q, c, hq⟩ := step_commit haction h
    have hcommitting := hd.committer.mpr ⟨q, c, hq⟩
    exact ⟨hcommitting, hd.exclusive hcommitting, fun _ ↦ hd.no_op_of_committing hcommitting⟩
  · intro hcommitting q s'
    constructor
    · intro h
      obtain ⟨-, hfalse, -⟩ := step_enter.mp h
      rw [hcommitting] at hfalse
      cases hfalse
    · intro b h
      exact hd.no_op_of_committing hcommitting (step_log h).1
  · intro p s' h b
    obtain ⟨hpc, -⟩ := step_finish.mp h
    have hcommitting := hd.committer.mpr ⟨p, _, hpc⟩
    rw [(hl.during p _ hpc).2 b, mem_loggedBlocks]
    constructor
    · rintro ⟨before, q, after, hsplit⟩
      refine ⟨before, q, after, hsplit, ?_⟩
      by_contra hend
      exact hd.no_op_of_committing hcommitting (hl.pending before q b after hsplit hend)
    · rintro ⟨before, q, after, hsplit, -⟩
      exact ⟨before, q, after, hsplit⟩

/-- One operation of one process that logs block 45 twice and block 46 once, up to the last step
of its commit. -/
theorem transactions_never_split_one_op :
    ∃ s : System ℕ,
      run step (initial 2 30)
        [.call 0, .enter 0, .log 0 45, .log 0 46, .log 0 45, .endOp 0, .test 0, .copy 0 45,
          .copy 0 46, .writeHead 0, .install 0 45, .install 0 46, .clear 0, .eraseHead 0] = .ok s ∧
      NotSplit
        [.call 0, .enter 0, .log 0 45, .log 0 46, .log 0 45, .endOp 0, .test 0, .copy 0 45,
          .copy 0 46, .writeHead 0, .install 0 45, .install 0 46, .clear 0, .eraseHead 0] s :=
  ⟨_, rfl, transactions_never_split 2 30 _ _ rfl⟩

end Steps

end Xv6.Log
