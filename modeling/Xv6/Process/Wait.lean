import Xv6.Process.Family

/-!
# No Parent Sleeps over a Zombie

A process that sleeps in `wait` has looked at all its children under `wait_lock`.  A process calls
`wakeup` for its parent in `exit` before it is a zombie, and `reparent` calls it for the first
process after it has handed over a child that may be one; both hold `wait_lock` throughout.  This is
an instance of the rule for conditions, for each parent.
-/

namespace Xv6.Process

open Lib

variable {K : Client} {Cpu : Type} {s s' : State K Cpu} {c : Cpu} {m : Memory K}
  {p q z : Fin NPROC} {input : Input K} {code k : Code K}

/-- At a point of `exit` between the call of `wakeup` for the parent and the end. -/
def Code.Leaving : Code K → Prop
  | .at (.wakeupLoop _ _ (.exit _)) | .at (.wakeupTest _ _ (.exit _))
  | .at (.wakeupRelease _ _ (.exit _)) | .at (.exitLock _) | .at (.exitZombie _) => True
  | _ => False

/-- A process is a zombie, or will be one before `wait_lock` is free. -/
def Exited (m : Memory K) (z : Fin NPROC) : Prop :=
  (m.proc z).state = .zombie ∨ (m.proc z).code.Leaving

theorem Code.Leaving.passed (h : code.Leaving) : code.Passed z := by
  unfold Code.Leaving at h
  split at h <;> trivial

/-- A process gets there when it has given away its children. -/
theorem leaving_next (hop : (code.op m p input).next = some k) (h : k.Leaving) :
    code.Leaving ∨ ∃ i status, code = .at (.reparent i status) ∧
      k = .at (.wakeupLoop ((m.proc p).parent.map .proc) 0 (.exit status)) := by
  cases code with
  | «at» b =>
    cases input with
    | timer =>
      simp only [Code.op] at hop
      split at hop <;> cases hop
      cases h
    | go input fail =>
      cases b with
      | sleepReacquire r => cases r <;> cases hop <;> cases h
      | wakeupLoop ch i r =>
        cases r with
        | exit status => exact .inl trivial
        | _ =>
          simp only [Code.op, pointOp, goto] at hop
          (repeat' split at hop) <;> cases hop <;> cases h
      | wakeupTest ch q r =>
        cases r with
        | exit status => exact .inl trivial
        | _ =>
          simp only [Code.op, pointOp, goto] at hop
          (repeat' split at hop) <;> cases hop <;> cases h
      | wakeupRelease ch q r =>
        cases r with
        | exit status => exact .inl trivial
        | _ =>
          cases hop
          cases h
      | reparent i status =>
        simp only [Code.op, pointOp, goto] at hop
        (repeat' split at hop) <;> cases hop
        · cases h
        · cases h
        · exact .inr ⟨i, status, rfl, rfl⟩
      | exitLock status => exact .inl trivial
      | _ =>
        simp only [Code.op, pointOp, clientOp, goto] at hop
        (repeat' split at hop) <;> cases hop <;> cases h
  | yieldRelease b =>
    cases hop
    exact absurd (Code.Passed.holds (p := p) (h.passed (z := p))).2 b.not_holds
  | _ =>
    cases hop
    cases h

variable [DecidableEq Cpu]

theorem leaving_step (hstep : Steps s c s') (h : (s'.mem.proc z).code.Leaving) :
    (s.mem.proc z).code.Leaving ∨ s.thread c = .exec z ∧ ∃ status,
      (s'.mem.proc z).code =
        .at (.wakeupLoop ((s.mem.proc z).parent.map .proc) 0 (.exit status)) := by
  by_cases hz : s.thread c = .exec z
  · obtain ⟨input, hnext⟩ := hstep.code_self hz
    refine (leaving_next hnext h).imp_right fun ⟨i, status, _, hk⟩ ↦ ⟨hz, status, hk⟩
  · rcases hstep.code_other hz with hsame | ⟨-, hfork⟩
    · exact .inl (hsame ▸ h)
    · rw [hfork] at h
      cases h

/-- A process becomes a zombie at the end of `exit`. -/
theorem Inv.zombie_step (h : Inv s) (hstep : Steps s c s')
    (hzombie : (s'.mem.proc z).state = .zombie) : Exited s.mem z := by
  rcases h.quiet_or_event hstep with hquiet | ⟨p, m, k, hp, hmem, hevent⟩
  · exact .inl ((hquiet.entry z).zombie.mp hzombie)
  · rw [hmem, Memory.state_setCode] at hzombie
    cases hevent with
    | fork q pid ret hcode =>
      left
      by_cases hz : z = q <;> simpa [Memory.setParent, Memory.proc_setProc, hz] using hzombie
    | reparent i status hcode hparent =>
      left
      by_cases hz : z = i <;> simpa [Memory.proc_setProc, hz] using hzombie
    | zombie status hcode =>
      by_cases hz : z = p
      · right
        rw [hz, hcode]
        trivial
      · left
        simpa [Memory.setZombie, Memory.proc_setProc, hz] using hzombie
    | reap addr q ret hcode hzombie' =>
      left
      by_cases hz : z = q
      · rwa [hz]
      · simpa [Memory.reap, Memory.freeproc, Memory.proc_setProc, hz] using hzombie
    | refuse addr i havekids ret hcode hi hrefuse => exact .inl hzombie
    | fail addr q ret hcode => exact .inl hzombie

/-- A process gets a parent in `fork`, and the first process as its parent in `exit`. -/
theorem Inv.parent_step (h : Inv s) (hstep : Steps s c s')
    (hparent : (s'.mem.proc z).parent = some q) :
    (s.mem.proc z).parent = some q ∨ (s.mem.proc z).state = .used ∨
      q = initproc ∧ ∃ p i status, s.thread c = .exec p ∧
        (s'.mem.proc p).code = .at (.wakeupLoop (some (.proc initproc)) 0 (.reparent i status)) := by
  rcases h.quiet_or_event hstep with hquiet | ⟨p, m, k, hp, hmem, hevent⟩
  · left
    rcases (hquiet.entry z).parent with hsame | ⟨-, hnone⟩
    · rwa [hsame] at hparent
    · rw [hnone] at hparent
      cases hparent
  · rw [hmem, Memory.parent_setCode] at hparent
    cases hevent with
    | fork r pid ret hcode =>
      by_cases hz : z = r
      · refine .inr (.inl (h.fork p z ?_))
        rw [hcode, hz]
        rfl
      · left
        simpa [Memory.setParent, Memory.proc_setProc, hz] using hparent
    | reparent i status hcode hparent' =>
      by_cases hz : z = i
      · right
        right
        rw [hz, Memory.setProc_self] at hparent
        exact ⟨(Option.some.inj hparent).symm, p, i + 1, status, hp,
          by rw [hmem, Memory.code_setCode_self]⟩
      · left
        simpa [Memory.proc_setProc, hz] using hparent
    | zombie status hcode =>
      left
      by_cases hz : z = p <;> simpa [Memory.setZombie, Memory.proc_setProc, hz] using hparent
    | reap addr r ret hcode hzombie =>
      left
      by_cases hz : z = r
      · simp [hz, Memory.reap, Memory.freeproc] at hparent
      · simpa [Memory.reap, Memory.freeproc, Memory.proc_setProc, hz] using hparent
    | refuse addr i havekids ret hcode hi hrefuse => exact .inl hparent
    | fail addr r ret hcode => exact .inl hparent

/-- A child of `q` has exited. -/
def ChildExited (m : Memory K) (q : Fin NPROC) : Prop :=
  ∃ z, (m.proc z).parent = some q ∧ Exited m z

/-- Whoever makes a child of `q` an exited one goes on to call `wakeup` for `q`. -/
theorem Inv.childExited_step (h : Inv s) (hstep : Steps s c s') (hchild : ChildExited s'.mem q) :
    ChildExited s.mem q ∨ ∃ p, s.thread c = .exec p ∧
      (s'.mem.proc p).code.Holds p (.cond .wait) ∧
      (s'.mem.proc p).code.startsWakeup (.proc q) = true := by
  obtain ⟨z, hparent', hexited'⟩ := hchild
  -- The process was an exited one before, or calls `wakeup` for its parent.
  have hexited : Exited s.mem z ∨ s.thread c = .exec z ∧ ∃ status, (s'.mem.proc z).code =
      .at (.wakeupLoop ((s.mem.proc z).parent.map .proc) 0 (.exit status)) := by
    rcases hexited' with hzombie | hleaving
    · exact .inl (h.zombie_step hstep hzombie)
    · exact (leaving_step hstep hleaving).imp_left .inr
  rcases h.parent_step hstep hparent' with hparent | hused | ⟨rfl, p, i, status, hp, hcode⟩
  · rcases hexited with hexited | ⟨hz, status, hcode⟩
    · exact .inl ⟨z, hparent, hexited⟩
    · refine .inr ⟨z, hz, ?_, ?_⟩
      · rw [hcode]
        rfl
      · rw [hcode, hparent]
        simp [Code.startsWakeup]
  · -- A process that is being made has not run.
    have hnot : ∀ c', s.thread c' ≠ .exec z := by
      intro c' hc'
      exact (Code.runs_ne _).2 ((h.state_of_exec hc').1.symm.trans hused)
    rcases hexited with (hzombie | hleaving) | ⟨hz, -⟩
    · rw [hused] at hzombie
      cases hzombie
    · exact absurd (h.resume z hnot) (Code.Passed.holds (p := z) (hleaving.passed (z := z))).1
    · exact absurd hz (hnot c)
  · refine .inr ⟨p, hp, ?_, ?_⟩
    · rw [hcode]
      rfl
    · rw [hcode]
      simp [Code.startsWakeup]

/-- Nobody who sleeps in `wait` misses the exit of a child. -/
theorem noLost_wait {data : K.Data} {actions : List (Cpu × Input K)}
    (hrun : run step (boot K Cpu data) actions = .ok s) (q : Fin NPROC) :
    NoLost s (.proc q) .wait (ChildExited s.mem q) fun _ ↦ False := by
  refine run_induction step
    (P := fun _ s ↦ NoLost s (.proc q) .wait (ChildExited s.mem q) fun _ ↦ False) ?_ ?_ hrun
  · rintro ⟨z, hparent, -⟩
    cases hparent
  · intro actions ⟨c, input⟩ s s' hrun hlost hstep
    have h : Inv s := .of_run hrun
    have hf : Family s.mem := .of_run hrun
    have hsteps := step_steps hstep
    refine NoLost.step h hsteps hlost ?_ (fun hchild hnot ↦ ?_) fun _ _ _ _ ↦ False.elim
    · rintro p r hp hcode ⟨z, hparent, hexited⟩
      have hknows := hf.knows p
      rw [hcode] at hknows
      obtain ⟨rfl, hlk, hsearched⟩ := hknows
      rcases hexited with hzombie | hleaving
      · exact hsearched z z.2 hparent hzombie
      · have hholds : (s.mem.proc q).code.Holds q (.cond .wait) := by
          rw [hcode]
          exact .inr (hlk ▸ rfl)
        have heq := h.eq_of_holds_cond hp hholds (Code.Passed.holds (hleaving.passed (z := z))).2
        rw [heq, hcode] at hleaving
        exact hleaving
    · obtain ⟨p, hp, hholds, hstarts⟩ := (h.childExited_step hsteps hchild).resolve_left hnot
      have hthread : s'.thread c = .exec p :=
        h.exec_of_step hsteps hp fun hresumes ↦ by cases hresumes.holds.mp hholds
      refine ⟨((h.step hsteps).lock c _).mpr (by rwa [hthread]), fun p' hp' ↦ .inr ?_⟩
      rw [Thread.exec.inj (hp'.symm.trans hthread)]
      exact hstarts

/-- While `wait_lock` is free, no process sleeps in `wait` that has a child which is a zombie. -/
theorem no_parent_sleeps_over_zombie {data : K.Data} {actions : List (Cpu × Input K)}
    (hrun : run step (boot K Cpu data) actions = .ok s) (hlock : s.lock (.cond .wait) = none)
    (q z : Fin NPROC) (hsleep : (s.mem.proc q).state = .sleeping)
    (hchan : (s.mem.proc q).chan = some (.proc q)) (hparent : (s.mem.proc z).parent = some q) :
    (s.mem.proc z).state ≠ .zombie := by
  intro hzombie
  obtain ⟨c, p, -, hheld, -⟩ :=
    noLost_wait hrun q ⟨z, hparent, .inl hzombie⟩ q (.inl ⟨hsleep, hchan⟩)
  rw [hlock] at hheld
  cases hheld

/-- The first process sleeps in `wait`, and the process that it has forked runs. -/
theorem no_parent_sleeps_over_zombie_fork :
    ∃ s, run step (boot (.any Unit Unit Unit) Unit ()) (exitRun.take 97) = .ok s ∧
      (s.mem.proc 0).state = .sleeping ∧ (s.mem.proc 0).chan = some (.proc 0) ∧
      (s.mem.proc 1).parent = some 0 ∧ (s.mem.proc 1).state ≠ .zombie := by
  have hyields : yields (run step (boot (.any Unit Unit Unit) Unit ()) (exitRun.take 97))
      (fun s ↦ s.lock (.cond .wait) = none ∧ (s.mem.proc 0).state = .sleeping ∧
        (s.mem.proc 0).chan = some (.proc 0) ∧ (s.mem.proc 1).parent = some 0) = true := by
    decide +kernel
  obtain ⟨s, hrun, hlock, hsleep, hchan, hparent⟩ := exists_of_yields hyields
  exact ⟨s, hrun, hsleep, hchan, hparent,
    no_parent_sleeps_over_zombie hrun hlock 0 1 hsleep hchan hparent⟩

end Xv6.Process
