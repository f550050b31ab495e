import Xv6.Process.Machine

/-!
# What the Threads Do

For each point of the code: the spin locks that are held there, and the state that the process has.
Each kind of step changes them in one way, whatever the point.
-/

namespace Xv6.Process

variable {K : Client} {m m' : Memory K} {p q : Fin NPROC} {code k : Code K} {input : Input K}
  {l l' : Lock K.Lk}

/-! ## Locks -/

def WakeRet.Holds (l : Lock K.Lk) : WakeRet K → Prop
  | .client _ held => ∃ lk ∈ held, l = .cond (.other lk)
  | .reparent _ _ | .exit _ => l = .cond .wait

/-- Process `p` holds lock `l` at a point. -/
def Point.Holds (p : Fin NPROC) (l : Lock K.Lk) : Point K → Prop
  | .client _ held => ∃ lk ∈ held, l = .cond (.other lk)
  | .sleepAcquire _ r => l = .cond r.lk
  | .sleepRelease _ r => l = .proc p ∨ l = .cond r.lk
  | .forkret | .sleepSet _ _ | .sleepSched _ _ | .sleepTidy _ | .sleepUnlock _ | .exitSched
  | .exitDead => l = .proc p
  | .wakeupLoop _ _ r => r.Holds l
  | .wakeupTest _ q r | .wakeupRelease _ q r => l = .proc q ∨ r.Holds l
  | .killTest _ q _ | .killNext _ q _ | .killDone q _ | .allocTest q _ | .allocNext q _
  | .forkCopy q _ | .forkFail q _ | .forkRelease q _ | .forkRunnable q _ _ | .forkDone q _ _ =>
    l = .proc q
  | .forkParent _ _ _ | .forkUnwait _ _ _ | .reparent _ _ | .exitLock _ | .waitScan _ _ _ _
  | .waitReturn _ _ => l = .cond .wait
  | .exitZombie _ | .exitUnwait => l = .proc p ∨ l = .cond .wait
  | .waitTest _ q _ | .waitNext _ q _ | .waitFound q _ _ => l = .proc q ∨ l = .cond .wait
  | .sleepReacquire _ | .killLoop _ _ _ | .allocLoop _ _ | .forkWait _ _ _ | .forkLock _ _ _
  | .exitWait _ | .waitStart _ _ => False

/-- Process `p` holds lock `l`. -/
def Code.Holds (p : Fin NPROC) (l : Lock K.Lk) : Code K → Prop
  | .at b => b.Holds p l
  | .yieldAcquire _ => False
  | .yieldSet _ | .yieldSched _ | .yieldRelease _ => l = .proc p

theorem Idle.not_holds (b : Idle K) : ¬ b.point.Holds p l := by
  obtain ⟨b, hb⟩ := b
  change ¬ b.Holds p l
  cases b <;> simp_all [Point.unlocked, Point.Holds]

theorem WakeRet.holds_point (r : WakeRet K) : r.point.Holds p l ↔ r.Holds l := by
  cases r <;> rfl

theorem SleepRet.holds_point (r : SleepRet K) : r.point.Holds p l ↔ l = .cond r.lk := by
  cases r <;> simp [SleepRet.point, Point.Holds, SleepRet.lk]

theorem WakeRet.not_holds_proc (r : WakeRet K) : ¬ r.Holds (.proc q) := by
  cases r <;> simp [WakeRet.Holds]

/-- Taking a lock. -/
theorem holds_acquire (h : code.op m p input = .acquire l k) :
    k.Holds p l' ↔ l' = l ∨ code.Holds p l' := by
  cases code with
  | «at» b =>
    cases input with
    | timer =>
      simp only [Code.op] at h
      split at h <;> cases h
    | go input fail =>
      cases b with
      | sleepReacquire r =>
        cases h
        exact r.holds_point.trans (or_iff_left id).symm
      | _ =>
        simp only [Code.op, pointOp, clientOp, goto] at h
        (repeat' split at h) <;> cases h <;> simp [Code.Holds, Point.Holds]
  | yieldAcquire b =>
    cases h
    simp [Code.Holds]
  | _ => cases h

/-- Releasing a lock. -/
theorem holds_release (h : code.op m p input = .release l k) :
    k.Holds p l' ↔ l' ≠ l ∧ code.Holds p l' := by
  cases code with
  | «at» b =>
    cases input with
    | timer =>
      simp only [Code.op] at h
      split at h <;> cases h
    | go input fail =>
      cases b with
      | wakeupRelease ch q r =>
        cases h
        have hq := r.not_holds_proc (q := q)
        simp only [Code.Holds, Point.Holds]
        grind
      | _ =>
        simp only [Code.op, pointOp, clientOp, goto] at h
        (repeat' split at h) <;> cases h <;> simp [Code.Holds, Point.Holds] <;> grind
  | yieldRelease b =>
    cases h
    simp [Code.Holds, b.not_holds]
  | _ => cases h

/-- Other steps keep the locks. -/
theorem holds_store (h : code.op m p input = .store m' k) : k.Holds p l' ↔ code.Holds p l' := by
  cases code with
  | «at» b =>
    cases input with
    | timer =>
      simp only [Code.op] at h
      split at h
      · rename_i hb
        cases h
        exact iff_of_false id (Idle.not_holds ⟨b, hb⟩)
      · cases h
    | go input fail =>
      cases b with
      | wakeupLoop ch i r =>
        simp only [Code.op, pointOp, goto] at h
        (repeat' split at h) <;> cases h
        · rfl
        · exact r.holds_point
      | _ =>
        simp only [Code.op, pointOp, clientOp, goto] at h
        (repeat' split at h) <;> cases h <;> simp_all [Code.Holds, Point.Holds, WakeRet.Holds, SleepRet.lk]
  | yieldSet b =>
    cases h
    rfl
  | _ => cases h

/-! ## States -/

/-- The state that a running process has at a point: it has changed its state before it calls
`sched`. -/
def Point.runs : Point K → ProcState
  | .sleepSched _ _ => .sleeping
  | .exitUnwait | .exitSched => .zombie
  | _ => .running

def Code.runs : Code K → ProcState
  | .at b => b.runs
  | .yieldSched _ => .runnable
  | _ => .running

/-- The process that is being made at a point of `fork`. -/
def Point.forks : Point K → Option (Fin NPROC)
  | .forkCopy q _ | .forkRelease q _ | .forkWait q _ _ | .forkParent q _ _ | .forkUnwait q _ _
  | .forkLock q _ _ | .forkRunnable q _ _ => some q
  | _ => none

def Code.forks : Code K → Option (Fin NPROC)
  | .at b => b.forks
  | .yieldAcquire b | .yieldSet b | .yieldSched b | .yieldRelease b => b.point.forks

/-- The pid that `kill` looks for at a point. -/
def Point.kills : Point K → Option Int32
  | .killLoop pid _ _ | .killTest pid _ _ | .killNext pid _ _ => some pid
  | _ => none

def Code.kills : Code K → Option Int32
  | .at b => b.kills
  | .yieldAcquire b | .yieldSet b | .yieldSched b | .yieldRelease b => b.point.kills

/-- Where a process that does not run goes on: it has its own lock, from the scheduler. -/
def Code.Resumes : Code K → Prop
  | .at .forkret | .at (.sleepTidy _) | .at .exitDead | .yieldRelease _ => True
  | _ => False

theorem Code.Resumes.holds (h : code.Resumes) : code.Holds p l ↔ l = .proc p := by
  unfold Code.Resumes at h
  split at h <;> first | rfl | cases h

theorem Code.Resumes.runs (h : code.Resumes) : code.runs = .running := by
  unfold Code.Resumes at h
  split at h <;> first | rfl | cases h

theorem Idle.runs (b : Idle K) : b.point.runs = .running := by
  obtain ⟨b, hb⟩ := b
  change b.runs = _
  cases b <;> simp_all [Point.unlocked, Point.runs]

theorem WakeRet.runs (r : WakeRet K) : r.point.runs = .running := by
  cases r <;> rfl

/-- A running process is never in the state of an entry that is free or being made. -/
theorem Code.runs_ne (code : Code K) : code.runs ≠ .unused ∧ code.runs ≠ .used := by
  cases code with
  | «at» b => cases b <;> simp [Code.runs, Point.runs]
  | _ => simp [Code.runs]

/-- A process that does not hold its own lock is running. -/
theorem Code.runs_of_not_holds (h : ¬ code.Holds p (.proc p)) : code.runs = .running := by
  cases code with
  | «at» b => cases b <;> simp_all [Code.Holds, Point.Holds, Code.runs, Point.runs]
  | _ => simp_all [Code.Holds, Code.runs]

theorem runs_acquire (h : code.op m p input = .acquire l k) :
    k.runs = code.runs ∧ k.forks = code.forks := by
  cases code with
  | «at» b =>
    cases input with
    | timer =>
      simp only [Code.op] at h
      split at h <;> cases h
    | go input fail =>
      cases b with
      | sleepReacquire r =>
        cases h
        cases r <;> exact ⟨rfl, rfl⟩
      | _ =>
        simp only [Code.op, pointOp, clientOp, goto] at h
        (repeat' split at h) <;> cases h <;> exact ⟨rfl, rfl⟩
  | yieldAcquire b =>
    cases h
    exact ⟨rfl, rfl⟩
  | _ => cases h

theorem runs_release (h : code.op m p input = .release l k) :
    k.runs = code.runs ∧ k.forks = code.forks := by
  cases code with
  | «at» b =>
    cases input with
    | timer =>
      simp only [Code.op] at h
      split at h <;> cases h
    | go input fail =>
      cases b with
      | _ =>
        simp only [Code.op, pointOp, clientOp, goto] at h
        (repeat' split at h) <;> cases h <;> exact ⟨rfl, rfl⟩
  | yieldRelease b =>
    cases h
    exact ⟨b.runs, rfl⟩
  | _ => cases h

/-- A thread calls `sched` with its own lock only, and goes on where it can be resumed. -/
theorem op_swtch (h : code.op m p input = .swtch k) :
    (code.Holds p l ↔ l = .proc p) ∧ k.Resumes ∧ k.forks = code.forks := by
  cases code with
  | «at» b =>
    cases input with
    | timer =>
      simp only [Code.op] at h
      split at h <;> cases h
    | go input fail =>
      cases b with
      | _ =>
        simp only [Code.op, pointOp, clientOp, goto] at h
        (repeat' split at h) <;> cases h <;> exact ⟨Iff.rfl, trivial, rfl⟩
  | yieldSched b =>
    cases h
    exact ⟨Iff.rfl, trivial, rfl⟩
  | _ => cases h

/-! ## Stores -/

@[simp]
theorem Memory.setProc_self (m : Memory K) (p : Fin NPROC) (v : Proc K) :
    (m.setProc p v).proc p = v :=
  Function.update_self ..

theorem Memory.setProc_of_ne (m : Memory K) (v : Proc K) (h : q ≠ p) :
    (m.setProc p v).proc q = m.proc q :=
  Function.update_of_ne h ..

theorem Memory.proc_setProc (m : Memory K) (p q : Fin NPROC) (v : Proc K) :
    (m.setProc p v).proc q = if q = p then v else m.proc q :=
  Function.update_apply ..

/-- What a thread that is at `code` can do to the entry `v` of another process `q`: it can change
the parent of a child, and, with the lock of the entry, wake the process, kill the one that has the
pid, allocate it, copy files to it while it is half made, free it when it is not in use, half made or
a zombie, and make it runnable in the end. -/
inductive Change (p q : Fin NPROC) (code : Code K) (v : Proc K) : Proc K → Prop where
  | same : Change p q code v v
  | parent (parent : Option (Fin NPROC)) (hchild : v.parent = some p ∨ code.forks = some q) :
      Change p q code v { v with parent := parent }
  | wake (hlock : code.Holds p (.proc q)) (hstate : v.state = .sleeping) :
      Change p q code v { v with state := .runnable }
  | kill (k : ℤ → K.Loc) (hcode : code = .at (.killTest v.pid q k)) :
      Change p q code v { v with
        killed := true
        state := if v.state = .sleeping then .runnable else v.state }
  | alloc (pid : Int32) (hlock : code.Holds p (.proc q)) (hstate : v.state = .unused) :
      Change p q code v { v with pid := pid, state := .used, trapframe := true, pagetable := true,
                                 code := .at .forkret, saved := true }
  | copy (own : Own) (hlock : code.Holds p (.proc q)) (hforks : code.forks = some q) :
      Change p q code v { v with own := own }
  | free (hlock : code.Holds p (.proc q))
      (hstate : v.state = .unused ∨ (∃ k, code = .at (.forkCopy q k)) ∨ v.state = .zombie) :
      Change p q code v { v with trapframe := false, pagetable := false,
                                 own := { v.own with sz := 0 }, pid := 0, parent := none,
                                 chan := none, killed := false, xstate := 0, state := .unused }
  | start (hlock : code.Holds p (.proc q)) (hforks : code.forks = some q) :
      Change p q code v { v with state := .runnable }

namespace Change

variable {r : Fin NPROC} {v : Proc K}

theorem of_ne (h : q ≠ r) : Change p q code (m.proc q) ((m.setProc r v).proc q) := by
  rw [Memory.setProc_of_ne _ _ h]
  exact .same

theorem set (h : Change p r code (m.proc r) v) :
    Change p q code (m.proc q) ((m.setProc r v).proc q) := by
  by_cases heq : q = r
  · subst heq
    rw [Memory.setProc_self]
    exact h
  · exact of_ne heq

/-- A failing `allocproc`. -/
theorem allocFail (hlock : code.Holds p (.proc r)) (hstate : (m.proc r).state = .unused) :
    Change p q code (m.proc q) (((m.allocpid r).freeproc r).proc q) := by
  have heq : ((m.allocpid r).freeproc r).proc q = ((m.freeproc r).proc q) := by
    by_cases hq : q = r <;> simp [Memory.allocpid, Memory.freeproc, Memory.proc_setProc, hq]
  rw [heq]
  exact set (.free hlock (.inl hstate))

theorem allocproc (hlock : code.Holds p (.proc r)) (hstate : (m.proc r).state = .unused) :
    Change p q code (m.proc q) (((m.allocpid r).setContext r).proc q) := by
  by_cases hq : q = r
  · subst hq
    simpa [Memory.allocpid, Memory.setContext] using Change.alloc m.nextpid hlock hstate
  · simpa [Memory.allocpid, Memory.setContext, Memory.proc_setProc, hq] using Change.same

/-- Another process only sets the code of a new process. -/
theorem code_eq {w : Proc K} (h : Change p q code v w) :
    w.code = v.code ∨ v.state = .unused ∧ w.code = .at .forkret := by
  cases h with
  | alloc pid hlock hstate => exact .inr ⟨hstate, rfl⟩
  | _ => exact .inl rfl

end Change

/-- What a store does to the entries of other processes. -/
theorem op_store_other (h : code.op m p input = .store m' k) (hq : q ≠ p) :
    Change p q code (m.proc q) (m'.proc q) := by
  cases code with
  | «at» b =>
    cases input with
    | timer =>
      simp only [Code.op] at h
      split at h
      · cases h
        exact .same
      · cases h
    | go input fail =>
      cases b with
      | wakeupTest ch r ret =>
        simp only [Code.op, pointOp, goto] at h
        split at h
        · rename_i hsleep
          cases h
          exact .set (.wake (.inl rfl) hsleep.1)
        · cases h
          exact .same
      | killTest pid r ret =>
        simp only [Code.op, pointOp, goto] at h
        split at h
        · rename_i hpid
          cases h
          exact .set (.kill ret (by rw [hpid]))
        · cases h
          exact .same
      | allocTest r ret =>
        simp only [Code.op, pointOp, goto] at h
        split at h
        · rename_i hunused
          split at h
          · cases h
            exact .allocFail rfl hunused
          · cases h
            exact .allocproc rfl hunused
        · cases h
          exact .same
      | forkCopy r ret =>
        simp only [Code.op, pointOp] at h
        split at h
        · cases h
          exact .set (.free rfl (.inr (.inl ⟨ret, rfl⟩)))
        · cases h
          exact .set (.copy _ rfl rfl)
      | forkParent r pid ret =>
        cases h
        exact .set (.parent _ (.inr rfl))
      | forkRunnable r pid ret =>
        cases h
        exact .set (.start rfl rfl)
      | reparent i status =>
        simp only [Code.op, pointOp, goto] at h
        (repeat' split at h) <;> cases h
        · rename_i hchild
          exact .set (.parent _ (.inl hchild))
        · exact .same
        · exact .same
      | waitTest addr r ret =>
        simp only [Code.op, pointOp, goto] at h
        split at h
        · rename_i hzombie
          split at h <;> cases h
          · exact .same
          · exact .set (.free (.inl rfl) (.inr (.inr hzombie)))
        · cases h
          exact .same
      | client loc held =>
        simp only [Code.op, pointOp, clientOp, goto] at h
        (repeat' split at h) <;> cases h <;> first | exact .same | exact .of_ne hq
      | sleepSet ch r =>
        cases h
        exact .of_ne hq
      | sleepTidy r =>
        cases h
        exact .of_ne hq
      | exitZombie status =>
        cases h
        exact .of_ne hq
      | _ =>
        simp only [Code.op, pointOp, goto] at h
        (repeat' split at h) <;> cases h <;> exact .same
  | yieldSet b =>
    cases h
    exact .of_ne hq
  | _ => cases h

/-- What a store does to the entry of the process itself. -/
theorem op_store_self (h : code.op m p input = .store m' k) (hstate : (m.proc p).state = code.runs)
    (hforks : ∀ q, code.forks = some q → (m.proc q).state = .used) :
    (m'.proc p).state = k.runs ∧ (m'.proc p).saved = (m.proc p).saved := by
  cases code with
  | «at» b =>
    cases input with
    | timer =>
      simp only [Code.op] at h
      split at h
      · rename_i hb
        cases h
        exact ⟨hstate.trans (Idle.runs ⟨b, hb⟩), rfl⟩
      · cases h
    | go input fail =>
      cases b with
      | wakeupLoop ch i r =>
        simp only [Code.op, pointOp, goto] at h
        (repeat' split at h) <;> cases h
        · exact ⟨hstate, rfl⟩
        · exact ⟨hstate.trans r.runs.symm, rfl⟩
      | forkCopy r ret =>
        have hused := hforks r rfl
        have hne : p ≠ r := by
          rintro rfl
          rw [hstate] at hused
          cases hused
        simp only [Code.op, pointOp] at h
        split at h <;> cases h
        · rw [Memory.freeproc, Memory.setProc_of_ne _ _ hne]
          exact ⟨hstate, rfl⟩
        · rw [Memory.copyOwn, Memory.setProc_of_ne _ _ hne]
          exact ⟨hstate, rfl⟩
      | forkRunnable r pid ret =>
        have hused := hforks r rfl
        cases h
        rw [Memory.setState, Memory.setProc_of_ne]
        · exact ⟨hstate, rfl⟩
        · rintro rfl
          rw [hstate] at hused
          cases hused
      | _ =>
        simp only [Code.op, pointOp, clientOp, goto] at h
        (repeat' split at h) <;> cases h <;>
          simp_all [Code.runs, Point.runs, Memory.setState, Memory.allocpid, Memory.freeproc,
            Memory.setContext, Memory.closeAll, Memory.setParent, Memory.setZombie, Memory.reap,
            Memory.refuse, Memory.proc_setProc] <;> grind
  | yieldSet b =>
    cases h
    rw [Memory.setState, Memory.setProc_self]
    exact ⟨rfl, rfl⟩
  | _ => cases h

/-- A store of a process that is making another one has just allocated that one, or leaves its state
alone. -/
theorem forks_store (h : code.op m p input = .store m' k) (hk : k.forks = some q) :
    (code.forks = some q ∧ (q ≠ p → (m'.proc q).state = (m.proc q).state)) ∨
      ((m.proc q).state = .unused ∧ (m'.proc q).state = .used) := by
  cases code with
  | «at» b =>
    cases input with
    | timer =>
      simp only [Code.op] at h
      split at h
      · cases h
        exact .inl ⟨hk, fun _ ↦ rfl⟩
      · cases h
    | go input fail =>
      cases b with
      | allocTest r ret =>
        simp only [Code.op, pointOp, goto] at h
        (repeat' split at h) <;> cases h
        · cases hk
        · rename_i hunused _
          cases hk
          simp [Memory.setContext, Memory.allocpid, hunused]
        · cases hk
      | forkCopy r ret =>
        simp only [Code.op, pointOp] at h
        split at h <;> cases h
        · cases hk
        · cases hk
          simp [Code.forks, Point.forks, Memory.copyOwn]
      | forkParent r pid ret =>
        cases h
        cases hk
        simp [Code.forks, Point.forks, Memory.setParent]
      | wakeupLoop ch i r =>
        simp only [Code.op, pointOp, goto] at h
        (repeat' split at h) <;> cases h
        · cases hk
        · cases r <;> cases hk
      | _ =>
        simp only [Code.op, pointOp, clientOp, goto] at h
        (repeat' split at h) <;> cases h <;> first | exact .inl ⟨hk, fun _ ↦ rfl⟩ | cases hk
  | yieldSet b =>
    cases h
    refine .inl ⟨hk, fun hq ↦ ?_⟩
    rw [Memory.setState, Memory.setProc_of_ne _ _ hq]
  | _ => cases h

end Xv6.Process
