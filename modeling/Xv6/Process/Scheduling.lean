import Xv6.Lib.Run
import Xv6.Process.Threads

/-!
# One CPU per Process

A spin lock is held by the CPU whose thread is at a point where it has it.  A process is run by at
most one CPU, and by none unless it was made runnable: the lock `p->lock` that the scheduler takes
before it looks at a process is released by the process, and taken by the process before it changes
its state and is released by the scheduler.
-/

namespace Xv6.Process

open Lib

variable {K : Client} {Cpu : Type} {s s' : State K Cpu} {c c' : Cpu}
  {p q : Fin NPROC} {input : Input K}

/-! ## The invariant -/

/-- The process that a CPU works on. -/
def Thread.proc : Thread → Option (Fin NPROC)
  | .exec p | .sched (.switch p) | .sched (.after p) => some p
  | .sched (.loop _) | .sched (.test _) | .sched (.unlock _) => none

def SchedCode.Holds (l : Lock K.Lk) : SchedCode → Prop
  | .loop _ => False
  | .test q | .switch q | .after q | .unlock q => l = .proc q

/-- A thread is at a point where it has a lock. -/
def Thread.Holds (m : Memory K) (l : Lock K.Lk) : Thread → Prop
  | .sched sc => sc.Holds l
  | .exec p => (m.proc p).code.Holds p l

/-- What the process of a thread is like. -/
def Thread.Ok (m : Memory K) : Thread → Prop
  | .exec p => (m.proc p).state = (m.proc p).code.runs ∧ (m.proc p).saved = false
  | .sched (.switch p) => (m.proc p).state = .running ∧ (m.proc p).saved = true
  | .sched (.after p) => (m.proc p).state ≠ .running ∧ (m.proc p).state ≠ .unused ∧
      (m.proc p).state ≠ .used ∧ (m.proc p).saved = true
  | .sched (.loop _) | .sched (.test _) | .sched (.unlock _) => True

/-- The invariant of scheduling. -/
structure Inv (s : State K Cpu) : Prop where
  lock : ∀ c l, s.lock l = some c ↔ (s.thread c).Holds s.mem l
  cproc : ∀ c, s.cproc c = (s.thread c).proc
  unique : ∀ c c' p, (s.thread c).proc = some p → (s.thread c').proc = some p → c = c'
  thread : ∀ c, (s.thread c).Ok s.mem
  idle : ∀ p, (∀ c, (s.thread c).proc ≠ some p) → (s.mem.proc p).state ≠ .running ∧
    ((s.mem.proc p).state ≠ .unused → (s.mem.proc p).saved = true)
  resume : ∀ p, (∀ c, s.thread c ≠ .exec p) → (s.mem.proc p).code.Resumes
  fork : ∀ p q, (s.mem.proc p).code.forks = some q → (s.mem.proc q).state = .used
  forkUnique : ∀ p p' q, (s.mem.proc p).code.forks = some q →
    (s.mem.proc p').code.forks = some q → p = p'

namespace Inv

theorem boot (data : K.Data) : Inv (boot K Cpu data) where
  lock c l := by simp [Process.boot, Thread.Holds, SchedCode.Holds]
  cproc c := rfl
  unique c c' p h := by cases h
  thread c := trivial
  idle p _ := by
    by_cases hp : p = initproc <;> simp [Process.boot, hp]
  resume p _ := by
    by_cases hp : p = initproc <;> simp [Process.boot, hp, Code.Resumes]
  fork p q h := by
    by_cases hp : p = initproc <;> simp [Process.boot, hp, Code.forks, Point.forks] at h
  forkUnique p p' q h := by
    by_cases hp : p = initproc <;> simp [Process.boot, hp, Code.forks, Point.forks] at h

/-- A lock is held by one CPU. -/
theorem holds_unique (h : Inv s) {l : Lock K.Lk} (hl : (s.thread c).Holds s.mem l)
    (hl' : (s.thread c').Holds s.mem l) : c = c' :=
  Option.some.inj (((h.lock c l).mpr hl).symm.trans ((h.lock c' l).mpr hl'))

/-- A CPU that works on a process is the only one. -/
theorem others (h : Inv s) (hp : (s.thread c).proc = some p) :
    ∀ c', c' ≠ c → (s.thread c').proc ≠ some p :=
  fun c' hne hc' ↦ hne (h.unique c' c p hc' hp)

/-- While a CPU holds the lock of a process, another CPU that works on the process is running it. -/
theorem exec_of_lock (h : Inv s) (hne : c' ≠ c) (hlock : (s.thread c).Holds s.mem (.proc q))
    (hproc : (s.thread c').proc = some q) :
    s.thread c' = .exec q ∧ (s.mem.proc q).state = .running := by
  have hnot : ¬ (s.thread c').Holds s.mem (.proc q) := fun hl ↦ hne (h.holds_unique hl hlock)
  have hok := h.thread c'
  cases hthread : s.thread c' with
  | exec p =>
    rw [hthread] at hproc hnot hok
    obtain rfl : p = q := Option.some.inj hproc
    exact ⟨rfl, hok.1.trans (Code.runs_of_not_holds hnot)⟩
  | sched sc =>
    rw [hthread] at hproc hnot
    cases sc with
    | switch p => exact absurd (congrArg _ (Option.some.inj hproc).symm) hnot
    | after p => exact absurd (congrArg _ (Option.some.inj hproc).symm) hnot
    | _ => cases hproc

/-- A process that does not run is not held by any CPU that works on it. -/
theorem idle_of_lock (h : Inv s) (hlock : (s.thread c).Holds s.mem (.proc q))
    (hc : (s.thread c).proc ≠ some q) (hstate : (s.mem.proc q).state ≠ .running) :
    ∀ c', (s.thread c').proc ≠ some q := by
  intro c' hc'
  by_cases heq : c' = c
  · exact hc (heq ▸ hc')
  · exact hstate (h.exec_of_lock heq hlock hc').2

end Inv

variable [DecidableEq Cpu]

/-! ## Steps -/

/-- The steps of CPU `c`. -/
inductive Steps (s : State K Cpu) (c : Cpu) : State K Cpu → Prop where
  | schedRestart {i : ℕ} (hthread : s.thread c = .sched (.loop i)) :
      Steps s c (s.setThread c (.sched (.loop 0)))
  | schedAcquire (q : Fin NPROC) (hthread : s.thread c = .sched (.loop q))
      (hlock : s.lock (.proc q) = none) :
      Steps s c (State.setThread { s with lock := Function.update s.lock (.proc q) (some c) } c
        (.sched (.test q)))
  | schedRun (q : Fin NPROC) (hthread : s.thread c = .sched (.test q))
      (hstate : (s.mem.proc q).state = .runnable) :
      Steps s c (((s.setMem (s.mem.setState q .running)).setCproc c (some q)).setThread c
        (.sched (.switch q)))
  | schedPass (q : Fin NPROC) (hthread : s.thread c = .sched (.test q)) :
      Steps s c (s.setThread c (.sched (.unlock q)))
  | schedSwitch (q : Fin NPROC) (hthread : s.thread c = .sched (.switch q)) :
      Steps s c ((s.setMem (s.mem.setProc q { s.mem.proc q with saved := false })).setThread c
        (.exec q))
  | schedAfter (q : Fin NPROC) (hthread : s.thread c = .sched (.after q)) :
      Steps s c ((s.setCproc c none).setThread c (.sched (.unlock q)))
  | schedUnlock (q : Fin NPROC) (hthread : s.thread c = .sched (.unlock q))
      (hlock : s.lock (.proc q) = some c) :
      Steps s c (State.setThread { s with lock := Function.update s.lock (.proc q) none } c
        (.sched (.loop (q + 1))))
  | acquire (p : Fin NPROC) (l : Lock K.Lk) (k : Code K) (input : Input K)
      (hthread : s.thread c = .exec p)
      (hop : (s.mem.proc p).code.op s.mem p input = .acquire l k) (hlock : s.lock l = none) :
      Steps s c { s with lock := Function.update s.lock l (some c), mem := s.mem.setCode p k }
  | release (p : Fin NPROC) (l : Lock K.Lk) (k : Code K) (input : Input K)
      (hthread : s.thread c = .exec p)
      (hop : (s.mem.proc p).code.op s.mem p input = .release l k) (hlock : s.lock l = some c) :
      Steps s c { s with lock := Function.update s.lock l none, mem := s.mem.setCode p k }
  | store (p : Fin NPROC) (m : Memory K) (k : Code K) (input : Input K)
      (hthread : s.thread c = .exec p) (hop : (s.mem.proc p).code.op s.mem p input = .store m k) :
      Steps s c (s.setMem (m.setCode p k))
  | swtch (p : Fin NPROC) (k : Code K) (input : Input K) (hthread : s.thread c = .exec p)
      (hop : (s.mem.proc p).code.op s.mem p input = .swtch k)
      (hstate : (s.mem.proc p).state ≠ .running) :
      Steps s c ((s.setMem (s.mem.setProc p { s.mem.proc p with code := k, saved := true })).setThread
        c (.sched (.after p)))

theorem acquire_ok {l : Lock K.Lk} (h : s.acquire c l = .ok s') :
    s.lock l = none ∧ s' = { s with lock := Function.update s.lock l (some c) } := by
  unfold State.acquire at h
  split at h
  · rename_i hlock
    exact ⟨hlock, (Except.ok.inj h).symm⟩
  · cases h

theorem release_ok {l : Lock K.Lk} (h : s.release c l = .ok s') :
    s.lock l = some c ∧ s' = { s with lock := Function.update s.lock l none } := by
  unfold State.release at h
  split at h
  · rename_i hlock
    exact ⟨hlock, (Except.ok.inj h).symm⟩
  · cases h

/-- The steps of the scheduler. -/
theorem schedStep_steps {sc : SchedCode} (hthread : s.thread c = .sched sc)
    (h : schedStep s c sc = .ok s') : Steps s c s' := by
  cases sc with
  | loop i =>
    dsimp only [schedStep] at h
    split at h
    · rename_i hi
      obtain ⟨t, hacquire, ht⟩ := bind_ok h
      obtain ⟨hlock, rfl⟩ := acquire_ok hacquire
      cases ht
      exact .schedAcquire ⟨i, hi⟩ hthread hlock
    · cases h
      exact .schedRestart hthread
  | test q =>
    dsimp only [schedStep] at h
    split at h
    · rename_i hstate
      cases h
      exact .schedRun q hthread hstate
    · cases h
      exact .schedPass q hthread
  | switch q =>
    cases h
    exact .schedSwitch q hthread
  | after q =>
    cases h
    exact .schedAfter q hthread
  | unlock q =>
    obtain ⟨t, hrelease, ht⟩ := bind_ok h
    obtain ⟨hlock, rfl⟩ := release_ok hrelease
    cases ht
    exact .schedUnlock q hthread hlock

/-- The steps of a process. -/
theorem execStep_steps (hthread : s.thread c = .exec p) (h : execStep s c p input = .ok s') :
    Steps s c s' := by
  unfold execStep at h
  split at h
  · rename_i l k hop
    obtain ⟨t, hacquire, ht⟩ := bind_ok h
    obtain ⟨hlock, rfl⟩ := acquire_ok hacquire
    cases ht
    exact .acquire p l k input hthread hop hlock
  · rename_i l k hop
    obtain ⟨t, hrelease, ht⟩ := bind_ok h
    obtain ⟨hlock, rfl⟩ := release_ok hrelease
    cases ht
    exact .release p l k input hthread hop hlock
  · rename_i m k hop
    cases h
    exact .store p m k input hthread hop
  · rename_i k hop
    unfold sched at h
    (repeat' split at h) <;> cases h
    exact .swtch p k input hthread hop ‹_›
  · cases h

theorem step_steps (h : step s (c, input) = .ok s') : Steps s c s' := by
  unfold step at h
  split at h
  · rename_i sc hthread
    exact schedStep_steps hthread h
  · rename_i p hthread
    exact execStep_steps hthread h

/-! ## Steps keep the invariant -/

theorem Memory.proc_setCode (m : Memory K) (p q : Fin NPROC) (k : Code K) :
    (m.setCode p k).proc q = if q = p then { m.proc p with code := k } else m.proc q :=
  Function.update_apply ..

theorem Thread.holds_congr {m m' : Memory K} {t : Thread} {l : Lock K.Lk}
    (h : ∀ p, t = .exec p → (m'.proc p).code = (m.proc p).code) : t.Holds m' l ↔ t.Holds m l := by
  cases t with
  | sched sc => rfl
  | exec p => rw [Thread.Holds, Thread.Holds, h p rfl]

theorem Thread.ok_congr {m m' : Memory K} {t : Thread}
    (h : ∀ p, t.proc = some p → (m'.proc p).state = (m.proc p).state ∧
      (m'.proc p).code = (m.proc p).code ∧ (m'.proc p).saved = (m.proc p).saved) :
    t.Ok m' ↔ t.Ok m := by
  cases t with
  | exec p => rw [Thread.Ok, Thread.Ok, (h p rfl).1, (h p rfl).2.1, (h p rfl).2.2]
  | sched sc =>
    cases sc with
    | switch p => rw [Thread.Ok, Thread.Ok, (h p rfl).1, (h p rfl).2.2]
    | after p => rw [Thread.Ok, Thread.Ok, (h p rfl).1, (h p rfl).2.2]
    | _ => rfl

section Lock

variable {l : Lock K.Lk} {lock : Lock K.Lk → Option Cpu} {thread : Cpu → Thread} {m : Memory K}

/-- The locks after a step that takes one. -/
theorem Inv.lock_acquire (h : Inv s) (hlock : s.lock l = none)
    (hothers : ∀ c' l', c' ≠ c → ((thread c').Holds m l' ↔ (s.thread c').Holds s.mem l'))
    (hself : ∀ l', (thread c).Holds m l' ↔ l' = l ∨ (s.thread c).Holds s.mem l') (c' : Cpu)
    (l' : Lock K.Lk) :
    Function.update s.lock l (some c) l' = some c' ↔ (thread c').Holds m l' := by
  by_cases hc : c' = c
  · subst hc
    rw [hself, ← h.lock]
    by_cases hl : l' = l
    · simp [hl]
    · rw [Function.update_of_ne hl]
      exact ⟨.inr, fun hor ↦ hor.resolve_left hl⟩
  · rw [hothers c' l' hc, ← h.lock]
    by_cases hl : l' = l
    · rw [hl, Function.update_self, hlock]
      exact iff_of_false (fun heq ↦ hc (Option.some.inj heq).symm) (by simp)
    · rw [Function.update_of_ne hl]

/-- The locks after a step that releases one. -/
theorem Inv.lock_release (h : Inv s) (hlock : s.lock l = some c)
    (hothers : ∀ c' l', c' ≠ c → ((thread c').Holds m l' ↔ (s.thread c').Holds s.mem l'))
    (hself : ∀ l', (thread c).Holds m l' ↔ l' ≠ l ∧ (s.thread c).Holds s.mem l') (c' : Cpu)
    (l' : Lock K.Lk) : Function.update s.lock l none l' = some c' ↔ (thread c').Holds m l' := by
  by_cases hc : c' = c
  · subst hc
    rw [hself, ← h.lock]
    by_cases hl : l' = l
    · simp [hl]
    · rw [Function.update_of_ne hl]
      exact (and_iff_right hl).symm
  · rw [hothers c' l' hc, ← h.lock]
    by_cases hl : l' = l
    · rw [hl, Function.update_self, hlock]
      exact iff_of_false (by simp) fun heq ↦ hc (Option.some.inj heq).symm
    · rw [Function.update_of_ne hl]

/-- The locks after a step that keeps them. -/
theorem Inv.lock_keep (h : Inv s)
    (hothers : ∀ c' l', c' ≠ c → ((thread c').Holds m l' ↔ (s.thread c').Holds s.mem l'))
    (hself : ∀ l', (thread c).Holds m l' ↔ (s.thread c).Holds s.mem l') (c' : Cpu)
    (l' : Lock K.Lk) : s.lock l' = some c' ↔ (thread c').Holds m l' := by
  rw [h.lock]
  by_cases hc : c' = c
  · subst hc
    exact (hself l').symm
  · exact (hothers c' l' hc).symm

end Lock

/-- The scheduler looks for a process: memory stays as it is. -/
theorem Inv.look (h : Inv s) {sc sc' : SchedCode} {lock : Lock K.Lk → Option Cpu}
    {cproc : Cpu → Option (Fin NPROC)} (hthread : s.thread c = .sched sc)
    (hsc : ∀ q, sc ≠ .switch q) (hproc : Thread.proc (.sched sc') = none)
    (hlock : ∀ c' l, lock l = some c' ↔
      (Function.update s.thread c (.sched sc') c').Holds s.mem l)
    (hcproc : cproc = Function.update s.cproc c none) :
    Inv { s with lock := lock, thread := Function.update s.thread c (.sched sc'),
                 cproc := cproc } where
  lock := hlock
  cproc c' := by
    by_cases hc : c' = c
    · subst hc
      simp [hcproc, hproc]
    · simp [hcproc, Function.update_of_ne hc, h.cproc]
  unique c₁ c₂ p h₁ h₂ := by
    have hold : ∀ c', (Function.update s.thread c (.sched sc') c').proc = some p →
        (s.thread c').proc = some p := by
      intro c' hc'
      by_cases hc : c' = c
      · rw [hc, Function.update_self, hproc] at hc'
        cases hc'
      · rwa [Function.update_of_ne hc] at hc'
    exact h.unique c₁ c₂ p (hold c₁ h₁) (hold c₂ h₂)
  thread c' := by
    by_cases hc : c' = c
    · subst hc
      simp only [Function.update_self]
      cases sc' with
      | switch q => cases hproc
      | after q => cases hproc
      | _ => trivial
    · simp only [Function.update_of_ne hc]
      exact h.thread c'
  idle p hp := by
    by_cases hc : (s.thread c).proc = some p
    · -- The scheduler has just put the process aside.
      have hok := h.thread c
      rw [hthread] at hc hok
      cases sc with
      | switch q => exact absurd rfl (hsc q)
      | after q =>
        obtain rfl : q = p := Option.some.inj hc
        exact ⟨hok.1, fun _ ↦ hok.2.2.2⟩
      | _ => cases hc
    · refine h.idle p fun c' hc' ↦ ?_
      by_cases heq : c' = c
      · exact hc (heq ▸ hc')
      · refine hp c' ?_
        simpa only [Function.update_of_ne heq] using hc'
  resume p hp := by
    refine h.resume p fun c' hc' ↦ ?_
    by_cases heq : c' = c
    · rw [heq, hthread] at hc'
      cases hc'
    · refine hp c' ?_
      simpa only [Function.update_of_ne heq] using hc'
  fork := h.fork
  forkUnique := h.forkUnique

/-- A step that changes the entry of one process, which no other CPU works on. -/
theorem Inv.local (h : Inv s) (p : Fin NPROC)
    (hthreads : ∀ c', c' ≠ c → s'.thread c' = s.thread c')
    (hbefore : ∀ q, (s.thread c).proc = some q → q = p)
    (hafter : ∀ q, (s'.thread c).proc = some q → q = p)
    (hothers : ∀ c', c' ≠ c → (s.thread c').proc ≠ some p)
    (hmem : ∀ q, q ≠ p → s'.mem.proc q = s.mem.proc q)
    (hlock : ∀ c' l, s'.lock l = some c' ↔ (s'.thread c').Holds s'.mem l)
    (hcproc : ∀ c', s'.cproc c' = if c' = c then (s'.thread c).proc else s.cproc c')
    (hok : (s'.thread c).Ok s'.mem)
    (hidle : (s'.thread c).proc ≠ some p → (s'.mem.proc p).state ≠ .running ∧
      ((s'.mem.proc p).state ≠ .unused → (s'.mem.proc p).saved = true))
    (hresume : s'.thread c ≠ .exec p → (s'.mem.proc p).code.Resumes)
    (hforks : (s'.mem.proc p).code.forks = (s.mem.proc p).code.forks)
    (hused : (s.mem.proc p).state = .used → (s'.mem.proc p).state = .used) : Inv s' := by
  -- Which CPU works on another process does not change.
  have hproc : ∀ q c', q ≠ p → ((s'.thread c').proc = some q ↔ (s.thread c').proc = some q) := by
    intro q c' hq
    by_cases hc : c' = c
    · subst hc
      exact iff_of_false (fun hp ↦ hq (hafter q hp)) fun hp ↦ hq (hbefore q hp)
    · rw [hthreads c' hc]
  have hforks' : ∀ q, (s'.mem.proc q).code.forks = (s.mem.proc q).code.forks := by
    intro q
    by_cases hq : q = p
    · rw [hq, hforks]
    · rw [hmem q hq]
  refine ⟨hlock, fun c' ↦ ?_, fun c₁ c₂ q h₁ h₂ ↦ ?_, fun c' ↦ ?_, fun q hq ↦ ?_, fun q hq ↦ ?_,
    fun r q hr ↦ ?_, fun r r' q hr hr' ↦ ?_⟩
  · rw [hcproc]
    split
    · rename_i hc
      rw [hc]
    · rename_i hc
      rw [hthreads c' hc, h.cproc]
  · by_cases hq : q = p
    · have hmine : ∀ c', (s'.thread c').proc = some q → c' = c := by
        intro c' hc'
        by_contra hne
        rw [hthreads c' hne, hq] at hc'
        exact hothers c' hne hc'
      rw [hmine c₁ h₁, hmine c₂ h₂]
    · exact h.unique c₁ c₂ q ((hproc q c₁ hq).mp h₁) ((hproc q c₂ hq).mp h₂)
  · by_cases hc : c' = c
    · subst hc
      exact hok
    · rw [hthreads c' hc]
      refine (Thread.ok_congr fun q hq ↦ ?_).mpr (h.thread c')
      have hne : q ≠ p := by
        rintro rfl
        exact hothers c' hc hq
      rw [hmem q hne]
      exact ⟨rfl, rfl, rfl⟩
  · by_cases hqp : q = p
    · subst hqp
      exact hidle (hq c)
    · rw [hmem q hqp]
      exact h.idle q fun c' hc' ↦ hq c' ((hproc q c' hqp).mpr hc')
  · by_cases hqp : q = p
    · subst hqp
      exact hresume (hq c)
    · rw [hmem q hqp]
      refine h.resume q fun c' hc' ↦ ?_
      by_cases hc : c' = c
      · subst hc
        exact hqp (hbefore q (by rw [hc', Thread.proc]))
      · exact hq c' ((hthreads c' hc).trans hc')
  · rw [hforks'] at hr
    have hstate := h.fork r q hr
    by_cases hq : q = p
    · subst hq
      exact hused hstate
    · rwa [hmem q hq]
  · rw [hforks'] at hr hr'
    exact h.forkUnique r r' q hr hr'

/-- Other CPUs are not affected by a change of one entry. -/
theorem Inv.holds_others {m : Memory K} {t : Thread}
    (hothers : ∀ c', c' ≠ c → (s.thread c').proc ≠ some p)
    (hmem : ∀ q, q ≠ p → m.proc q = s.mem.proc q) (c' : Cpu) (l : Lock K.Lk) (hc : c' ≠ c) :
    (Function.update s.thread c t c').Holds m l ↔ (s.thread c').Holds s.mem l := by
  rw [Function.update_of_ne hc]
  refine Thread.holds_congr fun q hq ↦ ?_
  rw [hmem q]
  rintro rfl
  exact hothers c' hc (by rw [hq, Thread.proc])

/-- The scheduler chooses a process. -/
theorem Inv.schedRun (h : Inv s) (hthread : s.thread c = .sched (.test q))
    (hstate : (s.mem.proc q).state = .runnable) :
    Inv (((s.setMem (s.mem.setState q .running)).setCproc c (some q)).setThread c
      (.sched (.switch q))) := by
  have hlock : (s.thread c).Holds s.mem (.proc q) := by
    rw [hthread]
    rfl
  have hnone : ∀ c', (s.thread c').proc ≠ some q := by
    refine h.idle_of_lock hlock ?_ (by simp [hstate])
    rw [hthread]
    simp [Thread.proc]
  have hothers : ∀ c', c' ≠ c → (s.thread c').proc ≠ some q := fun c' _ ↦ hnone c'
  have hmem : ∀ p, p ≠ q → (s.mem.setState q .running).proc p = s.mem.proc p :=
    fun p hp ↦ Memory.setProc_of_ne _ _ hp
  have hself : (s.mem.setState q .running).proc q = { s.mem.proc q with state := .running } :=
    Memory.setProc_self ..
  refine h.local (c := c) q (fun c' hc ↦ Function.update_of_ne hc ..) ?_ ?_ hothers hmem
    (h.lock_keep (Inv.holds_others hothers hmem) ?_) (fun c' ↦ ?_) ?_ ?_ ?_ ?_ ?_
  · simp [hthread, Thread.proc]
  · simp [State.setThread, Thread.proc]
  · intro l
    rw [hthread]
    simp [State.setThread, Thread.Holds, SchedCode.Holds]
  · simp [State.setThread, State.setCproc, State.setMem, Thread.proc, Function.update_apply]
  · simp only [State.setThread, State.setCproc, State.setMem, Function.update_self, Thread.Ok, hself]
    exact ⟨trivial, (h.idle q hnone).2 (by simp [hstate])⟩
  · simp [State.setThread, Thread.proc]
  · intro _
    simp only [State.setThread, State.setCproc, State.setMem, hself]
    exact h.resume q fun c' hc' ↦ hnone c' (by rw [hc', Thread.proc])
  · simp [State.setThread, State.setCproc, State.setMem, hself]
  · simp [hstate]

/-- `swtch` to the process. -/
theorem Inv.schedSwitch (h : Inv s) (hthread : s.thread c = .sched (.switch q)) :
    Inv ((s.setMem (s.mem.setProc q { s.mem.proc q with saved := false })).setThread c
      (.exec q)) := by
  have hproc : (s.thread c).proc = some q := by rw [hthread, Thread.proc]
  have hothers := h.others hproc
  have hmem : ∀ p, p ≠ q →
      (s.mem.setProc q { s.mem.proc q with saved := false }).proc p = s.mem.proc p :=
    fun p hp ↦ Memory.setProc_of_ne _ _ hp
  have hself : (s.mem.setProc q { s.mem.proc q with saved := false }).proc q =
      { s.mem.proc q with saved := false } := Memory.setProc_self ..
  have hresumes : (s.mem.proc q).code.Resumes := by
    refine h.resume q fun c' hc' ↦ ?_
    have heq := h.unique c' c q (by rw [hc', Thread.proc]) hproc
    rw [heq, hthread] at hc'
    cases hc'
  have hok := h.thread c
  rw [hthread] at hok
  refine h.local (c := c) q (fun c' hc ↦ Function.update_of_ne hc ..) ?_ ?_ hothers hmem
    (h.lock_keep (Inv.holds_others hothers hmem) ?_) (fun c' ↦ ?_) ?_ ?_ ?_ ?_ ?_
  · simp [hthread, Thread.proc]
  · simp [State.setThread, Thread.proc]
  · intro l
    rw [hthread]
    simp only [State.setThread, State.setMem, Function.update_self, Thread.Holds, SchedCode.Holds, hself]
    exact hresumes.holds
  · by_cases hc : c' = c
    · simp [State.setThread, State.setMem, hc, Thread.proc, h.cproc, hthread]
    · simp [State.setThread, State.setMem, hc]
  · simp only [State.setThread, State.setMem, Function.update_self, Thread.Ok, hself, hresumes.runs]
    exact ⟨hok.1, trivial⟩
  · simp [State.setThread, Thread.proc]
  · simp [State.setThread]
  · simp [State.setThread, State.setMem]
  · simp [State.setThread, State.setMem]

/-- A process calls `sched`. -/
theorem Inv.swtch (h : Inv s) {k : Code K} (hthread : s.thread c = .exec p)
    (hop : (s.mem.proc p).code.op s.mem p input = .swtch k)
    (hstate : (s.mem.proc p).state ≠ .running) :
    Inv ((s.setMem (s.mem.setProc p { s.mem.proc p with code := k, saved := true })).setThread c
      (.sched (.after p))) := by
  have hothers := h.others (p := p) (by rw [hthread, Thread.proc])
  have hmem : ∀ q, q ≠ p →
      (s.mem.setProc p { s.mem.proc p with code := k, saved := true }).proc q = s.mem.proc q :=
    fun q hq ↦ Memory.setProc_of_ne _ _ hq
  have hself : (s.mem.setProc p { s.mem.proc p with code := k, saved := true }).proc p =
      { s.mem.proc p with code := k, saved := true } := Memory.setProc_self ..
  have hok := h.thread c
  rw [hthread] at hok
  have hruns := (s.mem.proc p).code.runs_ne
  refine h.local (c := c) p (fun c' hc ↦ Function.update_of_ne hc ..) ?_ ?_ hothers hmem
    (h.lock_keep (Inv.holds_others hothers hmem) ?_) (fun c' ↦ ?_) ?_ ?_ ?_ ?_ ?_
  · simp [hthread, Thread.proc]
  · simp [State.setThread, Thread.proc]
  · intro l
    rw [hthread]
    simp only [State.setThread, State.setMem, Function.update_self, Thread.Holds, SchedCode.Holds]
    exact (op_swtch hop).1.symm
  · by_cases hc : c' = c
    · simp [State.setThread, State.setMem, hc, Thread.proc, h.cproc, hthread]
    · simp [State.setThread, State.setMem, hc]
  · simp only [State.setThread, State.setMem, Function.update_self, Thread.Ok, hself]
    rw [hok.1] at hstate ⊢
    exact ⟨hstate, hruns.1, hruns.2, trivial⟩
  · simp [State.setThread, Thread.proc]
  · intro _
    simp only [State.setThread, State.setMem, hself]
    exact (op_swtch (l := .proc p) hop).2.1
  · simp only [State.setThread, State.setMem, hself]
    exact (op_swtch (l := .proc p) hop).2.2
  · simp [State.setThread, State.setMem]

/-- A process goes on, with a change of the locks. -/
theorem Inv.setCode (h : Inv s) {k : Code K} {lock : Lock K.Lk → Option Cpu}
    (hthread : s.thread c = .exec p)
    (hsame : k.runs = (s.mem.proc p).code.runs ∧ k.forks = (s.mem.proc p).code.forks)
    (hlock : ∀ c' l, lock l = some c' ↔ (s.thread c').Holds (s.mem.setCode p k) l) :
    Inv { s with lock := lock, mem := s.mem.setCode p k } := by
  have hothers := h.others (p := p) (by rw [hthread, Thread.proc])
  have hself : (s.mem.setCode p k).proc p = { s.mem.proc p with code := k } :=
    Memory.setProc_self ..
  have hok := h.thread c
  rw [hthread] at hok
  refine h.local (c := c) p (fun _ _ ↦ rfl) ?_ ?_ hothers (fun q hq ↦ Memory.setProc_of_ne _ _ hq)
    hlock (fun c' ↦ ?_) ?_ ?_ ?_ ?_ ?_
  · simp [hthread, Thread.proc]
  · simp [hthread, Thread.proc]
  · by_cases hc : c' = c
    · simp [hc, h.cproc]
    · simp [hc]
  · simp only [hthread, Thread.Ok, hself, hsame.1]
    exact hok
  · simp [hthread, Thread.proc]
  · simp [hthread]
  · simp only [hself, hsame.2]
  · simp [hself]

omit [DecidableEq Cpu] in
/-- The locks of the other CPUs when a process goes on. -/
theorem Inv.holds_setCode (h : Inv s) (hthread : s.thread c = .exec p) (k : Code K) (c' : Cpu)
    (l : Lock K.Lk) (hc : c' ≠ c) :
    (s.thread c').Holds (s.mem.setCode p k) l ↔ (s.thread c').Holds s.mem l := by
  refine Thread.holds_congr fun q hq ↦ ?_
  rw [Memory.setCode, Memory.setProc_of_ne]
  rintro rfl
  exact hc (h.unique c' c q (by rw [hq, Thread.proc]) (by rw [hthread, Thread.proc]))

omit [DecidableEq Cpu] in
/-- The locks of the process itself. -/
theorem holds_setCode_self (hthread : s.thread c = .exec p) (k : Code K) (l : Lock K.Lk) :
    (s.thread c).Holds (s.mem.setCode p k) l ↔ k.Holds p l := by
  rw [hthread, Thread.Holds, Memory.setCode, Memory.setProc_self]

omit [DecidableEq Cpu] in
theorem Inv.state_of_exec (h : Inv s) (hthread : s.thread c = .exec p) :
    (s.mem.proc p).state = (s.mem.proc p).code.runs ∧ (s.mem.proc p).saved = false := by
  have hok := h.thread c
  rwa [hthread] at hok

omit [DecidableEq Cpu] in
/-- A process does not change the state of a process that another CPU works on. -/
theorem Inv.protected (h : Inv s) (hthread : s.thread c = .exec p) {v : Proc K}
    (hchange : Change p q (s.mem.proc p).code (s.mem.proc q) v) (hne : c' ≠ c)
    (hproc : (s.thread c').proc = some q) :
    v.state = (s.mem.proc q).state ∧ v.code = (s.mem.proc q).code ∧
      v.saved = (s.mem.proc q).saved := by
  have hrunning : (s.mem.proc p).code.Holds p (.proc q) → (s.mem.proc q).state = .running := by
    intro hlock
    refine (h.exec_of_lock hne ?_ hproc).2
    rwa [hthread]
  cases hchange with
  | same => exact ⟨rfl, rfl, rfl⟩
  | parent parent hchild => exact ⟨rfl, rfl, rfl⟩
  | wake hlock hstate =>
    rw [hrunning hlock] at hstate
    cases hstate
  | kill k hcode =>
    have hlock : (s.mem.proc p).code.Holds p (.proc q) := by
      rw [hcode]
      rfl
    exact ⟨by simp [hrunning hlock], rfl, rfl⟩
  | alloc pid hlock hstate =>
    rw [hrunning hlock] at hstate
    cases hstate
  | copy own hlock hforks => exact ⟨rfl, rfl, rfl⟩
  | free hlock hstate =>
    rw [hrunning hlock] at hstate
    rcases hstate with hstate | ⟨k, hcode⟩ | hstate
    · cases hstate
    · have hused := h.fork p q (congrArg Code.forks hcode)
      rw [hrunning hlock] at hused
      cases hused
    · cases hstate
  | start hlock hforks =>
    have hused := h.fork p q hforks
    rw [hrunning hlock] at hused
    cases hused

omit [DecidableEq Cpu] in
/-- A process that is being made stays as it is when another process than its creator stores. -/
theorem Inv.used_of_change (h : Inv s) {r : Fin NPROC} {v : Proc K}
    (hchange : Change p q (s.mem.proc p).code (s.mem.proc q) v)
    (hr : (s.mem.proc r).code.forks = some q) (hne : r ≠ p) : v.state = .used := by
  have hused := h.fork r q hr
  have hnot : (s.mem.proc p).code.forks ≠ some q := fun hp ↦ hne (h.forkUnique r p q hr hp)
  cases hchange with
  | same => exact hused
  | parent parent hchild => exact hused
  | wake hlock hstate =>
    rw [hused] at hstate
    cases hstate
  | kill k hcode => simp [hused]
  | alloc pid hlock hstate => rfl
  | copy own hlock hforks => exact hused
  | free hlock hstate =>
    rw [hused] at hstate
    rcases hstate with hstate | ⟨k, hcode⟩ | hstate
    · cases hstate
    · exact absurd (congrArg Code.forks hcode) hnot
    · cases hstate
  | start hlock hforks => exact absurd hforks hnot

/-- A store of a process. -/
theorem Inv.store (h : Inv s) {m : Memory K} {k : Code K} (hthread : s.thread c = .exec p)
    (hop : (s.mem.proc p).code.op s.mem p input = .store m k) : Inv (s.setMem (m.setCode p k)) := by
  obtain ⟨hstate, hsaved⟩ := h.state_of_exec hthread
  obtain ⟨hstate', hsaved'⟩ := op_store_self hop hstate fun q ↦ h.fork p q
  have hp : (s.thread c).proc = some p := by rw [hthread, Thread.proc]
  have hself : (m.setCode p k).proc p = { m.proc p with code := k } := Memory.setProc_self ..
  have hother : ∀ q, q ≠ p → (m.setCode p k).proc q = m.proc q :=
    fun q hq ↦ Memory.setProc_of_ne _ _ hq
  have hchange : ∀ q, q ≠ p →
      Change p q (s.mem.proc p).code (s.mem.proc q) ((m.setCode p k).proc q) := by
    intro q hq
    rw [hother q hq]
    exact op_store_other hop hq
  have hkept : ∀ c' q, c' ≠ c → (s.thread c').proc = some q →
      ((m.setCode p k).proc q).state = (s.mem.proc q).state ∧
      ((m.setCode p k).proc q).code = (s.mem.proc q).code ∧
      ((m.setCode p k).proc q).saved = (s.mem.proc q).saved := by
    intro c' q hc hq
    exact h.protected hthread (hchange q fun heq ↦ h.others hp c' hc (heq ▸ hq)) hc hq
  have hnotUsed : (s.mem.proc p).state ≠ .used := by
    rw [hstate]
    exact (Code.runs_ne _).2
  -- What another process is making is not made by this one.
  have hforks : ∀ r q, r ≠ p → ((m.setCode p k).proc r).code.forks = some q →
      (s.mem.proc r).code.forks = some q := by
    intro r q hr hrq
    rcases (hchange r hr).code_eq with hcode | ⟨-, hcode⟩
    · rwa [hcode] at hrq
    · rw [hcode] at hrq
      cases hrq
  have hforkp : ∀ q, k.forks = some q → ((m.setCode p k).proc q).state = .used ∧
      ∀ r, r ≠ p → (s.mem.proc r).code.forks ≠ some q := by
    intro q hq
    rcases forks_store hop hq with ⟨hcode, hkeep⟩ | ⟨hunused, hused⟩
    · have hne : q ≠ p := fun heq ↦ hnotUsed (heq ▸ h.fork p q hcode)
      rw [hother q hne, hkeep hne]
      exact ⟨h.fork p q hcode, fun r hr hrq ↦ hr (h.forkUnique r p q hrq hcode)⟩
    · have hne : q ≠ p := by
        rintro rfl
        rw [hstate] at hunused
        exact (Code.runs_ne _).1 hunused
      rw [hother q hne]
      refine ⟨hused, fun r _ hrq ↦ ?_⟩
      rw [h.fork r q hrq] at hunused
      cases hunused
  have hlocks : ∀ c' l, c' ≠ c →
      ((s.thread c').Holds (m.setCode p k) l ↔ (s.thread c').Holds s.mem l) :=
    fun c' l hc ↦ Thread.holds_congr fun q hq ↦ (hkept c' q hc (by rw [hq, Thread.proc])).2.1
  refine ⟨h.lock_keep hlocks ?_, h.cproc, h.unique, fun c' ↦ ?_, fun q hq ↦ ?_, fun q hq ↦ ?_,
    fun r q hrq ↦ ?_, fun r r' q hrq hrq' ↦ ?_⟩
  · intro l
    simp only [State.setMem, hthread, Thread.Holds, hself]
    exact holds_store hop
  · by_cases hc : c' = c
    · subst hc
      simp only [State.setMem, hthread, Thread.Ok, hself]
      exact ⟨hstate', hsaved'.trans hsaved⟩
    · exact (Thread.ok_congr fun q hq ↦ hkept c' q hc hq).mpr (h.thread c')
  · have hne : q ≠ p := fun heq ↦ hq c (heq ▸ hp)
    obtain ⟨hrun, hsave⟩ := h.idle q hq
    have hcq := hchange q hne
    revert hcq
    simp only [State.setMem]
    generalize (m.setCode p k).proc q = v
    intro hcq
    cases hcq with
    | same => exact ⟨hrun, hsave⟩
    | parent parent hchild => exact ⟨hrun, hsave⟩
    | wake hlock hstate => exact ⟨by simp, fun _ ↦ hsave (by simp [hstate])⟩
    | kill k hcode =>
      dsimp only
      split
      · rename_i hsleep
        exact ⟨by simp, fun _ ↦ hsave (by simp [hsleep])⟩
      · exact ⟨hrun, hsave⟩
    | alloc pid hlock hstate => exact ⟨by simp, fun _ ↦ rfl⟩
    | copy own hlock hforks => exact ⟨hrun, hsave⟩
    | free hlock hstate => exact ⟨by simp, by simp⟩
    | start hlock hforks => exact ⟨by simp, fun _ ↦ hsave (by simp [h.fork p q hforks])⟩
  · have hne : q ≠ p := fun heq ↦ hq c (heq ▸ hthread)
    simp only [State.setMem]
    rcases (hchange q hne).code_eq with hcode | ⟨-, hcode⟩
    · rw [hcode]
      exact h.resume q hq
    · rw [hcode]
      trivial
  · by_cases hr : r = p
    · subst hr
      simp only [State.setMem, hself] at hrq
      exact (hforkp q hrq).1
    · have hold := hforks r q hr hrq
      have hne : q ≠ p := fun heq ↦ hnotUsed (heq ▸ h.fork r q hold)
      exact h.used_of_change (hchange q hne) hold hr
  · by_cases hr : r = p <;> by_cases hr' : r' = p
    · rw [hr, hr']
    · subst hr
      simp only [State.setMem, hself] at hrq
      exact absurd (hforks r' q hr' hrq') ((hforkp q hrq).2 r' hr')
    · subst hr'
      simp only [State.setMem, hself] at hrq'
      exact absurd (hforks r q hr hrq) ((hforkp q hrq').2 r hr)
    · exact h.forkUnique r r' q (hforks r q hr hrq) (hforks r' q hr' hrq')

/-- Every step keeps the invariant. -/
theorem Inv.step (h : Inv s) (hstep : Steps s c s') : Inv s' := by
  have hcproc : ∀ {sc}, s.thread c = .sched sc → Thread.proc (.sched sc) = none →
      s.cproc = Function.update s.cproc c none := by
    intro sc hthread hproc
    rw [← hproc, ← hthread, ← h.cproc, Function.update_eq_self]
  have hothers : ∀ {t : Thread} (c' l), c' ≠ c →
      ((Function.update s.thread c t c').Holds s.mem l ↔ (s.thread c').Holds s.mem l) := by
    intro t c' l hc
    rw [Function.update_of_ne hc]
  cases hstep with
  | schedRestart hthread =>
    refine h.look hthread (by simp) rfl (h.lock_keep hothers fun l ↦ ?_) (hcproc hthread rfl)
    simp [hthread, Thread.Holds, SchedCode.Holds]
  | schedAcquire q hthread hlock =>
    refine h.look hthread (by simp) rfl (h.lock_acquire hlock hothers fun l ↦ ?_)
      (hcproc hthread rfl)
    simp [hthread, Thread.Holds, SchedCode.Holds]
  | schedRun q hthread hstate => exact h.schedRun hthread hstate
  | schedPass q hthread =>
    refine h.look hthread (by simp) rfl (h.lock_keep hothers fun l ↦ ?_) (hcproc hthread rfl)
    simp [hthread, Thread.Holds, SchedCode.Holds]
  | schedSwitch q hthread => exact h.schedSwitch hthread
  | schedAfter q hthread =>
    refine h.look hthread (by simp) rfl (h.lock_keep hothers fun l ↦ ?_) rfl
    simp [hthread, Thread.Holds, SchedCode.Holds]
  | schedUnlock q hthread hlock =>
    refine h.look hthread (by simp) rfl (h.lock_release hlock hothers fun l ↦ ?_)
      (hcproc hthread rfl)
    simp [hthread, Thread.Holds, SchedCode.Holds]
  | acquire p l k input hthread hop hlock =>
    refine h.setCode hthread (runs_acquire hop) (h.lock_acquire hlock
      (h.holds_setCode hthread k) fun l' ↦ ?_)
    rw [holds_setCode_self hthread, holds_acquire hop, hthread, Thread.Holds]
  | release p l k input hthread hop hlock =>
    refine h.setCode hthread (runs_release hop) (h.lock_release hlock
      (h.holds_setCode hthread k) fun l' ↦ ?_)
    rw [holds_setCode_self hthread, holds_release hop, hthread, Thread.Holds]
  | store p m k input hthread hop => exact h.store hthread hop
  | swtch p k input hthread hop hstate => exact h.swtch hthread hop hstate

/-- The invariant holds in every run. -/
theorem Inv.of_run {data : K.Data} {actions : List (Cpu × Input K)}
    (hrun : run Process.step (Process.boot K Cpu data) actions = .ok s) : Inv s :=
  run_induction Process.step (P := fun _ s ↦ Inv s) (Inv.boot data)
    (fun _ _ _ _ _ h hstep ↦ h.step (step_steps hstep)) hrun

/-! ## One CPU per process -/

/-- A process that a CPU runs is still run by it after a step, or has called `sched`. -/
theorem Steps.exec_after (h : Steps s c s') (hexec : s.thread c' = .exec q) :
    s'.thread c' = .exec q ∨ s'.thread c' = .sched (.after q) := by
  cases h with
  | swtch p k input hthread hop hstate =>
    by_cases hc : c' = c
    · rw [hc, hthread] at hexec
      obtain rfl := Thread.exec.inj hexec
      exact .inr (by simp [State.setThread, State.setMem, hc])
    · exact .inl (by simp [State.setThread, State.setMem, Function.update_of_ne hc, hexec])
  | acquire => exact .inl hexec
  | release => exact .inl hexec
  | store => exact .inl hexec
  | _ hthread =>
    have hc : c' ≠ c := by
      rintro rfl
      simp_all
    exact .inl (by simp [State.setThread, State.setMem, State.setCproc,
      Function.update_of_ne hc, hexec])

/-- An entry that is free after a step was not being run before it. -/
theorem Inv.not_exec_of_unused (h : Inv s) (hstep : Steps s c s')
    (hunused : (s'.mem.proc q).state = .unused) (c' : Cpu) : s.thread c' ≠ .exec q := by
  intro hexec
  have hok := (h.step hstep).thread c'
  rcases hstep.exec_after hexec with hthread | hthread
  · rw [hthread] at hok
    exact (Code.runs_ne _).1 (hok.1.symm.trans hunused)
  · rw [hthread] at hok
    exact hok.2.1 hunused

/-- A process is run by, or is `c->proc` of, at most one CPU.  A process that runs without its own
lock is in state `RUNNING`.  A process that a scheduler chooses has a complete saved context, still
when the scheduler switches to it.  And no step frees the entry of a process that is being run. -/
theorem one_cpu_per_process {data : K.Data} {actions : List (Cpu × Input K)}
    (hrun : run step (boot K Cpu data) actions = .ok s) :
    (∀ p c c', (s.thread c = .exec p ∨ s.cproc c = some p) →
      (s.thread c' = .exec p ∨ s.cproc c' = some p) → c = c') ∧
    (∀ p c, s.thread c = .exec p → s.lock (.proc p) ≠ some c →
      (s.mem.proc p).state = .running) ∧
    (∀ p c, (s.thread c = .sched (.test p) ∧ (s.mem.proc p).state = .runnable ∨
      s.thread c = .sched (.switch p)) → (s.mem.proc p).saved = true) ∧
    ∀ p action s', step s action = .ok s' → (s'.mem.proc p).state = .unused →
      ∀ c, s.thread c ≠ .exec p := by
  have h : Inv s := .of_run hrun
  refine ⟨fun p c c' hc hc' ↦ ?_, fun p c hthread hlock ↦ ?_, fun p c hc ↦ ?_,
    fun p action s' hstep hunused c ↦ h.not_exec_of_unused (step_steps hstep) hunused c⟩
  · have hworks : ∀ c, (s.thread c = .exec p ∨ s.cproc c = some p) → (s.thread c).proc = some p := by
      rintro c (hc | hc)
      · rw [hc, Thread.proc]
      · rw [← h.cproc, hc]
    exact h.unique c c' p (hworks c hc) (hworks c' hc')
  · rw [(h.state_of_exec hthread).1]
    apply Code.runs_of_not_holds
    rw [Ne, h.lock, hthread] at hlock
    exact hlock
  · rcases hc with ⟨hthread, hstate⟩ | hthread
    · have hlock : (s.thread c).Holds s.mem (.proc p) := by
        rw [hthread]
        rfl
      have hnone := h.idle_of_lock hlock (by simp [hthread, Thread.proc]) (by simp [hstate])
      exact (h.idle p hnone).2 (by simp [hstate])
    · have hok := h.thread c
      rw [hthread] at hok
      exact hok.2

/-- The first process runs on one CPU and forks, and the new process runs on another. -/
theorem one_cpu_per_process_fork : ∃ s, run step (boot (.any Unit Unit Unit) (Fin 2) ())
      (List.replicate 4 (0, .go (.store () ()) false) ++ [(0, .go (.fork fun _ ↦ ()) false)] ++
        List.replicate 13 (0, .go (.store () ()) false) ++
        List.replicate 6 (1, .go (.store () ()) false)) = .ok s ∧
    s.thread 0 = .exec 0 ∧ s.thread 1 = .exec 1 ∧ ∀ p c c',
      (s.thread c = .exec p ∨ s.cproc c = some p) →
      (s.thread c' = .exec p ∨ s.cproc c' = some p) → c = c' := by
  have hyields : yields (run step (boot (.any Unit Unit Unit) (Fin 2) ())
      (List.replicate 4 (0, .go (.store () ()) false) ++ [(0, .go (.fork fun _ ↦ ()) false)] ++
      List.replicate 13 (0, .go (.store () ()) false) ++
      List.replicate 6 (1, .go (.store () ()) false)))
      (fun s ↦ s.thread 0 = .exec 0 ∧ s.thread 1 = .exec 1) = true := by decide +kernel
  obtain ⟨s, hrun, h₀, h₁⟩ := exists_of_yields hyields
  exact ⟨s, hrun, h₀, h₁, (one_cpu_per_process hrun).1⟩

end Xv6.Process
