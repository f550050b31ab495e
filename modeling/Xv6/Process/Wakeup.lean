import Xv6.Process.Scheduling

/-!
# Sleep and Wakeup

A process that finds a condition false while it holds a lock, and then calls `sleep` with that lock,
is not left asleep when the condition becomes true: whoever makes it true holds the lock and calls
`wakeup` before it releases the lock.  The process is not missed between the release of the lock and
the store of `SLEEPING`, because it holds its own lock there and `wakeup` takes it.

The argument is the rule `NoLost.step`, which the rest of the development uses for the conditions of
`wait` and of pipes.
-/

namespace Xv6.Process

open Lib

variable {K : Client} {Cpu : Type} {s s' : State K Cpu} {c c' : Cpu} {m : Memory K}
  {p q : Fin NPROC} {input : Input K} {code : Code K} {ch : Chan K.Ch} {lk : CondLock K.Lk}

/-! ## What one step changes -/

/-- Where a thread goes on. -/
def Op.next : Op K → Option (Code K)
  | .acquire _ k | .release _ k | .store _ k | .swtch k => some k
  | .stop _ => none

/-- The only point that comes before a point of `sleep`. -/
def Point.prior : Point K → Option (Point K)
  | .sleepRelease ch r => some (.sleepAcquire ch r)
  | .sleepSet ch r => some (.sleepRelease ch r)
  | .sleepSched ch r => some (.sleepSet ch r)
  | _ => none

theorem Idle.prior (b : Idle K) : b.point.prior = none := by
  obtain ⟨b, hb⟩ := b
  change b.prior = _
  cases b <;> first | rfl | cases hb

theorem next_prior {b b' : Point K} (h : (code.op m p input).next = some (.at b'))
    (hb : b'.prior = some b) : code = .at b := by
  cases code with
  | «at» b₀ =>
    cases input with
    | timer =>
      simp only [Code.op] at h
      split at h <;> cases h
    | go input fail =>
      cases b₀ with
      | sleepReacquire r => cases r <;> cases h <;> cases hb
      | wakeupLoop ch i r =>
        simp only [Code.op, pointOp, goto] at h
        (repeat' split at h) <;> cases h
        · cases hb
        · cases hb
        · cases r <;> cases hb
      | _ =>
        simp only [Code.op, pointOp, clientOp, goto] at h
        (repeat' split at h) <;> cases h <;> cases hb <;> rfl
  | yieldRelease b₀ =>
    cases h
    rw [b₀.prior] at hb
    cases hb
  | _ => cases h

section Frame

variable [DecidableEq Cpu]

theorem Steps.thread_other (h : Steps s c s') (hc : c' ≠ c) : s'.thread c' = s.thread c' := by
  cases h <;> simp [State.setThread, State.setMem, State.setCproc, Function.update_of_ne hc]

theorem Steps.lock_other (h : Steps s c s') (hc : c' ≠ c) {l : Lock K.Lk}
    (hlock : s.lock l = some c') : s'.lock l = some c' := by
  cases h with
  | schedAcquire q hthread hfree =>
    have hl : l ≠ .proc q := by
      rintro rfl
      simp_all
    simpa [State.setThread, Function.update_of_ne hl] using hlock
  | schedUnlock q hthread hheld =>
    have hl : l ≠ .proc q := by
      rintro rfl
      simp_all
    simpa [State.setThread, Function.update_of_ne hl] using hlock
  | acquire p l' k input hthread hop hfree =>
    have hl : l ≠ l' := by
      rintro rfl
      simp_all
    simpa [Function.update_of_ne hl] using hlock
  | release p l' k input hthread hop hheld =>
    have hl : l ≠ l' := by
      rintro rfl
      simp_all
    simpa [Function.update_of_ne hl] using hlock
  | _ => exact hlock

/-- The code of a process changes when it makes a step, and when it is allocated. -/
theorem Steps.code_other (h : Steps s c s') (hq : s.thread c ≠ .exec q) :
    (s'.mem.proc q).code = (s.mem.proc q).code ∨
      (s.mem.proc q).state = .unused ∧ (s'.mem.proc q).code = .at .forkret := by
  cases h with
  | schedRun r hthread hstate =>
    left
    by_cases hr : q = r <;>
      simp [State.setThread, State.setMem, State.setCproc, Memory.setState, Memory.proc_setProc, hr]
  | schedSwitch r hthread =>
    left
    by_cases hr : q = r <;> simp [State.setThread, State.setMem, Memory.proc_setProc, hr]
  | acquire p l k input hthread hop hlock =>
    have hne : q ≠ p := fun heq ↦ hq (heq ▸ hthread)
    exact .inl (by rw [Memory.setCode, Memory.setProc_of_ne _ _ hne])
  | release p l k input hthread hop hlock =>
    have hne : q ≠ p := fun heq ↦ hq (heq ▸ hthread)
    exact .inl (by rw [Memory.setCode, Memory.setProc_of_ne _ _ hne])
  | swtch p k input hthread hop hstate =>
    have hne : q ≠ p := fun heq ↦ hq (heq ▸ hthread)
    exact .inl (congrArg Proc.code (Memory.setProc_of_ne _ _ hne))
  | store p m k input hthread hop =>
    have hne : q ≠ p := fun heq ↦ hq (heq ▸ hthread)
    have hproc : ((s.setMem (m.setCode p k)).mem.proc q) = m.proc q :=
      Memory.setProc_of_ne _ _ hne
    rw [hproc]
    exact (op_store_other hop hne).code_eq
  | _ => exact .inl rfl

/-- What a step of process `p` on CPU `c` does. -/
def Op.Effect (s : State K Cpu) (c : Cpu) (p : Fin NPROC) (s' : State K Cpu) : Op K → Prop
  | .acquire l k => s.lock l = none ∧
      s' = { s with lock := Function.update s.lock l (some c), mem := s.mem.setCode p k }
  | .release l k => s.lock l = some c ∧
      s' = { s with lock := Function.update s.lock l none, mem := s.mem.setCode p k }
  | .store m k => s' = s.setMem (m.setCode p k)
  | .swtch k => (s.mem.proc p).state ≠ .running ∧
      s' = (s.setMem (s.mem.setProc p { s.mem.proc p with code := k, saved := true })).setThread c
        (.sched (.after p))
  | .stop _ => False

theorem Steps.effect (h : Steps s c s') (hp : s.thread c = .exec p) :
    ∃ input, ((s.mem.proc p).code.op s.mem p input).Effect s c p s' := by
  have hsame : ∀ {p'}, s.thread c = .exec p' → p' = p :=
    fun hp' ↦ Thread.exec.inj (hp'.symm.trans hp)
  cases h with
  | acquire p' l k input hthread hop hlock =>
    obtain rfl := hsame hthread
    exact ⟨input, by rw [hop]; exact ⟨hlock, rfl⟩⟩
  | release p' l k input hthread hop hlock =>
    obtain rfl := hsame hthread
    exact ⟨input, by rw [hop]; exact ⟨hlock, rfl⟩⟩
  | store p' m k input hthread hop =>
    obtain rfl := hsame hthread
    exact ⟨input, by rw [hop]; rfl⟩
  | swtch p' k input hthread hop hstate =>
    obtain rfl := hsame hthread
    exact ⟨input, by rw [hop]; exact ⟨hstate, rfl⟩⟩
  | _ => simp_all

/-- A step of a process follows its code. -/
theorem Steps.code_self (h : Steps s c s') (hp : s.thread c = .exec p) :
    ∃ input, ((s.mem.proc p).code.op s.mem p input).next = some (s'.mem.proc p).code := by
  obtain ⟨input, heffect⟩ := h.effect hp
  refine ⟨input, ?_⟩
  revert heffect
  cases (s.mem.proc p).code.op s.mem p input with
  | acquire l k =>
    rintro ⟨-, rfl⟩
    simp [Op.next, Memory.setCode]
  | release l k =>
    rintro ⟨-, rfl⟩
    simp [Op.next, Memory.setCode]
  | store m k =>
    rintro rfl
    simp [Op.next, Memory.setCode, State.setMem]
  | swtch k =>
    rintro ⟨-, rfl⟩
    simp [Op.next, State.setMem, State.setThread]
  | stop stop => exact False.elim

/-- The memory after a step and where the thread goes on. -/
def Op.result (m : Memory K) : Op K → Option (Memory K × Code K)
  | .acquire _ k | .release _ k | .swtch k => some (m, k)
  | .store m' k => some (m', k)
  | .stop _ => none

theorem Steps.result (h : Steps s c s') (hp : s.thread c = .exec p) : ∃ input m,
    ((s.mem.proc p).code.op s.mem p input).result s.mem = some (m, (s'.mem.proc p).code) ∧
      s'.mem.data = m.data := by
  obtain ⟨input, heffect⟩ := h.effect hp
  refine ⟨input, ?_⟩
  revert heffect
  cases (s.mem.proc p).code.op s.mem p input with
  | acquire l k =>
    rintro ⟨-, rfl⟩
    exact ⟨s.mem, by simp [Op.result, Memory.setCode], rfl⟩
  | release l k =>
    rintro ⟨-, rfl⟩
    exact ⟨s.mem, by simp [Op.result, Memory.setCode], rfl⟩
  | store m k =>
    rintro rfl
    exact ⟨m, by simp [Op.result, Memory.setCode, State.setMem], rfl⟩
  | swtch k =>
    rintro ⟨-, rfl⟩
    exact ⟨s.mem, by simp [Op.result, State.setMem, State.setThread], rfl⟩
  | stop stop => exact False.elim

/-- The data of the client changes when a process is in its code. -/
theorem op_store_data {m' : Memory K} {k : Code K} (h : code.op m p input = .store m' k) :
    m'.data = m.data ∨ ∃ loc held input loc', code = .at (.client loc held) ∧
      K.next m.data (m.proc p).killed loc input = .store m'.data loc' ∧
      k = .at (.client loc' held) := by
  cases code with
  | «at» b =>
    cases input with
    | timer =>
      simp only [Code.op] at h
      split at h <;> cases h
      exact .inl rfl
    | go input fail =>
      cases b with
      | client loc held =>
        simp only [Code.op, pointOp, clientOp, goto] at h
        split at h
        · cases h
        · cases h
        · rename_i hnext
          cases h
          exact .inr ⟨loc, held, input, _, rfl, hnext, rfl⟩
        all_goals
          repeat' split at h
          all_goals cases h
          all_goals exact .inl rfl
      | _ =>
        simp only [Code.op, pointOp, goto] at h
        (repeat' split at h) <;> cases h <;> exact .inl rfl
  | yieldSet b =>
    cases h
    exact .inl rfl
  | _ => cases h

theorem Steps.data (h : Steps s c s') :
    s'.mem.data = s.mem.data ∨ ∃ p loc held input loc', s.thread c = .exec p ∧
      (s.mem.proc p).code = .at (.client loc held) ∧
      K.next s.mem.data (s.mem.proc p).killed loc input = .store s'.mem.data loc' ∧
      (s'.mem.proc p).code = .at (.client loc' held) := by
  cases h with
  | store p m k input hthread hop =>
    refine (op_store_data hop).imp_right ?_
    rintro ⟨loc, held, input, loc', hcode, hnext, rfl⟩
    exact ⟨p, loc, held, input, loc', hthread, hcode, hnext,
      by simp [State.setMem, Memory.setCode]⟩
  | _ => exact .inl rfl

/-- What each store of the client keeps holds of the data in every run. -/
theorem data_of_run {P : K.Data → Prop} {data : K.Data} {actions : List (Cpu × Input K)}
    (hinit : P data)
    (hnext : ∀ d killed loc input d' loc', K.next d killed loc input = .store d' loc' → P d → P d')
    (hrun : run step (boot K Cpu data) actions = .ok s) : P s.mem.data := by
  refine run_induction step (P := fun _ s ↦ P s.mem.data) hinit ?_ hrun
  intro _ ⟨c, input⟩ s s' _ hP hstep
  rcases (step_steps hstep).data with hsame | ⟨p, loc, held, input, loc', -, -, hstore, -⟩
  · rwa [hsame]
  · exact hnext _ _ _ _ _ _ hstore hP

/-- A step does not change where a process on another CPU is. -/
theorem Inv.code_running (h : Inv s) (hstep : Steps s c s') (hc : c' ≠ c)
    (hp : s.thread c' = .exec p) : (s'.mem.proc p).code = (s.mem.proc p).code := by
  have hother : s.thread c ≠ .exec p := by
    intro hp'
    exact hc (h.unique c' c p (by rw [hp, Thread.proc]) (by rw [hp', Thread.proc]))
  refine (hstep.code_other hother).resolve_right fun hunused ↦ ?_
  exact (Code.runs_ne _).1 ((h.state_of_exec hp).1.symm.trans hunused.1)

end Frame

/-! ## Waiting -/

/-- Process `q` sleeps on a channel, or is about to. -/
def Waits (m : Memory K) (ch : Chan K.Ch) (q : Fin NPROC) : Prop :=
  (m.proc q).state = .sleeping ∧ (m.proc q).chan = some ch ∨
    ∃ r, (m.proc q).code = .at (.sleepSet ch r)

theorem Code.runs_sleeping (h : code.runs = .sleeping) : ∃ ch r, code = .at (.sleepSched ch r) := by
  cases code with
  | «at» b => cases b <;> first | exact ⟨_, _, rfl⟩ | cases h
  | _ => cases h

variable [DecidableEq Cpu]

/-- A process that sleeps after a step slept before it, or was about to. -/
theorem Inv.waits_of_sleeping (h : Inv s) (hstep : Steps s c s')
    (hsleep : (s'.mem.proc q).state = .sleeping) (hchan : (s'.mem.proc q).chan = some ch) :
    Waits s.mem ch q := by
  cases hstep with
  | schedRun r hthread hstate =>
    by_cases hr : q = r
    · simp [State.setThread, State.setMem, State.setCproc, Memory.setState, hr] at hsleep
    · simp only [State.setThread, State.setMem, State.setCproc, Memory.setState,
        Memory.setProc_of_ne _ _ hr] at hsleep hchan
      exact .inl ⟨hsleep, hchan⟩
  | schedSwitch r hthread =>
    simp only [State.setThread, State.setMem, Memory.proc_setProc] at hsleep hchan
    split at hsleep <;> simp_all [Waits]
  | acquire p l k input hthread hop hlock =>
    simp only [Memory.proc_setCode] at hsleep hchan
    split at hsleep <;> simp_all [Waits]
  | release p l k input hthread hop hlock =>
    simp only [Memory.proc_setCode] at hsleep hchan
    split at hsleep <;> simp_all [Waits]
  | swtch p k input hthread hop hstate =>
    simp only [State.setThread, State.setMem, Memory.proc_setProc] at hsleep hchan
    split at hsleep <;> simp_all [Waits]
  | store p m k input hthread hop =>
    simp only [State.setMem, Memory.proc_setCode] at hsleep hchan
    by_cases hq : q = p
    · subst hq
      simp only [if_true] at hsleep hchan
      -- The process itself only stores this state in `sleep`.
      have hruns := (op_store_self hop (h.state_of_exec hthread).1 fun r ↦ h.fork q r).1
      obtain ⟨ch', r, rfl⟩ := Code.runs_sleeping (hruns.symm.trans hsleep)
      have hcode := next_prior (congrArg Op.next hop) rfl
      rw [hcode] at hop
      cases input with
      | timer => cases hop
      | go input fail =>
        cases hop
        simp only [Memory.setProc_self, Option.some.injEq] at hchan
        exact .inr ⟨r, hchan ▸ hcode⟩
    · rw [if_neg hq] at hsleep hchan
      have hchange := op_store_other hop hq
      revert hsleep hchan hchange
      generalize m.proc q = v
      intro hsleep hchan hchange
      cases hchange with
      | same => exact .inl ⟨hsleep, hchan⟩
      | parent parent hchild => exact .inl ⟨hsleep, hchan⟩
      | copy own hlock hforks => exact .inl ⟨hsleep, hchan⟩
      | kill k hcode =>
        dsimp only at hsleep
        split at hsleep
        · cases hsleep
        · exact .inl ⟨hsleep, hchan⟩
      | _ => cases hsleep
  | _ => exact .inl ⟨hsleep, hchan⟩

/-- A process starts to wait when it releases the lock in `sleep`. -/
theorem Inv.waits_of_step (h : Inv s) (hstep : Steps s c s') (hwaits : Waits s'.mem ch q) :
    Waits s.mem ch q ∨
      s.thread c = .exec q ∧ ∃ r, (s.mem.proc q).code = .at (.sleepRelease ch r) := by
  rcases hwaits with ⟨hsleep, hchan⟩ | ⟨r, hcode⟩
  · exact .inl (h.waits_of_sleeping hstep hsleep hchan)
  · by_cases hq : s.thread c = .exec q
    · obtain ⟨input, hnext⟩ := hstep.code_self hq
      rw [hcode] at hnext
      exact .inr ⟨hq, r, next_prior hnext rfl⟩
    · rcases hstep.code_other hq with hsame | ⟨-, hfork⟩
      · exact .inl (.inr ⟨r, hsame.symm.trans hcode⟩)
      · rw [hcode] at hfork
        cases hfork

/-! ## The rule -/

omit [DecidableEq Cpu] in
/-- A thread at a point where no process is resumed runs. -/
theorem Inv.exec_of_code (h : Inv s) (hcode : ¬ (s.mem.proc p).code.Resumes) :
    ∃ c, s.thread c = .exec p := by
  by_contra hnone
  push Not at hnone
  exact hcode (h.resume p hnone)

/-- `wakeup` on a channel is running and has not passed process `q`. -/
def Code.Wakes (ch : Chan K.Ch) (q : Fin NPROC) : Code K → Prop
  | .at (.wakeupLoop ch' i _) => ch' = some ch ∧ i ≤ q
  | .at (.wakeupTest ch' r _) => ch' = some ch ∧ r ≤ q
  | .at (.wakeupRelease ch' r _) => ch' = some ch ∧ r < q
  | _ => False

/-- `wakeup` on a channel starts. -/
def Code.startsWakeup (ch : Chan K.Ch) : Code K → Bool
  | .at (.wakeupLoop ch' i _) => decide (ch' = some ch ∧ i = 0)
  | _ => false

omit [DecidableEq Cpu] in
theorem Code.wakes_of_starts (h : code.startsWakeup ch) : code.Wakes ch q := by
  unfold Code.startsWakeup at h
  split at h
  · rw [decide_eq_true_iff] at h
    exact ⟨h.1, h.2 ▸ Nat.zero_le _⟩
  · cases h

/-- If the condition holds, whoever waits for it will be woken by the process that holds the lock:
it is in `wakeup`, or it owes a call of `wakeup`. -/
def NoLost (s : State K Cpu) (ch : Chan K.Ch) (lk : CondLock K.Lk) (cond : Prop)
    (owes : Fin NPROC → Prop) : Prop :=
  cond → ∀ q, Waits s.mem ch q → ∃ c p, s.thread c = .exec p ∧ s.lock (.cond lk) = some c ∧
    (owes p ∨ (s.mem.proc p).code.Wakes ch q)

omit [DecidableEq Cpu] in
/-- The lock is held by a process. -/
theorem Inv.exec_of_cond (h : Inv s) (hlock : s.lock (.cond lk) = some c) :
    ∃ p, s.thread c = .exec p := by
  have hholds := (h.lock c _).mp hlock
  cases hthread : s.thread c with
  | exec p => exact ⟨p, rfl⟩
  | sched sc =>
    rw [hthread] at hholds
    cases sc <;> cases hholds

/-- A process goes on running if it is not put aside. -/
theorem Inv.exec_of_step (h : Inv s) (hstep : Steps s c s') (hp : s.thread c = .exec p)
    (hcode : ¬ (s'.mem.proc p).code.Resumes) : s'.thread c = .exec p := by
  refine (hstep.exec_after hp).resolve_right fun hafter ↦ ?_
  obtain ⟨c', hc'⟩ := (h.step hstep).exec_of_code hcode
  have heq := (h.step hstep).unique c c' p (by rw [hafter, Thread.proc]) (by rw [hc', Thread.proc])
  rw [heq, hc'] at hafter
  cases hafter

/-- A process that has the lock before and after a step goes on running. -/
theorem Inv.exec_of_kept (h : Inv s) (hstep : Steps s c s') (hthread : s.thread c' = .exec p)
    (hlock : s'.lock (.cond lk) = some c') : s'.thread c' = .exec p := by
  refine (hstep.exec_after hthread).resolve_right fun hafter ↦ ?_
  obtain ⟨p', hp'⟩ := (h.step hstep).exec_of_cond hlock
  rw [hafter] at hp'
  cases hp'

omit [DecidableEq Cpu] in
/-- A process that runs and has a lock is the one that does not wait to be resumed and has it. -/
theorem Inv.eq_of_holds (h : Inv s) (hp : s.thread c = .exec p) {l : Lock K.Lk}
    (hholds : (s.mem.proc p).code.Holds p l) (hcode : ¬ (s.mem.proc q).code.Resumes)
    (hholds' : (s.mem.proc q).code.Holds q l) : q = p := by
  obtain ⟨c₂, hc₂⟩ := h.exec_of_code hcode
  have heq : c = c₂ := by
    refine h.holds_unique (l := l) ?_ ?_
    · rwa [hp]
    · rwa [hc₂]
  rw [← heq, hp] at hc₂
  exact (Thread.exec.inj hc₂).symm

omit [DecidableEq Cpu] in
/-- A process that does not run holds no lock but its own. -/
theorem Inv.eq_of_holds_cond (h : Inv s) (hp : s.thread c = .exec p)
    (hholds : (s.mem.proc p).code.Holds p (.cond lk))
    (hholds' : (s.mem.proc q).code.Holds q (.cond lk)) : q = p := by
  refine h.eq_of_holds hp hholds (fun hresumes ↦ ?_) hholds'
  cases hresumes.holds.mp hholds'

/-- A process that `wakeup` has just looked at does not wait. -/
theorem Inv.not_waits_of_test (h : Inv s) (hstep : Steps s c s') (hp : s.thread c = .exec p)
    {r : WakeRet K} (hcode : (s.mem.proc p).code = .at (.wakeupTest (some ch) q r)) :
    ¬ Waits s'.mem ch q := by
  obtain ⟨input, heffect⟩ := hstep.effect hp
  have hset : q ≠ p → ∀ ret, (s.mem.proc q).code ≠ .at (.sleepSet ch ret) := by
    intro hq ret hset
    refine hq (h.eq_of_holds (l := .proc q) hp ?_ ?_ ?_)
    · rw [hcode]
      exact .inl rfl
    · simp [hset, Code.Resumes]
    · rw [hset]
      rfl
  rw [hcode] at heffect
  cases input with
  | timer => cases heffect
  | go input fail =>
    simp only [Code.op, pointOp, goto] at heffect
    split at heffect
    · obtain rfl := heffect
      by_cases hq : q = p
      · simp [Waits, State.setMem, Memory.setCode, Memory.setState, hq]
      · simp [Waits, State.setMem, Memory.setCode, Memory.setState, Memory.proc_setProc, hq,
          hset hq]
    · rename_i hnot
      obtain rfl := heffect
      by_cases hq : q = p
      · subst hq
        simpa [Waits, State.setMem, Memory.setCode] using hnot
      · simpa [Waits, State.setMem, Memory.setCode, Memory.proc_setProc, hq, hset hq] using hnot

/-- A step of the process that runs `wakeup`: no process that still waits after the step has been
passed. -/
theorem Inv.wakes_step (h : Inv s) (hstep : Steps s c s') (hp : s.thread c = .exec p)
    (hwakes : (s.mem.proc p).code.Wakes ch q) (hwaits : Waits s'.mem ch q) :
    (s'.mem.proc p).code.Wakes ch q ∧ ∀ lk, s.lock (.cond lk) = some c →
      s'.lock (.cond lk) = some c := by
  obtain ⟨input, heffect⟩ := hstep.effect hp
  have hstate := (h.state_of_exec hp).1
  generalize hcode : (s.mem.proc p).code = code at hwakes heffect hstate
  unfold Code.Wakes at hwakes
  split at hwakes
  · rename_i ch' i r
    obtain ⟨rfl, hi⟩ := hwakes
    cases input with
    | timer => cases heffect
    | go input fail =>
      simp only [Code.op, pointOp, goto, show i < NPROC from lt_of_le_of_lt hi q.2, dif_pos]
        at heffect
      split at heffect
      · rename_i heq
        obtain rfl := heffect
        refine ⟨?_, fun lk hlock ↦ hlock⟩
        have hne : i ≠ q := by
          rintro rfl
          obtain rfl : q = p := heq
          simp [Waits, State.setMem, Memory.setCode, hstate, Code.runs, Point.runs] at hwaits
        simp only [State.setMem, Memory.setCode, Memory.setProc_self, Code.Wakes]
        exact ⟨trivial, by omega⟩
      · obtain ⟨-, rfl⟩ := heffect
        refine ⟨?_, fun lk hlock ↦ ?_⟩
        · simp only [Memory.setCode, Memory.setProc_self, Code.Wakes]
          exact ⟨trivial, hi⟩
        · simpa using hlock
  · rename_i ch' r ret
    obtain ⟨rfl, hr⟩ := hwakes
    cases input with
    | timer => cases heffect
    | go input fail =>
      have hne : r ≠ q := by
        rintro rfl
        exact h.not_waits_of_test hstep hp hcode hwaits
      simp only [Code.op, pointOp, goto] at heffect
      split at heffect
      · obtain rfl := heffect
        refine ⟨?_, fun lk hlock ↦ hlock⟩
        simp only [State.setMem, Memory.setCode, Memory.setProc_self, Code.Wakes]
        exact ⟨trivial, lt_of_le_of_ne hr hne⟩
      · obtain rfl := heffect
        refine ⟨?_, fun lk hlock ↦ hlock⟩
        simp only [State.setMem, Memory.setCode, Memory.setProc_self, Code.Wakes]
        exact ⟨trivial, lt_of_le_of_ne hr hne⟩
  · rename_i ch' r ret
    obtain ⟨rfl, hr⟩ := hwakes
    cases input with
    | timer => cases heffect
    | go input fail =>
      obtain ⟨-, rfl⟩ := heffect
      refine ⟨?_, fun lk hlock ↦ ?_⟩
      · simp only [Memory.setCode, Memory.setProc_self, Code.Wakes]
        exact ⟨trivial, hr⟩
      · simpa using hlock
  · cases hwakes

/-- The rule for a condition that processes wait for. -/
theorem NoLost.step {cond cond' : Prop} {owes owes' : Fin NPROC → Prop} (h : Inv s)
    (hstep : Steps s c s') (hlost : NoLost s ch lk cond owes)
    -- A process goes to sleep after it has found the condition false.
    (hsleep : ∀ q r, s.thread c = .exec q → (s.mem.proc q).code = .at (.sleepRelease ch r) → ¬ cond)
    -- Who makes the condition true keeps the lock, and owes or starts a `wakeup`.
    (htrue : cond' → ¬ cond → s'.lock (.cond lk) = some c ∧ ∀ p, s'.thread c = .exec p →
      owes' p ∨ (s'.mem.proc p).code.startsWakeup ch)
    -- Who owes a `wakeup` keeps the lock until it starts.
    (howes : ∀ c' p, s.thread c' = .exec p → s.lock (.cond lk) = some c' → owes p →
      s'.lock (.cond lk) = some c' ∧ (owes' p ∨ (s'.mem.proc p).code.startsWakeup ch)) :
    NoLost s' ch lk cond' owes' := by
  have h' := h.step hstep
  intro hcond' q hwaits'
  by_cases hcond : cond
  · rcases h.waits_of_step hstep hwaits' with hwaits | ⟨hq, r, hcode⟩
    · obtain ⟨c₁, p, hthread, hlock, howe | hwakes⟩ := hlost hcond q hwaits
      · obtain ⟨hlock', hgoes⟩ := howes c₁ p hthread hlock howe
        exact ⟨c₁, p, h.exec_of_kept hstep hthread hlock', hlock',
          hgoes.imp_right Code.wakes_of_starts⟩
      · by_cases hc : c₁ = c
        · subst hc
          obtain ⟨hwakes', hkeep⟩ := h.wakes_step hstep hthread hwakes hwaits'
          exact ⟨c₁, p, h.exec_of_kept hstep hthread (hkeep lk hlock), hkeep lk hlock, .inr hwakes'⟩
        · refine ⟨c₁, p, (hstep.thread_other hc).trans hthread, hstep.lock_other hc hlock, .inr ?_⟩
          rwa [h.code_running hstep hc hthread]
    · exact absurd hcond (hsleep q r hq hcode)
  · obtain ⟨hlock, hstarts⟩ := htrue hcond' hcond
    obtain ⟨p, hthread⟩ := h'.exec_of_cond hlock
    refine ⟨c, p, hthread, hlock, (hstarts p hthread).imp_right Code.wakes_of_starts⟩

/-! ## No lost wakeup -/

/-- A condition on the memory that processes wait for on a channel, under a lock. -/
structure Condition (K : Client) where
  chan : Chan K.Ch
  lk : CondLock K.Lk
  holds : Memory K → Bool

/-- The lock of a call of `sleep` on a channel that a CPU has just made. -/
def State.sleepCall (s : State K Cpu) (c : Cpu) (ch : Chan K.Ch) : Option (CondLock K.Lk) :=
  match s.thread c with
  | .exec p =>
    match (s.mem.proc p).code with
    | .at (.sleepAcquire ch' r) => if ch' = ch then some r.lk else none
    | _ => none
  | .sched _ => none

/-- A CPU has just called `wakeup` on a channel. -/
def State.wakeupCall (s : State K Cpu) (c : Cpu) (ch : Chan K.Ch) : Bool :=
  match s.thread c with
  | .exec p => (s.mem.proc p).code.startsWakeup ch
  | .sched _ => false

namespace Condition

variable (C : Condition K)

/-- The condition becomes true. -/
def made (s s' : State K Cpu) : Bool := !C.holds s.mem && C.holds s'.mem

/-- A step of CPU `c` keeps to the protocol of the condition, where `owed` says that the process that
holds the lock has made the condition true and has not called `wakeup` since. -/
def Respects (owed : Bool) (s s' : State K Cpu) (c : Cpu) : Prop :=
  -- The condition is made true with the lock held,
  (C.made s s' = true → s.lock (.cond C.lk) = some c) ∧
  -- and `wakeup` is called before the lock is released.
  (s.lock (.cond C.lk) = some c → (owed || C.made s s') = true →
    s'.lock (.cond C.lk) = some c) ∧
  -- `sleep` is called with the lock, by a process that has found the condition false.
  ∀ lk ∈ s'.sleepCall c C.chan, lk = C.lk ∧ C.holds s.mem = false

instance (owed : Bool) (s s' : State K Cpu) (c : Cpu) : Decidable (C.Respects owed s s' c) :=
  inferInstanceAs (Decidable (_ ∧ _ ∧ _))

/-- Whether a `wakeup` is owed after a step: a call by the process that holds the lock settles it. -/
def owes (owed : Bool) (s s' : State K Cpu) (c : Cpu) : Bool :=
  (owed || C.made s s') &&
    !(decide (s.lock (.cond C.lk) = some c) && s'.wakeupCall c C.chan)

/-- A step that keeps to the protocol. -/
def step (x : State K Cpu × Bool) (action : Cpu × Input K) : Except Stop (State K Cpu × Bool) := do
  let s ← Process.step x.1 action
  if C.Respects x.2 x.1 s action.1 then return (s, C.owes x.2 x.1 s action.1)
  else throw .disabled

/-- The invariant of the protocol. -/
structure Kept (s : State K Cpu) (owed : Bool) : Prop where
  inv : Inv s
  found : ∀ q r, (s.mem.proc q).code = .at (.sleepAcquire C.chan r) ∨
      (s.mem.proc q).code = .at (.sleepRelease C.chan r) →
    r.lk = C.lk ∧ (C.holds s.mem = true → owed = true)
  lost : NoLost s C.chan C.lk (C.holds s.mem = true) fun _ ↦ owed = true

variable {C}

omit [DecidableEq Cpu] in
theorem Kept.boot (data : K.Data) : C.Kept (boot K Cpu data) false where
  inv := .boot data
  found q r h := by
    by_cases hq : q = initproc <;> simp [Process.boot, hq] at h
  lost _ q hwaits := by
    by_cases hq : q = initproc <;> simp [Process.boot, Waits, hq] at hwaits

omit [DecidableEq Cpu] in
/-- A process in `sleep` runs, and holds the lock that it gave to `sleep`. -/
theorem sleeper_exec (h : Inv s) {r : SleepRet K}
    (hcode : (s.mem.proc q).code = .at (.sleepAcquire ch r) ∨
      (s.mem.proc q).code = .at (.sleepRelease ch r)) :
    ∃ c, s.thread c = .exec q ∧ s.lock (.cond r.lk) = some c := by
  obtain ⟨c, hc⟩ := h.exec_of_code (p := q) (by rcases hcode with hcode | hcode <;> simp [hcode, Code.Resumes])
  refine ⟨c, hc, (h.lock c _).mpr ?_⟩
  rw [hc, Thread.Holds]
  rcases hcode with hcode | hcode
  · rw [hcode]
    rfl
  · rw [hcode]
    exact .inr rfl

theorem Kept.found_step {owed : Bool} (h : C.Kept s owed) (hstep : Steps s c s')
    (hrespects : C.Respects owed s s' c) {r : SleepRet K}
    (hcode' : (s'.mem.proc q).code = .at (.sleepAcquire C.chan r) ∨
      (s'.mem.proc q).code = .at (.sleepRelease C.chan r)) :
    r.lk = C.lk ∧ (C.holds s'.mem = true → C.owes owed s s' c = true) := by
  by_cases hq : s.thread c = .exec q
  · have hthread : s'.thread c = .exec q := by
      refine h.inv.exec_of_step hstep hq ?_
      rcases hcode' with hcode' | hcode' <;> simp [hcode', Code.Resumes]
    have hcall : s'.wakeupCall c C.chan = false := by
      rcases hcode' with hcode' | hcode' <;>
        simp [State.wakeupCall, hthread, hcode', Code.startsWakeup]
    -- A call of `sleep` finds the condition false, and nobody else makes it true.
    have hbefore : r.lk = C.lk ∧ (C.holds s.mem = true → owed = true) := by
      rcases hcode' with hcode' | hcode'
      · obtain ⟨hlk, hfalse⟩ := hrespects.2.2 r.lk (by simp [State.sleepCall, hthread, hcode'])
        exact ⟨hlk, fun hcond ↦ by simp [hfalse] at hcond⟩
      · obtain ⟨input, hnext⟩ := hstep.code_self hq
        rw [hcode'] at hnext
        exact h.found q r (.inl (next_prior hnext rfl))
    refine ⟨hbefore.1, fun hcond' ↦ ?_⟩
    by_cases hcond : C.holds s.mem = true
    · simp [owes, hbefore.2 hcond, hcall]
    · simp [owes, made, hcond, hcond', hcall]
  · have hcode : (s.mem.proc q).code = (s'.mem.proc q).code := by
      rcases hstep.code_other hq with hsame | ⟨-, hfork⟩
      · exact hsame.symm
      · rcases hcode' with hcode' | hcode' <;> simp [hcode'] at hfork
    rw [← hcode] at hcode'
    obtain ⟨hlk, hfound⟩ := h.found q r hcode'
    obtain ⟨c₁, hc₁, hlock₁⟩ := sleeper_exec h.inv hcode'
    have hother : s.lock (.cond C.lk) ≠ some c := by
      rw [← hlk, hlock₁]
      rintro ⟨⟩
      exact hq hc₁
    refine ⟨hlk, fun hcond' ↦ ?_⟩
    have hcond : C.holds s.mem = true := by
      by_contra hcond
      exact hother (hrespects.1 (by simp [made, hcond, hcond']))
    simp [owes, hfound hcond, hother]

theorem Kept.step {owed : Bool} (h : C.Kept s owed) (hstep : Steps s c s')
    (hrespects : C.Respects owed s s' c) : C.Kept s' (C.owes owed s s' c) := by
  -- The process that holds the lock owes a `wakeup` or has just called it.
  have hgoes : ∀ p, s'.thread c = .exec p → (owed || C.made s s') = true →
      C.owes owed s s' c = true ∨ (s'.mem.proc p).code.startsWakeup C.chan = true := by
    intro p hthread howed
    by_cases hcall : (s'.mem.proc p).code.startsWakeup C.chan = true
    · exact .inr hcall
    · exact .inl (by simp [owes, howed, State.wakeupCall, hthread, hcall])
  refine ⟨h.inv.step hstep, fun q r ↦ h.found_step hstep hrespects, ?_⟩
  refine NoLost.step h.inv hstep h.lost (fun q r hq hcode hcond ↦ ?_) (fun hcond' hcond ↦ ?_)
    fun c' p hthread hlock howed ↦ ?_
  · obtain ⟨hlk, hfound⟩ := h.found q r (.inr hcode)
    obtain ⟨c', hc', hlock⟩ := sleeper_exec h.inv (.inr hcode)
    obtain rfl : c' = c :=
      h.inv.unique c' c q (by rw [hc', Thread.proc]) (by rw [hq, Thread.proc])
    obtain ⟨input, heffect⟩ := hstep.effect hq
    have hkept := hrespects.2.1 (hlk ▸ hlock) (by simp [hfound hcond])
    rw [hcode] at heffect
    cases input with
    | timer => cases heffect
    | go input fail =>
      obtain ⟨-, rfl⟩ := heffect
      simp [hlk] at hkept
  · have hmade : C.made s s' = true := by simp [made, hcond, hcond']
    have howed : (owed || C.made s s') = true := by simp [hmade]
    exact ⟨hrespects.2.1 (hrespects.1 hmade) howed, fun p hthread ↦ hgoes p hthread howed⟩
  · have howed' : (owed || C.made s s') = true := by simp [howed]
    by_cases hc : c' = c
    · subst hc
      have hkept := hrespects.2.1 hlock howed'
      exact ⟨hkept, hgoes p (h.inv.exec_of_kept hstep hthread hkept) howed'⟩
    · have hother : s.lock (.cond C.lk) ≠ some c := by
        rw [hlock]
        exact fun heq ↦ hc (Option.some.inj heq)
      exact ⟨hstep.lock_other hc hlock, .inl (by simp [owes, howed', hother])⟩

/-- The invariant holds in every run. -/
theorem Kept.of_run {data : K.Data} {actions : List (Cpu × Input K)} {owed : Bool}
    (hrun : run C.step (Process.boot K Cpu data, false) actions = .ok (s, owed)) : C.Kept s owed := by
  refine run_induction C.step (P := fun _ x ↦ C.Kept x.1 x.2) (.boot data) ?_ hrun
  intro _ action x x' _ h hstep
  obtain ⟨t, ht, hguard⟩ := bind_ok hstep
  split at hguard
  · rename_i hrespects
    cases hguard
    exact h.step (step_steps ht) hrespects
  · cases hguard

end Condition

/-- When every process that sleeps on a channel has found the condition false under the lock, and
whoever makes the condition true holds the lock and calls `wakeup` before it releases it, nobody
sleeps on the channel while the lock is free and the condition is true. -/
theorem no_lost_wakeup (C : Condition K) {data : K.Data} {actions : List (Cpu × Input K)}
    {owed : Bool} (hrun : run C.step (boot K Cpu data, false) actions = .ok (s, owed))
    (hlock : s.lock (.cond C.lk) = none) (hcond : C.holds s.mem = true) (q : Fin NPROC) :
    ¬ ((s.mem.proc q).state = .sleeping ∧ (s.mem.proc q).chan = some C.chan) := by
  intro hsleeps
  obtain ⟨c, p, -, hheld, -⟩ := (Condition.Kept.of_run hrun).lost hcond q (.inl hsleeps)
  rw [hlock] at hheld
  cases hheld

/-- A flag that one process waits for and another one sets. -/
def flag : Condition (.any Bool Unit Unit) where
  chan := .other ()
  lk := .other ()
  holds m := m.data

/-- The first process forks and goes to sleep until the flag is set; the new process sets it. -/
def flagRun : List (Unit × Input (.any Bool Unit Unit)) :=
  let go (calls : List (Call Unit Bool Unit Unit)) : List (Unit × Input (.any Bool Unit Unit)) :=
    calls.map fun call ↦ ((), .go call false)
  -- The call does not matter outside of the client.
  let steps (n : ℕ) := go (List.replicate n (.wakeup () ()))
  steps 4 ++ go [.fork fun _ ↦ ()] ++ steps 13 ++ go [.acquire () (), .sleep () () ()] ++ steps 10 ++
    go [.acquire () (), .store true (), .wakeup () ()] ++ steps 191 ++ go [.release () ()]

/-- The sleeper has been made runnable before the lock is free again. -/
theorem no_lost_wakeup_flag :
    ∃ s owed, run flag.step (boot (.any Bool Unit Unit) Unit false, false) flagRun = .ok (s, owed) ∧
      (s.mem.proc 0).state = .runnable ∧ (s.mem.proc 0).chan = some flag.chan ∧ ∀ q,
        ¬ ((s.mem.proc q).state = .sleeping ∧ (s.mem.proc q).chan = some flag.chan) := by
  have hyields : yields (run flag.step (boot (.any Bool Unit Unit) Unit false, false) flagRun)
      (fun x ↦ (x.1.mem.proc 0).state = .runnable ∧ (x.1.mem.proc 0).chan = some flag.chan ∧
        x.1.lock (.cond flag.lk) = none ∧ flag.holds x.1.mem = true) = true := by decide +kernel
  obtain ⟨x, hrun, hstate, hchan, hlock, hcond⟩ := exists_of_yields hyields
  exact ⟨x.1, x.2, hrun, hstate, hchan, no_lost_wakeup flag hrun hlock hcond⟩

end Xv6.Process
