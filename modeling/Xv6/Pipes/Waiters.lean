import Xv6.Pipes.Calls
import Xv6.Process.Wakeup

/-!
# The Waiters of a Pipe

A reader sleeps on `&pi->nread` while the pipe is empty and open for writing, and a writer on
`&pi->nwrite` while it is full and open for reading.  Every change that ends one of these is followed
by a `wakeup` before the lock is released, with one exception: `pipewrite` returns at the head of its
loop when the process has been killed, also if it has stored bytes since it took the lock.
-/

namespace Xv6.Pipes

open Lib Process

variable {d d' : Data} {m m' : Memory kernel} {p q : Fin NPROC} {code k : Code kernel}
  {input : Process.Input kernel}

/-! ## What a process sees -/

/-- The locks that a process holds at a place of the code. -/
def Loc.held : Loc → List Unit
  | .user _ | .closeFree => []
  | _ => [()]

/-- What a process has seen of the pipe and cannot have changed. -/
def Loc.Sees (pi : Pipe) : Loc → Prop
  | .writeLoop _ _ stored => stored = true → pi.readopen = true
  | .writeSleep _ _ => pi.full = true ∧ pi.readopen = true
  | _ => True

/-- A place where a process holds no lock and knows nothing. -/
def Loc.Free (loc : Loc) : Prop := loc.held = [] ∧ ∀ pi, loc.Sees pi

/-- What a process that calls `sleep` on a channel has seen. -/
def Ch.Sees (pi : Pipe) : Ch → Prop
  | .nread => pi.empty = true ∧ pi.writeopen = true
  | .nwrite => pi.full = true ∧ pi.readopen = true

def WakeSees (pi : Pipe) : WakeRet kernel → Prop
  | .client loc held => held = loc.held ∧ loc.Sees pi
  | .reparent _ _ | .exit _ => True

def SleepSees : SleepRet kernel → Prop
  | .client loc lk => loc.held = [lk] ∧ ∀ pi, loc.Sees pi
  | .wait _ k => ∀ v, (k v).Free

/-- What a process sees at a point of the code. -/
def PointSees (pi : Pipe) : Point kernel → Prop
  | .client loc held => held = loc.held ∧ loc.Sees pi
  | .sleepAcquire ch r | .sleepRelease ch r =>
    SleepSees r ∧
      match ch with
      | .proc _ => True
      | .other ch => r.lk = .other () ∧ ch.Sees pi
  | .sleepSet _ r | .sleepSched _ r | .sleepTidy r | .sleepUnlock r | .sleepReacquire r =>
    SleepSees r
  | .wakeupLoop _ _ r | .wakeupTest _ _ r | .wakeupRelease _ _ r => WakeSees pi r
  | .killLoop _ _ k | .killTest _ _ k | .killNext _ _ k | .killDone _ k | .allocLoop _ k
  | .allocTest _ k | .allocNext _ k | .forkCopy _ k | .forkFail _ k | .forkRelease _ k
  | .forkWait _ _ k | .forkParent _ _ k | .forkUnwait _ _ k | .forkLock _ _ k
  | .forkRunnable _ _ k | .forkDone _ _ k | .waitStart _ k | .waitScan _ _ _ k | .waitTest _ _ k
  | .waitNext _ _ k | .waitFound _ _ k | .waitReturn _ k => ∀ v, (k v).Free
  | .forkret | .exitWait _ | .reparent _ _ | .exitLock _ | .exitZombie _ | .exitUnwait | .exitSched
  | .exitDead => True

def Sees (pi : Pipe) : Code kernel → Prop
  | .at b => PointSees pi b
  | .yieldAcquire b | .yieldSet b | .yieldSched b | .yieldRelease b => PointSees pi b.point

theorem user_free (v : ℤ) : (Loc.user v).Free := ⟨rfl, fun _ ↦ trivial⟩

/-- What a process sees after a call, made with some locks. -/
def CallSees (pi : Pipe) (held : List Unit) : Call Loc Data Unit Ch → Prop
  | .acquire lk loc => lk :: held = loc.held ∧ loc.Sees pi
  | .release lk loc => held.filter (· ≠ lk) = loc.held ∧ loc.Sees pi
  | .store d' loc => held = loc.held ∧ loc.Sees d'.pi
  | .sleep ch lk loc => (loc.held = [lk] ∧ ∀ pi, loc.Sees pi) ∧ ch.Sees pi
  | .setOwn _ loc | .wakeup _ loc => held = loc.held ∧ loc.Sees pi
  | .kill _ k | .fork k | .wait _ k => ∀ v, (k v).Free
  | .exit _ => True

theorem next_sees (killed : Bool) {loc : Loc} (input : Outside) (h : loc.Sees d.pi) :
    CallSees d.pi loc.held (next d killed loc input) := by
  cases loc with
  | user result =>
    unfold next
    dsimp only
    (repeat' split) <;>
      first | exact ⟨rfl, trivial⟩ | exact user_free | exact ⟨rfl, by simp [Loc.Sees]⟩ | trivial
  | writeLoop n i stored =>
    unfold next
    dsimp only
    split
    · split
      · exact ⟨rfl, trivial⟩
      · rename_i hgo
        have hopen : d.pi.readopen = true := by
          simp only [Bool.or_eq_true, Bool.not_eq_true', not_or, Bool.not_eq_false] at hgo
          exact hgo.1
        split
        · rename_i hfull
          exact ⟨rfl, hfull, hopen⟩
        · split
          · exact ⟨rfl, trivial⟩
          · exact ⟨rfl, fun _ ↦ hopen⟩
    · exact ⟨rfl, trivial⟩
  | writeSleep n i => exact ⟨⟨rfl, fun _ ↦ by simp [Loc.Sees]⟩, h⟩
  | readWait n =>
    unfold next
    dsimp only
    split
    · rename_i hwait
      rw [Bool.and_eq_true] at hwait
      split
      · exact ⟨rfl, trivial⟩
      · exact ⟨⟨rfl, fun _ ↦ trivial⟩, hwait⟩
    · exact ⟨rfl, trivial⟩
  | readLoop n i =>
    unfold next
    dsimp only
    split
    · split <;> exact ⟨rfl, trivial⟩
    · exact ⟨rfl, trivial⟩
  | closeEnd =>
    unfold next
    dsimp only
    split <;> exact ⟨rfl, trivial⟩
  | _ => exact ⟨rfl, trivial⟩

/-- What a process sees after a step in the code of pipes. -/
theorem sees_client {input : Outside} {loc : Loc} {held : List Unit}
    (hop : (clientOp m p input loc held).result m = some (m', k))
    (h : held = loc.held ∧ loc.Sees m.data.pi) : Sees m'.data.pi k := by
  have hnext := next_sees (m.proc p).killed input h.2
  rw [← h.1] at hnext
  simp only [clientOp, goto] at hop
  revert hop hnext
  cases next m.data (m.proc p).killed loc input with
  | sleep ch lk loc' =>
    intro hop hnext
    dsimp only at hop
    split at hop <;> cases hop
    exact ⟨hnext.1, rfl, hnext.2⟩
  | exit status =>
    intro hop hnext
    dsimp only at hop
    (repeat' split at hop) <;> cases hop
    trivial
  | _ =>
    intro hop hnext
    dsimp only at hop
    first
      | cases hop; exact hnext
      | split at hop <;> cases hop
        exact hnext

/-- What a process sees after a step of its own. -/
theorem sees_result (hop : (code.op m p input).result m = some (m', k)) (h : Sees m.data.pi code) :
    Sees m'.data.pi k := by
  cases code with
  | «at» b =>
    cases input with
    | timer =>
      simp only [Code.op] at hop
      split at hop <;> cases hop
      exact h
    | go input fail =>
      cases b with
      | client loc held => exact sees_client hop h
      | forkret =>
        cases hop
        exact ⟨rfl, trivial⟩
      | sleepReacquire r =>
        cases hop
        cases r with
        | client loc lk => exact ⟨h.1.symm, h.2 _⟩
        | wait addr ret => exact h
      | wakeupLoop ch i r =>
        simp only [Code.op, pointOp, goto] at hop
        (repeat' split at hop) <;> cases hop
        · exact h
        · exact h
        · cases r <;> exact h
      | _ =>
        simp only [Code.op, pointOp, goto] at hop
        (repeat' split at hop) <;> cases hop <;>
          first
            | exact h
            | trivial
            | exact h.1
            | exact ⟨h, trivial⟩
            | exact ⟨(h _).1.symm, (h _).2 _⟩
  | yieldAcquire b =>
    cases hop
    exact h
  | yieldSet b =>
    cases hop
    exact h
  | yieldSched b =>
    cases hop
    exact h
  | yieldRelease b =>
    cases hop
    exact h

theorem Loc.holds_of_held {loc : Loc} (h : loc.held ≠ []) :
    ∃ lk ∈ loc.held, (.cond (.other ()) : Lock Unit) = .cond (.other lk) := by
  cases loc with
  | user result => exact absurd rfl h
  | closeFree => exact absurd rfl h
  | _ => exact ⟨(), List.mem_singleton_self _, rfl⟩

/-- What a process sees without the lock does not depend on the pipe. -/
theorem pointSees_of_not_holds {pi pi' : Pipe} {b : Point kernel} (h : PointSees pi b)
    (hnot : ¬ b.Holds p (.cond (.other ()))) : PointSees pi' b := by
  have hloc : ∀ {loc : Loc} {held : List Unit}, held = loc.held ∧ loc.Sees pi →
      (¬ ∃ lk ∈ held, (.cond (.other ()) : Lock Unit) = .cond (.other lk)) →
      held = loc.held ∧ loc.Sees pi' := by
    rintro loc held ⟨rfl, -⟩ hfree
    refine ⟨rfl, ?_⟩
    have hheld : loc.held = [] := by
      by_contra hheld
      exact hfree (Loc.holds_of_held hheld)
    cases loc <;> trivial
  cases b with
  | client loc held => exact hloc h hnot
  | sleepAcquire ch r =>
    cases ch with
    | proc q => exact h
    | other ch => exact absurd (congrArg _ h.2.1.symm) hnot
  | sleepRelease ch r =>
    cases ch with
    | proc q => exact h
    | other ch => exact absurd (.inr (congrArg _ h.2.1.symm)) hnot
  | wakeupLoop ch i r =>
    cases r with
    | client loc held => exact hloc h hnot
    | _ => trivial
  | wakeupTest ch q r =>
    cases r with
    | client loc held => exact hloc h fun hheld ↦ hnot (.inr hheld)
    | _ => trivial
  | wakeupRelease ch q r =>
    cases r with
    | client loc held => exact hloc h fun hheld ↦ hnot (.inr hheld)
    | _ => trivial
  | _ => exact h

theorem sees_of_not_holds {pi pi' : Pipe} (h : Sees pi code)
    (hnot : ¬ code.Holds p (.cond (.other ()))) : Sees pi' code := by
  cases code with
  | «at» b => exact pointSees_of_not_holds h hnot
  | yieldAcquire b => exact pointSees_of_not_holds h (b.not_holds (p := p))
  | yieldSet b => exact pointSees_of_not_holds h (b.not_holds (p := p))
  | yieldSched b => exact pointSees_of_not_holds h (b.not_holds (p := p))
  | yieldRelease b => exact pointSees_of_not_holds h (b.not_holds (p := p))

/-- A store without the lock leaves the pipe alone. -/
theorem next_store_free {killed : Bool} {loc loc' : Loc} {input : Outside}
    (hnext : next d killed loc input = .store d' loc') (hfree : loc.held = []) : d'.pi = d.pi := by
  cases loc with
  | user result =>
    simp only [next] at hnext
    (repeat' split at hnext) <;> cases hnext <;> rfl
  | closeFree =>
    cases hnext
    rfl
  | _ => cases hfree

variable {Cpu : Type} [DecidableEq Cpu] {s s' : State kernel Cpu} {c : Cpu}

/-- What the processes see stays true. -/
theorem sees_step (h : Inv s) (hsees : ∀ p, Sees s.mem.data.pi (s.mem.proc p).code)
    (hstep : Steps s c s') (q : Fin NPROC) : Sees s'.mem.data.pi (s'.mem.proc q).code := by
  by_cases hq : s.thread c = .exec q
  · obtain ⟨input, m, hresult, hdata⟩ := hstep.result hq
    rw [hdata]
    exact sees_result hresult (hsees q)
  rcases hstep.code_other hq with hcode | ⟨-, hcode⟩
  · rw [hcode]
    rcases hstep.data with hsame | ⟨p, loc, held, input, loc', hp, hloc, hstore, -⟩
    · rw [hsame]
      exact hsees q
    · have hlocal := hsees p
      rw [hloc] at hlocal
      by_cases hfree : loc.held = []
      · rw [next_store_free hstore hfree]
        exact hsees q
      · -- The store was made with the lock, so the other process does not have it.
        refine sees_of_not_holds (p := q) (hsees q) fun hholds ↦ hq ?_
        rw [h.eq_of_holds_cond hp ?_ hholds]
        · exact hp
        · rw [hloc]
          obtain ⟨rfl, -⟩ := hlocal
          exact Loc.holds_of_held hfree
  · rw [hcode]
    trivial

/-! ## Wakeups -/

/-- A process that is to call `wakeup` on a channel before it releases the lock. -/
def Loc.Owes : Ch → Loc → Prop
  | .nread, .writeLoop _ _ stored => stored = true
  | .nread, .closeWake writable => writable = true
  | .nwrite, .readLoop _ _ | .nwrite, .readBreak _ => True
  | .nwrite, .closeWake writable => writable = false
  | _, _ => False

def Owes (ch : Ch) : Code kernel → Prop
  | .at (.client loc _) => loc.Owes ch
  | _ => False

theorem Loc.Owes.held {ch : Ch} {loc : Loc} (h : loc.Owes ch) : loc.held = [()] := by
  cases ch <;> cases loc <;> first | rfl | cases h

/-- Whoever ends what the waiters on a channel have seen owes them a call of `wakeup`. -/
theorem owes_of_store {killed : Bool} {loc loc' : Loc} {input : Outside} {ch : Ch}
    (hnext : next d killed loc input = .store d' loc') (hsees : ch.Sees d.pi)
    (hnot : ¬ ch.Sees d'.pi) : loc'.Owes ch ∧ loc.held ≠ [] := by
  refine ⟨?_, fun hfree ↦ hnot (by rwa [next_store_free hnext hfree])⟩
  cases loc with
  | user result =>
    rw [next_store_free hnext rfl] at hnot
    exact absurd hsees hnot
  | closeFree =>
    rw [next_store_free hnext rfl] at hnot
    exact absurd hsees hnot
  | writeLoop n i stored =>
    simp only [next] at hnext
    (repeat' split at hnext) <;> cases hnext
    cases ch with
    | nread => rfl
    | nwrite => exact absurd hsees.1 ‹¬ d.pi.full = true›
  | readWait n =>
    simp only [next] at hnext
    (repeat' split at hnext) <;> cases hnext
    exact absurd hsees hnot
  | readLoop n i =>
    simp only [next] at hnext
    split at hnext <;> cases hnext
    rename_i hloop
    cases ch with
    | nread =>
      simp only [Bool.and_eq_true, Bool.not_eq_true'] at hloop
      rw [hsees.1] at hloop
      cases hloop.2
    | nwrite => split <;> trivial
  | close writable =>
    cases hnext
    cases ch <;> cases writable <;> first | rfl | exact absurd hsees hnot
  | _ => cases hnext

/-- What a process that owes a call of `wakeup` does next, unless it finds itself killed. -/
theorem next_of_owes {killed : Bool} {loc : Loc} {ch : Ch} (input : Outside) (howes : loc.Owes ch)
    (hsees : loc.Sees d.pi)
    (hkilled : ∀ n i, loc = .writeLoop n i true → i < n → killed = false) :
    (∃ loc', next d killed loc input = .wakeup ch loc') ∨
      ∃ d' loc', next d killed loc input = .store d' loc' ∧ loc'.Owes ch := by
  cases loc with
  | writeLoop n i stored =>
    cases ch with
    | nwrite => cases howes
    | nread =>
      obtain rfl : stored = true := howes
      simp only [next]
      split
      · rename_i hi
        simp only [hsees rfl, hkilled n i rfl hi, Bool.not_true, Bool.or_self,
          Bool.false_eq_true, if_false]
        split
        · exact .inl ⟨_, rfl⟩
        · split
          · exact .inl ⟨_, rfl⟩
          · exact .inr ⟨_, _, rfl, rfl⟩
      · exact .inl ⟨_, rfl⟩
  | readLoop n i =>
    cases ch with
    | nread => cases howes
    | nwrite =>
      simp only [next]
      split
      · refine .inr ⟨_, _, rfl, ?_⟩
        split <;> trivial
      · exact .inl ⟨_, rfl⟩
  | readBreak i =>
    cases ch with
    | nread => cases howes
    | nwrite => exact .inl ⟨_, rfl⟩
  | closeWake writable =>
    cases ch <;>
    · cases howes
      exact .inl ⟨_, rfl⟩
  | _ => cases ch <;> cases howes

/-- A writer that has stored a byte since it took the lock finds itself killed at the head of the
loop of `pipewrite`. -/
def killedMidway (s : State kernel Cpu) (c : Cpu) : Bool :=
  match s.thread c with
  | .exec p =>
    match (s.mem.proc p).code with
    | .at (.client (.writeLoop n i true) _) => i < n && (s.mem.proc p).killed
    | _ => false
  | .sched _ => false

/-- A step, unless it is taken by such a writer. -/
def stepUnlessKilled (s : State kernel Cpu) (action : Cpu × Process.Input kernel) :
    Except Stop (State kernel Cpu) :=
  if killedMidway s action.1 then .error .disabled else step s action

/-- The waiters on a channel are not forgotten. -/
def Tended (s : State kernel Cpu) (ch : Ch) : Prop :=
  NoLost s (.other ch) (.other ()) (¬ ch.Sees s.mem.data.pi) fun p ↦ Owes ch (s.mem.proc p).code

/-- A process that owes a call of `wakeup` keeps the lock until it makes the call. -/
theorem owes_step (hsees : ∀ p, Sees s.mem.data.pi (s.mem.proc p).code)
    (hstep : Steps s c s') (hcalm : killedMidway s c = false) {ch : Ch} (hp : s.thread c = .exec p)
    (howes : Owes ch (s.mem.proc p).code) :
    s'.lock = s.lock ∧ (Owes ch (s'.mem.proc p).code ∨
      (s'.mem.proc p).code.startsWakeup (.other ch) = true) := by
  have hlocal := hsees p
  generalize hcode : (s.mem.proc p).code = code at howes hlocal
  unfold Owes at howes
  split at howes
  · rename_i loc held
    obtain ⟨rfl, hloc⟩ := hlocal
    obtain ⟨input, heffect⟩ := hstep.effect hp
    rw [hcode] at heffect
    cases input with
    | timer =>
      -- A process with a lock is not preempted.
      simp [Code.op, Point.unlocked, howes.held, Op.Effect] at heffect
    | go input fail =>
      have hkilled : ∀ n i, loc = .writeLoop n i true → i < n → (s.mem.proc p).killed = false := by
        rintro n i rfl hi
        simpa [killedMidway, hp, hcode, hi] using hcalm
      simp only [Code.op, pointOp, clientOp] at heffect
      rcases next_of_owes input howes hloc hkilled with ⟨loc', hnext⟩ | ⟨d', loc', hnext, howes'⟩
      · rw [hnext] at heffect
        obtain rfl := heffect
        exact ⟨rfl, .inr (by simp [State.setMem, Memory.setCode, Code.startsWakeup])⟩
      · rw [hnext] at heffect
        obtain rfl := heffect
        exact ⟨rfl, .inl (by simpa [State.setMem, Memory.setCode, Owes] using howes')⟩
  · cases howes

theorem Tended.step (h : Inv s) (hsees : ∀ p, Sees s.mem.data.pi (s.mem.proc p).code)
    (hstep : Steps s c s') (hcalm : killedMidway s c = false) {ch : Ch} (htended : Tended s ch) :
    Tended s' ch := by
  refine NoLost.step h hstep htended (fun q r hq hcode ↦ ?_) (fun hcond' hcond ↦ ?_)
    fun c' p hthread hlock howes ↦ ?_
  · have hlocal := hsees q
    rw [hcode] at hlocal
    exact not_not_intro hlocal.2.2
  · rcases hstep.data with hsame | ⟨p, loc, held, input, loc', hp, hcode, hstore, hcode'⟩
    · rw [hsame] at hcond'
      exact absurd hcond' hcond
    · obtain ⟨howes, hheld⟩ := owes_of_store hstore (not_not.mp hcond) hcond'
      have hlocal := hsees p
      rw [hcode] at hlocal
      have hthread : s'.thread c = .exec p :=
        h.exec_of_step hstep hp (by simp [hcode', Code.Resumes])
      refine ⟨((h.step hstep).lock c _).mpr ?_, fun p' hp' ↦ .inl ?_⟩
      · rw [hthread, Thread.Holds, hcode']
        obtain ⟨rfl, -⟩ := hlocal
        exact Loc.holds_of_held hheld
      · rw [Thread.exec.inj (hp'.symm.trans hthread), hcode']
        exact howes
  · by_cases hc : c' = c
    · subst hc
      obtain ⟨hsame, hgoes⟩ := owes_step hsees hstep hcalm hthread howes
      exact ⟨hsame ▸ hlock, hgoes⟩
    · refine ⟨hstep.lock_other hc hlock, .inl ?_⟩
      rwa [h.code_running hstep hc hthread]

/-- The invariant of the waiters. -/
structure Waiters (s : State kernel Cpu) : Prop where
  inv : Inv s
  sees : ∀ p, Sees s.mem.data.pi (s.mem.proc p).code
  tended : ∀ ch, Tended s ch

omit [DecidableEq Cpu] in
theorem Waiters.boot (data : Fin PIPESIZE → UInt8) :
    Waiters (boot kernel Cpu (pipealloc data)) where
  inv := .boot _
  sees p := by
    by_cases hp : p = initproc <;> simp [Process.boot, hp, Sees, PointSees]
  tended ch _ q hwaits := by
    by_cases hq : q = initproc <;> simp [Process.boot, Waits, hq] at hwaits

theorem Waiters.of_run {data : Fin PIPESIZE → UInt8} {actions : List (Cpu × Process.Input kernel)}
    (hrun : run stepUnlessKilled (Process.boot kernel Cpu (pipealloc data)) actions = .ok s) :
    Waiters s := by
  refine run_induction stepUnlessKilled (P := fun _ s ↦ Waiters s) (.boot data) ?_ hrun
  intro _ ⟨c, input⟩ s s' _ h hstep
  unfold stepUnlessKilled at hstep
  split at hstep
  · cases hstep
  · rename_i hcalm
    have hsteps := step_steps hstep
    exact ⟨h.inv.step hsteps, sees_step h.inv h.sees hsteps,
      fun ch ↦ (h.tended ch).step h.inv h.sees hsteps (by simpa using hcalm)⟩

/-- In every run in which no writer that has stored a byte since it took the lock finds itself killed
at the head of the loop of `pipewrite`: while `pi->lock` is free, nobody sleeps on `&pi->nread` unless
the pipe is empty and open for writing, nor on `&pi->nwrite` unless it is full and open for
reading. -/
theorem waiters_never_stranded {data : Fin PIPESIZE → UInt8}
    {actions : List (Cpu × Process.Input kernel)}
    (hrun : run stepUnlessKilled (boot kernel Cpu (pipealloc data)) actions = .ok s)
    (hlock : s.lock (.cond (.other ())) = none) (q : Fin NPROC)
    (hsleep : (s.mem.proc q).state = .sleeping) :
    ((s.mem.proc q).chan = some (.other .nread) →
      s.mem.data.pi.nread = s.mem.data.pi.nwrite ∧ s.mem.data.pi.writeopen = true) ∧
    ((s.mem.proc q).chan = some (.other .nwrite) →
      s.mem.data.pi.nwrite = s.mem.data.pi.nread + UInt32.ofNat PIPESIZE ∧
        s.mem.data.pi.readopen = true) := by
  have hsees : ∀ ch, (s.mem.proc q).chan = some (.other ch) → ch.Sees s.mem.data.pi := by
    intro ch hchan
    by_contra hnot
    obtain ⟨c, p, -, hheld, -⟩ := (Waiters.of_run hrun).tended ch hnot q (.inl ⟨hsleep, hchan⟩)
    rw [hlock] at hheld
    cases hheld
  refine ⟨fun hchan ↦ ?_, fun hchan ↦ ?_⟩
  · simpa [Ch.Sees, Pipe.empty] using hsees .nread hchan
  · simpa [Ch.Sees, Pipe.full] using hsees .nwrite hchan

/-- The first process forks a reader, which goes to sleep, and a writer. -/
def sleepRun : List (Bool × Process.Input kernel) :=
  let go (c : Bool) (request : Request) : Bool × Process.Input kernel :=
    (c, .go { request := request, copyin := some 42, copyout := true } false)
  -- The call does not matter while one is in progress.
  let steps (c : Bool) (n : ℕ) := List.replicate n (go c .fork)
  steps false 4 ++ [go false .fork] ++ steps false 13 ++ [go false .fork] ++ steps false 16 ++
    steps true 7 ++ [go true (.read 1)] ++ steps true 11

/-- The writer stores one of two bytes; then it is killed by the first process. -/
def killRun : List (Bool × Process.Input kernel) :=
  let go (c : Bool) (request : Request) : Bool × Process.Input kernel :=
    (c, .go { request := request, copyin := some 42, copyout := true } false)
  let steps (c : Bool) (n : ℕ) := List.replicate n (go c .fork)
  sleepRun ++ [go true (.write 2)] ++ steps true 1 ++ [go false (.kill 3)] ++ steps false 9 ++
    steps true 1

/-- The reader sleeps while the pipe is empty. -/
theorem waiters_never_stranded_reader :
    ∃ s, run stepUnlessKilled (boot kernel Bool (pipealloc fun _ ↦ 0)) sleepRun = .ok s ∧
      (s.mem.proc 1).state = .sleeping ∧ (s.mem.proc 1).chan = some (.other .nread) ∧
      s.mem.data.pi.nread = s.mem.data.pi.nwrite ∧ s.mem.data.pi.writeopen = true := by
  have hyields : yields (run stepUnlessKilled (boot kernel Bool (pipealloc fun _ ↦ 0)) sleepRun)
      (fun s ↦ s.lock (.cond (.other ())) = none ∧ (s.mem.proc 1).state = .sleeping ∧
        (s.mem.proc 1).chan = some (.other .nread)) = true := by decide +kernel
  obtain ⟨s, hrun, hlock, hsleep, hchan⟩ := exists_of_yields hyields
  exact ⟨s, hrun, hsleep, hchan, (waiters_never_stranded hrun hlock 1 hsleep).1 hchan⟩

/-- After the writer has returned, the lock is free and there is a byte in the pipe, and the reader
sleeps. -/
theorem killed_writer_strands_reader :
    ∃ s, run step (boot kernel Bool (pipealloc fun _ ↦ 0)) killRun = .ok s ∧
      s.lock (.cond (.other ())) = none ∧ (s.mem.proc 1).state = .sleeping ∧
      (s.mem.proc 1).chan = some (.other .nread) ∧
      s.mem.data.pi.nread ≠ s.mem.data.pi.nwrite := by
  have hyields : yields (run step (boot kernel Bool (pipealloc fun _ ↦ 0)) killRun)
      (fun s ↦ s.lock (.cond (.other ())) = none ∧ (s.mem.proc 1).state = .sleeping ∧
        (s.mem.proc 1).chan = some (.other .nread) ∧
        s.mem.data.pi.nread ≠ s.mem.data.pi.nwrite) = true := by decide +kernel
  exact exists_of_yields hyields

end Xv6.Pipes
