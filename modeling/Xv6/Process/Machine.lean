import Mathlib.Data.Fintype.Basic
import Mathlib.Logic.Function.Basic
import Xv6.Panic
import Xv6.Param

/-!
# Processes, CPUs and Spin Locks

A model of `kernel/proc.c`: `sleep`, `wakeup`, `kill`, `yield`, `sched`, `scheduler`, `fork`,
`exit` and `wait`, run by any number of CPUs.  A step is taken by the thread that runs on one CPU.
Every `acquire` and every `release` of a spin lock is a step of its own, and so is every `swtch`;
the stores and tests between two of them are grouped where they read and write memory that the
thread has locked.

The rest of the kernel is a parameter, a `Client`: code that takes locks, changes its own data and
calls the functions modelled here.  A process may be preempted wherever it holds no spin lock.
-/

namespace Xv6.Process

/-- `enum procstate`. -/
inductive ProcState where
  | unused
  | used
  | sleeping
  | runnable
  | running
  | zombie
  deriving DecidableEq

/-- The fields of `struct proc` that only the process itself changes: `sz`, `ofile` and `cwd`. -/
structure Own where
  sz : ℕ
  ofile : Fin NOFILE → Option (Fin NFILE)
  cwd : Option (Fin NINODE)

/-- What the rest of the kernel does next, and where it goes on: take or release a lock, change
data, change the size, the open files or the current directory of the process, or call a function of
`proc.c`. -/
inductive Call (Loc Data Lk Ch : Type) where
  | acquire (lk : Lk) (k : Loc)
  | release (lk : Lk) (k : Loc)
  | store (data : Data) (k : Loc)
  | setOwn (own : Own) (k : Loc)
  | sleep (ch : Ch) (lk : Lk) (k : Loc)
  | wakeup (ch : Ch) (k : Loc)
  | kill (pid : Int32) (k : ℤ → Loc)
  | fork (k : ℤ → Loc)
  | exit (status : ℤ)
  | wait (addr : ℕ) (k : ℤ → Loc)

/-- The rest of the kernel: where a process can be in its code, the data, the locks and the
channels it uses, and what it does next.  The code sees the data, `p->killed`, and an input. -/
structure Client where
  Loc : Type
  Data : Type
  Lk : Type
  Ch : Type
  Input : Type
  [decLk : DecidableEq Lk]
  [decCh : DecidableEq Ch]
  start : Loc
  next : Data → Bool → Loc → Input → Call Loc Data Lk Ch

attribute [instance] Client.decLk Client.decCh

/-- The client that makes any calls, as the input says. -/
def Client.any (Data Lk Ch : Type) [DecidableEq Lk] [DecidableEq Ch] : Client where
  Loc := Unit
  Data := Data
  Lk := Lk
  Ch := Ch
  Input := Call Unit Data Lk Ch
  start := ()
  next _ _ _ input := input

/-- The address that a process sleeps on: its own entry in the process table, in `wait`, or an
address of the client. -/
inductive Chan (Ch : Type) where
  | proc (p : Fin NPROC)
  | other (ch : Ch)
  deriving DecidableEq

/-- A lock that is passed to `sleep`. -/
inductive CondLock (Lk : Type) where
  | wait
  | other (lk : Lk)
  deriving DecidableEq

/-- A spin lock: `p->lock`, or another one. -/
inductive Lock (Lk : Type) where
  | proc (p : Fin NPROC)
  | cond (lk : CondLock Lk)
  deriving DecidableEq

/-- The first process. -/
def initproc : Fin NPROC := ⟨0, NPROC_pos⟩

section Code

variable (K : Client)

/-- Where `sleep` returns to: the client, with one lock, or the loop of `wait`. -/
inductive SleepRet where
  | client (loc : K.Loc) (lk : K.Lk)
  | wait (addr : ℕ) (k : ℤ → K.Loc)

/-- Where `wakeup` returns to: the client, the loop of `reparent`, or `exit`. -/
inductive WakeRet where
  | client (loc : K.Loc) (held : List K.Lk)
  | reparent (i : ℕ) (status : ℤ)
  | exit (status : ℤ)

/-- Where a process is.  The names of the points are those of the functions; an index is the place
of a loop in the process table. -/
inductive Point where
  | client (loc : K.Loc) (held : List K.Lk)
  | forkret
  | sleepAcquire (ch : Chan K.Ch) (r : SleepRet K)
  | sleepRelease (ch : Chan K.Ch) (r : SleepRet K)
  | sleepSet (ch : Chan K.Ch) (r : SleepRet K)
  | sleepSched (ch : Chan K.Ch) (r : SleepRet K)
  | sleepTidy (r : SleepRet K)
  | sleepUnlock (r : SleepRet K)
  | sleepReacquire (r : SleepRet K)
  | wakeupLoop (ch : Option (Chan K.Ch)) (i : ℕ) (r : WakeRet K)
  | wakeupTest (ch : Option (Chan K.Ch)) (q : Fin NPROC) (r : WakeRet K)
  | wakeupRelease (ch : Option (Chan K.Ch)) (q : Fin NPROC) (r : WakeRet K)
  | killLoop (pid : Int32) (i : ℕ) (k : ℤ → K.Loc)
  | killTest (pid : Int32) (q : Fin NPROC) (k : ℤ → K.Loc)
  | killNext (pid : Int32) (q : Fin NPROC) (k : ℤ → K.Loc)
  | killDone (q : Fin NPROC) (k : ℤ → K.Loc)
  | allocLoop (i : ℕ) (k : ℤ → K.Loc)
  | allocTest (q : Fin NPROC) (k : ℤ → K.Loc)
  | allocNext (q : Fin NPROC) (k : ℤ → K.Loc)
  | forkCopy (q : Fin NPROC) (k : ℤ → K.Loc)
  | forkFail (q : Fin NPROC) (k : ℤ → K.Loc)
  | forkRelease (q : Fin NPROC) (k : ℤ → K.Loc)
  | forkWait (q : Fin NPROC) (pid : Int32) (k : ℤ → K.Loc)
  | forkParent (q : Fin NPROC) (pid : Int32) (k : ℤ → K.Loc)
  | forkUnwait (q : Fin NPROC) (pid : Int32) (k : ℤ → K.Loc)
  | forkLock (q : Fin NPROC) (pid : Int32) (k : ℤ → K.Loc)
  | forkRunnable (q : Fin NPROC) (pid : Int32) (k : ℤ → K.Loc)
  | forkDone (q : Fin NPROC) (pid : Int32) (k : ℤ → K.Loc)
  | exitWait (status : ℤ)
  | reparent (i : ℕ) (status : ℤ)
  | exitLock (status : ℤ)
  | exitZombie (status : ℤ)
  | exitUnwait
  | exitSched
  | exitDead
  | waitStart (addr : ℕ) (k : ℤ → K.Loc)
  | waitScan (addr i : ℕ) (havekids : Bool) (k : ℤ → K.Loc)
  | waitTest (addr : ℕ) (q : Fin NPROC) (k : ℤ → K.Loc)
  | waitNext (addr : ℕ) (q : Fin NPROC) (k : ℤ → K.Loc)
  | waitFound (q : Fin NPROC) (result : ℤ) (k : ℤ → K.Loc)
  | waitReturn (result : ℤ) (k : ℤ → K.Loc)

variable {K} in
/-- Whether a process holds no spin lock at a point, so that interrupts are on. -/
def Point.unlocked : Point K → Bool
  | .client _ held => held.isEmpty
  | .sleepReacquire _ | .killLoop _ _ _ | .allocLoop _ _ | .forkWait _ _ _ | .forkLock _ _ _
  | .exitWait _ | .waitStart _ _ => true
  | _ => false

/-- A point where a process can be preempted. -/
structure Idle where
  point : Point K
  unlocked : point.unlocked = true

/-- Where a process is, including `yield`, which returns to where the process was preempted. -/
inductive Code where
  | at (b : Point K)
  | yieldAcquire (b : Idle K)
  | yieldSet (b : Idle K)
  | yieldSched (b : Idle K)
  | yieldRelease (b : Idle K)

end Code

variable {K : Client}

namespace SleepRet

/-- The lock that `sleep` releases and takes again. -/
def lk : SleepRet K → CondLock K.Lk
  | .client _ lk => .other lk
  | .wait _ _ => .wait

def point : SleepRet K → Point K
  | .client loc lk => .client loc [lk]
  | .wait addr k => .waitScan addr 0 false k

end SleepRet

def WakeRet.point : WakeRet K → Point K
  | .client loc held => .client loc held
  | .reparent i status => .reparent i status
  | .exit status => .exitLock status

/-! ## Memory -/

/-- `struct proc`.  Of the trapframe and the page table it says whether there is one.  The code is
where the process is: its program counter and kernel stack, and, when it does not run, `p->context`;
`saved` says that `p->context` is complete. -/
structure Proc (K : Client) where
  state : ProcState
  chan : Option (Chan K.Ch)
  killed : Bool
  xstate : ℤ
  pid : Int32
  parent : Option (Fin NPROC)
  trapframe : Bool
  pagetable : Bool
  own : Own
  code : Code K
  saved : Bool

/-- A call of `wait` that reaped a child: who made it, with which address, the fields of the child at
that moment, the result, and the status that was copied out. -/
structure Reap where
  caller : Fin NPROC
  addr : ℕ
  parent : Option (Fin NPROC)
  creator : Option (Fin NPROC)
  orphan : Bool
  result : ℤ
  copied : Option ℤ

/-- A call of `wait` that returned -1: who made it, whether that process was killed, whether it had
a child, and whether the copy failed. -/
structure Refusal where
  caller : Fin NPROC
  killed : Bool
  child : Bool
  copyFailed : Bool

/-- What has happened: the exits from each entry of the table with their pid and status, the calls
of `wait` that reaped it, the calls that returned -1, and for each process the one that forked it
and whether that one has exited.  No code reads this. -/
structure History where
  exits : Fin NPROC → List (Int32 × ℤ)
  reaps : Fin NPROC → List Reap
  refusals : List Refusal
  creator : Fin NPROC → Option (Fin NPROC)
  orphan : Fin NPROC → Bool

/-- The memory that the CPUs share. -/
structure Memory (K : Client) where
  proc : Fin NPROC → Proc K
  nextpid : Int32
  data : K.Data
  history : History

namespace Memory

def setProc (m : Memory K) (p : Fin NPROC) (v : Proc K) : Memory K :=
  { m with proc := Function.update m.proc p v }

def setCode (m : Memory K) (p : Fin NPROC) (code : Code K) : Memory K :=
  m.setProc p { m.proc p with code := code }

def setState (m : Memory K) (p : Fin NPROC) (state : ProcState) : Memory K :=
  m.setProc p { m.proc p with state := state }

/-- `allocpid`, and the state of a process that is being made. -/
def allocpid (m : Memory K) (q : Fin NPROC) : Memory K :=
  { m.setProc q { m.proc q with pid := m.nextpid, state := .used } with nextpid := m.nextpid + 1 }

/-- The end of `allocproc`: a trapframe, a page table, and a context that starts in `forkret`. -/
def setContext (m : Memory K) (q : Fin NPROC) : Memory K :=
  m.setProc q { m.proc q with trapframe := true, pagetable := true, code := .at .forkret,
                              saved := true }

/-- `freeproc`.  It leaves `ofile` and `cwd` alone. -/
def freeproc (m : Memory K) (q : Fin NPROC) : Memory K :=
  m.setProc q { m.proc q with trapframe := false, pagetable := false,
                              own := { (m.proc q).own with sz := 0 }, pid := 0, parent := none,
                              chan := none, killed := false, xstate := 0, state := .unused }

/-- `fork` copies the size, the open files and the current directory. -/
def copyOwn (m : Memory K) (q p : Fin NPROC) : Memory K :=
  m.setProc q { m.proc q with
    own := { sz := (m.proc p).own.sz
             ofile := fun i ↦ ((m.proc p).own.ofile i).or ((m.proc q).own.ofile i)
             cwd := (m.proc p).own.cwd } }

/-- `exit` closes the open files and gives up the current directory. -/
def closeAll (m : Memory K) (p : Fin NPROC) : Memory K :=
  m.setProc p { m.proc p with own := { (m.proc p).own with ofile := fun _ ↦ none, cwd := none } }

/-- `np->parent = p` in `fork`. -/
def setParent (m : Memory K) (q p : Fin NPROC) : Memory K :=
  { m.setProc q { m.proc q with parent := some p } with
    history := { m.history with
      creator := Function.update m.history.creator q (some p)
      orphan := Function.update m.history.orphan q false } }

/-- `p->state = ZOMBIE` in `exit`. -/
def setZombie (m : Memory K) (p : Fin NPROC) (status : ℤ) : Memory K :=
  { m.setProc p { m.proc p with xstate := status, state := .zombie } with
    history := { m.history with
      exits := Function.update m.history.exits p
        (m.history.exits p ++ [((m.proc p).pid, status)])
      orphan := fun q ↦ m.history.orphan q || decide (m.history.creator q = some p) } }

/-- `wait` reaps `q`. -/
def reap (m : Memory K) (p q : Fin NPROC) (addr : ℕ) : Memory K :=
  { m.freeproc q with
    history := { m.history with
      reaps := Function.update m.history.reaps q (m.history.reaps q ++
        [{ caller := p, addr := addr, parent := (m.proc q).parent, creator := m.history.creator q,
           orphan := m.history.orphan q, result := (m.proc q).pid.toInt,
           copied := if addr = 0 then none else some (m.proc q).xstate }]) } }

/-- `wait` returns -1. -/
def refuse (m : Memory K) (p : Fin NPROC) (copyFailed : Bool) : Memory K :=
  { m with history := { m.history with refusals := m.history.refusals ++
      [{ caller := p, killed := (m.proc p).killed,
         child := decide (∃ q, (m.proc q).parent = some p), copyFailed := copyFailed }] } }

end Memory

/-! ## The code -/

/-- What a thread does next. -/
inductive Op (K : Client) where
  | acquire (l : Lock K.Lk) (k : Code K)
  | release (l : Lock K.Lk) (k : Code K)
  | store (m : Memory K) (k : Code K)
  | swtch (k : Code K)
  | stop (stop : Stop)

/-- The inputs of a step: a timer interrupt, or the input of the client and whether an allocation
or a copy to user memory fails. -/
inductive Input (K : Client) where
  | timer
  | go (input : K.Input) (fail : Bool)

/-- Go on without a change of memory. -/
def goto (m : Memory K) (b : Point K) : Op K := .store m (.at b)

/-- The code of the client.  `sleep` is called with one lock: else `sched` panics.  The system calls
are made without locks. -/
def clientOp (m : Memory K) (p : Fin NPROC) (input : K.Input) (loc : K.Loc) (held : List K.Lk) :
    Op K :=
  match K.next m.data (m.proc p).killed loc input with
  | .acquire lk k => .acquire (.cond (.other lk)) (.at (.client k (lk :: held)))
  | .release lk k => .release (.cond (.other lk)) (.at (.client k (held.filter (· ≠ lk))))
  | .store data k => .store { m with data := data } (.at (.client k held))
  | .setOwn own k => .store (m.setProc p { m.proc p with own := own }) (.at (.client k held))
  | .sleep ch lk k =>
    if held = [lk] then goto m (.sleepAcquire (.other ch) (.client k lk))
    else .stop (.panic .schedLocks)
  | .wakeup ch k => goto m (.wakeupLoop (some (.other ch)) 0 (.client k held))
  | .kill pid k => if held = [] then goto m (.killLoop pid 0 k) else .stop .disabled
  | .fork k => if held = [] then goto m (.allocLoop 0 k) else .stop .disabled
  | .exit status =>
    if held = [] then
      if p = initproc then .stop (.panic .initExiting)
      else .store (m.closeAll p) (.at (.exitWait status))
    else .stop .disabled
  | .wait addr k => if held = [] then goto m (.waitStart addr k) else .stop .disabled

/-- What process `p` does next at a point. -/
def pointOp (m : Memory K) (p : Fin NPROC) (input : K.Input) (fail : Bool) : Point K → Op K
  | .client loc held => clientOp m p input loc held
  | .forkret => .release (.proc p) (.at (.client K.start []))
  -- `sleep`
  | .sleepAcquire ch r => .acquire (.proc p) (.at (.sleepRelease ch r))
  | .sleepRelease ch r => .release (.cond r.lk) (.at (.sleepSet ch r))
  | .sleepSet ch r =>
    .store (m.setProc p { m.proc p with chan := some ch, state := .sleeping })
      (.at (.sleepSched ch r))
  | .sleepSched _ r => .swtch (.at (.sleepTidy r))
  | .sleepTidy r => .store (m.setProc p { m.proc p with chan := none }) (.at (.sleepUnlock r))
  | .sleepUnlock r => .release (.proc p) (.at (.sleepReacquire r))
  | .sleepReacquire r => .acquire (.cond r.lk) (.at r.point)
  -- `wakeup`
  | .wakeupLoop ch i r =>
    if h : i < NPROC then
      if ⟨i, h⟩ = p then goto m (.wakeupLoop ch (i + 1) r)
      else .acquire (.proc ⟨i, h⟩) (.at (.wakeupTest ch ⟨i, h⟩ r))
    else goto m r.point
  | .wakeupTest ch q r =>
    if (m.proc q).state = .sleeping ∧ (m.proc q).chan = ch then
      .store (m.setState q .runnable) (.at (.wakeupRelease ch q r))
    else goto m (.wakeupRelease ch q r)
  | .wakeupRelease ch q r => .release (.proc q) (.at (.wakeupLoop ch (q + 1) r))
  -- `kill`
  | .killLoop pid i k =>
    if h : i < NPROC then .acquire (.proc ⟨i, h⟩) (.at (.killTest pid ⟨i, h⟩ k))
    else goto m (.client (k (-1)) [])
  | .killTest pid q k =>
    if (m.proc q).pid = pid then
      .store (m.setProc q { m.proc q with
          killed := true
          state := if (m.proc q).state = .sleeping then .runnable else (m.proc q).state })
        (.at (.killDone q k))
    else goto m (.killNext pid q k)
  | .killNext pid q k => .release (.proc q) (.at (.killLoop pid (q + 1) k))
  | .killDone q k => .release (.proc q) (.at (.client (k 0) []))
  -- `allocproc` and `fork`
  | .allocLoop i k =>
    if h : i < NPROC then .acquire (.proc ⟨i, h⟩) (.at (.allocTest ⟨i, h⟩ k))
    else goto m (.client (k (-1)) [])
  | .allocTest q k =>
    if (m.proc q).state = .unused then
      if fail then .store ((m.allocpid q).freeproc q) (.at (.forkFail q k))
      else .store ((m.allocpid q).setContext q) (.at (.forkCopy q k))
    else goto m (.allocNext q k)
  | .allocNext q k => .release (.proc q) (.at (.allocLoop (q + 1) k))
  | .forkCopy q k =>
    if fail then .store (m.freeproc q) (.at (.forkFail q k))
    else .store (m.copyOwn q p) (.at (.forkRelease q k))
  | .forkFail q k => .release (.proc q) (.at (.client (k (-1)) []))
  | .forkRelease q k => .release (.proc q) (.at (.forkWait q (m.proc q).pid k))
  | .forkWait q pid k => .acquire (.cond .wait) (.at (.forkParent q pid k))
  | .forkParent q pid k => .store (m.setParent q p) (.at (.forkUnwait q pid k))
  | .forkUnwait q pid k => .release (.cond .wait) (.at (.forkLock q pid k))
  | .forkLock q pid k => .acquire (.proc q) (.at (.forkRunnable q pid k))
  | .forkRunnable q pid k => .store (m.setState q .runnable) (.at (.forkDone q pid k))
  | .forkDone q pid k => .release (.proc q) (.at (.client (k pid.toInt) []))
  -- `exit` and `reparent`
  | .exitWait status => .acquire (.cond .wait) (.at (.reparent 0 status))
  | .reparent i status =>
    if h : i < NPROC then
      if (m.proc ⟨i, h⟩).parent = some p then
        .store (m.setProc ⟨i, h⟩ { m.proc ⟨i, h⟩ with parent := some initproc })
          (.at (.wakeupLoop (some (.proc initproc)) 0 (.reparent (i + 1) status)))
      else goto m (.reparent (i + 1) status)
    else goto m (.wakeupLoop ((m.proc p).parent.map .proc) 0 (.exit status))
  | .exitLock status => .acquire (.proc p) (.at (.exitZombie status))
  | .exitZombie status => .store (m.setZombie p status) (.at .exitUnwait)
  | .exitUnwait => .release (.cond .wait) (.at .exitSched)
  | .exitSched => .swtch (.at .exitDead)
  | .exitDead => .stop (.panic .zombieExit)
  -- `wait`
  | .waitStart addr k => .acquire (.cond .wait) (.at (.waitScan addr 0 false k))
  | .waitScan addr i havekids k =>
    if h : i < NPROC then
      if (m.proc ⟨i, h⟩).parent = some p then
        .acquire (.proc ⟨i, h⟩) (.at (.waitTest addr ⟨i, h⟩ k))
      else goto m (.waitScan addr (i + 1) havekids k)
    else if !havekids || (m.proc p).killed then
      .store (m.refuse p false) (.at (.waitReturn (-1) k))
    else goto m (.sleepAcquire (.proc p) (.wait addr k))
  | .waitTest addr q k =>
    if (m.proc q).state = .zombie then
      if addr ≠ 0 ∧ fail then .store (m.refuse p true) (.at (.waitFound q (-1) k))
      else .store (m.reap p q addr) (.at (.waitFound q (m.proc q).pid.toInt k))
    else goto m (.waitNext addr q k)
  | .waitNext addr q k => .release (.proc q) (.at (.waitScan addr (q + 1) true k))
  | .waitFound q result k => .release (.proc q) (.at (.waitReturn result k))
  | .waitReturn result k => .release (.cond .wait) (.at (.client (k result) []))

/-- What process `p` does next. -/
def Code.op (m : Memory K) (p : Fin NPROC) (input : Input K) : Code K → Op K
  | .at b =>
    match input with
    | .timer => if h : b.unlocked then .store m (.yieldAcquire ⟨b, h⟩) else .stop .disabled
    | .go input fail => pointOp m p input fail b
  | .yieldAcquire b => .acquire (.proc p) (.yieldSet b)
  | .yieldSet b => .store (m.setState p .runnable) (.yieldSched b)
  | .yieldSched b => .swtch (.yieldRelease b)
  | .yieldRelease b => .release (.proc p) (.at b.point)

/-! ## The CPUs -/

/-- Where a CPU is in `scheduler`. -/
inductive SchedCode where
  | loop (i : ℕ)
  | test (q : Fin NPROC)
  | switch (q : Fin NPROC)
  | after (q : Fin NPROC)
  | unlock (q : Fin NPROC)
  deriving DecidableEq

/-- The thread that runs on a CPU: its scheduler, or a process. -/
inductive Thread where
  | sched (sc : SchedCode)
  | exec (p : Fin NPROC)
  deriving DecidableEq

/-- The system: the memory, the CPU that holds each spin lock, and the thread and `c->proc` of each
CPU. -/
structure State (K : Client) (Cpu : Type) where
  mem : Memory K
  lock : Lock K.Lk → Option Cpu
  thread : Cpu → Thread
  cproc : Cpu → Option (Fin NPROC)

section Step

variable {Cpu : Type} [DecidableEq Cpu]

namespace State

/-- `acquire`: it spins while another CPU has the lock. -/
def acquire (s : State K Cpu) (c : Cpu) (l : Lock K.Lk) : Except Stop (State K Cpu) :=
  match s.lock l with
  | none => .ok { s with lock := Function.update s.lock l (some c) }
  | some c' => .error (if c' = c then .panic .acquireHeld else .disabled)

/-- `release`. -/
def release (s : State K Cpu) (c : Cpu) (l : Lock K.Lk) : Except Stop (State K Cpu) :=
  if s.lock l = some c then .ok { s with lock := Function.update s.lock l none }
  else .error (.panic .releaseNotHeld)

def setThread (s : State K Cpu) (c : Cpu) (thread : Thread) : State K Cpu :=
  { s with thread := Function.update s.thread c thread }

def setMem (s : State K Cpu) (mem : Memory K) : State K Cpu := { s with mem := mem }

def setCproc (s : State K Cpu) (c : Cpu) (p : Option (Fin NPROC)) : State K Cpu :=
  { s with cproc := Function.update s.cproc c p }

end State

/-- A step of `scheduler` on CPU `c`. -/
def schedStep (s : State K Cpu) (c : Cpu) : SchedCode → Except Stop (State K Cpu)
  | .loop i =>
    if h : i < NPROC then do
      let s ← s.acquire c (.proc ⟨i, h⟩)
      return s.setThread c (.sched (.test ⟨i, h⟩))
    else return s.setThread c (.sched (.loop 0))
  | .test q =>
    if (s.mem.proc q).state = .runnable then
      return ((s.setMem (s.mem.setState q .running)).setCproc c (some q)).setThread c
        (.sched (.switch q))
    else return s.setThread c (.sched (.unlock q))
  -- `swtch` to the process: its saved context is used up.
  | .switch q =>
    return (s.setMem (s.mem.setProc q { s.mem.proc q with saved := false })).setThread c (.exec q)
  | .after q => return (s.setCproc c none).setThread c (.sched (.unlock q))
  | .unlock q => do
      let s ← s.release c (.proc q)
      return s.setThread c (.sched (.loop (q + 1)))

/-- `sched`, called by process `p`: `swtch` to the scheduler of the CPU, to go on at `k` later. -/
def sched (s : State K Cpu) (c : Cpu) (p : Fin NPROC) (k : Code K) : Except Stop (State K Cpu) :=
  if s.lock (.proc p) ≠ some c then .error (.panic .schedLock)
  else if (s.mem.proc p).state = .running then .error (.panic .schedRunning)
  else .ok ((s.setMem (s.mem.setProc p { s.mem.proc p with code := k, saved := true })).setThread c
    (.sched (.after p)))

/-- A step of process `p` on CPU `c`. -/
def execStep (s : State K Cpu) (c : Cpu) (p : Fin NPROC) (input : Input K) :
    Except Stop (State K Cpu) :=
  match (s.mem.proc p).code.op s.mem p input with
  | .acquire l k => do
      let s ← s.acquire c l
      return s.setMem (s.mem.setCode p k)
  | .release l k => do
      let s ← s.release c l
      return s.setMem (s.mem.setCode p k)
  | .store m k => return s.setMem (m.setCode p k)
  | .swtch k => sched s c p k
  | .stop stop => .error stop

/-- A step of CPU `c`. -/
def step (s : State K Cpu) (action : Cpu × Input K) : Except Stop (State K Cpu) :=
  match s.thread action.1 with
  | .sched sc => schedStep s action.1 sc
  | .exec p => execStep s action.1 p action.2

/-- The system after `userinit`: the first process is ready to run, and the CPUs enter
`scheduler`. -/
def boot (K : Client) (Cpu : Type) (data : K.Data) : State K Cpu where
  mem :=
    { proc := fun p ↦
        { state := if p = initproc then .runnable else .unused
          chan := none
          killed := false
          xstate := 0
          pid := if p = initproc then 1 else 0
          parent := none
          trapframe := decide (p = initproc)
          pagetable := decide (p = initproc)
          own := { sz := if p = initproc then PGSIZE else 0
                   ofile := fun _ ↦ none
                   cwd := if p = initproc then some ⟨0, NINODE_pos⟩ else none }
          code := if p = initproc then .at .forkret else .at .exitDead
          saved := decide (p = initproc) }
      nextpid := 2
      data := data
      history := { exits := fun _ ↦ [], reaps := fun _ ↦ [], refusals := [],
                   creator := fun _ ↦ none, orphan := fun _ ↦ false } }
  lock _ := none
  thread _ := .sched (.loop 0)
  cproc _ := none

end Step

end Xv6.Process
