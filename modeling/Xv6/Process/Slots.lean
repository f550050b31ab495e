import Xv6.Process.Wakeup

/-!
# Free Entries of the Process Table

`allocproc` takes an entry as `freeproc` and `exit` have left it, and `kill` looks for a pid in all
entries, whatever their state.  As long as no process calls `kill` with pid 0, the entries that are
not in use are clean, and `kill` only hits processes.
-/

namespace Xv6.Process

open Lib

variable {K : Client} {Cpu : Type} {s s' : State K Cpu} {c c' : Cpu} {m m' : Memory K}
  {p q : Fin NPROC} {input : Input K} {code k : Code K} {v w : Proc K} {pid : Int32}

/-- No open file and no current directory. -/
def Own.Closed (own : Own) : Prop := (∀ fd, own.ofile fd = none) ∧ own.cwd = none

/-- An entry whose fields are all zero. -/
structure Proc.Clean (v : Proc K) : Prop where
  pid : v.pid = 0
  sz : v.own.sz = 0
  trapframe : v.trapframe = false
  pagetable : v.pagetable = false
  parent : v.parent = none
  chan : v.chan = none
  killed : v.killed = false
  xstate : v.xstate = 0
  closed : v.own.Closed

/-! ## Where files are closed -/

def WakeRet.Exits : WakeRet K → Prop
  | .client _ _ => False
  | .reparent _ _ | .exit _ => True

/-- `exit` has closed the files. -/
def Point.Exits : Point K → Prop
  | .exitWait _ | .reparent _ _ | .exitLock _ | .exitZombie _ | .exitUnwait | .exitSched
  | .exitDead => True
  | .wakeupLoop _ _ r | .wakeupTest _ _ r | .wakeupRelease _ _ r => r.Exits
  | _ => False

def Code.Exits : Code K → Prop
  | .at b => b.Exits
  | .yieldAcquire b | .yieldSet b | .yieldSched b | .yieldRelease b => b.point.Exits

/-- A process that goes on in `exit` was there before, with the same files, or closes them. -/
theorem exits_result (h : (code.op m p input).result m = some (m', k)) (hk : k.Exits) :
    (m'.proc p).own.Closed ∨ code.Exits ∧ (m'.proc p).own = (m.proc p).own := by
  cases code with
  | «at» b =>
    cases input with
    | timer =>
      simp only [Code.op] at h
      split at h <;> cases h
      exact .inr ⟨hk, rfl⟩
    | go input fail =>
      cases b with
      | client loc held =>
        simp only [Code.op, pointOp, clientOp, goto] at h
        (repeat' split at h) <;> cases h <;>
          first
            | exact False.elim hk
            | exact .inl (by simp [Memory.closeAll, Own.Closed])
      | wakeupLoop ch i r =>
        simp only [Code.op, pointOp, goto] at h
        (repeat' split at h) <;> cases h
        · exact .inr ⟨hk, rfl⟩
        · exact .inr ⟨hk, rfl⟩
        · cases r with
          | client loc held => cases hk
          | _ => exact .inr ⟨trivial, rfl⟩
      | sleepReacquire r => cases r <;> cases h <;> cases hk
      | _ =>
        simp only [Code.op, pointOp, goto] at h
        (repeat' split at h) <;> cases h <;>
          first
            | exact False.elim hk
            | exact .inr ⟨hk, rfl⟩
            | refine .inr ⟨hk, ?_⟩
              simp only [Memory.setState, Memory.setZombie, Memory.proc_setProc]
              split <;> simp_all
  | yieldSet b =>
    cases h
    exact .inr ⟨hk, by simp [Memory.setState]⟩
  | _ =>
    cases h
    exact .inr ⟨hk, rfl⟩

/-- Another process is allocated before its files are copied. -/
theorem forkCopy_result {ret : ℤ → K.Loc}
    (h : (code.op m p input).result m = some (m', .at (.forkCopy q ret))) :
    (m.proc q).state = .unused ∧ (m'.proc q).state = .used ∧ (m'.proc q).own = (m.proc q).own ∧
      (m'.proc q).killed = (m.proc q).killed := by
  cases code with
  | «at» b =>
    cases input with
    | timer =>
      simp only [Code.op] at h
      split at h <;> cases h
    | go input fail =>
      cases b with
      | allocTest r ret' =>
        simp only [Code.op, pointOp, goto] at h
        split at h
        · rename_i hunused
          split at h <;> cases h
          simp [hunused, Memory.allocpid, Memory.setContext]
        · cases h
      | wakeupLoop ch i r =>
        simp only [Code.op, pointOp, goto] at h
        (repeat' split at h) <;> cases r <;> cases h
      | sleepReacquire r => cases r <;> cases h
      | _ =>
        simp only [Code.op, pointOp, clientOp, goto] at h
        (repeat' split at h) <;> cases h
  | yieldRelease b =>
    have hb := b.unlocked
    simp only [Code.op, Op.result, Option.some.injEq, Prod.mk.injEq, Code.at.injEq] at h
    rw [h.2] at hb
    cases hb
  | _ => cases h

theorem Code.exits_of_runs (h : code.runs = .zombie) : code.Exits := by
  cases code with
  | «at» b => cases b <;> trivial
  | _ => cases h

/-! ## The invariant -/

/-- Entries that are not in use are clean.  Nothing has been copied to an entry that has just been
allocated, and a process that exits or has exited has closed its files. -/
structure Tidy (m : Memory K) : Prop where
  unused : ∀ q, (m.proc q).state = .unused → (m.proc q).Clean
  used : ∀ q, (m.proc q).state = .used → (m.proc q).code = .at .forkret
  forked : ∀ p q ret, (m.proc p).code = .at (.forkCopy q ret) →
    (m.proc q).own.Closed ∧ (m.proc q).killed = false
  exits : ∀ q, (m.proc q).code.Exits → (m.proc q).state ≠ .unused → (m.proc q).own.Closed
  zombie : ∀ q, (m.proc q).state = .zombie → (m.proc q).own.Closed

namespace Tidy

theorem boot (data : K.Data) : Tidy (boot K Cpu data).mem where
  unused q hq := by
    have hne : q ≠ initproc := by
      rintro rfl
      simp [Process.boot] at hq
    constructor <;> simp [Process.boot, hne, Own.Closed]
  used q hq := by
    simp only [Process.boot] at hq
    split at hq <;> cases hq
  forked p q ret hcode := by
    simp only [Process.boot] at hcode
    split at hcode <;> cases hcode
  exits q hexits hstate := by
    simp only [Process.boot] at hexits hstate
    split at hstate
    · rename_i hq
      rw [if_pos hq] at hexits
      exact False.elim hexits
    · exact absurd rfl hstate
  zombie q hq := by
    simp only [Process.boot] at hq
    split at hq <;> cases hq

/-- A process that is in use goes on, is put aside or is scheduled. -/
theorem set (h : Tidy m) (hstate : w.state ≠ .unused ∧ w.state ≠ .used)
    (hzombie : w.state = .zombie → (m.proc p).state = .zombie)
    (hown : w.own = (m.proc p).own) (hkilled : w.killed = (m.proc p).killed)
    (hexits : w.code.Exits → w.own.Closed)
    (hcopy : ∀ q ret, w.code = .at (.forkCopy q ret) → (m.proc p).code = w.code) :
    Tidy (m.setProc p w) where
  unused q hq := by
    rw [Memory.proc_setProc] at hq ⊢
    split at hq
    · exact absurd hq hstate.1
    · rename_i hne
      rw [if_neg hne]
      exact h.unused q hq
  used q hq := by
    rw [Memory.proc_setProc] at hq ⊢
    split at hq
    · exact absurd hq hstate.2
    · rename_i hne
      rw [if_neg hne]
      exact h.used q hq
  forked r q ret hcode := by
    have hold : (m.proc r).code = .at (.forkCopy q ret) := by
      rw [Memory.proc_setProc] at hcode
      split at hcode
      · rename_i hr
        rw [hr, hcopy q ret hcode, hcode]
      · exact hcode
    rw [Memory.proc_setProc]
    split
    · rename_i hq
      rw [hown, hkilled, ← hq]
      exact h.forked r q ret hold
    · exact h.forked r q ret hold
  exits q hcode hlive := by
    rw [Memory.proc_setProc] at hcode hlive ⊢
    split at hcode
    · rename_i hq
      rw [if_pos hq]
      exact hexits hcode
    · rename_i hne
      rw [if_neg hne] at hlive ⊢
      exact h.exits q hcode hlive
  zombie q hq := by
    rw [Memory.proc_setProc] at hq ⊢
    split at hq
    · rename_i heq
      rw [if_pos heq, hown]
      exact h.zombie p (hzombie hq)
    · rename_i hne
      rw [if_neg hne]
      exact h.zombie q hq

section Store

variable (h : Tidy s.mem) (hinv : Inv s)

include h hinv

/-- What another process does to an entry that is free afterwards. -/
theorem unused_of_change (hkill : (s.mem.proc p).code.kills ≠ some 0)
    (hchange : Change p q (s.mem.proc p).code (s.mem.proc q) w)
    (hunused : w.state = .unused) : w.Clean := by
  have hnotUsed : (s.mem.proc p).code.forks = some q → (s.mem.proc q).state ≠ .unused := by
    intro hforks
    rw [hinv.fork p q hforks]
    simp
  cases hchange with
  | same => exact h.unused q hunused
  | parent parent hchild =>
    rcases hchild with hchild | hforks
    · rw [(h.unused q hunused).parent] at hchild
      cases hchild
    · exact absurd hunused (hnotUsed hforks)
  | wake hlock hstate => cases hunused
  | kill ret hcode =>
    have hfree : (s.mem.proc q).state = .unused := by
      dsimp only at hunused
      split at hunused
      · cases hunused
      · exact hunused
    rw [hcode, (h.unused q hfree).pid] at hkill
    exact absurd rfl hkill
  | alloc pid hlock hstate => cases hunused
  | copy own hlock hforks => exact absurd hunused (hnotUsed hforks)
  | free hlock hstate =>
    have hclosed : (s.mem.proc q).own.Closed := by
      rcases hstate with hfree | ⟨ret, hcode⟩ | hzombie
      · exact (h.unused q hfree).closed
      · exact (h.forked p q ret hcode).1
      · exact h.zombie q hzombie
    exact ⟨rfl, rfl, rfl, rfl, rfl, rfl, rfl, rfl, hclosed⟩
  | start hlock hforks => cases hunused

/-- A process that is being made and whose files are not copied yet is left alone. -/
theorem forked_of_change (hthread : s.thread c = .exec p) {r : Fin NPROC} {ret : ℤ → K.Loc}
    (hcode : (s.mem.proc r).code = .at (.forkCopy q ret)) (hr : r ≠ p)
    (hchange : Change p q (s.mem.proc p).code (s.mem.proc q) w) :
    w.own.Closed ∧ w.killed = false := by
  have hforks : (s.mem.proc r).code.forks = some q := congrArg Code.forks hcode
  have hnot : (s.mem.proc p).code.forks ≠ some q := fun hp ↦ hr (hinv.forkUnique r p q hforks hp)
  have hused := hinv.fork r q hforks
  have hlocked : ¬ (s.mem.proc p).code.Holds p (.proc q) := by
    intro hholds
    refine hr (hinv.eq_of_holds hthread hholds ?_ ?_)
    · rw [hcode]
      exact id
    · rw [hcode]
      rfl
  cases hchange with
  | same => exact h.forked r q ret hcode
  | parent parent hchild => exact h.forked r q ret hcode
  | kill ret hcode =>
    refine absurd ?_ hlocked
    rw [hcode]
    rfl
  | wake hlock | alloc _ hlock | copy _ hlock | free hlock | start hlock =>
    exact absurd hlock hlocked

omit hinv in
/-- A process that is being made is at its start. -/
theorem used_of_change (hchange : Change p q (s.mem.proc p).code (s.mem.proc q) w)
    (hused : w.state = .used) : w.code = .at .forkret := by
  cases hchange with
  | same => exact h.used q hused
  | parent parent hchild => exact h.used q hused
  | kill ret hcode =>
    dsimp only at hused
    split at hused
    · cases hused
    · exact h.used q hused
  | alloc pid hlock hstate => rfl
  | copy own hlock hforks => exact h.used q hused
  | wake | free | start => cases hused

/-- Nothing is copied to a process that exits. -/
theorem exits_of_change (hchange : Change p q (s.mem.proc p).code (s.mem.proc q) w)
    (hexits : w.code.Exits) (hlive : w.state ≠ .unused) : w.own.Closed := by
  have hnot : (s.mem.proc p).code.forks = some q → ¬ (s.mem.proc q).code.Exits := by
    intro hforks
    rw [h.used q (hinv.fork p q hforks)]
    exact id
  cases hchange with
  | same => exact h.exits q hexits hlive
  | parent parent hchild => exact h.exits q hexits hlive
  | wake hlock hstate => exact h.exits q hexits (by simp [hstate])
  | kill ret hcode =>
    refine h.exits q hexits fun hunused ↦ hlive ?_
    simp [hunused]
  | alloc pid hlock hstate => exact False.elim hexits
  | copy own hlock hforks => exact absurd hexits (hnot hforks)
  | free hlock hstate => exact absurd rfl hlive
  | start hlock hforks => exact absurd hexits (hnot hforks)

/-- Nothing is copied to a process that has exited. -/
theorem zombie_of_change (hchange : Change p q (s.mem.proc p).code (s.mem.proc q) w)
    (hzombie : w.state = .zombie) : w.own.Closed := by
  cases hchange with
  | same => exact h.zombie q hzombie
  | parent parent hchild => exact h.zombie q hzombie
  | kill ret hcode =>
    dsimp only at hzombie
    split at hzombie
    · cases hzombie
    · exact h.zombie q hzombie
  | copy own hlock hforks =>
    rw [hinv.fork p q hforks] at hzombie
    cases hzombie
  | wake | alloc | free | start => cases hzombie

theorem store {k : Code K} (hthread : s.thread c = .exec p)
    (hkill : (s.mem.proc p).code.kills ≠ some 0)
    (hop : (s.mem.proc p).code.op s.mem p input = .store m k) : Tidy (m.setCode p k) := by
  have hself : (m.setCode p k).proc p = { m.proc p with code := k } := Memory.setProc_self ..
  have hstate := (op_store_self hop (hinv.state_of_exec hthread).1 fun q ↦ hinv.fork p q).1
  have hchange : ∀ q, q ≠ p →
      Change p q (s.mem.proc p).code (s.mem.proc q) ((m.setCode p k).proc q) := by
    intro q hq
    rw [Memory.setCode, Memory.setProc_of_ne _ _ hq]
    exact op_store_other hop hq
  have hresult : ((s.mem.proc p).code.op s.mem p input).result s.mem = some (m, k) := by
    rw [hop]
    rfl
  have hclosed : k.Exits → (m.proc p).own.Closed := by
    intro hk
    rcases exits_result hresult hk with hclosed | ⟨hexits, hown⟩
    · exact hclosed
    · rw [hown]
      refine h.exits p hexits ?_
      rw [(hinv.state_of_exec hthread).1]
      exact (Code.runs_ne _).1
  refine ⟨fun q hq ↦ ?_, fun q hq ↦ ?_, fun r q ret hcode ↦ ?_, fun q hexits hlive ↦ ?_,
    fun q hq ↦ ?_⟩
  · by_cases hne : q = p
    · subst hne
      rw [hself] at hq
      exact absurd (hstate.symm.trans hq) (Code.runs_ne _).1
    · exact h.unused_of_change hinv hkill (hchange q hne) hq
  · by_cases hne : q = p
    · subst hne
      rw [hself] at hq
      exact absurd (hstate.symm.trans hq) (Code.runs_ne _).2
    · exact h.used_of_change (hchange q hne) hq
  · by_cases hr : r = p
    · subst hr
      rw [hself] at hcode
      obtain rfl : k = .at (.forkCopy q ret) := hcode
      obtain ⟨hunused, -, hown, hkilled⟩ := forkCopy_result hresult
      have hne : q ≠ r := by
        rintro rfl
        exact (Code.runs_ne _).1 ((hinv.state_of_exec hthread).1.symm.trans hunused)
      rw [Memory.setCode, Memory.setProc_of_ne _ _ hne, hown, hkilled]
      exact ⟨(h.unused q hunused).closed, (h.unused q hunused).killed⟩
    · have hold : (s.mem.proc r).code = .at (.forkCopy q ret) := by
        rcases (hchange r hr).code_eq with hsame | ⟨-, hforkret⟩
        · rw [← hsame, hcode]
        · rw [hcode] at hforkret
          cases hforkret
      have hne : q ≠ p := by
        rintro rfl
        refine (Code.runs_ne _).2 ((hinv.state_of_exec hthread).1.symm.trans ?_)
        exact hinv.fork r q (congrArg Code.forks hold)
      exact h.forked_of_change hinv hthread hold hr (hchange q hne)
  · by_cases hne : q = p
    · subst hne
      rw [hself] at hexits ⊢
      exact hclosed hexits
    · exact h.exits_of_change hinv (hchange q hne) hexits hlive
  · by_cases hne : q = p
    · subst hne
      rw [hself] at hq ⊢
      exact hclosed (Code.exits_of_runs (hstate.symm.trans hq))
    · exact h.zombie_of_change hinv (hchange q hne) hq

end Store

/-- A process goes on without a store. -/
theorem next (h : Tidy s.mem) (hinv : Inv s) (hthread : s.thread c = .exec p)
    (hop : ((s.mem.proc p).code.op s.mem p input).result s.mem = some (s.mem, k)) (saved : Bool) :
    Tidy (s.mem.setProc p { s.mem.proc p with code := k, saved := saved }) := by
  have hstate := (hinv.state_of_exec hthread).1
  have hlive : (s.mem.proc p).state ≠ .unused ∧ (s.mem.proc p).state ≠ .used := by
    rw [hstate]
    exact Code.runs_ne _
  refine h.set hlive id rfl rfl (fun hexits ↦ ?_) fun q ret hcode ↦ ?_
  · rcases exits_result hop hexits with hclosed | ⟨hbefore, -⟩
    · exact hclosed
    · exact h.exits p hbefore hlive.1
  · -- Only a store allocates a process.
    obtain rfl : k = .at (.forkCopy q ret) := hcode
    obtain ⟨hunused, hused, -⟩ := forkCopy_result hop
    rw [hunused] at hused
    cases hused

/-- Every step keeps the entries tidy, if no process calls `kill` with pid 0. -/
theorem step [DecidableEq Cpu] (h : Tidy s.mem) (hinv : Inv s)
    (hkill : ∀ p, (s.mem.proc p).code.kills ≠ some 0) (hstep : Steps s c s') : Tidy s'.mem := by
  cases hstep with
  | schedRun q hthread hstate =>
    exact h.set (by simp) (by simp) rfl rfl (fun hexits ↦ h.exits q hexits (by simp [hstate]))
      fun _ _ _ ↦ rfl
  | schedSwitch q hthread =>
    have hok := hinv.thread c
    rw [hthread] at hok
    exact h.set (by simp [hok.1]) id rfl rfl (fun hexits ↦ h.exits q hexits (by simp [hok.1]))
      fun _ _ _ ↦ rfl
  | acquire p l k input hthread hop hlock => exact h.next hinv hthread (by rw [hop]; rfl) _
  | release p l k input hthread hop hlock => exact h.next hinv hthread (by rw [hop]; rfl) _
  | store p m k input hthread hop => exact h.store hinv hthread (hkill p) hop
  | swtch p k input hthread hop hstate => exact h.next hinv hthread (by rw [hop]; rfl) true
  | _ => exact h

end Tidy

/-- No process calls `kill` with pid 0. -/
def State.NoKillZero (s : State K Cpu) : Prop := ∀ p, (s.mem.proc p).code.kills ≠ some 0

instance (s : State K Cpu) : Decidable s.NoKillZero := inferInstanceAs (Decidable (∀ _, _))

theorem Tidy.of_run [DecidableEq Cpu] {data : K.Data} {actions : List (Cpu × Input K)}
    (hkill : Along Process.step (Process.boot K Cpu data) State.NoKillZero actions)
    (hrun : run Process.step (Process.boot K Cpu data) actions = .ok s) : Inv s ∧ Tidy s.mem :=
  run_induction_along Process.step (P := fun s ↦ Inv s ∧ Tidy s.mem)
    ⟨Inv.boot data, Tidy.boot data⟩
    (fun _ _ _ hkill h hstep ↦
      ⟨h.1.step (step_steps hstep), h.2.step h.1 hkill (step_steps hstep)⟩) hkill hrun

/-! ## Killing -/

/-- `kill` marks a process, and wakes it if it sleeps. -/
def Proc.kill (v : Proc K) : Proc K :=
  { v with killed := true, state := if v.state = .sleeping then .runnable else v.state }

/-- What one step of process `p` in `kill(pid)` can do to memory: it marks one process that is in use
and has the pid, to return 0, or it changes nothing and goes on, or returns -1 after the last
entry. -/
inductive KillStep (m : Memory K) (p : Fin NPROC) (pid : Int32) : Memory K → Prop where
  | hit (q : Fin NPROC) (ret : ℤ → K.Loc) (hpid : (m.proc q).pid = pid)
      (hlive : (m.proc q).state ≠ .unused) :
      KillStep m p pid ((m.setProc q (m.proc q).kill).setCode p (.at (.killDone q ret)))
  | goOn (k : Code K) (hk : k.kills = some pid) : KillStep m p pid (m.setCode p k)
  | refuse (ret : ℤ → K.Loc) (i : ℕ) (hi : NPROC ≤ i)
      (hcode : (m.proc p).code = .at (.killLoop pid i ret)) :
      KillStep m p pid (m.setCode p (.at (.client (ret (-1)) [])))

theorem killStep_of_step [DecidableEq Cpu] (h : Tidy s.mem) (hpid : pid ≠ 0) {b : Point K}
    (hthread : s.thread c = .exec p) (hcode : (s.mem.proc p).code = .at b) (hb : b.kills = some pid)
    (hstep : Steps s c s') : KillStep s.mem p pid s'.mem := by
  obtain ⟨input, heffect⟩ := hstep.effect hthread
  rw [hcode] at heffect
  cases input with
  | timer =>
    simp only [Code.op] at heffect
    split at heffect
    · rw [heffect]
      exact .goOn _ hb
    · cases heffect
  | go input fail =>
    cases b with
    | killLoop pid' i ret =>
      obtain rfl : pid' = pid := Option.some.inj hb
      simp only [Code.op, pointOp, goto] at heffect
      split at heffect
      · rw [heffect.2]
        exact .goOn _ rfl
      · rename_i hi
        rw [heffect]
        exact .refuse ret i (Nat.le_of_not_lt hi) hcode
    | killTest pid' q ret =>
      obtain rfl : pid' = pid := Option.some.inj hb
      simp only [Code.op, pointOp, goto] at heffect
      split at heffect
      · rename_i hq
        rw [heffect]
        refine .hit q ret hq fun hunused ↦ hpid ?_
        rw [← hq, (h.unused q hunused).pid]
      · rw [heffect]
        exact .goOn _ rfl
    | killNext pid' q ret =>
      obtain rfl : pid' = pid := Option.some.inj hb
      rw [heffect.2]
      exact .goOn _ rfl
    | _ => cases hb

theorem killDone_of_step [DecidableEq Cpu] {ret : ℤ → K.Loc} (hthread : s.thread c = .exec p)
    (hcode : (s.mem.proc p).code = .at (.killDone q ret)) (hstep : Steps s c s') :
    s'.mem = s.mem.setCode p (.at (.client (ret 0) [])) := by
  obtain ⟨input, heffect⟩ := hstep.effect hthread
  rw [hcode] at heffect
  cases input with
  | timer => cases heffect
  | go input fail => rw [heffect.2]

/-- A system call of `proc.c`. -/
inductive SysCall where
  | fork
  | exit (status : ℤ)
  | wait (addr : ℕ)
  | kill (pid : Int32)

/-- The client whose processes make the calls of `proc.c`, in any order, and keep the results. -/
def Client.sysCalls : Client where
  Loc := ℤ
  Data := Unit
  Lk := Unit
  Ch := Unit
  Input := SysCall
  start := 0
  next _ _ _ call :=
    match call with
    | .fork => .fork id
    | .exit status => .exit status
    | .wait addr => .wait addr id
    | .kill pid => .kill pid id

/-- The result of the last call of a process that is outside of the kernel. -/
def Code.lastResult : Code Client.sysCalls → Option ℤ
  | .at (.client result _) => some result
  | _ => none

end Xv6.Process
