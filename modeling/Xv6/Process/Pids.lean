import Xv6.Process.Slots

/-!
# Process Ids

`allocpid` hands out the values of a counter of type `int`.  Until the counter has wrapped, the pids
of the processes in use are positive and differ, and `fork` returns a positive number to the parent.
The counter is never compared with the pids in use, nor is it kept from becoming negative: after
2147483646 calls of `fork`, whether they succeed or fail for lack of memory, the next process gets a
negative pid.
-/

namespace Xv6.Process

open Lib

variable {K : Client} {Cpu : Type} {s s' : State K Cpu} {c c' : Cpu} {m m' : Memory K}
  {p q : Fin NPROC} {input : Input K} {code k : Code K} {v w : Proc K} {pid : Int32}

/-! ## The pid that `fork` returns -/

/-- The pid that `fork` is going to return. -/
def Point.forked : Point K → Option Int32
  | .forkWait _ pid _ | .forkParent _ pid _ | .forkUnwait _ pid _ | .forkLock _ pid _
  | .forkRunnable _ pid _ | .forkDone _ pid _ => some pid
  | _ => none

def Code.forked : Code K → Option Int32
  | .at b => b.forked
  | .yieldAcquire b | .yieldSet b | .yieldSched b | .yieldRelease b => b.point.forked

/-- `fork` reads the pid of the new process. -/
theorem forked_result (h : (code.op m p input).result m = some (m', k)) (hk : k.forked = some pid) :
    code.forked = some pid ∨ ∃ q, code.forks = some q ∧ pid = (m.proc q).pid := by
  cases code with
  | «at» b =>
    cases input with
    | timer =>
      simp only [Code.op] at h
      split at h <;> cases h
      exact .inl hk
    | go input fail =>
      cases b with
      | forkRelease q ret =>
        cases h
        exact .inr ⟨q, rfl, (Option.some.inj hk).symm⟩
      | wakeupLoop ch i r =>
        simp only [Code.op, pointOp, goto] at h
        (repeat' split at h) <;> cases r <;> cases h <;> cases hk
      | sleepReacquire r => cases r <;> cases h <;> cases hk
      | _ =>
        simp only [Code.op, pointOp, clientOp, goto] at h
        (repeat' split at h) <;> cases h <;> first | exact .inl hk | cases hk
  | _ =>
    cases h
    exact .inl hk

/-! ## Steps -/

/-- An entry that is in use afterwards was in use before, with the same pid. -/
def Proc.Keeps (v w : Proc K) : Prop := w.state ≠ .unused → v.state ≠ .unused ∧ w.pid = v.pid

theorem Proc.Keeps.refl (v : Proc K) : v.Keeps v := fun hlive ↦ ⟨hlive, rfl⟩

/-- One entry changes. -/
theorem Proc.Keeps.set {r : Fin NPROC} (h : (m.proc r).Keeps v) (q : Fin NPROC) :
    (m.proc q).Keeps ((m.setProc r v).proc q) := by
  by_cases hq : q = r
  · rw [hq, Memory.setProc_self]
    exact h
  · rw [Memory.setProc_of_ne _ _ hq]
    exact .refl _

/-- What a store does to the pids: nothing, or it hands out the next one to an entry that is then in
use, or free again. -/
inductive PidStep (m m' : Memory K) : Prop where
  | keep (hnext : m'.nextpid = m.nextpid) (h : ∀ q, (m.proc q).Keeps (m'.proc q))
  | alloc (r : Fin NPROC) (hnext : m'.nextpid = m.nextpid + 1)
      (h : ∀ q, q ≠ r → (m.proc q).Keeps (m'.proc q))
      (hr : (m'.proc r).state ≠ .unused → (m'.proc r).pid = m.nextpid)

theorem op_store_pids (h : code.op m p input = .store m' k) (hlive : (m.proc p).state ≠ .unused)
    (hforks : ∀ q, code.forks = some q → (m.proc q).state = .used) : PidStep m m' := by
  cases code with
  | «at» b =>
    cases input with
    | timer =>
      simp only [Code.op] at h
      split at h <;> cases h
      exact .keep rfl fun _ ↦ .refl _
    | go input fail =>
      cases b with
      | wakeupTest ch r ret =>
        simp only [Code.op, pointOp, goto] at h
        split at h <;> cases h
        · rename_i hsleep
          exact .keep rfl (.set fun _ ↦ ⟨by simp [hsleep.1], rfl⟩)
        · exact .keep rfl fun _ ↦ .refl _
      | killTest pid r ret =>
        simp only [Code.op, pointOp, goto] at h
        split at h <;> cases h
        · refine .keep rfl (.set fun hstate ↦ ⟨fun hunused ↦ hstate ?_, rfl⟩)
          simp [hunused]
        · exact .keep rfl fun _ ↦ .refl _
      | allocTest r ret =>
        simp only [Code.op, pointOp, goto] at h
        split at h
        · split at h <;> cases h
          · refine .alloc r rfl (fun q hq ↦ ?_) fun hstate ↦ absurd ?_ hstate
            · simp [Memory.allocpid, Memory.freeproc, Memory.proc_setProc, hq,
                Proc.Keeps.refl]
            · simp [Memory.allocpid, Memory.freeproc]
          · refine .alloc r rfl (fun q hq ↦ ?_) fun _ ↦ ?_
            · simp [Memory.allocpid, Memory.setContext, Memory.proc_setProc, hq,
                Proc.Keeps.refl]
            · simp [Memory.allocpid, Memory.setContext]
        · cases h
          exact .keep rfl fun _ ↦ .refl _
      | forkCopy r ret =>
        simp only [Code.op, pointOp] at h
        split at h <;> cases h
        · exact .keep rfl (.set fun hstate ↦ absurd rfl hstate)
        · exact .keep rfl (.set (.refl _))
      | forkParent r pid ret =>
        cases h
        exact .keep rfl (.set (.refl _))
      | forkRunnable r pid ret =>
        cases h
        refine .keep rfl (.set fun _ ↦ ⟨?_, rfl⟩)
        rw [hforks r rfl]
        decide
      | reparent i status =>
        simp only [Code.op, pointOp, goto] at h
        (repeat' split at h) <;> cases h
        · exact .keep rfl (.set (.refl _))
        · exact .keep rfl fun _ ↦ .refl _
        · exact .keep rfl fun _ ↦ .refl _
      | waitTest addr r ret =>
        simp only [Code.op, pointOp, goto] at h
        (repeat' split at h) <;> cases h
        · exact .keep rfl fun _ ↦ .refl _
        · exact .keep rfl (.set fun hstate ↦ absurd rfl hstate)
        · exact .keep rfl fun _ ↦ .refl _
      | client loc held =>
        simp only [Code.op, pointOp, clientOp, goto] at h
        (repeat' split at h) <;> cases h <;>
          first
            | exact .keep rfl fun _ ↦ .refl _
            | exact .keep rfl (.set (.refl _))
      | sleepSet ch r =>
        cases h
        exact .keep rfl (.set fun _ ↦ ⟨hlive, rfl⟩)
      | sleepTidy r =>
        cases h
        exact .keep rfl (.set (.refl _))
      | exitZombie status =>
        cases h
        exact .keep rfl (.set fun _ ↦ ⟨hlive, rfl⟩)
      | _ =>
        simp only [Code.op, pointOp, goto] at h
        (repeat' split at h) <;> cases h <;> exact .keep rfl fun _ ↦ .refl _
  | yieldSet b =>
    cases h
    exact .keep rfl (.set fun _ ↦ ⟨hlive, rfl⟩)
  | _ => cases h

/-! ## The invariant -/

/-- The counter stays positive when it does not wrap. -/
theorem lt_succ_of_pos {n : Int32} (hn : 0 < n) (hsucc : 0 < n + 1) : n < n + 1 := by
  have hadd : (n + 1).toInt = (n.toInt + 1).bmod (2 ^ 32) := Int32.toInt_add n 1
  have hlt := n.toInt_lt
  rw [Int32.lt_iff_toInt_lt, Int32.toInt_zero] at hn hsucc
  rw [Int32.lt_iff_toInt_lt, hadd]
  rw [hadd] at hsucc
  simp only [Int.bmod] at hsucc ⊢
  split at hsucc <;> split <;> omega

/-- The pids of the processes in use. -/
structure Pids (m : Memory K) : Prop where
  pos : ∀ p, (m.proc p).state ≠ .unused → 0 < (m.proc p).pid
  lt : 0 < m.nextpid → ∀ p, (m.proc p).state ≠ .unused → (m.proc p).pid < m.nextpid
  unique : ∀ p q, (m.proc p).state ≠ .unused → (m.proc q).state ≠ .unused →
    (m.proc p).pid = (m.proc q).pid → p = q
  forked : ∀ p pid, (m.proc p).code.forked = some pid → 0 < pid

namespace Pids

theorem boot (data : K.Data) : Pids (boot K Cpu data).mem := by
  have hlive : ∀ p, ((Process.boot K Cpu data).mem.proc p).state ≠ .unused → p = initproc := by
    intro p hp
    by_contra hne
    exact hp (if_neg hne)
  refine ⟨fun p hp ↦ ?_, fun _ p hp ↦ ?_, fun p q hp hq _ ↦ ?_, fun p pid hforked ↦ ?_⟩
  · obtain rfl := hlive p hp
    exact (by decide : (0 : Int32) < 1)
  · obtain rfl := hlive p hp
    exact (by decide : (1 : Int32) < 2)
  · rw [hlive p hp, hlive q hq]
  · by_cases hp : p = initproc <;> simp [Process.boot, hp, Code.forked, Point.forked] at hforked

/-- A step that hands out no pid. -/
theorem keep (h : Pids m) (hnext : m'.nextpid = m.nextpid)
    (hkeep : ∀ q, (m.proc q).Keeps (m'.proc q))
    (hforked : ∀ p pid, (m'.proc p).code.forked = some pid → 0 < pid) : Pids m' where
  pos p hp := by
    obtain ⟨hlive, hpid⟩ := hkeep p hp
    rw [hpid]
    exact h.pos p hlive
  lt hpos p hp := by
    obtain ⟨hlive, hpid⟩ := hkeep p hp
    rw [hnext] at hpos
    rw [hpid, hnext]
    exact h.lt hpos p hlive
  unique p q hp hq heq := by
    obtain ⟨hp, hpid⟩ := hkeep p hp
    obtain ⟨hq, hqid⟩ := hkeep q hq
    exact h.unique p q hp hq (by rw [← hpid, ← hqid, heq])
  forked := hforked

/-- A step that hands out a pid, while the counter is positive. -/
theorem alloc (h : Pids m) (hpos : 0 < m.nextpid) (hnext : m'.nextpid = m.nextpid + 1)
    {r : Fin NPROC} (hkeep : ∀ q, q ≠ r → (m.proc q).Keeps (m'.proc q))
    (hr : (m'.proc r).state ≠ .unused → (m'.proc r).pid = m.nextpid)
    (hforked : ∀ p pid, (m'.proc p).code.forked = some pid → 0 < pid) : Pids m' := by
  have hbelow : ∀ q, q ≠ r → (m'.proc q).state ≠ .unused → (m'.proc q).pid < m.nextpid := by
    intro q hq hlive
    obtain ⟨hlive, hpid⟩ := hkeep q hq hlive
    rw [hpid]
    exact h.lt hpos q hlive
  refine ⟨fun p hp ↦ ?_, fun hpos' p hp ↦ ?_, fun p q hp hq heq ↦ ?_, hforked⟩
  · by_cases hpr : p = r
    · rw [hpr] at hp ⊢
      rw [hr hp]
      exact hpos
    · obtain ⟨hlive, hpid⟩ := hkeep p hpr hp
      rw [hpid]
      exact h.pos p hlive
  · -- The counter has not wrapped.
    have hstep : m.nextpid < m.nextpid + 1 := by
      rw [hnext] at hpos'
      exact lt_succ_of_pos hpos hpos'
    rw [hnext]
    by_cases hpr : p = r
    · rw [hpr] at hp ⊢
      rw [hr hp]
      exact hstep
    · exact Int32.lt_trans (hbelow p hpr hp) hstep
  · by_cases hpr : p = r <;> by_cases hqr : q = r
    · rw [hpr, hqr]
    · rw [hpr] at hp heq
      rw [hr hp] at heq
      exact absurd heq.symm (Int32.ne_of_lt (hbelow q hqr hq))
    · rw [hqr] at hq heq
      rw [hr hq] at heq
      exact absurd heq (Int32.ne_of_lt (hbelow p hpr hp))
    · obtain ⟨hp, hpid⟩ := hkeep p hpr hp
      obtain ⟨hq, hqid⟩ := hkeep q hqr hq
      exact h.unique p q hp hq (by rw [← hpid, ← hqid, heq])

/-- The pid that a process in `fork` is going to return stays positive. -/
theorem forked_of_result (h : Pids s.mem) (hinv : Inv s)
    (hresult : ((s.mem.proc p).code.op s.mem p input).result s.mem = some (m, k))
    (hpid : k.forked = some pid) : 0 < pid := by
  rcases forked_result hresult hpid with hbefore | ⟨q, hforks, rfl⟩
  · exact h.forked p pid hbefore
  · refine h.pos q ?_
    rw [hinv.fork p q hforks]
    exact nofun

/-- A process goes on without a store. -/
theorem next (h : Pids s.mem) (hinv : Inv s)
    (hop : ((s.mem.proc p).code.op s.mem p input).result s.mem = some (s.mem, k)) (saved : Bool) :
    Pids (s.mem.setProc p { s.mem.proc p with code := k, saved := saved }) := by
  refine h.keep rfl (.set (.refl _)) fun q pid hpid ↦ ?_
  rw [Memory.proc_setProc] at hpid
  split at hpid
  · exact h.forked_of_result hinv hop hpid
  · exact h.forked q pid hpid

theorem store (h : Pids s.mem) (hinv : Inv s) (hpos : 0 < s.mem.nextpid)
    (hthread : s.thread c = .exec p)
    (hop : (s.mem.proc p).code.op s.mem p input = .store m k) : Pids (m.setCode p k) := by
  have hlive : (s.mem.proc p).state ≠ .unused := by
    rw [(hinv.state_of_exec hthread).1]
    exact (Code.runs_ne _).1
  have hkeep : ∀ q, (m.proc q).Keeps ((m.setCode p k).proc q) := .set (.refl _)
  have hforked : ∀ q pid, ((m.setCode p k).proc q).code.forked = some pid → 0 < pid := by
    intro q pid hpid
    rw [Memory.proc_setCode] at hpid
    split at hpid
    · exact h.forked_of_result hinv (by rw [hop]; rfl) hpid
    · rename_i hq
      rcases (op_store_other hop hq).code_eq with hsame | ⟨-, hforkret⟩
      · rw [hsame] at hpid
        exact h.forked q pid hpid
      · rw [hforkret] at hpid
        cases hpid
  have htrans : ∀ q, (s.mem.proc q).Keeps (m.proc q) →
      (s.mem.proc q).Keeps ((m.setCode p k).proc q) := by
    intro q hq hstate
    obtain ⟨hm, hpid⟩ := hkeep q hstate
    obtain ⟨hs, hpid'⟩ := hq hm
    exact ⟨hs, hpid.trans hpid'⟩
  cases op_store_pids hop hlive fun q ↦ hinv.fork p q with
  | keep hnext hsame => exact h.keep hnext (fun q ↦ htrans q (hsame q)) hforked
  | alloc r hnext hsame hr =>
    refine h.alloc hpos hnext (fun q hq ↦ htrans q (hsame q hq)) (fun hstate ↦ ?_) hforked
    obtain ⟨hm, hpid⟩ := hkeep r hstate
    exact hpid.trans (hr hm)

/-- Every step keeps the pids positive and distinct, while the counter is positive. -/
theorem step [DecidableEq Cpu] (h : Pids s.mem) (hinv : Inv s) (hpos : 0 < s.mem.nextpid)
    (hstep : Steps s c s') : Pids s'.mem := by
  cases hstep with
  | schedRun q hthread hstate =>
    refine h.keep rfl (.set fun _ ↦ ⟨by simp [hstate], rfl⟩) fun r pid hpid ↦ h.forked r pid ?_
    by_cases hr : r = q <;>
      simpa [State.setMem, State.setThread, State.setCproc, Memory.setState, Memory.proc_setProc,
        hr] using hpid
  | schedSwitch q hthread =>
    refine h.keep rfl (.set (.refl _)) fun r pid hpid ↦ h.forked r pid ?_
    by_cases hr : r = q <;>
      simpa [State.setMem, State.setThread, Memory.proc_setProc, hr] using hpid
  | acquire p l k input hthread hop hlock => exact h.next hinv (by rw [hop]; rfl) _
  | release p l k input hthread hop hlock => exact h.next hinv (by rw [hop]; rfl) _
  | store p m k input hthread hop => exact h.store hinv hpos hthread hop
  | swtch p k input hthread hop hstate => exact h.next hinv (by rw [hop]; rfl) true
  | _ => exact h

end Pids

/-! ## The counter -/

/-- Every step of a run along which the counter is positive keeps the pids positive and distinct. -/
theorem pids_of_run [DecidableEq Cpu] {data : K.Data} {actions : List (Cpu × Input K)}
    (hpos : Along step (boot K Cpu data) (fun s ↦ 0 < s.mem.nextpid) actions)
    (hrun : run step (boot K Cpu data) actions = .ok s) : Pids s.mem := by
  have hboth : Inv s ∧ Pids s.mem := by
    refine run_induction_along step (P := fun s ↦ Inv s ∧ Pids s.mem) ⟨.boot data, .boot data⟩ ?_
      hpos hrun
    rintro s ⟨c, input⟩ s' hpos ⟨hinv, hpids⟩ hstep
    have hsteps := step_steps hstep
    exact ⟨hinv.step hsteps, hpids.step hinv hpos hsteps⟩
  exact hboth.2

/-- As long as the counter has not wrapped, the pids of the processes in use are positive and no two
are the same, and the number that `fork` returns to the parent is positive. -/
theorem pids_unique_positive [DecidableEq Cpu] {data : K.Data} {actions : List (Cpu × Input K)}
    (hpos : Along step (boot K Cpu data) (fun s ↦ 0 < s.mem.nextpid) actions)
    (hrun : run step (boot K Cpu data) actions = .ok s) :
    (∀ p, (s.mem.proc p).state ≠ .unused → 0 < (s.mem.proc p).pid) ∧
    (∀ p q, (s.mem.proc p).state ≠ .unused → (s.mem.proc q).state ≠ .unused →
      (s.mem.proc p).pid = (s.mem.proc q).pid → p = q) ∧
    ∀ p q pid ret, (s.mem.proc p).code = .at (.forkDone q pid ret) → 0 < pid.toInt := by
  have hpids := pids_of_run hpos hrun
  refine ⟨hpids.pos, hpids.unique, fun p q pid ret hcode ↦ ?_⟩
  have hforked : 0 < pid := hpids.forked p pid (by rw [hcode]; rfl)
  rwa [Int32.lt_iff_toInt_lt, Int32.toInt_zero] at hforked

/-- The first process forks: the new process has pid 2. -/
theorem pids_unique_positive_fork : ∃ s, run step (boot Client.sysCalls Unit ())
      (List.replicate 17 ((), .go .fork false)) = .ok s ∧
    (s.mem.proc 1).state = .runnable ∧ (s.mem.proc 1).pid = 2 ∧
    ∀ p q, (s.mem.proc p).state ≠ .unused → (s.mem.proc q).state ≠ .unused →
      (s.mem.proc p).pid = (s.mem.proc q).pid → p = q := by
  have hyields : yields (run step (boot Client.sysCalls Unit ())
      (List.replicate 17 ((), .go .fork false)))
      (fun s ↦ (s.mem.proc 1).state = .runnable ∧ (s.mem.proc 1).pid = 2) = true := by
    decide +kernel
  have hpos : along step (fun s ↦ 0 < s.mem.nextpid) (boot Client.sysCalls Unit ())
      (List.replicate 17 ((), .go .fork false)) = true := by decide +kernel
  obtain ⟨s, hrun, hstate, hpid⟩ := exists_of_yields hyields
  exact ⟨s, hrun, hstate, hpid, (pids_unique_positive ((along_iff step).mp hpos) hrun).2.1⟩

/-! ## The counter wraps -/

attribute [ext] Memory State

/-- The first process runs outside of the kernel, and is alone. -/
def alone (n : Int32) (result : ℤ) : State Client.sysCalls Unit :=
  { boot Client.sysCalls Unit () with
    mem := { (boot Client.sysCalls Unit ()).mem.setProc initproc
              { (boot Client.sysCalls Unit ()).mem.proc initproc with
                state := .running, code := .at (.client result []), saved := false } with
             nextpid := n }
    thread := fun _ ↦ .exec initproc
    cproc := fun _ ↦ some initproc }

/-- The fields of a state that is reached, one by one. -/
theorem eq_alone {n : Int32} {result : ℤ} {r : Except Stop (State Client.sysCalls Unit)}
    (h : ∃ s, r = .ok s ∧ (∀ p, s.mem.proc p = (alone n result).mem.proc p) ∧ s.mem.nextpid = n ∧
      s.mem.history = (alone n result).mem.history ∧ (∀ l, s.lock l = none) ∧
      s.thread = (alone n result).thread ∧ s.cproc = (alone n result).cproc) :
    r = .ok (alone n result) := by
  obtain ⟨s, rfl, hproc, hnext, hhistory, hlock, hthread, hcproc⟩ := h
  congr 1
  ext1
  · ext1
    · exact funext hproc
    · exact hnext
    · rfl
    · exact hhistory
  · exact funext hlock
  · exact hthread
  · exact hcproc

/-- A `fork` that fails for lack of memory takes a pid. -/
theorem alone_fork_fails (n : Int32) (result : ℤ) :
    run step (alone n result) (List.replicate 7 ((), .go .fork true)) =
      .ok (alone (n + 1) (-1)) := by
  refine eq_alone ⟨_, rfl, fun p ↦ ?_, rfl, rfl, fun l ↦ ?_, rfl, rfl⟩
  · by_cases h0 : p = 0
    · rw [h0]
      rfl
    · by_cases h1 : p = 1
      · rw [h1]
        rfl
      · simp [Memory.setCode, Memory.setProc, Memory.allocpid, Memory.freeproc, State.setMem,
          alone, initproc, h0, h1]
  · simp [State.setMem, alone, boot]

/-- Any number of calls of `fork` that fail. -/
theorem alone_forks_fail (n : Int32) (result : ℤ) (k : ℕ) :
    ∃ result', run step (alone n result) (List.replicate (7 * k) ((), .go .fork true)) =
      .ok (alone (n + Int32.ofNat k) result') := by
  induction k with
  | zero => exact ⟨result, by simp⟩
  | succ k ih =>
    obtain ⟨result', hrun⟩ := ih
    refine ⟨-1, ?_⟩
    rw [Nat.mul_succ, ← List.replicate_append_replicate, run_append_ok]
    refine ⟨_, hrun, ?_⟩
    rw [Int32.ofNat_add, ← Int32.add_assoc]
    exact alone_fork_fails _ _

/-- A `fork` that succeeds returns the value of the counter. -/
theorem alone_fork (n : Int32) (result : ℤ) :
    ∃ s, run step (alone n result) (List.replicate 14 ((), .go .fork false)) = .ok s ∧
      (s.mem.proc 0).state = .running ∧ (s.mem.proc 0).pid = 1 ∧
      (s.mem.proc 1).state = .runnable ∧ (s.mem.proc 1).pid = n ∧
      (s.mem.proc 0).code.lastResult = some n.toInt :=
  ⟨_, rfl, rfl, rfl, rfl, rfl, rfl⟩

/-- After `k` calls of `fork` that fail, the next one returns `2 + k` as an `int`. -/
theorem fork_after_failures (k : ℕ) : ∃ s, run step (boot Client.sysCalls Unit ())
      (List.replicate 4 ((), .go .fork false) ++ List.replicate (7 * k) ((), .go .fork true) ++
        List.replicate 14 ((), .go .fork false)) = .ok s ∧
    (s.mem.proc 0).state = .running ∧ (s.mem.proc 0).pid = 1 ∧
    (s.mem.proc 1).state = .runnable ∧ (s.mem.proc 1).pid = 2 + Int32.ofNat k ∧
    (s.mem.proc 0).code.lastResult = some (2 + Int32.ofNat k).toInt := by
  have hboot : run step (boot Client.sysCalls Unit ()) (List.replicate 4 ((), .go .fork false)) =
      .ok (alone 2 0) := by
    refine eq_alone ⟨_, rfl, fun p ↦ ?_, rfl, rfl, fun l ↦ ?_, rfl, rfl⟩
    · by_cases h0 : p = 0
      · rw [h0]
        rfl
      · simp [Memory.setCode, Memory.setState, Memory.setProc, State.setMem, State.setThread,
          State.setCproc, alone, initproc, h0]
    · simp [State.setMem, State.setThread, State.setCproc, boot]
  obtain ⟨result, hfails⟩ := alone_forks_fail 2 0 k
  obtain ⟨s, hfork, hrest⟩ := alone_fork (2 + Int32.ofNat k) result
  exact ⟨s, (run_append_ok step).mpr ⟨_, (run_append_ok step).mpr ⟨_, hboot, hfails⟩, hfork⟩, hrest⟩

/-- After 2147483646 calls of `fork` that fail, the next one succeeds, makes a process with a
negative pid and returns this number.  After 4294967294 calls it makes a process with pid 0 and
returns 0 in the parent as well, and after 4294967295 calls one with the pid of the first process. -/
theorem nextpid_wraps :
    (∃ s, run step (boot Client.sysCalls Unit ())
        (List.replicate 4 ((), .go .fork false) ++
          List.replicate (7 * 2147483646) ((), .go .fork true) ++
          List.replicate 14 ((), .go .fork false)) = .ok s ∧
      (s.mem.proc 1).state = .runnable ∧ (s.mem.proc 1).pid = -2147483648 ∧
      (s.mem.proc 0).code.lastResult = some (-2147483648)) ∧
    (∃ s, run step (boot Client.sysCalls Unit ())
        (List.replicate 4 ((), .go .fork false) ++
          List.replicate (7 * 4294967294) ((), .go .fork true) ++
          List.replicate 14 ((), .go .fork false)) = .ok s ∧
      (s.mem.proc 1).state = .runnable ∧ (s.mem.proc 1).pid = 0 ∧
      (s.mem.proc 0).code.lastResult = some 0) ∧
    ∃ s, run step (boot Client.sysCalls Unit ())
        (List.replicate 4 ((), .go .fork false) ++
          List.replicate (7 * 4294967295) ((), .go .fork true) ++
          List.replicate 14 ((), .go .fork false)) = .ok s ∧
      (s.mem.proc 0).state = .running ∧ (s.mem.proc 1).state = .runnable ∧
      (s.mem.proc 0).pid = (s.mem.proc 1).pid := by
  obtain ⟨s, hrun, -, -, hstate, hpid, hresult⟩ := fork_after_failures 2147483646
  obtain ⟨s₀, hrun₀, -, -, hstate₀, hpid₀, hresult₀⟩ := fork_after_failures 4294967294
  obtain ⟨s₁, hrun₁, hinit, hinitpid, hstate₁, hpid₁, -⟩ := fork_after_failures 4294967295
  have hmin : (2 : Int32) + Int32.ofNat 2147483646 = -2147483648 := by decide
  have hzero : (2 : Int32) + Int32.ofNat 4294967294 = 0 := by decide
  have hone : (2 : Int32) + Int32.ofNat 4294967295 = 1 := by decide
  rw [hmin] at hpid hresult
  rw [hzero] at hpid₀ hresult₀
  rw [hone] at hpid₁
  exact ⟨⟨s, hrun, hstate, hpid, hresult⟩, ⟨s₀, hrun₀, hstate₀, hpid₀, hresult₀⟩,
    ⟨s₁, hrun₁, hinit, hstate₁, hinitpid.trans hpid₁.symm⟩⟩

end Xv6.Process
