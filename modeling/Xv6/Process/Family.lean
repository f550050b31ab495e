import Xv6.Process.Wakeup

/-!
# Parents and Children

What `fork`, `exit` and `wait` do to parents and zombies.  All of it happens under `wait_lock`, so
what a process has learnt about its children in a scan of the table stays true until it releases
that lock.
-/

namespace Xv6.Process

open Lib

variable {K : Client} {Cpu : Type} {s s' : State K Cpu} {c c' : Cpu} {m m' : Memory K}
  {p q z : Fin NPROC} {input : Input K} {code k : Code K} {l : Lock K.Lk}

/-- The states of a process between the end of its `fork` and its `exit`. -/
def ProcState.Live : ProcState → Prop
  | .sleeping | .runnable | .running => True
  | .unused | .used | .zombie => False

/-! ## Events -/

/-- A change of an entry that is no event in a family: with its lock, a process that has not started
may be freed. -/
structure Calm (locked : Prop) (v w : Proc K) : Prop where
  parent : w.parent = v.parent ∨ locked ∧ w.parent = none
  zombie : w.state = .zombie ↔ v.state = .zombie
  exited : v.state = .zombie → w.pid = v.pid ∧ w.xstate = v.xstate
  live : v.state.Live → w.state.Live

theorem Calm.of_eq {locked : Prop} {v w : Proc K} (hparent : w.parent = v.parent)
    (hstate : w.state = v.state) (hpid : w.pid = v.pid) (hxstate : w.xstate = v.xstate) :
    Calm locked v w :=
  ⟨.inl hparent, by rw [hstate], fun _ ↦ ⟨hpid, hxstate⟩, by rw [hstate]; exact id⟩

/-- A change of memory that is no event in a family. -/
structure Quiet (locked : Fin NPROC → Prop) (m m' : Memory K) : Prop where
  history : m'.history = m.history
  entry : ∀ z, Calm (locked z) (m.proc z) (m'.proc z)

namespace Quiet

variable {locked : Fin NPROC → Prop}

theorem refl (m : Memory K) : Quiet locked m m :=
  ⟨rfl, fun _ ↦ .of_eq rfl rfl rfl rfl⟩

theorem of_entry (hhistory : m'.history = m.history)
    (hother : ∀ z, z ≠ q → m'.proc z = m.proc z) (h : Calm (locked q) (m.proc q) (m'.proc q)) :
    Quiet locked m m' := by
  refine ⟨hhistory, fun z ↦ ?_⟩
  by_cases hz : z = q
  · subst hz
    exact h
  · rw [hother z hz]
    exact (refl m).entry z

theorem set {v : Proc K} (h : Calm (locked q) (m.proc q) v) : Quiet locked m (m.setProc q v) := by
  refine of_entry (q := q) rfl (fun z hz ↦ Memory.setProc_of_ne _ _ hz) ?_
  rwa [Memory.setProc_self]

end Quiet

/-- The stores of process `p` at `code` that change a family, with where it goes on. -/
inductive Event (m : Memory K) (p : Fin NPROC) (code : Code K) : Memory K → Code K → Prop where
  | fork (q : Fin NPROC) (pid : Int32) (ret : ℤ → K.Loc)
      (hcode : code = .at (.forkParent q pid ret)) :
      Event m p code (m.setParent q p) (.at (.forkUnwait q pid ret))
  | reparent (i : Fin NPROC) (status : ℤ) (hcode : code = .at (.reparent i status))
      (hparent : (m.proc i).parent = some p) :
      Event m p code (m.setProc i { m.proc i with parent := some initproc })
        (.at (.wakeupLoop (some (.proc initproc)) 0 (.reparent (i + 1) status)))
  | zombie (status : ℤ) (hcode : code = .at (.exitZombie status)) :
      Event m p code (m.setZombie p status) (.at .exitUnwait)
  | reap (addr : ℕ) (q : Fin NPROC) (ret : ℤ → K.Loc) (hcode : code = .at (.waitTest addr q ret))
      (hzombie : (m.proc q).state = .zombie) :
      Event m p code (m.reap p q addr) (.at (.waitFound q (m.proc q).pid.toInt ret))
  | refuse (addr i : ℕ) (havekids : Bool) (ret : ℤ → K.Loc)
      (hcode : code = .at (.waitScan addr i havekids ret)) (hi : NPROC ≤ i)
      (hrefuse : havekids = false ∨ (m.proc p).killed = true) :
      Event m p code (m.refuse p false) (.at (.waitReturn (-1) ret))
  | fail (addr : ℕ) (q : Fin NPROC) (ret : ℤ → K.Loc) (hcode : code = .at (.waitTest addr q ret)) :
      Event m p code (m.refuse p true) (.at (.waitFound q (-1) ret))

theorem op_store_event (h : code.op m p input = .store m' k) (hstate : (m.proc p).state = code.runs)
    (hforks : ∀ q, code.forks = some q → (m.proc q).state = .used) :
    Quiet (fun z ↦ code.Holds p (.proc z)) m m' ∨ Event m p code m' k := by
  cases code with
  | «at» b =>
    cases input with
    | timer =>
      simp only [Code.op] at h
      split at h
      · cases h
        exact .inl (.refl m)
      · cases h
    | go input fail =>
      cases b with
      | sleepSet ch r =>
        cases h
        exact .inl (.set ⟨.inl rfl, by simp [hstate, Code.runs, Point.runs],
          by simp [hstate, Code.runs, Point.runs], fun _ ↦ trivial⟩)
      | sleepTidy r =>
        cases h
        exact .inl (.set (.of_eq rfl rfl rfl rfl))
      | wakeupTest ch q ret =>
        simp only [Code.op, pointOp, goto] at h
        split at h <;> cases h
        · rename_i hsleep
          exact .inl (.set ⟨.inl rfl, by simp [hsleep], by simp [hsleep], fun _ ↦ trivial⟩)
        · exact .inl (.refl m)
      | killTest pid q ret =>
        simp only [Code.op, pointOp, goto] at h
        split at h <;> cases h
        · refine .inl (.set ⟨.inl rfl, ?_, fun _ ↦ ⟨rfl, rfl⟩, ?_⟩)
          · dsimp only
            split <;> simp_all
          · intro hlive
            dsimp only
            split
            · trivial
            · exact hlive
        · exact .inl (.refl m)
      | allocTest q ret =>
        simp only [Code.op, pointOp, goto] at h
        (repeat' split at h) <;> cases h
        · rename_i hunused _
          refine .inl (.of_entry (q := q) rfl (fun z hz ↦ ?_) ?_)
          · simp [Memory.allocpid, Memory.freeproc, Memory.proc_setProc, hz]
          · simp only [Memory.allocpid, Memory.freeproc, Memory.setProc_self]
            exact ⟨.inr ⟨rfl, rfl⟩, by simp [hunused], by simp [hunused],
              by simp [hunused, ProcState.Live]⟩
        · rename_i hunused _
          refine .inl (.of_entry (q := q) rfl (fun z hz ↦ ?_) ?_)
          · simp [Memory.allocpid, Memory.setContext, Memory.proc_setProc, hz]
          · simp only [Memory.allocpid, Memory.setContext, Memory.setProc_self]
            exact ⟨.inl rfl, by simp [hunused], by simp [hunused],
              by simp [hunused, ProcState.Live]⟩
        · exact .inl (.refl m)
      | forkCopy q ret =>
        have hused := hforks q rfl
        simp only [Code.op, pointOp] at h
        split at h <;> cases h
        · exact .inl (.set ⟨.inr ⟨rfl, rfl⟩, by simp [hused], by simp [hused],
            by simp [hused, ProcState.Live]⟩)
        · exact .inl (.set (.of_eq rfl rfl rfl rfl))
      | forkParent q pid ret =>
        cases h
        exact .inr (.fork q pid ret rfl)
      | forkRunnable q pid ret =>
        have hused := hforks q rfl
        cases h
        exact .inl (.set ⟨.inl rfl, by simp [hused], by simp [hused], fun _ ↦ trivial⟩)
      | reparent i status =>
        simp only [Code.op, pointOp, goto] at h
        (repeat' split at h) <;> cases h
        · rename_i hi hparent
          exact .inr (.reparent ⟨i, hi⟩ status rfl hparent)
        · exact .inl (.refl m)
        · exact .inl (.refl m)
      | exitZombie status =>
        cases h
        exact .inr (.zombie status rfl)
      | waitScan addr i havekids ret =>
        simp only [Code.op, pointOp, goto] at h
        (repeat' split at h) <;> cases h
        · exact .inl (.refl m)
        · rename_i hi hrefuse
          exact .inr (.refuse addr i havekids ret rfl (Nat.le_of_not_lt hi) (by simpa using hrefuse))
        · exact .inl (.refl m)
      | waitTest addr q ret =>
        simp only [Code.op, pointOp, goto] at h
        (repeat' split at h) <;> cases h
        · exact .inr (.fail addr q ret rfl)
        · rename_i hzombie hcopy
          exact .inr (.reap addr q ret rfl hzombie)
        · exact .inl (.refl m)
      | client loc held =>
        simp only [Code.op, pointOp, clientOp, goto] at h
        (repeat' split at h) <;> cases h <;>
          first
            | exact .inl ⟨rfl, (Quiet.refl m).entry⟩
            | exact .inl (.set (.of_eq rfl rfl rfl rfl))
      | _ =>
        simp only [Code.op, pointOp, goto] at h
        (repeat' split at h) <;> cases h <;> exact .inl (.refl m)
  | yieldSet b =>
    cases h
    exact .inl (.set ⟨.inl rfl, by simp [hstate, Code.runs], by simp [hstate, Code.runs],
      fun _ ↦ trivial⟩)
  | _ => cases h

/-! ## What a process knows about its children -/

/-- Process `p`, which is not the first one, has given away its children below `i`. -/
def GaveAway (m : Memory K) (p : Fin NPROC) (i : ℕ) : Prop :=
  p ≠ initproc ∧ ∀ j : Fin NPROC, j < i → (m.proc j).parent ≠ some p

/-- No child of `p` below `i` is a zombie. -/
def Searched (m : Memory K) (p : Fin NPROC) (i : ℕ) : Prop :=
  ∀ j : Fin NPROC, j < i → (m.proc j).parent = some p → (m.proc j).state ≠ .zombie

def WakeRet.Knows (m : Memory K) (p : Fin NPROC) : WakeRet K → Prop
  | .client _ _ => True
  | .reparent i _ => GaveAway m p i
  | .exit _ => GaveAway m p NPROC

/-- What process `p` knows at a point. -/
def Point.Knows (m : Memory K) (p : Fin NPROC) : Point K → Prop
  | .sleepAcquire (.proc q) r | .sleepRelease (.proc q) r =>
    q = p ∧ r.lk = .wait ∧ Searched m p NPROC
  | .wakeupLoop _ _ r | .wakeupTest _ _ r | .wakeupRelease _ _ r => r.Knows m p
  | .exitWait _ => GaveAway m p 0
  | .reparent i _ => GaveAway m p i
  | .exitLock _ | .exitZombie _ => GaveAway m p NPROC
  | .waitScan _ i havekids _ => Searched m p i ∧
      (havekids = false → ∀ j : Fin NPROC, j < i → (m.proc j).parent ≠ some p)
  | .waitTest _ q _ => (m.proc q).parent = some p ∧ Searched m p q
  | .waitNext _ q _ => Searched m p (q + 1)
  | _ => True

def Code.Knows (m : Memory K) (p : Fin NPROC) : Code K → Prop
  | .at b => b.Knows m p
  | .yieldAcquire b | .yieldSet b | .yieldSched b | .yieldRelease b => b.point.Knows m p

/-- What a process knows at a point where it can be preempted does not depend on the memory. -/
theorem Idle.knows (b : Idle K) (h : b.point.Knows m p) : b.point.Knows m' p := by
  obtain ⟨b, hb⟩ := b
  change b.Knows m p at h
  change b.Knows m' p
  cases b with
  | exitWait status => exact ⟨h.1, fun j hj ↦ absurd hj (Nat.not_lt_zero _)⟩
  | _ => trivial

theorem Memory.parent_setState (m : Memory K) (q z : Fin NPROC) (state : ProcState) :
    ((m.setState q state).proc z).parent = (m.proc z).parent := by
  by_cases hz : z = q <;> simp [Memory.setState, Memory.proc_setProc, hz]

section Mono

variable (hparent : ∀ z, (m'.proc z).parent = some p → (m.proc z).parent = some p)
  (hzombie : ∀ z, (m'.proc z).state = .zombie → (m.proc z).state = .zombie)

include hparent

theorem GaveAway.mono {i : ℕ} (h : GaveAway m p i) : GaveAway m' p i :=
  ⟨h.1, fun j hj hp ↦ h.2 j hj (hparent j hp)⟩

theorem WakeRet.Knows.mono {r : WakeRet K} (h : r.Knows m p) : r.Knows m' p := by
  cases r with
  | client loc held => trivial
  | reparent i status => exact GaveAway.mono hparent h
  | exit status => exact GaveAway.mono hparent h

include hzombie

theorem Searched.mono {i : ℕ} (h : Searched m p i) : Searched m' p i :=
  fun j hj hp hz ↦ h j hj (hparent j hp) (hzombie j hz)

/-- What a process knows stays true when no parent is set and no process becomes a zombie. -/
theorem Point.Knows.mono {b : Point K} (h : b.Knows m p)
    (htest : ∀ addr z ret, b = .waitTest addr z ret → (m'.proc z).parent = (m.proc z).parent) :
    b.Knows m' p := by
  cases b with
  | sleepAcquire ch r =>
    cases ch with
    | proc q => exact ⟨h.1, h.2.1, h.2.2.mono hparent hzombie⟩
    | other ch => trivial
  | sleepRelease ch r =>
    cases ch with
    | proc q => exact ⟨h.1, h.2.1, h.2.2.mono hparent hzombie⟩
    | other ch => trivial
  | wakeupLoop ch i r => exact WakeRet.Knows.mono hparent h
  | wakeupTest ch q r => exact WakeRet.Knows.mono hparent h
  | wakeupRelease ch q r => exact WakeRet.Knows.mono hparent h
  | exitWait status => exact GaveAway.mono hparent h
  | reparent i status => exact GaveAway.mono hparent h
  | exitLock status => exact GaveAway.mono hparent h
  | exitZombie status => exact GaveAway.mono hparent h
  | waitScan addr i havekids ret =>
    exact ⟨h.1.mono hparent hzombie, fun hk j hj hp ↦ h.2 hk j hj (hparent j hp)⟩
  | waitTest addr q ret => exact ⟨(htest addr q ret rfl).trans h.1, h.2.mono hparent hzombie⟩
  | waitNext addr q ret => exact Searched.mono hparent hzombie h
  | _ => trivial

theorem Code.Knows.mono (h : code.Knows m p)
    (htest : ∀ addr z ret, code = .at (.waitTest addr z ret) →
      (m'.proc z).parent = (m.proc z).parent) : code.Knows m' p := by
  cases code with
  | «at» b =>
    exact Point.Knows.mono hparent hzombie h fun addr z ret hb ↦ htest addr z ret (hb ▸ rfl)
  | yieldAcquire b => exact b.knows h
  | yieldSet b => exact b.knows h
  | yieldSched b => exact b.knows h
  | yieldRelease b => exact b.knows h

end Mono

theorem Code.Knows.congr (h : code.Knows m p)
    (hsame : ∀ z, (m'.proc z).parent = (m.proc z).parent ∧ (m'.proc z).state = (m.proc z).state) :
    code.Knows m' p :=
  h.mono (fun z hz ↦ (hsame z).1 ▸ hz) (fun z hz ↦ (hsame z).2 ▸ hz) fun _ z _ _ ↦ (hsame z).1

/-- What a process knows without `wait_lock` does not depend on the memory. -/
theorem Code.Knows.of_not_holds (h : code.Knows m p) (hwait : ¬ code.Holds p (.cond .wait)) :
    code.Knows m' p := by
  cases code with
  | «at» b =>
    cases b with
    | sleepAcquire ch r =>
      cases ch with
      | proc q => exact absurd (congrArg _ h.2.1.symm) hwait
      | other ch => trivial
    | sleepRelease ch r =>
      cases ch with
      | proc q => exact absurd (.inr (congrArg _ h.2.1.symm)) hwait
      | other ch => trivial
    | wakeupLoop ch i r => cases r <;> trivial
    | wakeupTest ch q r => cases r <;> first | trivial | exact absurd (.inr rfl) hwait
    | wakeupRelease ch q r => cases r <;> first | trivial | exact absurd (.inr rfl) hwait
    | exitWait status => exact Idle.knows ⟨.exitWait status, rfl⟩ h
    | _ => first | trivial | exact absurd rfl hwait | exact absurd (.inr rfl) hwait
  | yieldAcquire b => exact b.knows h
  | yieldSet b => exact b.knows h
  | yieldSched b => exact b.knows h
  | yieldRelease b => exact b.knows h

/-- One more entry of the table. -/
theorem forall_lt_succ {i : ℕ} (hi : i < NPROC) {P : Fin NPROC → Prop} (h : ∀ j, j.val < i → P j)
    (hlast : P ⟨i, hi⟩) : ∀ j, j.val < i + 1 → P j := by
  intro j hj
  rcases Nat.lt_succ_iff_lt_or_eq.mp hj with hlt | heq
  · exact h j hlt
  · obtain rfl : j = ⟨i, hi⟩ := Fin.ext heq
    exact hlast

theorem knows_acquire (hop : code.op m p input = .acquire l k) (h : code.Knows m p) :
    k.Knows m p := by
  cases code with
  | «at» b =>
    cases input with
    | timer =>
      simp only [Code.op] at hop
      split at hop <;> cases hop
    | go input fail =>
      cases b with
      | sleepReacquire r =>
        cases hop
        cases r with
        | client loc lk => trivial
        | wait addr ret =>
          exact ⟨fun j hj ↦ absurd hj (Nat.not_lt_zero _),
            fun _ j hj ↦ absurd hj (Nat.not_lt_zero _)⟩
      | sleepAcquire ch r =>
        cases hop
        cases ch <;> exact h
      | waitStart addr ret =>
        cases hop
        exact ⟨fun j hj ↦ absurd hj (Nat.not_lt_zero _),
          fun _ j hj ↦ absurd hj (Nat.not_lt_zero _)⟩
      | waitScan addr i havekids ret =>
        simp only [Code.op, pointOp, goto] at hop
        (repeat' split at hop) <;> cases hop
        rename_i hi hparent
        exact ⟨hparent, h.1⟩
      | _ =>
        simp only [Code.op, pointOp, clientOp, goto] at hop
        (repeat' split at hop) <;> cases hop <;> exact h
  | yieldAcquire b =>
    cases hop
    exact h
  | _ => cases hop

theorem knows_release (hop : code.op m p input = .release l k) (h : code.Knows m p) :
    k.Knows m p := by
  cases code with
  | «at» b =>
    cases input with
    | timer =>
      simp only [Code.op] at hop
      split at hop <;> cases hop
    | go input fail =>
      cases b with
      | waitNext addr q ret =>
        cases hop
        exact ⟨h, fun hk ↦ by cases hk⟩
      | _ =>
        simp only [Code.op, pointOp, clientOp, goto] at hop
        (repeat' split at hop) <;> cases hop <;> first | exact h | trivial
  | yieldRelease b =>
    cases hop
    exact h
  | _ => cases hop

theorem knows_store (hop : code.op m p input = .store m' k) (h : code.Knows m p) :
    k.Knows m' p := by
  cases code with
  | «at» b =>
    cases input with
    | timer =>
      simp only [Code.op] at hop
      split at hop <;> cases hop
      exact h
    | go input fail =>
      cases b with
      | client loc held =>
        simp only [Code.op, pointOp, clientOp, goto] at hop
        (repeat' split at hop) <;> cases hop <;> first | trivial | skip
        rename_i hp
        exact ⟨hp, fun j hj ↦ absurd hj (Nat.not_lt_zero _)⟩
      | wakeupLoop ch i r =>
        simp only [Code.op, pointOp, goto] at hop
        (repeat' split at hop) <;> cases hop
        · exact h
        · cases r <;> exact h
      | wakeupTest ch q r =>
        simp only [Code.op, pointOp, goto] at hop
        split at hop <;> cases hop
        · refine WakeRet.Knows.mono (fun z hz ↦ ?_) h
          rwa [Memory.parent_setState] at hz
        · exact h
      | reparent i status =>
        simp only [Code.op, pointOp, goto] at hop
        (repeat' split at hop) <;> cases hop
        · rename_i hi hparent
          refine ⟨h.1, forall_lt_succ hi (fun j hj ↦ ?_) ?_⟩
          · rw [Memory.setProc_of_ne _ _ (by rintro rfl; exact absurd hj (lt_irrefl i))]
            exact h.2 j hj
          · rw [Memory.setProc_self]
            exact fun heq ↦ h.1 (Option.some.inj heq).symm
        · rename_i hi hparent
          exact ⟨h.1, forall_lt_succ hi h.2 hparent⟩
        · rename_i hi
          exact ⟨h.1, fun j _ ↦ h.2 j (lt_of_lt_of_le j.2 (Nat.le_of_not_lt hi))⟩
      | waitScan addr i havekids ret =>
        simp only [Code.op, pointOp, goto] at hop
        (repeat' split at hop) <;> cases hop
        · rename_i hi hparent
          exact ⟨forall_lt_succ hi h.1 fun hp ↦ absurd hp hparent,
            fun hk ↦ forall_lt_succ hi (h.2 hk) hparent⟩
        · trivial
        · rename_i hi _
          exact ⟨rfl, rfl, fun j _ ↦ h.1 j (lt_of_lt_of_le j.2 (Nat.le_of_not_lt hi))⟩
      | waitTest addr q ret =>
        simp only [Code.op, pointOp, goto] at hop
        (repeat' split at hop) <;> cases hop
        · trivial
        · trivial
        · rename_i hzombie
          exact forall_lt_succ q.2 h.2 fun _ ↦ hzombie
      | _ =>
        simp only [Code.op, pointOp, goto] at hop
        (repeat' split at hop) <;> cases hop <;> first | exact h | trivial
  | yieldSet b =>
    cases hop
    exact b.knows h
  | _ => cases hop

theorem knows_swtch (hop : code.op m p input = .swtch k) (h : code.Knows m p) : k.Knows m p := by
  cases code with
  | «at» b =>
    cases input with
    | timer =>
      simp only [Code.op] at hop
      split at hop <;> cases hop
    | go input fail =>
      cases b with
      | _ =>
        simp only [Code.op, pointOp, clientOp, goto] at hop
        (repeat' split at hop) <;> cases hop <;> trivial
  | yieldSched b =>
    cases hop
    exact h
  | _ => cases hop

/-- Parents, zombies and the history change under `wait_lock`. -/
theorem Event.holds (h : Event m p code m' k) : code.Holds p (.cond .wait) := by
  cases h with
  | fork q pid ret hcode => exact hcode ▸ rfl
  | reparent i status hcode hparent => exact hcode ▸ rfl
  | zombie status hcode => exact hcode ▸ .inr rfl
  | reap addr q ret hcode hzombie => exact hcode ▸ .inr rfl
  | refuse addr i havekids ret hcode hi hrefuse => exact hcode ▸ rfl
  | fail addr q ret hcode => exact hcode ▸ .inr rfl

section SetCode

variable (m : Memory K) (p z : Fin NPROC) (k : Code K)

@[simp]
theorem Memory.parent_setCode : ((m.setCode p k).proc z).parent = (m.proc z).parent := by
  by_cases hz : z = p <;> simp [Memory.proc_setCode, hz]

@[simp]
theorem Memory.state_setCode : ((m.setCode p k).proc z).state = (m.proc z).state := by
  by_cases hz : z = p <;> simp [Memory.proc_setCode, hz]

@[simp]
theorem Memory.pid_setCode : ((m.setCode p k).proc z).pid = (m.proc z).pid := by
  by_cases hz : z = p <;> simp [Memory.proc_setCode, hz]

@[simp]
theorem Memory.xstate_setCode : ((m.setCode p k).proc z).xstate = (m.proc z).xstate := by
  by_cases hz : z = p <;> simp [Memory.proc_setCode, hz]

@[simp]
theorem Memory.code_setCode_self : ((m.setCode p k).proc p).code = k := by
  rw [Memory.setCode, Memory.setProc_self]

@[simp]
theorem Memory.history_setCode : (m.setCode p k).history = m.history := rfl

theorem Quiet.setCode {locked : Fin NPROC → Prop} (h : Quiet locked m m') :
    Quiet locked m (m'.setCode p k) := by
  refine ⟨h.history, fun z ↦ ?_⟩
  obtain ⟨hparent, hzombie, hexited, hlive⟩ := h.entry z
  constructor <;> simpa

end SetCode

variable [DecidableEq Cpu]

/-- A step is a quiet one or an event in a family. -/
theorem Inv.quiet_or_event (h : Inv s) (hstep : Steps s c s') :
    Quiet (fun z ↦ (s.thread c).Holds s.mem (.proc z)) s.mem s'.mem ∨
      ∃ p m k, s.thread c = .exec p ∧ s'.mem = m.setCode p k ∧
        Event s.mem p (s.mem.proc p).code m k := by
  cases hstep with
  | schedRun q hthread hstate =>
    exact .inl (.set ⟨.inl rfl, by simp [hstate], by simp [hstate], fun _ ↦ trivial⟩)
  | schedSwitch q hthread => exact .inl (.set ⟨.inl rfl, .rfl, fun _ ↦ ⟨rfl, rfl⟩, id⟩)
  | acquire p l k input hthread hop hlock => exact .inl (Quiet.setCode _ _ _ (.refl _))
  | release p l k input hthread hop hlock => exact .inl (Quiet.setCode _ _ _ (.refl _))
  | swtch p k input hthread hop hstate =>
    exact .inl (.set ⟨.inl rfl, .rfl, fun _ ↦ ⟨rfl, rfl⟩, id⟩)
  | store p m k input hthread hop =>
    rcases op_store_event hop (h.state_of_exec hthread).1 fun q ↦ h.fork p q with hquiet | hevent
    · refine .inl (Quiet.setCode _ _ _ ?_)
      rwa [hthread]
    · exact .inr ⟨p, m, k, hthread, rfl, hevent⟩
  | _ => exact .inl (.refl _)

/-- What a process knows after its own step. -/
theorem Steps.knows_self (hstep : Steps s c s') (hp : s.thread c = .exec p)
    (h : (s.mem.proc p).code.Knows s.mem p) : (s'.mem.proc p).code.Knows s'.mem p := by
  obtain ⟨input, heffect⟩ := hstep.effect hp
  have hset : ∀ {m : Memory K} {k : Code K}, k.Knows m p →
      ((m.setCode p k).proc p).code.Knows (m.setCode p k) p := by
    intro m k hk
    rw [Memory.code_setCode_self]
    exact hk.congr (by simp)
  revert heffect
  cases hop : (s.mem.proc p).code.op s.mem p input with
  | acquire l k =>
    rintro ⟨-, rfl⟩
    exact hset (knows_acquire hop h)
  | release l k =>
    rintro ⟨-, rfl⟩
    exact hset (knows_release hop h)
  | store m k =>
    rintro rfl
    exact hset (knows_store hop h)
  | swtch k =>
    rintro ⟨-, rfl⟩
    simp only [State.setMem, State.setThread, Memory.setProc_self]
    refine (knows_swtch hop h).congr fun z ↦ ?_
    by_cases hz : z = p <;> simp [Memory.proc_setProc, hz]
  | stop stop => exact False.elim

/-- What every process knows about its children stays true. -/
theorem Inv.knows_step (h : Inv s) (hknows : ∀ p, (s.mem.proc p).code.Knows s.mem p)
    (hstep : Steps s c s') (q : Fin NPROC) : (s'.mem.proc q).code.Knows s'.mem q := by
  by_cases hq : s.thread c = .exec q
  · exact hstep.knows_self hq (hknows q)
  rcases hstep.code_other hq with hcode | ⟨-, hcode⟩
  · rw [hcode]
    rcases h.quiet_or_event hstep with hquiet | ⟨p, m, k, hp, hmem, hevent⟩
    · refine (hknows q).mono (fun z hz ↦ ?_) (fun z ↦ (hquiet.entry z).zombie.mp)
        fun addr z ret htest ↦ ?_
      · rcases (hquiet.entry z).parent with hsame | ⟨-, hnone⟩
        · rwa [hsame] at hz
        · rw [hnone] at hz
          cases hz
      · -- Only a thread with the lock of the child could free it.
        refine (hquiet.entry z).parent.resolve_right fun hfree ↦ ?_
        obtain ⟨c', hc'⟩ := h.exec_of_code (p := q) (by simp [htest, Code.Resumes])
        have heq : c = c' := by
          refine h.holds_unique hfree.1 ?_
          rw [hc', Thread.Holds, htest]
          exact .inl rfl
        exact hq (heq ▸ hc')
    · refine (hknows q).of_not_holds fun hholds ↦ ?_
      have heq := h.eq_of_holds_cond hp hevent.holds hholds
      exact hq (heq ▸ hp)
  · rw [hcode]
    trivial

/-! ## The invariant -/

def WakeRet.Passed (z : Fin NPROC) : WakeRet K → Prop
  | .client _ _ => False
  | .reparent i _ => z < i
  | .exit _ => True

/-- At a point of `exit` where `z` has been given to the first process if it was a child. -/
def Code.Passed (z : Fin NPROC) : Code K → Prop
  | .at (.wakeupLoop _ _ r) | .at (.wakeupTest _ _ r) | .at (.wakeupRelease _ _ r) => r.Passed z
  | .at (.reparent i _) => z < i
  | .at (.exitLock _) | .at (.exitZombie _) => True
  | _ => False

omit [DecidableEq Cpu] in
theorem Code.Passed.holds (h : code.Passed z) :
    ¬ code.Resumes ∧ code.Holds p (.cond .wait) := by
  unfold Code.Passed at h
  split at h
  · rename_i r
    exact ⟨id, by cases r <;> first | rfl | cases h⟩
  · rename_i r
    exact ⟨id, .inr (by cases r <;> first | rfl | cases h)⟩
  · rename_i r
    exact ⟨id, .inr (by cases r <;> first | rfl | cases h)⟩
  · exact ⟨id, rfl⟩
  · exact ⟨id, rfl⟩
  · exact ⟨id, .inr rfl⟩
  · cases h

omit [DecidableEq Cpu] in
/-- A process stays in `exit` until it is a zombie. -/
theorem passed_next (hop : (code.op m p input).next = some k) (h : code.Passed z)
    (hzombie : ∀ status, code ≠ .at (.exitZombie status)) : k.Passed z := by
  unfold Code.Passed at h
  cases input with
  | timer => split at h <;> first | cases hop | cases h
  | go input fail =>
    split at h
    · rename_i ch i r
      simp only [Code.op, pointOp, goto] at hop
      (repeat' split at hop) <;> cases hop
      · exact h
      · exact h
      · cases r <;> exact h
    · simp only [Code.op, pointOp, goto] at hop
      split at hop <;> cases hop <;> exact h
    · cases hop
      exact h
    · rename_i i status
      simp only [Code.op, pointOp, goto] at hop
      (repeat' split at hop) <;> cases hop
      · exact Nat.lt_succ_of_lt h
      · exact Nat.lt_succ_of_lt h
      · trivial
    · cases hop
      trivial
    · rename_i status
      exact absurd rfl (hzombie status)
    · cases h

/-- A call of `wait` returns the pid of an exited process, and copies out its status. -/
def Reap.Returns (exited : Int32 × ℤ) (r : Reap) : Prop :=
  r.result = exited.1.toInt ∧ r.copied = if r.addr = 0 then none else some exited.2

/-- A call of `wait` is made by the parent of the process that it reaps, which is the process that
forked it or, if that one has exited, the first process. -/
def Reap.Legal (r : Reap) : Prop :=
  r.parent = some r.caller ∧
    if r.orphan then r.caller = initproc else r.creator = some r.caller

/-- Each exit from entry `z` has been returned by one call of `wait`, in order, except for the last
one if the entry is a zombie. -/
def Accounted (m : Memory K) (z : Fin NPROC) : Prop :=
  ∃ reaped, List.Forall₂ Reap.Returns reaped (m.history.reaps z) ∧
    m.history.exits z = reaped ++
      if (m.proc z).state = .zombie then [((m.proc z).pid, (m.proc z).xstate)] else []

/-- The parent `q` of `z` is the process that forked it, or the first process if that one has exited
or has given `z` away in `exit`. -/
def Lineage (m : Memory K) (z q : Fin NPROC) : Prop :=
  if m.history.orphan z then q = initproc
  else m.history.creator z = some q ∨
    q = initproc ∧ ∃ p, m.history.creator z = some p ∧ (m.proc p).code.Passed z

omit [DecidableEq Cpu] in
theorem Accounted.congr (h : Accounted m z) (hexits : m'.history.exits z = m.history.exits z)
    (hreaps : m'.history.reaps z = m.history.reaps z)
    (hzombie : (m'.proc z).state = .zombie ↔ (m.proc z).state = .zombie)
    (hexited : (m.proc z).state = .zombie →
      (m'.proc z).pid = (m.proc z).pid ∧ (m'.proc z).xstate = (m.proc z).xstate) :
    Accounted m' z := by
  obtain ⟨reaped, hreaped, heq⟩ := h
  refine ⟨reaped, hreaps ▸ hreaped, ?_⟩
  rw [hexits, heq]
  by_cases hz : (m.proc z).state = .zombie
  · rw [if_pos hz, if_pos (hzombie.mpr hz), (hexited hz).1, (hexited hz).2]
  · rw [if_neg hz, if_neg fun hz' ↦ hz (hzombie.mp hz')]

omit [DecidableEq Cpu] in
theorem Lineage.congr (h : Lineage m z q) (horphan : m'.history.orphan z = m.history.orphan z)
    (hcreator : m'.history.creator z = m.history.creator z)
    (hpassed : ∀ p, m.history.creator z = some p → (m.proc p).code.Passed z →
      (m'.proc p).code.Passed z) : Lineage m' z q := by
  unfold Lineage at h ⊢
  rw [horphan, hcreator]
  split
  · rename_i hz
    rwa [if_pos hz] at h
  · rename_i hz
    rw [if_neg hz] at h
    exact h.imp_right fun ⟨hq, p, hp, hpass⟩ ↦ ⟨hq, p, hp, hpassed p hp hpass⟩

/-- The invariant of parents and zombies. -/
structure Family (m : Memory K) : Prop where
  knows : ∀ p, (m.proc p).code.Knows m p
  live : ∀ z q, (m.proc z).parent = some q → (m.proc q).state.Live
  init : (m.proc initproc).state.Live
  exits : ∀ z, Accounted m z
  lineage : ∀ z q, (m.proc z).parent = some q → Lineage m z q
  reaps : ∀ z, ∀ r ∈ m.history.reaps z, r.Legal
  refusals : ∀ r ∈ m.history.refusals, r.killed = true ∨ r.child = false ∨ r.copyFailed = true

namespace Family

omit [DecidableEq Cpu] in
theorem boot (data : K.Data) : Family (Process.boot K Cpu data).mem where
  knows p := by
    by_cases hp : p = initproc <;> simp [Process.boot, hp, Code.Knows, Point.Knows]
  live z q h := by cases h
  init := by simp [Process.boot, ProcState.Live]
  exits z := by
    refine ⟨[], .nil, ?_⟩
    by_cases hz : z = initproc <;> simp [Process.boot, hz]
  lineage z q h := by cases h
  reaps z r h := by cases h
  refusals r h := by cases h

end Family

/-- A process in `exit` stays there until it is a zombie. -/
theorem Inv.passed_step (h : Inv s) (hstep : Steps s c s') (hpassed : (s.mem.proc p).code.Passed z)
    (hzombie : ∀ status, s.thread c = .exec p → (s.mem.proc p).code ≠ .at (.exitZombie status)) :
    (s'.mem.proc p).code.Passed z := by
  by_cases hp : s.thread c = .exec p
  · obtain ⟨input, hnext⟩ := hstep.code_self hp
    exact passed_next hnext hpassed fun status ↦ hzombie status hp
  · obtain ⟨c', hc'⟩ := h.exec_of_code (hpassed.holds (p := p)).1
    rw [h.code_running hstep (fun heq ↦ hp (heq ▸ hc')) hc']
    exact hpassed

/-- The step that makes a process a zombie. -/
theorem Steps.mem_exitZombie (hstep : Steps s c s') (hp : s.thread c = .exec p) {status : ℤ}
    (hcode : (s.mem.proc p).code = .at (.exitZombie status)) :
    s'.mem = (s.mem.setZombie p status).setCode p (.at .exitUnwait) := by
  obtain ⟨input, heffect⟩ := hstep.effect hp
  rw [hcode] at heffect
  cases input with
  | timer => cases heffect
  | go input fail =>
    obtain rfl := heffect
    rfl

/-- A quiet step keeps the invariant. -/
theorem Family.quiet (h : Inv s) (hf : Family s.mem) (hstep : Steps s c s')
    {locked : Fin NPROC → Prop} (hquiet : Quiet locked s.mem s'.mem) : Family s'.mem := by
  have hparent : ∀ z q, (s'.mem.proc z).parent = some q → (s.mem.proc z).parent = some q := by
    intro z q hz
    rcases (hquiet.entry z).parent with hsame | ⟨-, hnone⟩
    · rwa [hsame] at hz
    · rw [hnone] at hz
      cases hz
  have hpassed : ∀ p z, (s.mem.proc p).code.Passed z → (s'.mem.proc p).code.Passed z := by
    intro p z hpassed
    refine h.passed_step hstep hpassed fun status hp hcode ↦ ?_
    have hzombie := (hquiet.entry p).zombie.mp
      (by simp [hstep.mem_exitZombie hp hcode, Memory.setZombie])
    rw [(h.state_of_exec hp).1, hcode] at hzombie
    cases hzombie
  refine ⟨h.knows_step hf.knows hstep, fun z q hz ↦ ?_, (hquiet.entry _).live hf.init, fun z ↦ ?_,
    fun z q hz ↦ ?_, hquiet.history ▸ hf.reaps, hquiet.history ▸ hf.refusals⟩
  · exact (hquiet.entry q).live (hf.live z q (hparent z q hz))
  · exact (hf.exits z).congr (by rw [hquiet.history]) (by rw [hquiet.history])
      (hquiet.entry z).zombie (hquiet.entry z).exited
  · exact (hf.lineage z q (hparent z q hz)).congr (by rw [hquiet.history])
      (by rw [hquiet.history]) fun p _ ↦ hpassed p z

section Event

variable (h : Inv s) (hf : Family s.mem) (hstep : Steps s c s')

include h hf hstep

/-- `fork` sets the parent of the new process. -/
theorem Family.fork (hlive : (s.mem.proc p).state.Live)
    (hpassed : ∀ r z, (s.mem.proc r).code.Passed z → (s'.mem.proc r).code.Passed z)
    (hmem : s'.mem = (s.mem.setParent q p).setCode p k) : Family s'.mem := by
  have hparent : ∀ z, (s'.mem.proc z).parent =
      if z = q then some p else (s.mem.proc z).parent := by
    intro z
    by_cases hz : z = q <;> simp [hmem, Memory.setParent, Memory.proc_setProc, hz]
  have hsame : ∀ z, (s'.mem.proc z).state = (s.mem.proc z).state ∧
      (s'.mem.proc z).pid = (s.mem.proc z).pid ∧ (s'.mem.proc z).xstate = (s.mem.proc z).xstate := by
    intro z
    by_cases hz : z = q <;> simp [hmem, Memory.setParent, Memory.proc_setProc, hz]
  refine ⟨h.knows_step hf.knows hstep, fun z r hz ↦ ?_, (hsame _).1 ▸ hf.init, fun z ↦ ?_,
    fun z r hz ↦ ?_, by rw [hmem]; exact hf.reaps, by rw [hmem]; exact hf.refusals⟩
  · rw [hparent] at hz
    rw [(hsame r).1]
    split at hz
    · obtain rfl := Option.some.inj hz
      exact hlive
    · exact hf.live z r hz
  · exact (hf.exits z).congr (by rw [hmem]; rfl) (by rw [hmem]; rfl) (by rw [(hsame z).1])
      fun _ ↦ (hsame z).2
  · rw [hparent] at hz
    split at hz
    · rename_i hzq
      obtain rfl := Option.some.inj hz
      simp [Lineage, hmem, hzq, Memory.setParent]
    · rename_i hzq
      exact (hf.lineage z r hz).congr (by simp [hmem, Memory.setParent, hzq])
        (by simp [hmem, Memory.setParent, hzq]) fun r' _ ↦ hpassed r' z

/-- `exit` gives a child to the first process. -/
theorem Family.reparent (hinit : p ≠ initproc) (hchild : (s.mem.proc q).parent = some p)
    (hpassed : ∀ r z, (s.mem.proc r).code.Passed z → (s'.mem.proc r).code.Passed z)
    (hself : (s'.mem.proc p).code.Passed q)
    (hmem : s'.mem = (s.mem.setProc q { s.mem.proc q with parent := some initproc }).setCode p k) :
    Family s'.mem := by
  have hparent : ∀ z, (s'.mem.proc z).parent =
      if z = q then some initproc else (s.mem.proc z).parent := by
    intro z
    by_cases hz : z = q <;> simp [hmem, Memory.proc_setProc, hz]
  have hsame : ∀ z, (s'.mem.proc z).state = (s.mem.proc z).state ∧
      (s'.mem.proc z).pid = (s.mem.proc z).pid ∧ (s'.mem.proc z).xstate = (s.mem.proc z).xstate := by
    intro z
    by_cases hz : z = q <;> simp [hmem, Memory.proc_setProc, hz]
  have hhistory : s'.mem.history = s.mem.history := by rw [hmem]; rfl
  refine ⟨h.knows_step hf.knows hstep, fun z r hz ↦ ?_, (hsame _).1 ▸ hf.init, fun z ↦ ?_,
    fun z r hz ↦ ?_, hhistory ▸ hf.reaps, hhistory ▸ hf.refusals⟩
  · rw [hparent] at hz
    rw [(hsame r).1]
    split at hz
    · obtain rfl := Option.some.inj hz
      exact hf.init
    · exact hf.live z r hz
  · exact (hf.exits z).congr (by rw [hhistory]) (by rw [hhistory]) (by rw [(hsame z).1])
      fun _ ↦ (hsame z).2
  · rw [hparent] at hz
    split at hz
    · rename_i hzq
      obtain rfl := Option.some.inj hz
      subst hzq
      -- The child was forked by the process that gives it away.
      have hline := hf.lineage z p hchild
      unfold Lineage at hline ⊢
      rw [hhistory]
      split
      · rfl
      · rename_i horphan
        rw [if_neg horphan] at hline
        exact .inr ⟨rfl, p, hline.resolve_right fun hp' ↦ hinit hp'.1, hself⟩
    · exact (hf.lineage z r hz).congr (by rw [hhistory]) (by rw [hhistory]) fun r' _ ↦ hpassed r' z

/-- `exit` makes the process a zombie. -/
theorem Family.zombie {status : ℤ} (hstate : (s.mem.proc p).state ≠ .zombie)
    (hgave : GaveAway s.mem p NPROC)
    (hpassed : ∀ r z, r ≠ p → (s.mem.proc r).code.Passed z → (s'.mem.proc r).code.Passed z)
    (hmem : s'.mem = (s.mem.setZombie p status).setCode p k) : Family s'.mem := by
  have hparent : ∀ z, (s'.mem.proc z).parent = (s.mem.proc z).parent := by
    intro z
    by_cases hz : z = p <;> simp [hmem, Memory.setZombie, Memory.proc_setProc, hz]
  have hsame : ∀ z, z ≠ p → (s'.mem.proc z).state = (s.mem.proc z).state ∧
      (s'.mem.proc z).pid = (s.mem.proc z).pid ∧ (s'.mem.proc z).xstate = (s.mem.proc z).xstate := by
    intro z hz
    simp [hmem, Memory.setZombie, Memory.proc_setProc, hz]
  have hnone : ∀ z, (s.mem.proc z).parent ≠ some p := fun z ↦ hgave.2 z z.2
  refine ⟨h.knows_step hf.knows hstep, fun z r hz ↦ ?_, ?_, fun z ↦ ?_, fun z r hz ↦ ?_,
    by rw [hmem]; exact hf.reaps, by rw [hmem]; exact hf.refusals⟩
  · rw [hparent] at hz
    rw [(hsame r (by rintro rfl; exact hnone z hz)).1]
    exact hf.live z r hz
  · rw [(hsame _ hgave.1.symm).1]
    exact hf.init
  · by_cases hz : z = p
    · subst hz
      obtain ⟨reaped, hreaped, hexits⟩ := hf.exits z
      rw [if_neg hstate, List.append_nil] at hexits
      refine ⟨reaped, by rw [hmem]; exact hreaped, ?_⟩
      simp [hmem, Memory.setZombie, hexits]
    · exact (hf.exits z).congr (by simp [hmem, Memory.setZombie, hz]) (by rw [hmem]; rfl)
        (by rw [(hsame z hz).1]) fun _ ↦ (hsame z hz).2
  · rw [hparent] at hz
    have hline := hf.lineage z r hz
    by_cases hcreator : s.mem.history.creator z = some p
    · -- The process that forked it has given it away.
      have hr : r = initproc := by
        unfold Lineage at hline
        split at hline
        · exact hline
        · refine (hline.resolve_left fun hr ↦ ?_).1
          exact hnone z (hz.trans (hr.symm.trans hcreator))
      simp [Lineage, hmem, Memory.setZombie, hcreator, hr]
    · refine Lineage.congr hline ?_ (by rw [hmem]; rfl) fun r' hr' ↦ ?_
      · simp [hmem, Memory.setZombie, hcreator]
      · exact hpassed r' z fun heq ↦ hcreator (heq ▸ hr')

/-- `wait` reaps a child. -/
theorem Family.reap {addr : ℕ} (hzombie : (s.mem.proc q).state = .zombie)
    (hchild : (s.mem.proc q).parent = some p)
    (hpassed : ∀ r z, (s.mem.proc r).code.Passed z → (s'.mem.proc r).code.Passed z)
    (hnot : ∀ r, ¬ (s.mem.proc r).code.Passed q)
    (hmem : s'.mem = (s.mem.reap p q addr).setCode p k) : Family s'.mem := by
  have hfreed : (s'.mem.proc q).parent = none ∧ (s'.mem.proc q).state = .unused := by
    simp [hmem, Memory.reap, Memory.freeproc]
  have hother : ∀ z, z ≠ q → (s'.mem.proc z).parent = (s.mem.proc z).parent ∧
      (s'.mem.proc z).state = (s.mem.proc z).state ∧
      (s'.mem.proc z).pid = (s.mem.proc z).pid ∧ (s'.mem.proc z).xstate = (s.mem.proc z).xstate := by
    intro z hz
    simp [hmem, Memory.reap, Memory.freeproc, Memory.proc_setProc, hz]
  have hlive : ∀ r, (s.mem.proc r).state.Live → (s'.mem.proc r).state.Live := by
    intro r hr
    have hne : r ≠ q := by
      rintro rfl
      rw [hzombie] at hr
      exact hr
    rwa [(hother r hne).2.1]
  have hparent : ∀ z r, (s'.mem.proc z).parent = some r → z ≠ q ∧ (s.mem.proc z).parent = some r := by
    intro z r hz
    have hne : z ≠ q := by
      rintro rfl
      rw [hfreed.1] at hz
      cases hz
    exact ⟨hne, (hother z hne).1 ▸ hz⟩
  refine ⟨h.knows_step hf.knows hstep, fun z r hz ↦ hlive r (hf.live z r (hparent z r hz).2),
    hlive _ hf.init, fun z ↦ ?_, fun z r hz ↦ ?_, fun z ↦ ?_, by rw [hmem]; exact hf.refusals⟩
  · by_cases hz : z = q
    · subst hz
      obtain ⟨reaped, hreaped, hexits⟩ := hf.exits z
      rw [if_pos hzombie] at hexits
      refine ⟨reaped ++ [((s.mem.proc z).pid, (s.mem.proc z).xstate)], ?_, ?_⟩
      · have hlast : Reap.Returns ((s.mem.proc z).pid, (s.mem.proc z).xstate)
            { caller := p, addr := addr, parent := (s.mem.proc z).parent,
              creator := s.mem.history.creator z, orphan := s.mem.history.orphan z,
              result := (s.mem.proc z).pid.toInt,
              copied := if addr = 0 then none else some (s.mem.proc z).xstate } := ⟨rfl, rfl⟩
        simp only [hmem, Memory.history_setCode, Memory.reap, Function.update_self]
        exact List.rel_append hreaped (.cons hlast .nil)
      · rw [hfreed.2, if_neg (by simp), List.append_nil, ← hexits, hmem]
        rfl
    · exact (hf.exits z).congr (by rw [hmem]; rfl) (by simp [hmem, Memory.reap, hz])
        (by rw [(hother z hz).2.1]) fun _ ↦ (hother z hz).2.2
  · exact (hf.lineage z r (hparent z r hz).2).congr (by rw [hmem]; rfl) (by rw [hmem]; rfl)
      fun r' _ ↦ hpassed r' z
  · by_cases hz : z = q
    · subst hz
      simp only [hmem, Memory.history_setCode, Memory.reap, Function.update_self, List.mem_append,
        List.mem_singleton]
      rintro r (hr | rfl)
      · exact hf.reaps z r hr
      · -- Nobody is giving the child away, since the caller has `wait_lock`.
        have hline := hf.lineage z p hchild
        refine ⟨hchild, ?_⟩
        unfold Lineage at hline
        split at hline
        · rename_i horphan
          exact (if_pos horphan).mpr hline
        · rename_i horphan
          refine (if_neg horphan).mpr (hline.resolve_right fun hgiven ↦ ?_)
          obtain ⟨-, r, -, hpass⟩ := hgiven
          exact hnot r hpass
    · simpa [hmem, Memory.reap, hz] using hf.reaps z

/-- `wait` returns -1. -/
theorem Family.refuse {copyFailed : Bool}
    (hpassed : ∀ r z, (s.mem.proc r).code.Passed z → (s'.mem.proc r).code.Passed z)
    (hreason : (s.mem.proc p).killed = true ∨ (∀ z, (s.mem.proc z).parent ≠ some p) ∨
      copyFailed = true)
    (hmem : s'.mem = (s.mem.refuse p copyFailed).setCode p k) : Family s'.mem := by
  have hsame : ∀ z, (s'.mem.proc z).parent = (s.mem.proc z).parent ∧
      (s'.mem.proc z).state = (s.mem.proc z).state ∧
      (s'.mem.proc z).pid = (s.mem.proc z).pid ∧ (s'.mem.proc z).xstate = (s.mem.proc z).xstate := by
    intro z
    simp [hmem, Memory.refuse]
  refine ⟨h.knows_step hf.knows hstep, fun z r hz ↦ ?_, ?_, fun z ↦ ?_, fun z r hz ↦ ?_,
    by rw [hmem]; exact hf.reaps, ?_⟩
  · rw [(hsame r).2.1]
    exact hf.live z r ((hsame z).1 ▸ hz)
  · rw [(hsame _).2.1]
    exact hf.init
  · exact (hf.exits z).congr (by rw [hmem]; rfl) (by rw [hmem]; rfl) (by rw [(hsame z).2.1])
      fun _ ↦ (hsame z).2.2
  · exact (hf.lineage z r ((hsame z).1 ▸ hz)).congr (by rw [hmem]; rfl) (by rw [hmem]; rfl)
      fun r' _ ↦ hpassed r' z
  · simp only [hmem, Memory.history_setCode, Memory.refuse, List.mem_append, List.mem_singleton]
    rintro r (hr | rfl)
    · exact hf.refusals r hr
    · simpa using hreason

end Event

/-- Every step keeps the invariant. -/
theorem Family.step (h : Inv s) (hf : Family s.mem) (hstep : Steps s c s') : Family s'.mem := by
  rcases h.quiet_or_event hstep with hquiet | ⟨p, m, k, hp, hmem, hevent⟩
  · exact hf.quiet h hstep hquiet
  have hpassed : (∀ status, (s.mem.proc p).code ≠ .at (.exitZombie status)) →
      ∀ r z, (s.mem.proc r).code.Passed z → (s'.mem.proc r).code.Passed z := by
    intro hcode r z hpass
    refine h.passed_step hstep hpass fun status hr ↦ ?_
    rw [Thread.exec.inj (hr.symm.trans hp)]
    exact hcode status
  have hstate := (h.state_of_exec hp).1
  have hknows := hf.knows p
  have hholds := hevent.holds
  cases hevent with
  | fork q pid ret hcode =>
    refine hf.fork h hstep ?_ (hpassed (by simp [hcode])) hmem
    rw [hstate, hcode]
    trivial
  | reparent i status hcode hparent =>
    rw [hcode] at hknows
    refine hf.reparent h hstep hknows.1 hparent (hpassed (by simp [hcode])) ?_ hmem
    rw [hmem, Memory.code_setCode_self]
    exact Nat.lt_succ_self _
  | zombie status hcode =>
    rw [hcode] at hknows
    refine hf.zombie h hstep ?_ hknows (fun r z hr hpass ↦ ?_) hmem
    · rw [hstate, hcode]
      simp [Code.runs, Point.runs]
    · exact h.passed_step hstep hpass fun _ hr' ↦ absurd (Thread.exec.inj (hr'.symm.trans hp)) hr
  | reap addr q ret hcode hzombie =>
    rw [hcode] at hknows
    refine hf.reap h hstep hzombie hknows.1 (hpassed (by simp [hcode])) (fun r hpass ↦ ?_) hmem
    have heq := h.eq_of_holds_cond hp hholds hpass.holds.2
    rw [heq, hcode] at hpass
    exact hpass
  | refuse addr i havekids ret hcode hi hrefuse =>
    rw [hcode] at hknows
    refine hf.refuse h hstep (hpassed (by simp [hcode])) ?_ hmem
    rcases hrefuse with hnone | hkilled
    · exact .inr (.inl fun z ↦ hknows.2 hnone z (lt_of_lt_of_le z.2 hi))
    · exact .inl hkilled
  | fail addr q ret hcode =>
    exact hf.refuse h hstep (hpassed (by simp [hcode])) (.inr (.inr rfl)) hmem

/-- The invariant holds in every run. -/
theorem Family.of_run {data : K.Data} {actions : List (Cpu × Input K)}
    (hrun : run Process.step (Process.boot K Cpu data) actions = .ok s) : Family s.mem := by
  refine run_induction Process.step (P := fun _ s ↦ Family s.mem) (.boot data) ?_ hrun
  intro actions action s s' hrun hf hstep
  exact hf.step (.of_run hrun) (step_steps hstep)

/-! ## Exit and wait -/

/-- A step in which a call of `wait` returns -1 changes no process but where the caller is. -/
theorem Inv.refuse_keeps (h : Inv s) (hstep : Steps s c s')
    (hrefuse : s'.mem.history.refusals ≠ s.mem.history.refusals) (z : Fin NPROC) :
    { s'.mem.proc z with code := (s.mem.proc z).code } = s.mem.proc z ∧
      s'.mem.history.exits z = s.mem.history.exits z ∧
      s'.mem.history.reaps z = s.mem.history.reaps z := by
  rcases h.quiet_or_event hstep with hquiet | ⟨p, m, k, hp, hmem, hevent⟩
  · rw [hquiet.history] at hrefuse
    exact absurd rfl hrefuse
  have hkeep : ∀ copyFailed, m = s.mem.refuse p copyFailed →
      { s'.mem.proc z with code := (s.mem.proc z).code } = s.mem.proc z ∧
      s'.mem.history.exits z = s.mem.history.exits z ∧
      s'.mem.history.reaps z = s.mem.history.reaps z := by
    rintro copyFailed rfl
    rw [hmem]
    refine ⟨?_, rfl, rfl⟩
    by_cases hz : z = p <;> simp [Memory.proc_setCode, Memory.refuse, hz]
  cases hevent with
  | refuse => exact hkeep false rfl
  | fail => exact hkeep true rfl
  | _ => exact absurd (by rw [hmem]; rfl) hrefuse

/-- The first process forks and waits; the new process exits with status 7. -/
def exitRun : List (Unit × Input (.any Unit Unit Unit)) :=
  let go (calls : List (Call Unit Unit Unit Unit)) : List (Unit × Input (.any Unit Unit Unit)) :=
    calls.map fun call ↦ ((), .go call false)
  -- The call does not matter outside of the client.
  let steps (n : ℕ) := go (List.replicate n (.store () ()))
  steps 4 ++ go [.fork fun _ ↦ ()] ++ steps 13 ++ go [.wait 1 fun _ ↦ ()] ++ steps 78 ++
    go [.exit 7] ++ steps 461

end Xv6.Process
