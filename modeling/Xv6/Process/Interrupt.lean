import Xv6.Process.Wakeup

/-!
# Killing a Process that Waits

Some loops test `p->killed` before they call `sleep`, so that a killed process leaves them.  `kill`
wakes a process that sleeps.  A process that is killed after its test and before it sleeps sleeps on
with `p->killed` set: `kill` does not find it asleep, and it does not test again.  If no process is
killed in between, no killed process is left asleep in such a loop.
-/

namespace Xv6.Process

open Lib

/-- A call that goes on between the test of `p->killed` and `sleep`, or sleeps in a loop with such a
test, comes after the test or makes it.  Locks are not taken in between, and the loops start again
after `sleep`. -/
def Call.Tested {Loc Data Lk Ch : Type} (past loop : Loc → Bool) (tested : Prop) :
    Call Loc Data Lk Ch → Prop
  | .acquire _ k => past k = false
  | .release _ k | .store _ k | .setOwn _ k | .wakeup _ k => past k = true → tested
  | .sleep _ _ k => past k = false ∧ (loop k = true → tested)
  | .kill _ _ | .fork _ | .exit _ | .wait _ _ => True

/-- The loops of a client that test `p->killed`: `past` says where a process is after the test and
before `sleep`, with a lock held, and `loop` where `sleep` returns to. -/
structure Loops (K : Client) where
  past : K.Loc → Bool
  loop : K.Loc → Bool
  next : ∀ data killed loc input,
    (K.next data killed loc input).Tested past loop (killed = false ∨ past loc = true)

variable {K : Client} {L : Loops K} {Cpu : Type} {s s' : State K Cpu} {c : Cpu} {m m' : Memory K}
  {p q : Fin NPROC} {input : Input K} {code k : Code K} {w : Proc K}

/-- `sleep` is called in a loop that tests `p->killed`: by `wait`, or by the client. -/
def SleepRet.tests (L : Loops K) : SleepRet K → Bool
  | .client loc _ => L.loop loc
  | .wait _ _ => true

def WakeRet.past (L : Loops K) : WakeRet K → Bool
  | .client loc held => L.past loc && !held.isEmpty
  | .reparent _ _ | .exit _ => false

/-- A process has found that it is not killed and goes on to sleep. -/
def Point.past (L : Loops K) : Point K → Bool
  | .client loc held => L.past loc && !held.isEmpty
  | .wakeupLoop _ _ r | .wakeupTest _ _ r | .wakeupRelease _ _ r => r.past L
  | .sleepAcquire _ r | .sleepRelease _ r | .sleepSet _ r => r.tests L
  | _ => false

def Code.past (L : Loops K) : Code K → Bool
  | .at b => b.past L
  | _ => false

/-- A process sleeps in a loop that tests `p->killed`. -/
def Code.waits (L : Loops K) : Code K → Bool
  | .at (.sleepSched _ r) | .at (.sleepTidy r) => r.tests L
  | _ => false

def SleepRet.Fresh (L : Loops K) : SleepRet K → Prop
  | .client loc _ => L.past loc = false
  | .wait _ _ => True

/-- After `sleep` a process tests again. -/
def Code.Fresh (L : Loops K) : Code K → Prop
  | .at (.sleepAcquire _ r) | .at (.sleepRelease _ r) | .at (.sleepSet _ r)
  | .at (.sleepSched _ r) | .at (.sleepTidy r) | .at (.sleepUnlock r)
  | .at (.sleepReacquire r) => r.Fresh L
  | .yieldAcquire b | .yieldSet b | .yieldSched b | .yieldRelease b =>
    ∀ r, b.point = .sleepReacquire r → r.Fresh L
  | _ => True

theorem Code.past_client {loc : K.Loc} {held : List K.Lk} :
    (Code.at (.client loc held)).past L = true ↔ L.past loc = true ∧ held ≠ [] := by
  simp [Code.past, Point.past]

theorem WakeRet.past_point (r : WakeRet K) : r.point.past L = r.past L := by
  cases r <;> rfl

theorem WakeRet.fresh_point (r : WakeRet K) : (Code.at r.point).Fresh L := by
  cases r <;> trivial

theorem Idle.past (b : Idle K) : b.point.past L = false := by
  obtain ⟨b, hb⟩ := b
  change b.past L = false
  cases b with
  | client loc held =>
    simp only [Point.unlocked] at hb
    simp [Point.past, hb]
  | _ => first | rfl | cases hb

theorem Idle.fresh (b : Idle K) (h : ∀ r, b.point = .sleepReacquire r → r.Fresh L) :
    (Code.at b.point).Fresh L := by
  obtain ⟨b, hb⟩ := b
  change (Code.at b).Fresh L
  cases b with
  | sleepReacquire r => exact h r rfl
  | _ => trivial

/-- A step of the client that goes on between the test and `sleep`. -/
theorem past_clientOp {input : K.Input} {loc : K.Loc} {held : List K.Lk}
    (h : (clientOp m p input loc held).result m = some (m', k)) (hk : k.past L = true) :
    (m'.proc p).killed = (m.proc p).killed ∧
      ((Code.at (.client loc held)).past L = true ∨ (m.proc p).killed = false) := by
  have hnext := L.next m.data (m.proc p).killed loc input
  -- The test was made before if it is not made now: the lock is still held.
  have hearlier : held ≠ [] → (m.proc p).killed = false ∨ L.past loc = true →
      (Code.at (.client loc held)).past L = true ∨ (m.proc p).killed = false := by
    rintro hheld (hnot | hpast)
    · exact .inr hnot
    · exact .inl (Code.past_client.mpr ⟨hpast, hheld⟩)
  simp only [clientOp, goto] at h
  revert h hnext
  cases K.next m.data (m.proc p).killed loc input with
  | acquire lk loc' =>
    rintro h hnext
    cases h
    have hfalse : L.past loc' = false := hnext
    simp [Code.past, Point.past, hfalse] at hk
  | release lk loc' =>
    rintro h hnext
    cases h
    rw [Code.past_client] at hk
    refine ⟨rfl, hearlier ?_ (hnext hk.1)⟩
    rintro rfl
    exact hk.2 rfl
  | sleep ch lk loc' =>
    rintro h hnext
    dsimp only at h
    split at h <;> cases h
    rename_i hheld
    exact ⟨rfl, hearlier (by simp [hheld]) (hnext.2 hk)⟩
  | store data loc' =>
    rintro h hnext
    cases h
    rw [Code.past_client] at hk
    exact ⟨rfl, hearlier hk.2 (hnext hk.1)⟩
  | setOwn own loc' =>
    rintro h hnext
    cases h
    rw [Code.past_client] at hk
    exact ⟨by simp, hearlier hk.2 (hnext hk.1)⟩
  | wakeup ch loc' =>
    rintro h hnext
    cases h
    obtain hk := Code.past_client.mp hk
    exact ⟨rfl, hearlier hk.2 (hnext hk.1)⟩
  | _ =>
    rintro h -
    dsimp only at h
    (repeat' split at h) <;> cases h
    all_goals cases hk

/-- A process that goes on between its test and `sleep` has made the test before, or makes it, and
its mark has not changed. -/
theorem past_result (h : (code.op m p input).result m = some (m', k)) (hfresh : code.Fresh L)
    (hk : k.past L = true) : (m'.proc p).killed = (m.proc p).killed ∧
      (code.past L = true ∨ (m.proc p).killed = false) := by
  cases code with
  | «at» b =>
    cases input with
    | timer =>
      simp only [Code.op] at h
      split at h <;> cases h
      cases hk
    | go input fail =>
      cases b with
      | client loc held => exact past_clientOp h hk
      | sleepReacquire r =>
        cases h
        cases r with
        | client loc lk =>
          have hfalse : L.past loc = false := hfresh
          simp [SleepRet.point, Code.past, Point.past, hfalse] at hk
        | wait addr ret => cases hk
      | wakeupLoop ch i r =>
        simp only [Code.op, pointOp, goto] at h
        (repeat' split at h) <;> cases h
        · exact ⟨rfl, .inl hk⟩
        · exact ⟨rfl, .inl hk⟩
        · exact ⟨rfl, .inl (r.past_point.symm.trans hk)⟩
      | wakeupTest ch q r =>
        simp only [Code.op, pointOp, goto] at h
        split at h <;> cases h
        · refine ⟨?_, .inl hk⟩
          simp only [Memory.setState, Memory.proc_setProc]
          split <;> simp_all
        · exact ⟨rfl, .inl hk⟩
      | waitScan addr i havekids ret =>
        simp only [Code.op, pointOp, goto] at h
        (repeat' split at h) <;> cases h <;> try cases hk
        rename_i hgo
        simp only [Bool.or_eq_true, not_or, Bool.not_eq_true] at hgo
        exact ⟨rfl, .inr hgo.2⟩
      | _ =>
        simp only [Code.op, pointOp, goto] at h
        (repeat' split at h) <;> cases h <;>
          first
            | cases hk
            | exact ⟨rfl, .inl hk⟩
            | exact absurd rfl (Code.past_client.mp hk).2
  | yieldRelease b =>
    cases h
    have hfalse := b.past (L := L)
    rw [Code.past, hfalse] at hk
    cases hk
  | _ =>
    cases h
    cases hk

/-- After `sleep` a process tests again. -/
theorem fresh_result (h : (code.op m p input).result m = some (m', k)) (hfresh : code.Fresh L) :
    k.Fresh L := by
  cases code with
  | «at» b =>
    cases input with
    | timer =>
      simp only [Code.op] at h
      split at h <;> cases h
      rintro r hr
      obtain rfl : b = .sleepReacquire r := hr
      exact hfresh
    | go input fail =>
      cases b with
      | client loc held =>
        have hnext := L.next m.data (m.proc p).killed loc input
        simp only [Code.op, pointOp, clientOp, goto] at h
        (repeat' split at h) <;> cases h <;> try trivial
        rename_i heq _
        rw [heq] at hnext
        exact hnext.1
      | sleepReacquire r =>
        cases h
        cases r <;> trivial
      | wakeupLoop ch i r =>
        simp only [Code.op, pointOp, goto] at h
        (repeat' split at h) <;> cases h <;> try trivial
        exact r.fresh_point
      | _ =>
        simp only [Code.op, pointOp, goto] at h
        (repeat' split at h) <;> cases h <;> exact hfresh
  | yieldRelease b =>
    cases h
    exact b.fresh hfresh
  | _ =>
    cases h
    exact hfresh

/-- A process that sleeps in a loop with a test was about to sleep, or slept, and its mark has not
changed. -/
theorem waits_result (h : (code.op m p input).result m = some (m', k)) (hk : k.waits L = true) :
    (m'.proc p).killed = (m.proc p).killed ∧
      (code.past L = true ∨ code.waits L = true ∧ m' = m) := by
  cases code with
  | «at» b =>
    cases input with
    | timer =>
      simp only [Code.op] at h
      split at h <;> cases h
      cases hk
    | go input fail =>
      cases b with
      | sleepSet ch r =>
        cases h
        exact ⟨by simp, .inl hk⟩
      | sleepSched ch r =>
        cases h
        exact ⟨rfl, .inr ⟨hk, rfl⟩⟩
      | sleepReacquire r => cases r <;> cases h <;> cases hk
      | wakeupLoop ch i r =>
        simp only [Code.op, pointOp, goto] at h
        (repeat' split at h) <;> cases r <;> cases h <;> cases hk
      | _ =>
        simp only [Code.op, pointOp, clientOp, goto] at h
        (repeat' split at h) <;> cases h <;> cases hk
  | yieldRelease b =>
    obtain ⟨b, hb⟩ := b
    cases h
    cases b <;> first | cases hk | cases hb
  | _ =>
    cases h
    cases hk

/-! ## The invariant -/

/-- Between its test and `sleep` a process is not killed, and a killed process does not sleep. -/
structure Awake (L : Loops K) (m : Memory K) : Prop where
  fresh : ∀ p, (m.proc p).code.Fresh L
  past : ∀ p, (m.proc p).code.past L = true → (m.proc p).killed = false
  waits : ∀ p, (m.proc p).state = .sleeping → (m.proc p).code.waits L = true →
    (m.proc p).killed = false

/-- The process that `kill` is about to test, and the pid that it looks for. -/
def Code.aims : Code K → Option (Fin NPROC × Int32)
  | .at (.killTest pid q _) => some (q, pid)
  | _ => none

/-- `kill` is not about to mark a process that has made its test and is not asleep yet. -/
def State.NoKillBetween (L : Loops K) (s : State K Cpu) : Prop :=
  ∀ p, ∀ x ∈ (s.mem.proc p).code.aims,
    (s.mem.proc x.1).pid = x.2 → (s.mem.proc x.1).code.past L = false

instance (s : State K Cpu) : Decidable (s.NoKillBetween L) :=
  @Nat.decidableForallFin NPROC _ fun _ ↦ @Option.decidableForallMem _ _ inferInstance _

namespace Awake

theorem boot (data : K.Data) : Awake L (boot K Cpu data).mem := by
  constructor <;> intro p <;> simp only [Process.boot] <;> split <;>
    simp [Code.Fresh, Code.past, Point.past, Code.waits]

/-- Only the entry of one process changes. -/
theorem set (h : Awake L m) (hfresh : w.code.Fresh L) (hpast : w.code.past L = true → w.killed = false)
    (hwaits : w.state = .sleeping → w.code.waits L = true → w.killed = false) :
    Awake L (m.setProc p w) := by
  constructor <;> intro q <;> rw [Memory.proc_setProc] <;> split
  · exact hfresh
  · exact h.fresh q
  · exact hpast
  · exact h.past q
  · exact hwaits
  · exact h.waits q

/-- What another process does. -/
theorem of_change (h : Awake L s.mem) (hkill : s.NoKillBetween L)
    (hchange : Change p q (s.mem.proc p).code (s.mem.proc q) w) :
    w.code.Fresh L ∧ (w.code.past L = true → w.killed = false) ∧
      (w.state = .sleeping → w.code.waits L = true → w.killed = false) := by
  cases hchange with
  | same => exact ⟨h.fresh q, h.past q, h.waits q⟩
  | parent parent hchild => exact ⟨h.fresh q, h.past q, h.waits q⟩
  | wake hlock hstate => exact ⟨h.fresh q, h.past q, fun hsleep ↦ by cases hsleep⟩
  | kill ret hcode =>
    refine ⟨h.fresh q, fun hpast ↦ ?_, fun hsleep ↦ ?_⟩
    · have hnot := hkill p (q, (s.mem.proc q).pid) (by rw [hcode]; rfl) rfl
      rw [hnot] at hpast
      cases hpast
    · dsimp only at hsleep
      split at hsleep
      · cases hsleep
      · exact absurd hsleep ‹_›
  | alloc pid hlock hstate =>
    refine ⟨trivial, fun hpast ↦ ?_, fun hsleep ↦ ?_⟩
    · cases hpast
    · cases hsleep
  | copy own hlock hforks => exact ⟨h.fresh q, h.past q, h.waits q⟩
  | free hlock hstate => exact ⟨h.fresh q, fun _ ↦ rfl, fun _ _ ↦ rfl⟩
  | start hlock hforks => exact ⟨h.fresh q, h.past q, fun hsleep ↦ by cases hsleep⟩

/-- What a process does itself. -/
theorem of_result (h : Awake L m) (hop : ((m.proc p).code.op m p input).result m = some (m', k)) :
    k.Fresh L ∧ (k.past L = true → (m'.proc p).killed = false) ∧
      ((m'.proc p).state = .sleeping → k.waits L = true → (m'.proc p).killed = false) := by
  refine ⟨fresh_result hop (h.fresh p), fun hk ↦ ?_, fun hstate hk ↦ ?_⟩
  · obtain ⟨hsame, hpast | hnot⟩ := past_result hop (h.fresh p) hk
    · rw [hsame, h.past p hpast]
    · rw [hsame, hnot]
  · obtain ⟨hsame, hpast | ⟨hwaits, hm⟩⟩ := waits_result hop hk
    · rw [hsame, h.past p hpast]
    · rw [hm] at hstate ⊢
      exact h.waits p hstate hwaits

/-- Every step keeps killed processes awake, if none is killed between its test and `sleep`. -/
theorem step [DecidableEq Cpu] (h : Awake L s.mem) (hkill : s.NoKillBetween L)
    (hstep : Steps s c s') : Awake L s'.mem := by
  cases hstep with
  | schedRun q hthread hstate =>
    refine h.set (h.fresh q) (h.past q) fun hsleep ↦ ?_
    cases hsleep
  | schedSwitch q hthread => exact h.set (h.fresh q) (h.past q) (h.waits q)
  | acquire p l k input hthread hop hlock =>
    obtain ⟨hfresh, hpast, hwaits⟩ := h.of_result (congrArg (Op.result s.mem) hop)
    exact h.set hfresh hpast hwaits
  | release p l k input hthread hop hlock =>
    obtain ⟨hfresh, hpast, hwaits⟩ := h.of_result (congrArg (Op.result s.mem) hop)
    exact h.set hfresh hpast hwaits
  | swtch p k input hthread hop hstate =>
    obtain ⟨hfresh, hpast, hwaits⟩ := h.of_result (congrArg (Op.result s.mem) hop)
    exact h.set hfresh hpast hwaits
  | store p m k input hthread hop =>
    obtain ⟨hfresh, hpast, hwaits⟩ := h.of_result (congrArg (Op.result s.mem) hop)
    have hothers : ∀ q, q ≠ p → _ := fun q hq ↦ h.of_change hkill (op_store_other hop hq)
    constructor <;> intro q <;> simp only [State.setMem, Memory.proc_setCode] <;> split <;>
      rename_i hq
    · exact hfresh
    · exact (hothers q hq).1
    · exact hpast
    · exact (hothers q hq).2.1
    · exact hwaits
    · exact (hothers q hq).2.2
  | _ => exact h

end Awake

/-- If no process is killed between its test of `p->killed` and `sleep`, no killed process sleeps in a
loop that makes this test. -/
theorem Loops.awake_of_run [DecidableEq Cpu] (L : Loops K) {data : K.Data}
    {actions : List (Cpu × Input K)}
    (hkill : Along Process.step (Process.boot K Cpu data) (State.NoKillBetween L) actions)
    (hrun : run Process.step (Process.boot K Cpu data) actions = .ok s) : Awake L s.mem :=
  run_induction_along Process.step (P := fun s ↦ Awake L s.mem) (Awake.boot data)
    (fun _ _ _ hkill h hstep ↦ h.step hkill (step_steps hstep)) hkill hrun

end Xv6.Process
