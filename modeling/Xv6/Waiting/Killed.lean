import Xv6.Process.Interrupt
import Xv6.Waiting.Calls

/-!
# Killed Processes that Wait

`pipewrite`, `piperead`, `consoleread`, `sys_sleep` and `wait` test `p->killed` before they call
`sleep`.  No killed process is left asleep in one of them, unless it was killed between the test and
`sleep`.
-/

namespace Xv6.Process

variable {Loc Data Lk Ch Loc' Data' Lk' Ch' : Type} {past loop : Loc' → Bool} {tested : Prop}

theorem Call.Tested.map {call : Call Loc Data Lk Ch} {loc : Loc → Loc'} (data : Data → Data')
    (lk : Lk → Lk') (ch : Ch → Ch') (h : call.Tested (past ∘ loc) (loop ∘ loc) tested) :
    (call.map loc data lk ch).Tested past loop tested := by
  cases call <;> exact h

end Xv6.Process

namespace Xv6.Waiting

open Lib Process

/-- `pipewrite` calls `wakeup` between the test and `sleep`. -/
def Loc.past : Loc → Bool
  | .pipe (.writeSleep _ _) => true
  | _ => false

/-- Where the loops start. -/
def Loc.loop : Loc → Bool
  | .pipe (.writeLoop _ _ _) | .pipe (.readWait _) | .console (.readLoop _ _)
  | .clock (.sleepLoop _ _) => true
  | _ => false

section Tested

variable (d : Data) (killed : Bool) (input : Outside)

theorem nextPipe_tested (loc : Pipes.Loc) : (nextPipe d killed input loc).Tested Loc.past Loc.loop
    (killed = false ∨ (Loc.ofPipe loc).past = true) := by
  refine .map _ _ _ ?_
  cases loc with
  | writeLoop n i stored =>
    rw [Pipes.next]
    split
    · split
      · exact fun h ↦ by cases h
      · rename_i hgo
        simp only [Bool.or_eq_true, not_or, Bool.not_eq_true] at hgo
        (repeat' split) <;> exact fun _ ↦ .inl hgo.2
    · exact fun h ↦ by cases h
  | writeSleep n i => exact ⟨rfl, fun _ ↦ .inr rfl⟩
  | readWait n =>
    rw [Pipes.next]
    split
    · split
      · exact fun h ↦ by cases h
      · rename_i hgo
        exact ⟨rfl, fun _ ↦ .inl (Bool.eq_false_of_not_eq_true hgo)⟩
    · exact fun h ↦ by cases h
  | _ =>
    simp only [Pipes.next]
    (repeat' split) <;> first | rfl | trivial | exact fun h ↦ by cases h

theorem nextConsole_tested (loc : Console.Loc) :
    (nextConsole d killed input loc).Tested Loc.past Loc.loop
      (killed = false ∨ (Loc.ofConsole loc).past = true) := by
  refine .map _ _ _ ?_
  cases loc with
  | readLoop target n =>
    rw [Console.next]
    split
    · split
      · split
        · exact fun h ↦ by cases h
        · rename_i hgo
          exact ⟨rfl, fun _ ↦ .inl (Bool.eq_false_of_not_eq_true hgo)⟩
      · dsimp only
        split <;> exact fun h ↦ by cases h
    · exact fun h ↦ by cases h
  | _ =>
    simp only [Console.next]
    (repeat' split) <;> first | rfl | exact fun h ↦ by cases h

theorem nextClock_tested (loc : Clock.Loc) :
    (nextClock d killed input loc).Tested Loc.past Loc.loop
      (killed = false ∨ (Loc.ofClock loc).past = true) := by
  refine .map _ _ _ ?_
  cases loc with
  | sleepLoop ticks0 n =>
    rw [Clock.next]
    split
    · split
      · exact fun h ↦ by cases h
      · rename_i hgo
        exact ⟨rfl, fun _ ↦ .inl (Bool.eq_false_of_not_eq_true hgo)⟩
    · exact fun h ↦ by cases h
  | _ =>
    simp only [Clock.next]
    (repeat' split) <;> first | rfl | exact fun h ↦ by cases h

end Tested

/-- The loops that test `p->killed` before they sleep. -/
def loops : Loops kernel where
  past := Loc.past
  loop := Loc.loop
  next d killed loc input := by
    cases loc with
    | user result =>
      change (next d killed input (.user result)).Tested Loc.past Loc.loop _
      rw [next]
      cases input.part with
      | pipe => exact nextPipe_tested d killed input (.user result)
      | console => exact nextConsole_tested d killed input (.user result)
      | clock => exact nextClock_tested d killed input (.user result)
    | pipe loc =>
      have hpast : (Loc.ofPipe loc).past = (Loc.pipe loc).past := by cases loc <;> rfl
      exact hpast ▸ nextPipe_tested d killed input loc
    | console loc =>
      have hpast : (Loc.ofConsole loc).past = (Loc.console loc).past := by cases loc <;> rfl
      exact hpast ▸ nextConsole_tested d killed input loc
    | clock loc =>
      have hpast : (Loc.ofClock loc).past = (Loc.clock loc).past := by cases loc <;> rfl
      exact hpast ▸ nextClock_tested d killed input loc

/-- If no process is killed between its test of `p->killed` and `sleep`, then in every state no killed
process sleeps in `wait`, `pipewrite`, `piperead`, `consoleread` or `sys_sleep`. -/
theorem killed_not_left_asleep {Cpu : Type} [DecidableEq Cpu] {data : Data}
    {actions : List (Cpu × Input kernel)} {s : State kernel Cpu}
    (hkill : Along step (boot kernel Cpu data) (State.NoKillBetween loops) actions)
    (hrun : run step (boot kernel Cpu data) actions = .ok s) (p : Fin NPROC)
    (hsleep : (s.mem.proc p).state = .sleeping) (hloop : (s.mem.proc p).code.waits loops = true) :
    (s.mem.proc p).killed = false :=
  (loops.awake_of_run hkill hrun).waits p hsleep hloop

/-- The data after boot. -/
def start : Data where
  pipe := Pipes.pipealloc fun _ ↦ 0
  cons := { buf := fun _ ↦ 0, r := 0, w := 0, e := 0 }
  ticks := 0

/-- A process makes a step; outside it calls `request`. -/
def go {Cpu : Type} (c : Cpu) (request : Pipes.Request) : Cpu × Input kernel :=
  (c, .go { part := .pipe, pipe := { request := request, copyin := none, copyout := false },
            console := { request := .read 0, copyout := false }, clock := .intr } false)

/-- The first process forks, the new process starts on another CPU, and the first process calls `wait`
and comes to `sleep`. -/
def waitRun : List (Bool × Input kernel) :=
  List.replicate 18 (go false .fork) ++ List.replicate 7 (go true (.kill 1)) ++
    List.replicate 69 (go false (.wait 0))

/-- The result of the last call of a process that is outside of the kernel. -/
def outside : Code kernel → Option ℤ
  | .at (.client (.user result) _) => some result
  | _ => none

/-- The first process falls asleep in `wait`; it is not killed. -/
theorem killed_not_left_asleep_wait : ∃ s,
    run step (boot kernel Bool start) (waitRun ++ List.replicate 4 (go false (.wait 0))) = .ok s ∧
    (s.mem.proc 0).state = .sleeping ∧ (s.mem.proc 0).code.waits loops = true ∧
    (s.mem.proc 0).killed = false := by
  have hyields : yields (run step (boot kernel Bool start)
      (waitRun ++ List.replicate 4 (go false (.wait 0))))
      (fun s ↦ (s.mem.proc 0).state = .sleeping ∧
        (s.mem.proc 0).code.waits loops = true) = true := by decide +kernel
  have hkill : along step (State.NoKillBetween loops) (boot kernel Bool start)
      (waitRun ++ List.replicate 4 (go false (.wait 0))) = true := by decide +kernel
  obtain ⟨s, hrun, hsleep, hloop⟩ := exists_of_yields hyields
  exact ⟨s, hrun, hsleep, hloop,
    killed_not_left_asleep ((along_iff step).mp hkill) hrun 0 hsleep hloop⟩

/-- The new process kills the first one, which has found in `wait` that it is not killed and has not
gone to sleep yet.  `kill` returns 0, and the first process falls asleep, killed. -/
theorem killed_left_asleep_wait : ∃ s, run step (boot kernel Bool start)
      (waitRun ++ List.replicate 4 (go true (.kill 1)) ++ List.replicate 4 (go false (.wait 0))) =
        .ok s ∧
    (s.mem.proc 0).state = .sleeping ∧ (s.mem.proc 0).code.waits loops = true ∧
    (s.mem.proc 0).killed = true ∧ outside (s.mem.proc 1).code = some 0 := by
  have hyields : yields (run step (boot kernel Bool start)
      (waitRun ++ List.replicate 4 (go true (.kill 1)) ++ List.replicate 4 (go false (.wait 0))))
      (fun s ↦ (s.mem.proc 0).state = .sleeping ∧ (s.mem.proc 0).code.waits loops = true ∧
        (s.mem.proc 0).killed = true ∧ outside (s.mem.proc 1).code = some 0) = true := by
    decide +kernel
  exact exists_of_yields hyields

end Xv6.Waiting
