import Xv6.Process.Machine

/-!
# The Clock

A model of `sys_sleep` of `kernel/sysproc.c` and of `clockintr` of `kernel/trap.c`, as code that runs
on the machine of `kernel/proc.c`.  The interrupt handler runs in the context of the process that it
interrupts.
-/

namespace Xv6.Clock

open Process

/-- A call of `sys_sleep`, or a clock interrupt. -/
inductive Request where
  | sleep (n : Int32)
  | intr

/-- Where a process is in the code of the clock.  `user` is outside of it, with the result of the last
call. -/
inductive Loc where
  | user (result : ℤ)
  | sleepStart (n : Int32)
  | sleepLoop (ticks0 : UInt32) (n : Int32)
  | intr (result : ℤ)
  | intrWake (result : ℤ)
  | intrEnd (result : ℤ)

/-- The code of the clock; the data is `ticks`.  The comparison in the loop is one of `uint`. -/
def next (ticks : UInt32) (killed : Bool) (loc : Loc) (request : Request) :
    Call Loc UInt32 Unit Unit :=
  match loc with
  | .user result =>
    match request with
    | .sleep n => .acquire () (.sleepStart n)
    | .intr => .acquire () (.intr result)
  -- `sys_sleep`
  | .sleepStart n => .store ticks (.sleepLoop ticks n)
  | .sleepLoop ticks0 n =>
    if ticks - ticks0 < n.toUInt32 then
      if killed then .release () (.user (-1)) else .sleep () () (.sleepLoop ticks0 n)
    else .release () (.user 0)
  -- `clockintr`
  | .intr result => .store (ticks + 1) (.intrWake result)
  | .intrWake result => .wakeup () (.intrEnd result)
  | .intrEnd result => .release () (.user result)

end Xv6.Clock
