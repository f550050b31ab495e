import Xv6.Clock.Calls
import Xv6.Console.Calls
import Xv6.Pipes.Calls

/-!
# The Loops that Wait

The kernel with a pipe, the console and the clock: the code in which a process waits in a loop, tests
`p->killed`, and calls `sleep`.  `wait` is in the machine.
-/

namespace Xv6.Process

variable {Loc Data Lk Ch Loc' Data' Lk' Ch' : Type}

/-- Code as a part of more code, with more data, locks and channels. -/
def Call.map (loc : Loc → Loc') (data : Data → Data') (lk : Lk → Lk') (ch : Ch → Ch') :
    Call Loc Data Lk Ch → Call Loc' Data' Lk' Ch'
  | .acquire l k => .acquire (lk l) (loc k)
  | .release l k => .release (lk l) (loc k)
  | .store d k => .store (data d) (loc k)
  | .setOwn own k => .setOwn own (loc k)
  | .sleep c l k => .sleep (ch c) (lk l) (loc k)
  | .wakeup c k => .wakeup (ch c) (loc k)
  | .kill pid k => .kill pid (loc ∘ k)
  | .fork k => .fork (loc ∘ k)
  | .exit status => .exit status
  | .wait addr k => .wait addr (loc ∘ k)

end Xv6.Process

namespace Xv6.Waiting

open Process

/-- The parts of the kernel. -/
inductive Part where
  | pipe
  | console
  | clock
  deriving DecidableEq

structure Data where
  pipe : Pipes.Data
  cons : Console.Cons
  ticks : UInt32

/-- The channels `&pi->nread`, `&pi->nwrite`, `&cons.r` and `&ticks`. -/
inductive Ch where
  | pipe (ch : Pipes.Ch)
  | consR
  | ticks
  deriving DecidableEq

/-- Where a process is: outside, or in one of the parts. -/
inductive Loc where
  | user (result : ℤ)
  | pipe (loc : Pipes.Loc)
  | console (loc : Console.Loc)
  | clock (loc : Clock.Loc)

def Loc.ofPipe : Pipes.Loc → Loc
  | .user result => .user result
  | loc => .pipe loc

def Loc.ofConsole : Console.Loc → Loc
  | .user result => .user result
  | loc => .console loc

def Loc.ofClock : Clock.Loc → Loc
  | .user result => .user result
  | loc => .clock loc

/-- The inputs of a step: the part that a process outside calls, and the inputs of the parts. -/
structure Outside where
  part : Part
  pipe : Pipes.Outside
  console : Console.Outside
  clock : Clock.Request

section Next

variable (d : Data) (killed : Bool) (input : Outside)

def nextPipe (loc : Pipes.Loc) : Call Loc Data Part Ch :=
  (Pipes.next d.pipe killed loc input.pipe).map .ofPipe (fun pipe ↦ { d with pipe := pipe })
    (fun _ ↦ .pipe) .pipe

def nextConsole (loc : Console.Loc) : Call Loc Data Part Ch :=
  (Console.next d.cons killed loc input.console).map .ofConsole
    (fun cons ↦ { d with cons := cons }) (fun _ ↦ .console) (fun _ ↦ .consR)

def nextClock (loc : Clock.Loc) : Call Loc Data Part Ch :=
  (Clock.next d.ticks killed loc input.clock).map .ofClock (fun ticks ↦ { d with ticks := ticks })
    (fun _ ↦ .clock) (fun _ ↦ .ticks)

/-- The code of the parts. -/
def next : Loc → Call Loc Data Part Ch
  | .user result =>
    match input.part with
    | .pipe => nextPipe d killed input (.user result)
    | .console => nextConsole d killed input (.user result)
    | .clock => nextClock d killed input (.user result)
  | .pipe loc => nextPipe d killed input loc
  | .console loc => nextConsole d killed input loc
  | .clock loc => nextClock d killed input loc

end Next

/-- The kernel with a pipe, the console and the clock. -/
abbrev kernel : Client where
  Loc := Loc
  Data := Data
  Lk := Part
  Ch := Ch
  Input := Outside
  start := .user 0
  next d killed loc input := next d killed input loc

end Xv6.Waiting
