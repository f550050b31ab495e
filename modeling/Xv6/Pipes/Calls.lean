import Xv6.Lib.Window
import Xv6.Process.Machine

/-!
# Pipes

A model of `pipewrite`, `piperead` and `pipeclose` of `kernel/pipe.c`, as code that runs on the
machine of `kernel/proc.c`: any number of processes call them on one pipe, fork, exit, wait and kill
each other.  A step of this code tests and changes the pipe between two operations on locks or
channels; it holds `pi->lock` there.

The bytes that have gone through the pipe are recorded beside it.
-/

namespace Xv6.Pipes

open Process

abbrev PIPESIZE : ℕ := 512

theorem neZero_PIPESIZE : NeZero PIPESIZE := ⟨by decide⟩

/-- `struct pipe`, without its lock.  The counters are of type `uint`. -/
structure Pipe where
  data : Fin PIPESIZE → UInt8
  nread : UInt32
  nwrite : UInt32
  readopen : Bool
  writeopen : Bool

/-- The bytes that `pipewrite` has stored, the bytes that `piperead` has copied out and counted in
its result, and how many bytes it has taken from the buffer and failed to copy out.  No code reads
this. -/
structure Traffic where
  written : List UInt8
  delivered : List UInt8
  failed : ℕ

/-- The memory of the pipe; `freed` says that `pipeclose` has called `kfree`. -/
structure Data where
  pi : Pipe
  freed : Bool
  traffic : Traffic

/-- The channels `&pi->nread` and `&pi->nwrite`. -/
inductive Ch where
  | nread
  | nwrite
  deriving DecidableEq

/-- What a process can do: a call on the pipe, or another system call. -/
inductive Request where
  | write (n : ℤ)
  | read (n : ℤ)
  | close (writable : Bool)
  | kill (pid : Int32)
  | fork
  | exit (status : ℤ)
  | wait (addr : ℕ)

/-- The inputs of a step: the next call of a process, the byte that `copyin` reads unless it fails,
and whether `copyout` succeeds. -/
structure Outside where
  request : Request
  copyin : Option UInt8
  copyout : Bool

/-- Where a process is in the code of pipes.  `user` is outside of it, with the result of the last
call.  In the loop of `pipewrite`, `stored` says that a byte has been stored since the lock was last
taken; no code reads it. -/
inductive Loc where
  | user (result : ℤ)
  | writeLoop (n : ℤ) (i : ℕ) (stored : Bool)
  | writeSleep (n : ℤ) (i : ℕ)
  | writeEnd (i : ℕ)
  | readWait (n : ℤ)
  | readLoop (n : ℤ) (i : ℕ)
  | readBreak (i : ℕ)
  | readEnd (i : ℕ)
  | close (writable : Bool)
  | closeWake (writable : Bool)
  | closeEnd
  | closeFree

/-- `pi->nwrite == pi->nread + PIPESIZE`. -/
def Pipe.full (pi : Pipe) : Bool := pi.nwrite = pi.nread + UInt32.ofNat PIPESIZE

/-- `pi->nread == pi->nwrite`. -/
def Pipe.empty (pi : Pipe) : Bool := pi.nread = pi.nwrite

namespace Data

/-- `pi->data[pi->nwrite++ % PIPESIZE] = ch`. -/
def store (d : Data) (ch : UInt8) : Data :=
  { d with
    pi := { d.pi with
      data := Function.update d.pi.data (Fin.ofNat PIPESIZE d.pi.nwrite.toNat) ch
      nwrite := d.pi.nwrite + 1 }
    traffic := { d.traffic with written := d.traffic.written ++ [ch] } }

/-- `pi->data[pi->nread++ % PIPESIZE]`, and what `copyout` does with it. -/
def take (d : Data) (copyout : Bool) : Data :=
  { d with
    pi := { d.pi with nread := d.pi.nread + 1 }
    traffic :=
      if copyout then
        { d.traffic with delivered := d.traffic.delivered ++
            [d.pi.data (Fin.ofNat PIPESIZE d.pi.nread.toNat)] }
      else { d.traffic with failed := d.traffic.failed + 1 } }

/-- `pi->writeopen = 0` or `pi->readopen = 0`. -/
def close (d : Data) (writable : Bool) : Data :=
  if writable then { d with pi := { d.pi with writeopen := false } }
  else { d with pi := { d.pi with readopen := false } }

end Data

/-- The code of pipes.  A freed pipe is not called any more: its files are closed. -/
def next (d : Data) (killed : Bool) (loc : Loc) (input : Outside) : Call Loc Data Unit Ch :=
  match loc with
  | .user _ =>
    match input.request with
    | .write n => if d.freed then .store d loc else .acquire () (.writeLoop n 0 false)
    | .read n => if d.freed then .store d loc else .acquire () (.readWait n)
    | .close writable => if d.freed then .store d loc else .acquire () (.close writable)
    | .kill pid => .kill pid .user
    | .fork => .fork .user
    | .exit status => .exit status
    | .wait addr => .wait addr .user
  -- `pipewrite`
  | .writeLoop n i _ =>
    if i < n then
      if !d.pi.readopen || killed then .release () (.user (-1))
      else if d.pi.full then .wakeup .nread (.writeSleep n i)
      else
        match input.copyin with
        | none => .wakeup .nread (.writeEnd i)
        | some ch => .store (d.store ch) (.writeLoop n (i + 1) true)
    else .wakeup .nread (.writeEnd i)
  | .writeSleep n i => .sleep .nwrite () (.writeLoop n i false)
  | .writeEnd i => .release () (.user i)
  -- `piperead`
  | .readWait n =>
    if d.pi.empty && d.pi.writeopen then
      if killed then .release () (.user (-1)) else .sleep .nread () (.readWait n)
    else .store d (.readLoop n 0)
  | .readLoop n i =>
    if i < n && !d.pi.empty then
      .store (d.take input.copyout) (if input.copyout then .readLoop n (i + 1) else .readBreak i)
    else .wakeup .nwrite (.readEnd i)
  | .readBreak i => .wakeup .nwrite (.readEnd i)
  | .readEnd i => .release () (.user i)
  -- `pipeclose`
  | .close writable => .store (d.close writable) (.closeWake writable)
  | .closeWake writable => .wakeup (if writable then .nread else .nwrite) .closeEnd
  | .closeEnd => .release () (if !d.pi.readopen && !d.pi.writeopen then .closeFree else .user 0)
  | .closeFree => .store { d with freed := true } (.user 0)

/-- The kernel with one pipe. -/
abbrev kernel : Client where
  Loc := Loc
  Data := Data
  Lk := Unit
  Ch := Ch
  Input := Outside
  start := .user 0
  next := next

/-- The pipe that `pipealloc` makes, in a page with any contents. -/
def pipealloc (data : Fin PIPESIZE → UInt8) : Data where
  pi := { data := data, nread := 0, nwrite := 0, readopen := true, writeopen := true }
  freed := false
  traffic := { written := [], delivered := [], failed := 0 }

end Xv6.Pipes
