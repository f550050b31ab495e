import Xv6.Process.Machine

/-!
# The Console

A model of `consoleread` and `consoleintr` of `kernel/console.c`, as code that runs on the machine of
`kernel/proc.c`.  The interrupt handler runs in the context of the process that it interrupts.  What
is echoed is left out.
-/

namespace Xv6.Console

open Process

abbrev INPUT_BUF : ℕ := 128

theorem neZero_INPUT_BUF : NeZero INPUT_BUF := ⟨by decide⟩

/-- `cons`, without its lock.  The indices are of type `uint`. -/
structure Cons where
  buf : Fin INPUT_BUF → UInt8
  r : UInt32
  w : UInt32
  e : UInt32

/-- `C(x)`. -/
def ctrl (x : Char) : UInt8 := UInt8.ofNat (x.toNat - '@'.toNat)

def newline : UInt8 := 10

namespace Cons

/-- `cons.buf[i % INPUT_BUF]`. -/
def get (d : Cons) (i : UInt32) : UInt8 := d.buf (Fin.ofNat INPUT_BUF i.toNat)

/-- `cons.buf[cons.e++ % INPUT_BUF] = c`. -/
def store (d : Cons) (c : UInt8) : Cons :=
  { d with buf := Function.update d.buf (Fin.ofNat INPUT_BUF d.e.toNat) c, e := d.e + 1 }

/-- The loop that kills a line; it ends at `cons.w` at the latest. -/
def killLine (d : Cons) : ℕ → Cons
  | 0 => d
  | fuel + 1 =>
    if d.e ≠ d.w ∧ d.get (d.e - 1) ≠ newline then killLine { d with e := d.e - 1 } fuel else d

/-- The body of `consoleintr`, and whether it calls `wakeup`. -/
def intr (d : Cons) (c : UInt8) : Cons × Bool :=
  if c = ctrl 'P' then (d, false)
  else if c = ctrl 'U' then (d.killLine (d.e - d.w).toNat, false)
  else if c = ctrl 'H' ∨ c = 127 then
    (if d.e ≠ d.w then { d with e := d.e - 1 } else d, false)
  else if c ≠ 0 ∧ d.e - d.r < UInt32.ofNat INPUT_BUF then
    let c := if c = 13 then newline else c
    let d := d.store c
    if c = newline ∨ c = ctrl 'D' ∨ d.e = d.r + UInt32.ofNat INPUT_BUF then
      ({ d with w := d.e }, true)
    else (d, false)
  else (d, false)

/-- The rest of an iteration of `consoleread`, when there is input: the new value of `n`, and whether
the loop ends. -/
def read (d : Cons) (target n : ℤ) (copyout : Bool) : Cons × ℤ × Bool :=
  let c := d.get d.r
  if c = ctrl 'D' then (if n < target then d else { d with r := d.r + 1 }, n, true)
  else if copyout then ({ d with r := d.r + 1 }, n - 1, c = newline)
  else ({ d with r := d.r + 1 }, n, true)

end Cons

/-- A call of `consoleread`, or an input interrupt. -/
inductive Request where
  | read (n : ℤ)
  | intr (c : UInt8)

/-- The inputs of a step: the next call, and whether `either_copyout` succeeds. -/
structure Outside where
  request : Request
  copyout : Bool

/-- Where a process is in the code of the console.  `user` is outside of it, with the result of the
last call. -/
inductive Loc where
  | user (result : ℤ)
  | readLoop (target n : ℤ)
  | readEnd (target n : ℤ)
  | intr (c : UInt8) (result : ℤ)
  | intrWake (result : ℤ)
  | intrEnd (result : ℤ)

/-- The code of the console. -/
def next (d : Cons) (killed : Bool) (loc : Loc) (input : Outside) : Call Loc Cons Unit Unit :=
  match loc with
  | .user result =>
    match input.request with
    | .read n => .acquire () (.readLoop n n)
    | .intr c => .acquire () (.intr c result)
  -- `consoleread`
  | .readLoop target n =>
    if 0 < n then
      if d.r = d.w then
        if killed then .release () (.user (-1)) else .sleep () () (.readLoop target n)
      else
        let (d, n, done) := d.read target n input.copyout
        .store d (if done then .readEnd target n else .readLoop target n)
    else .store d (.readEnd target n)
  | .readEnd target n => .release () (.user (target - n))
  -- `consoleintr`
  | .intr c result =>
    let (d, wakes) := d.intr c
    .store d (if wakes then .intrWake result else .intrEnd result)
  | .intrWake result => .wakeup () (.intrEnd result)
  | .intrEnd result => .release () (.user result)

end Xv6.Console
