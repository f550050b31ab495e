import Xv6.Disk.Block
import Xv6.Lib.Ring
import Xv6.Panic

/-!
# The Buffer Cache

`kernel/bio.c`: a fixed set of buffers on a doubly linked ring through `bcache.head`, sorted by how
recently each was released.  A buffer's sleep-lock is represented by its holder.  `bread` is two
steps, since it may sleep between them: the locked section of `bget`, which takes a reference, and
the return of `acquiresleep` with the disk read that follows.  The buffers' prev and next pointers
are null before `binit`; no code reads them before it has set them.
-/

namespace Xv6.Cache

open Lib

/-- The nodes of the list: `&bcache.head` and the addresses of the buffers. -/
inductive Node where
  | head
  | buf (i : Fin NBUF)
  deriving DecidableEq, Repr

/-- `struct buf`, less its list pointers and the flag the disk driver uses. -/
structure Buf (Pid : Type) where
  valid : Bool
  dev : ℕ
  blockno : ℕ
  holder : Option Pid
  refcnt : ℕ
  data : Block

/-- `bcache`. -/
structure Bcache (Pid : Type) where
  buf : Fin NBUF → Buf Pid
  links : Links Node

variable {Pid : Type}

/-- `binit`, on zeroed memory. -/
def binit : Bcache Pid where
  buf _ := { valid := false, dev := 0, blockno := 0, holder := none, refcnt := 0, data := .fill 0 }
  links := (List.finRange NBUF).foldl (fun links i ↦ links.pushFront .head (.buf i))
    { next := fun _ ↦ .head, prev := fun _ ↦ .head }

/-- Change one buffer. -/
def Bcache.set (c : Bcache Pid) (i : Fin NBUF) (b : Buf Pid) : Bcache Pid :=
  { c with buf := Function.update c.buf i b }

/-- The test of the first loop of `bget`. -/
def Bcache.caches (c : Bcache Pid) (dev blockno : ℕ) : Node → Bool
  | .head => false
  | .buf i => (c.buf i).dev == dev && (c.buf i).blockno == blockno

/-- The test of the second loop of `bget`. -/
def Bcache.unused (c : Bcache Pid) : Node → Bool
  | .head => false
  | .buf i => (c.buf i).refcnt == 0

/-- `refcnt++` on a 32-bit counter. -/
def increment (refcnt : ℕ) : ℕ := (refcnt + 1) % 2 ^ 32

/-- `refcnt--` on a 32-bit counter. -/
def decrement (refcnt : ℕ) : ℕ := (refcnt + (2 ^ 32 - 1)) % 2 ^ 32

/-- `bget` up to the release of `bcache.lock`.  Both loops visit each node of the ring at most
once, so the fuel suffices. -/
def bget (c : Bcache Pid) (dev blockno : ℕ) : Except Panic (Bcache Pid × Fin NBUF) :=
  match Links.find c.links.next .head (c.caches dev blockno) (NBUF + 1) (c.links.next .head) with
  | some (.buf i) => .ok (c.set i { c.buf i with refcnt := increment (c.buf i).refcnt }, i)
  | _ =>
    match Links.find c.links.prev .head c.unused (NBUF + 1) (c.links.prev .head) with
    | some (.buf i) =>
      .ok (c.set i { c.buf i with
        dev := dev, blockno := blockno, valid := false, refcnt := 1 }, i)
    | _ => .error .bgetNoBuffers

/-- The rest of `bread` once `acquiresleep` lets process `p` in.  The driver finds the block on its
one disk by `blockno` alone. -/
def breadLocked (c : Bcache Pid) (disk : Device) (p : Pid) (i : Fin NBUF) : Bcache Pid :=
  let b := { c.buf i with holder := some p }
  c.set i (if b.valid then b else { b with data := disk b.blockno, valid := true })

/-- `bwrite`, called by process `p`. -/
def bwrite [DecidableEq Pid] (c : Bcache Pid) (disk : Device) (p : Pid) (i : Fin NBUF) :
    Except Panic Device :=
  if (c.buf i).holder = some p then
    .ok (Function.update disk (c.buf i).blockno (c.buf i).data)
  else .error .bwriteNotHeld

/-- `brelse`, called by process `p`. -/
def brelse [DecidableEq Pid] (c : Bcache Pid) (p : Pid) (i : Fin NBUF) :
    Except Panic (Bcache Pid) :=
  if (c.buf i).holder = some p then
    let c := c.set i { c.buf i with holder := none, refcnt := decrement (c.buf i).refcnt }
    if (c.buf i).refcnt = 0 then
      .ok { c with links := (c.links.unlink (.buf i)).pushFront .head (.buf i) }
    else .ok c
  else .error .brelseNotHeld

/-- `bpin`. -/
def bpin (c : Bcache Pid) (i : Fin NBUF) : Bcache Pid :=
  c.set i { c.buf i with refcnt := increment (c.buf i).refcnt }

/-- `bunpin`. -/
def bunpin (c : Bcache Pid) (i : Fin NBUF) : Bcache Pid :=
  c.set i { c.buf i with refcnt := decrement (c.buf i).refcnt }

/-! ## The system of callers -/

/-- A process inside `bread` that has a reference and waits for the sleep-lock. -/
structure Waiter (Pid : Type) where
  p : Pid
  blockno : ℕ
  i : Fin NBUF
  deriving DecidableEq

/-- What callers observe: bytes stored into a block by its holder, and bytes `bread` returns. -/
inductive Event where
  | stored (blockno : ℕ) (data : Block)
  | returned (blockno : ℕ) (data : Block)

/-- The cache, the disk and the callers; `pins` counts `bpin` calls not yet undone. -/
structure System (Pid : Type) where
  cache : Bcache Pid
  disk : Device
  waiters : List (Waiter Pid)
  pins : Fin NBUF → ℕ
  events : List Event

/-- The calls, each by a process.  `locked` is the second half of `bread`. -/
inductive Action (Pid : Type) where
  | bread (p : Pid) (dev blockno : ℕ)
  | locked (w : Waiter Pid)
  | modify (p : Pid) (i : Fin NBUF) (data : Block)
  | bwrite (p : Pid) (i : Fin NBUF)
  | brelse (p : Pid) (i : Fin NBUF)
  | bpin (p : Pid) (i : Fin NBUF)
  | bunpin (p : Pid) (i : Fin NBUF)

/-- What each call does. -/
def step [DecidableEq Pid] (s : System Pid) : Action Pid → Except Stop (System Pid)
  | .bread p dev blockno =>
    match bget s.cache dev blockno with
    | .ok (c, i) => .ok { s with
        cache := c
        waiters := { p := p, blockno := blockno, i := i } :: s.waiters }
    | .error panic => .error (.panic panic)
  | .locked w =>
    if w ∈ s.waiters ∧ (s.cache.buf w.i).holder = none then
      let c := breadLocked s.cache s.disk w.p w.i
      .ok { s with
        cache := c
        waiters := s.waiters.erase w
        events := s.events ++ [.returned w.blockno (c.buf w.i).data] }
    else .error .disabled
  | .modify _ i data =>
    .ok { s with
      cache := s.cache.set i { s.cache.buf i with data := data }
      events := s.events ++ [.stored (s.cache.buf i).blockno data] }
  | .bwrite p i =>
    match bwrite s.cache s.disk p i with
    | .ok disk => .ok { s with disk := disk }
    | .error panic => .error (.panic panic)
  | .brelse p i =>
    match brelse s.cache p i with
    | .ok c => .ok { s with cache := c }
    | .error panic => .error (.panic panic)
  | .bpin _ i => .ok { s with
      cache := bpin s.cache i
      pins := Function.update s.pins i (s.pins i + 1) }
  | .bunpin _ i => .ok { s with
      cache := bunpin s.cache i
      pins := Function.update s.pins i (s.pins i - 1) }

/-- The contents of a buffer are those of its block on disk. -/
def System.written (s : System Pid) (i : Fin NBUF) : Prop :=
  (s.cache.buf i).data = s.disk (s.cache.buf i).blockno

/-- The documented protocol, on device `dev`: a buffer is modified, written, pinned and released by
its holder, and while its contents have not been written it is held or pinned.  No buffer has
`2 ^ 32` references at once. -/
def Follows (dev : ℕ) (s : System Pid) : Action Pid → Prop
  | .bread _ d _ => d = dev ∧ ∀ i, (s.cache.buf i).refcnt + 1 < 2 ^ 32
  | .locked _ => True
  | .modify p i _ | .bwrite p i => (s.cache.buf i).holder = some p
  | .brelse p i => (s.cache.buf i).holder = some p ∧ (s.written i ∨ 0 < s.pins i)
  | .bpin p i => (s.cache.buf i).holder = some p ∧ (s.cache.buf i).refcnt + 1 < 2 ^ 32
  | .bunpin _ i => 0 < s.pins i ∧
      (s.written i ∨ 1 < s.pins i ∨ (s.cache.buf i).holder ≠ none)

/-- The state after `binit`. -/
def boot (disk : Device) : System Pid where
  cache := binit
  disk := disk
  waiters := []
  pins _ := 0
  events := []

/-- The states that sequences of calls following the protocol reach. -/
inductive Reaches [DecidableEq Pid] (dev : ℕ) (disk : Device) :
    List (Action Pid) → System Pid → Prop
  | boot : Reaches dev disk [] (boot disk)
  | call {actions : List (Action Pid)} {action : Action Pid} {s s' : System Pid} :
      Reaches dev disk actions s → Follows dev s action → step s action = .ok s' →
        Reaches dev disk (actions ++ [action]) s'

/-- An array of blocks without a cache: the bytes most recently stored for each block. -/
def lastStored (disk : Device) (events : List Event) : Device :=
  events.foldl (fun store event ↦
    match event with
    | .stored blockno data => Function.update store blockno data
    | .returned _ _ => store) disk

end Xv6.Cache
