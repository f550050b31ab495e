import Mathlib.Algebra.BigOperators.Group.List.Basic
import Mathlib.Logic.Function.Basic
import Xv6.Lib.Cover
import Xv6.Lib.Wp

/-!
# The Allocator of User Programs

`malloc` and `free` keep the free blocks of the heap in a circular list, ordered by address, whose
first node `base` has no memory.  A block begins with a header; its size counts units of the size of
a header, the header included.  Addresses are in bytes.  The memory here is the headers: what a
program writes to its blocks is behind them.  `regions` and `allocated` are not part of the
program; they record the memory that was added to the heap, and the blocks that were returned by
`malloc` and not given to `free` since.
-/

namespace Xv6.Umalloc

open Lib

/-- `sizeof(Header)`. -/
abbrev UNIT : ℕ := 16

/-- `Header`. -/
structure Header where
  ptr : ℕ
  size : ℕ

/-- Memory that was added to the heap: its address and its number of units. -/
structure Region where
  addr : ℕ
  units : ℕ

/-- The bytes of a region. -/
def Region.interval (r : Region) : Interval := ⟨r.addr, r.addr + UNIT * r.units⟩

structure Heap where
  mem : ℕ → Header
  freep : ℕ
  regions : List Region
  allocated : List ℕ

/-- The number of units that were added to the heap. -/
def Heap.units (s : Heap) : ℕ := (s.regions.map Region.units).sum

/-- Why a call does not return: the program may not make it, or it runs forever. -/
inductive Stop where
  | disabled
  | diverges
  deriving DecidableEq

abbrev HeapM := StateT Heap (Except Stop)

def setHeader (p : ℕ) (h : Header) : HeapM Unit :=
  modify fun s ↦ { s with mem := Function.update s.mem p h }

/-! ## `free` -/

/-- The loop of `free`. -/
def freeLoop (bp : ℕ) : ℕ → ℕ → HeapM ℕ
  | 0, _ => throw .diverges
  | fuel + 1, p => do
      let next := ((← get).mem p).ptr
      if p < bp ∧ bp < next then return p
      else if next ≤ p ∧ (p < bp ∨ bp < next) then return p
      else freeLoop bp fuel next

/-- `free` behind its loop: the block takes in the one above it, or points to it. -/
def joinAbove (bp p : ℕ) : HeapM Unit := do
  let mem := (← get).mem
  let next := (mem p).ptr
  if bp + UNIT * (mem bp).size = next then
    setHeader bp ⟨(mem next).ptr, ((mem bp).size + (mem next).size) % 2 ^ 32⟩
  else setHeader bp ⟨next, (mem bp).size⟩

/-- The block below takes the block in, or points to it. -/
def joinBelow (bp p : ℕ) : HeapM Unit := do
  let mem := (← get).mem
  if p + UNIT * (mem p).size = bp then
    setHeader p ⟨(mem bp).ptr, ((mem p).size + (mem bp).size) % 2 ^ 32⟩
  else setHeader p ⟨bp, (mem p).size⟩

/-- `free`.  The loop takes at most one round for each free block, and one for `base`. -/
def free (ap : ℕ) : HeapM Unit := do
  let bp := ap - UNIT
  let s ← get
  let p ← freeLoop bp (s.units + 1) s.freep
  joinAbove bp p
  joinBelow bp p
  modify fun s ↦ { s with freep := p }

/-! ## `malloc` -/

variable (base : ℕ)

/-- Fresh memory at `p`, above all that was added before.  A program never has so much memory that
its units do not fit in an `unsigned int`. -/
def grow (p nu : ℕ) : HeapM Unit := do
  let s ← get
  if 0 < nu ∧ s.units + nu < 2 ^ 32 ∧ base + UNIT ≤ p ∧
      ∀ r ∈ s.regions, r.addr + UNIT * r.units ≤ p then
    set { s with regions := ⟨p, nu⟩ :: s.regions }
    setHeader p { s.mem p with size := nu }
    free (p + UNIT)
  else throw .disabled

/-- `morecore`; `sbrk` is what `sbrk` returns, if it does not fail. -/
def morecore (nu : ℕ) (sbrk : Option ℕ) : HeapM (Option ℕ) :=
  match sbrk with
  | none => return none
  | some p => do
      grow base p (max nu 4096)
      return (← get).freep

/-- The part of `malloc` that takes a block of `nunits` units from the free block `p`. -/
def take (nunits prevp p : ℕ) : HeapM ℕ := do
  let mem := (← get).mem
  let bp ← if (mem p).size = nunits then do
      setHeader prevp { mem prevp with ptr := (mem p).ptr }
      pure p
    else do
      let rest := (mem p).size - nunits
      setHeader p { mem p with size := rest }
      setHeader (p + UNIT * rest) { mem (p + UNIT * rest) with size := nunits }
      pure (p + UNIT * rest)
  modify fun s ↦ { s with freep := prevp, allocated := bp :: s.allocated }
  return bp + UNIT

/-- The loop of `malloc`. -/
def mallocLoop (nunits : ℕ) (sbrk : Option ℕ) : ℕ → ℕ → ℕ → HeapM (Option ℕ)
  | 0, _, _ => throw .diverges
  | fuel + 1, prevp, p => do
      let s ← get
      if nunits ≤ (s.mem p).size then return some (← take nunits prevp p)
      else if p = s.freep then
        match ← morecore base nunits sbrk with
        | none => return none
        | some p => mallocLoop nunits sbrk fuel p ((← get).mem p).ptr
      else mallocLoop nunits sbrk fuel p (s.mem p).ptr

/-- `nunits`: the number of units for a header and `nbytes` bytes. -/
def nunits (nbytes : ℕ) : ℕ := (nbytes + UNIT - 1) / UNIT + 1

/-- `malloc`.  The loop goes round the list twice at most, the second time after the heap has
grown. -/
def malloc (nbytes : ℕ) (sbrk : Option ℕ) : HeapM (Option ℕ) := do
  if (← get).freep = 0 then
    modify fun s ↦ { s with mem := Function.update s.mem base ⟨base, 0⟩, freep := base }
  let s ← get
  let fuel := (s.units + 1) + (s.units + max (nunits nbytes) 4096 + 1)
  mallocLoop base (nunits nbytes) sbrk fuel s.freep (s.mem s.freep).ptr

/-! ## Programs -/

/-- What a program does with the heap. -/
inductive Op where
  | free (ap : ℕ)
  | malloc (nbytes : ℕ) (sbrk : Option ℕ)
  | grow (p nu : ℕ)

/-- A program frees blocks that it has, and asks for less than `2 ^ 32` bytes. -/
def perform : Op → HeapM Unit
  | .free ap => do
      let s ← get
      if UNIT ≤ ap ∧ ap - UNIT ∈ s.allocated then
        set { s with allocated := s.allocated.erase (ap - UNIT) }
        free ap
      else throw .disabled
  | .malloc nbytes sbrk =>
    if nbytes < 2 ^ 32 then do
      let _ ← malloc base nbytes sbrk
    else throw .disabled
  | .grow p nu => grow base p nu

def step (s : Heap) (op : Op) : Except Stop Heap :=
  match perform base op s with
  | .ok (_, s') => .ok s'
  | .error stop => .error stop

/-- The empty list. -/
def empty : Heap where
  mem := Function.update (fun _ ↦ ⟨0, 0⟩) base ⟨base, 0⟩
  freep := base
  regions := []
  allocated := []

/-- The first call of `malloc`, where `freep` is null, makes the list. -/
theorem malloc_first (hbase : base ≠ 0) (nbytes : ℕ) (sbrk : Option ℕ) :
    malloc base nbytes sbrk ⟨fun _ ↦ ⟨0, 0⟩, 0, [], []⟩ = malloc base nbytes sbrk (empty base) := by
  have hfreep : (empty base).freep ≠ 0 := hbase
  simp only [malloc, bind, StateT.bind, get, getThe, MonadStateOf.get, StateT.get, pure, Except.pure,
    Except.bind, if_pos, if_neg hfreep]
  rfl

end Xv6.Umalloc
