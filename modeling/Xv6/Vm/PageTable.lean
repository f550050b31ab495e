import Xv6.Vm.Memory

/-!
# Page Tables

`kernel/vm.c`.  Addresses and page-table entries are 64 bits wide.  A page table has three levels of
tables with 512 entries each; an address selects one entry of each level.
-/

namespace Xv6.Vm

open Lib

abbrev PTE_V : ℕ := 1
abbrev PTE_R : ℕ := 2
abbrev PTE_W : ℕ := 4
abbrev PTE_X : ℕ := 8
abbrev PTE_U : ℕ := 16

/-- One beyond the highest virtual address. -/
abbrev MAXVA : ℕ := 2 ^ 38

abbrev TRAMPOLINE : ℕ := MAXVA - PGSIZE

abbrev TRAPFRAME : ℕ := TRAMPOLINE - PGSIZE

/-- `PGROUNDDOWN`. -/
def pgrounddown (a : ℕ) : ℕ := a - a % PGSIZE

/-- `PGROUNDUP`. -/
def pgroundup (sz : ℕ) : ℕ := pgrounddown ((sz + (PGSIZE - 1)) % 2 ^ 64)

/-- `PA2PTE`. -/
def pa2pte (pa : ℕ) : ℕ := pa >>> 12 <<< 10

/-- `PTE2PA`. -/
def pte2pa (pte : ℕ) : ℕ := pte >>> 10 <<< 12 % 2 ^ 64

/-- `PTE_FLAGS`. -/
def pteFlags (pte : ℕ) : ℕ := pte &&& 0x3FF

/-- `PX`: the index of a virtual address into a table of the given level. -/
def px (level va : ℕ) : ℕ := va >>> (12 + 9 * level) &&& 0x1FF

/-- The loop of `walk`, from the given level down. -/
def walkLoop (va : ℕ) (alloc : Bool) : ℕ → ℕ → VmM (Option ℕ)
  | 0, pagetable => return some (pagetable + 8 * px 0 va)
  | level + 1, pagetable => do
      let pte := pagetable + 8 * px (level + 1) va
      let entry ← load64 pte
      if entry &&& PTE_V ≠ 0 then walkLoop va alloc level (pte2pa entry)
      else if alloc = false then return none
      else
        match ← kalloc with
        | none => return none
        | some page =>
          memset page 0
          store64 pte (pa2pte page ||| PTE_V)
          walkLoop va alloc level page

/-- `walk`: the address of the entry for a virtual address. -/
def walk (pagetable va : ℕ) (alloc : Bool) : VmM (Option ℕ) :=
  if MAXVA ≤ va then panic .walk else walkLoop va alloc 2 pagetable

/-- `walkaddr`. -/
def walkaddr (pagetable va : ℕ) : VmM ℕ := do
  if MAXVA ≤ va then return 0
  else
    match ← walk pagetable va false with
    | none => return 0
    | some pte =>
      let entry ← load64 pte
      if entry &&& PTE_V = 0 then return 0
      else if entry &&& PTE_U = 0 then return 0
      else return pte2pa entry

/-- The loop of `mappages`.  `walk` panics when `a` reaches `MAXVA`. -/
def mappagesLoop (pagetable last perm : ℕ) : ℕ → ℕ → ℕ → VmM Bool
  | 0, _, _ => throw .disabled
  | fuel + 1, a, pa => do
      match ← walk pagetable a true with
      | none => return false
      | some pte =>
        if (← load64 pte) &&& PTE_V ≠ 0 then panic .mappagesRemap
        else
          store64 pte (pa2pte pa ||| perm ||| PTE_V)
          if a = last then return true
          else
            mappagesLoop pagetable last perm fuel ((a + PGSIZE) % 2 ^ 64)
              ((pa + PGSIZE) % 2 ^ 64)

/-- `mappages`; the result -1 is `false`. -/
def mappages (pagetable va size pa perm : ℕ) : VmM Bool :=
  if size = 0 then panic .mappagesSize
  else mappagesLoop pagetable (pgrounddown ((va + size - 1) % 2 ^ 64)) perm (MAXVA / PGSIZE + 1)
    (pgrounddown va) pa

/-- The loop of `uvmunmap`.  `walk` panics when `a` reaches `MAXVA`. -/
def uvmunmapLoop (pagetable last : ℕ) (doFree : Bool) : ℕ → ℕ → VmM Unit
  | 0, _ => throw .disabled
  | fuel + 1, a => do
      if a < last then
        match ← walk pagetable a false with
        | none => panic .uvmunmapWalk
        | some pte =>
          let entry ← load64 pte
          if entry &&& PTE_V = 0 then panic .uvmunmapMapped
          else if pteFlags entry = PTE_V then panic .uvmunmapLeaf
          else
            if doFree then kfree (pte2pa entry)
            store64 pte 0
            uvmunmapLoop pagetable last doFree fuel ((a + PGSIZE) % 2 ^ 64)

/-- `uvmunmap`. -/
def uvmunmap (pagetable va npages : ℕ) (doFree : Bool) : VmM Unit :=
  if va % PGSIZE ≠ 0 then panic .uvmunmapAlign
  else uvmunmapLoop pagetable ((va + npages * PGSIZE) % 2 ^ 64) doFree (MAXVA / PGSIZE + 1) va

/-- `uvmcreate`. -/
def uvmcreate : VmM (Option ℕ) := do
  match ← kalloc with
  | none => return none
  | some pagetable =>
    memset pagetable 0
    return some pagetable

/-- The value of an `int` that is converted to 64 bits. -/
def intToUint64 (x : ℕ) : ℕ :=
  if x % 2 ^ 32 < 2 ^ 31 then x % 2 ^ 32 else x % 2 ^ 32 + (2 ^ 64 - 2 ^ 32)

/-- `uvmdealloc`. -/
def uvmdealloc (pagetable oldsz newsz : ℕ) : VmM ℕ := do
  if oldsz ≤ newsz then return oldsz
  else
    if pgroundup newsz < pgroundup oldsz then
      let npages := intToUint64 ((pgroundup oldsz - pgroundup newsz) / PGSIZE)
      uvmunmap pagetable (pgroundup newsz) npages true
    return newsz

/-- The loop of `uvmalloc`; there are not more pages than `fuel`. -/
def uvmallocLoop (pagetable oldsz newsz : ℕ) : ℕ → ℕ → VmM ℕ
  | 0, _ => throw .disabled
  | fuel + 1, a => do
      if a < newsz then
        match ← kalloc with
        | none =>
          let _ ← uvmdealloc pagetable a oldsz
          return 0
        | some mem =>
          memset mem 0
          if ← mappages pagetable a PGSIZE mem (PTE_W ||| PTE_X ||| PTE_R ||| PTE_U) then
            uvmallocLoop pagetable oldsz newsz fuel ((a + PGSIZE) % 2 ^ 64)
          else
            kfree mem
            let _ ← uvmdealloc pagetable a oldsz
            return 0
      else return newsz

/-- `uvmalloc`.  `walk` panics when the loop reaches `MAXVA`. -/
def uvmalloc (pagetable oldsz newsz : ℕ) : VmM ℕ :=
  if newsz < oldsz then return oldsz
  else uvmallocLoop pagetable (pgroundup oldsz) newsz (MAXVA / PGSIZE + 1) (pgroundup oldsz)

/-- The indices of the entries of a table. -/
@[irreducible]
def allIndices : List ℕ := List.range 512

/-- `freewalk` of a table of the given number of levels. -/
def freewalk : ℕ → ℕ → VmM Unit
  | 0, _ => throw .disabled
  | levels + 1, pagetable => do
      allIndices.forM fun i ↦ do
        let pte ← load64 (pagetable + 8 * i)
        if pte &&& PTE_V ≠ 0 ∧ pte &&& (PTE_R ||| PTE_W ||| PTE_X) = 0 then
          freewalk levels (pte2pa pte)
          store64 (pagetable + 8 * i) 0
        else if pte &&& PTE_V ≠ 0 then panic .freewalkLeaf
      kfree pagetable

/-- `uvmfree`. -/
def uvmfree (pagetable sz : ℕ) : VmM Unit := do
  if 0 < sz then uvmunmap pagetable 0 (pgroundup sz / PGSIZE) true
  freewalk 3 pagetable

/-- The loop of `uvmcopy`.  `walk` panics when `i` reaches `MAXVA`. -/
def uvmcopyLoop (old new sz : ℕ) : ℕ → ℕ → VmM Bool
  | 0, _ => throw .disabled
  | fuel + 1, i => do
      if i < sz then
        match ← walk old i false with
        | none => panic .uvmcopyPte
        | some pte =>
          let entry ← load64 pte
          if entry &&& PTE_V = 0 then panic .uvmcopyPresent
          else
            match ← kalloc with
            | none =>
              uvmunmap new 0 (i / PGSIZE) true
              return false
            | some mem =>
              memmovePage mem (pte2pa entry)
              if ← mappages new i PGSIZE mem (pteFlags entry) then
                uvmcopyLoop old new sz fuel ((i + PGSIZE) % 2 ^ 64)
              else
                kfree mem
                uvmunmap new 0 (i / PGSIZE) true
                return false
      else return true

/-- `uvmcopy`; the result -1 is `false`. -/
def uvmcopy (old new sz : ℕ) : VmM Bool := uvmcopyLoop old new sz (MAXVA / PGSIZE + 1) 0

/-- `uvmclear`. -/
def uvmclear (pagetable va : ℕ) : VmM Unit := do
  match ← walk pagetable va false with
  | none => panic .uvmclear
  | some pte => store64 pte ((← load64 pte) &&& (2 ^ 64 - 1 - PTE_U))

/-- The loop of `copyout`; each round copies at least one byte. -/
def copyoutLoop (pagetable : ℕ) : ℕ → ℕ → List UInt8 → VmM Bool
  | 0, _, _ => throw .disabled
  | fuel + 1, dstva, src => do
      if src = [] then return true
      else
        let va0 := pgrounddown dstva
        let pa0 ← walkaddr pagetable va0
        if pa0 = 0 then return false
        else
          let n := min (PGSIZE - (dstva - va0)) src.length
          memmove (pa0 + (dstva - va0)) (src.take n)
          copyoutLoop pagetable fuel ((va0 + PGSIZE) % 2 ^ 64) (src.drop n)

/-- `copyout`; the result -1 is `false`. -/
def copyout (pagetable dstva : ℕ) (src : List UInt8) : VmM Bool :=
  copyoutLoop pagetable (src.length + 1) dstva src

/-- The loop of `copyin`; each round copies at least one byte.  The bytes are those that have been
stored at `dst`. -/
def copyinLoop (pagetable : ℕ) : ℕ → ℕ → ℕ → VmM (Bool × List UInt8)
  | 0, _, _ => throw .disabled
  | fuel + 1, srcva, len => do
      if len = 0 then return (true, [])
      else
        let va0 := pgrounddown srcva
        let pa0 ← walkaddr pagetable va0
        if pa0 = 0 then return (false, [])
        else
          let n := min (PGSIZE - (srcva - va0)) len
          let bytes ← memmoveFrom (pa0 + (srcva - va0)) n
          let (r, rest) ← copyinLoop pagetable fuel ((va0 + PGSIZE) % 2 ^ 64) (len - n)
          return (r, bytes ++ rest)

/-- `copyin`; the result -1 is `false`. -/
def copyin (pagetable srcva len : ℕ) : VmM (Bool × List UInt8) :=
  copyinLoop pagetable (len + 1) srcva len

/-- The inner loop of `copyinstr`: what it stores, and `got_null`. -/
def copyString : List UInt8 → List UInt8 × Bool
  | [] => ([], false)
  | byte :: bytes =>
    if byte = 0 then ([0], true)
    else (byte :: (copyString bytes).1, (copyString bytes).2)

/-- The loop of `copyinstr`; each round copies at least one byte. -/
def copyinstrLoop (pagetable : ℕ) : ℕ → ℕ → ℕ → VmM (Bool × List UInt8)
  | 0, _, _ => throw .disabled
  | fuel + 1, srcva, max => do
      if max = 0 then return (false, [])
      else
        let va0 := pgrounddown srcva
        let pa0 ← walkaddr pagetable va0
        if pa0 = 0 then return (false, [])
        else
          let n := min (PGSIZE - (srcva - va0)) max
          let bytes ← memmoveFrom (pa0 + (srcva - va0)) n
          let (stored, gotNull) := copyString bytes
          if gotNull then return (true, stored)
          else
            let (r, rest) ← copyinstrLoop pagetable fuel ((va0 + PGSIZE) % 2 ^ 64) (max - n)
            return (r, stored ++ rest)

/-- `copyinstr`; the result -1 is `false`. -/
def copyinstr (pagetable srcva max : ℕ) : VmM (Bool × List UInt8) :=
  copyinstrLoop pagetable (max + 1) srcva max

/-! ## The page tables of processes -/

/-- `proc_pagetable`, for a process with its trapframe at the given address. -/
def procPagetable (trampoline trapframe : ℕ) : VmM (Option ℕ) := do
  match ← uvmcreate with
  | none => return none
  | some pagetable =>
    if ← mappages pagetable TRAMPOLINE PGSIZE trampoline (PTE_R ||| PTE_X) then
      if ← mappages pagetable TRAPFRAME PGSIZE trapframe (PTE_R ||| PTE_W) then
        return some pagetable
      else
        uvmunmap pagetable TRAMPOLINE 1 false
        uvmfree pagetable 0
        return none
    else
      uvmfree pagetable 0
      return none

/-- `proc_freepagetable`. -/
def procFreepagetable (pagetable sz : ℕ) : VmM Unit := do
  uvmunmap pagetable TRAMPOLINE 1 false
  uvmunmap pagetable TRAPFRAME 1 false
  uvmfree pagetable sz

end Xv6.Vm
