import Mathlib.Logic.Function.Basic
import Xv6.Lib.Bytes
import Xv6.Lib.Wp
import Xv6.Panic
import Xv6.Param

/-!
# Physical Memory

Physical memory is pages, numbered by their addresses divided by the size of a page; what the code
stores, it stores inside a page.  `kernel/kalloc.c` keeps the pages that are not in use on a list.
The memory belongs to all processes, so that a call of `kalloc` may find none at any time: `refuse`
says for the calls to come whether other processes have taken it all.
-/

namespace Xv6.Vm

open Lib

abbrev KERNBASE : ℕ := 0x80000000

abbrev PHYSTOP : ℕ := KERNBASE + 128 * 1024 * 1024

/-- Physical memory: the pages, the free list, the answers of `kalloc` to come, and the first address
after the kernel, `end`. -/
structure Phys where
  page : ℕ → Buffer PGSIZE
  free : List ℕ
  refuse : List Bool
  kernelEnd : ℕ

abbrev VmM := StateT Phys (Except Stop)

def panic {α : Type} (p : Panic) : VmM α := throw (.panic p)

def setPage (n : ℕ) (contents : Buffer PGSIZE) : VmM Unit :=
  modify fun s ↦ { s with page := Function.update s.page n contents }

/-- A 64-bit load. -/
def load64 (pa : ℕ) : VmM ℕ := do return ((← get).page (pa / PGSIZE)).getLE 8 (pa % PGSIZE)

/-- A 64-bit store. -/
def store64 (pa value : ℕ) : VmM Unit := do
  setPage (pa / PGSIZE) (((← get).page (pa / PGSIZE)).setLE 8 (pa % PGSIZE) value)

/-- `memset(pa, c, PGSIZE)` of a page. -/
def memset (pa : ℕ) (c : UInt8) : VmM Unit := setPage (pa / PGSIZE) (.fill c)

/-- `memmove` from kernel memory into a page. -/
def memmove (pa : ℕ) (bytes : List UInt8) : VmM Unit := do
  setPage (pa / PGSIZE) (((← get).page (pa / PGSIZE)).setBytes (pa % PGSIZE) bytes)

/-- `memmove` from a page into kernel memory. -/
def memmoveFrom (pa n : ℕ) : VmM (List UInt8) := do
  return ((← get).page (pa / PGSIZE)).getBytes (pa % PGSIZE) n

/-- `memmove(mem, pa, PGSIZE)` of a page. -/
def memmovePage (mem pa : ℕ) : VmM Unit := do
  setPage (mem / PGSIZE) ((← get).page (pa / PGSIZE))

/-- `kfree`. -/
def kfree (pa : ℕ) : VmM Unit := do
  if pa % PGSIZE ≠ 0 ∨ pa < (← get).kernelEnd ∨ PHYSTOP ≤ pa then panic .kfree
  else
    memset pa 1
    modify fun s ↦ { s with free := pa / PGSIZE :: s.free }

/-- `kalloc`; the result 0 is `none`. -/
def kalloc : VmM (Option ℕ) := do
  let s ← get
  set { s with refuse := s.refuse.tail }
  if s.refuse.headD false then return none
  else
    match s.free with
    | [] => return none
    | n :: free =>
      modify fun s ↦ { s with free := free }
      memset (n * PGSIZE) 5
      return some (n * PGSIZE)

/-! ## Rules -/

section

variable {s : Phys} {E : Stop → Prop}

theorem wp_setPage {Q : Unit → Phys → Prop} (n : ℕ) (contents : Buffer PGSIZE) :
    wp (setPage n contents) Q E s ↔
      Q () { s with page := Function.update s.page n contents } := wp_modify _

theorem wp_load64 {Q : ℕ → Phys → Prop} (pa : ℕ) :
    wp (load64 pa) Q E s ↔ Q ((s.page (pa / PGSIZE)).getLE 8 (pa % PGSIZE)) s := Iff.rfl

theorem wp_store64 {Q : Unit → Phys → Prop} (pa value : ℕ) :
    wp (store64 pa value) Q E s ↔ Q () { s with
      page := Function.update s.page (pa / PGSIZE)
        ((s.page (pa / PGSIZE)).setLE 8 (pa % PGSIZE) value) } := Iff.rfl

theorem wp_memset {Q : Unit → Phys → Prop} (pa : ℕ) (c : UInt8) :
    wp (memset pa c) Q E s ↔
      Q () { s with page := Function.update s.page (pa / PGSIZE) (.fill c) } := Iff.rfl

theorem wp_memmove {Q : Unit → Phys → Prop} (pa : ℕ) (bytes : List UInt8) :
    wp (memmove pa bytes) Q E s ↔ Q () { s with
      page := Function.update s.page (pa / PGSIZE)
        ((s.page (pa / PGSIZE)).setBytes (pa % PGSIZE) bytes) } := Iff.rfl

theorem wp_memmoveFrom {Q : List UInt8 → Phys → Prop} (pa n : ℕ) :
    wp (memmoveFrom pa n) Q E s ↔ Q ((s.page (pa / PGSIZE)).getBytes (pa % PGSIZE) n) s := Iff.rfl

theorem wp_memmovePage {Q : Unit → Phys → Prop} (mem pa : ℕ) :
    wp (memmovePage mem pa) Q E s ↔
      Q () { s with page := Function.update s.page (mem / PGSIZE) (s.page (pa / PGSIZE)) } := Iff.rfl

/-- `kalloc` takes the first page of the free list, or fails. -/
theorem wp_kalloc {Q : Option ℕ → Phys → Prop}
    (hnone : ∀ refuse, Q none { s with refuse := refuse })
    (hsome : ∀ refuse n free, s.free = n :: free → Q (some (n * PGSIZE))
      { s with refuse := refuse, free := free, page := Function.update s.page n (.fill 5) }) :
    wp kalloc Q E s := by
  rw [kalloc, wp_bind, wp_get, wp_bind, wp_set]
  split
  · exact hnone _
  · split
    · exact hnone _
    · rename_i n free hfree
      have hpage : n * PGSIZE / PGSIZE = n := Nat.mul_div_cancel n (by decide)
      rw [wp_bind, wp_modify, wp_bind, wp_memset, hpage]
      exact hsome _ n free hfree

theorem wp_kfree {Q : Unit → Phys → Prop} {n : ℕ} (hlow : s.kernelEnd ≤ n * PGSIZE)
    (hhigh : n * PGSIZE < PHYSTOP)
    (h : Q () { s with page := Function.update s.page n (.fill 1), free := n :: s.free }) :
    wp (kfree (n * PGSIZE)) Q E s := by
  have hpage : n * PGSIZE / PGSIZE = n := Nat.mul_div_cancel n (by decide)
  rw [kfree, wp_bind, wp_get, if_neg, wp_bind, wp_memset, wp_modify, hpage]
  · exact h
  · rw [Nat.mul_mod_left]
    omega

end

end Xv6.Vm
