import Xv6.Vm.Grow

/-!
# The Size of a Process

`growproc` of `kernel/proc.c` and `sys_sbrk` of `kernel/sysproc.c`.  The size is computed with 32
bits; a process never has so much memory that it does not fit.
-/

namespace Xv6.Vm

open Lib

/-- The fields of `struct proc`, and of its trapframe, that have to do with user memory. -/
structure Proc where
  pagetable : ℕ
  sz : ℕ
  trapframe : ℕ
  epc : ℕ
  sp : ℕ
  a1 : ℕ
  name : List UInt8
  deriving DecidableEq

/-- The sum of an `uint` and an `int`. -/
def uintAdd (sz : ℕ) (n : Int32) : ℕ := ((sz + n.toInt) % 2 ^ 32).toNat

/-- `growproc`. -/
def growproc (n : Int32) (p : Proc) : VmM (ℤ × Proc) := do
  let sz := p.sz % 2 ^ 32
  if 0 < n then
    let sz := (← uvmalloc p.pagetable sz (uintAdd sz n)) % 2 ^ 32
    if sz = 0 then return (-1, p)
    else return (0, { p with sz := sz })
  else if n < 0 then
    let sz := (← uvmdealloc p.pagetable sz (uintAdd sz n)) % 2 ^ 32
    return (0, { p with sz := sz })
  else return (0, { p with sz := sz })

/-- `sys_sbrk`. -/
def sysSbrk (n : Int32) (p : Proc) : VmM (ℤ × Proc) := do
  let addr : ℤ := (p.sz : ℤ).bmod (2 ^ 32)
  let (r, p) ← growproc n p
  if r < 0 then return (-1, p)
  else return (addr, p)

/-- A process whose user memory has the pages for its size. -/
def ProcOk (kernel : ℕ → Option (ℕ × ℕ)) (s : Phys) (p : Proc) : Prop :=
  AddressSpace kernel s p.pagetable (pageCount p.sz)

variable {kernel : ℕ → Option (ℕ × ℕ)} {pool : Pool} {s s' : Phys} {p : Proc} {n : Int32} {sz : ℕ}
  {E : Stop → Prop}

/-- Physical memory has 128 megabytes. -/
theorem Space.sz_le {pt : ℕ} {extra : List ℕ} (h : Space kernel pool s pt (pageCount sz) extra)
    (hend : KERNBASE ≤ s.kernelEnd) : sz ≤ 2 ^ 27 := by
  have hsize := h.size_le_sub
  have hcover := le_pageCount sz
  simp only [PHYSTOP, KERNBASE, PGSIZE] at hend hsize hcover
  omega

theorem uintAdd_eq (hsz : sz ≤ 2 ^ 27) (hn : 0 ≤ sz + n.toInt) : (uintAdd sz n : ℤ) = sz + n.toInt := by
  have hlt := n.toInt_lt
  rw [uintAdd]
  omega

theorem uintAdd_mod (sz : ℕ) (n : Int32) : uintAdd sz n % 2 ^ 32 = uintAdd sz n := by
  rw [uintAdd]
  omega

/-- A size below 0 is taken for a very large one. -/
theorem le_uintAdd (hsz : sz ≤ 2 ^ 27) (hn : sz + n.toInt < 0) : sz ≤ uintAdd sz n := by
  have hle := n.le_toInt
  rw [uintAdd]
  omega

/-- The size after `growproc`: a size below 0 is refused without an error. -/
def newSize (sz : ℕ) (n : Int32) : ℤ := if 0 ≤ sz + n.toInt then sz + n.toInt else sz

/-- What `growproc` does. -/
structure Grown (kernel : ℕ → Option (ℕ × ℕ)) (pool : Pool) (n : Int32) (s : Phys) (p : Proc)
    (r : ℤ × Proc) (s' : Phys) : Prop where
  space : Space kernel pool s' p.pagetable (pageCount r.2.sz) []
  proc : r.2 = { p with sz := r.2.sz }
  result : (r.1 = 0 ∧ (r.2.sz : ℤ) = newSize p.sz n ∧
      SameView s s' p.pagetable (min (pageCount p.sz) (pageCount r.2.sz))) ∨
    (r.1 = -1 ∧ 0 < n.toInt ∧ r.2.sz = p.sz ∧ SameView s s' p.pagetable (pageCount p.sz))

theorem growproc_spec (hlow : ∀ vpn < USERTOP, kernel vpn = none) (hend : KERNBASE ≤ s.kernelEnd)
    (h : Space kernel pool s p.pagetable (pageCount p.sz) []) :
    wp (growproc n p) (Grown kernel pool n s p) E s := by
  have hsz := h.sz_le hend
  have hmod : p.sz % 2 ^ 32 = p.sz := Nat.mod_eq_of_lt (by omega)
  rw [growproc, hmod]
  dsimp only
  split
  · rename_i hpos
    have hpos : 0 < n.toInt := Int32.lt_iff_toInt_lt.mp hpos
    have hnew := uintAdd_eq (n := n) hsz (by omega)
    rw [wp_bind]
    refine wp_post (uvmalloc_spec hlow h (pgroundup_div h.fits) (by omega)) fun r s' halloc ↦ ?_
    rcases halloc with ⟨rfl, hspace, hview, -⟩ | ⟨rfl, hspace, hview⟩
    · rw [uintAdd_mod, if_neg (by omega)]
      refine (wp_pure _).mpr ⟨hspace, rfl, .inl ⟨rfl, ?_, hview.mono (Nat.min_le_left _ _)⟩⟩
      rw [hnew, newSize, if_pos (by omega)]
    · exact (wp_pure _).mpr ⟨hspace, rfl, .inr ⟨rfl, hpos, rfl, hview⟩⟩
  · rename_i hpos
    split
    · rename_i hneg
      have hneg : n.toInt < 0 := Int32.lt_iff_toInt_lt.mp hneg
      rw [wp_bind]
      refine wp_post (uvmdealloc_spec hlow h) ?_
      rintro _ s' ⟨rfl, hspace, hview, -⟩
      have hmin : min p.sz (uintAdd p.sz n) % 2 ^ 32 = min p.sz (uintAdd p.sz n) :=
        Nat.mod_eq_of_lt (by omega)
      rw [hmin]
      refine (wp_pure _).mpr ⟨hspace, rfl, .inl ⟨rfl, ?_, hview.mono (Nat.min_le_right _ _)⟩⟩
      rw [newSize]
      by_cases hn : 0 ≤ p.sz + n.toInt
      · have hnew := uintAdd_eq hsz hn
        rw [if_pos hn, ← hnew, Nat.min_eq_right (by omega)]
      · rw [if_neg hn, Nat.min_eq_left (le_uintAdd hsz (by omega))]
    · rename_i hneg
      have hzero : n.toInt = 0 := by
        rw [Int32.lt_iff_toInt_lt] at hpos hneg
        exact Int.le_antisymm (Int.not_lt.mp hpos) (Int.not_lt.mp hneg)
      refine (wp_pure _).mpr ⟨h, rfl, .inl ⟨rfl, ?_, .refl s _ _⟩⟩
      rw [newSize, hzero, Int.add_zero, if_pos (Int.natCast_nonneg _)]

theorem bmod_sz (hsz : sz ≤ 2 ^ 27) : (sz : ℤ).bmod (2 ^ 32) = sz := by
  rw [Int.bmod]
  omega

theorem sysSbrk_spec (hlow : ∀ vpn < USERTOP, kernel vpn = none) (hend : KERNBASE ≤ s.kernelEnd)
    (h : Space kernel pool s p.pagetable (pageCount p.sz) []) :
    wp (sysSbrk n p) (fun r s' ↦ ∃ r', (r.1 = if r' < 0 then -1 else (p.sz : ℤ)) ∧
      Grown kernel pool n s p (r', r.2) s') E s := by
  rw [sysSbrk, wp_bind, bmod_sz (h.sz_le hend)]
  refine wp_post (growproc_spec hlow hend h) ?_
  rintro ⟨r', p'⟩ s' hgrown
  dsimp only
  split
  · rename_i hr
    exact (wp_pure _).mpr ⟨r', (if_pos hr).symm, hgrown⟩
  · rename_i hr
    exact (wp_pure _).mpr ⟨r', (if_neg hr).symm, hgrown⟩

/-- A process cannot give back more memory than it has: the call is taken for a success. -/
theorem sysSbrk_below (hsz : p.sz ≤ 2 ^ 27) (hn : p.sz + n.toInt < 0) :
    sysSbrk n p s = .ok ((p.sz, p), s) := by
  have hmod : p.sz % 2 ^ 32 = p.sz := Nat.mod_eq_of_lt (by omega)
  have hneg : n < 0 := Int32.lt_iff_toInt_lt.mpr (show n.toInt < 0 by omega)
  have hpos : ¬ 0 < n := fun hpos ↦ by
    have hpos : 0 < n.toInt := Int32.lt_iff_toInt_lt.mp hpos
    omega
  rw [sysSbrk, growproc, bmod_sz hsz, hmod]
  dsimp only
  rw [if_neg hpos, if_pos hneg, uvmdealloc, if_pos (le_uintAdd hsz hn)]
  show Except.ok ((_, { p with sz := p.sz % 2 ^ 32 }), s) = _
  rw [hmod]

/-- `sys_sbrk` changes the size by `n` and returns the old size, or returns -1 and changes nothing
that the process sees. -/
def Sbrk (kernel : ℕ → Option (ℕ × ℕ)) (n : Int32) (s : Phys) (p : Proc) : Prop :=
  ∃ r p' s', sysSbrk n p s = .ok ((r, p'), s') ∧
    ((r = p.sz ∧ (p'.sz : ℤ) = p.sz + n.toInt) ∨
      (r = -1 ∧ p'.sz = p.sz ∧ ProcOk kernel s' p' ∧ SameView s s' p.pagetable (pageCount p.sz)))

/-- `sys_sbrk` does what it says unless the new size were below 0. -/
theorem sbrk_iff (kernel : ℕ → Option (ℕ × ℕ)) (hlow : ∀ vpn < USERTOP, kernel vpn = none)
    (s : Phys) (hend : KERNBASE ≤ s.kernelEnd) (p : Proc) (h : ProcOk kernel s p) (n : Int32) :
    Sbrk kernel n s p ↔ 0 ≤ p.sz + n.toInt := by
  obtain ⟨pool, h⟩ := h
  obtain ⟨⟨r, p'⟩, s', hok, r', hr, hgrown⟩ := ok_of_wp (sysSbrk_spec (n := n) hlow hend h)
  have hproc : p' = { p with sz := p'.sz } := hgrown.proc
  constructor
  · rintro ⟨r₁, p₁, s₁, hok₁, hcases⟩
    rw [hok, Except.ok.injEq, Prod.mk.injEq, Prod.mk.injEq] at hok₁
    obtain ⟨⟨rfl, rfl⟩, rfl⟩ := hok₁
    by_contra hneg
    rcases hgrown.result with ⟨rfl, hsize, -⟩ | ⟨-, hpos, -⟩
    · simp only [newSize, if_neg hneg] at hsize
      have hr : r = p.sz := hr
      omega
    · omega
  · intro hn
    refine ⟨r, p', s', hok, ?_⟩
    rcases hgrown.result with ⟨rfl, hsize, -⟩ | ⟨rfl, -, hsize, hview⟩
    · refine .inl ⟨hr, ?_⟩
      rw [newSize, if_pos hn] at hsize
      exact hsize
    · refine .inr ⟨hr, hsize, ⟨pool, ?_⟩, hview⟩
      rw [hproc]
      exact hgrown.space

/-- A process without user memory. -/
def emptyProc : Proc := ⟨0x80400 * PGSIZE, 0, 0, 0, 0, 0, []⟩

/-- The process without user memory asks for a page. -/
theorem sbrk_iff_page : Sbrk (fun _ ↦ none) 4096 emptyTable emptyProc :=
  (sbrk_iff (fun _ ↦ none) (fun _ _ ↦ rfl) emptyTable le_rfl emptyProc addressSpace_emptyTable 4096).mpr
    (by decide)

/-- The process without user memory gives a byte back: `sys_sbrk` returns the old size 0, but the size
does not change. -/
theorem sbrk_below_zero : ProcOk (fun _ ↦ none) emptyTable emptyProc ∧
    sysSbrk (-1) emptyProc emptyTable = .ok ((0, emptyProc), emptyTable) ∧
    ¬ Sbrk (fun _ ↦ none) (-1) emptyTable emptyProc := by
  have hok : sysSbrk (-1) emptyProc emptyTable = .ok ((0, emptyProc), emptyTable) :=
    sysSbrk_below (Nat.zero_le _) (by decide)
  refine ⟨addressSpace_emptyTable, hok, ?_⟩
  rintro ⟨r, p', s', hok', hcases⟩
  rw [hok, Except.ok.injEq, Prod.mk.injEq, Prod.mk.injEq] at hok'
  obtain ⟨⟨rfl, rfl⟩, rfl⟩ := hok'
  rcases hcases with ⟨-, hsize⟩ | ⟨hr, -⟩
  · exact absurd hsize (by decide)
  · exact absurd hr (by decide)

end Xv6.Vm
