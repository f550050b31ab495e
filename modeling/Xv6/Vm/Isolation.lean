import Xv6.Vm.Copy
import Xv6.Vm.Proc

/-!
# Isolation of Address Spaces

An address space owns its tables and its user pages.  What one process does with its memory happens
in pages that it owns and in free pages, so that another process, whose pages are neither, sees
nothing of it.
-/

namespace Xv6.Vm

open Lib

/-- A page of an address space. -/
def Owns (s : Phys) (pt n m : ℕ) : Prop := m ∈ frames s.page pt 0 n ∨ IsTable s.page pt m

/-- The bindings above user memory are not for the user. -/
structure IsKernel (kernel : ℕ → Option (ℕ × ℕ)) : Prop where
  low : ∀ vpn < USERTOP, kernel vpn = none
  supervisor : ∀ vpn b, kernel vpn = some b → b.2 &&& PTE_U = 0

variable {kernel kernel' : ℕ → Option (ℕ × ℕ)} {pool : Pool} {s s' : Phys} {pt pt' n n' k m : ℕ}
  {E : Stop → Prop}

theorem Space.pool_of_owns {extra : List ℕ} (h : Space kernel pool s pt n extra)
    (hm : Owns s pt n m) : pool.pages m :=
  (h.pages m).mpr (hm.imp_left fun hmem ↦ by simp [hmem])

/-- The pages of an address space and the free pages. -/
def ownPool (s : Phys) (pt n : ℕ) : Pool where
  pages m := Owns s pt n m ∨ m ∈ s.free
  mem := s.page
  kernelEnd := s.kernelEnd

namespace AddressSpace

variable (h : AddressSpace kernel s pt n)

include h

theorem own : Space kernel (ownPool s pt n) s pt n [] := by
  obtain ⟨pool, h⟩ := h
  refine ⟨h.wf, h.mapped, h.rest, h.nodup, h.data, fun m ↦ ?_, fun m hm ↦ ?_, fun _ _ ↦ rfl, rfl⟩
  · rw [List.append_nil, List.mem_append, or_right_comm]
    rfl
  · show s.kernelEnd ≤ _ ∧ _
    rw [h.kernelEnd]
    refine h.range m ?_
    rcases hm with hm | hm
    · exact h.pool_of_owns hm
    · exact (h.pages m).mpr (.inl (List.mem_append_right _ hm))

theorem not_free (hm : Owns s pt n m) : m ∉ s.free := by
  have hown := h.own
  rcases hm with hm | hm
  · exact hown.notFree (by simp [hm])
  · exact fun hfree ↦ hown.wf.fresh m hfree hm

/-- An address space depends on its pages only. -/
theorem frame (hfree : FreeOk s')
    (hkeep : ∀ m, Owns s pt n m → m ∉ s'.free ∧ s'.page m = s.page m)
    (hend : s'.kernelEnd = s.kernelEnd) :
    AddressSpace kernel s' pt n ∧ SameView s s' pt n ∧ ∀ m, Owns s' pt n m ↔ Owns s pt n m := by
  have hown := h.own
  have htables (m : ℕ) (hm : IsTable s.page pt m) : s'.page m = s.page m := (hkeep m (.inr hm)).2
  have hlookup (vpn : ℕ) : lookup s'.page pt vpn = lookup s.page pt vpn := lookup_congr htables
  have hframes : frames s'.page pt 0 n = frames s.page pt 0 n := frames_congr fun vpn _ _ ↦ hlookup vpn
  have htable (m : ℕ) : IsTable s'.page pt m ↔ IsTable s.page pt m := isTable_congr htables
  have howns (m : ℕ) : Owns s' pt n m ↔ Owns s pt n m := by
    rw [Owns, Owns, hframes, htable]
  refine ⟨⟨ownPool s' pt n, ⟨hown.wf.tree.congr htables, hfree, fun m hm hm' ↦ ?_⟩, fun vpn hvpn ↦ ?_,
    fun vpn hvpn hn ↦ ?_, ?_, fun m hm ↦ ?_, fun m ↦ ?_, fun m hm ↦ ?_, fun _ _ ↦ rfl, rfl⟩, ?_, howns⟩
  · exact (hkeep m (.inr ((htable m).mp hm'))).1 hm
  · rw [hlookup]
    exact hown.mapped vpn hvpn
  · rw [hlookup]
    exact hown.rest vpn hvpn hn
  · rw [List.append_nil, hframes, List.nodup_append]
    refine ⟨(List.nodup_append.mp (List.nodup_append.mp hown.nodup).1).1, hfree.nodup, ?_⟩
    rintro m hm _ hm' rfl
    exact (hkeep m (.inl hm)).1 hm'
  · rw [htable]
    rw [hframes] at hm
    exact hown.data m hm
  · rw [List.append_nil, List.mem_append, or_right_comm]
    rfl
  · rcases hm with hm | hm
    · show s'.kernelEnd ≤ _ ∧ _
      rw [hend]
      exact hown.range m (.inl ((howns m).mp hm))
    · exact hfree.range m hm
  · exact sameView_of_le le_rfl (fun vpn _ ↦ hlookup vpn) fun m hm ↦ (hkeep m (.inl hm)).2

end AddressSpace

/-- An address space beside those that are made from the pool. -/
structure Beside (kernel : ℕ → Option (ℕ × ℕ)) (pool : Pool) (s : Phys) (pt n : ℕ) : Prop where
  space : AddressSpace kernel s pt n
  apart : ∀ m, Owns s pt n m → ¬ pool.pages m

/-- Two address spaces without a common page. -/
def Apart (s : Phys) (pt n pt' n' : ℕ) : Prop := ∀ m, Owns s pt n m → ¬ Owns s pt' n' m

theorem Apart.symm (h : Apart s pt n pt' n') : Apart s pt' n' pt n := fun m hm' hm ↦ h m hm hm'

theorem Apart.beside (h : Apart s pt n pt' n') (hspace : AddressSpace kernel s pt n) :
    Beside kernel (ownPool s pt' n') s pt n := by
  refine ⟨hspace, fun m hm hpool ↦ ?_⟩
  rcases hpool with hm' | hfree
  · exact h m hm hm'
  · exact hspace.not_free hm hfree

theorem Beside.isApart (h : Beside kernel' pool s pt' k) (hspace : Space kernel pool s pt n []) :
    Apart s pt' k pt n := fun m hm' hm ↦ h.apart m hm' (hspace.pool_of_owns hm)

/-- Memory changed in the pool only, and what is free is part of it. -/
structure Pool.Holds (pool : Pool) (s : Phys) : Prop where
  free : FreeOk s
  pages : ∀ m ∈ s.free, pool.pages m
  outside : ∀ m, ¬ pool.pages m → s.page m = pool.mem m
  kernelEnd : s.kernelEnd = pool.kernelEnd

theorem Space.holds {extra : List ℕ} (h : Space kernel pool s pt n extra) : pool.Holds s :=
  ⟨h.wf.free, fun m hm ↦ (h.pages m).mpr (.inl (List.mem_append_right _ hm)), h.outside, h.kernelEnd⟩

theorem Released.holds (h : Released pool s) : pool.Holds s :=
  ⟨h.free, fun m hm ↦ (h.pages m).mp hm, h.outside, h.kernelEnd⟩

/-- What happens in the pool is not seen by others. -/
theorem Beside.keep (h : Beside kernel' pool s pt' k) (hholds : pool.Holds s)
    (hholds' : pool.Holds s') : Beside kernel' pool s' pt' k ∧ SameView s s' pt' k := by
  have hkeep (m : ℕ) (hm : Owns s pt' k m) : m ∉ s'.free ∧ s'.page m = s.page m := by
    have hout := h.apart m hm
    refine ⟨fun hfree ↦ hout (hholds'.pages m hfree), ?_⟩
    rw [hholds'.outside m hout, hholds.outside m hout]
  obtain ⟨hspace, hview, howns⟩ := h.space.frame hholds'.free hkeep
    (hholds'.kernelEnd.trans hholds.kernelEnd.symm)
  exact ⟨⟨hspace, fun m hm ↦ h.apart m ((howns m).mp hm)⟩, hview⟩

/-! ## User memory of an address space -/

theorem lookup_of_userFrame {mem : Pages} {vpn frame : ℕ} (h : userFrame mem pt vpn = some frame) :
    ∃ flags, lookup mem pt vpn = some (frame, flags) ∧ flags &&& PTE_U ≠ 0 := by
  rw [userFrame, if_pos (lt_of_userFrame h), Option.bind_eq_some_iff] at h
  obtain ⟨⟨frame', flags⟩, hlookup, hflags⟩ := h
  have hU : flags &&& PTE_U ≠ 0 := fun hU ↦ by
    rw [if_pos hU] at hflags
    cases hflags
  rw [if_neg hU, Option.some.injEq] at hflags
  exact ⟨flags, by rw [hlookup, ← hflags], hU⟩

namespace Space

/-- No two pages have the same physical page. -/
theorem vpn_inj {vpn vpn' frame flags flags' : ℕ} (h : Space kernel pool s pt n [])
    (hlt : vpn < n) (hlt' : vpn' < n)
    (hlookup : lookup s.page pt vpn = some (frame, flags))
    (hlookup' : lookup s.page pt vpn' = some (frame, flags')) : vpn = vpn' := by
  have hnodup := (List.nodup_append.mp (List.nodup_append.mp h.nodup).1).1
  have hle {vpn vpn' flags flags' : ℕ} (hlt' : vpn' < n)
      (hlookup : lookup s.page pt vpn = some (frame, flags))
      (hlookup' : lookup s.page pt vpn' = some (frame, flags')) : ¬ vpn < vpn' := by
    intro hvpn
    have hsplit : frames s.page pt 0 (vpn + 1 + (n - (vpn + 1))) = _ := frames_append 0 (vpn + 1) _
    rw [Nat.add_sub_cancel' (by omega), Nat.zero_add] at hsplit
    rw [hsplit, List.nodup_append] at hnodup
    refine hnodup.2.2 frame (mem_frames.mpr ?_) frame (mem_frames.mpr ?_) rfl
    · exact ⟨vpn, flags, Nat.zero_le _, by omega, hlookup⟩
    · exact ⟨vpn', flags', by omega, by omega, hlookup'⟩
  exact Nat.le_antisymm (Nat.not_lt.mp (hle hlt hlookup' hlookup))
    (Nat.not_lt.mp (hle hlt' hlookup hlookup'))

variable {frame vpn : ℕ} (hkernel : IsKernel kernel) (h : Space kernel pool s pt n [])

include hkernel h

theorem userFrame_lt (hframe : userFrame s.page pt vpn = some frame) :
    vpn < n ∧ frame ∈ frames s.page pt 0 n := by
  have hmax := lt_of_userFrame hframe
  obtain ⟨flags, hlookup, hU⟩ := lookup_of_userFrame hframe
  have hvpn : vpn < n := by
    by_contra hvpn
    rw [h.rest vpn (hmax.trans (by decide)) (Nat.not_lt.mp hvpn)] at hlookup
    exact hU (hkernel.supervisor vpn _ hlookup)
  exact ⟨hvpn, mem_frames.mpr ⟨vpn, flags, Nat.zero_le _, by omega, hlookup⟩⟩

theorem userTable (hend : KERNBASE ≤ s.kernelEnd) : UserTable s.page pt := by
  have hpool {vpn frame : ℕ} (hframe : userFrame s.page pt vpn = some frame) : pool.pages frame :=
    h.pool_of_owns (.inl (h.userFrame_lt hkernel hframe).2)
  refine ⟨h.wf.tree.aligned, fun vpn vpn' frame hvpn hvpn' ↦ ?_, fun vpn frame hvpn ↦ ?_,
    fun vpn hvpn ↦ ?_⟩
  · obtain ⟨flags, hlookup, -⟩ := lookup_of_userFrame hvpn
    obtain ⟨flags', hlookup', -⟩ := lookup_of_userFrame hvpn'
    exact h.vpn_inj (h.userFrame_lt hkernel hvpn).1 (h.userFrame_lt hkernel hvpn').1 hlookup
      hlookup'
  · exact h.data frame (List.mem_append_left _ (h.userFrame_lt hkernel hvpn).2)
  · have hrange := (h.range 0 (hpool hvpn)).1
    rw [← h.kernelEnd, Nat.zero_mul] at hrange
    exact absurd (hend.trans hrange) (by decide)

/-- User memory changes. -/
theorem changed {low high : ℕ} (hs' : s' = { s with page := s'.page })
    (hchanged : Changed s.page pt low high s'.page) : Space kernel pool s' pt n [] := by
  have hfree : s'.free = s.free := by rw [hs']
  have hend : s'.kernelEnd = s.kernelEnd := by rw [hs']
  refine h.touch hfree hchanged.tables (fun m hm ↦ Buffer.ext_get fun j ↦ ?_) hend
  refine hchanged.other m j fun va _ _ hplace ↦ hm ?_
  rw [place, Option.map_eq_some_iff] at hplace
  obtain ⟨frame, hframe, heq⟩ := hplace
  obtain ⟨rfl, -⟩ := Prod.mk.inj heq
  exact h.pool_of_owns (.inl (h.userFrame_lt hkernel hframe).2)

/-- Bytes are stored to user memory. -/
theorem stored {va : ℕ} {bytes : List UInt8} (hs' : s' = { s with page := s'.page })
    (hstored : Stored s.page pt va bytes s'.page) : Space kernel pool s' pt n [] :=
  h.changed hkernel hs' (.of_stored hstored le_rfl le_rfl)

end Space

/-! ## Runs of a process -/

/-- What a process does with its memory: stores of its program, copies by system calls, and `sbrk`. -/
inductive MemOp where
  | store (va : ℕ) (byte : UInt8)
  | copyin (va len : ℕ)
  | copyout (va : ℕ) (src : List UInt8)
  | sbrk (n : Int32)

/-- A store instruction.  It has no effect where the page is not mapped for the user, or is
read-only. -/
def userStore (pt va : ℕ) (byte : UInt8) : VmM Unit := do
  let s ← get
  match lookup s.page pt (va / PGSIZE) with
  | none => return ()
  | some (frame, flags) =>
    if va < MAXVA ∧ flags &&& PTE_U ≠ 0 ∧ flags &&& PTE_W ≠ 0 then
      setPage frame ((s.page frame).setBytes (va % PGSIZE) [byte])

def perform (p : Proc) : MemOp → VmM Proc
  | .store va byte => do
      userStore p.pagetable va byte
      return p
  | .copyin va len => do
      let _ ← copyin p.pagetable va len
      return p
  | .copyout va src => do
      let _ ← copyout p.pagetable va src
      return p
  | .sbrk n => do return (← sysSbrk n p).2

def performAll (p : Proc) : List MemOp → VmM Proc
  | [] => return p
  | op :: ops => do performAll (← perform p op) ops

section

variable {p : Proc} (hkernel : IsKernel kernel) (hend : KERNBASE ≤ s.kernelEnd)
  (h : Space kernel pool s p.pagetable (pageCount p.sz) [])

include hkernel hend h

theorem userStore_spec (va : ℕ) (byte : UInt8) :
    wp (userStore p.pagetable va byte)
      (fun _ s' ↦ Space kernel pool s' p.pagetable (pageCount p.sz) []) E s := by
  rw [userStore, wp_bind, wp_get]
  split
  · exact (wp_pure _).mpr h
  · rename_i frame flags hlookup
    split
    · rename_i hallowed
      have hmax : va / PGSIZE < MAXVA / PGSIZE := by
        have hva := hallowed.1
        simp only [MAXVA, PGSIZE] at hva ⊢
        omega
      have hframe : userFrame s.page p.pagetable (va / PGSIZE) = some frame := by
        rw [userFrame, if_pos hmax, hlookup, Option.bind_some, if_neg hallowed.2.1]
      have hin : va % PGSIZE + [byte].length ≤ PGSIZE := Nat.mod_lt _ (by decide)
      have hstored := (h.userTable hkernel hend).store_chunk hframe hin
      exact (wp_setPage _ _).mpr (h.stored hkernel rfl hstored)
    · exact (wp_pure _).mpr h

/-- A process works with its own pages and free pages. -/
theorem perform_spec (op : MemOp) :
    wp (perform p op)
      (fun p' s' ↦ Space kernel pool s' p'.pagetable (pageCount p'.sz) []) E s := by
  have htable := h.userTable hkernel hend
  cases op with
  | store va byte =>
    rw [perform, wp_bind]
    exact wp_post (userStore_spec hkernel hend h va byte) fun _ s' hspace ↦ (wp_pure _).mpr hspace
  | copyin va len =>
    rw [perform, wp_bind]
    refine wp_post (copyin_spec htable.aligned htable.nonzero va len) ?_
    rintro r s ⟨rfl, -⟩
    exact (wp_pure _).mpr h
  | copyout va src =>
    rw [perform, wp_bind]
    refine wp_post (copyout_spec htable va src) ?_
    rintro r s' ⟨hs', k, -, hstored⟩
    exact (wp_pure _).mpr (h.stored hkernel hs' hstored)
  | sbrk n =>
    rw [perform, wp_bind]
    refine wp_post (sysSbrk_spec hkernel.low hend h) ?_
    rintro ⟨r, p'⟩ s' ⟨r', -, hgrown⟩
    have hproc : p' = { p with sz := p'.sz } := hgrown.proc
    refine (wp_pure _).mpr ?_
    rw [hproc]
    exact hgrown.space

/-- Whatever a process does with its memory, it goes on in its own pages and free pages. -/
theorem performAll_spec (ops : List MemOp) :
    wp (performAll p ops)
      (fun p' s' ↦ Space kernel pool s' p'.pagetable (pageCount p'.sz) []) E s := by
  induction ops generalizing p s with
  | nil => exact (wp_pure _).mpr h
  | cons op ops ih =>
    rw [performAll, wp_bind]
    refine wp_post (perform_spec hkernel hend h op) fun p' s' hspace ↦ ih ?_ hspace
    rw [hspace.kernelEnd, ← h.kernelEnd]
    exact hend

end

/-- Whatever a process does with its memory, another one does not see it. -/
theorem performAll_isolated {p : Proc} (hkernel : IsKernel kernel) (hend : KERNBASE ≤ s.kernelEnd)
    (hp : ProcOk kernel s p) (hspace : AddressSpace kernel' s pt n)
    (hapart : Apart s pt n p.pagetable (pageCount p.sz)) (ops : List MemOp) :
    ∃ p' s', performAll p ops s = .ok (p', s') ∧ SameView s s' pt n := by
  have hp := AddressSpace.own hp
  obtain ⟨p', s', hok, hp'⟩ := ok_of_wp (performAll_spec hkernel hend hp ops)
  exact ⟨p', s', hok, ((hapart.beside hspace).keep hp.holds hp'.holds).2⟩

end Xv6.Vm
