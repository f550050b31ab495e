import Xv6.Vm.Isolation

/-!
# Making and Freeing the Page Tables of Processes

`proc_pagetable` makes a page table without user memory, with the trampoline and the trapframe at its
end, and `proc_freepagetable` frees the page table and the user memory of a process.  What was taken
from the free list is given back, also when there is not enough memory.
-/

namespace Xv6.Vm

open Lib

/-- The pages of the kernel in an address space. -/
def kernelMap (trampoline trapframe : ℕ) : ℕ → Option (ℕ × ℕ) :=
  Function.update (Function.update (fun _ ↦ none) (TRAMPOLINE / PGSIZE)
    (some (trampoline / PGSIZE, PTE_R ||| PTE_X ||| PTE_V))) (TRAPFRAME / PGSIZE)
    (some (trapframe / PGSIZE, PTE_R ||| PTE_W ||| PTE_V))

theorem isKernel_kernelMap (trampoline trapframe : ℕ) : IsKernel (kernelMap trampoline trapframe) := by
  refine ⟨fun vpn hvpn ↦ ?_, fun vpn b hb ↦ ?_⟩
  · rw [kernelMap, Function.update_of_ne hvpn.ne, Function.update_of_ne]
    exact (hvpn.trans (by decide)).ne
  · rw [kernelMap] at hb
    by_cases hframe : vpn = TRAPFRAME / PGSIZE
    · rw [hframe, Function.update_self] at hb
      rw [← Option.some.inj hb]
      exact (by decide : (PTE_R ||| PTE_W ||| PTE_V) &&& PTE_U = 0)
    · rw [Function.update_of_ne hframe] at hb
      by_cases hline : vpn = TRAMPOLINE / PGSIZE
      · rw [hline, Function.update_self] at hb
        rw [← Option.some.inj hb]
        exact (by decide : (PTE_R ||| PTE_X ||| PTE_V) &&& PTE_U = 0)
      · rw [Function.update_of_ne hline] at hb
        cases hb

/-- The free pages. -/
def freePool (s : Phys) : Pool where
  pages m := m ∈ s.free
  mem := s.page
  kernelEnd := s.kernelEnd

variable {kernel : ℕ → Option (ℕ × ℕ)} {pool : Pool} {s s' : Phys} {pt n vpn sz : ℕ}
  {E : Stop → Prop}

theorem released_freePool (hfree : FreeOk s) : Released (freePool s) s :=
  ⟨hfree, fun _ ↦ Iff.rfl, fun _ _ ↦ rfl, rfl⟩

theorem AddressSpace.beside_freePool (h : AddressSpace kernel s pt n) :
    Beside kernel (freePool s) s pt n := ⟨h, fun _ hm ↦ h.not_free hm⟩

/-! ## Pages of the kernel -/

namespace Space

variable (h : Space kernel pool s pt n []) (hn : n ≤ vpn) (hmax : vpn < MAXVA / PGSIZE)

include h hn hmax

/-- A page of the kernel is mapped. -/
theorem map_kernel {pa perm : ℕ} (hpa : pa < 2 ^ 64) (hmaps : Maps s pt vpn 1 pa perm s') :
    Space (Function.update kernel vpn (some (pa / PGSIZE, perm ||| PTE_V))) pool s' pt n [] := by
  have hsame (vpn' : ℕ) (hvpn' : vpn' < 2 ^ 27) (hne : vpn' ≠ vpn) :
      lookup s'.page pt vpn' = lookup s.page pt vpn' := by
    rw [hmaps.lookup vpn' hvpn', if_neg (by omega)]
  have hmax' : MAXVA / PGSIZE < 2 ^ 27 := by decide
  refine h.grow hmaps.wellFormed hmaps.grown ?_ (fun vpn' hvpn' ↦ ?_) fun vpn' hvpn' hn' ↦ ?_
  · rw [frames_congr fun vpn' _ hvpn' ↦ hsame vpn' (by omega) (by omega)]
  · rw [hsame vpn' (by omega) (by omega)]
    exact h.mapped vpn' hvpn'
  · by_cases heq : vpn' = vpn
    · subst heq
      rw [Function.update_self, hmaps.lookup vpn' hvpn', if_pos (by omega), Nat.sub_self, Nat.zero_mul,
        Nat.add_zero, Nat.mod_eq_of_lt hpa]
    · rw [Function.update_of_ne heq, hsame vpn' hvpn' heq]
      exact h.rest vpn' hvpn' hn'

/-- A page of the kernel is removed. -/
theorem uvmunmap_kernel {frame flags : ℕ} (hvpn : kernel vpn = some (frame, flags))
    (hleaf : flags ≠ PTE_V) :
    wp (uvmunmap pt (vpn * PGSIZE) 1 false)
      (fun _ s' ↦ Space (Function.update kernel vpn none) pool s' pt n []) E s := by
  have hmax' : MAXVA / PGSIZE < 2 ^ 27 := by decide
  have hfirst : vpn * PGSIZE / PGSIZE = vpn := Nat.mul_div_cancel vpn (by decide)
  have hlast : vpn * PGSIZE + 1 * PGSIZE ≤ MAXVA := by
    simp only [MAXVA, PGSIZE] at hmax ⊢
    omega
  have hlookup : lookup s.page pt vpn = some (frame, flags) := by
    rw [h.rest vpn (by omega) hn, hvpn]
  refine wp_post (uvmunmap_spec h.wf.tree (Nat.mul_mod_left _ _) hlast fun vpn' hlow hhigh ↦ ?_)
    fun _ s' hunmaps ↦ ?_
  · obtain rfl : vpn' = vpn := by omega
    exact ⟨frame, flags, hlookup, hleaf, fun hfalse ↦ by cases hfalse⟩
  · rw [hfirst] at hunmaps
    have hsame (vpn' : ℕ) (hvpn' : vpn' < 2 ^ 27) (hne : vpn' ≠ vpn) :
        lookup s'.page pt vpn' = lookup s.page pt vpn' := by
      rw [hunmaps.lookup vpn' hvpn', if_neg (by omega)]
    refine h.shrink hunmaps ?_ (fun vpn' hvpn' ↦ ?_) fun vpn' hvpn' hn' ↦ ?_
    · rw [frames_congr fun vpn' _ hvpn' ↦ hsame vpn' (by omega) (by omega)]
      exact (List.append_nil _).symm
    · rw [hsame vpn' (by omega) (by omega)]
      exact h.mapped vpn' hvpn'
    · by_cases heq : vpn' = vpn
      · subst heq
        rw [Function.update_self, hunmaps.lookup vpn' hvpn', if_pos (by omega)]
      · rw [Function.update_of_ne heq, hsame vpn' hvpn' heq]
        exact h.rest vpn' hvpn' hn'

end Space

/-! ## `uvmfree` -/

/-- A page table without bindings. -/
theorem Space.bare (h : Space (fun _ ↦ none) pool s pt 0 []) : Bare s.page 2 (pt / PGSIZE) := by
  refine ⟨h.wf.tree.distinct, h.wf.tree.inner, fun p i n hp hn ↦ ?_⟩
  obtain ⟨a, b, rfl⟩ := List.length_eq_two.mp hp
  -- An index that is followed is in the table.
  have hlt {n' j : ℕ} {c : ℕ} (hc : child (table s.page n' j) = some c) : j < 512 := by
    by_contra hj
    rw [table_of_le (Nat.not_lt.mp hj)] at hc
    cases hc
  by_cases hi : i < 512
  · have hsplit : Radix.follow child (table s.page) (pt / PGSIZE) [a, b] = some n := hn
    rw [Radix.follow] at hsplit
    obtain ⟨c, hc, hsplit⟩ := Option.bind_eq_some_iff.mp hsplit
    rw [Radix.follow] at hsplit
    obtain ⟨c', hc', -⟩ := Option.bind_eq_some_iff.mp hsplit
    have ha := hlt hc
    have hb := hlt hc'
    have hpath : path (a * 512 ^ 2 + b * 512 + i) = [a, b] := by
      simp only [path, List.cons.injEq, and_true]
      omega
    have hindex : (a * 512 ^ 2 + b * 512 + i) % 512 = i := by omega
    have hnone := h.rest (a * 512 ^ 2 + b * 512 + i) (by omega) (Nat.zero_le _)
    rw [lookup_of_follow (n := n) (by rw [hpath]; exact hn), hindex] at hnone
    exact binding_eq_none.mp hnone
  · rw [table_of_le (Nat.not_lt.mp hi)]
    rfl

/-- The last pages are freed. -/
theorem freewalk_release (h : Space (fun _ ↦ none) pool s pt 0 []) :
    wp (freewalk 3 pt) (fun _ s' ↦ Released pool s') E s := by
  have hpt : pt / PGSIZE * PGSIZE = pt :=
    Nat.div_mul_cancel (Nat.dvd_of_mod_eq_zero h.wf.tree.aligned)
  have hrange (m : ℕ) (hm : Below s.page 2 (pt / PGSIZE) m) :
      s.kernelEnd ≤ m * PGSIZE ∧ m * PGSIZE < PHYSTOP := by
    rw [h.kernelEnd]
    exact h.range m (h.pool_of_owns (.inr hm))
  have hfree := freewalk_spec (E := E) h.bare hrange
  rw [hpt] at hfree
  refine wp_post hfree fun _ s' hfrees ↦ ?_
  obtain ⟨freed, hs', hnodup, hfreed⟩ := hfrees.free
  have hend : s'.kernelEnd = pool.kernelEnd := hfrees.kernelEnd.trans h.kernelEnd
  have hpages (m : ℕ) : m ∈ s'.free ↔ pool.pages m := by
    rw [hs', List.mem_append, hfreed, h.pages, or_comm]
    rfl
  refine ⟨⟨?_, fun m hm ↦ ?_⟩, hpages, fun m hm ↦ ?_, hend⟩
  · rw [hs', List.nodup_append]
    refine ⟨hnodup, h.wf.free.nodup, ?_⟩
    rintro m hm _ hm' rfl
    exact h.wf.fresh m hm' ((hfreed m).mp hm)
  · rw [hend]
    exact h.range m ((hpages m).mp hm)
  · rw [hfrees.page m fun hbelow ↦ hm (h.pool_of_owns (.inr hbelow))]
    exact h.outside m hm

theorem uvmfree_spec (sz : ℕ) (h : Space (fun _ ↦ none) pool s pt (pageCount sz) []) :
    wp (uvmfree pt sz) (fun _ s' ↦ Released pool s') E s := by
  rw [uvmfree]
  by_cases hsz : 0 < sz
  · have hunmap := uvmunmap_all (E := E) (fun _ _ ↦ rfl) h
    rw [if_pos hsz, pgroundup_div h.fits, wp_bind]
    exact wp_post hunmap fun _ s' hspace ↦ freewalk_release hspace
  · obtain rfl : sz = 0 := Nat.eq_zero_of_not_pos hsz
    rw [if_neg hsz]
    exact freewalk_release h

/-! ## `proc_pagetable` and `proc_freepagetable` -/

theorem TRAMPOLINE_eq : TRAMPOLINE = TRAMPOLINE / PGSIZE * PGSIZE := by decide

theorem TRAPFRAME_eq : TRAPFRAME = TRAPFRAME / PGSIZE * PGSIZE := by decide

/-- Above user memory. -/
theorem Space.le_trapframe {extra : List ℕ} (h : Space kernel pool s pt n extra) :
    n ≤ TRAPFRAME / PGSIZE := h.size_le.trans (by decide)

variable {trampoline trapframe : ℕ}

theorem uvmcreate_spec (hfree : FreeOk s) :
    wp uvmcreate (fun r s' ↦ match r with
      | none => Released (freePool s) s'
      | some pt => Space (fun _ ↦ none) (freePool s) s' pt 0 []) E s := by
  rw [uvmcreate, wp_bind]
  refine wp_kalloc (fun refuse ↦ ?_) fun refuse m free hm ↦ ?_
  · exact (wp_pure _).mpr ⟨⟨hfree.nodup, hfree.range⟩, fun _ ↦ Iff.rfl, fun _ _ ↦ rfl, rfl⟩
  · have hnodup := hfree.nodup
    rw [hm, List.nodup_cons] at hnodup
    have hmem (k : ℕ) : k ∈ s.free ↔ k ∈ free ∨ k = m := by
      rw [hm, List.mem_cons, or_comm]
    dsimp only
    rw [wp_bind, wp_memset, Nat.mul_div_cancel m (by decide), wp_pure]
    refine space_zero (Function.update_self ..) ⟨hnodup.2, fun k hk ↦ ?_⟩ hnodup.1 hmem
      hfree.range (fun k hk ↦ ?_) rfl
    · exact hfree.range k ((hmem k).mpr (.inl hk))
    · have hne : k ≠ m := fun heq ↦ hk ((hmem k).mpr (.inr heq))
      show Function.update (Function.update s.page m _) m _ k = s.page k
      rw [Function.update_of_ne hne, Function.update_of_ne hne]

/-- A page table without user memory is made, or all memory is given back. -/
theorem procPagetable_spec (hfree : FreeOk s) (htrampoline : trampoline < 2 ^ 64)
    (htrapframe : trapframe < 2 ^ 64) :
    wp (procPagetable trampoline trapframe) (fun r s' ↦ match r with
      | none => Released (freePool s) s'
      | some pt => Space (kernelMap trampoline trapframe) (freePool s) s' pt 0 []) E s := by
  rw [procPagetable, wp_bind]
  refine wp_post (uvmcreate_spec hfree) fun r s₁ hr ↦ ?_
  cases r with
  | none => exact (wp_pure _).mpr hr
  | some pt =>
    have h₁ : Space (fun _ ↦ none) (freePool s) s₁ pt 0 [] := hr
    dsimp only
    rw [TRAMPOLINE_eq, TRAPFRAME_eq, wp_bind]
    refine wp_post (mappages_page h₁.wf htrampoline (by decide) (by decide)
      (h₁.rest _ (by decide) (Nat.zero_le _))) fun r s₂ hmaps ↦ ?_
    cases r with
    | false =>
      have h₂ := (h₁.map_none hmaps).1
      rw [if_neg Bool.false_ne_true, wp_bind]
      exact wp_post (uvmfree_spec 0 h₂) fun _ s₃ hreleased ↦ (wp_pure _).mpr hreleased
    | true =>
      have h₂ := h₁.map_kernel (Nat.zero_le _) (by decide) htrampoline hmaps
      have hne : TRAPFRAME / PGSIZE ≠ TRAMPOLINE / PGSIZE := by decide
      have hnone : lookup s₂.page pt (TRAPFRAME / PGSIZE) = none := by
        rw [h₂.rest _ (by decide) (Nat.zero_le _), Function.update_of_ne hne]
      rw [if_pos rfl, wp_bind]
      refine wp_post (mappages_page h₂.wf htrapframe (by decide) (by decide) hnone)
        fun r s₃ hmaps ↦ ?_
      cases r with
      | true =>
        rw [if_pos rfl, wp_pure]
        exact h₂.map_kernel (Nat.zero_le _) (by decide) htrapframe hmaps
      | false =>
        have h₃ := (h₂.map_none hmaps).1
        rw [if_neg Bool.false_ne_true, wp_bind]
        refine wp_post (h₃.uvmunmap_kernel (Nat.zero_le _) (by decide)
          (Function.update_self ..) (by decide)) fun _ s₄ h₄ ↦ ?_
        rw [Function.update_idem, Function.update_eq_self] at h₄
        rw [wp_bind]
        exact wp_post (uvmfree_spec 0 h₄) fun _ s₅ hreleased ↦
          (wp_pure _).mpr hreleased

/-- All memory of a process is given back. -/
theorem procFreepagetable_spec
    (h : Space (kernelMap trampoline trapframe) pool s pt (pageCount sz) []) :
    wp (procFreepagetable pt sz) (fun _ s' ↦ Released pool s') E s := by
  have hne : TRAMPOLINE / PGSIZE ≠ TRAPFRAME / PGSIZE := by decide
  have htrampoline : kernelMap trampoline trapframe (TRAMPOLINE / PGSIZE) =
      some (trampoline / PGSIZE, PTE_R ||| PTE_X ||| PTE_V) := by
    rw [kernelMap, Function.update_of_ne hne, Function.update_self]
  rw [procFreepagetable, TRAMPOLINE_eq, TRAPFRAME_eq, wp_bind]
  refine wp_post (h.uvmunmap_kernel (h.le_trapframe.trans (by decide)) (by decide) htrampoline
    (by decide)) fun _ s₁ h₁ ↦ ?_
  have htrapframe : Function.update (kernelMap trampoline trapframe) (TRAMPOLINE / PGSIZE) none
      (TRAPFRAME / PGSIZE) = some (trapframe / PGSIZE, PTE_R ||| PTE_W ||| PTE_V) := by
    rw [Function.update_of_ne hne.symm, kernelMap, Function.update_self]
  rw [wp_bind]
  refine wp_post (h₁.uvmunmap_kernel h₁.le_trapframe (by decide) htrapframe (by decide))
    fun _ s₂ h₂ ↦ ?_
  have hempty : Function.update (Function.update (kernelMap trampoline trapframe)
      (TRAMPOLINE / PGSIZE) none) (TRAPFRAME / PGSIZE) none = fun _ ↦ none := by
    rw [Function.update_comm hne, kernelMap, Function.update_idem, Function.update_comm hne.symm,
      Function.update_idem, Function.update_eq_self, Function.update_eq_self]
  rw [hempty] at h₂
  exact uvmfree_spec sz h₂

end Xv6.Vm
