import Xv6.Vm.Isolation

/-!
# Copying an Address Space

`uvmcopy` copies the user memory of a process to a page table without user memory, page by page.
From then on neither process sees what the other one does.  Without enough memory all pages that
were copied are freed again.
-/

namespace Xv6.Vm

open Lib

variable {kernel kernel' : ℕ → Option (ℕ × ℕ)} {pool : Pool} {s s' : Phys} {old new n i sz : ℕ}
  {E : Stop → Prop}

theorem or_V {entry flags : ℕ} (hV : entry &&& PTE_V ≠ 0) (hflags : pteFlags entry = flags) :
    flags ||| PTE_V = flags := by
  rw [and_V] at hV
  rw [pteFlags_eq] at hflags
  have hodd : flags.testBit 0 = true := by
    rw [Nat.testBit_zero, decide_eq_true_iff]
    omega
  apply Nat.eq_of_testBit_eq
  intro i
  rw [Nat.testBit_or]
  cases i with
  | zero => rw [hodd, Bool.true_or]
  | succ i =>
    have hzero : PTE_V.testBit (i + 1) = false := by
      rw [Nat.testBit_add_one]
      exact Nat.zero_testBit i
    rw [hzero, Bool.or_false]

/-- What `uvmcopy` does: it makes a copy of the first `sz` bytes of user memory, or nothing. -/
def Copied (kernel : ℕ → Option (ℕ × ℕ)) (pool : Pool) (old new n sz : ℕ) (r : Bool) (s' : Phys) :
    Prop :=
  (r = true ∧ pageCount sz ≤ n ∧ Space kernel pool s' new (pageCount sz) [] ∧
    ∀ vpn < pageCount sz, view s'.page new vpn = view s'.page old vpn) ∨
  (r = false ∧ Space kernel pool s' new 0 [])

/-- One round of `uvmcopy`, after `kalloc` has found a page. -/
theorem copy_page {fuel entry m : ℕ} {s₁ : Phys} {Q : Bool → Phys → Prop}
    (hlow' : ∀ vpn < USERTOP, kernel' vpn = none) (hold : Beside kernel pool s old n)
    (h : Space kernel' pool s new i []) (hi : i < n)
    (hlookup : lookup s.page old i = some (pte2pa entry / PGSIZE, pteFlags entry))
    (hV : entry &&& PTE_V ≠ 0) (h₁ : Space kernel' pool s₁ new i [m]) (hview₁ : SameView s s₁ new i)
    (hcopied : ∀ vpn < i, view s.page new vpn = view s.page old vpn)
    (hnext : ∀ s₂, Space kernel' pool s₂ new (i + 1) [] →
      (∀ vpn < i + 1, view s₂.page new vpn = view s₂.page old vpn) →
      wp (uvmcopyLoop old new sz fuel ((i + 1) * PGSIZE)) Q E s₂)
    (hfail : ∀ {s₂}, Space kernel' pool s₂ new i [] →
      wp (do
        uvmunmap new 0 (i * PGSIZE / PGSIZE) true
        return false) Q E s₂) :
    wp (do
      memmovePage (m * PGSIZE) (pte2pa entry)
      if ← mappages new (i * PGSIZE) PGSIZE (m * PGSIZE) (pteFlags entry) then
        uvmcopyLoop old new sz fuel ((i * PGSIZE + PGSIZE) % 2 ^ 64)
      else do
        kfree (m * PGSIZE)
        uvmunmap new 0 (i * PGSIZE / PGSIZE) true
        return false) Q E s₁ := by
  have hspace := hold.space.own
  have hn := hspace.size_le
  have hmax : i < MAXVA / PGSIZE := (hi.le.trans hn).trans_lt (by decide)
  have hpa : m * PGSIZE < 2 ^ 64 := (h₁.range m h₁.mem_pool).2.trans (by decide)
  -- The page to copy is not in the pool.
  have hout : ¬ pool.pages (pte2pa entry / PGSIZE) :=
    hold.apart _ (.inl (mem_frames.mpr ⟨i, _, Nat.zero_le _, by omega, hlookup⟩))
  have hleaf : pteFlags entry ≠ PTE_V := by
    obtain ⟨frame, flags, hlookup', hleaf⟩ := hspace.mapped i hi
    rw [hlookup, Option.some.injEq, Prod.mk.injEq] at hlookup'
    exact hlookup'.2 ▸ hleaf
  have hflags : pteFlags entry < 1024 := by
    rw [pteFlags_eq]
    exact Nat.mod_lt _ (by decide)
  rw [wp_bind]
  refine h₁.wp_memmovePage fun s₂ h₂ hview₂ hpage ↦ ?_
  have hview₂ := hview₁.trans hview₂
  rw [wp_bind]
  refine wp_post (mappages_page h₂.wf hpa hflags hmax ?_) fun r s₃ hmaps ↦ ?_
  · rw [h₂.rest i (hmax.trans (by decide)) le_rfl]
    exact hlow' i ((hi.le.trans hn).trans_lt (by decide))
  cases r with
  | true =>
    obtain ⟨h₃, hview₃, hnew⟩ := h₂.map (hmax.trans (by decide)) (by rwa [or_V hV rfl]) hmaps
    have hview := (hold.keep h.holds h₃.holds).2
    rw [if_pos rfl, next_page (hmax.trans (by decide))]
    refine hnext s₃ h₃ fun vpn hvpn ↦ ?_
    rcases Nat.lt_succ_iff_lt_or_eq.mp hvpn with hvpn | rfl
    · rw [((hview₂.trans hview₃) vpn hvpn).2, hcopied vpn hvpn, (hview vpn (by omega)).2]
    · rw [hnew, (hview vpn hi).2, view, hlookup, Option.map_some, or_V hV rfl, hpage,
        h₁.outside _ hout, h.outside _ hout]
  | false =>
    obtain ⟨h₃, -⟩ := h₂.map_none hmaps
    rw [if_neg (by decide), wp_bind]
    exact h₃.wp_kfree fun s₄ h₄ _ ↦ hfail h₄

theorem uvmcopyLoop_spec {fuel : ℕ} (hlow : ∀ vpn < USERTOP, kernel vpn = none)
    (hlow' : ∀ vpn < USERTOP, kernel' vpn = none) (hold : Beside kernel pool s old n)
    (h : Space kernel' pool s new i []) (hi : i ≤ n) (hsz : i ≤ pageCount sz)
    (hcopied : ∀ vpn < i, view s.page new vpn = view s.page old vpn) (hfuel : n < i + fuel)
    (hE : n < pageCount sz → E (.panic .uvmcopyPte) ∧ E (.panic .uvmcopyPresent)) :
    wp (uvmcopyLoop old new sz fuel (i * PGSIZE)) (Copied kernel' pool old new n sz) E s := by
  induction fuel generalizing i s with
  | zero => exact absurd hfuel (Nat.not_lt.mpr hi)
  | succ fuel ih =>
    have hfail {s' : Phys} (hspace : Space kernel' pool s' new i []) :
        wp (do
          uvmunmap new 0 (i * PGSIZE / PGSIZE) true
          return false) (Copied kernel' pool old new n sz) E s' := by
      rw [Nat.mul_div_cancel i (by decide), wp_bind]
      exact wp_post (uvmunmap_all hlow' hspace) fun _ s'' hspace' ↦ (wp_pure _).mpr (.inr ⟨rfl, hspace'⟩)
    have hspace := hold.space.own
    have hn : n ≤ PHYSTOP / PGSIZE := hspace.size_le
    have hmax : i < MAXVA / PGSIZE := (hi.trans hn).trans_lt (by decide)
    have hmax' : i * PGSIZE < MAXVA := by
      simp only [MAXVA, PGSIZE] at hmax ⊢
      omega
    rw [uvmcopyLoop]
    split
    · rename_i hmore
      have hpage : i < pageCount sz := Nat.lt_of_mul_lt_mul_right (hmore.trans_le (le_pageCount sz))
      rw [wp_bind]
      refine wp_post (walk_lookup hspace.wf.tree.aligned hmax') ?_
      rintro r s ⟨rfl, hlookup⟩
      rw [Nat.mul_div_cancel i (by decide)] at hlookup
      -- A page that is not mapped is behind the last one.
      have hend (hnone : lookup s.page old i = none) : n < pageCount sz := by
        by_contra hle
        obtain ⟨frame, flags, hmapped, -⟩ := hspace.mapped i (by omega)
        rw [hnone] at hmapped
        cases hmapped
      cases r with
      | none => exact (hE (hend hlookup)).1
      | some pte =>
        rw [Option.bind_some] at hlookup
        rw [wp_bind, wp_load64, ← entryAt]
        generalize entryAt s.page pte = entry at hlookup ⊢
        split
        · rename_i hV
          rw [binding_eq_none.mpr hV] at hlookup
          exact (hE (hend hlookup)).2
        · rename_i hV
          rw [binding, child, if_neg hV, Option.map_some] at hlookup
          refine wp_bind.mpr (h.wp_kalloc (fun s₁ h₁ _ ↦ hfail h₁) fun m s₁ h₁ hview₁ ↦ ?_)
          dsimp only
          have hlt : i < n := by
            refine Nat.lt_of_le_of_ne hi ?_
            rintro rfl
            rw [hspace.rest i (hmax.trans (by decide)) le_rfl, hlow i (hn.trans_lt (by decide))] at hlookup
            cases hlookup
          refine copy_page hlow' hold h hlt hlookup hV h₁ hview₁ hcopied (fun s₂ h₂ hcopied₂ ↦ ?_) hfail
          exact ih (hold.keep h.holds h₂.holds).1 h₂ hlt hpage hcopied₂ (by omega)
    · rename_i hstop
      have heq : i = pageCount sz := by
        refine Nat.le_antisymm hsz ?_
        have hmono := pageCount_mono (Nat.le_of_not_lt hstop)
        rwa [pageCount_mul] at hmono
      subst heq
      exact (wp_pure _).mpr (.inl ⟨rfl, hi, h, hcopied⟩)

theorem uvmcopy_spec (hlow : ∀ vpn < USERTOP, kernel vpn = none)
    (hlow' : ∀ vpn < USERTOP, kernel' vpn = none) (hold : Beside kernel pool s old n)
    (h : Space kernel' pool s new 0 []) (sz : ℕ)
    (hE : n < pageCount sz → E (.panic .uvmcopyPte) ∧ E (.panic .uvmcopyPresent)) :
    wp (uvmcopy old new sz) (Copied kernel' pool old new n sz) E s := by
  have hn : n < 0 + (MAXVA / PGSIZE + 1) := by
    rw [Nat.zero_add]
    exact hold.space.own.size_le.trans_lt (by decide)
  have hloop := uvmcopyLoop_spec hlow hlow' hold h (Nat.zero_le _) (Nat.zero_le _)
    (fun _ hvpn ↦ absurd hvpn (Nat.not_lt_zero _)) hn hE
  rw [Nat.zero_mul] at hloop
  exact hloop

/-- Memory with two empty page tables, at the pages `0x80400` and `0x80401`, and six free pages. -/
def twoTables : Phys :=
  ⟨fun _ ↦ .fill 0, [0x80402, 0x80403, 0x80404, 0x80405, 0x80406, 0x80407], [], KERNBASE⟩

theorem addressSpace_twoTables {m : ℕ} (hm : m = 0x80400 ∨ m = 0x80401) :
    AddressSpace (fun _ ↦ none) twoTables (m * PGSIZE) 0 := by
  have hfree : FreeOk twoTables := ⟨by decide, by decide⟩
  refine ⟨⟨fun k ↦ k ∈ twoTables.free ∨ k = m, twoTables.page, KERNBASE⟩,
    space_zero rfl hfree ?_ (fun _ ↦ Iff.rfl) ?_ (fun _ _ ↦ rfl) rfl⟩
  · rcases hm with rfl | rfl
    · decide
    · decide
  · rintro k (hk | rfl)
    · exact hfree.range k hk
    · rcases hm with rfl | rfl
      · decide
      · decide

theorem apart_twoTables : Apart twoTables (0x80401 * PGSIZE) 0 (0x80400 * PGSIZE) 0 := by
  have hempty (m i : ℕ) : table twoTables.page m i = 0 := Buffer.getLE_fill_zero _ _
  rintro k (hk | hk) (hk' | hk')
  · cases hk
  · cases hk
  · cases hk'
  · rw [isTable_empty (hempty _)] at hk hk'
    exact absurd (hk.symm.trans hk') (by decide)

end Xv6.Vm
