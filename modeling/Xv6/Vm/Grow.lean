import Xv6.Vm.Refinement
import Xv6.Vm.Space

/-!
# Growing and Shrinking Address Spaces

`uvmalloc` adds pages of zeros to user memory, or none if there is not enough memory; `uvmdealloc`
removes pages from its end.  The other pages do not change.
-/

namespace Xv6.Vm

open Lib

/-- The number of pages for `sz` bytes. -/
def pageCount (sz : ℕ) : ℕ := (sz + (PGSIZE - 1)) / PGSIZE

/-- The first page that belongs to the kernel in an address space. -/
abbrev USERTOP : ℕ := TRAPFRAME / PGSIZE

variable {kernel : ℕ → Option (ℕ × ℕ)} {pool : Pool} {s s' : Phys} {pt n k m vpn sz : ℕ}
  {E : Stop → Prop}

theorem pageCount_mul (n : ℕ) : pageCount (n * PGSIZE) = n := by
  simp only [pageCount, PGSIZE]
  omega

theorem le_pageCount (sz : ℕ) : sz ≤ pageCount sz * PGSIZE := by
  simp only [pageCount, PGSIZE]
  omega

theorem pageCount_mono {sz sz' : ℕ} (h : sz ≤ sz') : pageCount sz ≤ pageCount sz' :=
  Nat.div_le_div_right (Nat.add_le_add_right h _)

theorem pgroundup_eq (h : sz + PGSIZE ≤ 2 ^ 64) : pgroundup sz = pageCount sz * PGSIZE := by
  have hsmall : (sz + (PGSIZE - 1)) % 2 ^ 64 = sz + (PGSIZE - 1) :=
    Nat.mod_eq_of_lt (by simp only [PGSIZE] at h ⊢; omega)
  rw [pgroundup, hsmall, pgrounddown_eq, pageCount]

theorem pgroundup_div (h : sz + PGSIZE ≤ 2 ^ 64) : pgroundup sz / PGSIZE = pageCount sz := by
  rw [pgroundup_eq h, Nat.mul_div_cancel _ (by decide)]

/-- Sizes that do not fit below the last page are rounded up to 0. -/
theorem pgroundup_eq_zero (h : 2 ^ 64 < sz + PGSIZE) (hsz : sz < 2 ^ 64) : pgroundup sz = 0 := by
  rw [pgroundup, pgrounddown_eq]
  simp only [PGSIZE] at h ⊢
  omega

theorem pgroundup_div_mul (sz : ℕ) : pgroundup sz / PGSIZE * PGSIZE = pgroundup sz := by
  rw [pgroundup, pgrounddown_eq, Nat.mul_div_cancel _ (by decide)]

theorem pgroundup_div_le (sz : ℕ) : pgroundup sz / PGSIZE ≤ pageCount sz := by
  rw [pgroundup, pgrounddown_eq, Nat.mul_div_cancel _ (by decide), pageCount]
  exact Nat.div_le_div_right (Nat.mod_le _ _)

/-- `mappages` of one page. -/
theorem mappages_page {pa perm : ℕ} (h : WellFormed s pt) (hpa : pa < 2 ^ 64) (hperm : perm < 1024)
    (hmax : vpn < MAXVA / PGSIZE) (hunmapped : lookup s.page pt vpn = none) :
    wp (mappages pt (vpn * PGSIZE) PGSIZE pa perm)
      (fun r s' ↦ Maps s pt vpn (if r then 1 else 0) pa perm s') E s := by
  have hfirst : vpn * PGSIZE / PGSIZE = vpn := Nat.mul_div_cancel vpn (by decide)
  have hlast : (vpn * PGSIZE + PGSIZE - 1) / PGSIZE = vpn := by
    simp only [PGSIZE]
    omega
  have hend : vpn * PGSIZE + PGSIZE ≤ MAXVA := by
    simp only [PGSIZE, MAXVA] at hmax ⊢
    omega
  refine wp_post (mappages_spec h hpa hperm (by decide) hend fun vpn' hlow hhigh ↦ ?_) ?_
  · rw [hfirst] at hlow
    rw [hlast] at hhigh
    rw [Nat.le_antisymm hhigh hlow, hunmapped]
  · rintro r s' ⟨count, hmaps, hcount⟩
    rw [hfirst, hlast] at hcount
    rw [hfirst] at hmaps
    cases r with
    | true =>
      obtain rfl : count = 1 := Nat.add_left_cancel hcount
      exact hmaps
    | false =>
      obtain rfl : count = 0 := Nat.le_zero.mp (Nat.le_of_add_le_add_left hcount)
      exact hmaps

namespace Space

/-- A page is mapped behind the last one. -/
theorem map {perm : ℕ} (h : Space kernel pool s pt n [m]) (hn : n < 2 ^ 27)
    (hperm : perm ||| PTE_V ≠ PTE_V) (hmaps : Maps s pt n 1 (m * PGSIZE) perm s') :
    Space kernel pool s' pt (n + 1) [] ∧ SameView s s' pt n ∧
      view s'.page pt n = some (s.page m, perm ||| PTE_V) := by
  have hsmall : m * PGSIZE < 2 ^ 64 := (h.range m h.mem_pool).2.trans (by decide)
  have hnew : lookup s'.page pt n = some (m, perm ||| PTE_V) := by
    rw [hmaps.lookup n hn, if_pos (by omega), Nat.sub_self, Nat.zero_mul, Nat.add_zero,
      Nat.mod_eq_of_lt hsmall, Nat.mul_div_cancel m (by decide)]
  have hsame (vpn : ℕ) (hvpn : vpn < 2 ^ 27) (hne : vpn ≠ n) :
      lookup s'.page pt vpn = lookup s.page pt vpn := by
    rw [hmaps.lookup vpn hvpn, if_neg (by omega)]
  have hframes : frames s'.page pt 0 n = frames s.page pt 0 n :=
    frames_congr fun vpn _ hvpn ↦ hsame vpn (by omega) (by omega)
  refine ⟨h.grow hmaps.wellFormed hmaps.grown ?_ (fun vpn hvpn ↦ ?_) fun vpn hvpn hn ↦ ?_,
    sameView_of_le le_rfl (fun vpn hvpn ↦ hsame vpn (by omega) (by omega)) fun m hm ↦ ?_, ?_⟩
  · rw [frames_snoc hnew, hframes, List.append_nil]
  · rcases Nat.lt_succ_iff_lt_or_eq.mp hvpn with hvpn | rfl
    · rw [hsame vpn (by omega) (by omega)]
      exact h.mapped vpn hvpn
    · exact ⟨m, _, hnew, hperm⟩
  · rw [hsame vpn hvpn (by omega)]
    exact h.rest vpn hvpn (by omega)
  · exact h.page_of_grown hmaps.grown (List.mem_append_left _ hm)
  · rw [view, hnew, Option.map_some, h.page_of_grown hmaps.grown (by simp)]

/-- Table pages are added and nothing is mapped. -/
theorem map_none {first pa perm : ℕ} {extra : List ℕ} (h : Space kernel pool s pt n extra)
    (hmaps : Maps s pt first 0 pa perm s') :
    Space kernel pool s' pt n extra ∧ SameView s s' pt n := by
  have hsmall : n < 2 ^ 27 := h.size_le.trans_lt (by decide)
  have hsame (vpn : ℕ) (hvpn : vpn < 2 ^ 27) : lookup s'.page pt vpn = lookup s.page pt vpn := by
    rw [hmaps.lookup vpn hvpn, if_neg (by omega)]
  have hframes : frames s'.page pt 0 n = frames s.page pt 0 n :=
    frames_congr fun vpn _ hvpn ↦ hsame vpn (by omega)
  refine ⟨h.grow hmaps.wellFormed hmaps.grown ?_ (fun vpn hvpn ↦ ?_) fun vpn hvpn hn ↦ ?_,
    sameView_of_le le_rfl (fun vpn hvpn ↦ hsame vpn (by omega)) fun m hm ↦ ?_⟩
  · rw [hframes]
  · rw [hsame vpn (by omega)]
    exact h.mapped vpn hvpn
  · rw [hsame vpn hvpn]
    exact h.rest vpn hvpn hn
  · exact h.page_of_grown hmaps.grown (List.mem_append_left _ hm)

/-- A size that is mapped is far from `2 ^ 64`. -/
theorem fits {extra : List ℕ} (h : Space kernel pool s pt (pageCount sz) extra) :
    sz + PGSIZE ≤ 2 ^ 64 := by
  have hsize := h.size_le
  have hcover := le_pageCount sz
  simp only [PHYSTOP, KERNBASE, PGSIZE] at hsize hcover ⊢
  omega

theorem removable (h : Space kernel pool s pt n []) (hvpn : vpn < n) :
    Removable s pt true vpn := by
  obtain ⟨frame, flags, hlookup, hleaf⟩ := h.mapped vpn hvpn
  have hmem : frame ∈ frames s.page pt 0 n :=
    mem_frames.mpr ⟨vpn, flags, Nat.zero_le _, by omega, hlookup⟩
  refine ⟨frame, flags, hlookup, hleaf, fun _ ↦ ⟨h.data frame (by simp [hmem]), ?_⟩⟩
  rw [h.kernelEnd]
  exact h.range frame ((h.pages frame).mpr (.inl (by simp [hmem])))

end Space

/-- `uvmdealloc` of a size that was rounded up to 0 removes nothing. -/
theorem uvmdealloc_zero {oldsz newsz : ℕ} (hold : pgroundup oldsz = 0) (hlt : newsz < oldsz) :
    uvmdealloc pt oldsz newsz s = .ok (newsz, s) := by
  rw [uvmdealloc, if_neg (Nat.not_le.mpr hlt), hold, if_neg (Nat.not_lt_zero _)]
  rfl

section

variable (hlow : ∀ vpn < USERTOP, kernel vpn = none)

include hlow

/-- The last pages of user memory are removed. -/
theorem uvmunmap_user (h : Space kernel pool s pt n []) (hk : k ≤ n) :
    wp (uvmunmap pt (k * PGSIZE) (n - k) true) (fun _ s' ↦ Space kernel pool s' pt k [] ∧
      SameView s s' pt k ∧ s'.free = (frames s.page pt k (n - k)).reverse ++ s.free) E s := by
  have hsmall := h.size_le
  have hfirst : k * PGSIZE / PGSIZE = k := Nat.mul_div_cancel k (by decide)
  have hmax : k * PGSIZE + (n - k) * PGSIZE ≤ MAXVA := by
    simp only [PHYSTOP, KERNBASE, PGSIZE, MAXVA] at hsmall ⊢
    omega
  refine wp_post (uvmunmap_spec h.wf.tree (Nat.mul_mod_left _ _) hmax fun vpn hlow' hhigh ↦ ?_)
    fun _ s' hunmaps ↦ ?_
  · exact h.removable (by omega)
  · rw [hfirst] at hunmaps
    simp only [PHYSTOP, KERNBASE, PGSIZE] at hsmall
    have hsame (vpn : ℕ) (hvpn : vpn < 2 ^ 27) (hout : vpn < k ∨ n ≤ vpn) :
        lookup s'.page pt vpn = lookup s.page pt vpn := by
      rw [hunmaps.lookup vpn hvpn, if_neg (by omega)]
    have hframes : frames s'.page pt 0 k = frames s.page pt 0 k :=
      frames_congr fun vpn _ hvpn ↦ hsame vpn (by omega) (by omega)
    have happend : frames s.page pt 0 n = frames s.page pt 0 k ++ frames s.page pt k (n - k) := by
      have hsplit : frames s.page pt 0 (k + (n - k)) = _ := frames_append 0 k (n - k)
      rw [Nat.add_sub_cancel' hk, Nat.zero_add] at hsplit
      exact hsplit
    refine ⟨h.shrink hunmaps ?_ (fun vpn hvpn ↦ ?_) fun vpn hvpn hn ↦ ?_,
      sameView_of_le le_rfl (fun vpn hvpn ↦ hsame vpn (by omega) (by omega)) fun m hm ↦ ?_,
      hunmaps.free⟩
    · rw [hframes]
      exact happend
    · rw [hsame vpn (by omega) (by omega)]
      exact h.mapped vpn (by omega)
    · by_cases hvpn' : vpn < n
      · rw [hunmaps.lookup vpn hvpn, if_pos (by omega), hlow]
        simp only [USERTOP, TRAPFRAME, TRAMPOLINE, MAXVA, PGSIZE]
        omega
      · rw [hsame vpn hvpn (by omega)]
        exact h.rest vpn hvpn (by omega)
    · -- A page that is kept is not among those that are freed.
      have hnodup := (List.nodup_append.mp (List.nodup_append.mp h.nodup).1).1
      rw [happend, List.nodup_append] at hnodup
      refine hunmaps.page m (h.data m ?_) fun hfreed ↦ hnodup.2.2 m hm m hfreed rfl
      rw [happend]
      simp [hm]

/-- All user memory is removed. -/
theorem uvmunmap_all (h : Space kernel pool s pt n []) :
    wp (uvmunmap pt 0 n true) (fun _ s' ↦ Space kernel pool s' pt 0 []) E s := by
  have hunmap := uvmunmap_user (E := E) hlow h (Nat.zero_le n)
  rw [Nat.zero_mul, Nat.sub_zero] at hunmap
  exact wp_post hunmap fun _ s' hspace ↦ hspace.1

/-- `uvmdealloc` brings user memory down to a smaller size. -/
theorem uvmdealloc_spec {oldsz newsz : ℕ} (h : Space kernel pool s pt (pageCount oldsz) []) :
    wp (uvmdealloc pt oldsz newsz) (fun r s' ↦ r = min oldsz newsz ∧
      Space kernel pool s' pt (pageCount r) [] ∧ SameView s s' pt (pageCount r) ∧
      s'.free = (frames s.page pt (pageCount r) (pageCount oldsz - pageCount r)).reverse ++ s.free)
      E s := by
  have hsize := h.size_le
  rw [uvmdealloc]
  by_cases hle : oldsz ≤ newsz
  · rw [if_pos hle]
    refine (wp_pure _).mpr ⟨(Nat.min_eq_left hle).symm, h, .refl s pt _, ?_⟩
    rw [Nat.sub_self]
    rfl
  · have hlt : newsz < oldsz := Nat.lt_of_not_le hle
    have hmin : newsz = min oldsz newsz := (Nat.min_eq_right hlt.le).symm
    have hmono := pageCount_mono hlt.le
    have hold := h.fits
    rw [if_neg hle, pgroundup_eq hold, pgroundup_eq (by omega : newsz + PGSIZE ≤ 2 ^ 64),
      ← Nat.sub_mul, Nat.mul_div_cancel _ (by decide : 0 < PGSIZE)]
    have hnpages : intToUint64 (pageCount oldsz - pageCount newsz) =
        pageCount oldsz - pageCount newsz := by
      simp only [PHYSTOP, KERNBASE, PGSIZE] at hsize
      rw [intToUint64, Nat.mod_eq_of_lt (by omega), if_pos (by omega)]
    rw [hnpages]
    split
    · rw [wp_bind]
      refine wp_post (uvmunmap_user hlow h hmono) fun _ s' hspace ↦ ?_
      exact (wp_pure _).mpr ⟨hmin, hspace⟩
    · rename_i hnot
      have heq : pageCount oldsz = pageCount newsz :=
        Nat.le_antisymm (Nat.le_of_mul_le_mul_right (Nat.le_of_not_lt hnot) (by decide)) hmono
      rw [heq] at h
      refine (wp_pure _).mpr ⟨hmin, h, .refl s pt _, ?_⟩
      rw [heq, Nat.sub_self]
      rfl

/-- What `uvmalloc` does: it grows user memory to `newsz` bytes, or leaves `old` pages. -/
def Allocated (kernel : ℕ → Option (ℕ × ℕ)) (pool : Pool) (s : Phys) (pt n old newsz r : ℕ)
    (s' : Phys) : Prop :=
  (r = newsz ∧ Space kernel pool s' pt (pageCount newsz) [] ∧ SameView s s' pt n ∧
    ∀ vpn, n ≤ vpn → vpn < pageCount newsz → view s'.page pt vpn =
      some (.fill 0, PTE_W ||| PTE_X ||| PTE_R ||| PTE_U ||| PTE_V)) ∨
  (r = 0 ∧ Space kernel pool s' pt old [] ∧ SameView s s' pt old)

theorem uvmallocLoop_spec {old newsz fuel : ℕ} (h : Space kernel pool s pt n []) (hold : old ≤ n)
    (hnew : n ≤ pageCount newsz) (hfuel : PHYSTOP / PGSIZE < n + fuel) :
    wp (uvmallocLoop pt (old * PGSIZE) newsz fuel (n * PGSIZE))
      (Allocated kernel pool s pt n old newsz) E s := by
  induction fuel generalizing n s with
  | zero => exact absurd hfuel (Nat.not_lt.mpr h.size_le)
  | succ fuel ih =>
    -- Without memory, all pages that were added are removed.
    have hfail {s' : Phys} (hspace : Space kernel pool s' pt n []) (hview : SameView s s' pt n) :
        wp (do
          let _ ← uvmdealloc pt (n * PGSIZE) (old * PGSIZE)
          return 0) (Allocated kernel pool s pt n old newsz) E s' := by
      have hmin : min (n * PGSIZE) (old * PGSIZE) = old * PGSIZE :=
        Nat.min_eq_right (Nat.mul_le_mul_right PGSIZE hold)
      rw [← pageCount_mul n] at hspace
      rw [wp_bind]
      refine wp_post (uvmdealloc_spec hlow hspace) ?_
      rintro _ s'' ⟨rfl, hspace', hview', -⟩
      rw [hmin, pageCount_mul] at hspace' hview'
      exact (wp_pure _).mpr (.inr ⟨rfl, hspace', (hview.mono hold).trans hview'⟩)
    rw [uvmallocLoop]
    split
    · rename_i hmore
      have hpage : n < pageCount newsz := by
        have hcover := hmore.trans_le (le_pageCount newsz)
        exact Nat.lt_of_mul_lt_mul_right hcover
      have hsmall := h.size_le
      have hmax : n < MAXVA / PGSIZE := hsmall.trans_lt (by decide)
      rw [wp_bind]
      refine h.wp_kalloc (fun s₁ hspace hview ↦ hfail hspace hview) fun m s₁ hspace hview ↦ ?_
      dsimp only
      rw [wp_bind]
      refine hspace.wp_memset fun s₂ hspace hview₂ hzero ↦ ?_
      have hview := hview.trans hview₂
      have hpa : m * PGSIZE < 2 ^ 64 := (hspace.range m hspace.mem_pool).2.trans (by decide)
      rw [wp_bind]
      refine wp_post (mappages_page hspace.wf hpa (by decide) hmax ?_) fun r s₃ hmaps ↦ ?_
      · rw [hspace.rest n (hmax.trans (by decide)) le_rfl]
        exact hlow n (hsmall.trans_lt (by decide))
      cases r with
      | true =>
        obtain ⟨hspace, hview₃, hnew⟩ := hspace.map (hmax.trans (by decide)) (by decide) hmaps
        have hview := hview.trans hview₃
        rw [next_page (hmax.trans (by decide))]
        refine wp_post (ih hspace (by omega) hpage (by omega)) fun r s' halloc ↦ ?_
        rcases halloc with ⟨hr, hspace, hview', hzeros⟩ | ⟨hr, hspace, hview'⟩
        · refine .inl ⟨hr, hspace, hview.trans (hview'.mono (Nat.le_succ n)), fun vpn hlow hhigh ↦ ?_⟩
          rcases Nat.eq_or_lt_of_le hlow with rfl | hlow
          · rw [(hview' n (Nat.lt_succ_self n)).2, hnew, hzero]
          · exact hzeros vpn hlow hhigh
        · exact .inr ⟨hr, hspace, (hview.mono hold).trans hview'⟩
      | false =>
        obtain ⟨hspace, hview₃⟩ := hspace.map_none hmaps
        rw [if_neg (by decide), wp_bind]
        refine hspace.wp_kfree fun s₄ hspace hview₄ ↦ ?_
        exact hfail hspace ((hview.trans hview₃).trans hview₄)
    · rename_i hstop
      have heq : n = pageCount newsz := by
        refine Nat.le_antisymm hnew ?_
        have hmono := pageCount_mono (Nat.le_of_not_lt hstop)
        rwa [pageCount_mul] at hmono
      refine (wp_pure _).mpr (.inl ⟨rfl, heq ▸ h, .refl s pt n, fun vpn hlow hhigh ↦ ?_⟩)
      omega

/-- `uvmalloc` grows user memory from `oldsz` to `newsz` bytes, or leaves it as it is. -/
theorem uvmalloc_spec {oldsz newsz : ℕ} (h : Space kernel pool s pt n [])
    (hold : pgroundup oldsz / PGSIZE = n) (hle : oldsz ≤ newsz) :
    wp (uvmalloc pt oldsz newsz) (Allocated kernel pool s pt n n newsz) E s := by
  have hn : pgroundup oldsz = n * PGSIZE := by rw [← hold, pgroundup_div_mul]
  have hnew : n ≤ pageCount newsz := hold ▸ (pgroundup_div_le oldsz).trans (pageCount_mono hle)
  rw [uvmalloc, if_neg (Nat.not_lt.mpr hle), hn]
  exact uvmallocLoop_spec hlow h le_rfl hnew (Nat.lt_add_left _ (by decide))

end

/-- The pages of `emptyTable`. -/
theorem addressSpace_emptyTable : AddressSpace (fun _ ↦ none) emptyTable (0x80400 * PGSIZE) 0 := by
  refine ⟨⟨fun m ↦ m ∈ emptyTable.free ∨ m = 0x80400, emptyTable.page, KERNBASE⟩,
    space_zero rfl wellFormed_emptyTable.free (by decide) (fun _ ↦ Iff.rfl) ?_ (fun _ _ ↦ rfl) rfl⟩
  rintro m (hm | rfl)
  · exact wellFormed_emptyTable.free.range m hm
  · decide

end Xv6.Vm
