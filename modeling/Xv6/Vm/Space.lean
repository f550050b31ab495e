import Mathlib.Data.List.Perm.Subperm
import Xv6.Vm.Freewalk

/-!
# Address Spaces

An address space has the pages of user memory from 0 on, and a few pages of the kernel at the end.
Its tables and its user pages come from a pool of pages, which were free when it was made; memory
outside the pool does not change.  What a program sees is the contents and the flags of its pages.
-/

namespace Xv6.Vm

open Lib

/-- Pages that were free at some time, and the contents of memory at that time. -/
structure Pool where
  pages : ℕ → Prop
  mem : Pages
  kernelEnd : ℕ

/-- The page table `pt` has `n` pages of user memory, and the bindings `kernel` above them.  The pages
`extra` are in use and not mapped yet. -/
structure Space (kernel : ℕ → Option (ℕ × ℕ)) (pool : Pool) (s : Phys) (pt n : ℕ)
    (extra : List ℕ) : Prop where
  wf : WellFormed s pt
  mapped : ∀ vpn < n, ∃ frame flags, lookup s.page pt vpn = some (frame, flags) ∧ flags ≠ PTE_V
  rest : ∀ vpn < 2 ^ 27, n ≤ vpn → lookup s.page pt vpn = kernel vpn
  nodup : (frames s.page pt 0 n ++ extra ++ s.free).Nodup
  data : ∀ m ∈ frames s.page pt 0 n ++ extra, ¬ IsTable s.page pt m
  pages : ∀ m, pool.pages m ↔ m ∈ frames s.page pt 0 n ++ extra ++ s.free ∨ IsTable s.page pt m
  range : ∀ m, pool.pages m → pool.kernelEnd ≤ m * PGSIZE ∧ m * PGSIZE < PHYSTOP
  outside : ∀ m, ¬ pool.pages m → s.page m = pool.mem m
  kernelEnd : s.kernelEnd = pool.kernelEnd

/-- An address space with `n` pages of user memory. -/
def AddressSpace (kernel : ℕ → Option (ℕ × ℕ)) (s : Phys) (pt n : ℕ) : Prop :=
  ∃ pool, Space kernel pool s pt n []

/-- All pages of the pool are free again. -/
structure Released (pool : Pool) (s : Phys) : Prop where
  free : FreeOk s
  pages : ∀ m, m ∈ s.free ↔ pool.pages m
  outside : ∀ m, ¬ pool.pages m → s.page m = pool.mem m
  kernelEnd : s.kernelEnd = pool.kernelEnd

/-- The contents and the flags of a virtual page. -/
def view (mem : Pages) (pt vpn : ℕ) : Option (Buffer PGSIZE × ℕ) :=
  (lookup mem pt vpn).map fun b ↦ (mem b.1, b.2)

variable {kernel kernel' : ℕ → Option (ℕ × ℕ)} {pool : Pool} {s s' : Phys} {pt n n' m vpn : ℕ}
  {extra extra' : List ℕ} {mem mem' : Pages} {E : Stop → Prop}

/-- The first `n` pages are mapped and look the same. -/
def SameView (s s' : Phys) (pt n : ℕ) : Prop :=
  ∀ vpn < n, lookup s'.page pt vpn = lookup s.page pt vpn ∧
    view s'.page pt vpn = view s.page pt vpn

theorem SameView.refl (s : Phys) (pt n : ℕ) : SameView s s pt n := fun _ _ ↦ ⟨rfl, rfl⟩

theorem SameView.trans {s'' : Phys} (h : SameView s s' pt n) (h' : SameView s' s'' pt n) :
    SameView s s'' pt n := fun vpn hvpn ↦
  ⟨(h' vpn hvpn).1.trans (h vpn hvpn).1, (h' vpn hvpn).2.trans (h vpn hvpn).2⟩

theorem SameView.mono (h : SameView s s' pt n) (hle : n' ≤ n) : SameView s s' pt n' :=
  fun vpn hvpn ↦ h vpn (hvpn.trans_le hle)

theorem view_congr (hlookup : lookup mem' pt vpn = lookup mem pt vpn)
    (hpage : ∀ m flags, lookup mem pt vpn = some (m, flags) → mem' m = mem m) :
    view mem' pt vpn = view mem pt vpn := by
  rw [view, view, hlookup]
  refine Option.map_congr fun b hb ↦ ?_
  rw [hpage b.1 b.2 hb]

/-- What is seen depends on the bindings and the data pages. -/
theorem sameView_of_le (hle : n' ≤ n)
    (hlookup : ∀ vpn < n', lookup s'.page pt vpn = lookup s.page pt vpn)
    (hpage : ∀ m ∈ frames s.page pt 0 n, s'.page m = s.page m) : SameView s s' pt n' := by
  intro vpn hvpn
  refine ⟨hlookup vpn hvpn, view_congr (hlookup vpn hvpn) fun m flags hm ↦ hpage m (mem_frames.mpr ?_)⟩
  exact ⟨vpn, flags, Nat.zero_le _, by omega, hm⟩

theorem frames_append (first count count' : ℕ) :
    frames mem pt first (count + count') =
      frames mem pt first count ++ frames mem pt (first + count) count' := by
  rw [frames, frames, frames, ← List.filterMap_append, List.range'_append_1]

theorem frames_snoc {frame flags : ℕ} (h : lookup mem pt n = some (frame, flags)) :
    frames mem pt 0 (n + 1) = frames mem pt 0 n ++ [frame] := by
  rw [frames_append, Nat.zero_add, frames_succ h]
  rfl

/-- A page of zeros is an address space without pages. -/
theorem space_zero (hzero : s.page m = .fill 0) (hfree : FreeOk s) (hm : m ∉ s.free)
    (hpages : ∀ k, pool.pages k ↔ k ∈ s.free ∨ k = m)
    (hrange : ∀ k, pool.pages k → pool.kernelEnd ≤ k * PGSIZE ∧ k * PGSIZE < PHYSTOP)
    (houtside : ∀ k, ¬ pool.pages k → s.page k = pool.mem k) (hend : s.kernelEnd = pool.kernelEnd) :
    Space (fun _ ↦ none) pool s (m * PGSIZE) 0 [] := by
  have hempty (i : ℕ) : table s.page m i = 0 := by
    rw [table, hzero]
    exact Buffer.getLE_fill_zero _ _
  refine ⟨⟨isTree_empty hempty, hfree, fun k hk hk' ↦ ?_⟩, fun _ hvpn ↦ absurd hvpn (Nat.not_lt_zero _),
    fun vpn _ _ ↦ lookup_empty hempty, hfree.nodup, fun k hk ↦ absurd hk List.not_mem_nil, fun k ↦ ?_,
    hrange, houtside, hend⟩
  · rw [(isTable_empty hempty).mp hk'] at hk
    exact hm hk
  · rw [isTable_empty hempty]
    exact hpages k

namespace Space

section

variable (h : Space kernel pool s pt n extra)

include h

theorem length_frames : (frames s.page pt 0 n).length = n := by
  have hlen (k : ℕ) (hk : k ≤ n) : (frames s.page pt 0 k).length = k := by
    induction k with
    | zero => rfl
    | succ k ih =>
      obtain ⟨frame, flags, hlookup, -⟩ := h.mapped k hk
      rw [frames_snoc hlookup, List.length_append, ih (Nat.le_of_succ_le hk), List.length_singleton]
  exact hlen n le_rfl

/-- There is not more user memory than physical memory. -/
theorem size_le_sub : n ≤ PHYSTOP / PGSIZE - s.kernelEnd / PGSIZE := by
  have hsub : frames s.page pt 0 n ⊆
      List.range' (s.kernelEnd / PGSIZE) (PHYSTOP / PGSIZE - s.kernelEnd / PGSIZE) := fun m hm ↦ by
    have hrange := h.range m ((h.pages m).mpr (.inl (by simp [hm])))
    rw [← h.kernelEnd] at hrange
    rw [List.mem_range'_1]
    simp only [PHYSTOP, KERNBASE, PGSIZE] at hrange ⊢
    omega
  have hnodup := (List.nodup_append.mp (List.nodup_append.mp h.nodup).1).1
  have hle := (List.subperm_of_subset hnodup hsub).length_le
  rw [h.length_frames, List.length_range'] at hle
  exact hle

theorem size_le : n ≤ PHYSTOP / PGSIZE := h.size_le_sub.trans (Nat.sub_le _ _)

theorem notFree (hm : m ∈ frames s.page pt 0 n ++ extra) : m ∉ s.free := fun hfree ↦
  (List.nodup_append.mp h.nodup).2.2 m hm m hfree rfl

/-- Pages change that are not part of the page table, and pages are taken from the free list or given
back. -/
theorem touch (hown : extra' ++ s'.free = extra ++ s.free)
    (htables : ∀ m, IsTable s.page pt m → s'.page m = s.page m)
    (houtside : ∀ m, ¬ pool.pages m → s'.page m = s.page m) (hend : s'.kernelEnd = s.kernelEnd) :
    Space kernel pool s' pt n extra' := by
  have hlookup (vpn : ℕ) : lookup s'.page pt vpn = lookup s.page pt vpn := lookup_congr htables
  have hframes : frames s'.page pt 0 n = frames s.page pt 0 n := frames_congr fun vpn _ _ ↦ hlookup vpn
  have htable (m : ℕ) : IsTable s'.page pt m ↔ IsTable s.page pt m := isTable_congr htables
  have hlist : frames s'.page pt 0 n ++ extra' ++ s'.free = frames s.page pt 0 n ++ extra ++ s.free := by
    rw [hframes, List.append_assoc, hown, List.append_assoc]
  have hdata (m : ℕ) (hm : m ∈ extra' ++ s'.free) : ¬ IsTable s.page pt m := by
    rw [hown, List.mem_append] at hm
    rcases hm with hm | hm
    · exact h.data m (List.mem_append_right _ hm)
    · exact h.wf.fresh m hm
  have hnodup : (frames s'.page pt 0 n ++ extra' ++ s'.free).Nodup := by
    rw [hlist]
    exact h.nodup
  refine ⟨⟨h.wf.tree.congr htables, ⟨(List.nodup_append.mp hnodup).2.1, fun m hm ↦ ?_⟩, fun m hm ↦ ?_⟩,
    fun vpn hvpn ↦ ?_, fun vpn hvpn hn ↦ ?_, hnodup, fun m hm ↦ ?_, fun m ↦ ?_, h.range, fun m hm ↦ ?_,
    hend.trans h.kernelEnd⟩
  · rw [hend, h.kernelEnd]
    refine h.range m ((h.pages m).mpr (.inl ?_))
    rw [← hlist]
    exact List.mem_append_right _ hm
  · rw [htable]
    exact hdata m (List.mem_append_right _ hm)
  · rw [hlookup]
    exact h.mapped vpn hvpn
  · rw [hlookup]
    exact h.rest vpn hvpn hn
  · rw [htable]
    rw [hframes, List.mem_append] at hm
    rcases hm with hm | hm
    · exact h.data m (List.mem_append_left _ hm)
    · exact hdata m (List.mem_append_left _ hm)
  · rw [hlist, htable]
    exact h.pages m
  · rw [houtside m hm]
    exact h.outside m hm

/-- The page table changes, and takes pages from the free list. -/
theorem grow (hwf : WellFormed s' pt) (hgrown : Extends pt s s')
    (hown : frames s'.page pt 0 n' ++ extra' = frames s.page pt 0 n ++ extra)
    (hmapped : ∀ vpn < n', ∃ frame flags, lookup s'.page pt vpn = some (frame, flags) ∧
      flags ≠ PTE_V)
    (hrest : ∀ vpn < 2 ^ 27, n' ≤ vpn → lookup s'.page pt vpn = kernel' vpn) :
    Space kernel' pool s' pt n' extra' := by
  obtain ⟨taken, hfree, htables⟩ := hgrown.free
  have hnodup := h.nodup
  rw [hfree, List.nodup_append] at hnodup
  obtain ⟨hdata, htaken, hapart⟩ := hnodup
  have hpages (m : ℕ) : pool.pages m ↔
      m ∈ frames s'.page pt 0 n' ++ extra' ++ s'.free ∨ IsTable s'.page pt m := by
    rw [h.pages, hown, htables, hfree]
    simp only [List.mem_append]
    tauto
  refine ⟨hwf, hmapped, hrest, ?_, fun m hm ↦ ?_, hpages, h.range, fun m hm ↦ ?_,
    hgrown.kernelEnd.trans h.kernelEnd⟩
  · rw [hown]
    refine List.nodup_append.mpr ⟨hdata, hwf.free.nodup, fun a ha b hb ↦ ?_⟩
    exact hapart a ha b (List.mem_append_right _ hb)
  · rw [hown] at hm
    rw [htables, not_or]
    exact ⟨h.data m hm, fun hmem ↦ hapart m hm m (List.mem_append_left _ hmem) rfl⟩
  · rw [hgrown.page m fun htable ↦ hm ((hpages m).mpr (.inr htable))]
    exact h.outside m hm

/-- A data page is not changed when the page table is. -/
theorem page_of_grown (hgrown : Extends pt s s') (hm : m ∈ frames s.page pt 0 n ++ extra) :
    s'.page m = s.page m := by
  obtain ⟨taken, hfree, htables⟩ := hgrown.free
  apply hgrown.page
  rw [htables, not_or]
  refine ⟨h.data m hm, fun hmem ↦ h.notFree hm ?_⟩
  rw [hfree]
  exact List.mem_append_left _ hmem

/-- Pages are removed, and the last user pages are freed. -/
theorem shrink {first count : ℕ} {freed : List ℕ} (hunmaps : Unmaps s pt first count freed s')
    (hown : frames s.page pt 0 n = frames s'.page pt 0 n' ++ freed)
    (hmapped : ∀ vpn < n', ∃ frame flags, lookup s'.page pt vpn = some (frame, flags) ∧
      flags ≠ PTE_V)
    (hrest : ∀ vpn < 2 ^ 27, n' ≤ vpn → lookup s'.page pt vpn = kernel' vpn) :
    Space kernel' pool s' pt n' extra := by
  have hnodup := h.nodup
  have hperm : (frames s.page pt 0 n ++ extra ++ s.free).Perm
      (frames s'.page pt 0 n' ++ extra ++ s'.free) := by
    rw [hown, hunmaps.free]
    simp only [List.append_assoc]
    refine List.Perm.append_left _ ?_
    have hswap : (freed ++ extra).Perm (extra ++ freed.reverse) :=
      List.perm_append_comm.trans ((List.reverse_perm freed).symm.append_left extra)
    rw [← List.append_assoc, ← List.append_assoc]
    exact hswap.append_right s.free
  have hmem (m : ℕ) (hm : m ∈ freed) : m ∈ frames s.page pt 0 n ++ extra := by
    rw [hown]
    simp [hm]
  have hsub (m : ℕ) (hm : m ∈ frames s'.page pt 0 n' ++ extra) : m ∈ frames s.page pt 0 n ++ extra := by
    rw [hown]
    rw [List.mem_append] at hm
    simp only [List.mem_append]
    tauto
  have hpages (m : ℕ) : pool.pages m ↔
      m ∈ frames s'.page pt 0 n' ++ extra ++ s'.free ∨ IsTable s'.page pt m := by
    rw [h.pages, hunmaps.tables, hperm.mem_iff]
  have hwf : WellFormed s' pt := by
    refine hunmaps.wellFormed h.wf ?_ (fun m hm ↦ ⟨h.notFree (hmem m hm), h.data m (hmem m hm)⟩)
      fun m hm ↦ ?_
    · rw [hown, List.append_assoc, List.append_assoc, List.nodup_append] at hnodup
      exact (List.nodup_append.mp hnodup.2.1).1
    · rw [h.kernelEnd]
      exact h.range m ((h.pages m).mpr (.inl (List.mem_append_left _ (hmem m hm))))
  refine ⟨hwf, hmapped, hrest, hperm.nodup_iff.mp h.nodup, fun m hm ↦ ?_, hpages, h.range, fun m hm ↦ ?_,
    hunmaps.kernelEnd.trans h.kernelEnd⟩
  · rw [hunmaps.tables]
    exact h.data m (hsub m hm)
  · have hnot := mt (h.pages m).mpr hm
    rw [not_or] at hnot
    rw [hunmaps.page m hnot.2 fun hfreed ↦ hnot.1 (List.mem_append_left _ (hmem m hfreed))]
    exact h.outside m hm

/-- A page that is not mapped changes. -/
theorem sameView_of_ne (hm : m ∈ extra ++ s.free) (hpage : ∀ k, k ≠ m → s'.page k = s.page k) :
    SameView s s' pt n := by
  have htable : ¬ IsTable s.page pt m := by
    rcases List.mem_append.mp hm with hm | hm
    · exact h.data m (List.mem_append_right _ hm)
    · exact h.wf.fresh m hm
  have hnodup := h.nodup
  rw [List.append_assoc, List.nodup_append] at hnodup
  refine sameView_of_le le_rfl (fun vpn _ ↦ lookup_congr fun k hk ↦ hpage k ?_) fun k hk ↦ hpage k ?_
  · rintro rfl
    exact htable hk
  · rintro rfl
    exact hnodup.2.2 k hk k hm rfl

end

/-! ## Pages that are not mapped -/

/-- `kalloc` takes a page, or fails. -/
theorem wp_kalloc {Q : Option ℕ → Phys → Prop} (h : Space kernel pool s pt n [])
    (hnone : ∀ s', Space kernel pool s' pt n [] → SameView s s' pt n → Q none s')
    (hsome : ∀ m s', Space kernel pool s' pt n [m] → SameView s s' pt n → Q (some (m * PGSIZE)) s') :
    wp kalloc Q E s := by
  refine Vm.wp_kalloc (fun refuse ↦ ?_) fun refuse m free hfree ↦ ?_
  · exact hnone _ (h.touch rfl (fun _ _ ↦ rfl) (fun _ _ ↦ rfl) rfl) fun _ _ ↦ ⟨rfl, rfl⟩
  · have hmem : m ∈ s.free := hfree ▸ List.mem_cons_self
    refine hsome m _ (h.touch hfree.symm (fun k hk ↦ Function.update_of_ne ?_ _ _)
      (fun k hk ↦ Function.update_of_ne ?_ _ _) rfl)
      (h.sameView_of_ne hmem fun k hk ↦ Function.update_of_ne hk _ _)
    · rintro rfl
      exact h.wf.fresh k hmem hk
    · rintro rfl
      exact hk ((h.pages k).mpr (.inl (List.mem_append_right _ hmem)))

section

variable {Q : Unit → Phys → Prop} (h : Space kernel pool s pt n [m])

include h

theorem mem_pool : pool.pages m := (h.pages m).mpr (.inl (by simp))

/-- The contents of a page change. -/
theorem fill (contents : Buffer PGSIZE) :
    Space kernel pool { s with page := Function.update s.page m contents } pt n [m] := by
  refine h.touch rfl (fun k hk ↦ Function.update_of_ne ?_ _ _)
    (fun k hk ↦ Function.update_of_ne ?_ _ _) rfl
  · rintro rfl
    exact h.data k (by simp) hk
  · rintro rfl
    exact hk h.mem_pool

theorem wp_memset {c : UInt8} (hQ : ∀ s', Space kernel pool s' pt n [m] → SameView s s' pt n →
      s'.page m = .fill c → Q () s') :
    wp (memset (m * PGSIZE) c) Q E s := by
  rw [Vm.wp_memset, Nat.mul_div_cancel m (by decide)]
  refine hQ _ (h.fill _) (h.sameView_of_ne (by simp) fun k hk ↦ Function.update_of_ne hk _ _) ?_
  exact Function.update_self ..

theorem wp_memmovePage {pa : ℕ} (hQ : ∀ s', Space kernel pool s' pt n [m] → SameView s s' pt n →
      s'.page m = s.page (pa / PGSIZE) → Q () s') :
    wp (memmovePage (m * PGSIZE) pa) Q E s := by
  rw [Vm.wp_memmovePage, Nat.mul_div_cancel m (by decide)]
  refine hQ _ (h.fill _) (h.sameView_of_ne (by simp) fun k hk ↦ Function.update_of_ne hk _ _) ?_
  exact Function.update_self ..

/-- `kfree` gives a page back. -/
theorem wp_kfree (hQ : ∀ s', Space kernel pool s' pt n [] → SameView s s' pt n → Q () s') :
    wp (kfree (m * PGSIZE)) Q E s := by
  have hrange := h.range m h.mem_pool
  rw [← h.kernelEnd] at hrange
  refine Vm.wp_kfree hrange.1 hrange.2 (hQ _ ?_ ?_)
  · exact (h.fill (.fill 1)).touch rfl (fun _ _ ↦ rfl) (fun _ _ ↦ rfl) rfl
  · exact h.sameView_of_ne (by simp) fun k hk ↦ Function.update_of_ne hk _ _

end

end Space

end Xv6.Vm
