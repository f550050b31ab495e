import Xv6.Vm.Map

/-!
# Removing Bindings

`uvmunmap` removes the bindings of a range of pages, and gives their physical pages back to the free
list if it is told to.
-/

namespace Xv6.Vm

open Lib

variable {s s' s'' : Phys} {pt vpn first count : ℕ} {E : Stop → Prop}

theorem binding_eq_some {entry frame flags : ℕ} (h : binding entry = some (frame, flags)) :
    entry &&& PTE_V ≠ 0 ∧ pte2pa entry = frame * PGSIZE ∧ pteFlags entry = flags := by
  have hV : entry &&& PTE_V ≠ 0 := fun hV ↦ by
    rw [binding_eq_none.mpr hV] at h
    cases h
  rw [binding, child, if_neg hV, Option.map_some, Option.some.injEq, Prod.mk.injEq] at h
  exact ⟨hV, by rw [← h.1, pte2pa_page], h.2⟩

/-- The physical pages of a range of virtual pages. -/
def frames (mem : Pages) (pt first count : ℕ) : List ℕ :=
  (List.range' first count).filterMap fun vpn ↦ (lookup mem pt vpn).map Prod.fst

theorem mem_frames {mem : Pages} {n : ℕ} : n ∈ frames mem pt first count ↔
    ∃ vpn flags, first ≤ vpn ∧ vpn < first + count ∧ lookup mem pt vpn = some (n, flags) := by
  simp [frames, List.mem_range'_1, and_assoc]

theorem frames_succ {mem : Pages} {frame flags : ℕ} (h : lookup mem pt first = some (frame, flags)) :
    frames mem pt first (count + 1) = frame :: frames mem pt (first + 1) count := by
  rw [frames, List.range'_succ, List.filterMap_cons_some (by rw [h]; rfl), frames]

theorem frames_cons {mem : Pages} :
    frames mem pt first (count + 1) = frames mem pt first 1 ++ frames mem pt (first + 1) count := by
  rw [frames, frames, frames, ← List.filterMap_append, List.range'_append_1, Nat.add_comm]

theorem frames_congr {mem mem' : Pages}
    (h : ∀ vpn, first ≤ vpn → vpn < first + count → lookup mem' pt vpn = lookup mem pt vpn) :
    frames mem' pt first count = frames mem pt first count := by
  refine List.filterMap_congr fun vpn hvpn ↦ ?_
  rw [List.mem_range'_1] at hvpn
  rw [h vpn hvpn.1 hvpn.2]

/-- The map after a range of pages was removed, and the physical pages `freed` were freed. -/
structure Unmaps (s : Phys) (pt first count : ℕ) (freed : List ℕ) (s' : Phys) : Prop where
  tree : IsTree s'.page pt
  tables : ∀ n, IsTable s'.page pt n ↔ IsTable s.page pt n
  lookup : ∀ vpn < 2 ^ 27, lookup s'.page pt vpn =
    if first ≤ vpn ∧ vpn < first + count then none else lookup s.page pt vpn
  free : s'.free = freed.reverse ++ s.free
  page : ∀ n, ¬ IsTable s.page pt n → n ∉ freed → s'.page n = s.page n
  kernelEnd : s'.kernelEnd = s.kernelEnd

namespace Unmaps

variable {freed freed' : List ℕ}

/-- Nothing is removed. -/
theorem none (h : IsTree s.page pt) : Unmaps s pt first 0 [] s := by
  refine ⟨h, fun _ ↦ Iff.rfl, fun vpn _ ↦ ?_, rfl, fun _ _ _ ↦ rfl, rfl⟩
  rw [if_neg (by omega)]

/-- The range after its first page. -/
theorem cons (h : Unmaps s pt first 1 freed s') (h' : Unmaps s' pt (first + 1) count freed' s'') :
    Unmaps s pt first (count + 1) (freed ++ freed') s'' := by
  refine ⟨h'.tree, fun n ↦ (h'.tables n).trans (h.tables n), fun vpn hvpn ↦ ?_, ?_, fun n hn hfreed ↦ ?_,
    h'.kernelEnd.trans h.kernelEnd⟩
  · rw [h'.lookup vpn hvpn, h.lookup vpn hvpn]
    split_ifs <;> first | rfl | omega
  · rw [h'.free, h.free, List.reverse_append, List.append_assoc]
  · rw [List.mem_append, not_or] at hfreed
    rw [h'.page n (mt (h.tables n).mp hn) hfreed.2, h.page n hn hfreed.1]

/-- The pages that were freed are not part of the tree. -/
theorem wellFormed (h : Unmaps s pt first count freed s') (hwf : WellFormed s pt)
    (hnodup : freed.Nodup) (hfresh : ∀ n ∈ freed, n ∉ s.free ∧ ¬ IsTable s.page pt n)
    (hrange : ∀ n ∈ freed, s.kernelEnd ≤ n * PGSIZE ∧ n * PGSIZE < PHYSTOP) :
    WellFormed s' pt := by
  refine ⟨h.tree, ⟨?_, fun n hn ↦ ?_⟩, fun n hn htable ↦ ?_⟩
  · rw [h.free, List.nodup_append]
    refine ⟨(List.reverse_perm freed).nodup_iff.mpr hnodup, hwf.free.nodup, ?_⟩
    rintro n hn _ hn' rfl
    exact (hfresh n (List.mem_reverse.mp hn)).1 hn'
  · rw [h.free, List.mem_append, List.mem_reverse] at hn
    rw [h.kernelEnd]
    rcases hn with hn | hn
    · exact hrange n hn
    · exact hwf.free.range n hn
  · rw [h.free, List.mem_append, List.mem_reverse] at hn
    rw [h.tables] at htable
    rcases hn with hn | hn
    · exact (hfresh n hn).2 htable
    · exact hwf.fresh n hn htable

end Unmaps

/-- A page that `uvmunmap` may remove: it is mapped by a leaf, and a physical page that is freed
belongs to the allocator and is not part of the page table. -/
def Removable (s : Phys) (pt : ℕ) (doFree : Bool) (vpn : ℕ) : Prop :=
  ∃ frame flags, lookup s.page pt vpn = some (frame, flags) ∧ flags ≠ PTE_V ∧
    (doFree = true → ¬ IsTable s.page pt frame ∧ s.kernelEnd ≤ frame * PGSIZE ∧
      frame * PGSIZE < PHYSTOP)

/-- Physical pages that are freed belong to the allocator and are not part of the page table. -/
theorem Removable.of_mem_frames {n : ℕ}
    (h : ∀ vpn, first ≤ vpn → vpn < first + count → Removable s pt true vpn)
    (hn : n ∈ frames s.page pt first count) :
    ¬ IsTable s.page pt n ∧ s.kernelEnd ≤ n * PGSIZE ∧ n * PGSIZE < PHYSTOP := by
  obtain ⟨vpn, flags, hlow, hhigh, hlookup⟩ := mem_frames.mp hn
  obtain ⟨frame, flags', hlookup', -, hfree⟩ := h vpn hlow hhigh
  rw [hlookup, Option.some.injEq, Prod.mk.injEq] at hlookup'
  rw [hlookup'.1]
  exact hfree rfl

/-- What is freed. -/
def freedPages (doFree : Bool) (frames : List ℕ) : List ℕ := if doFree then frames else []

theorem freedPages_append (doFree : Bool) (l l' : List ℕ) :
    freedPages doFree l ++ freedPages doFree l' = freedPages doFree (l ++ l') := by
  cases doFree with
  | false => rfl
  | true => rfl

section Loop

variable {last fuel : ℕ} {doFree : Bool} {freed : List ℕ} {Q : Unit → Phys → Prop}

/-- The entry of a page is cleared after its physical page was freed. -/
theorem Unmaps.clear {n : ℕ} (htree : IsTree s.page pt) (hfirst : first < 2 ^ 27)
    (hn : follow s.page pt (path first) = some n)
    (htables : ∀ m, IsTable s.page pt m → s'.page m = s.page m) (hfree : s'.free = freed.reverse ++ s.free)
    (hpage : ∀ m, m ∉ freed → s'.page m = s.page m) (hend : s'.kernelEnd = s.kernelEnd) :
    Unmaps s pt first 1 freed { s' with
      page := Function.update s'.page n ((s'.page n).setLE 8 (8 * (first % 512)) 0) } := by
  have hn' : follow s'.page pt (path first) = some n := by
    rw [follow_congr htables ((length_path first).le.trans (by decide))]
    exact hn
  obtain ⟨htree', htables', hlookup⟩ :=
    set_entry (htree.congr htables) hn' (by decide : 0 < 2 ^ 64)
  refine ⟨htree', fun m ↦ (htables' m).trans (isTable_congr htables), fun vpn hvpn ↦ ?_, hfree,
    fun m hm hfreed ↦ ?_, hend⟩
  · have hiff : first ≤ vpn ∧ vpn < first + 1 ↔ vpn = first := by omega
    rw [hlookup vpn hfirst hvpn, lookup_congr htables]
    simp only [hiff]
    rfl
  · have hmn : m ≠ n := by
      rintro rfl
      exact hm ⟨path first, (length_path first).le, hn⟩
    show Function.update s'.page n _ m = s.page m
    rw [Function.update_of_ne hmn, hpage m hfreed]

/-- One round of `uvmunmap`. -/
theorem uvmunmapLoop_page (htree : IsTree s.page pt) (hmax : first * PGSIZE < MAXVA)
    (hlast : first * PGSIZE < last) (hremovable : Removable s pt doFree first)
    (hnext : ∀ s', Unmaps s pt first 1 (freedPages doFree (frames s.page pt first 1)) s' →
      wp (uvmunmapLoop pt last doFree fuel ((first + 1) * PGSIZE)) Q E s') :
    wp (uvmunmapLoop pt last doFree (fuel + 1) (first * PGSIZE)) Q E s := by
  obtain ⟨frame, flags, hlookup, hleaf, hfree⟩ := hremovable
  have hfirst : first < 2 ^ 27 := by
    simp only [PGSIZE, MAXVA] at hmax
    omega
  have hindex : first % 512 < 512 := Nat.mod_lt _ (by decide)
  have hframes : frames s.page pt first 1 = [frame] := frames_succ hlookup
  rw [uvmunmapLoop, if_pos hlast, wp_bind]
  refine wp_post (walk_find htree.aligned hmax) ?_
  rintro _ s ⟨rfl, rfl⟩
  rw [Nat.mul_div_cancel first (by decide)]
  cases hn : follow s.page pt (path first) with
  | none =>
    rw [lookup_of_follow_none hn] at hlookup
    cases hlookup
  | some n =>
    rw [lookup_of_follow hn] at hlookup
    obtain ⟨hV, hpa, hflags⟩ := binding_eq_some hlookup
    rw [Option.map_some]
    dsimp only
    rw [wp_bind, wp_load_entry hindex, if_neg hV, if_neg (hflags ▸ hleaf), hpa, next_page hfirst]
    cases doFree with
    | false =>
      refine wp_bind.mpr ((wp_store_entry hindex).mpr (hnext _ ?_))
      exact .clear htree hfirst hn (fun _ _ ↦ rfl) rfl (fun _ _ ↦ rfl) rfl
    | true =>
      obtain ⟨htable, hlow, hhigh⟩ := hfree rfl
      refine wp_bind.mpr (wp_kfree hlow hhigh ?_)
      refine wp_bind.mpr ((wp_store_entry hindex).mpr (hnext _ ?_))
      rw [hframes]
      refine .clear htree hfirst hn (fun m hm ↦ ?_) rfl (fun m hm ↦ ?_) rfl
      · apply Function.update_of_ne
        rintro rfl
        exact htable hm
      · apply Function.update_of_ne
        rintro rfl
        exact hm List.mem_cons_self

theorem Removable.after (h : Removable s pt doFree vpn) (hvpn : vpn < 2 ^ 27)
    (hunmaps : Unmaps s pt first count freed s') (hout : ¬ (first ≤ vpn ∧ vpn < first + count)) :
    Removable s' pt doFree vpn := by
  obtain ⟨frame, flags, hlookup, hleaf, hfree⟩ := h
  refine ⟨frame, flags, ?_, hleaf, fun hdo ↦ ?_⟩
  · rw [hunmaps.lookup vpn hvpn, if_neg hout, hlookup]
  · rw [hunmaps.tables, hunmaps.kernelEnd]
    exact hfree hdo

theorem uvmunmapLoop_spec (htree : IsTree s.page pt) (hlast : last = (first + count) * PGSIZE)
    (hmax : last ≤ MAXVA)
    (hremovable : ∀ vpn, first ≤ vpn → vpn < first + count → Removable s pt doFree vpn)
    (hfuel : count < fuel) :
    wp (uvmunmapLoop pt last doFree fuel (first * PGSIZE)) (fun _ s' ↦
      Unmaps s pt first count (freedPages doFree (frames s.page pt first count)) s') E s := by
  obtain ⟨fuel, rfl⟩ := Nat.exists_eq_add_one_of_ne_zero (Nat.ne_zero_of_lt hfuel)
  induction count generalizing first fuel s with
  | zero =>
    rw [Nat.add_zero] at hlast
    rw [uvmunmapLoop, if_neg (hlast ▸ lt_irrefl _)]
    refine (wp_pure _).mpr ?_
    cases doFree with
    | false => exact .none htree
    | true => exact .none htree
  | succ count ih =>
    have hfirst : first * PGSIZE < last := by
      rw [hlast]
      simp only [PGSIZE]
      omega
    have hlast' : last = (first + 1 + count) * PGSIZE := by
      rw [hlast, Nat.add_assoc, Nat.add_comm 1 count]
    have hsmall : first + 1 + count ≤ 2 ^ 26 := by
      simp only [PGSIZE, MAXVA] at hlast' hmax
      omega
    refine uvmunmapLoop_page htree (hfirst.trans_le hmax) hfirst
      (hremovable first le_rfl (by omega)) fun s' hunmaps ↦ ?_
    obtain ⟨fuel, rfl⟩ := Nat.exists_eq_add_one_of_ne_zero (by omega : fuel ≠ 0)
    refine wp_post (ih hunmaps.tree hlast' (fun vpn hlow hhigh ↦ ?_) fuel (by omega)) ?_
    · exact (hremovable vpn (by omega) (by omega)).after (by omega) hunmaps (by omega)
    · intro _ s'' hrest
      have hframes : frames s'.page pt (first + 1) count = frames s.page pt (first + 1) count :=
        frames_congr fun vpn hlow hhigh ↦ by
          rw [hunmaps.lookup vpn (by omega), if_neg (by omega)]
      rw [hframes] at hrest
      rw [frames_cons, ← freedPages_append]
      exact hunmaps.cons hrest

/-- `uvmunmap` removes the pages of its range. -/
theorem uvmunmap_spec {va npages : ℕ} (htree : IsTree s.page pt) (hva : va % PGSIZE = 0)
    (hmax : va + npages * PGSIZE ≤ MAXVA)
    (hremovable : ∀ vpn, va / PGSIZE ≤ vpn → vpn < va / PGSIZE + npages → Removable s pt doFree vpn) :
    wp (uvmunmap pt va npages doFree) (fun _ s' ↦ Unmaps s pt (va / PGSIZE) npages
      (freedPages doFree (frames s.page pt (va / PGSIZE) npages)) s') E s := by
  obtain ⟨first, rfl⟩ : ∃ first, va = first * PGSIZE :=
    ⟨va / PGSIZE, (Nat.div_mul_cancel (Nat.dvd_of_mod_eq_zero hva)).symm⟩
  rw [Nat.mul_div_cancel first (by decide)] at hremovable ⊢
  have hlast : (first * PGSIZE + npages * PGSIZE) % 2 ^ 64 = (first + npages) * PGSIZE := by
    rw [Nat.add_mul]
    exact Nat.mod_eq_of_lt (lt_of_le_of_lt hmax (by decide))
  have hfuel : npages < MAXVA / PGSIZE + 1 := by
    simp only [PGSIZE, MAXVA] at hmax ⊢
    omega
  rw [uvmunmap, if_neg (not_not.mpr hva)]
  refine uvmunmapLoop_spec htree hlast ?_ hremovable hfuel
  rw [hlast, Nat.add_mul]
  exact hmax

end Loop

end Xv6.Vm
