import Xv6.Vm.Unmap

/-!
# The Refinement of Maps by Page Tables

On a well-formed page table `walk` and `walkaddr` look up the map, `mappages` adds the bindings of a
range and `uvmunmap` removes them.  No other binding changes, and the page table stays well-formed.
-/

namespace Xv6.Vm

open Lib

variable {s : Phys} {pt va : ℕ} {E : Stop → Prop}

/-- The physical address of a page of user memory, or 0. -/
def translate (mem : Pages) (pt va : ℕ) : ℕ :=
  if va < MAXVA then
    match lookup mem pt (va / PGSIZE) with
    | none => 0
    | some (frame, flags) => if flags &&& PTE_U = 0 then 0 else frame * PGSIZE
  else 0

theorem walkaddr_spec (hpt : pt % PGSIZE = 0) :
    wp (walkaddr pt va) (fun r s' ↦ s' = s ∧ r = translate s.page pt va) E s := by
  rw [walkaddr, translate]
  by_cases hva : va < MAXVA
  · rw [if_neg (Nat.not_le_of_lt hva), if_pos hva, wp_bind]
    refine wp_post (walk_find hpt hva) ?_
    rintro _ s ⟨rfl, rfl⟩
    have hindex : va / PGSIZE % 512 < 512 := Nat.mod_lt _ (by decide)
    cases hn : follow s.page pt (path (va / PGSIZE)) with
    | none =>
      rw [lookup_of_follow_none hn]
      exact (wp_pure _).mpr ⟨rfl, rfl⟩
    | some n =>
      rw [lookup_of_follow hn, Option.map_some]
      dsimp only
      rw [wp_bind, wp_load_entry hindex]
      cases hbinding : binding (table s.page n (va / PGSIZE % 512)) with
      | none =>
        rw [if_pos (binding_eq_none.mp hbinding)]
        exact (wp_pure _).mpr ⟨rfl, rfl⟩
      | some b =>
        obtain ⟨frame, flags⟩ := b
        obtain ⟨hV, hpa, hflags⟩ := binding_eq_some hbinding
        rw [if_neg hV, hpa, and_flags (by decide), hflags]
        split
        · rename_i hU
          exact (wp_pure _).mpr ⟨rfl, (if_pos hU).symm⟩
        · rename_i hU
          exact (wp_pure _).mpr ⟨rfl, (if_neg hU).symm⟩
  · rw [if_pos (Nat.not_lt.mp hva), if_neg hva]
    exact (wp_pure _).mpr ⟨rfl, rfl⟩

/-- The entry at the address that `walk` returns. -/
def entryAt (mem : Pages) (pte : ℕ) : ℕ := (mem (pte / PGSIZE)).getLE 8 (pte % PGSIZE)

theorem entryAt_slot {mem : Pages} {n i : ℕ} (hi : i < 512) :
    entryAt mem (n * PGSIZE + 8 * i) = table mem n i := by
  rw [entryAt, slot_div n hi, slot_mod n hi, table]

/-- `walk` finds the entry that the map is read from. -/
theorem walk_lookup (hpt : pt % PGSIZE = 0) (hva : va < MAXVA) :
    wp (walk pt va false) (fun r s' ↦ s' = s ∧
      lookup s.page pt (va / PGSIZE) = r.bind fun pte ↦ binding (entryAt s.page pte)) E s := by
  refine wp_post (walk_find hpt hva) ?_
  rintro _ s ⟨rfl, rfl⟩
  refine ⟨rfl, ?_⟩
  cases hn : follow s.page pt (path (va / PGSIZE)) with
  | none => rw [lookup_of_follow_none hn, Option.map_none, Option.bind_none]
  | some n =>
    have hindex : va / PGSIZE % 512 < 512 := Nat.mod_lt _ (by decide)
    rw [lookup_of_follow hn, Option.map_some, Option.bind_some, entryAt_slot hindex]

/-- A page table refines a map from virtual pages to physical pages and flags. -/
theorem page_table_refines_map (s : Phys) (pt : ℕ) (h : WellFormed s pt) :
    (∀ va < MAXVA, ∃ r, walk pt va false s = .ok (r, s) ∧
      lookup s.page pt (va / PGSIZE) = r.bind fun pte ↦ binding (entryAt s.page pte)) ∧
    (∀ va < MAXVA, ∃ r s', walk pt va true s = .ok (r, s') ∧ WellFormed s' pt ∧
      (∀ vpn, lookup s'.page pt vpn = lookup s.page pt vpn) ∧
      ∀ pte, r = some pte → lookup s'.page pt (va / PGSIZE) = binding (entryAt s'.page pte)) ∧
    (∀ va, walkaddr pt va s = .ok (translate s.page pt va, s)) ∧
    (∀ va size pa perm, 0 < size → va + size ≤ MAXVA → pa < 2 ^ 64 → perm < 1024 →
      (∀ vpn, va / PGSIZE ≤ vpn → vpn ≤ (va + size - 1) / PGSIZE → lookup s.page pt vpn = none) →
      ∃ r s', mappages pt va size pa perm s = .ok (r, s') ∧ WellFormed s' pt ∧
        (r = true → ∀ vpn < 2 ^ 27, lookup s'.page pt vpn =
          if va / PGSIZE ≤ vpn ∧ vpn ≤ (va + size - 1) / PGSIZE then
            some ((pa + (vpn - va / PGSIZE) * PGSIZE) % 2 ^ 64 / PGSIZE, perm ||| PTE_V)
          else lookup s.page pt vpn) ∧
        (r = false → ∀ vpn < 2 ^ 27,
          (va / PGSIZE = (va + size - 1) / PGSIZE ∨
            ¬ (va / PGSIZE ≤ vpn ∧ vpn ≤ (va + size - 1) / PGSIZE)) →
          lookup s'.page pt vpn = lookup s.page pt vpn)) ∧
    (∀ va npages doFree, va % PGSIZE = 0 → va + npages * PGSIZE ≤ MAXVA →
      (∀ vpn, va / PGSIZE ≤ vpn → vpn < va / PGSIZE + npages → Removable s pt doFree vpn) →
      (doFree = true → (frames s.page pt (va / PGSIZE) npages).Nodup ∧
        ∀ n ∈ frames s.page pt (va / PGSIZE) npages, n ∉ s.free) →
      ∃ s', uvmunmap pt va npages doFree s = .ok ((), s') ∧ WellFormed s' pt ∧
        ∀ vpn < 2 ^ 27, lookup s'.page pt vpn =
          if va / PGSIZE ≤ vpn ∧ vpn < va / PGSIZE + npages then none
          else lookup s.page pt vpn) := by
  have hindex (va : ℕ) : va / PGSIZE % 512 < 512 := Nat.mod_lt _ (by decide)
  refine ⟨fun va hva ↦ ?_, fun va hva ↦ ?_, fun va ↦ ?_, fun va size pa perm hsize hmax hpa hperm
    hunmapped ↦ ?_, fun va npages doFree hva hmax hremovable hfree ↦ ?_⟩
  · obtain ⟨r, s', hwalk, rfl, hlookup⟩ := ok_of_wp (walk_lookup h.tree.aligned hva)
    exact ⟨r, hwalk, hlookup⟩
  · obtain ⟨r, s', hwalk, hwalked⟩ := ok_of_wp (walk_alloc h hva)
    refine ⟨r, s', hwalk, hwalked.wellFormed, hwalked.lookup, fun pte hr ↦ ?_⟩
    obtain ⟨n, hn, rfl⟩ := hwalked.found pte hr
    rw [lookup_of_follow hn, entryAt_slot (hindex va)]
  · obtain ⟨r, s', hwalkaddr, rfl, rfl⟩ := ok_of_wp (walkaddr_spec h.tree.aligned)
    exact hwalkaddr
  · obtain ⟨r, s', hmappages, count, hmaps, hcount⟩ :=
      ok_of_wp (mappages_spec h hpa hperm hsize hmax hunmapped)
    refine ⟨r, s', hmappages, hmaps.wellFormed, ?_, ?_⟩
    · rintro rfl vpn hvpn
      have hstop : va / PGSIZE + count = (va + size - 1) / PGSIZE + 1 := hcount
      rw [hmaps.lookup vpn hvpn, hstop]
      simp only [Nat.lt_succ_iff]
    · rintro rfl vpn hvpn hout
      have hstop : va / PGSIZE + count ≤ (va + size - 1) / PGSIZE := hcount
      rw [hmaps.lookup vpn hvpn, if_neg (by omega)]
  · obtain ⟨⟨⟩, s', huvmunmap, hunmaps⟩ := ok_of_wp (uvmunmap_spec h.tree hva hmax hremovable)
    refine ⟨s', huvmunmap, ?_, hunmaps.lookup⟩
    cases doFree with
    | false => exact hunmaps.wellFormed h .nil (by simp [freedPages]) (by simp [freedPages])
    | true =>
      obtain ⟨hnodup, hnot⟩ := hfree rfl
      refine hunmaps.wellFormed h hnodup (fun n hn ↦ ⟨hnot n hn, ?_⟩) fun n hn ↦ ?_
      · exact (Removable.of_mem_frames hremovable hn).1
      · exact (Removable.of_mem_frames hremovable hn).2

/-- Memory with an empty page table at page `0x80400` and two free pages. -/
def emptyTable : Phys := ⟨fun _ ↦ .fill 0, [0x80401, 0x80402], [], KERNBASE⟩

theorem wellFormed_emptyTable : WellFormed emptyTable (0x80400 * PGSIZE) := by
  have hempty : ∀ i, table emptyTable.page 0x80400 i = 0 := fun i ↦ Buffer.getLE_fill_zero _ _
  refine ⟨isTree_empty hempty, ⟨by decide, by decide⟩, fun n hn ↦ ?_⟩
  rw [isTable_empty hempty]
  rintro rfl
  exact absurd hn (by decide)

/-- Two pages are mapped in an empty page table, or there is no memory. -/
theorem page_table_refines_map_empty :
    ∃ r s', mappages (0x80400 * PGSIZE) 0 (2 * PGSIZE) KERNBASE PTE_R emptyTable = .ok (r, s') ∧
      WellFormed s' (0x80400 * PGSIZE) ∧
      (r = true → lookup s'.page (0x80400 * PGSIZE) 1 = some (KERNBASE / PGSIZE + 1, 3)) := by
  obtain ⟨-, -, -, hmappages, -⟩ := page_table_refines_map _ _ wellFormed_emptyTable
  have hempty : ∀ i, table emptyTable.page 0x80400 i = 0 := fun i ↦ Buffer.getLE_fill_zero _ _
  obtain ⟨r, s', hok, hwf, hmapped, -⟩ := hmappages 0 (2 * PGSIZE) KERNBASE PTE_R (by decide)
    (by decide) (by decide) (by decide) fun vpn _ _ ↦ lookup_empty hempty
  refine ⟨r, s', hok, hwf, fun hr ↦ ?_⟩
  rw [hmapped hr 1 (by decide), if_pos (by decide)]
  rfl

end Xv6.Vm
