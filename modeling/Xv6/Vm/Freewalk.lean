import Xv6.Vm.Unmap

/-!
# Freeing Page Tables

`freewalk` frees the pages of a page table from which all bindings were removed.
-/

namespace Xv6.Vm

open Lib

variable {s s' : Phys} {mem mem' : Pages} {d a : ℕ} {E : Stop → Prop}

/-- The tables of a tree of `d + 1` levels. -/
def Below (mem : Pages) (d a n : ℕ) : Prop := Radix.IsTable child (table mem) d a n

/-- A tree of `d + 1` levels without bindings. -/
structure Bare (mem : Pages) (d a : ℕ) : Prop where
  distinct : Radix.Distinct child (table mem) d a
  inner : ∀ p i n, p.length < d → Radix.follow child (table mem) a p = some n →
    table mem n i &&& PTE_V ≠ 0 → table mem n i &&& (PTE_R ||| PTE_W ||| PTE_X) = 0
  leaf : ∀ p i n, p.length = d → Radix.follow child (table mem) a p = some n →
    table mem n i &&& PTE_V = 0

/-- Pages have been given back to the free list. -/
structure Frees (s : Phys) (pages : ℕ → Prop) (s' : Phys) : Prop where
  free : ∃ freed, s'.free = freed ++ s.free ∧ freed.Nodup ∧ ∀ n, n ∈ freed ↔ pages n
  page : ∀ n, ¬ pages n → s'.page n = s.page n
  kernelEnd : s'.kernelEnd = s.kernelEnd

theorem table_of_le {n i : ℕ} (hi : 512 ≤ i) : table mem n i = 0 := by
  have hbytes : (mem n).getBytes (8 * i) 8 = List.replicate 8 0 := by
    rw [Buffer.getBytes, List.eq_replicate_iff]
    refine ⟨by simp, fun byte hbyte ↦ ?_⟩
    obtain ⟨j, -, rfl⟩ := List.mem_map.mp hbyte
    rw [Buffer.get, dif_neg]
    simp only [PGSIZE]
    omega
  rw [table, Buffer.getLE, hbytes, leValue_replicate_zero]

/-- The subtree of a valid entry. -/
theorem Bare.subtree {i c : ℕ} (h : Bare mem (d + 1) a) (hc : child (table mem a i) = some c) :
    Bare mem d c where
  distinct := h.distinct.subtree hc
  inner p j n hp hn := h.inner (i :: p) j n (Nat.succ_lt_succ hp) (by rw [Radix.follow_cons hc, hn])
  leaf p j n hp hn := h.leaf (i :: p) j n (congrArg (· + 1) hp) (by rw [Radix.follow_cons hc, hn])

theorem follow_below (h : ∀ n, Below mem d a n → mem' n = mem n) {p : List ℕ}
    (hp : p.length ≤ d + 1) :
    Radix.follow child (table mem') a p = Radix.follow child (table mem) a p := by
  apply Radix.follow_congr
  intro q hq n hn
  funext i
  rw [table, table, h n ⟨q, by omega, hn⟩]

theorem below_congr (h : ∀ n, Below mem d a n → mem' n = mem n) {n : ℕ} :
    Below mem' d a n ↔ Below mem d a n :=
  Radix.IsTable.congr fun _ hp ↦ follow_below h (hp.trans (Nat.le_succ d))

theorem Bare.congr (hbare : Bare mem d a) (h : ∀ n, Below mem d a n → mem' n = mem n) :
    Bare mem' d a where
  distinct := hbare.distinct.congr fun _ hp ↦ follow_below h (hp.trans (Nat.le_succ d))
  inner p i n hp hn := by
    rw [follow_below h (by omega)] at hn
    rw [table, h n ⟨p, hp.le, hn⟩]
    exact hbare.inner p i n hp hn
  leaf p i n hp hn := by
    rw [follow_below h (by omega)] at hn
    rw [table, h n ⟨p, hp.le, hn⟩]
    exact hbare.leaf p i n hp hn

/-- A table of a subtree of the entries `done`. -/
def BelowDone (mem : Pages) (d a : ℕ) (done : List ℕ) (n : ℕ) : Prop :=
  ∃ i ∈ done, ∃ c, child (table mem a i) = some c ∧ Below mem d c n

/-- The subtrees of the entries `done` have been freed. -/
structure Freeing (s : Phys) (d a : ℕ) (done : List ℕ) (s' : Phys) : Prop where
  free : ∃ freed, s'.free = freed ++ s.free ∧ freed.Nodup ∧
    ∀ n, n ∈ freed ↔ BelowDone s.page d a done n
  page : ∀ n, n ≠ a → ¬ BelowDone s.page d a done n → s'.page n = s.page n
  entries : ∀ i, i ∉ done → table s'.page a i = table s.page a i
  kernelEnd : s'.kernelEnd = s.kernelEnd

section Entry

variable {done : List ℕ} {i c n : ℕ}

theorem belowDone_snoc : BelowDone mem d a (done ++ [i]) n ↔
    BelowDone mem d a done n ∨ ∃ c, child (table mem a i) = some c ∧ Below mem d c n := by
  simp [BelowDone, or_and_right, exists_or]

/-- An entry that is not valid. -/
theorem Freeing.skip (h : Freeing s d a done s') (hi : child (table s.page a i) = none) :
    Freeing s d a (done ++ [i]) s' := by
  have hiff (n : ℕ) : BelowDone s.page d a (done ++ [i]) n ↔ BelowDone s.page d a done n := by
    rw [belowDone_snoc, hi]
    simp
  obtain ⟨freed, hfree, hnodup, hfreed⟩ := h.free
  refine ⟨⟨freed, hfree, hnodup, fun n ↦ (hfreed n).trans (hiff n).symm⟩, fun n hn hnot ↦ ?_,
    fun j hj ↦ ?_, h.kernelEnd⟩
  · exact h.page n hn (mt (hiff n).mpr hnot)
  · exact h.entries j fun hmem ↦ hj (List.mem_append_left _ hmem)

variable (hbare : Bare s.page (d + 1) a) (hi : i ∉ done) (hc : child (table s.page a i) = some c)

include hbare hi hc

/-- The subtree of the next entry is still there. -/
theorem Freeing.subtree (h : Freeing s d a done s') (hn : Below s.page d c n) :
    s'.page n = s.page n := by
  apply h.page
  · rintro rfl
    exact hbare.distinct.root_notin hc hn
  · rintro ⟨j, hj, c', hc', hn'⟩
    exact hi (hbare.distinct.apart hc hc' hn hn' ▸ hj)

/-- The subtree of a valid entry is freed, and the entry is cleared. -/
theorem Freeing.clear {s'' : Phys} (h : Freeing s d a done s') (hlt : i < 512)
    (hfrees : Frees s' (Below s.page d c) s'') :
    Freeing s d a (done ++ [i]) { s'' with
      page := Function.update s''.page a ((s''.page a).setLE 8 (8 * i) 0) } := by
  obtain ⟨freed, hfree, hnodup, hfreed⟩ := h.free
  obtain ⟨freed', hfree', hnodup', hfreed'⟩ := hfrees.free
  have hroot : ¬ Below s.page d c a := hbare.distinct.root_notin hc
  have hiff (n : ℕ) : BelowDone s.page d a (done ++ [i]) n ↔
      BelowDone s.page d a done n ∨ Below s.page d c n := by
    rw [belowDone_snoc, hc]
    simp
  refine ⟨⟨freed' ++ freed, ?_, ?_, fun n ↦ ?_⟩, fun n hn hnot ↦ ?_, fun j hj ↦ ?_,
    hfrees.kernelEnd.trans h.kernelEnd⟩
  · rw [List.append_assoc, ← hfree, ← hfree']
  · refine List.nodup_append.mpr ⟨hnodup', hnodup, ?_⟩
    rintro n hn _ hn' rfl
    obtain ⟨j, hj, c', hc', hbelow⟩ := (hfreed n).mp hn'
    exact hi (hbare.distinct.apart hc hc' ((hfreed' n).mp hn) hbelow ▸ hj)
  · rw [List.mem_append, hfreed, hfreed', hiff, or_comm]
  · rw [hiff, not_or] at hnot
    show Function.update s''.page a _ n = s.page n
    rw [Function.update_of_ne hn, hfrees.page n hnot.2, h.page n hn hnot.1]
  · rw [List.mem_append, List.mem_singleton, not_or] at hj
    show table (Function.update s''.page a _) a j = table s.page a j
    rw [table_setLE hlt (by decide), Radix.store_entry_of_ne hj.2, table, hfrees.page a hroot,
      ← table, h.entries j hj.1]

end Entry

theorem Freeing.start (s : Phys) (d a : ℕ) : Freeing s d a [] s :=
  ⟨⟨[], rfl, .nil, by simp [BelowDone]⟩, fun _ _ _ ↦ rfl, fun _ _ ↦ rfl, rfl⟩

theorem Bare.child_eq_none (h : Bare mem 0 a) (i : ℕ) : child (table mem a i) = none :=
  if_pos (h.leaf [] i a rfl rfl)

/-- `freewalk` behind its loop. -/
theorem Freeing.kfree {d' : ℕ} {entries : List ℕ} (h : Freeing s d a entries s')
    (hroot : ¬ BelowDone s.page d a entries a)
    (hiff : ∀ n, Below s.page d' a n ↔ n = a ∨ BelowDone s.page d a entries n)
    (hlow : s.kernelEnd ≤ a * PGSIZE) (hhigh : a * PGSIZE < PHYSTOP) :
    wp (Vm.kfree (a * PGSIZE)) (fun _ s'' ↦ Frees s (Below s.page d' a) s'') E s' := by
  obtain ⟨freed, hfree, hnodup, hfreed⟩ := h.free
  refine wp_kfree (h.kernelEnd ▸ hlow) hhigh ⟨⟨a :: freed, ?_, ?_, fun n ↦ ?_⟩, fun n hn ↦ ?_,
    h.kernelEnd⟩
  · rw [List.cons_append, ← hfree]
  · exact List.nodup_cons.mpr ⟨fun ha ↦ hroot ((hfreed a).mp ha), hnodup⟩
  · rw [List.mem_cons, hfreed, hiff]
  · rw [hiff, not_or] at hn
    show Function.update s'.page a _ n = s.page n
    rw [Function.update_of_ne hn.1, h.page n hn.1 hn.2]

theorem mem_allIndices {i : ℕ} : i ∈ allIndices ↔ i < 512 := by
  unfold allIndices
  exact List.mem_range

theorem nodup_allIndices : allIndices.Nodup := by
  unfold allIndices
  exact List.nodup_range

theorem allIndices_split {i : ℕ} {done rest : List ℕ} (h : allIndices = done ++ i :: rest) :
    i < 512 ∧ i ∉ done := by
  have hnodup := nodup_allIndices
  have hi : i ∈ allIndices := by simp [h]
  rw [h, List.nodup_append] at hnodup
  exact ⟨mem_allIndices.mp hi, fun hmem ↦ hnodup.2.2 i hmem i List.mem_cons_self rfl⟩

/-- `freewalk` frees the tables of a tree without bindings. -/
theorem freewalk_spec (hbare : Bare s.page d a)
    (hrange : ∀ n, Below s.page d a n → s.kernelEnd ≤ n * PGSIZE ∧ n * PGSIZE < PHYSTOP) :
    wp (freewalk (d + 1) (a * PGSIZE)) (fun _ s' ↦ Frees s (Below s.page d a) s') E s := by
  have hroot := hrange a Radix.isTable_root
  induction d generalizing a s with
  | zero =>
    rw [freewalk, wp_bind]
    have hnot (n : ℕ) : ¬ BelowDone s.page 0 a allIndices n := by
      rintro ⟨i, -, c, hc, -⟩
      rw [hbare.child_eq_none i] at hc
      cases hc
    refine wp_post (wp_forM (Freeing s 0 a) (.start s 0 a) fun done i rest s' heq hfreeing ↦ ?_)
      fun _ s' hfreeing ↦ ?_
    · obtain ⟨hlt, hi⟩ := allIndices_split heq
      have hV : table s'.page a i &&& PTE_V = 0 := by
        rw [hfreeing.entries i hi]
        exact hbare.leaf [] i a rfl rfl
      rw [wp_bind, wp_load_entry hlt, if_neg (fun h ↦ h.1 hV), if_neg (not_not.mpr hV)]
      exact (wp_pure _).mpr (hfreeing.skip (hbare.child_eq_none i))
    · refine hfreeing.kfree (hnot a) (fun n ↦ ?_) hroot.1 hroot.2
      rw [or_iff_left (hnot n)]
      exact Radix.isTable_zero
  | succ d ih =>
    rw [freewalk, wp_bind]
    have hiff (n : ℕ) : Below s.page (d + 1) a n ↔ n = a ∨ BelowDone s.page d a allIndices n := by
      refine Radix.isTable_succ.trans (or_congr Iff.rfl ?_)
      constructor
      · rintro ⟨i, c, hc, hn⟩
        refine ⟨i, ?_, c, hc, hn⟩
        rw [mem_allIndices]
        by_contra hi
        rw [table_of_le (Nat.not_lt.mp hi)] at hc
        cases hc
      · rintro ⟨i, -, c, hc, hn⟩
        exact ⟨i, c, hc, hn⟩
    refine wp_post (wp_forM (Freeing s d a) (.start s d a) fun done i rest s' heq hfreeing ↦ ?_)
      fun _ s' hfreeing ↦ ?_
    · obtain ⟨hlt, hi⟩ := allIndices_split heq
      rw [wp_bind, wp_load_entry hlt, hfreeing.entries i hi]
      by_cases hV : table s.page a i &&& PTE_V = 0
      · rw [if_neg (fun h ↦ h.1 hV), if_neg (not_not.mpr hV)]
        exact (wp_pure _).mpr (hfreeing.skip (if_pos hV))
      · -- A valid entry above the last level is a pointer.
        have hinner := hbare.inner [] i a (Nat.succ_pos d) rfl hV
        have hc : child (table s.page a i) = some (pte2pa (table s.page a i) / PGSIZE) := if_neg hV
        have hkept (n : ℕ) := hfreeing.subtree hbare hi hc (n := n)
        have hbelow (n : ℕ) : Below s'.page d _ n ↔ Below s.page d _ n := below_congr hkept
        have hrange' (n : ℕ) (hn : Below s'.page d (pte2pa (table s.page a i) / PGSIZE) n) :
            s'.kernelEnd ≤ n * PGSIZE ∧ n * PGSIZE < PHYSTOP := by
          rw [hfreeing.kernelEnd]
          exact hrange n (Radix.isTable_succ.mpr (.inr ⟨i, _, hc, (hbelow n).mp hn⟩))
        have hroot' := hrange' (pte2pa (table s.page a i) / PGSIZE) Radix.isTable_root
        have hfree := ih ((hbare.subtree hc).congr hkept) hrange' hroot'
        rw [pte2pa_page] at hfree
        rw [if_pos ⟨hV, hinner⟩, wp_bind]
        refine wp_post hfree fun _ s'' hfrees ↦ ?_
        have hbelow' : Below s'.page d (pte2pa (table s.page a i) / PGSIZE) = Below s.page d _ :=
          funext fun n ↦ propext (hbelow n)
        rw [hbelow'] at hfrees
        exact (wp_store_entry hlt).mpr (hfreeing.clear hbare hi hc hlt hfrees)
    · refine hfreeing.kfree ?_ hiff hroot.1 hroot.2
      rintro ⟨i, -, c, hc, hn⟩
      exact hbare.distinct.root_notin hc hn

end Xv6.Vm
