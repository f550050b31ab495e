import Xv6.Lib.Radix
import Xv6.Vm.PageTable

/-!
# Page Tables as Maps

A page table is a finite map from virtual page numbers to physical pages and flags.  `walk` finds the
entry of a page, `mappages` adds bindings and `uvmunmap` removes them; table pages that are created
on the way change no binding.
-/

namespace Xv6.Vm

open Lib

/-- The pages of physical memory. -/
abbrev Pages := ℕ → Buffer PGSIZE

/-! ## Bits -/

theorem and_V (entry : ℕ) : entry &&& PTE_V = entry % 2 := Nat.and_one_is_mod entry

/-- Flags are in the low bits. -/
theorem and_flags {mask : ℕ} (hmask : 0x3FF &&& mask = mask) (entry : ℕ) :
    entry &&& mask = pteFlags entry &&& mask := by
  rw [pteFlags, Nat.and_assoc, hmask]

theorem pteFlags_eq (pte : ℕ) : pteFlags pte = pte % 1024 := Nat.and_two_pow_sub_one_eq_mod pte 10

theorem pte2pa_eq (pte : ℕ) : pte2pa pte = pte / 1024 * PGSIZE % 2 ^ 64 := by
  rw [pte2pa, Nat.shiftRight_eq_div_pow, Nat.shiftLeft_eq]

theorem px_eq (level va : ℕ) : px level va = va / PGSIZE / 512 ^ level % 512 := by
  rw [px, Nat.shiftRight_eq_div_pow, Nat.and_two_pow_sub_one_eq_mod _ 9, Nat.pow_add, Nat.pow_mul,
    Nat.div_div_eq_div_mul]

theorem px_lt (level va : ℕ) : px level va < 512 := by
  rw [px_eq]
  exact Nat.mod_lt _ (by decide)

theorem pa2pte_or {pa x : ℕ} (hx : x < 1024) : pa2pte pa ||| x = pa / PGSIZE * 1024 + x := by
  rw [pa2pte, ← Nat.shiftLeft_add_eq_or_of_lt hx, Nat.shiftRight_eq_div_pow, Nat.shiftLeft_eq]

section

variable {pa x : ℕ} (hpa : pa < 2 ^ 64) (hx : x < 1024)

include hx

theorem pteFlags_pa2pte : pteFlags (pa2pte pa ||| x) = x := by
  rw [pteFlags_eq, pa2pte_or hx]
  omega

include hpa

theorem pte2pa_pa2pte : pte2pa (pa2pte pa ||| x) = pa / PGSIZE * PGSIZE := by
  rw [pte2pa_eq, pa2pte_or hx]
  simp only [PGSIZE]
  omega

theorem pa2pte_or_lt : pa2pte pa ||| x < 2 ^ 64 := by
  rw [pa2pte_or hx]
  simp only [PGSIZE]
  omega

end

/-! ## The tree of tables -/

/-- The page that a valid entry points to. -/
def child (entry : ℕ) : Option ℕ :=
  if entry &&& PTE_V = 0 then none else some (pte2pa entry / PGSIZE)

/-- The entries of a page that is used as a table. -/
def table (mem : Pages) (n i : ℕ) : ℕ := (mem n).getLE 8 (8 * i)

/-- The indices of a virtual page into the tables of the upper levels. -/
def path (vpn : ℕ) : List ℕ := [vpn / 512 ^ 2 % 512, vpn / 512 % 512]

/-- The table that is found by a list of indices. -/
def follow (mem : Pages) (pt : ℕ) (p : List ℕ) : Option ℕ :=
  Radix.follow child (table mem) (pt / PGSIZE) p

/-- A page of the page table. -/
def IsTable (mem : Pages) (pt n : ℕ) : Prop := Radix.IsTable child (table mem) 2 (pt / PGSIZE) n

/-- The physical page and the flags of a valid entry. -/
def binding (entry : ℕ) : Option (ℕ × ℕ) := (child entry).map fun n ↦ (n, pteFlags entry)

/-- The physical page and the flags that a virtual page is mapped to. -/
def lookup (mem : Pages) (pt vpn : ℕ) : Option (ℕ × ℕ) :=
  (Radix.entry child (table mem) (pt / PGSIZE) (path vpn) (vpn % 512)).bind binding

/-- A tree of distinct pages whose entries above the last level are pointers. -/
structure IsTree (mem : Pages) (pt : ℕ) : Prop where
  aligned : pt % PGSIZE = 0
  distinct : Radix.Distinct child (table mem) 2 (pt / PGSIZE)
  inner : ∀ p i n, p.length < 2 → follow mem pt p = some n → table mem n i &&& PTE_V ≠ 0 →
    table mem n i &&& (PTE_R ||| PTE_W ||| PTE_X) = 0

/-- The pages that `kalloc` may return. -/
structure FreeOk (s : Phys) : Prop where
  nodup : s.free.Nodup
  range : ∀ n ∈ s.free, s.kernelEnd ≤ n * PGSIZE ∧ n * PGSIZE < PHYSTOP

/-- A page table of which no page is free. -/
structure WellFormed (s : Phys) (pt : ℕ) : Prop where
  tree : IsTree s.page pt
  free : FreeOk s
  fresh : ∀ n ∈ s.free, ¬ IsTable s.page pt n

variable {mem mem' : Pages} {pt n i vpn : ℕ} {p : List ℕ}

theorem length_path (vpn : ℕ) : (path vpn).length = 2 := rfl

/-- Pages with the same indices are the same. -/
theorem eq_of_path {vpn' : ℕ} (hvpn : vpn < 2 ^ 27) (hvpn' : vpn' < 2 ^ 27)
    (hpath : path vpn = path vpn') (hlast : vpn % 512 = vpn' % 512) : vpn = vpn' := by
  simp only [path, List.cons.injEq, and_true] at hpath
  omega

theorem child_zero : child 0 = none := rfl

theorem pte2pa_mod (pte : ℕ) : pte2pa pte % PGSIZE = 0 := by
  rw [pte2pa_eq]
  simp only [PGSIZE]
  omega

theorem slot_div (n : ℕ) (hi : i < 512) : (n * PGSIZE + 8 * i) / PGSIZE = n := by
  simp only [PGSIZE]
  omega

theorem slot_mod (n : ℕ) (hi : i < 512) : (n * PGSIZE + 8 * i) % PGSIZE = 8 * i := by
  simp only [PGSIZE]
  omega

/-- A store to an entry. -/
theorem table_setLE {value : ℕ} (hi : i < 512) (hvalue : value < 2 ^ 64) :
    table (Function.update mem n ((mem n).setLE 8 (8 * i) value)) =
      Radix.store (table mem) n i value := by
  funext m j
  by_cases hm : m = n
  · subst hm
    by_cases hj : j = i
    · subst hj
      rw [Radix.store_self, table, Function.update_self,
        Buffer.getLE_setLE_self _ _ _ _ (by simp only [PGSIZE]; omega)]
      exact Nat.mod_eq_of_lt hvalue
    · rw [Radix.store_entry_of_ne hj, table, table, Function.update_self,
        Buffer.getLE_setLE_of_disjoint _ _ _ _ _ _ (by omega)]
  · rw [Radix.store_of_ne hm, table, table, Function.update_of_ne hm]

/-- What is found depends on the pages of the tree. -/
theorem follow_congr (h : ∀ n, IsTable mem pt n → mem' n = mem n) (hp : p.length ≤ 3) :
    follow mem' pt p = follow mem pt p := by
  apply Radix.follow_congr
  intro q hq a ha
  funext i
  rw [table, table, h a ⟨q, by omega, ha⟩]

section Congr

variable (h : ∀ n, IsTable mem pt n → mem' n = mem n)

include h

theorem isTable_congr : IsTable mem' pt n ↔ IsTable mem pt n :=
  Radix.IsTable.congr fun _ hp ↦ follow_congr h (hp.trans (by decide))

theorem lookup_congr : lookup mem' pt vpn = lookup mem pt vpn := by
  have hlength : (path vpn).length ≤ 3 := (length_path vpn).le.trans (by decide)
  have hfollow := follow_congr h hlength
  rw [follow, follow] at hfollow
  rw [lookup, lookup, Radix.entry, Radix.entry, hfollow]
  refine congrArg (Option.bind · binding) (Option.map_congr fun a ha ↦ ?_)
  rw [table, table, h a ⟨path vpn, (length_path vpn).le, ha⟩]

theorem IsTree.congr (htree : IsTree mem pt) : IsTree mem' pt where
  aligned := htree.aligned
  distinct := htree.distinct.congr fun _ hp ↦ follow_congr h (hp.trans (by decide))
  inner p i n hp hn := by
    rw [follow_congr h (by omega)] at hn
    rw [table, h n ⟨p, hp.le, hn⟩]
    exact htree.inner p i n hp hn

end Congr

/-- A page of zeros is an empty page table. -/
theorem follow_empty (hempty : ∀ i, table mem n i = 0) :
    follow mem (n * PGSIZE) p = if p = [] then some n else none := by
  rw [follow, Nat.mul_div_cancel n (by decide)]
  cases p with
  | nil => rfl
  | cons i p => rw [Radix.follow, hempty, child_zero, if_neg (by simp), Option.bind_none]

theorem isTable_empty {m : ℕ} (hempty : ∀ i, table mem n i = 0) :
    IsTable mem (n * PGSIZE) m ↔ m = n := by
  constructor
  · rintro ⟨p, -, hp⟩
    have hfollow := follow_empty hempty (p := p)
    rw [follow, hp] at hfollow
    split at hfollow
    · exact Option.some.inj hfollow
    · cases hfollow
  · rintro rfl
    exact ⟨[], Nat.zero_le _, follow_empty hempty⟩

theorem lookup_empty (hempty : ∀ i, table mem n i = 0) : lookup mem (n * PGSIZE) vpn = none := by
  have hfollow := follow_empty hempty (p := path vpn)
  rw [if_neg (by simp [path]), follow] at hfollow
  rw [lookup, Radix.entry, hfollow]
  rfl

theorem isTree_empty (hempty : ∀ i, table mem n i = 0) : IsTree mem (n * PGSIZE) := by
  refine ⟨Nat.mul_mod_left _ _, fun p q _ _ a hp hq ↦ ?_, fun p i m _ hm hvalid ↦ ?_⟩
  · have hp' := follow_empty hempty (p := p)
    have hq' := follow_empty hempty (p := q)
    rw [follow, hp] at hp'
    rw [follow, hq] at hq'
    split at hp'
    · split at hq'
      · rename_i hp hq
        rw [hp, hq]
      · cases hq'
    · cases hp'
  · rw [follow_empty hempty] at hm
    split at hm
    · rw [← Option.some.inj hm, hempty] at hvalid
      exact absurd rfl hvalid
    · cases hm

/-! ## Stores to page tables -/

section Insert

variable {b : ℕ} (htree : IsTree mem pt) (hp : p.length < 2) (hn : follow mem pt p = some n)
  (hi : i < 512) (hentry : table mem n i &&& PTE_V = 0) (hempty : ∀ j, table mem b j = 0)
  (hb : ¬ IsTable mem pt b) (hsmall : b * PGSIZE < 2 ^ 64)

include htree hp hn hi hentry hempty hb hsmall

/-- A new table page is put into the tree. -/
theorem insert_table :
    let mem' := Function.update mem n ((mem n).setLE 8 (8 * i) (pa2pte (b * PGSIZE) ||| PTE_V))
    IsTree mem' pt ∧ (∀ m, IsTable mem' pt m ↔ IsTable mem pt m ∨ m = b) ∧
      (∀ vpn, lookup mem' pt vpn = lookup mem pt vpn) ∧ follow mem' pt (p ++ [i]) = some b := by
  intro mem'
  have hV : PTE_V < 1024 := by decide
  have hstore : table mem' = Radix.store (table mem) n i (pa2pte (b * PGSIZE) ||| PTE_V) :=
    table_setLE hi (pa2pte_or_lt hsmall hV)
  have hflags : pteFlags (pa2pte (b * PGSIZE) ||| PTE_V) = PTE_V := pteFlags_pa2pte hV
  have hpointer : (pa2pte (b * PGSIZE) ||| PTE_V) &&& (PTE_R ||| PTE_W ||| PTE_X) = 0 := by
    rw [and_flags (by decide : 0x3FF &&& (PTE_R ||| PTE_W ||| PTE_X) = _), hflags]
    decide
  have hchild : child (pa2pte (b * PGSIZE) ||| PTE_V) = some b := by
    have hpage : b * PGSIZE / PGSIZE = b := Nat.mul_div_cancel b (by decide)
    rw [child, and_flags (by decide), hflags, if_neg (by decide), pte2pa_pa2pte hsmall hV, hpage,
      hpage]
  have hnone : child (table mem n i) = none := if_pos hentry
  have hempty' : ∀ j, child (table mem b j) = none := fun j ↦ by rw [hempty j, child_zero]
  have hbn : b ≠ n := by
    rintro rfl
    exact hb ⟨p, hp.le, hn⟩
  have hdistinct := htree.distinct
  have hfollow {q : List ℕ} (hq : q.length ≤ 2) :
      follow mem' pt q = if q = p ++ [i] then some b else follow mem pt q := by
    rw [follow, hstore]
    exact Radix.follow_insert hdistinct hp hn hnone hchild hempty' hb hq
  refine ⟨⟨htree.aligned, ?_, fun q j m hq hm ↦ ?_⟩, fun m ↦ ?_, fun vpn ↦ ?_, ?_⟩
  · rw [hstore]
    exact Radix.distinct_insert hdistinct hp hn hnone hchild hempty' hb
  · rw [hfollow hq.le] at hm
    rw [hstore]
    split at hm
    · obtain rfl := Option.some.inj hm
      rw [Radix.store_of_ne hbn, hempty j]
      exact fun h ↦ absurd rfl h
    · by_cases hmn : m = n ∧ j = i
      · rw [hmn.1, hmn.2, Radix.store_self]
        exact fun _ ↦ hpointer
      · rw [Radix.store_other hmn]
        exact htree.inner q j m hq hm
  · rw [IsTable, hstore]
    exact Radix.isTable_insert hdistinct hp hn hnone hchild hempty' hb
  · rw [lookup, hstore, Radix.entry_insert hdistinct hp hn hnone hchild hempty' hb (length_path vpn)]
    split
    · rename_i heq
      have hbefore : Radix.follow child (table mem) (pt / PGSIZE) (path vpn) = none := by
        rw [heq, Radix.follow_snoc]
        rw [follow] at hn
        rw [hn, Option.bind_some, hnone]
      rw [lookup, Radix.entry, hbefore, hempty]
      rfl
    · rfl
  · rw [hfollow, if_pos rfl]
    rw [List.length_append]
    exact hp

end Insert

section Leaf

variable {entry : ℕ} (htree : IsTree mem pt) (hn : follow mem pt (path vpn) = some n)
  (hentry : entry < 2 ^ 64)

include htree hn hentry

/-- The entry of a page is changed. -/
theorem set_entry :
    let mem' := Function.update mem n ((mem n).setLE 8 (8 * (vpn % 512)) entry)
    IsTree mem' pt ∧ (∀ m, IsTable mem' pt m ↔ IsTable mem pt m) ∧
      ∀ vpn', vpn < 2 ^ 27 → vpn' < 2 ^ 27 →
        lookup mem' pt vpn' = if vpn' = vpn then binding entry else lookup mem pt vpn' := by
  intro mem'
  have hstore : table mem' = Radix.store (table mem) n (vpn % 512) entry :=
    table_setLE (Nat.mod_lt _ (by decide)) hentry
  have hdistinct := htree.distinct
  have hfollow {q : List ℕ} (hq : q.length ≤ 2) : follow mem' pt q = follow mem pt q := by
    rw [follow, hstore]
    exact Radix.follow_store_leaf hdistinct (length_path vpn) hn hq
  refine ⟨⟨htree.aligned, hdistinct.congr fun _ ↦ hfollow, fun q j m hq hm ↦ ?_⟩, fun m ↦ ?_,
    fun vpn' hvpn hvpn' ↦ ?_⟩
  · rw [hfollow hq.le] at hm
    rw [hstore, Radix.store_of_ne]
    · exact htree.inner q j m hq hm
    · rintro rfl
      have heq := hdistinct q (path vpn) hq.le (length_path vpn).le m hm hn
      rw [heq, length_path] at hq
      exact absurd hq (lt_irrefl 2)
  · exact Radix.IsTable.congr fun _ ↦ hfollow
  · rw [lookup, hstore, Radix.entry_store_leaf hdistinct (length_path vpn) hn (length_path vpn')]
    by_cases heq : vpn' = vpn
    · rw [if_pos heq, if_pos ⟨congrArg path heq, congrArg (· % 512) heq⟩]
      rfl
    · rw [if_neg heq, if_neg fun h ↦ heq (eq_of_path hvpn' hvpn h.1 h.2)]
      rfl

end Leaf

/-! ## `walk` -/

variable {s s' s'' : Phys} {va : ℕ} {E : Stop → Prop}

/-- The indices of a virtual address into the tables from the given level down. -/
def indices (va : ℕ) : ℕ → List ℕ
  | 0 => []
  | level + 1 => px (level + 1) va :: indices va level

theorem indices_two (va : ℕ) : indices va 2 = path (va / PGSIZE) := by
  rw [indices, indices, indices, px_eq, px_eq, Nat.pow_one]
  rfl

theorem px_zero (va : ℕ) : px 0 va = va / PGSIZE % 512 := by rw [px_eq, Nat.pow_zero, Nat.div_one]

theorem pte2pa_page (pte : ℕ) : pte2pa pte / PGSIZE * PGSIZE = pte2pa pte :=
  Nat.div_mul_cancel (Nat.dvd_of_mod_eq_zero (pte2pa_mod pte))

theorem wp_load_entry {Q : ℕ → Phys → Prop} (hi : i < 512) :
    wp (load64 (n * PGSIZE + 8 * i)) Q E s ↔ Q (table s.page n i) s := by
  rw [wp_load64, slot_div n hi, slot_mod n hi, table]

theorem wp_store_entry {Q : Unit → Phys → Prop} {entry : ℕ} (hi : i < 512) :
    wp (store64 (n * PGSIZE + 8 * i) entry) Q E s ↔
      Q () { s with page := Function.update s.page n ((s.page n).setLE 8 (8 * i) entry) } := by
  rw [wp_store64, slot_div n hi, slot_mod n hi]

/-- Without allocation the tree is followed as far as it goes. -/
theorem walkLoop_find (level : ℕ) :
    wp (walkLoop va false level (n * PGSIZE)) (fun r s' ↦ s' = s ∧
      r = (Radix.follow child (table s.page) n (indices va level)).map
        fun m ↦ m * PGSIZE + 8 * px 0 va) E s := by
  induction level generalizing n with
  | zero => exact (wp_pure _).mpr ⟨rfl, rfl⟩
  | succ level ih =>
    rw [walkLoop, wp_bind, wp_load_entry (px_lt _ _), indices, Radix.follow]
    split
    · rename_i hvalid
      have hnext := ih (n := pte2pa (table s.page n (px (level + 1) va)) / PGSIZE)
      rw [pte2pa_page] at hnext
      rw [child, if_neg hvalid, Option.bind_some]
      exact hnext
    · rename_i hvalid
      rw [not_not] at hvalid
      rw [child, if_pos hvalid]
      exact (wp_pure _).mpr ⟨rfl, rfl⟩

theorem walk_find (hpt : pt % PGSIZE = 0) (hva : va < MAXVA) :
    wp (walk pt va false) (fun r s' ↦ s' = s ∧
      r = (follow s.page pt (path (va / PGSIZE))).map
        fun m ↦ m * PGSIZE + 8 * (va / PGSIZE % 512)) E s := by
  obtain ⟨n, rfl⟩ : ∃ n, pt = n * PGSIZE :=
    ⟨pt / PGSIZE, (Nat.div_mul_cancel (Nat.dvd_of_mod_eq_zero hpt)).symm⟩
  have hfind : wp (walkLoop va false 2 (n * PGSIZE)) _ E s := walkLoop_find 2
  rw [indices_two, px_zero] at hfind
  rw [walk, if_neg (Nat.not_le_of_lt hva), follow, Nat.mul_div_cancel n (by decide)]
  exact hfind

/-- The pages of the tree have changed, and pages from the free list have become part of it. -/
structure Extends (pt : ℕ) (s s' : Phys) : Prop where
  free : ∃ taken, s.free = taken ++ s'.free ∧
    ∀ n, IsTable s'.page pt n ↔ IsTable s.page pt n ∨ n ∈ taken
  page : ∀ n, ¬ IsTable s'.page pt n → s'.page n = s.page n
  kernelEnd : s'.kernelEnd = s.kernelEnd

namespace Extends

theorem refuse (refuse : List Bool) : Extends pt s { s with refuse := refuse } :=
  ⟨⟨[], rfl, by simp⟩, fun _ _ ↦ rfl, rfl⟩

theorem trans (h : Extends pt s s') (h' : Extends pt s' s'') : Extends pt s s'' := by
  obtain ⟨taken, hfree, htaken⟩ := h.free
  obtain ⟨taken', hfree', htaken'⟩ := h'.free
  refine ⟨⟨taken ++ taken', ?_, fun n ↦ ?_⟩, fun n hn ↦ ?_, h'.kernelEnd.trans h.kernelEnd⟩
  · rw [hfree, hfree', List.append_assoc]
  · rw [htaken', htaken, List.mem_append, or_assoc]
  · rw [h'.page n hn]
    exact h.page n fun hn' ↦ hn ((htaken' n).mpr (.inl hn'))

end Extends

theorem WellFormed.setRefuse (h : WellFormed s pt) (refuse : List Bool) :
    WellFormed { s with refuse := refuse } pt := ⟨h.tree, ⟨h.free.nodup, h.free.range⟩, h.fresh⟩

/-- A page from the free list becomes a table. -/
theorem WellFormed.alloc {b : ℕ} {free : List ℕ} {refuse : List Bool} (h : WellFormed s pt)
    (hfree : s.free = b :: free) (hp : p.length < 2) (hn : follow s.page pt p = some n)
    (hi : i < 512) (hentry : table s.page n i &&& PTE_V = 0) :
    let mem := Function.update s.page b (.fill 0)
    let s' : Phys := { s with
      refuse := refuse
      free := free
      page := Function.update mem n ((mem n).setLE 8 (8 * i) (pa2pte (b * PGSIZE) ||| PTE_V)) }
    WellFormed s' pt ∧ Extends pt s s' ∧ (∀ vpn, lookup s'.page pt vpn = lookup s.page pt vpn) ∧
      follow s'.page pt (p ++ [i]) = some b := by
  intro mem s'
  have hb : ¬ IsTable s.page pt b := h.fresh b (hfree ▸ List.mem_cons_self)
  -- The new page is not part of the tree yet, so that it may be cleared.
  have hother : ∀ m, m ≠ b → mem m = s.page m := fun m hm ↦ Function.update_of_ne hm _ _
  have hself : mem b = .fill 0 := Function.update_self ..
  have hmem : ∀ m, IsTable s.page pt m → mem m = s.page m := fun m hm ↦ by
    apply hother
    rintro rfl
    exact hb hm
  have hnb : n ≠ b := by
    rintro rfl
    exact hb ⟨p, hp.le, hn⟩
  have hsmall : b * PGSIZE < 2 ^ 64 :=
    (h.free.range b (hfree ▸ List.mem_cons_self)).2.trans (by decide)
  have hempty : ∀ j, table mem b j = 0 := fun j ↦ by
    rw [table, hself]
    exact Buffer.getLE_fill_zero _ _
  have hn' : follow mem pt p = some n := by
    rw [follow_congr hmem (by omega)]
    exact hn
  have hentry' : table mem n i &&& PTE_V = 0 := by
    rw [table, hother n hnb]
    exact hentry
  obtain ⟨htree, htables, hlookup, hfollow⟩ := insert_table (h.tree.congr hmem) hp hn' hi hentry' hempty
    (mt (isTable_congr hmem).mp hb) hsmall
  have hnodup := h.free.nodup
  rw [hfree, List.nodup_cons] at hnodup
  have htables' : ∀ m, IsTable s'.page pt m ↔ IsTable s.page pt m ∨ m = b := fun m ↦
    (htables m).trans (or_congr (isTable_congr hmem) Iff.rfl)
  refine ⟨⟨htree, ⟨hnodup.2, fun m hm ↦ ?_⟩, fun m hm hm' ↦ ?_⟩, ⟨⟨[b], hfree, ?_⟩, fun m hm ↦ ?_,
    rfl⟩, fun vpn ↦ ?_, hfollow⟩
  · exact h.free.range m (hfree ▸ List.mem_cons_of_mem b hm)
  · rcases (htables' m).mp hm' with hm' | rfl
    · exact h.fresh m (hfree ▸ List.mem_cons_of_mem b hm) hm'
    · exact hnodup.1 hm
  · simpa using htables'
  · rw [htables', not_or] at hm
    have hmn : m ≠ n := by
      rintro rfl
      exact hm.1 ⟨p, hp.le, hn⟩
    show Function.update mem n _ m = s.page m
    rw [Function.update_of_ne hmn, hother m hm.2]
  · rw [hlookup]
    exact lookup_congr hmem

/-- What `walk` does with allocation: the entry of the page, unless there is no memory. -/
structure Walked (s : Phys) (pt va : ℕ) (r : Option ℕ) (s' : Phys) : Prop where
  wellFormed : WellFormed s' pt
  grown : Extends pt s s'
  lookup : ∀ vpn, lookup s'.page pt vpn = lookup s.page pt vpn
  found : ∀ pte, r = some pte → ∃ n, follow s'.page pt (path (va / PGSIZE)) = some n ∧
    pte = n * PGSIZE + 8 * (va / PGSIZE % 512)

theorem walkLoop_alloc (h : WellFormed s pt) (level : ℕ)
    (hpath : p ++ indices va level = path (va / PGSIZE)) (hn : follow s.page pt p = some n) :
    wp (walkLoop va true level (n * PGSIZE)) (Walked s pt va) E s := by
  induction level generalizing n p s with
  | zero =>
    rw [indices, List.append_nil] at hpath
    refine (wp_pure _).mpr ⟨h, .refuse s.refuse, fun _ ↦ rfl, ?_⟩
    rintro pte ⟨⟩
    exact ⟨n, hpath ▸ hn, by rw [px_zero]⟩
  | succ level ih =>
    have hlength := congrArg List.length hpath
    rw [indices, List.length_append, length_path, List.length_cons] at hlength
    have hnext : p ++ [px (level + 1) va] ++ indices va level = path (va / PGSIZE) := by
      rw [List.append_assoc]
      exact hpath
    rw [walkLoop, wp_bind, wp_load_entry (px_lt _ _)]
    split
    · rename_i hvalid
      rw [← pte2pa_page]
      refine ih h hnext ?_
      rw [follow, Radix.follow_snoc]
      rw [follow] at hn
      rw [hn, Option.bind_some, child, if_neg hvalid]
    · rename_i hvalid
      rw [not_not] at hvalid
      rw [if_neg (by decide), wp_bind]
      refine wp_kalloc (fun refuse ↦ ?_) fun refuse b free hfree ↦ ?_
      · refine (wp_pure _).mpr ⟨h.setRefuse refuse, .refuse refuse, fun _ ↦ rfl, ?_⟩
        rintro pte ⟨⟩
      · obtain ⟨hwf, hextends, hlookup, hb⟩ := h.alloc hfree (by omega) hn (px_lt _ _) hvalid
        dsimp only
        rw [wp_bind, wp_memset, wp_bind, wp_store_entry (px_lt _ _)]
        dsimp only
        rw [Nat.mul_div_cancel b (by decide), Function.update_idem]
        refine wp_post (ih hwf hnext hb) fun r s' hwalked ↦ ?_
        exact ⟨hwalked.wellFormed, hextends.trans hwalked.grown,
          fun vpn ↦ (hwalked.lookup vpn).trans (hlookup vpn), hwalked.found⟩

theorem walk_alloc (h : WellFormed s pt) (hva : va < MAXVA) :
    wp (walk pt va true) (Walked s pt va) E s := by
  have hpage : pt / PGSIZE * PGSIZE = pt :=
    Nat.div_mul_cancel (Nat.dvd_of_mod_eq_zero h.tree.aligned)
  have halloc : wp (walkLoop va true 2 (pt / PGSIZE * PGSIZE)) (Walked s pt va) E s :=
    walkLoop_alloc h (p := []) 2 (indices_two va) rfl
  rw [hpage] at halloc
  rw [walk, if_neg (Nat.not_le_of_lt hva)]
  exact halloc

/-! ## `mappages` -/

theorem lookup_of_follow (hn : follow mem pt (path vpn) = some n) :
    lookup mem pt vpn = binding (table mem n (vpn % 512)) := by
  rw [follow] at hn
  rw [lookup, Radix.entry, hn]
  rfl

theorem lookup_of_follow_none (hn : follow mem pt (path vpn) = none) : lookup mem pt vpn = none := by
  rw [follow] at hn
  rw [lookup, Radix.entry, hn]
  rfl

theorem binding_eq_none {entry : ℕ} : binding entry = none ↔ entry &&& PTE_V = 0 := by
  rw [binding, Option.map_eq_none_iff, child, ite_eq_left_iff]
  simp

theorem binding_pa2pte {pa perm : ℕ} (hpa : pa < 2 ^ 64) (hperm : perm < 1024) :
    binding (pa2pte pa ||| perm ||| PTE_V) = some (pa / PGSIZE, perm ||| PTE_V) := by
  have hx : perm ||| PTE_V < 1024 := Nat.or_lt_two_pow (n := 10) hperm (by decide)
  have hV : (pa2pte pa ||| (perm ||| PTE_V)) &&& PTE_V ≠ 0 := by
    rw [and_V, pa2pte_or hx]
    have hodd : (perm ||| PTE_V) % 2 = 1 := Nat.or_mod_two_eq_one.mpr (.inr rfl)
    omega
  rw [Nat.or_assoc, binding, child, if_neg hV, pte2pa_pa2pte hpa hx, pteFlags_pa2pte hx,
    Nat.mul_div_cancel _ (by decide)]
  rfl

/-- The map after the first pages of a range have been mapped. -/
structure Maps (s : Phys) (pt first count pa perm : ℕ) (s' : Phys) : Prop where
  wellFormed : WellFormed s' pt
  grown : Extends pt s s'
  lookup : ∀ vpn < 2 ^ 27, lookup s'.page pt vpn =
    if first ≤ vpn ∧ vpn < first + count then
      some ((pa + (vpn - first) * PGSIZE) % 2 ^ 64 / PGSIZE, perm ||| PTE_V)
    else lookup s.page pt vpn

theorem pa2pte_perm_lt {pa perm : ℕ} (hpa : pa < 2 ^ 64) (hperm : perm < 1024) :
    pa2pte pa ||| perm ||| PTE_V < 2 ^ 64 := by
  rw [Nat.or_assoc]
  exact pa2pte_or_lt hpa (Nat.or_lt_two_pow (n := 10) hperm (by decide))

/-- The entry of a page is changed. -/
theorem WellFormed.setEntry {entry : ℕ} (h : WellFormed s pt)
    (hn : follow s.page pt (path vpn) = some n) (hentry : entry < 2 ^ 64) :
    let s' : Phys := { s with
      page := Function.update s.page n ((s.page n).setLE 8 (8 * (vpn % 512)) entry) }
    WellFormed s' pt ∧ Extends pt s s' ∧ ∀ vpn', vpn < 2 ^ 27 → vpn' < 2 ^ 27 →
      lookup s'.page pt vpn' = if vpn' = vpn then binding entry else lookup s.page pt vpn' := by
  intro s'
  obtain ⟨htree, htables, hlookup⟩ := set_entry h.tree hn hentry
  refine ⟨⟨htree, ⟨h.free.nodup, h.free.range⟩, fun m hm hm' ↦ ?_⟩, ⟨⟨[], rfl, ?_⟩, fun m hm ↦ ?_, rfl⟩,
    hlookup⟩
  · exact h.fresh m hm ((htables m).mp hm')
  · simpa using htables
  · apply Function.update_of_ne
    rintro rfl
    exact hm ((htables m).mpr ⟨path vpn, (length_path vpn).le, hn⟩)

namespace Maps

variable {first count pa perm : ℕ}

/-- Nothing is mapped. -/
theorem none (hwf : WellFormed s' pt) (hgrown : Extends pt s s')
    (hlookup : ∀ vpn, Vm.lookup s'.page pt vpn = Vm.lookup s.page pt vpn) :
    Maps s pt first 0 pa perm s' := by
  refine ⟨hwf, hgrown, fun vpn _ ↦ ?_⟩
  rw [if_neg (by omega), hlookup]

/-- The range after its first page. -/
theorem cons (h : Maps s pt first 1 pa perm s')
    (h' : Maps s' pt (first + 1) count ((pa + PGSIZE) % 2 ^ 64) perm s'') :
    Maps s pt first (count + 1) pa perm s'' := by
  refine ⟨h'.wellFormed, h.grown.trans h'.grown, fun vpn hvpn ↦ ?_⟩
  rw [h'.lookup vpn hvpn, h.lookup vpn hvpn]
  by_cases hrest : first + 1 ≤ vpn ∧ vpn < first + 1 + count
  · have hpage : pa + PGSIZE + (vpn - (first + 1)) * PGSIZE = pa + (vpn - first) * PGSIZE := by
      rw [show vpn - first = vpn - (first + 1) + 1 by omega, Nat.add_mul, Nat.one_mul]
      omega
    rw [if_pos hrest, if_pos (by omega), Nat.mod_add_mod, hpage]
  · rw [if_neg hrest]
    by_cases hfirst : vpn = first
    · rw [if_pos (by omega), if_pos (by omega)]
    · rw [if_neg (by omega), if_neg (by omega)]

end Maps

theorem next_page {first : ℕ} (hfirst : first < 2 ^ 27) :
    (first * PGSIZE + PGSIZE) % 2 ^ 64 = (first + 1) * PGSIZE := by
  rw [Nat.add_one_mul]
  apply Nat.mod_eq_of_lt
  simp only [PGSIZE]
  omega

section Loop

variable {last perm first fuel pa : ℕ} {Q : Bool → Phys → Prop} (h : WellFormed s pt)
  (hpa : pa < 2 ^ 64) (hperm : perm < 1024)

include h hpa hperm

/-- One round of `mappages`, for a page that is not mapped. -/
theorem mappagesLoop_page (hmax : first * PGSIZE < MAXVA) (hunmapped : lookup s.page pt first = none)
    (hnone : ∀ s', Maps s pt first 0 pa perm s' → Q false s')
    (hsome : ∀ s', Maps s pt first 1 pa perm s' → if first * PGSIZE = last then Q true s' else
      wp (mappagesLoop pt last perm fuel ((first + 1) * PGSIZE) ((pa + PGSIZE) % 2 ^ 64)) Q E s') :
    wp (mappagesLoop pt last perm (fuel + 1) (first * PGSIZE) pa) Q E s := by
  have hvpn : first * PGSIZE / PGSIZE = first := Nat.mul_div_cancel first (by decide)
  have hfirst : first < 2 ^ 27 := by
    simp only [PGSIZE, MAXVA] at hmax
    omega
  rw [mappagesLoop, wp_bind]
  refine wp_post (walk_alloc h hmax) fun r s₁ hwalked ↦ ?_
  cases r with
  | none => exact (wp_pure _).mpr (hnone s₁ (.none hwalked.wellFormed hwalked.grown hwalked.lookup))
  | some pte =>
    obtain ⟨n, hn, rfl⟩ := hwalked.found pte rfl
    rw [hvpn] at hn ⊢
    have hindex : first % 512 < 512 := Nat.mod_lt _ (by decide)
    -- The entry of a page that is not mapped is not valid.
    have hentry : table s₁.page n (first % 512) &&& PTE_V = 0 := by
      rw [← binding_eq_none, ← lookup_of_follow hn, hwalked.lookup, hunmapped]
    rw [wp_bind, wp_load_entry hindex, if_neg (not_not.mpr hentry), wp_bind, wp_store_entry hindex]
    obtain ⟨hwf, hgrown, hlookup⟩ := hwalked.wellFormed.setEntry hn (pa2pte_perm_lt hpa hperm)
    have hmaps := hsome _ ⟨hwf, hwalked.grown.trans hgrown, fun vpn hvpn ↦ ?_⟩
    · rw [next_page hfirst]
      split
      · rename_i heq
        rw [if_pos heq] at hmaps
        exact (wp_pure _).mpr hmaps
      · rename_i hne
        rw [if_neg hne] at hmaps
        exact hmaps
    · rw [hlookup vpn hfirst hvpn, hwalked.lookup]
      by_cases heq : vpn = first
      · rw [if_pos heq, if_pos (by omega), binding_pa2pte hpa hperm, heq, Nat.sub_self, Nat.zero_mul,
          Nat.add_zero, Nat.mod_eq_of_lt hpa]
      · rw [if_neg heq, if_neg (by omega)]

/-- `mappages` maps the pages of a range one after the other, until there is no memory. -/
theorem mappagesLoop_spec {k : ℕ} (hlast : last = (first + k) * PGSIZE) (hmax : last < MAXVA)
    (hunmapped : ∀ vpn, first ≤ vpn → vpn ≤ first + k → lookup s.page pt vpn = none)
    (hfuel : k < fuel) :
    wp (mappagesLoop pt last perm fuel (first * PGSIZE) pa) (fun r s' ↦
      ∃ count, Maps s pt first count pa perm s' ∧ if r then count = k + 1 else count ≤ k) E s := by
  induction k generalizing first fuel pa s with
  | zero =>
    obtain ⟨fuel, rfl⟩ := Nat.exists_eq_add_one_of_ne_zero (Nat.ne_of_gt hfuel)
    rw [Nat.add_zero] at hlast
    refine mappagesLoop_page h hpa hperm (hlast ▸ hmax) (hunmapped first le_rfl le_rfl) ?_ ?_
    · exact fun s' hmaps ↦ ⟨0, hmaps, le_rfl⟩
    · intro s' hmaps
      rw [if_pos hlast.symm]
      exact ⟨1, hmaps, rfl⟩
  | succ k ih =>
    obtain ⟨fuel, rfl⟩ := Nat.exists_eq_add_one_of_ne_zero (Nat.ne_zero_of_lt hfuel)
    have hne : first * PGSIZE < last := by
      rw [hlast]
      simp only [PGSIZE]
      omega
    refine mappagesLoop_page h hpa hperm (hne.trans hmax) (hunmapped first le_rfl (by omega)) ?_ ?_
    · exact fun s' hmaps ↦ ⟨0, hmaps, Nat.zero_le _⟩
    · intro s' hmaps
      rw [if_neg hne.ne]
      have hlast' : last = (first + 1 + k) * PGSIZE := by rw [hlast, Nat.add_assoc, Nat.add_comm 1 k]
      refine wp_post (ih hmaps.wellFormed (Nat.mod_lt _ (by decide)) hlast'
        (fun vpn hlow hhigh ↦ ?_) (by omega)) ?_
      · rw [hmaps.lookup vpn, if_neg (by omega)]
        · exact hunmapped vpn (by omega) (by omega)
        · simp only [PGSIZE, MAXVA] at hlast hmax
          omega
      · rintro r s'' ⟨count, hrest, hcount⟩
        refine ⟨count + 1, hmaps.cons hrest, ?_⟩
        split
        · rename_i hr
          rw [if_pos hr] at hcount
          rw [hcount]
        · rename_i hr
          rw [if_neg hr] at hcount
          exact Nat.succ_le_succ hcount

end Loop

theorem pgrounddown_eq (a : ℕ) : pgrounddown a = a / PGSIZE * PGSIZE := by
  rw [pgrounddown]
  simp only [PGSIZE]
  omega

/-- `mappages` of a range that is not mapped. -/
theorem mappages_spec {size pa perm : ℕ} (h : WellFormed s pt) (hpa : pa < 2 ^ 64)
    (hperm : perm < 1024) (hsize : 0 < size) (hmax : va + size ≤ MAXVA)
    (hunmapped : ∀ vpn, va / PGSIZE ≤ vpn → vpn ≤ (va + size - 1) / PGSIZE →
      lookup s.page pt vpn = none) :
    wp (mappages pt va size pa perm) (fun r s' ↦ ∃ count, Maps s pt (va / PGSIZE) count pa perm s' ∧
      if r then va / PGSIZE + count = (va + size - 1) / PGSIZE + 1
      else va / PGSIZE + count ≤ (va + size - 1) / PGSIZE) E s := by
  have hle : va / PGSIZE ≤ (va + size - 1) / PGSIZE := Nat.div_le_div_right (by omega)
  obtain ⟨k, hk⟩ := Nat.exists_eq_add_of_le hle
  have hstop : (va + size - 1) % 2 ^ 64 = va + size - 1 :=
    Nat.mod_eq_of_lt (lt_of_lt_of_le (by omega) (hmax.trans (by decide)))
  have hlast : pgrounddown ((va + size - 1) % 2 ^ 64) = (va / PGSIZE + k) * PGSIZE := by
    rw [hstop, pgrounddown_eq, hk]
  have hmax' : pgrounddown ((va + size - 1) % 2 ^ 64) < MAXVA := by
    rw [hstop]
    exact lt_of_le_of_lt (Nat.sub_le _ _) (by omega)
  have hfuel : k < MAXVA / PGSIZE + 1 := by
    simp only [PGSIZE, MAXVA] at hk hmax ⊢
    omega
  rw [mappages, if_neg (Nat.ne_of_gt hsize), pgrounddown_eq va]
  refine wp_post (mappagesLoop_spec h hpa hperm hlast hmax' (fun vpn hlow hhigh ↦ ?_) hfuel) ?_
  · exact hunmapped vpn hlow (by omega)
  · rintro r s' ⟨count, hmaps, hcount⟩
    refine ⟨count, hmaps, ?_⟩
    rw [hk]
    cases r with
    | true => exact congrArg (va / PGSIZE + ·) hcount
    | false => exact Nat.add_le_add_left hcount _

end Xv6.Vm
