import Mathlib.Algebra.Order.BigOperators.Group.List
import Mathlib.Algebra.Order.Group.Nat
import Mathlib.Data.List.Pairwise
import Xv6.Lib.Path
import Xv6.Umalloc.Malloc

/-!
# The Free List

The free blocks are on a cycle through `base`, in the order of their addresses, with a gap behind
each.  Together with the blocks of the program they cover the memory that was added to the heap, and
no byte of it twice.
-/

namespace Xv6.Umalloc

open Lib

/-- The pointers of the headers. -/
def ptr (mem : ℕ → Header) (a : ℕ) : ℕ := (mem a).ptr

/-- The bytes of a block. -/
def block (mem : ℕ → Header) (a : ℕ) : Interval := ⟨a, a + UNIT * (mem a).size⟩

/-- The units of blocks. -/
def sizes (mem : ℕ → Header) (l : List ℕ) : ℕ := (l.map fun a ↦ (mem a).size).sum

/-- There is memory between two blocks. -/
def Gap (mem : ℕ → Header) (a b : ℕ) : Prop := a + UNIT * (mem a).size < b

variable {mem : ℕ → Header} {l l' : List ℕ} {a b : ℕ} {header : Header}

theorem map_block_update (hb : b ∉ l) :
    l.map (block (Function.update mem b header)) = l.map (block mem) := by
  refine List.map_congr_left fun a ha ↦ ?_
  rw [block, block, Function.update_of_ne (ne_of_mem_of_not_mem ha hb)]

theorem sizes_update (hb : b ∉ l) : sizes (Function.update mem b header) l = sizes mem l := by
  refine congrArg List.sum (List.map_congr_left fun a ha ↦ ?_)
  rw [Function.update_of_ne (ne_of_mem_of_not_mem ha hb)]

theorem ptr_update : ptr (Function.update mem b header) = Function.update (ptr mem) b header.ptr := by
  funext a
  by_cases ha : a = b
  · rw [ptr, ha, Function.update_self, Function.update_self]
  · rw [ptr, Function.update_of_ne ha, Function.update_of_ne ha, ptr]

theorem at_block (ha : 0 < (mem a).size) : (block mem a).At UNIT a 0 := by
  refine ⟨⟨le_rfl, ?_⟩, ?_⟩
  · simp only [block, UNIT]
    omega
  · rw [block, Nat.sub_self, Nat.zero_mod]

theorem sizes_perm (hperm : l.Perm l') : sizes mem l = sizes mem l' := (hperm.map _).sum_eq

/-- The memory that was added to the heap. -/
structure Regions (base : ℕ) (regions : List Region) : Prop where
  apart : (regions.map Region.interval).Pairwise Interval.Apart
  above : ∀ r ∈ regions, base + UNIT ≤ r.addr
  small : (regions.map Region.units).sum < 2 ^ 32

/-- The blocks `l` are all the memory of the regions. -/
structure Tiles (mem : ℕ → Header) (regions : List Region) (l : List ℕ) : Prop where
  size : ∀ a ∈ l, 0 < (mem a).size
  cover : ∀ x r, cover UNIT (l.map (block mem)) x r = cover UNIT (regions.map Region.interval) x r
  units : sizes mem l = (regions.map Region.units).sum

/-- The free blocks are `nodes`; the blocks `used` are not on the list. -/
structure FreeList (base : ℕ) (mem : ℕ → Header) (regions : List Region) (nodes used : List ℕ) :
    Prop where
  baseSize : (mem base).size = 0
  path : Path (ptr mem) base nodes base
  gaps : nodes.Pairwise (Gap mem)
  tiles : Tiles mem regions (nodes ++ used)

variable {base : ℕ} {regions : List Region}

namespace Tiles

theorem perm (h : Tiles mem regions l) (hperm : l.Perm l') : Tiles mem regions l' where
  size a ha := h.size a (hperm.mem_iff.mpr ha)
  cover x r := by rw [← cover_perm UNIT (hperm.map _), h.cover]
  units := by rw [← sizes_perm hperm, h.units]

/-- Blocks begin in the regions. -/
theorem exists_region (h : Tiles mem regions l) (ha : a ∈ l) :
    ∃ r ∈ regions, r.interval.At UNIT a 0 := by
  have hpos : 0 < Lib.cover UNIT (l.map (block mem)) a 0 :=
    cover_pos.mpr ⟨_, List.mem_map_of_mem ha, at_block (h.size a ha)⟩
  rw [h.cover] at hpos
  obtain ⟨i, hi, hai⟩ := cover_pos.mp hpos
  obtain ⟨r, hmem, rfl⟩ := List.mem_map.mp hi
  exact ⟨r, hmem, hai⟩

section

variable (h : Tiles mem regions l) (hr : Regions base regions)

include h hr

theorem apart : (l.map (block mem)).Pairwise Interval.Apart := apart_of_cover_eq hr.apart h.cover

/-- Blocks lie above `base`. -/
theorem above (ha : a ∈ l) : base + UNIT ≤ a := by
  obtain ⟨r, hmem, hra⟩ := h.exists_region ha
  exact (hr.above r hmem).trans hra.1.1

omit hr in
/-- The units of the blocks are the units of the regions. -/
theorem unit_iff {x : ℕ} : (∃ a ∈ l, ∃ j < (mem a).size, a + UNIT * j = x) ↔
    ∃ r ∈ regions, ∃ k < r.units, r.addr + UNIT * k = x := by
  have hpos := cover_pos (m := UNIT) (l := l.map (block mem)) (x := x) (r := 0)
  rw [h.cover, cover_pos] at hpos
  simpa [block, Region.interval, Interval.at_zero_iff] using hpos.symm

theorem eq_of_mem {x : ℕ} (ha : a ∈ l) (hb : b ∈ l) (hax : (block mem a).Mem x)
    (hbx : (block mem b).Mem x) : a = b := by
  by_contra hne
  exact (List.pairwise_map.mp (h.apart hr)).forall ha hb hne x hax hbx

/-- A block begins behind the blocks below it. -/
theorem stop_le (ha : a ∈ l) (hb : b ∈ l) (hlt : a < b) : a + UNIT * (mem a).size ≤ b := by
  by_contra hgt
  have hmem : (block mem a).Mem b := ⟨hlt.le, Nat.lt_of_not_le hgt⟩
  exact hlt.ne (h.eq_of_mem hr ha hb hmem (at_block (h.size b hb)).1)

theorem nodup : l.Nodup := by
  refine (List.pairwise_map.mp (h.apart hr)).imp_of_mem fun {a b} ha _ hab ↦ ?_
  rintro rfl
  exact hab a (at_block (h.size a ha)).1 (at_block (h.size a ha)).1

end

/-- Two blocks that meet become one. -/
theorem join (h : Tiles mem regions (a :: b :: l)) (hr : Regions base regions)
    (hab : a + UNIT * (mem a).size = b) (hsize : header.size = (mem a).size + (mem b).size) :
    Tiles (Function.update mem a header) regions (a :: l) := by
  have hnodup := h.nodup hr
  have hal : a ∉ l := fun hmem ↦ (List.nodup_cons.mp hnodup).1 (List.mem_cons_of_mem _ hmem)
  refine ⟨fun c hc ↦ ?_, fun x r ↦ ?_, ?_⟩
  · rcases List.mem_cons.mp hc with rfl | hc
    · rw [Function.update_self, hsize]
      exact Nat.add_pos_left (h.size c List.mem_cons_self) _
    · rw [Function.update_of_ne (ne_of_mem_of_not_mem hc hal)]
      exact h.size c (List.mem_cons_of_mem _ (List.mem_cons_of_mem _ hc))
  · have hcover := h.cover x r
    have hdvd : UNIT ∣ b - a := ⟨(mem a).size, by omega⟩
    simp only [List.map_cons] at hcover ⊢
    rw [map_block_update hal, block, Function.update_self, hsize, Nat.mul_add, ← Nat.add_assoc, hab,
      ← hcover, block, hab, block, cover_join (by omega) (by omega) hdvd]
  · have hunits := h.units
    simp only [sizes, List.map_cons, List.sum_cons] at hunits ⊢
    have hrest : sizes (Function.update mem a header) l = sizes mem l := sizes_update hal
    simp only [sizes] at hrest
    rw [hrest, Function.update_self, hsize]
    omega

end Tiles

namespace FreeList

variable {nodes used : List ℕ} (h : FreeList base mem regions nodes used) (hr : Regions base regions)

include h

theorem size_pos (ha : a ∈ nodes) : 0 < (mem a).size := h.tiles.size a (List.mem_append_left _ ha)

theorem sorted : nodes.Pairwise (· < ·) :=
  h.gaps.imp fun {a _} hgap ↦ lt_of_le_of_lt (Nat.le_add_right a _) hgap

include hr

theorem base_lt (ha : a ∈ nodes ++ used) : base < a :=
  lt_of_lt_of_le (Nat.lt_add_of_pos_right (by decide)) (h.tiles.above hr ha)

/-- The nodes of the cycle are in the order of their addresses. -/
theorem sorted_base : (base :: nodes).Pairwise (· < ·) :=
  .cons (fun _ ha ↦ h.base_lt hr (List.mem_append_left _ ha)) h.sorted

theorem nodup : (base :: nodes).Nodup := (h.sorted_base hr).imp ne_of_lt

omit hr in
/-- There are at most as many free blocks as units. -/
theorem length_le : nodes.length ≤ (regions.map Region.units).sum := by
  rw [← h.tiles.units]
  calc
    nodes.length = (nodes.map fun _ ↦ 1).sum := by simp
    _ ≤ sizes mem nodes := List.sum_le_sum fun a ha ↦ h.size_pos ha
    _ ≤ sizes mem (nodes ++ used) := by simp [sizes]

end FreeList

/-! ## The search for the place of a block -/

/-- The condition that ends the loop of `free`. -/
def Stops (mem : ℕ → Header) (bp p : ℕ) : Prop :=
  p < bp ∧ bp < (mem p).ptr ∨ (mem p).ptr ≤ p ∧ (p < bp ∨ bp < (mem p).ptr)

theorem freeLoop_stop {s : Heap} {bp p fuel : ℕ} {E : Stop → Prop} (h : Stops s.mem bp p) :
    wp (freeLoop bp (fuel + 1) p) (fun p' s' ↦ p' = p ∧ s' = s) E s := by
  rw [freeLoop, wp_bind, wp_get]
  dsimp only
  by_cases hfirst : p < bp ∧ bp < (s.mem p).ptr
  · rw [if_pos hfirst]
    exact ⟨rfl, rfl⟩
  · rw [if_neg hfirst, if_pos (h.resolve_left hfirst)]
    exact ⟨rfl, rfl⟩

theorem freeLoop_next {s : Heap} {bp p fuel : ℕ} {Q : ℕ → Heap → Prop} {E : Stop → Prop}
    (h : ¬ Stops s.mem bp p) :
    wp (freeLoop bp (fuel + 1) p) Q E s ↔ wp (freeLoop bp fuel (s.mem p).ptr) Q E s := by
  rw [Stops, not_or] at h
  rw [freeLoop, wp_bind, wp_get]
  dsimp only
  rw [if_neg h.1, if_neg h.2]

/-- The loop of `free` ends at the only node that meets its condition. -/
theorem freeLoop_spec {s : Heap} {bp p q t fuel : ℕ} {E : Stop → Prop}
    (hpath : Path (ptr s.mem) p l q) (ht : t ∈ p :: l)
    (hstops : ∀ x ∈ p :: l, Stops s.mem bp x ↔ x = t) (hfuel : l.length < fuel) :
    wp (freeLoop bp fuel p) (fun p' s' ↦ p' = t ∧ s' = s) E s := by
  induction l generalizing p fuel with
  | nil =>
    obtain _ | fuel := fuel
    · exact absurd hfuel (Nat.not_lt_zero _)
    obtain rfl := List.mem_singleton.mp ht
    exact freeLoop_stop ((hstops t List.mem_cons_self).mpr rfl)
  | cons x l ih =>
    obtain _ | fuel := fuel
    · exact absurd hfuel (Nat.not_lt_zero _)
    by_cases hp : p = t
    · subst hp
      exact freeLoop_stop ((hstops p List.mem_cons_self).mpr rfl)
    · have hnot : ¬ Stops s.mem bp p := (hstops p List.mem_cons_self).not.mpr hp
      rw [freeLoop_next hnot, show (s.mem p).ptr = x from hpath.1]
      refine ih hpath.2 ((List.mem_cons.mp ht).resolve_left (Ne.symm hp)) (fun y hy ↦ ?_)
        (Nat.lt_of_succ_lt_succ hfuel)
      exact hstops y (List.mem_cons_of_mem _ hy)

/-- The place of a new block in the list. -/
theorem exists_split {bp : ℕ} (hsorted : l.Pairwise (· < ·)) (hbp : bp ∉ l) :
    ∃ left right, l = left ++ right ∧ (∀ a ∈ left, a < bp) ∧ ∀ a ∈ right, bp < a := by
  induction l with
  | nil => exact ⟨[], [], rfl, by simp, by simp⟩
  | cons x l ih =>
    obtain ⟨hx, hrest⟩ := List.pairwise_cons.mp hsorted
    rw [List.mem_cons, not_or] at hbp
    obtain ⟨left, right, rfl, hleft, hright⟩ := ih hrest hbp.2
    rcases Nat.lt_or_ge x bp with hlt | hge
    · refine ⟨x :: left, right, rfl, fun a ha ↦ ?_, hright⟩
      rcases List.mem_cons.mp ha with rfl | ha
      · exact hlt
      · exact hleft a ha
    · have hgt : bp < x := lt_of_le_of_ne hge hbp.1
      refine ⟨[], x :: (left ++ right), rfl, by simp, fun a ha ↦ ?_⟩
      rcases List.mem_cons.mp ha with rfl | ha
      · exact hgt
      · exact hgt.trans (hx a ha)

/-- The loop of `free` ends at the node in front of the new block. -/
theorem FreeList.stops_iff {left right used : List ℕ} {bp : ℕ}
    (h : FreeList base mem regions (left ++ right) used) (hr : Regions base regions)
    (hbase : base < bp) (hleft : ∀ a ∈ left, a < bp) (hright : ∀ a ∈ right, bp < a) {x : ℕ}
    (hx : x ∈ base :: (left ++ right)) : Stops mem bp x ↔ x = left.getLastD base := by
  have hsorted := h.sorted_base hr
  have hlast : left.getLastD base < bp := by
    rcases List.mem_cons.mp (Path.last_mem base left) with heq | hmem
    · rw [heq]
      exact hbase
    · exact hleft _ hmem
  cases right with
  | nil =>
    -- All nodes are below the block, and the last one points back to `base`.
    rw [List.append_nil] at h hx hsorted
    constructor
    · intro hstops
      by_contra hne
      obtain ⟨hmem, hlt⟩ := h.path.next_of_ne_last hsorted hx hne
      have := hleft _ hmem
      simp only [ptr] at hlt this
      rcases hstops with hstops | hstops <;> omega
    · rintro rfl
      have hnext : (mem (left.getLastD base)).ptr = base := h.path.next_last
      refine .inr ⟨?_, .inl hlast⟩
      rw [hnext]
      rcases List.mem_cons.mp hx with heq | hmem
      · exact heq.ge
      · exact (h.base_lt hr (List.mem_append_left _ hmem)).le
  | cons r right =>
    obtain ⟨hpathL, hpathR⟩ := path_append.mp h.path
    have hnext : (mem (left.getLastD base)).ptr = r := hpathL.next_last
    constructor
    · intro hstops
      by_contra hne
      rw [← List.cons_append] at hx hsorted
      obtain ⟨hsortedL, hsortedR, -⟩ := List.pairwise_append.mp hsorted
      rcases List.mem_append.mp hx with hx | hx
      · obtain ⟨hmem, hlt⟩ := hpathL.next_of_ne_last hsortedL hx hne
        have := hleft _ hmem
        simp only [ptr] at hlt this
        rcases hstops with hstops | hstops <;> omega
      · have hgt := hright x hx
        by_cases hend : x = right.getLastD r
        · have hptr : (mem x).ptr = base := hend ▸ hpathR.next_last
          rw [Stops, hptr] at hstops
          omega
        · obtain ⟨hmem, hlt⟩ := hpathR.next_of_ne_last hsortedR hx hend
          simp only [ptr] at hlt
          rcases hstops with hstops | hstops <;> omega
    · rintro rfl
      exact .inl ⟨hlast, hnext ▸ hright r List.mem_cons_self⟩

/-! ## Putting a block on the list -/

/-- The block `bp` points to the nodes above it; the node below it does not point to it yet. -/
structure Split (base : ℕ) (mem : ℕ → Header) (regions : List Region) (left : List ℕ) (bp : ℕ)
    (right used : List ℕ) : Prop where
  baseSize : (mem base).size = 0
  pathL : ∃ q, Path (ptr mem) base left q
  pathR : Path (ptr mem) bp right base
  gaps_left : left.Pairwise (Gap mem)
  gaps_right : (bp :: right).Pairwise (Gap mem)
  below : ∀ a ∈ left, a < bp
  tiles : Tiles mem regions (left ++ bp :: right ++ used)

section Join

variable {left right used : List ℕ} {bp : ℕ}

theorem gaps_update (hb : b ∉ l) (hgaps : l.Pairwise (Gap mem)) :
    l.Pairwise (Gap (Function.update mem b header)) := by
  refine hgaps.imp_of_mem fun {x y} hx _ hgap ↦ ?_
  rw [Gap, Function.update_of_ne (ne_of_mem_of_not_mem hx hb)]
  exact hgap

/-- The sizes of two blocks together fit in an `unsigned int`. -/
theorem Tiles.add_lt (h : Tiles mem regions (a :: b :: l)) (hr : Regions base regions) :
    (mem a).size + (mem b).size < 2 ^ 32 := by
  have hunits := h.units
  have hsmall := hr.small
  simp only [sizes, List.map_cons, List.sum_cons] at hunits
  omega

/-- A change of a pointer leaves the sizes of the blocks as they are. -/
theorem size_setPtr (p q a : ℕ) :
    (Function.update mem p ⟨q, (mem p).size⟩ a).size = (mem a).size := by
  by_cases ha : a = p
  · rw [ha, Function.update_self]
  · rw [Function.update_of_ne ha]

theorem gap_setPtr (p q : ℕ) : Gap (Function.update mem p ⟨q, (mem p).size⟩) = Gap mem := by
  funext a b
  rw [Gap, Gap, size_setPtr]

theorem Tiles.setPtr (h : Tiles mem regions l) (p q : ℕ) :
    Tiles (Function.update mem p ⟨q, (mem p).size⟩) regions l := by
  have hblock : block (Function.update mem p ⟨q, (mem p).size⟩) = block mem := by
    funext a
    rw [block, block, size_setPtr]
  refine ⟨fun a ha ↦ ?_, fun x r ↦ ?_, ?_⟩
  · rw [size_setPtr]
    exact h.size a ha
  · rw [hblock]
    exact h.cover x r
  · simp only [sizes, size_setPtr]
    exact h.units

variable (h : FreeList base mem regions (left ++ right) (bp :: used)) (hr : Regions base regions)
  (hleft : ∀ a ∈ left, a < bp) (hright : ∀ a ∈ right, bp < a)

include h hr hleft hright

omit h hr in
theorem not_mem_right : bp ∉ left ++ right := by
  intro hmem
  rcases List.mem_append.mp hmem with hmem | hmem
  · exact absurd (hleft bp hmem) (lt_irrefl _)
  · exact absurd (hright bp hmem) (lt_irrefl _)

/-- The block does not meet the one above it. -/
theorem FreeList.split_apart (hne : bp + UNIT * (mem bp).size ≠ ptr mem (left.getLastD base)) :
    Split base (Function.update mem bp ⟨ptr mem (left.getLastD base), (mem bp).size⟩) regions left bp
      right used := by
  have hnot := not_mem_right hleft hright
  have hbp : base < bp := h.base_lt hr (by simp)
  obtain ⟨hpathL, hpathR⟩ := h.path.split
  refine ⟨?_, ⟨_, hpathL.congr fun x hx ↦ ?_⟩, hpathR.restart ?_ fun x hx ↦ ?_, ?_, ?_, hleft, ?_⟩
  · rw [size_setPtr]
    exact h.baseSize
  · rw [ptr_update, Function.update_of_ne]
    rcases List.mem_cons.mp hx with rfl | hx
    · exact hbp.ne
    · exact (hleft x hx).ne
  · rw [ptr_update, Function.update_self]
  · rw [ptr_update, Function.update_of_ne (hright x hx).ne']
  · rw [gap_setPtr]
    exact (List.pairwise_append.mp h.gaps).1
  · rw [gap_setPtr]
    refine .cons (fun a ha ↦ ?_) (List.pairwise_append.mp h.gaps).2.1
    cases right with
    | nil => cases ha
    | cons r right =>
      -- The block ends at or below `r`, and does not meet it.
      have hle := h.tiles.stop_le hr (a := bp) (b := r) (by simp) (by simp)
        (hright r List.mem_cons_self)
      have hr' : bp + UNIT * (mem bp).size ≠ r := fun heq ↦ hne (heq.trans hpathR.1.symm)
      have hra : r ≤ a := by
        rcases List.mem_cons.mp ha with rfl | ha
        · exact le_rfl
        · exact ((List.pairwise_cons.mp (List.pairwise_append.mp h.sorted).2.1).1 a ha).le
      simp only [Gap]
      omega
  · refine (h.tiles.perm ?_).setPtr _ _
    rw [List.append_assoc, List.append_assoc]
    exact List.perm_middle.append_left left

/-- The block meets the one above it, and takes it in. -/
theorem FreeList.split_join (heq : bp + UNIT * (mem bp).size = ptr mem (left.getLastD base)) :
    ∃ right', Split base (Function.update mem bp ⟨ptr mem (ptr mem (left.getLastD base)),
      ((mem bp).size + (mem (ptr mem (left.getLastD base))).size) % 2 ^ 32⟩) regions left bp
      right' used ∧
      (mem bp).size ≤ ((mem bp).size + (mem (ptr mem (left.getLastD base))).size) % 2 ^ 32 := by
  have hnot := not_mem_right hleft hright
  have hbp : base < bp := h.base_lt hr (by simp)
  obtain ⟨hpathL, hpathR⟩ := h.path.split
  cases right with
  | nil =>
    rw [show ptr mem (left.getLastD base) = base from hpathR] at heq
    omega
  | cons r right =>
    have hnext : ptr mem (left.getLastD base) = r := hpathR.1
    rw [hnext] at heq ⊢
    obtain ⟨hgapsL, hgapsR, -⟩ := List.pairwise_append.mp h.gaps
    obtain ⟨hgap, hgapsR⟩ := List.pairwise_cons.mp hgapsR
    have htiles : Tiles mem regions (bp :: r :: (left ++ right ++ used)) := by
      refine h.tiles.perm (List.perm_middle.trans (.cons bp ?_))
      rw [List.append_assoc, List.append_assoc, List.cons_append]
      exact List.perm_middle
    have hmod := Nat.mod_eq_of_lt (htiles.add_lt hr)
    refine ⟨right, ⟨?_, ⟨_, hpathL.congr fun x hx ↦ ?_⟩, hpathR.2.restart ?_ fun x hx ↦ ?_,
      gaps_update ?_ hgapsL, .cons (fun a ha ↦ ?_) (gaps_update ?_ hgapsR), hleft, ?_⟩,
      (Nat.le_add_right _ _).trans_eq hmod.symm⟩
    · rw [Function.update_of_ne hbp.ne]
      exact h.baseSize
    · rw [ptr_update, Function.update_of_ne]
      rcases List.mem_cons.mp hx with rfl | hx
      · exact hbp.ne
      · exact (hleft x hx).ne
    · rw [ptr_update, Function.update_self]
    · rw [ptr_update, Function.update_of_ne (hright x (List.mem_cons_of_mem _ hx)).ne']
    · exact fun hmem ↦ hnot (List.mem_append_left _ hmem)
    · have hstop := hgap a ha
      rw [Gap] at hstop
      rw [Gap, Function.update_self, hmod, Nat.mul_add, ← Nat.add_assoc, heq]
      exact hstop
    · exact fun hmem ↦ hnot (List.mem_append_right _ (List.mem_cons_of_mem _ hmem))
    · refine (htiles.join hr heq hmod).perm ?_
      rw [List.append_assoc, List.append_assoc]
      exact List.perm_middle.symm

end Join

namespace Split

variable {left right used : List ℕ} {bp : ℕ} (h : Split base mem regions left bp right used)
  (hr : Regions base regions)

include h hr

theorem nodup : (base :: (left ++ bp :: right)).Nodup := by
  have hnodup := (List.nodup_append.mp (h.tiles.nodup hr)).1
  refine List.nodup_cons.mpr ⟨fun hmem ↦ ?_, hnodup⟩
  have habove := h.tiles.above hr (List.mem_append_left _ hmem)
  exact absurd habove (Nat.not_le_of_lt (Nat.lt_add_of_pos_right (by decide)))

/-- The last node below the block is none of the others. -/
theorem last_not_mem : left.getLastD base ∉ bp :: right := by
  have hnodup := h.nodup hr
  rw [← List.cons_append] at hnodup
  exact fun hmem ↦ (List.nodup_append.mp hnodup).2.2 _ (Path.last_mem base left) _ hmem rfl

theorem nodup_left : (base :: left).Nodup := by
  have hnodup := h.nodup hr
  rw [← List.cons_append] at hnodup
  exact (List.nodup_append.mp hnodup).1

omit hr in
theorem below_right (ha : a ∈ right) : bp < a :=
  lt_of_le_of_lt (Nat.le_add_right bp _) ((List.pairwise_cons.mp h.gaps_right).1 a ha)

theorem stop_lt (hne : left.getLastD base + UNIT * (mem (left.getLastD base)).size ≠ bp)
    (ha : a ∈ left) : a + UNIT * (mem a).size < bp := by
  cases left with
  | nil => cases ha
  | cons x left =>
    rw [List.getLastD_cons] at hne
    by_cases hlast : a = left.getLastD x
    · rw [← hlast] at hne
      refine lt_of_le_of_ne (h.tiles.stop_le hr ?_ (by simp) (h.below a ha)) hne
      exact List.mem_append_left _ (List.mem_append_left _ ha)
    · have hgap : Gap mem a (left.getLastD x) := Path.rel_last h.gaps_left ha hlast
      exact lt_trans hgap (h.below _ (Path.last_mem x left))

/-- The block does not meet the one below it. -/
theorem link (hne : left.getLastD base + UNIT * (mem (left.getLastD base)).size ≠ bp) :
    FreeList base (Function.update mem (left.getLastD base)
      ⟨bp, (mem (left.getLastD base)).size⟩) regions (left ++ bp :: right) used := by
  obtain ⟨q, hpathL⟩ := h.pathL
  refine ⟨?_, ?_, ?_, h.tiles.setPtr _ _⟩
  · rw [size_setPtr]
    exact h.baseSize
  · rw [ptr_update]
    exact hpathL.insert (h.nodup_left hr) h.pathR (h.last_not_mem hr)
  · rw [gap_setPtr]
    refine List.pairwise_append.mpr ⟨h.gaps_left, h.gaps_right, fun a ha b hb ↦ ?_⟩
    have hstop := h.stop_lt hr hne ha
    rcases List.mem_cons.mp hb with rfl | hb
    · exact hstop
    · exact hstop.trans (h.below_right hb)

/-- The block meets the one below it, which takes it in. -/
theorem merge (heq : left.getLastD base + UNIT * (mem (left.getLastD base)).size = bp) :
    FreeList base (Function.update mem (left.getLastD base) ⟨ptr mem bp,
      ((mem (left.getLastD base)).size + (mem bp).size) % 2 ^ 32⟩) regions (left ++ right) used ∧
      left.getLastD base ∈ left ∧
      (mem bp).size ≤ ((mem (left.getLastD base)).size + (mem bp).size) % 2 ^ 32 := by
  obtain ⟨q, hpathL⟩ := h.pathL
  have hpath := hpathL.splice (h.nodup_left hr) h.pathR
    fun hmem ↦ h.last_not_mem hr (List.mem_cons_of_mem _ hmem)
  have hnodup := h.nodup hr
  rcases List.eq_nil_or_concat' left with rfl | ⟨init, p, rfl⟩
  · -- `base` has no memory and lies below the block.
    rw [List.getLastD_nil, h.baseSize, Nat.mul_zero, Nat.add_zero] at heq
    exact absurd (heq ▸ List.mem_cons_self) (List.nodup_cons.mp hnodup).1
  rw [List.getLastD_concat] at heq hpath ⊢
  have htiles : Tiles mem regions (p :: bp :: (init ++ right ++ used)) := by
    refine h.tiles.perm ?_
    simp only [List.append_assoc, List.cons_append]
    exact List.perm_middle.trans (.cons p List.perm_middle)
  have hmod := Nat.mod_eq_of_lt (htiles.add_lt hr)
  have hp : p ∉ init ++ right := fun hmem ↦
    (List.nodup_cons.mp (htiles.nodup hr)).1
      (List.mem_cons_of_mem _ (List.mem_append_left _ hmem))
  refine ⟨⟨?_, ?_, ?_, ?_⟩, by simp, (Nat.le_add_left _ _).trans_eq hmod.symm⟩
  · rw [Function.update_of_ne]
    · exact h.baseSize
    · rintro rfl
      exact (List.nodup_cons.mp hnodup).1 (by simp)
  · rw [ptr_update]
    exact hpath
  · obtain ⟨hinit, -, hinitp⟩ := List.pairwise_append.mp h.gaps_left
    obtain ⟨hbp, hright⟩ := List.pairwise_cons.mp h.gaps_right
    rw [List.append_assoc, List.singleton_append]
    have hstop : p + UNIT * (mem p).size + UNIT * (mem bp).size = bp + UNIT * (mem bp).size := by
      rw [heq]
    have hbelow : ∀ b ∈ p :: right, p ≤ b := fun b hb ↦ by
      rcases List.mem_cons.mp hb with rfl | hb
      · exact le_rfl
      · exact ((h.below p (by simp)).trans (h.below_right hb)).le
    refine List.pairwise_append.mpr ⟨gaps_update ?_ hinit, .cons (fun b hb ↦ ?_)
      (gaps_update ?_ hright), fun a ha b hb ↦ ?_⟩
    · exact fun hmem ↦ hp (List.mem_append_left _ hmem)
    · rw [Gap, Function.update_self, hmod, Nat.mul_add, ← Nat.add_assoc, hstop]
      exact hbp b hb
    · exact fun hmem ↦ hp (List.mem_append_right _ hmem)
    · have hap : a ≠ p := ne_of_mem_of_not_mem (List.mem_append_left _ ha) hp
      rw [Gap, Function.update_of_ne hap]
      exact lt_of_lt_of_le (hinitp a ha p (by simp)) (hbelow b hb)
  · refine (htiles.join hr heq hmod).perm ?_
    simp only [List.append_assoc, List.singleton_append]
    exact List.perm_middle.symm

end Split

/-! ## Adding memory -/

section Add

variable {nodes used : List ℕ} {p nu : ℕ}

/-- What was there before lies below the new memory. -/
theorem Tiles.lt_of_region_le (h : Tiles mem regions l)
    (hend : ∀ r ∈ regions, r.addr + UNIT * r.units ≤ p) (ha : a ∈ l) : a < p := by
  obtain ⟨r, hmem, hra⟩ := h.exists_region ha
  exact lt_of_lt_of_le hra.1.2 (hend r hmem)

theorem Regions.add (hr : Regions base regions) (hbase : base + UNIT ≤ p)
    (hend : ∀ r ∈ regions, r.addr + UNIT * r.units ≤ p)
    (hsmall : (regions.map Region.units).sum + nu < 2 ^ 32) : Regions base (⟨p, nu⟩ :: regions) where
  apart := by
    refine .cons (fun i hi x hx hxi ↦ ?_) hr.apart
    obtain ⟨r, hmem, rfl⟩ := List.mem_map.mp hi
    exact absurd hx.1 (Nat.not_le_of_lt (lt_of_lt_of_le hxi.2 (hend r hmem)))
  above r hmem := by
    rcases List.mem_cons.mp hmem with rfl | hmem
    · exact hbase
    · exact hr.above r hmem
  small := by
    rw [List.map_cons, List.sum_cons, Nat.add_comm]
    exact hsmall

/-- The new memory is one block. -/
theorem Tiles.add (h : Tiles mem regions l) (hp : p ∉ l) (hsize : 0 < header.size) :
    Tiles (Function.update mem p header) (⟨p, header.size⟩ :: regions) (p :: l) := by
  refine ⟨fun a ha ↦ ?_, fun x r ↦ ?_, ?_⟩
  · rcases List.mem_cons.mp ha with rfl | ha
    · rw [Function.update_self]
      exact hsize
    · rw [Function.update_of_ne (ne_of_mem_of_not_mem ha hp)]
      exact h.size a ha
  · rw [List.map_cons, List.map_cons, map_block_update hp, cover_cons, cover_cons, h.cover, block,
      Function.update_self, Region.interval]
  · have hrest : sizes (Function.update mem p header) l = sizes mem l := sizes_update hp
    rw [sizes] at hrest
    rw [sizes, List.map_cons, List.sum_cons, hrest, Function.update_self, List.map_cons,
      List.sum_cons, ← h.units, sizes]

/-- The new block is not on the list yet. -/
theorem FreeList.add (h : FreeList base mem regions nodes used) (hbase : base + UNIT ≤ p)
    (hend : ∀ r ∈ regions, r.addr + UNIT * r.units ≤ p) (hsize : 0 < header.size) :
    FreeList base (Function.update mem p header) (⟨p, header.size⟩ :: regions) nodes (p :: used) := by
  have hp : p ∉ nodes ++ used := fun hmem ↦
    absurd (h.tiles.lt_of_region_le hend hmem) (lt_irrefl p)
  have hnodes : p ∉ base :: nodes := by
    rw [List.mem_cons, not_or]
    refine ⟨fun heq ↦ ?_, fun hmem ↦ hp (List.mem_append_left _ hmem)⟩
    rw [heq] at hbase
    exact absurd hbase (Nat.not_le_of_lt (Nat.lt_add_of_pos_right (by decide)))
  refine ⟨?_, h.path.congr fun x hx ↦ ?_, gaps_update ?_ h.gaps, ?_⟩
  · rw [Function.update_of_ne (ne_of_mem_of_not_mem List.mem_cons_self hnodes)]
    exact h.baseSize
  · rw [ptr_update, Function.update_of_ne (ne_of_mem_of_not_mem hx hnodes)]
  · exact fun hmem ↦ hnodes (List.mem_cons_of_mem _ hmem)
  · exact (h.tiles.add hp hsize).perm List.perm_middle.symm

end Add

/-! ## Taking memory off the list -/

section Take

variable {left right nodes used : List ℕ} {p prevp : ℕ}

/-- A block of the list is skipped. -/
theorem FreeList.unlink (h : FreeList base mem regions (left ++ p :: right) used)
    (hr : Regions base regions) :
    FreeList base (Function.update mem (left.getLastD base)
      ⟨ptr mem p, (mem (left.getLastD base)).size⟩) regions (left ++ right) (p :: used) := by
  obtain ⟨hleft, hright⟩ := path_append.mp h.path
  have hnodup := h.nodup hr
  rw [← List.cons_append] at hnodup
  obtain ⟨hnodupL, -, hdisjoint⟩ := List.nodup_append.mp hnodup
  refine ⟨?_, ?_, ?_, ?_⟩
  · rw [size_setPtr]
    exact h.baseSize
  · rw [ptr_update]
    refine hleft.splice hnodupL hright fun hmem ↦ ?_
    exact hdisjoint _ (Path.last_mem base left) _ (List.mem_cons_of_mem _ hmem) rfl
  · rw [gap_setPtr]
    exact h.gaps.sublist (.append_left (List.sublist_cons_self p right) left)
  · refine (h.tiles.perm ?_).setPtr _ _
    simp only [List.append_assoc, List.cons_append]
    exact (List.perm_middle.symm.append_left left)

/-- A block is cut in two. -/
theorem Tiles.cut {header' : Header} (h : Tiles mem regions (a :: l))
    (ha : a ∉ l) (hb : b ∉ l) (hab : b = a + UNIT * header.size) (hpos : 0 < header.size)
    (hpos' : 0 < header'.size) (hsize : (mem a).size = header.size + header'.size) :
    Tiles (Function.update (Function.update mem a header) b header') regions (a :: b :: l) := by
  have hne : a ≠ b := by
    simp only [UNIT] at hab
    omega
  refine ⟨fun c hc ↦ ?_, fun x r ↦ ?_, ?_⟩
  · rcases List.mem_cons.mp hc with rfl | hc
    · rw [Function.update_of_ne hne, Function.update_self]
      exact hpos
    rcases List.mem_cons.mp hc with rfl | hc
    · rw [Function.update_self]
      exact hpos'
    · rw [Function.update_of_ne (ne_of_mem_of_not_mem hc hb),
        Function.update_of_ne (ne_of_mem_of_not_mem hc ha)]
      exact h.size c (List.mem_cons_of_mem _ hc)
  · have hcover := h.cover x r
    have hdvd : UNIT ∣ b - a := ⟨header.size, by omega⟩
    have hstop : a + UNIT * (mem a).size = b + UNIT * header'.size := by
      rw [hsize, Nat.mul_add, hab, Nat.add_assoc]
    simp only [List.map_cons] at hcover ⊢
    rw [map_block_update hb, map_block_update ha, block, Function.update_of_ne hne,
      Function.update_self, block, Function.update_self, ← hab,
      cover_join (by omega) (by omega) hdvd, ← hcover, block, hstop]
  · have hunits := h.units
    simp only [sizes, List.map_cons, List.sum_cons] at hunits ⊢
    have hrest : sizes (Function.update (Function.update mem a header) b header') l =
        sizes mem l := by rw [sizes_update hb, sizes_update ha]
    simp only [sizes] at hrest
    rw [hrest, Function.update_of_ne hne, Function.update_self, Function.update_self]
    omega

/-- A block gives the units at its end. -/
theorem FreeList.cut {rest n : ℕ} (h : FreeList base mem regions nodes used)
    (hr : Regions base regions) (hp : p ∈ nodes) (hrest : 0 < rest) (hn : 0 < n)
    (hsize : (mem p).size = rest + n) (q : ℕ) :
    FreeList base
      (Function.update (Function.update mem p ⟨ptr mem p, rest⟩) (p + UNIT * rest) ⟨q, n⟩)
      regions nodes ((p + UNIT * rest) :: used) := by
  have hlt : p < p + UNIT * rest := by
    simp only [UNIT]
    omega
  have hnot : p + UNIT * rest ∉ nodes ++ used := fun hmem ↦ by
    have hle := h.tiles.stop_le hr (List.mem_append_left _ hp) hmem hlt
    simp only [UNIT] at hle
    omega
  have hbase : base < p := h.base_lt hr (List.mem_append_left _ hp)
  obtain ⟨left, right, rfl⟩ := List.append_of_mem hp
  have htiles : Tiles mem regions (p :: (left ++ right ++ used)) := by
    refine h.tiles.perm ?_
    simp only [List.append_assoc, List.cons_append]
    exact List.perm_middle
  refine ⟨?_, h.path.congr fun x hx ↦ ?_, ?_, ?_⟩
  · rw [Function.update_of_ne (hbase.trans hlt).ne, Function.update_of_ne hbase.ne]
    exact h.baseSize
  · have hne : x ≠ p + UNIT * rest := by
      rcases List.mem_cons.mp hx with rfl | hx
      · exact (hbase.trans hlt).ne
      · exact ne_of_mem_of_not_mem (List.mem_append_left _ hx) hnot
    rw [ptr_update, ptr_update, Function.update_of_ne hne, Function.update_eq_self]
  · refine gaps_update (fun hmem ↦ hnot (List.mem_append_left _ hmem)) (h.gaps.imp fun {a b} hgap ↦ ?_)
    by_cases ha : a = p
    · subst ha
      rw [Gap, Function.update_self]
      rw [Gap, hsize, Nat.mul_add] at hgap
      exact lt_of_le_of_lt (by omega : a + UNIT * rest ≤ a + (UNIT * rest + UNIT * n)) hgap
    · rw [Gap, Function.update_of_ne ha]
      exact hgap
  · refine (htiles.cut ?_ ?_ rfl hrest hn hsize).perm ?_
    · exact (List.nodup_cons.mp (htiles.nodup hr)).1
    · refine fun hmem ↦ hnot ?_
      simp only [List.mem_append, List.mem_cons] at hmem ⊢
      tauto
    · -- The new block moves behind the nodes.
      refine (List.Perm.swap ..).trans (List.Perm.symm (List.perm_middle.trans (.cons _ ?_)))
      simp only [List.append_assoc, List.cons_append]
      exact List.perm_middle

end Take

end Xv6.Umalloc
