import Xv6.Lib.Run
import Xv6.Umalloc.FreeList

/-!
# Runs of the Allocator

`free` puts its block on the list; `malloc` takes one off, or cuts a part from its end.  Both find
what they search for within one round of the list, and keep it a list of all the memory that the
program does not have.
-/

namespace Xv6.Umalloc

open Lib

variable {base : ℕ} {s : Heap} {nodes used left right : List ℕ} {bp p nu : ℕ}

/-- The free blocks of the heap are `nodes`; the blocks `used` are not on the list. -/
structure Linked (base : ℕ) (s : Heap) (nodes used : List ℕ) : Prop where
  regions : Regions base s.regions
  list : FreeList base s.mem s.regions nodes used
  freep : s.freep ∈ base :: nodes

/-- There is a free block of `n` units. -/
def Fits (mem : ℕ → Header) (nodes : List ℕ) (n : ℕ) : Prop := ∃ a ∈ nodes, n ≤ (mem a).size

/-! ## `free` -/

theorem wp_setHeader {Q : Unit → Heap → Prop} {E : Stop → Prop} (p : ℕ) (header : Header) :
    wp (setHeader p header) Q E s ↔ Q () { s with mem := Function.update s.mem p header } :=
  wp_modify _

/-- The block joins the ones above it. -/
theorem joinAbove_spec {E : Stop → Prop} (hr : Regions base s.regions)
    (h : FreeList base s.mem s.regions (left ++ right) (bp :: used)) (hleft : ∀ a ∈ left, a < bp)
    (hright : ∀ a ∈ right, bp < a) :
    wp (joinAbove bp (left.getLastD base)) (fun _ s' ↦ ∃ mem right', s' = { s with mem := mem } ∧
      Split base mem s.regions left bp right' used ∧ (s.mem bp).size ≤ (mem bp).size) E s := by
  rw [joinAbove, wp_bind, wp_get]
  dsimp only
  split
  · rename_i heq
    obtain ⟨right', hsplit, hsize⟩ := h.split_join hr hleft hright heq
    refine (wp_setHeader _ _).mpr ⟨_, right', rfl, hsplit, ?_⟩
    rw [Function.update_self]
    exact hsize
  · rename_i hne
    refine (wp_setHeader _ _).mpr ⟨_, right, rfl, h.split_apart hr hleft hright hne, ?_⟩
    rw [Function.update_self]

/-- The block joins the ones below it. -/
theorem joinBelow_spec {E : Stop → Prop} (hr : Regions base s.regions)
    (h : Split base s.mem s.regions left bp right used) :
    wp (joinBelow bp (left.getLastD base)) (fun _ s' ↦ ∃ mem nodes, s' = { s with mem := mem } ∧
      FreeList base mem s.regions nodes used ∧ left.getLastD base ∈ base :: nodes ∧
      Fits mem nodes (s.mem bp).size) E s := by
  have hlast : ∀ l, left.getLastD base ∈ base :: (left ++ l) := fun l ↦ by
    rw [← List.cons_append]
    exact List.mem_append_left _ (Path.last_mem base left)
  rw [joinBelow, wp_bind, wp_get]
  dsimp only
  split
  · rename_i heq
    obtain ⟨hlist, hmem, hsize⟩ := h.merge hr heq
    refine (wp_setHeader _ _).mpr ⟨_, _, rfl, hlist, hlast right, left.getLastD base,
      List.mem_append_left _ hmem, ?_⟩
    rw [Function.update_self]
    exact hsize
  · rename_i hne
    refine (wp_setHeader _ _).mpr ⟨_, _, rfl, h.link hr hne, hlast _, bp, by simp, ?_⟩
    rw [size_setPtr]

/-- `free` puts its block on the list. -/
theorem free_spec {E : Stop → Prop} (h : Linked base s nodes (bp :: used)) :
    wp (free (bp + UNIT)) (fun _ s' ↦ ∃ nodes', Linked base s' nodes' used ∧
      Fits s'.mem nodes' (s.mem bp).size ∧ s'.regions = s.regions ∧ s'.allocated = s.allocated)
      E s := by
  have hnot : bp ∉ nodes := fun hmem ↦
    (List.nodup_append.mp (h.list.tiles.nodup h.regions)).2.2 bp hmem bp List.mem_cons_self rfl
  have hbase : base < bp := h.list.base_lt h.regions (by simp)
  obtain ⟨left, right, rfl, hleft, hright⟩ := exists_split h.list.sorted hnot
  obtain ⟨l, hpath, hperm⟩ := h.list.path.rotate h.freep
  have hlength : l.length < s.units + 1 := by
    have heq := hperm.length_eq
    have hle := h.list.length_le
    simp only [List.length_cons, Heap.units] at heq hle ⊢
    omega
  have hlast : left.getLastD base ∈ s.freep :: l := by
    rw [hperm.mem_iff, ← List.cons_append]
    exact List.mem_append_left _ (Path.last_mem base left)
  rw [free, Nat.add_sub_cancel]
  simp only [wp_bind, wp_get]
  refine wp_post (freeLoop_spec hpath hlast (fun x hx ↦ ?_) hlength) ?_
  · exact h.list.stops_iff h.regions hbase hleft hright (hperm.mem_iff.mp hx)
  rintro _ _ ⟨rfl, rfl⟩
  refine wp_post (joinAbove_spec h.regions h.list hleft hright) ?_
  rintro _ _ ⟨mem, right', rfl, hsplit, hsize⟩
  refine wp_post (joinBelow_spec h.regions hsplit) ?_
  rintro _ _ ⟨mem', nodes', rfl, hlist, hfreep, a, ha, hfits⟩
  exact ⟨nodes', ⟨h.regions, hlist, hfreep⟩, ⟨a, ha, hsize.trans hfits⟩, rfl, rfl⟩

/-- Memory that is added to the heap is put on the list as one block. -/
theorem grow_spec (h : Linked base s nodes used) :
    wp (grow base p nu) (fun _ s' ↦ ∃ nodes', Linked base s' nodes' used ∧
      Fits s'.mem nodes' nu ∧ s'.units = s.units + nu ∧ s'.allocated = s.allocated)
      (· = .disabled) s := by
  rw [grow, wp_bind, wp_get]
  dsimp only
  split
  · rename_i hguard
    obtain ⟨hpos, hsmall, hbase, hend⟩ := hguard
    simp only [wp_bind, wp_set, wp_setHeader]
    have hlist : FreeList base (Function.update s.mem p ⟨(s.mem p).ptr, nu⟩) (⟨p, nu⟩ :: s.regions)
        nodes (p :: used) := h.list.add hbase hend hpos
    refine wp_post (free_spec ⟨h.regions.add hbase hend hsmall, hlist, h.freep⟩) ?_
    rintro _ s' ⟨nodes', hlinked, hfits, hregions, hallocated⟩
    refine ⟨nodes', hlinked, ?_, ?_, hallocated⟩
    · simp only [Function.update_self] at hfits
      exact hfits
    · rw [Heap.units, hregions, Heap.units, List.map_cons, List.sum_cons, Nat.add_comm]
  · exact (wp_throw _).mpr rfl

/-! ## `malloc` -/

/-- What `malloc` returns is a block of `n` units that is not on the list any more. -/
structure Took (base : ℕ) (s : Heap) (used : List ℕ) (n ap : ℕ) (s' : Heap) : Prop where
  le : UNIT ≤ ap
  size : (s'.mem (ap - UNIT)).size = n
  allocated : s'.allocated = (ap - UNIT) :: s.allocated
  linked : ∃ nodes, Linked base s' nodes ((ap - UNIT) :: used)

/-- The node behind `prevp` is a free block, unless it has no memory. -/
theorem Linked.exists_split {prevp : ℕ} (h : Linked base s nodes used)
    (hprev : prevp ∈ base :: nodes) (hsize : 0 < (s.mem (ptr s.mem prevp)).size) :
    ∃ left right, nodes = left ++ ptr s.mem prevp :: right ∧ prevp = left.getLastD base := by
  have hmem : ptr s.mem prevp ∈ nodes := by
    rcases List.mem_append.mp (h.list.path.next_mem hprev) with hmem | hmem
    · exact hmem
    · rw [List.mem_singleton.mp hmem, h.list.baseSize] at hsize
      exact absurd hsize (lt_irrefl 0)
  obtain ⟨left, right, heq⟩ := List.append_of_mem hmem
  refine ⟨left, right, heq, ?_⟩
  have hnodup : (nodes ++ [base]).Nodup :=
    List.perm_append_comm.nodup_iff.mp (h.list.nodup h.regions)
  refine h.list.path.eq_of_next hnodup hprev ?_ ?_
  · rw [heq, ← List.cons_append]
    exact List.mem_append_left _ (Path.last_mem base left)
  · have hpath := h.list.path
    rw [heq] at hpath
    exact (path_append.mp hpath).1.next_last.symm

/-- A block is taken from the node behind `prevp`. -/
theorem take_spec {E : Stop → Prop} {n prevp : ℕ} (h : Linked base s nodes used) (hn : 0 < n)
    (hprev : prevp ∈ base :: nodes) (hsize : n ≤ (s.mem (ptr s.mem prevp)).size) :
    wp (take n prevp (ptr s.mem prevp)) (fun ap s' ↦ Took base s used n ap s') E s := by
  obtain ⟨left, right, heq, hlast⟩ := h.exists_split hprev (hn.trans_le hsize)
  rw [take, wp_bind, wp_get]
  dsimp only
  split
  · -- The block is taken as it is.
    rename_i hexact
    simp only [wp_bind, wp_setHeader, wp_pure, wp_modify]
    have hlist := (heq ▸ h.list).unlink h.regions
    rw [← hlast] at hlist
    refine ⟨by simp, ?_, rfl, left ++ right, h.regions, hlist, ?_⟩
    · rw [Nat.add_sub_cancel, size_setPtr]
      exact hexact
    · rw [← List.cons_append, hlast]
      exact List.mem_append_left _ (Path.last_mem base left)
  · -- The units at the end of the block are taken.
    rename_i hne
    simp only [wp_bind, wp_setHeader, wp_pure, wp_modify]
    have hmem : ptr s.mem prevp ∈ nodes := by simp [heq]
    have hlist := h.list.cut h.regions hmem (Nat.sub_pos_of_lt (lt_of_le_of_ne hsize (Ne.symm hne)))
      hn (Nat.sub_add_cancel hsize).symm
    refine ⟨by simp, ?_, rfl, nodes, h.regions, hlist _, hprev⟩
    simp only [Nat.add_sub_cancel, Function.update_self]

section Search

variable {n prevp fuel : ℕ} {sbrk : Option ℕ} {Q : Option ℕ → Heap → Prop} {E : Stop → Prop}

theorem mallocLoop_fits (hp : n ≤ (s.mem p).size) :
    wp (mallocLoop base n sbrk (fuel + 1) prevp p) Q E s ↔
      wp (take n prevp p) (fun ap s' ↦ Q (some ap) s') E s := by
  rw [mallocLoop, wp_bind, wp_get, if_pos hp, wp_bind]
  simp only [wp_pure]

theorem mallocLoop_next (hp : ¬ n ≤ (s.mem p).size) (hfreep : p ≠ s.freep) :
    wp (mallocLoop base n sbrk (fuel + 1) prevp p) Q E s ↔
      wp (mallocLoop base n sbrk fuel p (ptr s.mem p)) Q E s := by
  rw [mallocLoop, wp_bind, wp_get, if_neg hp, if_neg hfreep, ptr]

theorem mallocLoop_more (hp : ¬ n ≤ (s.mem s.freep).size)
    (hmore : wp (morecore base n sbrk) (fun r s' ↦ match r with
      | none => Q none s'
      | some p => wp (mallocLoop base n sbrk fuel p (ptr s'.mem p)) Q E s') E s) :
    wp (mallocLoop base n sbrk (fuel + 1) prevp s.freep) Q E s := by
  rw [mallocLoop, wp_bind, wp_get, if_neg hp, if_pos rfl, wp_bind]
  refine wp_post hmore fun r s' h ↦ ?_
  cases r with
  | none => exact h
  | some p => exact wp_bind.mpr h

/-- The loop of `malloc` goes round the list once.  It takes a block from the first node that is
large enough; where there is none, it asks for memory at the end of the round. -/
theorem mallocLoop_search {l : List ℕ} (hpath : Path (ptr s.mem) prevp l s.freep)
    (hfreep : s.freep ∉ l)
    (htake : ∀ x ∈ prevp :: l, n ≤ (s.mem (ptr s.mem x)).size →
      wp (take n x (ptr s.mem x)) (fun ap s' ↦ Q (some ap) s') E s)
    (hmore : (∀ x ∈ l ++ [s.freep], (s.mem x).size < n) →
      wp (morecore base n sbrk) (fun r s' ↦ match r with
        | none => Q none s'
        | some p => wp (mallocLoop base n sbrk fuel p (ptr s'.mem p)) Q E s') E s) :
    wp (mallocLoop base n sbrk (fuel + l.length + 1) prevp (ptr s.mem prevp)) Q E s := by
  induction l generalizing prevp with
  | nil =>
    by_cases hfits : n ≤ (s.mem (ptr s.mem prevp)).size
    · exact (mallocLoop_fits hfits).mpr (htake prevp List.mem_cons_self hfits)
    rw [show ptr s.mem prevp = s.freep from hpath] at hfits ⊢
    refine mallocLoop_more hfits (hmore fun x hx ↦ ?_)
    rw [List.mem_singleton.mp hx]
    exact Nat.lt_of_not_le hfits
  | cons x l ih =>
    by_cases hfits : n ≤ (s.mem (ptr s.mem prevp)).size
    · exact (mallocLoop_fits hfits).mpr (htake prevp List.mem_cons_self hfits)
    rw [hpath.1] at hfits ⊢
    rw [List.mem_cons, not_or] at hfreep
    refine (mallocLoop_next hfits (Ne.symm hfreep.1)).mpr ?_
    refine ih hpath.2 hfreep.2 (fun y hy ↦ htake y (List.mem_cons_of_mem _ hy)) fun hsmall ↦ ?_
    refine hmore fun y hy ↦ ?_
    rcases List.mem_cons.mp hy with rfl | hy
    · exact Nat.lt_of_not_le hfits
    · exact hsmall y hy

/-- One round of the loop of `malloc`. -/
theorem mallocLoop_round (h : Linked base s nodes used) (hn : 0 < n) (hfuel : s.units < fuel)
    (htook : ∀ ap s', Took base s used n ap s' → Q (some ap) s')
    (hmore : ¬ Fits s.mem nodes n → ∀ fuel', fuel ≤ fuel' + (s.units + 1) →
      wp (morecore base n sbrk) (fun r s' ↦ match r with
        | none => Q none s'
        | some p => wp (mallocLoop base n sbrk fuel' p (ptr s'.mem p)) Q E s') E s) :
    wp (mallocLoop base n sbrk fuel s.freep (ptr s.mem s.freep)) Q E s := by
  obtain ⟨l, hpath, hperm⟩ := h.list.path.rotate h.freep
  have hlength : l.length ≤ s.units := by
    have heq := hperm.length_eq
    have hle := h.list.length_le
    simp only [List.length_cons, Heap.units] at heq hle ⊢
    omega
  have hfreep : s.freep ∉ l :=
    (List.nodup_cons.mp (hperm.nodup_iff.mpr (h.list.nodup h.regions))).1
  obtain ⟨fuel', rfl⟩ : ∃ fuel', fuel = fuel' + l.length + 1 := ⟨fuel - l.length - 1, by omega⟩
  refine mallocLoop_search hpath hfreep (fun x hx hsize ↦ ?_) fun hsmall ↦ ?_
  · exact wp_post (take_spec h hn (hperm.mem_iff.mp hx) hsize) htook
  · refine hmore ?_ fuel' (by omega)
    rintro ⟨a, ha, hsize⟩
    refine absurd hsize (Nat.not_le_of_lt (hsmall a ?_))
    rw [List.perm_append_comm.mem_iff]
    exact hperm.mem_iff.mpr (List.mem_cons_of_mem _ ha)

end Search

/-- `malloc` returns a block of the units that were asked for, or nothing. -/
def Returned (base : ℕ) (s : Heap) (used : List ℕ) (n : ℕ) (r : Option ℕ) (s' : Heap) : Prop :=
  match r with
  | none => s' = s
  | some ap => Took base s used n ap s'

theorem Linked.freep_ne_zero (h : Linked base s nodes used) (hbase : 0 < base) : s.freep ≠ 0 := by
  rcases List.mem_cons.mp h.freep with heq | hmem
  · rw [heq]
    exact hbase.ne'
  · exact (hbase.trans (h.list.base_lt h.regions (List.mem_append_left _ hmem))).ne'

/-- `malloc` takes a block off the list, after the heap has grown if there is none that is large
enough. -/
theorem malloc_spec {nbytes : ℕ} {sbrk : Option ℕ} (h : Linked base s nodes used)
    (hbase : 0 < base) :
    wp (malloc base nbytes sbrk) (Returned base s used (nunits nbytes)) (· = .disabled) s := by
  have hn : 0 < nunits nbytes := Nat.succ_pos _
  rw [malloc]
  simp only [wp_bind, wp_get]
  rw [if_neg (h.freep_ne_zero hbase)]
  refine mallocLoop_round h hn (by omega) (fun ap s' htook ↦ htook) fun _ fuel hfuel ↦ ?_
  cases sbrk with
  | none => exact (wp_pure none).mpr rfl
  | some p =>
    rw [morecore, wp_bind]
    refine wp_post (grow_spec h) ?_
    rintro _ s₁ ⟨nodes', hlinked, hfits, hunits, hallocated⟩
    -- The second round finds the new block.
    refine mallocLoop_round hlinked hn (by omega) (fun ap s' htook ↦ ?_) fun hnot ↦ ?_
    · exact ⟨htook.le, htook.size, hallocated ▸ htook.allocated, htook.linked⟩
    · obtain ⟨a, ha, hsize⟩ := hfits
      exact absurd ⟨a, ha, (le_max_left _ _).trans hsize⟩ hnot

/-! ## Programs -/

/-- The invariant of the heap: what is not on the list was returned by `malloc`. -/
def Inv (base : ℕ) (s : Heap) : Prop := ∃ nodes, Linked base s nodes s.allocated

theorem inv_empty (base : ℕ) : Inv base (empty base) := by
  have hmem : (empty base).mem base = ⟨base, 0⟩ := by simp [empty]
  have hregions : Regions base (empty base).regions :=
    ⟨.nil, fun r hr ↦ absurd hr List.not_mem_nil, Nat.two_pow_pos 32⟩
  have htiles : Tiles (empty base).mem (empty base).regions [] :=
    ⟨fun a ha ↦ absurd ha List.not_mem_nil, fun _ _ ↦ rfl, rfl⟩
  exact ⟨[], hregions, ⟨congrArg Header.size hmem, congrArg Header.ptr hmem, .nil, htiles⟩,
    List.mem_cons_self⟩

/-- The order of the blocks that are not on the list does not matter. -/
theorem Linked.perm {used' : List ℕ} (h : Linked base s nodes used) (hperm : used.Perm used') :
    Linked base s nodes used' :=
  ⟨h.regions, ⟨h.list.baseSize, h.list.path, h.list.gaps, h.list.tiles.perm (hperm.append_left _)⟩,
    h.freep⟩

/-- A program never waits for the allocator forever, and keeps its invariant. -/
theorem Inv.perform (h : Inv base s) (hbase : 0 < base) (op : Op) :
    wp (perform base op) (fun _ s' ↦ Inv base s') (· = .disabled) s := by
  obtain ⟨nodes, hlinked⟩ := h
  cases op with
  | free ap =>
    rw [Umalloc.perform, wp_bind, wp_get]
    split
    · rename_i hguard
      obtain ⟨bp, rfl⟩ : ∃ bp, ap = bp + UNIT := ⟨ap - UNIT, (Nat.sub_add_cancel hguard.1).symm⟩
      rw [Nat.add_sub_cancel] at hguard ⊢
      rw [wp_bind, wp_set]
      obtain ⟨hregions, hlist, hfreep⟩ := hlinked.perm (List.perm_cons_erase hguard.2)
      refine wp_post (free_spec ⟨hregions, hlist, hfreep⟩) ?_
      rintro _ s' ⟨nodes', hlinked', -, -, hallocated⟩
      exact ⟨nodes', hallocated ▸ hlinked'⟩
    · exact (wp_throw _).mpr rfl
  | malloc nbytes sbrk =>
    rw [Umalloc.perform]
    split
    · rw [wp_bind]
      refine wp_post (malloc_spec hlinked hbase) fun r s' hreturned ↦ ?_
      cases r with
      | none =>
        obtain rfl : s' = s := hreturned
        exact ⟨nodes, hlinked⟩
      | some ap =>
        obtain ⟨-, -, hallocated, nodes', hlinked'⟩ := hreturned
        exact ⟨nodes', hallocated ▸ hlinked'⟩
    · exact (wp_throw _).mpr rfl
  | grow p nu =>
    refine wp_post (grow_spec hlinked) ?_
    rintro _ s' ⟨nodes', hlinked', -, -, hallocated⟩
    exact ⟨nodes', hallocated ▸ hlinked'⟩

theorem Inv.step (h : Inv base s) (hbase : 0 < base) (op : Op) :
    match step base s op with
    | .ok s' => Inv base s'
    | .error stop => stop = .disabled := by
  have hperform := h.perform hbase op
  rw [Umalloc.step]
  cases hok : Umalloc.perform base op s with
  | ok r =>
    have hinv := wp_of_ok hperform hok
    exact hinv
  | error stop =>
    have hstop := wp_of_error hperform hok
    exact hstop

theorem inv_of_run (hbase : 0 < base) {ops : List Op}
    (hrun : run (step base) (empty base) ops = .ok s) : Inv base s := by
  refine run_induction (Umalloc.step base) (P := fun _ s ↦ Inv base s) (inv_empty base) ?_ hrun
  intro _ op s s' _ hinv hstep
  have hnext := hinv.step hbase op
  rw [hstep] at hnext
  exact hnext

/-- The units that `malloc` takes have room for a header and what was asked for. -/
theorem le_nunits (nbytes : ℕ) : nbytes ≤ UNIT * (nunits nbytes - 1) := by
  simp only [nunits, UNIT]
  omega

/-- In every state of a run the list is a cycle through `base` and the free blocks, in the order of
their addresses.  There is memory between any two free blocks, blocks have no byte in common, and
each unit of the heap is in one of them.  A block that `malloc` returns has the bytes that were asked
for behind its header.  Neither loop runs forever. -/
theorem free_list_of_run (base : ℕ) (hbase : 0 < base) (ops : List Op) (s : Heap)
    (hrun : run (step base) (empty base) ops = .ok s) :
    (∃ nodes, (Path (ptr s.mem) base nodes base ∧ (base :: nodes).Pairwise (· < ·) ∧
        s.freep ∈ base :: nodes) ∧
      nodes.Pairwise (fun a b ↦ a + UNIT * (s.mem a).size < b) ∧
      ((nodes ++ s.allocated).map (block s.mem)).Pairwise Interval.Apart ∧
      (∀ a ∈ nodes ++ s.allocated, ∀ j < (s.mem a).size,
        ∃ r ∈ s.regions, ∃ k < r.units, r.addr + UNIT * k = a + UNIT * j) ∧
      ∀ r ∈ s.regions, ∀ k < r.units, ∃! a, a ∈ nodes ++ s.allocated ∧
        ∃ j < (s.mem a).size, a + UNIT * j = r.addr + UNIT * k) ∧
    (∀ nbytes < 2 ^ 32, ∀ sbrk ap s', malloc base nbytes sbrk s = .ok (some ap, s') →
      UNIT ≤ ap ∧ s'.allocated = (ap - UNIT) :: s.allocated ∧
        nbytes ≤ UNIT * ((s'.mem (ap - UNIT)).size - 1)) ∧
    ∀ op, step base s op ≠ .error .diverges := by
  obtain ⟨nodes, hlinked⟩ := inv_of_run hbase hrun
  have hlist := hlinked.list
  refine ⟨⟨nodes, ⟨hlist.path, hlist.sorted_base hlinked.regions, hlinked.freep⟩, hlist.gaps,
    hlist.tiles.apart hlinked.regions, fun a ha j hj ↦ ?_, fun r hr k hk ↦ ?_⟩,
    fun nbytes _ sbrk ap s' hmalloc ↦ ?_, fun op hstep ↦ ?_⟩
  · exact hlist.tiles.unit_iff.mp ⟨a, ha, j, hj, rfl⟩
  · obtain ⟨a, ha, hunit⟩ := hlist.tiles.unit_iff.mpr ⟨r, hr, k, hk, rfl⟩
    refine ⟨a, ⟨ha, hunit⟩, ?_⟩
    rintro b ⟨hb, hunit'⟩
    have hmem {c : ℕ} (hc : ∃ j < (s.mem c).size, c + UNIT * j = r.addr + UNIT * k) :
        (block s.mem c).Mem (r.addr + UNIT * k) :=
      ((Interval.at_zero_iff (by decide)).mpr hc).1
    exact hlist.tiles.eq_of_mem hlinked.regions hb ha (hmem hunit') (hmem hunit)
  · have hreturned := wp_of_ok (malloc_spec hlinked hbase) hmalloc
    have htook : Took base s s.allocated (nunits nbytes) ap s' := hreturned
    refine ⟨htook.le, htook.allocated, ?_⟩
    rw [htook.size]
    exact le_nunits nbytes
  · have hnext := Inv.step ⟨nodes, hlinked⟩ hbase op
    rw [hstep] at hnext
    cases hnext

/-- Two blocks are taken from the end of a region, and the upper one is freed. -/
theorem free_list_of_run_gap :
    ∃ s, run (step 16) (empty 16) [.grow 64 10, .malloc 20 none, .malloc 5 none, .free 192] = .ok s ∧
      s.allocated = [144] ∧ ∃ nodes, s.freep ∈ 16 :: nodes ∧
        nodes.Pairwise (fun a b ↦ a + UNIT * (s.mem a).size < b) := by
  have hyields : yields (run (step 16) (empty 16)
      [.grow 64 10, .malloc 20 none, .malloc 5 none, .free 192])
      (fun s ↦ s.allocated = [144]) = true := by decide +kernel
  obtain ⟨s, hrun, hok⟩ := exists_of_yields hyields
  obtain ⟨⟨nodes, hcycle, hgaps, -⟩, -⟩ := free_list_of_run 16 (by decide) _ s hrun
  exact ⟨s, hrun, hok, nodes, hcycle.2.2, hgaps⟩

end Xv6.Umalloc
