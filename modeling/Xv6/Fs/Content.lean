import Xv6.Fs.Invariant

/-!
# Allocating Blocks and Reading and Writing Files

What the block allocator, `bmap`, `itrunc`, `readi` and `writei` do.  While one of them runs, the
copy of the inode in the table is ahead of the disk; the lemmas therefore speak of the current
inodes `live`, which for the locked inode is the copy.
-/

namespace Xv6.Fs

open Lib

variable {s : FsState} {E : Stop → Prop}

/-! ## Blocks -/

/-- A bitmap block is not among locked data blocks. -/
theorem bblock_free (hbufs : ∀ x ∈ s.bufs, s.sb.IsData x) {b : ℕ} (hb : b < s.sb.size) :
    s.sb.bblock b ∉ s.bufs := by
  intro hmem
  have hlt := (Superblock.bblock_lt hb).2
  have hstart := (hbufs _ hmem).1
  omega

/-- The number of free blocks. -/
def Superblock.freeBlocks (sb : Superblock) (disk : Device) : ℕ :=
  ((Finset.range sb.size).filter fun b ↦ sb.bit disk b = false).card

/-- A write of `n` bytes at `off` may run out of blocks: two of them are enough for a write within
one block of the file. -/
def FsState.MayRunOut (s : FsState) (off n : ℕ) : Prop :=
  s.sb.freeBlocks s.disk < 2 ∨ BSIZE < off % BSIZE + n

/-- One block less is free. -/
theorem Balloc.freeBlocks {sb : Superblock} {disk disk' : Device} {b : ℕ}
    (h : Balloc sb disk disk' b) (hnone : sb.freeBlocks disk' = 0) : sb.freeBlocks disk < 2 := by
  refine lt_of_le_of_lt (Finset.card_le_card (t := {b}) fun x hx ↦ ?_) (by simp)
  obtain ⟨hrange, hfree⟩ := Finset.mem_filter.mp hx
  by_contra hne
  rw [Finset.mem_singleton] at hne
  have hbit : sb.bit disk' x = false := by
    rw [h.bit x (Finset.mem_range.mp hrange), hfree, decide_eq_false hne, Bool.or_false]
  exact Finset.filter_eq_empty_iff.mp (Finset.card_eq_zero.mp hnone) hrange hbit

/-- The block is new: any data block whose buffer is locked is in use. -/
theorem balloc_spec (hsb : s.sb.WellFormed) (hop : 0 < s.outstanding)
    (hbufs : ∀ x ∈ s.bufs, s.sb.IsData x ∧ s.sb.bit s.disk x = true)
    (hreserved : ∀ b, b < s.sb.dataStart → s.sb.bit s.disk b = true)
    (hE : s.sb.freeBlocks s.disk = 0 → E (.panic .ballocOut)) :
    wp balloc (fun b s' ↦ ∃ disk logged, s' = { s with disk := disk, logged := logged } ∧
      Balloc s.sb s.disk disk b) E s := by
  rw [balloc, wp_bind, wp_get]
  cases hscan : scan (fun b ↦ !s.sb.bit s.disk b) 0 s.sb.size with
  | none =>
    refine hE (Finset.card_eq_zero.mpr (Finset.filter_eq_empty_iff.mpr fun {b} hb ↦ ?_))
    have htest := scan_none hscan b (Nat.zero_le b) (by rw [Nat.zero_add]; exact Finset.mem_range.mp hb)
    simpa using htest
  | some b =>
    obtain ⟨htest, -, hb⟩ := scan_some hscan
    have hfree : s.sb.bit s.disk b = false := by simpa using htest
    have hdata : s.sb.IsData b := by
      refine ⟨Nat.le_of_not_lt fun hlt ↦ ?_, by omega⟩
      rw [hreserved b hlt] at hfree
      cases hfree
    have hbblock := bblock_free (fun x hx ↦ (hbufs x hx).1) (show b < s.sb.size by omega)
    have hnew : b ∉ s.bufs := by
      intro hmem
      rw [(hbufs b hmem).2] at hfree
      cases hfree
    simp only [wp_bind, bzero, wp_pure]
    refine (wp_bupdate hop hbblock fun bp ↦ bp.setBit (b % BPB)).mpr ?_
    refine (wp_bupdate (by exact hop) (by exact hnew) fun _ ↦ .fill 0).mpr ?_
    refine ⟨_, _, rfl, hdata, hfree, ?_, ?_, ?_, ?_⟩
    · intro x hx
      rw [Superblock.bit_update_data _ hx hdata]
      exact Superblock.bit_setBit b x
    · intro i hi
      rw [Superblock.dinode_update_data hsb _ hi hdata]
      exact Superblock.dinode_update_bblock hsb _ hi (by omega)
    · exact Function.update_self ..
    · intro x hx hne
      rw [Function.update_of_ne hne]
      exact Superblock.update_bblock_data _ (by omega) hx

/-- What `bfree` does to the disk. -/
structure Bfree (sb : Superblock) (disk disk' : Device) (b : ℕ) : Prop where
  bit : ∀ x, x < sb.size → sb.bit disk' x = (!decide (x = b) && sb.bit disk x)
  dinode : ∀ i, i < sb.ninodes → sb.dinode disk' i = sb.dinode disk i
  agree : ∀ x, sb.IsData x → disk' x = disk x

/-- `bfree` of a marked block does not panic. -/
theorem bfree_spec (hsb : s.sb.WellFormed) (hop : 0 < s.outstanding)
    (hbufs : ∀ x ∈ s.bufs, s.sb.IsData x) {b : ℕ} (hb : b < s.sb.size)
    (hmarked : s.sb.bit s.disk b = true) :
    wp (bfree b) (fun _ s' ↦ ∃ disk logged, s' = { s with disk := disk, logged := logged } ∧
      Bfree s.sb s.disk disk b) E s := by
  have hbit : (s.disk (s.sb.bblock b)).bit (b % BPB) = true := hmarked
  simp only [bfree, wp_bind, wp_get]
  refine (wp_bread (bblock_free hbufs hb)).mpr ?_
  simp only [hbit, if_true, wp_bind, wp_bstore]
  refine (wp_logWrite (by exact hop) _).mpr ?_
  refine (wp_brelse rfl).mpr ?_
  refine ⟨_, _, rfl, ?_, ?_, ?_⟩
  · intro x _
    exact Superblock.bit_clearBit b x
  · intro i hi
    exact Superblock.dinode_update_bblock hsb _ hi hb
  · intro x hx
    exact Superblock.update_bblock_data _ hb hx

/-! ## Blocks of files -/

/-- The state after changes to the disk, to the copy of one inode and to the log. -/
def FsState.put (s : FsState) (ip : Fin NINODE) (disk : Device) (copy : Dinode)
    (logged : List ℕ) : FsState :=
  { s with
    disk := disk
    itable := Function.update s.itable ip { s.itable ip with copy := copy }
    logged := logged }

@[simp]
theorem put_put (s : FsState) (ip : Fin NINODE) (disk disk' : Device) (copy copy' : Dinode)
    (logged logged' : List ℕ) :
    (s.put ip disk copy logged).put ip disk' copy' logged' = s.put ip disk' copy' logged' := by
  simp [FsState.put]

theorem put_self (s : FsState) (ip : Fin NINODE) (disk : Device) (logged : List ℕ) :
    { s with disk := disk, logged := logged } = s.put ip disk (s.itable ip).copy logged := by
  simp [FsState.put]

@[simp]
theorem put_itable_self (s : FsState) (ip : Fin NINODE) (disk : Device) (copy : Dinode)
    (logged : List ℕ) :
    (s.put ip disk copy logged).itable ip = { s.itable ip with copy := copy } := by
  simp [FsState.put]

@[simp]
theorem wp_modifyCopy_put {T : Unit → FsState → Prop} (ip : Fin NINODE) (f : Dinode → Dinode)
    (disk : Device) (copy : Dinode) (logged : List ℕ) :
    wp (modifyCopy ip f) T E (s.put ip disk copy logged) ↔ T () (s.put ip disk (f copy) logged) := by
  rw [wp_modifyCopy]
  simp [FsState.put]

/-- `bmap` of a block that is there. -/
theorem bmap_present {ip : Fin NINODE} {bn : ℕ} (hbufs : s.bufs = [])
    (hblock : (s.itable ip).copy.blockOf s.disk bn ≠ 0) :
    wp (bmap ip bn) (fun addr s' ↦ s' = s ∧ addr = (s.itable ip).copy.blockOf s.disk bn) E s := by
  rw [bmap, wp_bind, wp_inode]
  unfold Dinode.blockOf placeOf at *
  by_cases hdirect : bn < NDIRECT
  · rw [dif_pos hdirect] at hblock ⊢
    simp only [dif_pos hdirect, Dinode.at] at hblock ⊢
    rw [if_neg hblock, wp_pure]
    exact ⟨rfl, rfl⟩
  · rw [dif_neg hdirect] at hblock ⊢
    simp only [dif_neg hdirect] at hblock ⊢
    by_cases hentry : bn - NDIRECT < NINDIRECT
    · simp only [hentry, dif_pos, Dinode.at] at hblock ⊢
      have hlast : (s.itable ip).copy.addrs (Fin.last NDIRECT) ≠ 0 := by
        intro hzero
        simp [hzero] at hblock
      rw [if_neg hlast] at hblock ⊢
      simp only [if_pos, if_neg hlast, wp_bind, wp_pure]
      refine (wp_bread (by simp [hbufs])).mpr ?_
      rw [if_neg hblock, wp_bind]
      exact (wp_brelse rfl).mpr ⟨rfl, rfl⟩
    · simp [hentry] at hblock

/-- The part of `bmap` that allocates a block for an entry of the indirect block, whose buffer is
locked. -/
theorem bmap_entry {ip : Fin NINODE} {live : ℕ → Dinode} (hsb : s.sb.WellFormed)
    (hop : 0 < s.outstanding) (hbufs : s.bufs = []) (hlive : live (s.inum ip) = (s.itable ip).copy)
    (howned : Owned s.sb s.disk live) (halloc : Allocated s.sb live (s.inum ip))
    (hE : s.sb.freeBlocks s.disk = 0 → E (.panic .ballocOut)) {j : Fin NINDIRECT}
    (hindirect : (s.itable ip).copy.at s.disk .indirect ≠ 0)
    (hempty : (s.itable ip).copy.at s.disk (.entry j) = 0) :
    wp (do
      let new ← balloc
      let a ← bload ((s.itable ip).copy.at s.disk .indirect)
      bstore ((s.itable ip).copy.at s.disk .indirect) (a.setWord j new)
      logWrite ((s.itable ip).copy.at s.disk .indirect)
      brelse ((s.itable ip).copy.at s.disk .indirect)
      return new) (fun addr s' ↦ ∃ disk logged, s' = { s with disk := disk, logged := logged } ∧
        Grows s.sb s.disk live disk live (s.inum ip) ∧
        (∀ i, i < s.sb.ninodes → s.sb.dinode disk i = s.sb.dinode s.disk i) ∧
        addr ≠ 0 ∧ (s.itable ip).copy.at disk (.entry j) = addr) E
      { s with bufs := [(s.itable ip).copy.at s.disk .indirect] } := by
  rw [← hlive] at hindirect hempty ⊢
  have hydata : s.sb.IsData ((live (s.inum ip)).at s.disk .indirect) :=
    howned.range _ _ halloc hindirect
  rw [wp_bind]
  refine wp_post (balloc_spec (by exact hsb) (by exact hop) ?_ (by exact howned.reserved) hE) ?_
  · intro x hx
    obtain rfl := List.mem_singleton.mp hx
    exact ⟨hydata, (howned.marked _ hydata).mpr ⟨_, _, halloc, rfl⟩⟩
  rintro new s' ⟨disk, logged, rfl, hb⟩
  simp only [wp_bind, wp_bload, wp_bstore, wp_pure]
  refine (wp_logWrite (by exact hop) _).mpr ?_
  refine (wp_brelse rfl).mpr ?_
  have hgrows := Grows.entry hsb howned halloc hb hindirect hempty
  refine ⟨_, _, by rw [hbufs], hgrows, ?_, IsData.ne_zero hsb hb.data, ?_⟩
  · intro i hi
    rw [Superblock.dinode_update_data hsb _ hi hydata, hb.dinode i hi]
  · have hsmall : new % 2 ^ 32 = new := by
      have hlt : new < s.sb.size := hb.data.2
      have hsize := hsb.size
      exact Nat.mod_eq_of_lt (by omega)
    change (if (live (s.inum ip)).at s.disk .indirect = 0 then 0 else _) = new
    rw [if_neg hindirect]
    change (Function.update disk ((live (s.inum ip)).at s.disk .indirect) _
      ((live (s.inum ip)).at s.disk .indirect)).word j = new
    rw [Function.update_self, Block.word_setWord_self _ _ _ j.isLt, hsmall]

/-- What `bmap` does: the block is there, and no file changes its contents. -/
theorem bmap_spec {ip : Fin NINODE} {live : ℕ → Dinode} (hsb : s.sb.WellFormed)
    (hop : 0 < s.outstanding) (hbufs : s.bufs = []) (hlive : live (s.inum ip) = (s.itable ip).copy)
    (howned : Owned s.sb s.disk live) (halloc : Allocated s.sb live (s.inum ip)) {bn : ℕ}
    (hE : (s.itable ip).copy.blockOf s.disk bn = 0 → s.sb.freeBlocks s.disk < 2 →
      E (.panic .ballocOut)) (hbn : bn < MAXFILE) :
    wp (bmap ip bn) (fun addr s' ↦ ∃ disk addrs logged,
      s' = s.put ip disk { (s.itable ip).copy with addrs := addrs } logged ∧
      Grows s.sb s.disk live disk
        (Function.update live (s.inum ip) { (s.itable ip).copy with addrs := addrs }) (s.inum ip) ∧
      (∀ i, i < s.sb.ninodes → s.sb.dinode disk i = s.sb.dinode s.disk i) ∧
      addr ≠ 0 ∧
      Dinode.blockOf disk { (s.itable ip).copy with addrs := addrs } bn = addr) E s := by
  by_cases hpresent : (s.itable ip).copy.blockOf s.disk bn ≠ 0
  · refine wp_post (bmap_present hbufs hpresent) ?_
    rintro addr s' ⟨rfl, rfl⟩
    refine ⟨s'.disk, (s'.itable ip).copy.addrs, s'.logged, by simp [FsState.put], ?_, fun _ _ ↦ rfl,
      hpresent, rfl⟩
    have hupdate : Function.update live (s'.inum ip) (s'.itable ip).copy = live := by
      rw [← hlive, Function.update_eq_self]
    rw [hupdate]
    exact .refl howned _
  · have habsent : (s.itable ip).copy.blockOf s.disk bn = 0 := not_not.mp hpresent
    replace hE := hE habsent
    have hnoneFree : s.sb.freeBlocks s.disk = 0 → E (.panic .ballocOut) :=
      fun hzero ↦ hE (by omega)
    have hnone : ∀ x ∈ s.bufs, s.sb.IsData x ∧ s.sb.bit s.disk x = true := by simp [hbufs]
    rw [bmap, wp_bind, wp_inode]
    by_cases hdirect : bn < NDIRECT
    · have hslot : (s.itable ip).copy.addrs (Fin.castSucc ⟨bn, hdirect⟩) = 0 := by
        simpa [Dinode.blockOf, placeOf, hdirect, Dinode.at] using habsent
      simp only [dif_pos hdirect, if_pos hslot, wp_bind]
      refine wp_post (balloc_spec hsb hop hnone howned.reserved hnoneFree) ?_
      rintro b s' ⟨disk, logged, rfl, hb⟩
      simp only [wp_modifyCopy, wp_pure]
      refine ⟨disk, Function.update (s.itable ip).copy.addrs (Fin.castSucc ⟨bn, hdirect⟩) b, logged,
        rfl, ?_, hb.dinode, IsData.ne_zero hsb hb.data, ?_⟩
      · have hgrows := Grows.slot hsb howned halloc hb (hlive ▸ hslot)
        rwa [hlive] at hgrows
      · simp [Dinode.blockOf, placeOf, hdirect, Dinode.at]
    · have hentry : bn - NDIRECT < NINDIRECT := by
        simp only [MAXFILE] at hbn
        omega
      have hplace : placeOf bn = some (.entry ⟨bn - NDIRECT, hentry⟩) := by
        simp [placeOf, hdirect, hentry]
      simp only [dif_neg hdirect, if_pos hentry]
      by_cases hlast : (s.itable ip).copy.addrs (Fin.last NDIRECT) = 0
      · simp only [if_pos hlast, wp_bind]
        refine wp_post (balloc_spec hsb hop hnone howned.reserved hnoneFree) ?_
        rintro y s' ⟨disk, logged, rfl, hy⟩
        have hgrows := Grows.slot hsb howned halloc hy (hlive ▸ hlast)
        rw [hlive] at hgrows
        have hyzero := IsData.ne_zero hsb hy.data
        -- The state with the new, empty indirect block.
        set t := s.put ip disk ((s.itable ip).copy.setAddr (Fin.last NDIRECT) y) logged with ht
        have htable : (t.itable ip).copy = (s.itable ip).copy.setAddr (Fin.last NDIRECT) y := by
          simp [ht]
        have hinum : t.inum ip = s.inum ip := by simp [FsState.inum, ht]
        have hlastt : (t.itable ip).copy.addrs (Fin.last NDIRECT) = y := by
          simp [htable, Dinode.setAddr]
        have hword : (disk y).word (bn - NDIRECT) = 0 := by
          rw [hy.zero, Block.word_fill_zero]
        simp only [wp_modifyCopy, wp_pure]
        change wp _ _ E t
        refine (wp_bread (by simp [ht, FsState.put, hbufs])).mpr ?_
        simp only [show t.disk = disk from rfl, hword, if_true]
        have hentryt : (t.itable ip).copy.at t.disk (.entry ⟨bn - NDIRECT, hentry⟩) = 0 := by
          change (if (t.itable ip).copy.addrs (Fin.last NDIRECT) = 0 then 0 else
            (disk ((t.itable ip).copy.addrs (Fin.last NDIRECT))).word (bn - NDIRECT)) = 0
          rw [hlastt, if_neg hyzero, hword]
        have hstage := bmap_entry (s := t) hsb hop hbufs (by rw [hinum, htable, Function.update_self])
          hgrows.owned (by rw [hinum]; exact (hgrows.allocated_iff _).mpr halloc)
          (fun hzero ↦ hE (hy.freeBlocks hzero))
          (hlastt.trans_ne hyzero) hentryt
        rw [show (t.itable ip).copy.at t.disk .indirect = y from hlastt, hinum] at hstage
        rw [show t.bufs = [] from hbufs]
        refine wp_post hstage ?_
        rintro addr s' ⟨disk', logged', rfl, hgrows', hdinode, haddr, hentry'⟩
        refine ⟨disk', Function.update (s.itable ip).copy.addrs (Fin.last NDIRECT) y, logged', ?_,
          hgrows.trans hgrows', ?_, haddr, ?_⟩
        · rw [put_self t ip, htable, ht, put_put]
          rfl
        · intro i hi
          exact (hdinode i hi).trans (hy.dinode i hi)
        · rw [Dinode.blockOf, hplace]
          rw [htable] at hentry'
          exact hentry'
      · have hword : (s.disk ((s.itable ip).copy.addrs (Fin.last NDIRECT))).word
            (bn - NDIRECT) = 0 := by
          simpa [Dinode.blockOf, hplace, Dinode.at, hlast] using habsent
        have hentrys : (s.itable ip).copy.at s.disk (.entry ⟨bn - NDIRECT, hentry⟩) = 0 := by
          simpa [Dinode.at, hlast] using hword
        have hstage := bmap_entry hsb hop hbufs hlive howned halloc hnoneFree (j := ⟨bn - NDIRECT, hentry⟩)
          hlast hentrys
        simp only [if_neg hlast]
        rw [wp_bind, wp_pure, wp_bind, wp_bread (by simp [hbufs]), if_pos hword, hbufs]
        refine wp_post hstage ?_
        rintro addr s' ⟨disk', logged', rfl, hgrows', hdinode, haddr, hentry'⟩
        refine ⟨disk', (s.itable ip).copy.addrs, logged', put_self s ip _ _, ?_, hdinode, haddr, ?_⟩
        · have hupdate : Function.update live (s.inum ip) (s.itable ip).copy = live := by
            rw [← hlive, Function.update_eq_self]
          rw [hupdate]
          exact hgrows'
        · rw [Dinode.blockOf, hplace]
          exact hentry'

/-! ## Truncation -/

/-- The blocks in `freed` have been marked free; inodes and data blocks are as they were. -/
structure Frees (sb : Superblock) (disk disk' : Device) (freed : ℕ → Prop) : Prop where
  bit : ∀ x, x < sb.size → (sb.bit disk' x = true ↔ sb.bit disk x = true ∧ ¬ freed x)
  dinode : ∀ i, i < sb.ninodes → sb.dinode disk' i = sb.dinode disk i
  agree : ∀ x, sb.IsData x → disk' x = disk x

/-- The blocks in the places that have been visited. -/
def Dinode.Held (d : Dinode) (disk : Device) (seen : Place → Prop) (x : ℕ) : Prop :=
  x ≠ 0 ∧ ∃ place, seen place ∧ d.at disk place = x

namespace Frees

variable {sb : Superblock} {disk disk' disk'' : Device} {freed freed' : ℕ → Prop}

theorem congr (h : Frees sb disk disk' freed) (heq : ∀ x, freed' x ↔ freed x) :
    Frees sb disk disk' freed' where
  bit x hx := by rw [h.bit x hx, heq]
  dinode := h.dinode
  agree := h.agree

/-- One more block is freed. -/
theorem snoc {b : ℕ} (h : Frees sb disk disk' freed) (hb : Bfree sb disk' disk'' b) :
    Frees sb disk disk'' fun x ↦ freed x ∨ x = b where
  bit x hx := by
    rw [hb.bit x hx]
    by_cases hxb : x = b
    · simp [hxb]
    · simp [hxb, h.bit x hx]
  dinode i hi := (hb.dinode i hi).trans (h.dinode i hi)
  agree x hx := (hb.agree x hx).trans (h.agree x hx)

variable {d : Dinode} {seen seen' : Place → Prop}

/-- No place has been visited. -/
theorem none (sb : Superblock) (disk : Device) (d : Dinode) (hseen : ∀ place, ¬ seen place) :
    Frees sb disk disk (d.Held disk seen) where
  bit x hx := by simp [Dinode.Held, hseen]
  dinode _ _ := rfl
  agree _ _ := rfl

theorem congrSeen (h : Frees sb disk disk' (d.Held disk seen))
    (heq : ∀ place, d.at disk place ≠ 0 → (seen' place ↔ seen place)) :
    Frees sb disk disk' (d.Held disk seen') := by
  refine h.congr fun x ↦ and_congr_right fun hx ↦ exists_congr fun place ↦ ?_
  constructor
  · rintro ⟨hseen, rfl⟩
    exact ⟨(heq place hx).mp hseen, rfl⟩
  · rintro ⟨hseen, rfl⟩
    exact ⟨(heq place hx).mpr hseen, rfl⟩

end Frees

section Truncate

variable {ip : Fin NINODE} {live : ℕ → Dinode} (hsb : s.sb.WellFormed) (hop : 0 < s.outstanding)
  (hbufs : ∀ x ∈ s.bufs, s.sb.IsData x) (hlive : live (s.inum ip) = (s.itable ip).copy)
  (howned : Owned s.sb s.disk live) (halloc : Allocated s.sb live (s.inum ip))

include hsb hop hbufs hlive howned halloc

/-- Freeing the block of one more place of the inode. -/
theorem bfree_place {seen : Place → Prop} {disk : Device} {copy : Dinode} {logged : List ℕ}
    (hfrees : Frees s.sb s.disk disk ((s.itable ip).copy.Held s.disk seen)) (place : Place)
    (hplace : (s.itable ip).copy.at s.disk place ≠ 0) (hnot : ¬ seen place) :
    wp (bfree ((s.itable ip).copy.at s.disk place)) (fun _ t' ↦ ∃ disk' logged',
      t' = s.put ip disk' copy logged' ∧ Frees s.sb s.disk disk'
        ((s.itable ip).copy.Held s.disk fun other ↦ seen other ∨ other = place)) E
      (s.put ip disk copy logged) := by
  rw [← hlive] at hplace hfrees ⊢
  have hdata := howned.range _ _ halloc hplace
  have hfresh : ¬ (live (s.inum ip)).Held s.disk seen ((live (s.inum ip)).at s.disk place) := by
    rintro ⟨-, other, hseen, heq⟩
    obtain ⟨-, rfl⟩ := howned.unique _ _ place other halloc halloc hplace heq.symm
    exact hnot hseen
  have hmarked : s.sb.bit disk ((live (s.inum ip)).at s.disk place) = true := by
    rw [hfrees.bit _ hdata.2]
    exact ⟨(howned.marked _ hdata).mpr ⟨_, _, halloc, rfl⟩, hfresh⟩
  refine wp_post (bfree_spec (s := s.put ip disk copy logged) hsb hop hbufs hdata.2 hmarked) ?_
  rintro _ t' ⟨disk', logged', rfl, hb⟩
  refine ⟨disk', logged', rfl, (hfrees.snoc hb).congr fun x ↦ ?_⟩
  constructor
  · rintro ⟨hx, other, hseen | rfl, rfl⟩
    · exact .inl ⟨hx, other, hseen, rfl⟩
    · exact .inr rfl
  · rintro (⟨hx, other, hseen, rfl⟩ | rfl)
    · exact ⟨hx, other, .inl hseen, rfl⟩
    · exact ⟨hplace, place, .inr rfl, rfl⟩

/-- The loop of `itrunc` over the direct slots. -/
theorem itrunc_direct :
    wp ((List.finRange NDIRECT).forM fun k ↦ do
      let i ← inode ip
      if i.copy.addrs k.castSucc = 0 then pure ()
      else
        bfree (i.copy.addrs k.castSucc)
        modifyCopy ip fun d ↦ { d with addrs := Function.update d.addrs k.castSucc 0 })
      (fun _ t ↦ ∃ disk addrs logged,
        t = s.put ip disk { (s.itable ip).copy with addrs := addrs } logged ∧
        addrs (Fin.last NDIRECT) = (s.itable ip).copy.addrs (Fin.last NDIRECT) ∧
        (∀ k : Fin NDIRECT, addrs k.castSucc = 0) ∧
        Frees s.sb s.disk disk
          ((s.itable ip).copy.Held s.disk fun place ↦ ∃ k, place = .direct k)) E s := by
  refine wp_post (wp_forM (I := fun done t ↦ ∃ disk addrs logged,
    t = s.put ip disk { (s.itable ip).copy with addrs := addrs } logged ∧
    addrs (Fin.last NDIRECT) = (s.itable ip).copy.addrs (Fin.last NDIRECT) ∧
    (∀ k : Fin NDIRECT, addrs k.castSucc =
      if k ∈ done then 0 else (s.itable ip).copy.addrs k.castSucc) ∧
    Frees s.sb s.disk disk
      ((s.itable ip).copy.Held s.disk fun place ↦ ∃ k ∈ done, place = .direct k)) ?_ ?_) ?_
  · exact ⟨s.disk, (s.itable ip).copy.addrs, s.logged, by simp [FsState.put], rfl, by simp,
      .none _ _ _ (by simp)⟩
  · rintro done k rest t hl ⟨disk, addrs, logged, rfl, hlast, haddrs, hfrees⟩
    have hk : k ∉ done := by
      have hnodup := List.nodup_finRange NDIRECT
      rw [hl, List.nodup_append] at hnodup
      exact fun hmem ↦ hnodup.2.2 k hmem k (by simp) rfl
    have hslot : addrs k.castSucc = (s.itable ip).copy.at s.disk (.direct k) := by
      rw [haddrs k, if_neg hk, Dinode.at]
    simp only [wp_bind, wp_inode, put_itable_self, hslot]
    split
    · rename_i hzero
      refine ⟨disk, addrs, logged, rfl, hlast, ?_, hfrees.congrSeen ?_⟩
      · intro k'
        by_cases hk' : k' = k
        · simp [hk', hslot, hzero]
        · simp [haddrs k', hk']
      · intro place hplace
        have hne : place ≠ .direct k := fun heq ↦ hplace (heq ▸ hzero)
        simp [or_and_right, exists_or, hne]
    · rename_i hne
      rw [wp_bind]
      refine wp_post (bfree_place hsb hop hbufs hlive howned halloc hfrees (.direct k) hne ?_) ?_
      · rintro ⟨k', hk', heq⟩
        exact hk ((Place.direct.inj heq) ▸ hk')
      · rintro _ t' ⟨disk', logged', rfl, hfrees'⟩
        rw [wp_modifyCopy_put]
        refine ⟨disk', Function.update addrs k.castSucc 0, logged', rfl, ?_, ?_,
          hfrees'.congrSeen fun place _ ↦ by simp [or_and_right, exists_or]⟩
        · rw [Function.update_of_ne (Fin.castSucc_lt_last k).ne', hlast]
        · intro k'
          by_cases hk' : k' = k
          · simp [hk']
          · have hcast : k'.castSucc ≠ k.castSucc := fun heq ↦ hk' (Fin.castSucc_injective _ heq)
            rw [Function.update_of_ne hcast, haddrs k']
            simp [hk']
  · rintro _ t ⟨disk, addrs, logged, rfl, hlast, haddrs, hfrees⟩
    exact ⟨disk, addrs, logged, rfl, hlast, fun k ↦ by simp [haddrs k],
      hfrees.congrSeen (by simp)⟩

/-- The loop of `itrunc` over the entries of the indirect block, whose buffer is locked. -/
theorem itrunc_entries {seen : Place → Prop} {disk : Device} {copy : Dinode} {logged : List ℕ}
    (hfrees : Frees s.sb s.disk disk ((s.itable ip).copy.Held s.disk seen))
    (hlast : (s.itable ip).copy.addrs (Fin.last NDIRECT) ≠ 0) (hnot : ∀ j, ¬ seen (.entry j)) :
    wp ((List.range NINDIRECT).forM fun j ↦ do
      let a ← bload ((s.itable ip).copy.addrs (Fin.last NDIRECT))
      if a.word j = 0 then pure () else bfree (a.word j))
      (fun _ t ↦ ∃ disk' logged', t = s.put ip disk' copy logged' ∧
        Frees s.sb s.disk disk' ((s.itable ip).copy.Held s.disk fun place ↦
          seen place ∨ ∃ j, place = .entry j)) E (s.put ip disk copy logged) := by
  have hydata : s.sb.IsData ((s.itable ip).copy.addrs (Fin.last NDIRECT)) :=
    hlive ▸ howned.range _ .indirect halloc (by rw [hlive]; exact hlast)
  refine wp_post (wp_forM (I := fun done t ↦ ∃ disk' logged', t = s.put ip disk' copy logged' ∧
    Frees s.sb s.disk disk' ((s.itable ip).copy.Held s.disk fun place ↦
      seen place ∨ ∃ j : Fin NINDIRECT, j.val ∈ done ∧ place = .entry j)) ?_ ?_) ?_
  · exact ⟨disk, logged, rfl, hfrees.congrSeen (by simp)⟩
  · rintro done j rest t hl ⟨disk', logged', rfl, hfrees'⟩
    have hj : j < NINDIRECT := by
      rw [← List.mem_range, hl]
      simp
    have hdone : j ∉ done := by
      have hnodup := List.nodup_range (n := NINDIRECT)
      rw [hl, List.nodup_append] at hnodup
      exact fun hmem ↦ hnodup.2.2 j hmem j (by simp) rfl
    -- The indirect block itself is not changed by freeing its entries.
    have hword : (disk' ((s.itable ip).copy.addrs (Fin.last NDIRECT))).word j =
        (s.itable ip).copy.at s.disk (.entry ⟨j, hj⟩) := by
      rw [hfrees'.agree _ hydata, Dinode.at, if_neg hlast]
    have hsnoc : ∀ place : Place, (∃ k : Fin NINDIRECT, k.val ∈ done ++ [j] ∧ place = .entry k) ↔
        (∃ k : Fin NINDIRECT, k.val ∈ done ∧ place = .entry k) ∨ place = .entry ⟨j, hj⟩ := by
      intro place
      constructor
      · rintro ⟨k, hk, rfl⟩
        rcases List.mem_append.mp hk with hmem | hmem
        · exact .inl ⟨k, hmem, rfl⟩
        · exact .inr (by rw [show k = ⟨j, hj⟩ from Fin.ext (List.mem_singleton.mp hmem)])
      · rintro (⟨k, hk, rfl⟩ | rfl)
        · exact ⟨k, List.mem_append_left _ hk, rfl⟩
        · exact ⟨⟨j, hj⟩, by simp, rfl⟩
    simp only [wp_bind, wp_bload]
    change wp (if (disk' ((s.itable ip).copy.addrs (Fin.last NDIRECT))).word j = 0 then pure ()
      else bfree ((disk' ((s.itable ip).copy.addrs (Fin.last NDIRECT))).word j)) _ E _
    rw [hword]
    split
    · rename_i hzero
      refine ⟨disk', logged', rfl, hfrees'.congrSeen fun place hplace ↦ ?_⟩
      have hne : place ≠ .entry ⟨j, hj⟩ := fun heq ↦ hplace (heq ▸ hzero)
      simp only [hsnoc, hne, or_false]
    · rename_i hne
      refine wp_post (bfree_place hsb hop hbufs hlive howned halloc hfrees' (.entry ⟨j, hj⟩) hne ?_) ?_
      · rintro (hseen | ⟨k, hk, heq⟩)
        · exact hnot _ hseen
        · obtain rfl := Place.entry.inj heq
          exact hdone hk
      · rintro _ t' ⟨disk'', logged'', rfl, hfrees''⟩
        refine ⟨disk'', logged'', rfl, hfrees''.congrSeen fun place _ ↦ ?_⟩
        rw [hsnoc, or_assoc]
  · rintro _ t ⟨disk', logged', rfl, hfrees'⟩
    refine ⟨disk', logged', rfl, hfrees'.congrSeen fun place _ ↦ or_congr_right ?_⟩
    exact exists_congr fun j ↦ by simp [j.isLt]

end Truncate

/-! ## Storing the copy of an inode -/

/-- `iupdate` stores the copy on the disk. -/
theorem wp_iupdate {T : Unit → FsState → Prop} {ip : Fin NINODE} (hop : 0 < s.outstanding)
    (hbufs : s.bufs = []) (h : ∀ logged, T () { s with
      disk := s.sb.setDinode s.disk (s.inum ip) (s.itable ip).copy, logged := logged }) :
    wp (iupdate ip) T E s := by
  simp only [iupdate, wp_bind, wp_inode, wp_get]
  refine (wp_bupdate hop (by simp [hbufs]) fun bp ↦
    bp.setDinode ((s.itable ip).inum % IPB) (s.itable ip).copy).mpr ?_
  exact h _

/-- The copy of an inode is on the disk; the bitmap, the data blocks and the other inodes are as
they were. -/
structure Stored (sb : Superblock) (disk disk' : Device) (i : ℕ) (copy : Dinode) : Prop where
  dinode : ∀ j, j < sb.ninodes → sb.dinode disk' j = if j = i then copy else sb.dinode disk j
  bit : ∀ x, x < sb.size → sb.bit disk' x = sb.bit disk x
  agree : ∀ x, sb.IsData x → disk' x = disk x

theorem stored_setDinode {sb : Superblock} (hsb : sb.WellFormed) (disk : Device) {i : ℕ}
    (hi : i < sb.ninodes) {copy : Dinode} (hcopy : copy.InRange) :
    Stored sb disk (sb.setDinode disk i copy) i copy where
  dinode _ _ := Superblock.dinode_setDinode hcopy
  bit _ hx := Superblock.bit_setDinode hsb copy hi hx
  agree _ hx := Superblock.setDinode_data hsb copy hi hx

/-- An inode without blocks. -/
def Dinode.truncated (d : Dinode) : Dinode := { d with size := 0, addrs := fun _ ↦ 0 }

theorem truncated_at (d : Dinode) (disk : Device) (place : Place) : d.truncated.at disk place = 0 := by
  cases place <;> simp [Dinode.truncated, Dinode.at]

section Truncate

variable {ip : Fin NINODE} {live : ℕ → Dinode} (hsb : s.sb.WellFormed) (hop : 0 < s.outstanding)
  (hbufs : s.bufs = []) (hlive : live (s.inum ip) = (s.itable ip).copy)
  (howned : Owned s.sb s.disk live) (halloc : Allocated s.sb live (s.inum ip))

include hsb hop hbufs hlive howned halloc

/-- The end of `itrunc`, when all blocks of the inode are freed. -/
theorem itrunc_end {disk : Device} {addrs : Fin (NDIRECT + 1) → ℕ} {logged : List ℕ}
    (haddrs : ∀ slot, addrs slot = 0)
    (hfrees : Frees s.sb s.disk disk ((s.itable ip).copy.Held s.disk fun _ ↦ True)) :
    wp (do
      modifyCopy ip fun d ↦ { d with size := 0 }
      iupdate ip) (fun _ s' ↦ ∃ disk logged,
        s' = s.put ip disk (s.itable ip).copy.truncated logged ∧
        Owned s.sb disk (Function.update live (s.inum ip) (s.itable ip).copy.truncated) ∧
        (∀ x, s.sb.IsData x → disk x = s.disk x) ∧
        ∀ j, j < s.sb.ninodes → s.sb.dinode disk j =
          if j = s.inum ip then (s.itable ip).copy.truncated else s.sb.dinode s.disk j) E
      (s.put ip disk { (s.itable ip).copy with addrs := addrs } logged) := by
  obtain rfl : addrs = fun _ ↦ 0 := funext haddrs
  have hrange : (s.itable ip).copy.truncated.InRange := ⟨by simp [Dinode.truncated],
    by simp [Dinode.truncated]⟩
  have hstored := stored_setDinode hsb disk halloc.1.2 hrange
  rw [wp_bind, wp_modifyCopy_put]
  refine wp_iupdate (by exact hop) (by exact hbufs) fun logged' ↦
    ⟨s.sb.setDinode disk (s.inum ip) (s.itable ip).copy.truncated, logged', ?_, ?_, ?_, ?_⟩
  · simp [FsState.put, FsState.inum, Dinode.truncated]
  · refine Owned.release hsb howned (i := s.inum ip) (fun j hj ↦ Function.update_of_ne hj _ _) ?_ ?_ ?_ ?_
    · intro place
      rw [Function.update_self, truncated_at]
    · intro x hx
      rw [hstored.agree x hx, hfrees.agree x hx]
    · intro x hx
      rw [hstored.bit x hx.2, hfrees.bit x hx.2, hlive]
      simp [Dinode.Held, halloc, IsData.ne_zero hsb hx]
    · intro x hx
      have hdata := hsb.data
      rw [hstored.bit x (by omega), hfrees.bit x (by omega)]
      refine ⟨howned.reserved x hx, ?_⟩
      rintro ⟨hne, place, -, heq⟩
      have := howned.range _ place halloc (by rw [hlive, heq]; exact hne)
      rw [hlive, heq] at this
      exact absurd this.1 (by omega)
  · intro x hx
    rw [hstored.agree x hx, hfrees.agree x hx]
  · intro j hj
    rw [hstored.dinode j hj, hfrees.dinode j hj]

/-- `itrunc` frees the blocks of the inode and does not panic. -/
theorem itrunc_spec :
    wp (itrunc ip) (fun _ s' ↦ ∃ disk logged,
      s' = s.put ip disk (s.itable ip).copy.truncated logged ∧
      Owned s.sb disk (Function.update live (s.inum ip) (s.itable ip).copy.truncated) ∧
      (∀ x, s.sb.IsData x → disk x = s.disk x) ∧
      ∀ j, j < s.sb.ninodes → s.sb.dinode disk j =
        if j = s.inum ip then (s.itable ip).copy.truncated else s.sb.dinode s.disk j) E s := by
  have hnone : ∀ x ∈ s.bufs, s.sb.IsData x := by simp [hbufs]
  rw [itrunc, wp_bind]
  refine wp_post (itrunc_direct hsb hop hnone hlive howned halloc) ?_
  rintro _ t ⟨disk, addrs, logged, rfl, hlast, haddrs, hfrees⟩
  rw [wp_bind, wp_inode, put_itable_self]
  dsimp only
  rw [hlast]
  split
  · rename_i hzero
    refine itrunc_end hsb hop hbufs hlive howned halloc ?_ (hfrees.congrSeen ?_)
    · exact fun slot ↦ Fin.lastCases (hlast.trans hzero) haddrs slot
    · intro place hplace
      cases place with
      | direct k => simp
      | indirect => exact absurd hzero hplace
      | entry j => exact absurd (by simp [Dinode.at, hzero]) hplace
  · rename_i hne
    rw [wp_bind, wp_bread (by simp [FsState.put, hbufs]), wp_bind]
    -- While the entries are freed, the buffer of the indirect block is locked.
    set t : FsState := { s with bufs := [(s.itable ip).copy.addrs (Fin.last NDIRECT)] } with ht
    have hbufst : ∀ x ∈ t.bufs, t.sb.IsData x := by
      intro x hx
      obtain rfl := List.mem_singleton.mp hx
      exact hlive ▸ howned.range _ .indirect halloc (by rw [hlive]; exact hne)
    have hstart : { s.put ip disk { (s.itable ip).copy with addrs := addrs } logged with
        bufs := (s.itable ip).copy.addrs (Fin.last NDIRECT) ::
          (s.put ip disk { (s.itable ip).copy with addrs := addrs } logged).bufs } =
        t.put ip disk { (s.itable ip).copy with addrs := addrs } logged := by
      simp [ht, FsState.put, hbufs]
    rw [hstart]
    refine wp_post (itrunc_entries (s := t) hsb hop hbufst hlive howned halloc hfrees hne
      (by simp)) ?_
    rintro _ t' ⟨disk', logged', rfl, hfrees'⟩
    rw [wp_bind, wp_brelse rfl, wp_bind]
    have hend : { t.put ip disk' { (s.itable ip).copy with addrs := addrs } logged' with
        bufs := [] } = s.put ip disk' { (s.itable ip).copy with addrs := addrs } logged' := by
      simp [ht, FsState.put, hbufs]
    rw [hend]
    refine wp_post (bfree_place hsb hop hnone hlive howned halloc hfrees' .indirect hne (by simp)) ?_
    rintro _ t ⟨disk'', logged'', rfl, hfrees''⟩
    rw [wp_bind, wp_modifyCopy_put]
    refine itrunc_end hsb hop hbufs hlive howned halloc ?_ (hfrees''.congrSeen ?_)
    · refine fun slot ↦ Fin.lastCases (Function.update_self ..) (fun k ↦ ?_) slot
      exact (Function.update_of_ne (Fin.castSucc_lt_last k).ne _ _).trans (haddrs k)
    · intro place hplace
      cases place <;> simp

end Truncate

end Xv6.Fs
