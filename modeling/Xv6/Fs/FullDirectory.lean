import Mathlib.Algebra.Order.BigOperators.Group.Finset
import Xv6.Fs.DirectoryMap

/-!
# Directories without Room

A directory of the maximum file size in which every entry is in use has no room for another one.
`dirlink` finds no empty entry then and writes at the end of the file, where `writei` refuses to
write, and it panics.  Such a directory is reached by making entries only; the disk is far from full
then, since a file has a bounded number of blocks.
-/

namespace Xv6.Fs

open Lib

variable {s s' : FsState} {dp : Fin NINODE} {held : Multiset (Fin NINODE)}
  {locks : Finset (Fin NINODE)} {name : List UInt8} {inum : ℕ}

/-! ## When `dirlink` panics -/

section Dirlink

variable (h : Base s held locks) (hdp : dp ∈ locks) (hdir : (s.dir dp).type = T_DIR)
  (hop : 0 < s.outstanding) (hinum : s.sb.IsInum inum) (hblocks : 2 ≤ s.sb.freeBlocks s.disk)

include h hdp hdir hop hinum hblocks

/-- `dirlink` panics on a directory without room. -/
theorem dirlink_full (hfull : (s.dir dp).Full name) :
    dirlink dp name inum s = .error (.panic .dirlinkWrite) := by
  have hspec := dirlink_dir (E := (· = .panic .dirlinkWrite)) h hdp hdir hop name hinum
    (fun ⟨j, hj⟩ ↦ absurd hj (hfull.new j)) (fun hfew ↦ absurd hfew (Nat.not_lt.mpr hblocks))
    fun _ ↦ rfl
  cases hlink : dirlink dp name inum s with
  | error stop => rw [wp_of_error hspec hlink]
  | ok result =>
    obtain ⟨r, s'⟩ := result
    obtain ⟨hbase, hr⟩ := wp_of_ok hspec hlink
    cases r with
    | false =>
      obtain ⟨⟨j, hj⟩, -⟩ := hr
      exact absurd hj (hfull.new j)
    | true =>
      -- A new entry would make the directory larger than a file can be.
      obtain ⟨k, hslot, -, hsets⟩ := hr
      have hsize := hbase.size_le hdp
      have hdir' := hsets.dir h hdp
      rw [FsState.dir] at hdir'
      rw [hdir', Node.size_setDirent] at hsize
      have hmax := hfull.size
      rcases hslot with hend | ⟨hlt, hempty⟩
      · have hend : DIRENT * k = (s.dir dp).size := hend
        simp only [DIRENT] at hend hsize
        omega
      · exact absurd hempty (hfull.used k hlt)

/-- `dirlink` returns on a directory that has the name or has room, unless the inode of an entry
that it finds does not fit in the inode table. -/
theorem dirlink_room (hroom : ¬ (s.dir dp).Full name) :
    wp (dirlink dp name inum) (fun _ _ ↦ True) (fun stop ↦ stop = .panic .igetNone ∧
      (∃ j, (s.dir dp).Finds name j) ∧ ∀ k, (s.itable k).ref ≠ 0) s :=
  wp_post (dirlink_dir h hdp hdir hop name hinum (fun hfinds hfull ↦ ⟨rfl, hfinds, hfull⟩)
    (fun hfew ↦ absurd hfew (Nat.not_lt.mpr hblocks)) fun hfull ↦ absurd hfull hroom)
    fun _ _ _ ↦ trivial

end Dirlink

/-- With two free blocks, `dirlink` panics in the write of the entry exactly if the directory has
neither the name nor room for it, and otherwise it returns; the only other stop is that of `iget`,
when the inode of the name does not fit in the inode table. -/
theorem dirlink_panics_iff (h : Base s held locks) (hdp : dp ∈ locks)
    (hdir : (s.dir dp).type = T_DIR) (hop : 0 < s.outstanding) (hinum : s.sb.IsInum inum)
    (hblocks : 2 ≤ s.sb.freeBlocks s.disk) (name : List UInt8) :
    (dirlink dp name inum s = .error (.panic .dirlinkWrite) ↔ (s.dir dp).Full name) ∧
    (¬ (s.dir dp).Full name → wp (dirlink dp name inum) (fun _ _ ↦ True)
      (fun stop ↦ stop = .panic .igetNone ∧ (∃ j, (s.dir dp).Finds name j) ∧
        ∀ k, (s.itable k).ref ≠ 0) s) := by
  refine ⟨⟨fun hpanic ↦ ?_, dirlink_full h hdp hdir hop hinum hblocks⟩,
    dirlink_room h hdp hdir hop hinum hblocks⟩
  by_contra hroom
  have hstop := wp_of_error (dirlink_room h hdp hdir hop hinum hblocks hroom) hpanic
  cases hstop.1

/-- The root directory of the small disk has room for the entry `a`. -/
theorem dirlink_panics_iff_small : ∃ t : Pool,
    run InodeOp.step ⟨iinit smallSb (format smallSb 2), 0⟩
      [.beginOp, .iget ROOTINO, .ilock ⟨0, by decide⟩] = .ok t ∧
    dirlink ⟨0, by decide⟩ [97] 1 t.fs ≠ .error (.panic .dirlinkWrite) := by
  have hyields : yields (run InodeOp.step ⟨iinit smallSb (format smallSb 2), 0⟩
      [.beginOp, .iget ROOTINO, .ilock ⟨0, by decide⟩])
      (fun t ↦ 0 < t.fs.outstanding ∧ (t.fs.itable ⟨0, by decide⟩).locked = true ∧
        (t.fs.dir ⟨0, by decide⟩).type = T_DIR ∧ (t.fs.dir ⟨0, by decide⟩).size = 32 ∧
        t.fs.sb.IsInum 1 ∧ 2 ≤ t.fs.sb.freeBlocks t.fs.disk) = true := by decide +kernel
  obtain ⟨t, hrun, hop, hlocked, htype, hsize, hinum, hblocks⟩ := exists_of_yields hyields
  obtain ⟨locks, hbase⟩ := InodeOp.run_base wellFormed_small hrun
  have hiff := dirlink_panics_iff hbase ((hbase.table.slot _).lock.mp hlocked) htype hop hinum
    hblocks [97]
  refine ⟨t, hrun, fun hpanic ↦ ?_⟩
  have hfull := (hiff.1.mp hpanic).size
  rw [hsize] at hfull
  exact absurd hfull (by decide)

/-! ## Blocks in use -/

/-- The places for blocks in an inode. -/
def Place.all : Finset Place :=
  Finset.univ.image .direct ∪ {.indirect} ∪ Finset.univ.image .entry

theorem Place.mem_all (place : Place) : place ∈ Place.all := by
  cases place <;> simp [Place.all]

theorem Place.card_all : Place.all.card ≤ NDIRECT + 1 + NINDIRECT :=
  calc Place.all.card
      ≤ (Finset.univ.image Place.direct ∪ {.indirect}).card + (Finset.univ.image Place.entry).card :=
        Finset.card_union_le _ _
    _ ≤ (Finset.univ.image Place.direct).card + 1 + (Finset.univ.image Place.entry).card := by
        gcongr
        exact Finset.card_union_le _ _
    _ ≤ NDIRECT + 1 + NINDIRECT := by
        gcongr
        · exact Finset.card_image_le.trans (Finset.card_fin _).le
        · exact Finset.card_image_le.trans (Finset.card_fin _).le

/-- All blocks are free but the reserved ones and those of the allocated inodes. -/
theorem Owned.size_le {sb : Superblock} {disk : Device} {live : ℕ → Dinode}
    (h : Owned sb disk live) (inodes : Finset ℕ) (hinodes : ∀ i, Allocated sb live i → i ∈ inodes) :
    sb.size ≤ sb.freeBlocks disk + (sb.dataStart + inodes.card * (NDIRECT + 1 + NINDIRECT)) := by
  have hcover : Finset.range sb.size ⊆ ((Finset.range sb.size).filter fun b ↦ sb.bit disk b = false) ∪
      (Finset.range sb.dataStart ∪
        inodes.biUnion fun i ↦ Place.all.image ((live i).at disk)) := by
    intro b hb
    rw [Finset.mem_union, Finset.mem_union, Finset.mem_filter, Finset.mem_biUnion]
    cases hbit : sb.bit disk b with
    | false => exact .inl ⟨hb, rfl⟩
    | true =>
      refine .inr ?_
      rcases Nat.lt_or_ge b sb.dataStart with hlt | hge
      · exact .inl (Finset.mem_range.mpr hlt)
      · obtain ⟨i, place, hi, hat⟩ := (h.marked b ⟨hge, Finset.mem_range.mp hb⟩).mp hbit
        exact .inr ⟨i, hinodes i hi, Finset.mem_image.mpr ⟨place, place.mem_all, hat⟩⟩
  calc sb.size
      = (Finset.range sb.size).card := (Finset.card_range _).symm
    _ ≤ _ := (Finset.card_le_card hcover).trans (Finset.card_union_le _ _)
    _ ≤ _ := Nat.add_le_add_left (Finset.card_union_le _ _) _
    _ ≤ _ := by
        gcongr
        · exact le_rfl
        · exact (Finset.card_range _).le
        · exact Finset.card_biUnion_le_card_mul _ _ _ fun i _ ↦
            Finset.card_image_le.trans Place.card_all

/-! ## Filling a directory -/

/-- The number of entries of a directory of the maximum size. -/
def MAXENTRIES : ℕ := MAXFILE * BSIZE / DIRENT

/-- The names of the entries: three bytes that are not NUL. -/
def entryName (k : ℕ) : List UInt8 := [1, .ofNat (k % 255 + 1), .ofNat (k / 255 + 1)]

theorem toNat_ofNat_succ {n : ℕ} (hn : n < 255) : (UInt8.ofNat (n + 1)).toNat = n + 1 := by
  rw [UInt8.toNat_ofNat']
  omega

theorem entryName_digits {k : ℕ} (hk : k ≤ MAXENTRIES) : k % 255 < 255 ∧ k / 255 < 255 := by
  have hmax : MAXENTRIES < 255 * 255 := by decide
  omega

theorem cstr_entryName {k : ℕ} (hk : k ≤ MAXENTRIES) : cstr DIRSIZ (entryName k) = entryName k := by
  have hne : ∀ n : ℕ, n < 255 → UInt8.ofNat (n + 1) ≠ 0 := by
    intro n hn hzero
    have hval := congrArg UInt8.toNat hzero
    rw [toNat_ofNat_succ hn] at hval
    exact absurd hval (Nat.succ_ne_zero n)
  have hlow := hne _ (entryName_digits hk).1
  have hhigh := hne _ (entryName_digits hk).2
  have hone : (1 : UInt8) ≠ 0 := by decide
  unfold entryName
  generalize UInt8.ofNat (k % 255 + 1) = low at hlow ⊢
  generalize UInt8.ofNat (k / 255 + 1) = high at hhigh ⊢
  simp [cstr, DIRSIZ, hlow, hhigh, hone]

theorem entryName_inj {j k : ℕ} (hj : j ≤ MAXENTRIES) (hk : k ≤ MAXENTRIES)
    (h : entryName j = entryName k) : j = k := by
  obtain ⟨hjlow, hjhigh⟩ := entryName_digits hj
  obtain ⟨hklow, hkhigh⟩ := entryName_digits hk
  obtain ⟨hlow, hrest⟩ := List.cons.inj (List.cons.inj h).2
  have hlow := congrArg UInt8.toNat hlow
  have hhigh := congrArg UInt8.toNat (List.cons.inj hrest).1
  rw [toNat_ofNat_succ hjlow, toNat_ofNat_succ hklow] at hlow
  rw [toNat_ofNat_succ hjhigh, toNat_ofNat_succ hkhigh] at hhigh
  omega

/-- The locked directory `dp` has `n` entries, all in use, and none has a name that comes later.
Only the inodes in `inodes` are allocated, so that there are free blocks. -/
structure Filled (s : FsState) (dp : Fin NINODE) (inodes : Finset ℕ) (n : ℕ) : Prop where
  base : ∃ held locks, Base s held locks ∧ dp ∈ locks
  type : (s.dir dp).type = T_DIR
  op : 0 < s.outstanding
  size : (s.dir dp).size = DIRENT * n
  used : ∀ k, k < n → ((s.dir dp).dirent k).inum ≠ 0
  fresh : ∀ k, n ≤ k → k ≤ MAXENTRIES → ∀ j, ¬ (s.dir dp).Finds (entryName k) j
  nodes : ∀ i, (s.node i).type ≠ 0 → i ∈ inodes
  disk : s.sb.dataStart + inodes.card * (NDIRECT + 1 + NINDIRECT) + 2 ≤ s.sb.size

variable {inodes : Finset ℕ} {n : ℕ}

theorem Filled.freeBlocks (h : Filled s dp inodes n) : 2 ≤ s.sb.freeBlocks s.disk := by
  obtain ⟨held, locks, hbase, -⟩ := h.base
  have hsize := hbase.image.owned.size_le inodes fun i hi ↦ h.nodes i (by
    rw [node_type]
    exact hi.2)
  have hdisk := h.disk
  omega

/-- A directory with the maximum number of entries is full. -/
theorem Filled.full (h : Filled s dp inodes MAXENTRIES) :
    (s.dir dp).Full (entryName MAXENTRIES) where
  size := by
    rw [h.size]
    exact (by decide : MAXFILE * BSIZE ≤ DIRENT * MAXENTRIES)
  used k hk := by
    rw [h.size] at hk
    exact h.used k (Nat.lt_of_mul_lt_mul_left hk)
  new := h.fresh MAXENTRIES (Nat.le_refl _) (Nat.le_refl _)

/-- One entry more. -/
theorem Filled.step (h : Filled s dp inodes n) (hn : n < MAXENTRIES) (hinum : s.sb.IsInum inum) :
    ∃ s', DirOp.step dp s (.dirlink (entryName n) inum) = .ok s' ∧ s'.sb = s.sb ∧
      Filled s' dp inodes (n + 1) := by
  obtain ⟨held, locks, hbase, hdp⟩ := h.base
  have hnew := h.fresh n le_rfl hn.le
  have hroom : ¬ (s.dir dp).Full (entryName n) := by
    intro hfull
    have hsize := hfull.size
    rw [h.size] at hsize
    have hmax : DIRENT * MAXENTRIES = MAXFILE * BSIZE := by decide
    have hlt := Nat.mul_lt_mul_of_pos_left hn (by decide : 0 < DIRENT)
    omega
  obtain ⟨r, s', hlink, hbase', hr⟩ := ok_of_wp (dirlink_dir (E := fun _ ↦ False) hbase hdp h.type
    h.op (entryName n) hinum (fun ⟨j, hj⟩ ↦ absurd hj (hnew j))
    (fun hfew ↦ absurd hfew (Nat.not_lt.mpr h.freeBlocks)) hroom)
  cases r with
  | false =>
    obtain ⟨⟨j, hj⟩, -⟩ := hr
    exact absurd hj (hnew j)
  | true =>
    obtain ⟨k, hslot, -, hsets⟩ := hr
    -- The slot is the one behind the last entry.
    have hk : k = n := by
      rcases hslot with hend | ⟨hlt, hempty⟩
      · exact Nat.eq_of_mul_eq_mul_left (by decide) (hend.trans h.size)
      · have hlt : DIRENT * k < (s.dir dp).size := hlt
        rw [h.size] at hlt
        exact absurd hempty (h.used k (Nat.lt_of_mul_lt_mul_left hlt))
    subst hk
    have hde := make_inRange hbase.sb hinum (entryName k)
    have hdir' := hsets.dir hbase hdp
    have hle : DIRENT * k ≤ (s.dir dp).size := h.size.ge
    refine ⟨s', ?_, hsets.sb, ⟨held, locks, hbase', hdp⟩, ?_, ?_, ?_, ?_, ?_, ?_, ?_⟩
    · have henabled : DirOp.Enabled s (.dirlink (entryName k) inum) := hinum
      have hcode : DirOp.code dp (.dirlink (entryName k) inum) s = .ok ((), s') := by
        simp only [DirOp.code, bind, StateT.bind, Except.bind, hlink]
        rfl
      rw [DirOp.step, if_pos henabled, hcode]
    · rw [hdir']
      exact h.type
    · rw [hsets.outstanding]
      exact h.op
    · rw [hdir', Node.size_setDirent, h.size]
      simp only [DIRENT]
      omega
    · intro j hj
      rw [hdir']
      rcases Nat.lt_succ_iff_lt_or_eq.mp hj with hlt | rfl
      · rw [Node.dirent_setDirent_of_ne _ _ hlt.ne]
        exact h.used j hlt
      · rw [Node.dirent_setDirent_self _ _ hde]
        exact hinum.1.ne'
    · intro i hi hmax j hj
      rw [hdir', Node.finds_iff, Node.entry_setDirent hde hle, Node.key_setDirent hde] at hj
      by_cases hjk : j = k
      · rw [if_pos hjk, if_pos hjk] at hj
        have hname : cstr DIRSIZ (Dirent.make (entryName k) inum).name = entryName k :=
          (cstr_strncpy ..).trans (cstr_entryName hn.le)
        rw [hname, cstr_entryName hmax] at hj
        have := entryName_inj hn.le hmax hj.2
        omega
      · rw [if_neg hjk, if_neg hjk] at hj
        exact h.fresh i (by omega) hmax j (Node.finds_iff.mpr hj)
    · intro i hi
      refine h.nodes i ?_
      rw [hsets.node] at hi
      by_cases heq : i = s.inum dp
      · rw [heq]
        have htype := h.type
        rw [FsState.dir] at htype
        rw [htype]
        decide
      · rwa [Function.update_of_ne heq] at hi
    · rw [hsets.sb]
      exact h.disk

/-- Any number of entries, up to the maximum. -/
theorem Filled.run (h : Filled s dp inodes n) (hinum : s.sb.IsInum inum) {m : ℕ}
    (hm : n + m ≤ MAXENTRIES) :
    ∃ s', run (DirOp.step dp) s ((List.range m).map fun i ↦ .dirlink (entryName (n + i)) inum) =
      .ok s' ∧ s'.sb = s.sb ∧ Filled s' dp inodes (n + m) := by
  induction m with
  | zero => exact ⟨s, rfl, rfl, h⟩
  | succ m ih =>
    obtain ⟨s₁, hrun, hsb, hfilled⟩ := ih (by omega)
    obtain ⟨s₂, hstep, hsb₂, hfilled₂⟩ := hfilled.step (by omega) (by rw [hsb]; exact hinum)
    refine ⟨s₂, ?_, hsb₂.trans hsb, hfilled₂⟩
    rw [List.range_succ, List.map_append, List.map_singleton, run_snoc_ok]
    exact ⟨s₁, hrun, hstep⟩

/-- The superblock that `mkfs` writes. -/
def mkfsSb : Superblock where
  size := 1000
  nblocks := 954
  ninodes := 200
  nlog := 30
  logstart := 2
  inodestart := 32
  bmapstart := 45

theorem mkfsSb_wellFormed : mkfsSb.WellFormed := by
  constructor <;> decide

/-- The root directory with its first two entries, and a new file. -/
theorem filled_root : ∃ t : Pool,
    run InodeOp.step ⟨iinit mkfsSb (format mkfsSb 2), 0⟩
      [.beginOp, .ialloc T_FILE, .iget ROOTINO, .ilock ⟨1, by decide⟩] = .ok t ∧
    t.fs.sb.IsInum 2 ∧ Filled t.fs ⟨1, by decide⟩ {1, 2} 2 := by
  have hyields : yields (run InodeOp.step ⟨iinit mkfsSb (format mkfsSb 2), 0⟩
      [.beginOp, .ialloc T_FILE, .iget ROOTINO, .ilock ⟨1, by decide⟩])
      (fun t ↦ t.fs.sb.ninodes = 200 ∧
        t.fs.sb.dataStart + ({1, 2} : Finset ℕ).card * (NDIRECT + 1 + NINDIRECT) + 2 ≤ t.fs.sb.size ∧
        0 < t.fs.outstanding ∧ (t.fs.itable ⟨1, by decide⟩).locked = true ∧
        (t.fs.dir ⟨1, by decide⟩).type = T_DIR ∧ (t.fs.dir ⟨1, by decide⟩).size = DIRENT * 2 ∧
        ((List.range 2).all fun k ↦ decide (((t.fs.dir ⟨1, by decide⟩).dirent k).inum ≠ 0 ∧
        ((t.fs.dir ⟨1, by decide⟩).key k).head? = some 46)) = true ∧
        ((List.range 200).all fun i ↦ decide ((t.fs.node i).type = 0 ∨ i ∈ ({1, 2} : Finset ℕ))) = true) = true := by
    decide +kernel
  obtain ⟨t, hrun, hninodes, hdisk, hop, hlocked, htype, hsize, hentries, hnodes⟩ :=
    exists_of_yields hyields
  simp only [List.all_eq_true, List.mem_range, decide_eq_true_eq] at hentries hnodes
  obtain ⟨locks, hbase⟩ := InodeOp.run_base
    (wellFormed_format mkfsSb_wellFormed (by decide) (by decide)) hrun
  have hfew : ∀ j, (t.fs.dir ⟨1, by decide⟩).Entry j → j < 2 := by
    intro j hj
    have hlt := hj.1
    rw [hsize] at hlt
    exact Nat.lt_of_mul_lt_mul_left hlt
  have hinum : t.fs.sb.IsInum 2 := by
    rw [Superblock.IsInum, hninodes]
    decide
  refine ⟨t, hrun, hinum, ⟨t.held, locks, hbase, (hbase.table.slot _).lock.mp hlocked⟩, htype, hop,
    hsize, fun k hk ↦ (hentries k hk).1, fun k _ hmax j hj ↦ ?_, fun i hi ↦ ?_, hdisk⟩
  · -- The entries are `.` and `..`.
    obtain ⟨hentry, hkey⟩ := Node.finds_iff.mp hj
    have hhead := (hentries j (hfew j hentry)).2
    rw [hkey, cstr_entryName hmax] at hhead
    exact absurd (Option.some.inj hhead) (by decide)
  · have htype := hi
    rw [node_type] at htype
    have hlt := (isInum_of_type htype).2
    rw [hninodes] at hlt
    exact (hnodes i hlt).resolve_left hi

/-- The root directory is filled up with links to a file.  One more link makes the kernel panic,
although the disk is not full. -/
theorem full_directory_panics : ∃ (t : Pool) (s : FsState),
    run InodeOp.step ⟨iinit mkfsSb (format mkfsSb 2), 0⟩
      [.beginOp, .ialloc T_FILE, .iget ROOTINO, .ilock ⟨1, by decide⟩] = .ok t ∧
    run (DirOp.step ⟨1, by decide⟩) t.fs
      ((List.range 17150).map fun i ↦ .dirlink (entryName (2 + i)) 2) = .ok s ∧
    2 ≤ s.sb.freeBlocks s.disk ∧
    dirlink ⟨1, by decide⟩ (entryName MAXENTRIES) 2 s = .error (.panic .dirlinkWrite) := by
  obtain ⟨t, hrun, hinum, hfilled⟩ := filled_root
  have hmax : 2 + 17150 = MAXENTRIES := by decide
  obtain ⟨s, hlinks, hsb, hfull⟩ := hfilled.run hinum hmax.le
  rw [hmax] at hfull
  obtain ⟨held, locks, hbase, hdp⟩ := hfull.base
  exact ⟨t, s, hrun, hlinks, hfull.freeBlocks, dirlink_full hbase hdp hfull.type hfull.op
    (by rw [hsb]; exact hinum) hfull.freeBlocks hfull.full⟩

end Xv6.Fs
