import Xv6.Fs.Dirent
import Xv6.Fs.Syscall

/-!
# Directories

`dirlookup`, `dirlink` and `isdirempty` on a locked directory.
-/

namespace Xv6.Fs

open Lib

variable {s s' : FsState} {E : Stop → Prop} {held : Multiset (Fin NINODE)}
  {locks : Finset (Fin NINODE)} {dp : Fin NINODE}

/-- The stops that the lemmas here do not speak about: all but freeing a free block, locking an
inode that is not allocated and logging a block outside a transaction. -/
def Allows (E : Stop → Prop) : Prop :=
  ∀ e, e ≠ .panic .bfreeFree ∧ e ≠ .panic .ilockNoType ∧ e ≠ .panic .logOutsideTrans → E e

/-- `dirlookup` found entry `j` and returns a reference to its inode. -/
structure Found (s s' : FsState) (held : Multiset (Fin NINODE)) (locks : Finset (Fin NINODE))
    (dp : Fin NINODE) (name : List UInt8) (ip : Fin NINODE) (off j : ℕ) : Prop where
  off : off = DIRENT * j
  finds : (s.node (s.inum dp)).Finds name j
  first : ∀ i, i < j → ¬ (s.node (s.inum dp)).Finds name i
  base : Base s' (ip ::ₘ held) locks
  keeps : Keeps s s' held
  inum : s'.inum ip = ((s.node (s.inum dp)).dirent j).inum
  notLast : ¬ s'.Last held ip

section Locked

variable (h : Base s held locks) (hdp : dp ∈ locks) (hdir : (s.node (s.inum dp)).type = T_DIR)

include h hdp

theorem Base.copy_size : (s.itable dp).copy.size = (s.node (s.inum dp)).size := by
  rw [h.locked_node hdp]

theorem Base.copy_type : (s.itable dp).copy.type = (s.node (s.inum dp)).type := by
  rw [h.locked_node hdp]

theorem Base.copy_nlink : (s.itable dp).copy.nlink = (s.node (s.inum dp)).nlink := by
  rw [h.locked_node hdp]

theorem Base.dev_eq : (s.itable dp).dev = ROOTDEV :=
  (h.table.slot dp).dev (h.refs_of_lock hdp)

/-- Reading an entry. -/
theorem readi_dirent {k : ℕ} (hk : DIRENT * k + DIRENT ≤ (s.node (s.inum dp)).size) :
    wp (readi dp kernelDest 0 (DIRENT * k) DIRENT) (fun r s' ↦ s' = s ∧
      r = ((DIRENT : ℤ), (s.node (s.inum dp)).bytes (DIRENT * k) DIRENT)) E s := by
  have hholes := h.noHoles (h.refs_of_lock hdp) (h.valid_of_lock hdp)
  refine wp_post (readi_spec h.bufs hholes kernelDest 0 (DIRENT * k) (by decide)) ?_
  rintro r s' ⟨rfl, hr⟩
  refine ⟨rfl, ?_⟩
  have hsize := hholes.size
  have hmaxfile : MAXFILE * BSIZE < 2 ^ 32 := by decide
  rw [← h.copy_size hdp] at hk
  rw [hr fun _ _ ↦ rfl, if_neg (by omega), min_eq_left (by omega), h.locked_node hdp]
  rfl

include hdir

theorem Base.dirOk : (s.node (s.inum dp)).DirOk s.sb.ninodes := by
  rw [node_type] at hdir
  exact h.image.dirs _ (h.allocated (h.refs_of_lock hdp) (h.valid_of_lock hdp)) hdir

/-- An entry that starts before the end is whole. -/
theorem Base.entry_le {k : ℕ} (hk : DIRENT * k < (s.node (s.inum dp)).size) :
    DIRENT * k + DIRENT ≤ (s.node (s.inum dp)).size := by
  have hsize := (h.dirOk hdp hdir).size
  simp only [DIRENT] at *
  omega

/-- The i-number of an entry in use. -/
theorem Base.entry_isInum {k : ℕ} (hk : (s.node (s.inum dp)).Entry k) :
    s.sb.IsInum ((s.node (s.inum dp)).dirent k).inum :=
  ⟨Nat.pos_of_ne_zero hk.2, (h.dirOk hdp hdir).inum k hk.1⟩

/-- The loop of `dirlookup`, from entry `k` on. -/
theorem dirlookupLoop_spec (name : List UInt8)
    (hE : (∃ j, (s.node (s.inum dp)).Finds name j) → (∀ k, (s.itable k).ref ≠ 0) →
      E (.panic .igetNone)) {fuel k : ℕ}
    (hfuel : (s.node (s.inum dp)).size < DIRENT * (k + fuel))
    (hbefore : ∀ j, j < k → ¬ (s.node (s.inum dp)).Finds name j) :
    wp (dirlookupLoop dp name fuel (DIRENT * k)) (fun r s' ↦ match r with
      | none => s' = s ∧ ∀ j, ¬ (s.node (s.inum dp)).Finds name j
      | some (ip, off) => ∃ j, Found s s' held locks dp name ip off j) E s := by
  have hafter : ∀ k, (s.node (s.inum dp)).size ≤ DIRENT * k →
      ∀ j, k ≤ j → ¬ (s.node (s.inum dp)).Finds name j := by
    rintro k hk j hj ⟨⟨hlt, -⟩, -⟩
    simp only [DIRENT] at *
    omega
  induction fuel generalizing k with
  | zero =>
    refine ⟨rfl, fun j ↦ ?_⟩
    rcases Nat.lt_or_ge j k with hj | hj
    · exact hbefore j hj
    · exact hafter k (by rw [Nat.add_zero] at hfuel; omega) j hj
  | succ fuel ih =>
    rw [dirlookupLoop, wp_bind, wp_inode, h.copy_size hdp]
    split
    · rename_i hlt
      rw [wp_bind]
      refine wp_post (readi_dirent h hdp (h.entry_le hdp hdir hlt)) ?_
      rintro r s' ⟨rfl, rfl⟩
      simp only [ne_eq, not_true_eq_false, if_false]
      rw [← Node.dirent]
      split
      · rename_i hfound
        have hentry : (s'.node (s'.inum dp)).Entry k := ⟨hlt, hfound.1⟩
        rw [wp_bind, h.dev_eq hdp]
        refine wp_post (iget_spec h (h.entry_isInum hdp hdir hentry) (hE ⟨k, hentry, hfound.2⟩)) ?_
        rintro ip s'' ⟨hbase, hkeeps, hinum, hlast⟩
        exact ⟨k, rfl, ⟨hentry, hfound.2⟩, hbefore, hbase, hkeeps, hinum, hlast⟩
      · rename_i hnot
        refine ih (k := k + 1) (by rw [Nat.add_right_comm]; exact hfuel) fun j hj ↦ ?_
        rcases Nat.lt_succ_iff_lt_or_eq.mp hj with hj | rfl
        · exact hbefore j hj
        · rintro ⟨hentry, hname⟩
          exact hnot ⟨hentry.2, hname⟩
    · rename_i hge
      refine ⟨rfl, fun j ↦ ?_⟩
      rcases Nat.lt_or_ge j k with hj | hj
      · exact hbefore j hj
      · exact hafter k (by omega) j hj

/-- `dirlookup` on a directory. -/
theorem dirlookup_dir (name : List UInt8)
    (hE : (∃ j, (s.node (s.inum dp)).Finds name j) → (∀ k, (s.itable k).ref ≠ 0) →
      E (.panic .igetNone)) :
    wp (dirlookup dp name) (fun r s' ↦ match r with
      | none => s' = s ∧ ∀ j, ¬ (s.node (s.inum dp)).Finds name j
      | some (ip, off) => ∃ j, Found s s' held locks dp name ip off j) E s := by
  rw [dirlookup, wp_bind, wp_inode, h.copy_type hdp, h.copy_size hdp, if_neg (not_not.mpr hdir)]
  refine dirlookupLoop_spec h hdp hdir name hE (k := 0) ?_ (by simp)
  simp only [DIRENT]
  omega

omit hdir in
/-- `dirlookup` panics if the inode is not a directory. -/
theorem dirlookup_spec (hE : Allows E) (name : List UInt8) :
    wp (dirlookup dp name) (fun r s' ↦ (s.node (s.inum dp)).type = T_DIR ∧ match r with
      | none => s' = s ∧ ∀ j, ¬ (s.node (s.inum dp)).Finds name j
      | some (ip, off) => ∃ j, Found s s' held locks dp name ip off j) E s := by
  by_cases hdir : (s.node (s.inum dp)).type = T_DIR
  · exact wp_post (dirlookup_dir h hdp hdir name fun _ _ ↦ hE _ (by simp)) fun _ _ hr ↦ ⟨hdir, hr⟩
  · rw [dirlookup, wp_bind, wp_inode, h.copy_type hdp, if_pos hdir]
    exact hE _ (by simp)

/-- The loop of `dirlink` that looks for an empty entry, from entry `k` on. -/
theorem emptyEntry_spec {fuel k : ℕ}
    (hfuel : (s.node (s.inum dp)).size < DIRENT * (k + fuel))
    (hk : DIRENT * k ≤ (s.node (s.inum dp)).size)
    (hbefore : ∀ i, i < k → ((s.node (s.inum dp)).dirent i).inum ≠ 0) :
    wp (emptyEntry dp fuel (DIRENT * k)) (fun off s' ↦ s' = s ∧
      ∃ j, off = DIRENT * j ∧ (s.node (s.inum dp)).Slot j ∧
        ∀ i, i < j → ((s.node (s.inum dp)).dirent i).inum ≠ 0) E s := by
  induction fuel generalizing k with
  | zero =>
    rw [Nat.add_zero] at hfuel
    omega
  | succ fuel ih =>
    rw [emptyEntry, wp_bind, wp_inode, h.copy_size hdp]
    split
    · rename_i hlt
      rw [wp_bind]
      refine wp_post (readi_dirent h hdp (h.entry_le hdp hdir hlt)) ?_
      rintro r s' ⟨rfl, rfl⟩
      simp only [ne_eq, not_true_eq_false, if_false]
      rw [← Node.dirent]
      split
      · rename_i hempty
        exact ⟨rfl, k, rfl, .inr ⟨hlt, hempty⟩, hbefore⟩
      · rename_i hused
        refine ih (k := k + 1) (by rw [Nat.add_right_comm]; exact hfuel)
          (h.entry_le hdp hdir hlt) fun i hi ↦ ?_
        rcases Nat.lt_succ_iff_lt_or_eq.mp hi with hi | rfl
        · exact hbefore i hi
        · exact hused
    · exact ⟨rfl, k, rfl, .inl (by omega), hbefore⟩

/-- Writing an entry. -/
theorem writei_dirent (hop : 0 < s.outstanding) {de : Dirent} (hde : de.InRange)
    (hinum : de.inum < s.sb.ninodes) (k : ℕ)
    (hE : (s.node (s.inum dp)).size < DIRENT * k + DIRENT → s.sb.freeBlocks s.disk < 2 →
      E (.panic .ballocOut)) :
    wp (writei dp (kernelSource de.encode) 0 (DIRENT * k) DIRENT) (fun r s' ↦
      (((s.node (s.inum dp)).size < DIRENT * k ∨ MAXFILE * BSIZE < DIRENT * k + DIRENT) ∧
        r = -1 ∧ s' = s) ∨
      r = DIRENT ∧ Base s' held locks ∧
        Sets s s' held (s.inum dp) ((s.node (s.inum dp)).setDirent k de)) E s := by
  have hmem : ∀ x, x < DIRENT → (kernelSource de.encode (0 + x)).isSome := fun _ _ ↦ rfl
  -- All bytes of the entry are written, and no others.
  have hnew : ∀ (done : ℕ) (byte : ℕ → UInt8),
      (∀ x, x < DIRENT * k ∨ DIRENT * k + DIRENT ≤ x → byte x = (s.node (s.inum dp)).byte x) →
      ((∀ x, x < DIRENT → (kernelSource de.encode (0 + x)).isSome) → done = DIRENT ∧ ∀ x, x < DIRENT →
        some (byte (DIRENT * k + x)) = kernelSource de.encode (0 + x)) →
      (s.node (s.inum dp)).setContents (max (s.node (s.inum dp)).size (DIRENT * k + done)) byte =
        (s.node (s.inum dp)).setDirent k de := by
    intro done byte hout hall
    obtain ⟨rfl, hbytes⟩ := hall hmem
    rw [Node.setDirent]
    congr 1
    funext x
    split
    · rename_i hx
      have := hbytes (x - DIRENT * k) (by omega)
      rw [Nat.add_sub_cancel' hx.1, kernelSource, Nat.zero_add] at this
      exact Option.some.inj this
    · exact hout x (by omega)
  refine wp_post (writei_locked h hop hdp (kernelSource de.encode) 0 (DIRENT * k) (by decide)
    (fun hsize hout ↦ hE hsize (hout.resolve_right ?_)) ?_) ?_
  · simp only [DIRENT, BSIZE]
    omega
  · intro _ done byte hoff hout hall
    obtain ⟨hsize, hentries⟩ := h.dirOk hdp hdir
    rw [hnew done byte hout hall]
    refine ⟨?_, fun j hj ↦ ?_⟩
    · rw [Node.size_setDirent]
      rcases max_choice (s.node (s.inum dp)).size (DIRENT * k + DIRENT) with hmax | hmax <;> rw [hmax]
      · exact hsize
      · simp only [DIRENT]
        omega
    · by_cases hjk : j = k
      · rw [hjk, Node.dirent_setDirent_self _ _ hde]
        exact hinum
      · rw [Node.dirent_setDirent_of_ne _ _ hjk]
        refine hentries j ?_
        rw [Node.size_setDirent] at hj
        simp only [DIRENT] at *
        omega
  · rintro r s' (hfail | ⟨done, byte, rfl, -, hout, hall, hbase, hsets⟩)
    · exact .inl hfail
    · rw [hnew done byte hout hall] at hsets
      obtain ⟨rfl, -⟩ := hall hmem
      exact .inr ⟨rfl, hbase, hsets⟩

/-- The loop of `isdirempty`, from entry `k` on. -/
theorem isdiremptyLoop_spec {fuel k : ℕ}
    (hfuel : (s.node (s.inum dp)).size < DIRENT * (k + fuel)) :
    wp (isdiremptyLoop dp fuel (DIRENT * k)) (fun r s' ↦ s' = s ∧
      (r = true → ∀ j, k ≤ j → ¬ (s.node (s.inum dp)).Entry j)) E s := by
  have hafter : ∀ k, (s.node (s.inum dp)).size ≤ DIRENT * k →
      ∀ j, k ≤ j → ¬ (s.node (s.inum dp)).Entry j := by
    rintro k hk j hj ⟨hlt, -⟩
    simp only [DIRENT] at *
    omega
  induction fuel generalizing k with
  | zero => exact ⟨rfl, fun _ ↦ hafter k (by rw [Nat.add_zero] at hfuel; omega)⟩
  | succ fuel ih =>
    rw [isdiremptyLoop, wp_bind, wp_inode, h.copy_size hdp]
    split
    · rename_i hlt
      rw [wp_bind]
      refine wp_post (readi_dirent h hdp (h.entry_le hdp hdir hlt)) ?_
      rintro r s' ⟨rfl, rfl⟩
      simp only [ne_eq, not_true_eq_false, if_false]
      rw [← Node.dirent]
      split
      · exact ⟨rfl, by simp⟩
      · rename_i hempty
        refine wp_post (ih (k := k + 1) (by rw [Nat.add_right_comm]; exact hfuel)) ?_
        rintro r s' ⟨rfl, hr⟩
        refine ⟨rfl, fun htrue j hj ↦ ?_⟩
        rcases Nat.eq_or_lt_of_le hj with rfl | hlt'
        · exact fun hentry ↦ hempty hentry.2
        · exact hr htrue j hlt'
    · exact ⟨rfl, fun _ ↦ hafter k (by omega)⟩

/-- `isdirempty` finds no entry after the first two. -/
theorem isdirempty_spec :
    wp (isdirempty dp) (fun r s' ↦ s' = s ∧
      (r = true → ∀ j, 2 ≤ j → ¬ (s.node (s.inum dp)).Entry j)) E s := by
  rw [isdirempty, wp_bind, wp_inode, h.copy_size hdp, Nat.mul_comm 2 DIRENT]
  refine isdiremptyLoop_spec h hdp hdir ?_
  simp only [DIRENT]
  omega

end Locked

theorem make_inRange {sb : Superblock} (hsb : sb.WellFormed) {inum : ℕ} (hinum : sb.IsInum inum)
    (name : List UInt8) : (Dirent.make name inum).InRange :=
  ⟨lt_of_lt_of_le hinum.2 hsb.ninodes, length_strncpy _ _⟩

/-- The size of a file is bounded. -/
theorem Base.size_le (h : Base s held locks) (hdp : dp ∈ locks) :
    (s.node (s.inum dp)).size ≤ MAXFILE * BSIZE := by
  rw [← h.copy_size hdp]
  exact (h.noHoles (h.refs_of_lock hdp) (h.valid_of_lock hdp)).size

/-- The first slot cannot be written only in a directory of the maximum size that has no empty
entry. -/
theorem Base.slot_full (h : Base s held locks) (hdp : dp ∈ locks)
    (hdir : (s.node (s.inum dp)).type = T_DIR) {k : ℕ} (hslot : (s.node (s.inum dp)).Slot k)
    (hfail : (s.node (s.inum dp)).size < DIRENT * k ∨ MAXFILE * BSIZE < DIRENT * k + DIRENT) :
    MAXFILE * BSIZE ≤ (s.node (s.inum dp)).size ∧ DIRENT * k = (s.node (s.inum dp)).size := by
  have hmax := h.size_le hdp
  rcases hslot with hend | ⟨hlt, -⟩
  · have hsize := (h.dirOk hdp hdir).size
    simp only [DIRENT, MAXFILE, NDIRECT, NINDIRECT, BSIZE] at *
    omega
  · have hwhole := h.entry_le hdp hdir hlt
    omega

/-- `dirlink` on a directory fails if the name is there, and else writes a new entry. -/
theorem dirlink_dir (h : Base s held locks) (hdp : dp ∈ locks)
    (hdir : (s.node (s.inum dp)).type = T_DIR) (hop : 0 < s.outstanding) (name : List UInt8)
    {inum : ℕ} (hinum : s.sb.IsInum inum)
    (hget : (∃ j, (s.node (s.inum dp)).Finds name j) → (∀ k, (s.itable k).ref ≠ 0) →
      E (.panic .igetNone))
    (halloc : s.sb.freeBlocks s.disk < 2 → E (.panic .ballocOut))
    (hfull : (s.node (s.inum dp)).Full name → E (.panic .dirlinkWrite)) :
    wp (dirlink dp name inum) (fun r s' ↦ Base s' held locks ∧
      if r then ∃ k, (s.node (s.inum dp)).Slot k ∧ (∀ j, ¬ (s.node (s.inum dp)).Finds name j) ∧
        Sets s s' held (s.inum dp) ((s.node (s.inum dp)).setDirent k (.make name inum))
      else (∃ j, (s.node (s.inum dp)).Finds name j) ∧ Frame s s' held ∧ s'.node = s.node) E s := by
  rw [dirlink, wp_bind]
  refine wp_post (dirlookup_dir h hdp hdir name hget) ?_
  rintro (_ | ⟨ip, off⟩) t hr
  · obtain ⟨rfl, hnot⟩ := hr
    rw [wp_bind, wp_inode, wp_bind, h.copy_size hdp]
    refine wp_post (emptyEntry_spec h hdp hdir (k := 0) ?_ (Nat.zero_le _) (by simp)) ?_
    · simp only [DIRENT]
      omega
    · rintro off t' ⟨rfl, k, rfl, hslot, hused⟩
      rw [wp_bind]
      refine wp_post (writei_dirent h hdp hdir hop (make_inRange h.sb hinum name) hinum.2 k
        fun _ ↦ halloc) ?_
      rintro r s' (⟨hfail, rfl, rfl⟩ | ⟨rfl, hbase, hsets⟩)
      · obtain ⟨hmax, hend⟩ := h.slot_full hdp hdir hslot hfail
        refine hfull ⟨hmax, fun i hi ↦ hused i ?_, hnot⟩
        rw [← hend] at hi
        exact Nat.lt_of_mul_lt_mul_left hi
      · simp only [ne_eq, not_true_eq_false, if_false]
        exact ⟨hbase, k, hslot, hnot, hsets⟩
  · obtain ⟨j, hfound⟩ := hr
    rw [wp_bind]
    refine wp_post (iput_spec hfound.base (fun hip ↦ ?_)
      (by rw [hfound.keeps.outstanding]; exact hop)) ?_
    · rw [hfound.keeps.uses, ← (h.table.slot ip).refs]
      exact h.refs_of_lock hip
    · rintro _ s' ⟨hbase, hputs⟩
      exact ⟨hbase, ⟨j, hfound.finds⟩, hfound.keeps.toFrame.trans hputs.toFrame,
        (hputs.kept hfound.notLast).trans hfound.keeps.node⟩

/-- `dirlink` panics if the inode is not a directory. -/
theorem dirlink_spec (h : Base s held locks) (hdp : dp ∈ locks) (hE : Allows E)
    (hop : 0 < s.outstanding) (name : List UInt8) {inum : ℕ} (hinum : s.sb.IsInum inum) :
    wp (dirlink dp name inum) (fun r s' ↦ (s.node (s.inum dp)).type = T_DIR ∧ Base s' held locks ∧
      if r then ∃ k, (s.node (s.inum dp)).Slot k ∧ (∀ j, ¬ (s.node (s.inum dp)).Finds name j) ∧
        Sets s s' held (s.inum dp) ((s.node (s.inum dp)).setDirent k (.make name inum))
      else (∃ j, (s.node (s.inum dp)).Finds name j) ∧ Frame s s' held ∧ s'.node = s.node) E s := by
  by_cases hdir : (s.node (s.inum dp)).type = T_DIR
  · exact wp_post (dirlink_dir h hdp hdir hop name hinum (fun _ _ ↦ hE _ (by simp))
      (fun _ ↦ hE _ (by simp)) fun _ ↦ hE _ (by simp)) fun _ _ hr ↦ ⟨hdir, hr⟩
  · rw [dirlink, wp_bind]
    exact wp_post (dirlookup_spec h hdp hE name) fun _ _ hr ↦ absurd hr.1 hdir

end Xv6.Fs
