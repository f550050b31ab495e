import Xv6.Fs.Create

/-!
# Opening Files

The part of `sys_open` after the inode is found: a file table entry and a descriptor are allocated,
and the reference of the call becomes one of the open file.
-/

namespace Xv6.Fs

open Lib

variable {s s' : FsState} {E : Stop → Prop} {held : Multiset (Fin NINODE)}
  {locks : Finset (Fin NINODE)} {ip : Fin NINODE}

/-! ## File table entries and descriptors -/

/-- A change of the descriptors of a process. -/
theorem Base.putOfile (h : Base s held locks) (p : Fin NPROC)
    (ofile : Fin NOFILE → Option (Fin NFILE)) :
    Base (s.putProc p { s.proc p with ofile := ofile }) held locks ∧
      (s.putProc p { s.proc p with ofile := ofile }).uses = s.uses := by
  have huses : (s.putProc p { s.proc p with ofile := ofile }).uses = s.uses := by
    funext k
    have hsum : (s.putProc p { s.proc p with ofile := ofile }).uses k + (s.proc p).refers k =
        s.uses k + (s.proc p).refers k := uses_putProc s p { s.proc p with ofile := ofile } k
    exact Nat.add_right_cancel hsum
  exact ⟨h.transfer rfl rfl rfl rfl (fun k ↦ by rw [huses]) (fun k hk ↦ .inl (huses ▸ hk))
    ⟨h.files.unused, h.files.notDir⟩, huses⟩

theorem wp_filealloc {T : Option (Fin NFILE) → FsState → Prop}
    (hnone : T none s)
    (hsome : ∀ f, (s.ftable f).ref = 0 → T (some f) (s.putFile f { s.ftable f with ref := 1 })) :
    wp filealloc T E s := by
  rw [filealloc, wp_bind, wp_get]
  split
  · rename_i f hfind
    exact hsome f (by simpa using List.find?_some hfind)
  · exact hnone

theorem wp_fdalloc {T : Option (Fin NOFILE) → FsState → Prop} (p : Fin NPROC) (f : Fin NFILE)
    (hnone : T none s)
    (hsome : ∀ fd, T (some fd) (s.putProc p
      { s.proc p with ofile := Function.update (s.proc p).ofile fd (some f) })) :
    wp (fdalloc p f) T E s := by
  rw [fdalloc, wp_bind, wp_get]
  split
  · exact hsome _
  · exact hnone

/-- Closing a file that was allocated and not used. -/
theorem wp_fileclose_unused {T : Unit → FsState → Prop} {f : Fin NFILE}
    (href : (s.ftable f).ref = 1) (htype : (s.ftable f).type = .none)
    (h : T () (s.putFile f { s.ftable f with ref := 0, type := .none })) :
    wp (fileclose f) T E s := by
  rw [fileclose, wp_bind, wp_get]
  simp only [href, htype]
  exact h

/-! ## Opening -/

/-- What opening inode `i` does to files. -/
structure Opened (s s' : FsState) (i : ℕ) : Prop where
  node : s'.node = s.node ∨ ((s.node i).type = T_FILE ∧
    s'.node = Function.update s.node i ((s.node i).setContents 0 fun _ ↦ 0))
  keeps : ∀ j, s.InUse j → s'.InUse j
  only : ∀ j, s'.InUse j → s.InUse j ∨ j = i

/-- Opening an existing file. -/
theorem Opened.minor {i : ℕ} (h : Opened s s' i) (hcalm : s.Calm) : Minor s s' := by
  rcases h.node with hsame | ⟨htype, hset⟩
  · exact .same hcalm hsame h.keeps
  · exact .write hcalm (by rw [htype]; decide) (by rw [htype]; decide) hset h.keeps

/-- The ways to fail give up the inode. -/
theorem open_fail (h : Base s (ip ::ₘ 0) {ip}) (hop : 0 < s.outstanding) (i : ℕ) :
    wp (do
      iunlockput ip
      endOp
      return (-1 : ℤ)) (fun _ s' ↦ Base s' 0 ∅ ∧ (s.Calm → Opened s s' i)) E s := by
  rw [wp_bind]
  refine wp_post (iunlockput_quiet h (by simp) hop) ?_
  rintro _ s₁ ⟨h₁, hq⟩
  rw [Finset.erase_singleton] at h₁
  rw [wp_bind, wp_endOp, wp_pure]
  exact ⟨h₁.log _ _, fun hcalm ↦ ⟨.inl (hq.node hcalm), fun j ↦ (hq.inUse_iff j).mpr,
    fun j hj ↦ .inl ((hq.inUse_iff j).mp hj)⟩⟩

/-- Giving the reference of the call to an unused file. -/
theorem Base.openFile (h : Base s (ip ::ₘ 0) {ip}) {f : Fin NFILE} {file : File}
    (hunused : (s.ftable f).type = .none) (htype : file.type.hasInode = true) (href : file.ref ≠ 0)
    (hip : file.ip = ip)
    (hdir : file.type = .inode → file.writable = true → (s.node (s.inum ip)).type ≠ T_DIR) :
    Base (s.putFile f file) 0 {ip} ∧ ∀ k, (s.putFile f file).uses k =
      s.uses k + if k = ip then 1 else 0 := by
  have huses : ∀ k, (s.putFile f file).uses k = s.uses k + if k = ip then 1 else 0 := by
    intro k
    have hsum := uses_putFile s f file k
    have hnone : (s.ftable f).refers k = 0 := by simp [File.refers, hunused, FileType.hasInode]
    have hone : file.refers k = if k = ip then 1 else 0 := by
      simp [File.refers, htype, hip, eq_comm]
    rw [← hone, ← hsum, hnone, Nat.add_zero]
  refine ⟨h.transfer rfl rfl rfl rfl (fun k ↦ ?_) (fun k hk ↦ ?_) (h.files.putFile
    (fun hzero ↦ absurd hzero href) (by rw [hip]; exact hdir)), huses⟩
  · rw [huses, Multiset.count_cons, Multiset.count_zero]
    split <;> rfl
  · by_cases hk' : k = ip
    · subst hk'
      exact .inr (h.valid_of_lock (by simp))
    · rw [huses, if_neg hk'] at hk
      exact .inl hk

/-- Changes outside the disk and the inode table that keep the references. -/
theorem Opened.congr {t : FsState} {i : ℕ} (h : Opened t s' i) (hnode : t.node = s.node)
    (hitable : t.itable = s.itable) (huses : t.uses = s.uses) : Opened s s' i := by
  have huse : ∀ j, t.InUse j ↔ s.InUse j := by
    intro j
    rw [FsState.InUse, FsState.InUse]
    simp only [huses, FsState.inum, hitable]
  obtain ⟨hset, hkeeps, honly⟩ := h
  rw [hnode] at hset
  exact ⟨hset, fun j hj ↦ hkeeps j ((huse j).mpr hj), fun j hj ↦ (honly j hj).imp (huse j).mp id⟩

/-- The end of `sys_open`. -/
theorem open_end {t : FsState} {i : ℕ} (ht : Base t 0 {ip}) (hopened : Opened s t i) (fd : ℤ) :
    wp (do
      iunlock ip
      endOp
      return fd) (fun _ s' ↦ Base s' 0 ∅ ∧ (s.Calm → Opened s s' i)) E t := by
  rw [wp_bind]
  refine wp_post (iunlock_last ht) ?_
  rintro _ s₁ ⟨⟨h₁, -⟩, hkeeps⟩
  obtain ⟨hset, huse, honly⟩ := hopened
  rw [← hkeeps.node] at hset
  exact ⟨h₁.log _ _, fun _ ↦ ⟨hset, fun j hj ↦ (hkeeps.inUse_iff j).mpr (huse j hj),
    fun j hj ↦ honly j ((hkeeps.inUse_iff j).mp hj)⟩⟩

/-- The file takes the reference of the call, and the inode is truncated or not. -/
theorem open_file (h : Base s (ip ::ₘ 0) {ip}) (hop : 0 < s.outstanding) {f : Fin NFILE}
    {file : File} (hunused : (s.ftable f).type = .none) (htype : file.type.hasInode = true)
    (href : file.ref ≠ 0) (hip : file.ip = ip)
    (hdir : file.type = .inode → file.writable = true → (s.node (s.inum ip)).type ≠ T_DIR)
    (trunc : Prop) [Decidable trunc] (htrunc : trunc → (s.node (s.inum ip)).type = T_FILE)
    (fd : ℤ) :
    wp (do
      if trunc then itrunc ip else pure ()
      iunlock ip
      endOp
      return fd) (fun _ s' ↦ Base s' 0 ∅ ∧ (s.Calm → Opened s s' (s.inum ip))) E
        (s.putFile f file) := by
  obtain ⟨h₁, huses⟩ := h.openFile hunused htype href hip hdir
  have hkeeps : ∀ j, s.InUse j → (s.putFile f file).InUse j :=
    fun j hj ↦ hj.congr rfl fun k ↦ by rw [huses]; exact Nat.le_add_right _ _
  have honly : ∀ j, (s.putFile f file).InUse j → s.InUse j ∨ j = s.inum ip := by
    rintro j ⟨k, hk, hkj⟩
    by_cases hkip : k = ip
    · exact .inr (hkip ▸ hkj.symm)
    · rw [huses, if_neg hkip] at hk
      exact .inl ⟨k, hk, hkj⟩
  change wp (if trunc then _ else _) _ E _
  split
  · rename_i hc
    rw [wp_bind]
    refine wp_post (itrunc_locked h₁ hop (by simp)) ?_
    rintro _ t ⟨h₂, hsets⟩
    exact open_end h₂ ⟨.inr ⟨htrunc hc, hsets.node⟩,
      fun j hj ↦ (hsets.inUse_iff j).mpr (hkeeps j hj),
      fun j hj ↦ honly j ((hsets.inUse_iff j).mp hj)⟩ fd
  · have hopened : Opened s (s.putFile f file) (s.inum ip) := ⟨.inl rfl, hkeeps, honly⟩
    exact open_end h₁ hopened fd

/-- The part of `sys_open` after the inode is found and locked. -/
theorem openLocked_spec (h : Base s (ip ::ₘ 0) {ip}) (hop : 0 < s.outstanding) (p : Fin NPROC)
    {omode : ℕ} (hdir : (s.node (s.inum ip)).type = T_DIR → omode = O_RDONLY) :
    wp (openLocked p ip omode)
      (fun _ s' ↦ Base s' 0 ∅ ∧ (s.Calm → Opened s s' (s.inum ip))) E s := by
  have hmem : ip ∈ ({ip} : Finset (Fin NINODE)) := by simp
  rw [openLocked, wp_bind, wp_inode]
  dsimp only
  rw [h.copy_type hmem]
  split
  · exact open_fail h hop _
  · rw [wp_bind]
    refine wp_filealloc (open_fail h hop _) fun f hf ↦ ?_
    have hnone := h.files.unused f hf
    set t := s.putFile f { s.ftable f with ref := 1 } with ht
    have hfiles : Files t :=
      h.files.putFile (fun hzero ↦ absurd hzero Nat.one_ne_zero) (h.files.notDir f)
    obtain ⟨hbase, huses⟩ := h.putFile hfiles rfl
    have hself : t.ftable f = { s.ftable f with ref := 1 } := Function.update_self ..
    dsimp only
    rw [wp_bind]
    refine wp_fdalloc p f ?_ fun fd ↦ ?_
    · dsimp only
      rw [wp_bind]
      refine wp_fileclose_unused (by rw [hself]) (by rw [hself]; exact hnone) ?_
      have hfiles' : Files (t.putFile f { t.ftable f with ref := 0, type := .none }) :=
        hfiles.putFile (fun _ ↦ rfl) (by simp)
      have hrefers : File.refers { t.ftable f with ref := 0, type := .none } =
          (t.ftable f).refers := by
        funext k
        simp [File.refers, hself, hnone]
      obtain ⟨hbase', huses'⟩ := hbase.putFile hfiles' hrefers
      refine wp_post (open_fail hbase' hop (s.inum ip)) fun _ s' hr ↦ ⟨hr.1, fun hcalm ↦ ?_⟩
      exact (hr.2 (hcalm.congr rfl fun j hj ↦ hj.congr rfl fun k ↦ by
        rw [huses', huses])).congr rfl rfl (huses'.trans huses)
    · obtain ⟨hbase₁, huses₁⟩ := hbase.putOfile p
        (Function.update (t.proc p).ofile fd (some f))
      set t₁ := t.putProc p { t.proc p with
        ofile := Function.update (t.proc p).ofile fd (some f) } with ht₁
      have hself₁ : t₁.ftable f = { s.ftable f with ref := 1 } := hself
      rw [wp_bind, wp_get, wp_bind, wp_setFile]
      refine wp_post (open_file hbase₁ hop (by rw [hself₁]; exact hnone) ?_ ?_ rfl ?_ _ (·.2)
        fd.val) fun _ s' hr ↦ ⟨hr.1, fun hcalm ↦ ?_⟩
      · dsimp only
        split <;> rfl
      · rw [hself₁]
        exact Nat.one_ne_zero
      · intro _ hwritable htype
        rw [hdir htype] at hwritable
        have hno : decide (O_RDONLY &&& O_WRONLY ≠ 0 ∨ O_RDONLY &&& O_RDWR ≠ 0) = true := hwritable
        exact absurd hno (by decide)
      · have huses' : t₁.uses = s.uses := huses₁.trans huses
        exact (hr.2 (hcalm.congr rfl fun j hj ↦ hj.congr rfl fun k ↦ by rw [huses'])).congr rfl rfl
          huses'

end Xv6.Fs
