import Xv6.Fs.Coherence

/-!
# Files have no Holes

`bmap` allocates a block where a file has none.  `readi` calls it too, and `fileread` calls `readi`
outside any transaction.  Every block below the size of a file is there, so `readi` never allocates.
-/

namespace Xv6.Fs

open Lib

variable {sb : Superblock} {disk : Device} {s : FsState} {held : Multiset (Fin NINODE)}
  {locks : Finset (Fin NINODE)} {ip : Fin NINODE}

/-- A call logs no block outside a transaction. -/
theorem step_ne_logOutsideTrans (h : Base s 0 ∅) (action : Action) :
    step s action ≠ .error (.panic .logOutsideTrans) := by
  intro hstep
  exact step_error (E := (· ≠ .panic .logOutsideTrans)) (fun _ hne ↦ hne.2.2) h (.inl (by simp))
    hstep rfl

/-- `bmap` finds the blocks of a locked inode and allocates none. -/
theorem bmap_locked (h : Base s held locks) (hip : ip ∈ locks) {bn : ℕ}
    (hbn : bn * BSIZE < (s.itable ip).copy.size) :
    ∃ addr, addr ≠ 0 ∧ bmap ip bn s = .ok (addr, s) := by
  have hholes := h.noHoles (h.refs_of_lock hip) (h.valid_of_lock hip)
  have hblock := hholes.block bn hbn
  obtain ⟨addr, s', hok, rfl, haddr⟩ := ok_of_wp (bmap_present h.bufs hblock)
  exact ⟨addr, haddr ▸ hblock, hok⟩

/-- `readi` changes nothing and never stops. -/
theorem readi_locked (h : Base s held locks) (hip : ip ∈ locks) (mem : Dest) (dst off : ℕ) {n : ℕ}
    (hn : n < 2 ^ 32) : ∃ r, readi ip mem dst off n s = .ok (r, s) := by
  have hholes := h.noHoles (h.refs_of_lock hip) (h.valid_of_lock hip)
  obtain ⟨r, s', hok, rfl, -⟩ := ok_of_wp (readi_spec h.bufs hholes mem dst off hn)
  exact ⟨r, hok⟩

/-- `sys_read` leaves the disk as it is. -/
theorem step_read (h : Base s 0 ∅) {p : Fin NPROC} {fd : ℤ} {mem : Dest} {addr : ℕ} {n device : ℤ}
    {s' : FsState} (hstep : step s (.read p fd mem addr n device) = .ok s') : s'.disk = s.disk := by
  have hspec : wp (Action.read p fd mem addr n device).code (fun _ s' ↦ s'.disk = s.disk)
      (fun _ ↦ True) s := by
    rw [Action.code, wp_bind]
    exact wp_post (sysRead_spec (fun _ _ ↦ trivial) h p fd mem addr n device) fun _ _ hr ↦ hr.2
  have hdisk := wp_of_ok hspec (step_ok hstep).2
  exact hdisk

/-- After every run of calls an allocated inode has a block for every block index below its size.  No
further call logs a block outside a transaction, and reading leaves the disk as it is.  Also between
the steps of calls, whether an operation is outstanding or not, `bmap` finds the blocks of a locked
inode below its size without allocating one, and `readi` changes nothing and never stops. -/
theorem files_have_no_holes (h : WellFormed sb disk) :
    (∀ (actions : List Action) (s : FsState), run step (boot sb disk) actions = .ok s →
      (∀ i, Allocated s.sb s.inodes i → (s.inodes i).NoHoles s.disk) ∧
      (∀ action, step s action ≠ .error (.panic .logOutsideTrans)) ∧
      ∀ p fd mem addr n device s', step s (.read p fd mem addr n device) = .ok s' →
        s'.disk = s.disk) ∧
    ∀ (ops : List InodeOp) (t : Pool), run InodeOp.step ⟨iinit sb disk, 0⟩ ops = .ok t →
      ∀ ip, (t.fs.itable ip).locked = true →
        (∀ bn, bn * BSIZE < (t.fs.itable ip).copy.size →
          ∃ addr, addr ≠ 0 ∧ bmap ip bn t.fs = .ok (addr, t.fs)) ∧
        ∀ mem dst off n, n < 2 ^ 32 → ∃ r, readi ip mem dst off n t.fs = .ok (r, t.fs) := by
  refine ⟨fun actions s hrun ↦ ?_, fun ops t hrun ip hlocked ↦ ?_⟩
  · have hbase := h.run hrun
    exact ⟨hbase.image.noHoles, step_ne_logOutsideTrans hbase, fun _ _ _ _ _ _ _ ↦ step_read hbase⟩
  · obtain ⟨locks, hbase⟩ := InodeOp.run_base h hrun
    have hip : ip ∈ locks := (hbase.table.slot ip).lock.mp hlocked
    exact ⟨fun _ ↦ bmap_locked hbase hip, fun mem dst off _ ↦ readi_locked hbase hip mem dst off⟩

/-- A file is made and written, and its inode is locked: no operation is outstanding when it is
read. -/
theorem files_have_no_holes_small : ∃ t : Pool,
    run InodeOp.step ⟨iinit smallSb (format smallSb 2), 0⟩
      [.beginOp, .ialloc T_FILE, .ilock ⟨0, by decide⟩,
        .writei ⟨0, by decide⟩ (kernelSource [1, 2, 3]) 0 0 3, .endOp] = .ok t ∧
    t.fs.outstanding = 0 ∧
    ∃ r, readi ⟨0, by decide⟩ kernelDest 0 0 3 t.fs = .ok (r, t.fs) := by
  have hyields : yields (run InodeOp.step ⟨iinit smallSb (format smallSb 2), 0⟩
      [.beginOp, .ialloc T_FILE, .ilock ⟨0, by decide⟩,
        .writei ⟨0, by decide⟩ (kernelSource [1, 2, 3]) 0 0 3, .endOp])
      (fun t ↦ (t.fs.itable ⟨0, by decide⟩).locked = true ∧ t.fs.outstanding = 0) = true := by
    decide +kernel
  obtain ⟨t, hrun, hlocked, hnone⟩ := exists_of_yields hyields
  exact ⟨t, hrun, hnone, ((files_have_no_holes wellFormed_small).2 _ _ hrun _ hlocked).2
    kernelDest 0 0 3 (by decide)⟩

end Xv6.Fs
