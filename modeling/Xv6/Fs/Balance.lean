import Xv6.Fs.Layer
import Xv6.Fs.Calls
import Xv6.Fs.Format

/-!
# References, Locks and Operations Balance

Every way through a call gives back what it takes: references to inodes, sleep-locks of inodes and
buffers, and operations of the log.
-/

namespace Xv6.Fs

open Lib

/-! ## Operations -/

section Operations

variable {α : Type} {x : FsM α}

/-- The code ends as many operations as it begins. -/
abbrev Steady (x : FsM α) : Prop := Preserves (fun s ↦ ((), s.outstanding)) (fun _ ↦ True) x

/-- The code ends one operation more than it begins. -/
abbrev EndsOne (x : FsM α) : Prop := Ends (fun _ ↦ ()) (fun _ ↦ True) x

theorem Below.steady (h : Below x) : Steady x :=
  (h.map fun tables ↦ ((), tables.2)).weaken fun _ _ ↦ trivial

theorem Closes.endsOne (h : Closes x) : EndsOne x :=
  fun s ↦ wp_mono (h s) (fun _ _ hr ↦ ⟨rfl, hr.2⟩) fun _ _ ↦ trivial

theorem EndsOne.begin (h : EndsOne x) : Steady (do
    beginOp
    x) := Ends.begin (fun _ _ _ ↦ rfl) h

theorem endsOne_endOp : EndsOne endOp := Ends.endOp fun _ _ _ ↦ rfl

namespace Steady

theorem throw (e : Stop) : Steady (MonadExcept.throw e : FsM α) := Preserves.throw trivial

theorem setFile (f : Fin NFILE) (file : File) : Steady (setFile f file) := .modify fun _ ↦ rfl

theorem setOfile (p : Fin NPROC) (fd : Fin NOFILE) (f : Option (Fin NFILE)) :
    Steady (setOfile p fd f) := .modify fun _ ↦ rfl

theorem setCwd (p : Fin NPROC) (ip : Option (Fin NINODE)) : Steady (setCwd p ip) :=
  .modify fun _ ↦ rfl

theorem filealloc : Steady filealloc := by
  refine .get_bind fun s ↦ ?_
  split
  · exact (setFile _ _).bind fun _ ↦ .pure _
  · exact .pure _

theorem filedup (f : Fin NFILE) : Steady (filedup f) :=
  .get_bind fun _ ↦ .ite (fun _ ↦ throw _) fun _ ↦ setFile f _

theorem pipeclose (pi : ℕ) (writable : Bool) : Steady (pipeclose pi writable) :=
  .get_bind fun _ ↦ .bind (.modify fun _ ↦ rfl) fun _ ↦ .ite (fun _ ↦ .modify fun _ ↦ rfl)
    fun _ ↦ .pure _

theorem fileclose (f : Fin NFILE) : Steady (fileclose f) := by
  refine .get_bind fun s ↦ .ite (fun _ ↦ throw _) fun _ ↦ .ite (fun _ ↦ setFile f _) fun _ ↦
    (setFile f _).bind fun _ ↦ ?_
  have hput : Steady (do
      beginOp
      iput (s.ftable f).ip
      endOp) := EndsOne.begin (.after (Below.iput _).steady fun _ ↦ endsOne_endOp)
  split
  · exact .pure _
  · exact pipeclose _ _
  · exact hput
  · exact hput

theorem fileread (f : Fin NFILE) (mem : Dest) (addr : ℕ) (n device : ℤ) :
    Steady (fileread f mem addr n device) := by
  refine .get_bind fun s ↦ .ite (fun _ ↦ .pure _) fun _ ↦ ?_
  have hend : ∀ r : ℤ, Steady (do
      iunlock (s.ftable f).ip
      return r) := fun _ ↦ (Below.iunlock _).steady.bind fun _ ↦ .pure _
  split
  · exact .pure _
  · exact .ite (fun _ ↦ .pure _) fun _ ↦ .pure _
  · exact (Below.ilock _).steady.bind fun _ ↦ (Below.readi _ _ _ _ _).steady.bind fun _ ↦
      .ite (fun _ ↦ (setFile f _).bind fun _ ↦ hend _) fun _ ↦ hend _
  · exact throw _

theorem filewriteLoop (f : Fin NFILE) (mem : Source) (addr : ℕ) (n : ℤ) (fuel : ℕ) (i : ℤ) :
    Steady (filewriteLoop f mem addr n fuel i) := by
  induction fuel generalizing i with
  | zero => exact .pure _
  | succ fuel ih =>
    have hend : ∀ (ip : Fin NINODE) (r : ℤ), EndsOne (do
        iunlock ip
        endOp
        if r ≠ min (n - i) MAXCHUNK then return i
        else Fs.filewriteLoop f mem addr n fuel (i + r)) := fun _ _ ↦
      .after (Below.iunlock _).steady fun _ ↦ endsOne_endOp.bind fun _ ↦
      .ite (fun _ ↦ .pure _) fun _ ↦ ih _
    refine .ite (fun _ ↦ EndsOne.begin (.get fun s ↦ .after (Below.ilock _).steady fun _ ↦
      .after (Below.writei _ _ _ _ _).steady fun r ↦ ?_)) fun _ ↦ .pure _
    exact .ite (fun _ ↦ .after (setFile f _) fun _ ↦ hend _ r) fun _ ↦ hend _ r

theorem filewrite (f : Fin NFILE) (mem : Source) (addr : ℕ) (n device : ℤ) :
    Steady (filewrite f mem addr n device) := by
  refine .get_bind fun s ↦ .ite (fun _ ↦ .pure _) fun _ ↦ ?_
  split
  · exact .pure _
  · exact .ite (fun _ ↦ .pure _) fun _ ↦ .pure _
  · exact (filewriteLoop f mem addr n _ _).bind fun _ ↦ .pure _
  · exact throw _

theorem kalloc (page : Option ℕ) : Steady (kalloc page) := by
  cases page with
  | none => exact .pure _
  | some pi =>
    intro s
    rw [Fs.kalloc, wp_bind, wp_get]
    split
    · trivial
    · rfl

theorem pipealloc (page : Option ℕ) : Steady (pipealloc page) := by
  refine filealloc.bind fun f ↦ ?_
  cases f with
  | none => exact .pure _
  | some f0 =>
    refine filealloc.bind fun f ↦ ?_
    cases f with
    | none => exact (fileclose f0).bind fun _ ↦ .pure _
    | some f1 =>
      refine (kalloc page).bind fun pi ↦ ?_
      cases pi with
      | none => exact (fileclose f0).bind fun _ ↦ (fileclose f1).bind fun _ ↦ .pure _
      | some pi =>
        exact .bind (.modify fun _ ↦ rfl) fun _ ↦ .get_bind fun _ ↦ (setFile f0 _).bind fun _ ↦
          .get_bind fun _ ↦ (setFile f1 _).bind fun _ ↦ .pure _

theorem fdalloc (p : Fin NPROC) (f : Fin NFILE) : Steady (fdalloc p f) := by
  refine .get_bind fun s ↦ ?_
  split
  · exact (setOfile p _ _).bind fun _ ↦ .pure _
  · exact .pure _

/-- A call on a descriptor. -/
theorem argfd (p : Fin NPROC) (fd : ℤ) {f : Option (Fin NOFILE × Fin NFILE) → FsM α}
    (hnone : Steady (f none)) (hsome : ∀ slot file, Steady (f (some (slot, file)))) :
    Steady (argfd p fd >>= f) := by
  have hargfd : Steady (Fs.argfd p fd) := by
    rw [Fs.argfd]
    split
    · refine .get_bind fun s ↦ ?_
      split <;> exact .pure _
    · exact .pure _
  refine hargfd.bind fun r ↦ ?_
  rcases r with _ | ⟨slot, file⟩
  · exact hnone
  · exact hsome slot file

theorem sysPipe (p : Fin NPROC) (page : Option ℕ) (copied : Bool) :
    Steady (sysPipe p page copied) := by
  refine (pipealloc page).bind fun ends ↦ ?_
  rcases ends with _ | ⟨rf, wf⟩
  · exact .pure _
  have hclose : Steady (do
      Fs.fileclose rf
      Fs.fileclose wf
      return (-1 : ℤ)) := (fileclose rf).bind fun _ ↦ (fileclose wf).bind fun _ ↦ .pure _
  refine (fdalloc p rf).bind fun fd0 ↦ ?_
  cases fd0 with
  | none => exact hclose
  | some fd0 =>
    refine (fdalloc p wf).bind fun fd1 ↦ ?_
    cases fd1 with
    | none => exact (setOfile p fd0 none).bind fun _ ↦ hclose
    | some fd1 =>
      exact .ite (fun _ ↦ .pure _) fun _ ↦ (setOfile p fd0 none).bind fun _ ↦
        (setOfile p fd1 none).bind fun _ ↦ hclose

end Steady

theorem EndsOne.openLocked (p : Fin NPROC) (ip : Fin NINODE) (omode : ℕ) :
    EndsOne (openLocked p ip omode) := by
  have hfail : EndsOne (do
      iunlockput ip
      endOp
      return (-1 : ℤ)) := (Closes.iunlockput ip _).endsOne
  refine .after (Below.inode ip).steady fun _ ↦ .ite (fun _ ↦ hfail) fun _ ↦
    .after Steady.filealloc fun f ↦ ?_
  cases f with
  | none => exact hfail
  | some f =>
    refine .after (Steady.fdalloc p f) fun fd ↦ ?_
    cases fd with
    | none => exact .after (Steady.fileclose f) fun _ ↦ hfail
    | some fd =>
      have hend : EndsOne (do
          iunlock ip
          endOp
          return (fd.val : ℤ)) :=
        .after (Below.iunlock ip).steady fun _ ↦ (Closes.endOp _).endsOne
      exact .get fun _ ↦ .after (Steady.setFile f _) fun _ ↦
        .ite (fun _ ↦ .after (Below.itrunc ip).steady fun _ ↦ hend) fun _ ↦ hend

theorem Steady.sysOpen (p : Fin NPROC) (path : List UInt8) (omode : ℕ) :
    Steady (sysOpen p path omode) := by
  have hnone : EndsOne (do
      endOp
      return (-1 : ℤ)) := (Closes.endOp _).endsOne
  refine EndsOne.begin (.ite (fun _ ↦ .after (Below.create _ _ _ _ _).steady fun ip ↦ ?_)
    fun _ ↦ .after (Below.namei _ _).steady fun ip ↦ ?_)
  · cases ip with
    | none => exact hnone
    | some ip => exact EndsOne.openLocked p ip omode
  · cases ip with
    | none => exact hnone
    | some ip =>
      exact .after (Below.ilock ip).steady fun _ ↦ .after (Below.inode ip).steady fun _ ↦
        .ite (fun _ ↦ (Closes.iunlockput ip _).endsOne) fun _ ↦
        EndsOne.openLocked p ip omode

theorem Steady.sysChdir (p : Fin NPROC) (path : List UInt8) : Steady (sysChdir p path) := by
  refine EndsOne.begin (.after (Below.namei _ _).steady fun ip ↦ ?_)
  cases ip with
  | none => exact (Closes.endOp _).endsOne
  | some ip =>
    exact .after (Below.ilock ip).steady fun _ ↦ .after (Below.inode ip).steady fun _ ↦
      .ite (fun _ ↦ (Closes.iunlockput ip _).endsOne) fun _ ↦
      .after (Below.iunlock ip).steady fun _ ↦ .after (Below.cwd p).steady fun ip ↦
      .after (Below.iput ip).steady fun _ ↦ endsOne_endOp.bind fun _ ↦
      (Steady.setCwd p _).bind fun _ ↦ .pure _

theorem Steady.exit (p : Fin NPROC) : Steady (exit p) := by
  refine .ite (fun _ ↦ throw _) fun _ ↦ .bind (.forM fun fd ↦ .get_bind fun s ↦ ?_) fun _ ↦
    EndsOne.begin (.after (Below.cwd p).steady fun ip ↦ .after (Below.iput ip).steady fun _ ↦
      endsOne_endOp.bind fun _ ↦ setCwd p none)
  split
  · exact (fileclose _).bind fun _ ↦ setOfile p fd none
  · exact .pure _

theorem Steady.fork (p np : Fin NPROC) : Steady (fork p np) := by
  refine .get_bind fun _ ↦ .ite (fun _ ↦ throw _) fun _ ↦
    .bind (.forM fun fd ↦ .get_bind fun s ↦ ?_) fun _ ↦ (Below.cwd p).steady.bind fun ip ↦
    (Below.idup ip).steady.bind fun ip ↦ setCwd np _
  split
  · exact (filedup _).bind fun _ ↦ setOfile np fd _
  · exact .pure _

/-- On every way through a call, from any state, as many operations are ended as are begun. -/
theorem Action.steady (action : Action) : Steady action.code := by
  cases action with
  | «open» p path omode => exact (Steady.sysOpen p path omode).bind fun _ ↦ .pure _
  | mkdir p path => exact (Below.sysCreate p path _ _ _).steady.bind fun _ ↦ .pure _
  | mknod p path major minor => exact (Below.sysCreate p path _ _ _).steady.bind fun _ ↦ .pure _
  | link p old new => exact (Below.sysLink p old new).steady.bind fun _ ↦ .pure _
  | unlink p path => exact (Below.sysUnlink p path).steady.bind fun _ ↦ .pure _
  | chdir p path => exact (Steady.sysChdir p path).bind fun _ ↦ .pure _
  | read p fd mem addr n device =>
    have hread : Steady (sysRead p fd mem addr n device) :=
      .argfd p fd (.pure _) fun _ f ↦ .fileread f mem addr n device
    exact hread.bind fun _ ↦ .pure _
  | write p fd mem addr n device =>
    have hwrite : Steady (sysWrite p fd mem addr n device) :=
      .argfd p fd (.pure _) fun _ f ↦ .filewrite f mem addr n device
    exact hwrite.bind fun _ ↦ .pure _
  | fstat p fd => exact Steady.argfd p fd (.pure _) fun _ f ↦ (Below.filestat f).steady
  | dup p fd =>
    have hdup : Steady (sysDup p fd) := by
      refine .argfd p fd (.pure _) fun _ f ↦ (Steady.fdalloc p f).bind fun new ↦ ?_
      cases new with
      | none => exact .pure _
      | some new => exact (Steady.filedup f).bind fun _ ↦ .pure _
    exact hdup.bind fun _ ↦ .pure _
  | close p fd =>
    have hclose : Steady (sysClose p fd) :=
      .argfd p fd (.pure _) fun slot f ↦ (Steady.setOfile p slot none).bind fun _ ↦
        (Steady.fileclose f).bind fun _ ↦ .pure _
    exact hclose.bind fun _ ↦ .pure _
  | pipe p page copied => exact (Steady.sysPipe p page copied).bind fun _ ↦ .pure _
  | exec p path mem => exact (Below.exec p path mem).steady.bind fun _ ↦ .pure _
  | pathFault p => exact Below.pathFault.steady.bind fun _ ↦ .pure _
  | fork p np => exact Steady.fork p np
  | exit p => exact Steady.exit p

end Operations

/-! ## The system -/

theorem FileType.hasInode_iff (type : FileType) :
    type.hasInode = true ↔ type = .inode ∨ type = .device := by
  cases type <;> decide

/-- A call leaves the number of outstanding operations as it was. -/
theorem step_outstanding {s s' : FsState} {action : Action} (hstep : step s action = .ok s') :
    s'.outstanding = s.outstanding := by
  have hsteady := wp_of_ok (action.steady s) (step_ok hstep).2
  exact congrArg Prod.snd hsteady

/-- In every state the processes can reach, an entry of the inode table has as many references as
there are open files and current directories at it, no inode and no buffer is locked, and no
operation is outstanding; and however many operations are outstanding when a call starts, as many
are when it returns. -/
theorem inode_references_balance {sb : Superblock} {disk : Device} (h : WellFormed sb disk)
    {actions : List Action} {s : FsState} (hrun : run step (boot sb disk) actions = .ok s) :
    (∀ ip, (s.itable ip).ref =
      (Finset.univ.filter fun f ↦
        ((s.ftable f).type = .inode ∨ (s.ftable f).type = .device) ∧ (s.ftable f).ip = ip).card +
      (Finset.univ.filter fun p ↦ (s.proc p).cwd = some ip).card) ∧
    (∀ ip, (s.itable ip).locked = false) ∧
    s.bufs = [] ∧
    s.outstanding = 0 ∧
    ∀ (action : Action) (n : ℕ) (s' : FsState),
      action.code { s with outstanding := n } = .ok ((), s') → s'.outstanding = n := by
  have hbase : Base s 0 ∅ := h.run hrun
  refine ⟨fun ip ↦ ?_, fun ip ↦ ?_, hbase.bufs, ?_, fun action n s' hcode ↦ ?_⟩
  · have hrefs := (hbase.table.slot ip).refs
    rw [Multiset.count_zero, Nat.add_zero, FsState.uses] at hrefs
    rw [hrefs]
    refine congrArg (· + _) (congrArg Finset.card (Finset.filter_congr fun f _ ↦ ?_))
    rw [FileType.hasInode_iff]
  · exact Bool.eq_false_iff.mpr fun hlocked ↦
      Finset.notMem_empty ip ((hbase.table.slot ip).lock.mp hlocked)
  · exact run_induction step (P := fun _ s ↦ s.outstanding = 0) rfl
      (fun _ _ _ _ _ hzero hstep ↦ (step_outstanding hstep).trans hzero) hrun
  · have hsteady := wp_of_ok (action.steady { s with outstanding := n }) hcode
    exact congrArg Prod.snd hsteady

/-- A file is made and opened twice, a directory is made and entered, and a call on a missing path
fails: the entries of the file and of the directory have two references and one. -/
theorem inode_references_balance_small : ∃ s : FsState, run step small
    [.open initproc [97] O_CREATE, .open initproc [97] O_RDONLY, .mkdir initproc [98],
      .chdir initproc [98], .unlink initproc [99, 47, 100]] = .ok s ∧
    (s.itable ⟨1, by decide⟩).ref = 2 ∧ (s.itable ⟨2, by decide⟩).ref = 1 ∧
    (∀ ip, (s.itable ip).locked = false) ∧ s.bufs = [] ∧ s.outstanding = 0 := by
  have hyields : yields (run step small
      [.open initproc [97] O_CREATE, .open initproc [97] O_RDONLY, .mkdir initproc [98],
        .chdir initproc [98], .unlink initproc [99, 47, 100]])
      (fun s ↦ (s.itable ⟨1, by decide⟩).ref = 2 ∧ (s.itable ⟨2, by decide⟩).ref = 1) = true := by
    decide +kernel
  obtain ⟨s, hrun, hfile, hdir⟩ := exists_of_yields hyields
  obtain ⟨-, hlocked, hbufs, hout, -⟩ := inode_references_balance wellFormed_small hrun
  exact ⟨s, hrun, hfile, hdir, hlocked, hbufs, hout⟩

end Xv6.Fs
