import Xv6.Fs.Ownership

/-!
# Coherence of the Inode Table

The steps that system calls make on inodes, in any order and by any number of processes.  All
references to entries of the table are in one pool, whether a running call, an open file or a
process holds them.  A step is taken by a caller that has what the step needs: a reference to lock
an inode or to give it up, the lock to read or change it.
-/

namespace Xv6.Fs

open Lib

variable {sb : Superblock} {disk : Device}

/-- The steps on inodes. -/
inductive InodeOp where
  | beginOp
  | endOp
  | ialloc (type : Int16)
  | iget (inum : ℕ)
  | idup (ip : Fin NINODE)
  | iput (ip : Fin NINODE)
  | ilock (ip : Fin NINODE)
  | iunlock (ip : Fin NINODE)
  | readi (ip : Fin NINODE) (mem : Dest) (dst off n : ℕ)
  | writei (ip : Fin NINODE) (mem : Source) (src off n : ℕ)
  | writeDirent (ip : Fin NINODE) (k : ℕ) (de : Dirent)
  | itrunc (ip : Fin NINODE)
  | iupdate (ip : Fin NINODE) (major minor nlink : Int16)

/-- The file system and the references that are held. -/
structure Pool where
  fs : FsState
  held : Multiset (Fin NINODE)

namespace InodeOp

/-- What the callers ensure: types of new inodes are not 0, i-numbers come from directories, who
locks or gives up an inode has a reference, who holds a lock keeps one, who reads or changes an
inode has locked it, only entries are written to directories, and inodes and files change inside
operations of the log. -/
def Enabled (s : Pool) : InodeOp → Prop
  | .beginOp | .endOp => True
  | .ialloc type => type ≠ 0 ∧ 0 < s.fs.outstanding
  | .iget inum => s.fs.sb.IsInum inum
  | .idup ip | .ilock ip => ip ∈ s.held
  | .iput ip => ip ∈ s.held ∧ ((s.fs.itable ip).locked = true → 2 ≤ s.held.count ip) ∧
      0 < s.fs.outstanding
  | .iunlock ip => (s.fs.itable ip).locked = true
  | .readi ip _ _ _ n => (s.fs.itable ip).locked = true ∧ n < 2 ^ 32
  | .writei ip _ _ _ n => (s.fs.itable ip).locked = true ∧ n < 2 ^ 32 ∧
      (s.fs.itable ip).copy.type ≠ T_DIR ∧ 0 < s.fs.outstanding
  | .writeDirent ip _ de => (s.fs.itable ip).locked = true ∧
      (s.fs.itable ip).copy.type = T_DIR ∧ de.inum < s.fs.sb.ninodes ∧
      de.name.length = DIRSIZ ∧ 0 < s.fs.outstanding
  | .itrunc ip | .iupdate ip _ _ _ => (s.fs.itable ip).locked = true ∧ 0 < s.fs.outstanding

instance (s : Pool) (op : InodeOp) : Decidable (op.Enabled s) := by
  cases op <;> unfold Enabled <;> infer_instance

/-- The code of a step; it returns how the references change. -/
def code : InodeOp → FsM (Multiset (Fin NINODE) → Multiset (Fin NINODE))
  | .beginOp => do
      Fs.beginOp
      return id
  | .endOp => do
      Fs.endOp
      return id
  | .ialloc type => do
      let ip ← Fs.ialloc ROOTDEV type
      return (ip ::ₘ ·)
  | .iget inum => do
      let ip ← Fs.iget ROOTDEV inum
      return (ip ::ₘ ·)
  | .idup ip => do
      let ip ← Fs.idup ip
      return (ip ::ₘ ·)
  | .iput ip => do
      Fs.iput ip
      return (·.erase ip)
  | .ilock ip => do
      Fs.ilock ip
      return id
  | .iunlock ip => do
      Fs.iunlock ip
      return id
  | .readi ip mem dst off n => do
      let _ ← Fs.readi ip mem dst off n
      return id
  | .writei ip mem src off n => do
      let _ ← Fs.writei ip mem src off n
      return id
  | .writeDirent ip k de => do
      let _ ← Fs.writei ip (kernelSource de.encode) 0 (DIRENT * k) DIRENT
      return id
  | .itrunc ip => do
      Fs.itrunc ip
      return id
  | .iupdate ip major minor nlink => do
      modifyCopy ip fun d ↦ { d with major := major, minor := minor, nlink := nlink }
      Fs.iupdate ip
      return id

/-- One step on inodes. -/
def step (s : Pool) (op : InodeOp) : Except Stop Pool :=
  if op.Enabled s then
    match op.code s.fs with
    | .ok (change, fs) => .ok ⟨fs, change s.held⟩
    | .error stop => .error stop
  else .error .disabled

/-- Every step keeps the invariant. -/
theorem code_spec {fs : FsState} {held : Multiset (Fin NINODE)} {locks : Finset (Fin NINODE)}
    (h : Base fs held locks) {op : InodeOp} (hop : op.Enabled ⟨fs, held⟩) :
    wp op.code (fun change fs' ↦ ∃ locks', Base fs' (change held) locks') (fun _ ↦ True) fs := by
  have hlock : ∀ {ip}, (fs.itable ip).locked = true → ip ∈ locks :=
    fun {ip} hl ↦ (h.table.slot ip).lock.mp hl
  cases op with
  | beginOp => exact ⟨locks, h.log _ _⟩
  | endOp => exact ⟨locks, h.log _ _⟩
  | ialloc type =>
    rw [code, wp_bind]
    exact wp_post (ialloc_spec h hop.2 hop.1 trivial trivial) fun _ _ hr ↦ ⟨locks, hr.1⟩
  | iget inum =>
    rw [code, wp_bind]
    exact wp_post (iget_spec h hop fun _ ↦ trivial) fun _ _ hr ↦ ⟨locks, hr.1⟩
  | idup ip =>
    rw [code, wp_bind]
    refine wp_post (idup_spec h (h.refs_of_mem hop)) ?_
    rintro _ fs' ⟨rfl, hbase, -⟩
    exact ⟨locks, hbase⟩
  | iput ip =>
    obtain ⟨hmem, hother, hop⟩ := hop
    rw [code, wp_bind]
    have hheld : held = ip ::ₘ held.erase ip := (Multiset.cons_erase hmem).symm
    rw [hheld] at h
    refine wp_post (iput_spec h (fun hl ↦ ?_) hop) fun _ _ hr ↦ ⟨locks, hr.1⟩
    have hcount : 2 ≤ held.count ip := hother ((h.table.slot ip).lock.mpr hl)
    rw [Multiset.count_erase_self]
    omega
  | ilock ip =>
    rw [code, wp_bind]
    exact wp_post (ilock_spec h (h.refs_of_mem hop) (fun _ ↦ trivial) (.inl trivial))
      fun _ _ hr ↦ ⟨insert ip locks, hr.2.1⟩
  | iunlock ip =>
    rw [code, wp_bind]
    exact wp_post (iunlock_spec h (hlock hop)) fun _ _ hr ↦ ⟨locks.erase ip, hr.1⟩
  | readi ip mem dst off n =>
    have hl := hlock hop.1
    rw [code, wp_bind]
    refine wp_post (readi_spec h.bufs (h.noHoles (h.refs_of_lock hl) (h.valid_of_lock hl)) mem dst off
      hop.2) ?_
    rintro _ _ ⟨rfl, -⟩
    exact ⟨locks, h⟩
  | writei ip mem src off n =>
    obtain ⟨hl, hn, htype, hop⟩ := hop
    rw [h.copy_type (hlock hl)] at htype
    rw [code, wp_bind]
    refine wp_post (writei_locked h hop (hlock hl) mem src off hn (fun _ _ ↦ trivial)
      fun hdir ↦ absurd hdir htype) ?_
    rintro _ fs' (⟨-, -, rfl⟩ | ⟨done, byte, -, -, -, -, hbase, -⟩)
    · exact ⟨locks, h⟩
    · exact ⟨locks, hbase⟩
  | writeDirent ip k de =>
    obtain ⟨hl, htype, hinum, hname, hop⟩ := hop
    rw [h.copy_type (hlock hl)] at htype
    rw [code, wp_bind]
    refine wp_post (writei_dirent h (hlock hl) htype hop
      ⟨lt_of_lt_of_le hinum h.sb.ninodes, hname⟩ hinum k fun _ _ ↦ trivial) ?_
    rintro _ fs' (⟨-, -, rfl⟩ | ⟨-, hbase, -⟩)
    · exact ⟨locks, h⟩
    · exact ⟨locks, hbase⟩
  | itrunc ip =>
    rw [code, wp_bind]
    exact wp_post (itrunc_locked h hop.2 (hlock hop.1)) fun _ _ hr ↦ ⟨locks, hr.1⟩
  | iupdate ip major minor nlink =>
    exact update_spec h hop.2 (hlock hop.1) major minor nlink rfl fun _ hbase _ ↦ ⟨locks, hbase⟩

theorem step_base {s s' : Pool} {op : InodeOp} (h : ∃ locks, Base s.fs s.held locks)
    (hstep : op.step s = .ok s') : ∃ locks, Base s'.fs s'.held locks := by
  obtain ⟨locks, h⟩ := h
  rw [step] at hstep
  split at hstep
  · rename_i hop
    split at hstep
    · rename_i change fs hcode
      obtain rfl := Except.ok.inj hstep
      exact wp_of_ok (code_spec h hop) hcode
    · cases hstep
  · cases hstep

end InodeOp

/-- The file system after `iinit`: no inode is referred to. -/
def iinit (sb : Superblock) (disk : Device) : FsState :=
  { boot sb disk with
    itable := fun _ ↦ { dev := 0, inum := 0, ref := 0, locked := false, valid := false,
                        copy := Dinode.zero }
    proc := fun _ ↦ { ofile := fun _ ↦ none, cwd := none } }

theorem WellFormed.iinit (h : WellFormed sb disk) : Base (iinit sb disk) 0 ∅ := by
  have huses : ∀ k, (Fs.iinit sb disk).uses k = 0 := by
    intro k
    rw [FsState.uses, Finset.card_eq_zero.mpr, Finset.card_eq_zero.mpr]
    · exact Finset.filter_eq_empty_iff.mpr fun p _ hp ↦ absurd hp (by simp [Fs.iinit])
    · exact Finset.filter_eq_empty_iff.mpr fun f _ hf ↦ Bool.false_ne_true hf.1
  refine ⟨h.layout, h.image, ⟨fun k l hk _ _ ↦ ?_, fun k ↦ ?_⟩, ⟨fun f _ ↦ rfl, fun f hf ↦ ?_⟩, rfl⟩
  · exact absurd hk (Nat.lt_irrefl 0)
  · rw [huses]
    exact ⟨rfl, fun hk ↦ absurd hk (Nat.lt_irrefl 0), fun hk ↦ absurd hk (Nat.lt_irrefl 0),
      by simp [Fs.iinit], by simp, fun hk ↦ absurd hk (Nat.lt_irrefl 0), by simp⟩
  · cases hf

/-- Every sequence of steps on inodes keeps the invariant. -/
theorem InodeOp.run_base (h : WellFormed sb disk) {ops : List InodeOp} {s : Pool}
    (hrun : run InodeOp.step ⟨iinit sb disk, 0⟩ ops = .ok s) :
    ∃ locks, Base s.fs s.held locks :=
  run_induction InodeOp.step (P := fun _ s ↦ ∃ locks, Base s.fs s.held locks) ⟨∅, h.iinit⟩
    (fun _ _ _ _ _ hbase hstep ↦ InodeOp.step_base hbase hstep) hrun

/-- The inode table is coherent: an inode has at most one entry, and an entry that is read and not
locked is as the inode on the disk. -/
structure Coherent (s : FsState) : Prop where
  unique : ∀ k l, 0 < (s.itable k).ref → 0 < (s.itable l).ref →
    (s.itable k).dev = (s.itable l).dev → (s.itable k).inum = (s.itable l).inum → k = l
  synced : ∀ k, 0 < (s.itable k).ref → (s.itable k).valid = true → (s.itable k).locked = false →
    (s.itable k).copy = s.sb.dinode s.disk (s.itable k).inum

theorem Base.coherent {s : FsState} {held : Multiset (Fin NINODE)} {locks : Finset (Fin NINODE)}
    (h : Base s held locks) : Coherent s where
  unique k l hk hl _ hinum := h.table.unique k l hk hl hinum
  synced k hk hvalid _ := by
    obtain ⟨hcopy, -⟩ := (h.table.slot k).synced hk hvalid
    rw [hcopy, FsState.inodes, if_pos ((h.table.slot k).inum hk)]

/-- The inode table is coherent after every sequence of steps on inodes, and between any two system
calls. -/
theorem inode_table_coherent (h : WellFormed sb disk) :
    (∀ (ops : List InodeOp) (s : Pool),
      run InodeOp.step ⟨iinit sb disk, 0⟩ ops = .ok s → Coherent s.fs) ∧
    ∀ (actions : List Action) (s : FsState),
      run step (boot sb disk) actions = .ok s → Coherent s := by
  refine ⟨fun ops s hrun ↦ ?_, fun actions s hrun ↦ (h.run hrun).coherent⟩
  obtain ⟨locks, hbase⟩ := InodeOp.run_base h hrun
  exact hbase.coherent

/-- A new file is made, written and freed again. -/
theorem inode_table_coherent_small : ∃ s : Pool,
    run InodeOp.step ⟨iinit smallSb (format smallSb 2), 0⟩
      [.beginOp, .ialloc T_FILE, .ilock ⟨0, by decide⟩,
        .writei ⟨0, by decide⟩ (kernelSource [1, 2, 3]) 0 0 3, .iunlock ⟨0, by decide⟩] = .ok s ∧
    Coherent s.fs := by
  have hok : (run InodeOp.step ⟨iinit smallSb (format smallSb 2), 0⟩
      [.beginOp, .ialloc T_FILE, .ilock ⟨0, by decide⟩,
        .writei ⟨0, by decide⟩ (kernelSource [1, 2, 3]) 0 0 3,
        .iunlock ⟨0, by decide⟩]).toBool = true := by
    decide +kernel
  cases hrun : run InodeOp.step ⟨iinit smallSb (format smallSb 2), 0⟩
      [.beginOp, .ialloc T_FILE, .ilock ⟨0, by decide⟩,
        .writei ⟨0, by decide⟩ (kernelSource [1, 2, 3]) 0 0 3, .iunlock ⟨0, by decide⟩] with
  | ok s => exact ⟨s, rfl, (inode_table_coherent wellFormed_small).1 _ _ hrun⟩
  | error stop =>
    rw [hrun] at hok
    cases hok

end Xv6.Fs
