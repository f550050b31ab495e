import Xv6.Fs.Layout
import Xv6.Lib.Wp
import Xv6.Panic

/-!
# The State of the File System

The in-memory tables of `kernel/fs.c`, `kernel/file.c` and `kernel/proc.c` that file-system calls
read and change, and the disk as it is seen through the buffer cache.  Each system call runs to
completion before the next one starts: the sleep-lock of an inode is a flag, the buffers whose
sleep-locks are taken are listed, and a call that would wait for a lock it holds itself stops.  Of
the log only the number of open operations and the blocks passed to `log_write` are kept, and of
pipes only which ends are open.
-/

namespace Xv6.Fs

open Lib

/-- `struct inode`; `copy` is the copy of the on-disk inode. -/
structure Inode where
  dev : ℕ
  inum : ℕ
  ref : ℕ
  locked : Bool
  valid : Bool
  copy : Dinode

/-- The kinds of open files. -/
inductive FileType where
  | none
  | pipe
  | inode
  | device
  deriving DecidableEq, Repr

/-- A file of this type holds a reference to an inode. -/
def FileType.hasInode : FileType → Bool
  | .inode | .device => true
  | .none | .pipe => false

/-- `struct pipe`, less the bytes in it. -/
structure Pipe where
  readopen : Bool
  writeopen : Bool

/-- `struct file`; `pipe` is the number of a page. -/
structure File where
  type : FileType
  ref : ℕ
  readable : Bool
  writable : Bool
  pipe : ℕ
  ip : Fin NINODE
  off : ℕ
  major : Int16

/-- The parts of `struct proc` that file-system calls use; a process that exited, or a slot without
a process, has no current directory. -/
structure Proc where
  ofile : Fin NOFILE → Option (Fin NFILE)
  cwd : Option (Fin NINODE)

/-- The kernel's file-system state.  `pages` tells which pages of memory are allocated to pipes, and
`pipe` is what is stored in a page. -/
structure FsState where
  sb : Superblock
  disk : Device
  itable : Fin NINODE → Inode
  ftable : Fin NFILE → File
  proc : Fin NPROC → Proc
  pages : ℕ → Bool
  pipe : ℕ → Pipe
  bufs : List ℕ
  outstanding : ℕ
  logged : List ℕ

/-- Kernel code that runs on the file-system state and may stop. -/
abbrev FsM := StateT FsState (Except Stop)

variable {α : Type}

/-- Call `panic`. -/
def panic (p : Panic) : FsM α := throw (.panic p)

/-- `begin_op`. -/
def beginOp : FsM Unit := modify fun s ↦ { s with outstanding := s.outstanding + 1 }

/-- `end_op`: the last operation commits. -/
def endOp : FsM Unit :=
  modify fun s ↦ { s with
    outstanding := s.outstanding - 1
    logged := if s.outstanding - 1 = 0 then [] else s.logged }

/-- `bread`: the contents of a block, with its buffer locked. -/
def bread (b : ℕ) : FsM Block := do
  let s ← get
  if b ∈ s.bufs then throw .disabled
  else
    set { s with bufs := b :: s.bufs }
    return s.disk b

/-- `brelse`. -/
def brelse (b : ℕ) : FsM Unit := do
  let s ← get
  if b ∈ s.bufs then set { s with bufs := s.bufs.erase b }
  else panic .brelseNotHeld

/-- A load from the buffer of a block. -/
def bload (b : ℕ) : FsM Block := do return (← get).disk b

/-- A store into the buffer of a block. -/
def bstore (b : ℕ) (data : Block) : FsM Unit :=
  modify fun s ↦ { s with disk := Function.update s.disk b data }

/-- `log_write`. -/
def logWrite (b : ℕ) : FsM Unit := do
  let s ← get
  if s.outstanding < 1 then panic .logOutsideTrans
  else set { s with logged := if b ∈ s.logged then s.logged else s.logged ++ [b] }

/-- The entry `ip` of the inode table. -/
def inode (ip : Fin NINODE) : FsM Inode := do return (← get).itable ip

/-- Change the entry `ip` of the inode table. -/
def setInode (ip : Fin NINODE) (i : Inode) : FsM Unit :=
  modify fun s ↦ { s with itable := Function.update s.itable ip i }

/-- Change the copy of the on-disk inode in the entry `ip`. -/
def modifyCopy (ip : Fin NINODE) (f : Dinode → Dinode) : FsM Unit := do
  let i ← inode ip
  setInode ip { i with copy := f i.copy }

/-- The first number from `start` on, out of `count`, that passes a test. -/
def scan (test : ℕ → Bool) : ℕ → ℕ → Option ℕ
  | _, 0 => none
  | start, count + 1 => if test start then some start else scan test (start + 1) count

theorem scan_some {test : ℕ → Bool} {start count n : ℕ} (h : scan test start count = some n) :
    test n = true ∧ start ≤ n ∧ n < start + count := by
  induction count generalizing start with
  | zero => simp [scan] at h
  | succ count ih =>
    rw [scan] at h
    split at h
    · rename_i htest
      obtain rfl := Option.some.inj h
      exact ⟨htest, by omega, by omega⟩
    · obtain ⟨htest, hstart, hn⟩ := ih h
      exact ⟨htest, by omega, by omega⟩

theorem scan_none {test : ℕ → Bool} {start count : ℕ} (h : scan test start count = none) :
    ∀ n, start ≤ n → n < start + count → test n = false := by
  induction count generalizing start with
  | zero =>
    intro n hle hlt
    omega
  | succ count ih =>
    intro n hle hlt
    rw [scan] at h
    split at h
    · cases h
    · rename_i htest
      rcases Nat.eq_or_lt_of_le hle with rfl | hgt
      · exact Bool.eq_false_of_not_eq_true htest
      · exact ih h n hgt (by omega)

/-! ## Weakest preconditions of the primitive steps -/

section Primitive

variable {s : FsState} {Q : α → FsState → Prop} {T : Unit → FsState → Prop} {E : Stop → Prop}

@[simp]
theorem wp_panic (p : Panic) : wp (panic p : FsM α) Q E s ↔ E (.panic p) := Iff.rfl

@[simp]
theorem wp_beginOp :
    wp beginOp T E s ↔ T () { s with outstanding := s.outstanding + 1 } := Iff.rfl

@[simp]
theorem wp_endOp : wp endOp T E s ↔ T () { s with
    outstanding := s.outstanding - 1
    logged := if s.outstanding - 1 = 0 then [] else s.logged } := Iff.rfl

theorem wp_bread {R : Block → FsState → Prop} {b : ℕ} (hfree : b ∉ s.bufs) :
    wp (bread b) R E s ↔ R (s.disk b) { s with bufs := b :: s.bufs } := by
  simp only [bread, wp_bind, wp_get, if_neg hfree]
  exact Iff.rfl

/-- The buffer that was locked last is released. -/
theorem wp_brelse {b : ℕ} {bufs : List ℕ} (hbufs : s.bufs = b :: bufs) :
    wp (brelse b) T E s ↔ T () { s with bufs := bufs } := by
  have hmem : b ∈ s.bufs := by simp [hbufs]
  simp only [brelse, wp_bind, wp_get, if_pos hmem]
  rw [hbufs, List.erase_cons_head]
  exact Iff.rfl

@[simp]
theorem wp_bload {R : Block → FsState → Prop} (b : ℕ) : wp (bload b) R E s ↔ R (s.disk b) s :=
  Iff.rfl

@[simp]
theorem wp_bstore (b : ℕ) (data : Block) :
    wp (bstore b data) T E s ↔ T () { s with disk := Function.update s.disk b data } := Iff.rfl

@[simp]
theorem wp_inode {R : Inode → FsState → Prop} (ip : Fin NINODE) :
    wp (inode ip) R E s ↔ R (s.itable ip) s := Iff.rfl

@[simp]
theorem wp_setInode (ip : Fin NINODE) (i : Inode) :
    wp (setInode ip i) T E s ↔ T () { s with itable := Function.update s.itable ip i } := Iff.rfl

@[simp]
theorem wp_modifyCopy (ip : Fin NINODE) (f : Dinode → Dinode) :
    wp (modifyCopy ip f) T E s ↔ T () { s with
      itable := Function.update s.itable ip
        { s.itable ip with copy := f (s.itable ip).copy } } := Iff.rfl

/-- Inside an operation, `log_write` only records the block. -/
theorem wp_logWrite (hop : 0 < s.outstanding) (b : ℕ) :
    wp (logWrite b) T E s ↔
      T () { s with logged := if b ∈ s.logged then s.logged else s.logged ++ [b] } := by
  have hneg : ¬ s.outstanding < 1 := by omega
  simp only [logWrite, wp_bind, wp_get, if_neg hneg]
  exact Iff.rfl

/-- The contents of a block are changed and logged. -/
theorem wp_bupdate (hop : 0 < s.outstanding) {b : ℕ} (hfree : b ∉ s.bufs) (f : Block → Block) :
    wp (bread b) (fun bp s₁ ↦ wp (bstore b (f bp)) (fun _ s₂ ↦ wp (logWrite b)
      (fun _ s₃ ↦ wp (brelse b) T E s₃) E s₂) E s₁) E s ↔
    T () { s with
      disk := Function.update s.disk b (f (s.disk b))
      logged := if b ∈ s.logged then s.logged else s.logged ++ [b] } := by
  rw [wp_bread hfree, wp_bstore]
  exact (wp_logWrite (by exact hop) b).trans (wp_brelse rfl)

end Primitive

end Xv6.Fs
