import Mathlib.Data.Fintype.Card
import Mathlib.Data.Multiset.Count
import Xv6.Fs.Blocks
import Xv6.Fs.Name

/-!
# The Invariant of the File System

What holds between any two steps of a system call that other code could see: the blocks are owned,
files have no holes, directories hold i-numbers, and the inode table agrees with the disk and with
those who use it.  The running call takes part in it through the references and the locks it holds.
`FsState.node` is what an inode is to a user: its attributes and its bytes, without its blocks.
-/

namespace Xv6.Fs

open Lib

instance (sb : Superblock) (i : ℕ) : Decidable (sb.IsInum i) :=
  inferInstanceAs (Decidable (_ ∧ _))

/-- A file as its users see it. -/
structure Node where
  type : Int16
  major : Int16
  minor : Int16
  nlink : Int16
  size : ℕ
  byte : ℕ → UInt8

/-- A free inode. -/
def Node.free : Node where
  type := 0
  major := 0
  minor := 0
  nlink := 0
  size := 0
  byte _ := 0

/-- The bytes from `off` on. -/
def Node.bytes (n : Node) (off count : ℕ) : List UInt8 :=
  (List.range count).map fun k ↦ n.byte (off + k)

/-- Entry `k` of a directory. -/
def Node.dirent (n : Node) (k : ℕ) : Dirent := .decode (n.bytes (DIRENT * k) DIRENT)

/-- The byte at an offset of a file. -/
def Dinode.byteAt (disk : Device) (d : Dinode) (off : ℕ) : UInt8 :=
  (d.contents disk (off / BSIZE)).get (off % BSIZE)

/-- The file of an inode. -/
def Dinode.node (disk : Device) (d : Dinode) : Node :=
  if d.type = 0 then .free
  else
    { type := d.type, major := d.major, minor := d.minor, nlink := d.nlink, size := d.size,
      byte := d.byteAt disk }

/-- Every block index below the size has a block. -/
structure Dinode.NoHoles (disk : Device) (d : Dinode) : Prop where
  size : d.size ≤ MAXFILE * BSIZE
  block : ∀ k, k * BSIZE < d.size → d.blockOf disk k ≠ 0

/-- A directory consists of whole entries with i-numbers. -/
structure Node.DirOk (n : Node) (ninodes : ℕ) : Prop where
  size : n.size % DIRENT = 0
  inum : ∀ k, DIRENT * k < n.size → (n.dirent k).inum < ninodes

/-- The blocks are owned, files have no holes and directories hold i-numbers. -/
structure Image (sb : Superblock) (disk : Device) (live : ℕ → Dinode) : Prop where
  owned : Owned sb disk live
  noHoles : ∀ i, Allocated sb live i → (live i).NoHoles disk
  dirs : ∀ i, Allocated sb live i → (live i).type = T_DIR →
    ((live i).node disk).DirOk sb.ninodes

/-! ## Changes to one inode -/

/-- Only inode `i` changes: the others keep their attributes, their bytes and their blocks. -/
structure Change (sb : Superblock) (disk : Device) (live : ℕ → Dinode) (disk' : Device)
    (live' : ℕ → Dinode) (i : ℕ) : Prop where
  owned : Owned sb disk' live'
  others : ∀ j, j ≠ i → live' j = live j
  contents : ∀ j k, j ≠ i → Allocated sb live j →
    (live' j).contents disk' k = (live j).contents disk k
  blocks : ∀ j k, j ≠ i → Allocated sb live j → (live j).blockOf disk k ≠ 0 →
    (live' j).blockOf disk' k ≠ 0

namespace Change

variable {sb : Superblock} {disk disk' disk'' : Device} {live live' live'' : ℕ → Dinode} {i : ℕ}

theorem allocated_iff (h : Change sb disk live disk' live' i) {j : ℕ} (hj : j ≠ i) :
    Allocated sb live' j ↔ Allocated sb live j := by
  rw [Allocated, Allocated, h.others j hj]

theorem trans (h : Change sb disk live disk' live' i) (h' : Change sb disk' live' disk'' live'' i) :
    Change sb disk live disk'' live'' i where
  owned := h'.owned
  others j hj := (h'.others j hj).trans (h.others j hj)
  contents j k hj halloc :=
    (h'.contents j k hj ((h.allocated_iff hj).mpr halloc)).trans (h.contents j k hj halloc)
  blocks j k hj halloc hne :=
    h'.blocks j k hj ((h.allocated_iff hj).mpr halloc) (h.blocks j k hj halloc hne)

/-- No data block changes. -/
theorem of_agree (h : Owned sb disk live) (h' : Owned sb disk' live')
    (hothers : ∀ j, j ≠ i → live' j = live j) (hagree : ∀ x, sb.IsData x → disk' x = disk x) :
    Change sb disk live disk' live' i := by
  have hblockOf : ∀ j k, j ≠ i → Allocated sb live j →
      (live' j).blockOf disk' k = (live j).blockOf disk k := by
    intro j k hj halloc
    rw [hothers j hj]
    exact blockOf_congr fun place _ ↦
      at_congr rfl (fun hlast ↦ hagree _ (h.range j .indirect halloc hlast)) place
  constructor
  case owned => exact h'
  case others => exact hothers
  case contents =>
    intro j k hj halloc
    rw [Dinode.contents, hblockOf j k hj halloc, Dinode.contents]
    split
    · rfl
    · rename_i hne
      obtain ⟨place, -, hat⟩ := blockOf_eq_at hne
      exact hagree _ (hat ▸ h.range j place halloc (hat ▸ hne))
  case blocks =>
    intro j k hj halloc hne
    rwa [hblockOf j k hj halloc]

/-- The other files are as they were. -/
theorem node (h : Change sb disk live disk' live' i) {j : ℕ} (hj : j ≠ i)
    (halloc : (live j).type ≠ 0 → sb.IsInum j) : (live' j).node disk' = (live j).node disk := by
  rw [Dinode.node, Dinode.node, h.others j hj]
  split
  · rfl
  · rename_i htype
    congr 1
    funext x
    have hcontents := h.contents j (x / BSIZE) hj ⟨halloc htype, htype⟩
    rw [h.others j hj] at hcontents
    rw [Dinode.byteAt, Dinode.byteAt, hcontents]

/-- The invariant of the image, if it holds for the changed inode. -/
theorem image (h : Change sb disk live disk' live' i) (himage : Image sb disk live)
    (hholes : Allocated sb live' i → (live' i).NoHoles disk')
    (hdir : Allocated sb live' i → (live' i).type = T_DIR →
      ((live' i).node disk').DirOk sb.ninodes) : Image sb disk' live' := by
  constructor
  case owned => exact h.owned
  case noHoles =>
    intro j hj
    by_cases hji : j = i
    · exact hji ▸ hholes (hji ▸ hj)
    · have hj := (h.allocated_iff hji).mp hj
      obtain ⟨hsize, hblock⟩ := himage.noHoles j hj
      refine ⟨by rwa [h.others j hji], fun k hk ↦ h.blocks j k hji hj (hblock k ?_)⟩
      rwa [h.others j hji] at hk
  case dirs =>
    intro j hj htype
    by_cases hji : j = i
    · exact hji ▸ hdir (hji ▸ hj) (hji ▸ htype)
    · have hj := (h.allocated_iff hji).mp hj
      rw [h.node hji fun _ ↦ hj.1]
      exact himage.dirs j hj (by rwa [h.others j hji] at htype)

end Change

/-! ## The tables -/

namespace FsState

variable (s : FsState)

/-- The on-disk inodes. -/
def inodes (i : ℕ) : Dinode := if s.sb.IsInum i then s.sb.dinode s.disk i else .zero

/-- The file of inode `i`. -/
def node (i : ℕ) : Node := (s.inodes i).node s.disk

/-- The i-number in the entry `ip` of the inode table. -/
def inum (ip : Fin NINODE) : ℕ := (s.itable ip).inum

/-- The open files and current directories that refer to the entry `ip` of the inode table. -/
def uses (ip : Fin NINODE) : ℕ :=
  (Finset.univ.filter fun f ↦ (s.ftable f).type.hasInode = true ∧ (s.ftable f).ip = ip).card +
    (Finset.univ.filter fun p ↦ (s.proc p).cwd = some ip).card

end FsState

/-- One entry of the inode table: it has `uses` references from open files and current directories
and `held` from the running call, which may have locked it. -/
structure SlotOk (sb : Superblock) (inodes : ℕ → Dinode) (i : Inode) (uses held : ℕ)
    (locked : Prop) : Prop where
  refs : i.ref = uses + held
  dev : 0 < i.ref → i.dev = ROOTDEV
  inum : 0 < i.ref → sb.IsInum i.inum
  lock : i.locked = true ↔ locked
  lockedOk : locked → 0 < i.ref ∧ i.valid = true
  synced : 0 < i.ref → i.valid = true → i.copy = inodes i.inum ∧ i.copy.type ≠ 0
  used : 0 < uses → (inodes i.inum).type ≠ 0 ∧ (i.valid = true ∨ i.inum = ROOTINO)

/-- An entry stays right when its inode stays as it is. -/
theorem SlotOk.congr {sb : Superblock} {inodes inodes' : ℕ → Dinode} {i : Inode} {uses held : ℕ}
    {locked : Prop} (h : SlotOk sb inodes i uses held locked)
    (hsame : 0 < i.ref → (inodes i.inum).type ≠ 0 → inodes' i.inum = inodes i.inum) :
    SlotOk sb inodes' i uses held locked where
  refs := h.refs
  dev := h.dev
  inum := h.inum
  lock := h.lock
  lockedOk := h.lockedOk
  synced href hvalid := by
    obtain ⟨hcopy, htype⟩ := h.synced href hvalid
    exact ⟨hcopy.trans (hsame href (hcopy ▸ htype)).symm, htype⟩
  used huses := by
    obtain ⟨htype, hvalid⟩ := h.used huses
    have href : 0 < i.ref := by
      rw [h.refs]
      omega
    exact ⟨by rwa [hsame href htype], hvalid⟩

/-- The inode table; `held` and `locks` are the references and the locks of the running call. -/
structure Table (s : FsState) (held : Multiset (Fin NINODE)) (locks : Finset (Fin NINODE)) :
    Prop where
  unique : ∀ k l, 0 < (s.itable k).ref → 0 < (s.itable l).ref → s.inum k = s.inum l → k = l
  slot : ∀ k, SlotOk s.sb s.inodes (s.itable k) (s.uses k) (held.count k) (k ∈ locks)

/-- The file table: unused entries have no type, and no directory is open for writing. -/
structure Files (s : FsState) : Prop where
  unused : ∀ f, (s.ftable f).ref = 0 → (s.ftable f).type = .none
  notDir : ∀ f, (s.ftable f).type = .inode → (s.ftable f).writable = true →
    (s.node (s.inum (s.ftable f).ip)).type ≠ T_DIR

/-- The invariant of the file system. -/
structure Base (s : FsState) (held : Multiset (Fin NINODE)) (locks : Finset (Fin NINODE)) :
    Prop where
  sb : s.sb.WellFormed
  image : Image s.sb s.disk s.inodes
  table : Table s held locks
  files : Files s
  bufs : s.bufs = []

/-- What a part of a system call leaves as it was; `held` are references that stay. -/
structure Frame (s s' : FsState) (held : Multiset (Fin NINODE)) : Prop where
  sb : s'.sb = s.sb
  ftable : s'.ftable = s.ftable
  proc : s'.proc = s.proc
  outstanding : s'.outstanding = s.outstanding
  inum : ∀ k, 0 < s.uses k + held.count k → s'.inum k = s.inum k
  valid : ∀ k, 0 < s.uses k + held.count k → (s.itable k).valid = true →
    (s'.itable k).valid = true

theorem FsState.uses_congr {s s' : FsState} (hftable : s'.ftable = s.ftable)
    (hproc : s'.proc = s.proc) : s'.uses = s.uses := by
  funext k
  rw [FsState.uses, FsState.uses, hftable, hproc]

theorem Frame.uses {s s' : FsState} {held : Multiset (Fin NINODE)} (h : Frame s s' held) :
    s'.uses = s.uses :=
  FsState.uses_congr h.ftable h.proc

theorem FsState.uses_pos {s : FsState} {f : Fin NFILE} (hf : (s.ftable f).type.hasInode = true) :
    0 < s.uses (s.ftable f).ip := by
  refine Nat.add_pos_left (Finset.card_pos.mpr ⟨f, ?_⟩) _
  simp only [Finset.mem_filter, Finset.mem_univ, true_and]
  exact ⟨hf, trivial⟩

theorem Frame.refl (s : FsState) (held : Multiset (Fin NINODE)) : Frame s s held where
  sb := rfl
  ftable := rfl
  proc := rfl
  outstanding := rfl
  inum _ _ := rfl
  valid _ _ hvalid := hvalid

theorem Frame.trans {s s' s'' : FsState} {held : Multiset (Fin NINODE)} (h : Frame s s' held)
    (h' : Frame s' s'' held) : Frame s s'' held where
  sb := h'.sb.trans h.sb
  ftable := h'.ftable.trans h.ftable
  proc := h'.proc.trans h.proc
  outstanding := h'.outstanding.trans h.outstanding
  inum k hk := (h'.inum k (by rwa [h.uses])).trans (h.inum k hk)
  valid k hk hvalid := h'.valid k (by rwa [h.uses]) (h.valid k hk hvalid)

theorem Frame.mono {s s' : FsState} {held held' : Multiset (Fin NINODE)} (h : Frame s s' held')
    (hle : held ≤ held') : Frame s s' held where
  sb := h.sb
  ftable := h.ftable
  proc := h.proc
  outstanding := h.outstanding
  inum k hk := h.inum k (by have := Multiset.count_le_of_le k hle; omega)
  valid k hk := h.valid k (by have := Multiset.count_le_of_le k hle; omega)

end Xv6.Fs
