import Xv6.Fs.Format
import Xv6.Mkfs.Blocks

/-!
# The Image that mkfs Leaves

The files of the image as the kernel sees them, for every list of files on the command line.  An
inode that was made stands for a list of bytes, and `iappend` appends to it.  At the end the size of
the root directory is rounded up to one block more than its entries need if they fill their blocks
exactly; otherwise the image is one from which the file system of the kernel can start.
-/

namespace Xv6.Mkfs

open Lib Fs

variable {m m' : State} {E : Failure → Prop} {N i : ℕ} {live live' : ℕ → Dinode}

/-! ## Files -/

/-- What an inode stands for. -/
structure FileSpec where
  type : Int16
  size : ℕ
  bytes : List UInt8

namespace FileSpec

/-- A file that ends with its last byte. -/
def ofBytes (type : Int16) (bytes : List UInt8) : FileSpec := ⟨type, bytes.length, bytes⟩

/-- The inode with the given addresses. -/
def inode (f : FileSpec) (addrs : Fin (NDIRECT + 1) → ℕ) : Dinode where
  type := f.type
  major := 0
  minor := 0
  nlink := 1
  size := f.size
  addrs := addrs

/-- The file as the kernel sees it. -/
def node (f : FileSpec) : Node where
  type := f.type
  major := 0
  minor := 0
  nlink := 1
  size := f.size
  byte x := f.bytes.getD x 0

end FileSpec

/-- The inode is the one of the file, with blocks for its bytes. -/
structure Stored (disk : Device) (d : Dinode) (f : FileSpec) : Prop where
  type : f.type ≠ 0
  size : f.size ≤ MAXFILE * BSIZE
  inode : d = f.inode d.addrs
  byte : ∀ x, d.byteAt disk x = f.bytes.getD x 0
  blocks : ∀ k, d.blockOf disk k ≠ 0 ↔ k * BSIZE < f.bytes.length

theorem Stored.node {disk : Device} {d : Dinode} {f : FileSpec} (h : Stored disk d f) :
    d.node disk = f.node := by
  have htype : d.type ≠ 0 := by
    rw [h.inode]
    exact h.type
  rw [Dinode.node, if_neg htype, funext h.byte, h.inode]
  rfl

/-- The inodes `live` are those of the given files. -/
structure Represents (N : ℕ) (m : State) (live : ℕ → Dinode) (files : ℕ → Option FileSpec) :
    Prop where
  sound : Sound N m live
  free : ∀ i, files i = none → live i = .zero
  inum : ∀ i f, files i = some f → (sbFor N).IsInum i
  stored : ∀ i f, files i = some f → Stored m.marked (live i) f

section

variable {files : ℕ → Option FileSpec} {f : FileSpec}

theorem Represents.allocated (h : Represents N m live files) (hf : files i = some f) :
    Allocated (sbFor N) live i := by
  refine ⟨h.inum i f hf, ?_⟩
  rw [(h.stored i f hf).inode]
  exact (h.stored i f hf).type

/-- One inode changes. -/
theorem Represents.update (h : Represents N m live files) (hs : Sound N m' live')
    (hi : (sbFor N).IsInum i) (hothers : ∀ j, j ≠ i → live' j = live j)
    (hblocks : ∀ j k, j ≠ i → Allocated (sbFor N) live j →
      ((live' j).blockOf m'.marked k ≠ 0 ↔ (live j).blockOf m.marked k ≠ 0))
    (hbytes : ∀ j x, j ≠ i → Allocated (sbFor N) live j →
      (live' j).byteAt m'.marked x = (live j).byteAt m.marked x)
    (hf : Stored m'.marked (live' i) f) :
    Represents N m' live' (Function.update files i (some f)) where
  sound := hs
  free j hj := by
    have hne : j ≠ i := by
      rintro rfl
      rw [Function.update_self] at hj
      cases hj
    rw [Function.update_of_ne hne] at hj
    rw [hothers j hne, h.free j hj]
  inum j g hj := by
    by_cases hne : j = i
    · exact hne ▸ hi
    · rw [Function.update_of_ne hne] at hj
      exact h.inum j g hj
  stored j g hj := by
    by_cases hne : j = i
    · subst hne
      rw [Function.update_self] at hj
      exact Option.some.inj hj ▸ hf
    · rw [Function.update_of_ne hne] at hj
      have hold := h.stored j g hj
      have halloc := h.allocated hj
      exact ⟨hold.type, hold.size, hothers j hne ▸ hold.inode,
        fun x ↦ (hbytes j x hne halloc).trans (hold.byte x),
        fun k ↦ (hblocks j k hne halloc).trans (hold.blocks k)⟩

/-- The bytes of a file to whose end others were appended. -/
theorem Appended.byteAt {bytes p : List UInt8} (h : Appended N m live m' live' i bytes.length p)
    (hold : ∀ x, (live i).byteAt m.marked x = bytes.getD x 0) (x : ℕ) :
    (live' i).byteAt m'.marked x = (bytes ++ p).getD x 0 := by
  by_cases hx : x < bytes.length
  · rw [h.writes.outside x (.inl hx), hold, List.getD_append _ _ _ _ hx]
  · have hle := Nat.le_of_not_lt hx
    rw [List.getD_append_right _ _ _ _ hle]
    by_cases hlast : x < bytes.length + p.length
    · rw [← h.bytes _ (Nat.sub_lt_left_of_lt_add hle hlast), Nat.add_sub_of_le hle]
    · rw [h.writes.outside x (.inr (Nat.le_of_not_lt hlast)), hold, List.getD_eq_default _ _ hle,
        List.getD_eq_default _ _ (by omega)]

/-- The loop of `iappend` appends bytes; the size is not changed yet. -/
theorem Appended.represents {type : Int16} {bytes p : List UInt8}
    (happ : Appended N m live m' live' i bytes.length p) (h : Represents N m live files)
    (hi : files i = some (.ofBytes type bytes)) :
    Represents N m' live' (Function.update files i (some ⟨type, bytes.length, bytes ++ p⟩)) := by
  have hf := h.stored i _ hi
  refine h.update happ.sound (h.inum i _ hi) happ.writes.others (fun j k hj halloc ↦ ?_)
    (fun j x hj halloc ↦ ?_) ⟨hf.type, hf.size, ?_, happ.byteAt hf.byte, fun k ↦ ?_⟩
  · rw [happ.blocks j k halloc]
    exact or_iff_left fun hk ↦ hj hk.1
  · rw [Dinode.byteAt, happ.writes.contents j _ hj halloc]
    rfl
  · rw [happ.writes.fields, hf.inode]
    rfl
  · rw [happ.blocks i k (h.allocated hi), hf.blocks]
    simp only [FileSpec.ofBytes, List.length_append, true_and, BSIZE]
    omega

/-! ## Storing an inode -/

theorem bit_putInode (d : Dinode) {x : ℕ} (hx : x < FSSIZE) :
    (sbFor N).bit (m.putInode i d).marked x = (sbFor N).bit m.marked x := by
  rw [bit_marked hx, bit_marked hx]
  rfl

theorem putInode_data (hS : (sbFor N).WellFormed) (hi : (sbFor N).IsInum i) (d : Dinode) {x : ℕ}
    (hx : (sbFor N).IsData x) : (m.putInode i d).marked x = m.marked x := by
  rw [marked_putInode hS hi.2]
  exact Superblock.setDinode_data hS d hi.2 hx

/-- Storing an inode changes no block of a file. -/
theorem contents_putInode (hs : Sound N m live) (hi : (sbFor N).IsInum i) {d d' : Dinode} {j : ℕ}
    (hj : Allocated (sbFor N) live j) (haddrs : d'.addrs = (live j).addrs) (k : ℕ) :
    d'.blockOf (m.putInode i d).marked k = (live j).blockOf m.marked k ∧
      d'.contents (m.putInode i d).marked k = (live j).contents m.marked k := by
  have hagree : ∀ x, (sbFor N).IsData x → (m.putInode i d).marked x = m.marked x :=
    fun x hx ↦ putInode_data hs.layout hi d hx
  have hblock : d'.blockOf (m.putInode i d).marked k = (live j).blockOf m.marked k :=
    blockOf_congr fun place _ ↦
      at_congr haddrs (fun hlast ↦ hagree _ (hs.owned.range j .indirect hj hlast)) place
  refine ⟨hblock, ?_⟩
  rw [Dinode.contents, hblock, Dinode.contents]
  split
  · rfl
  · rename_i hne
    obtain ⟨place, -, hat⟩ := blockOf_eq_at hne
    exact hagree _ (hat ▸ hs.owned.range j place hj (hat ▸ hne))

theorem Sound.putInode (hs : Sound N m live) (hi : (sbFor N).IsInum i) {d : Dinode}
    (howned : Owned (sbFor N) (m.putInode i d).marked live') : Sound N (m.putInode i d) live' := by
  refine hs.next howned rfl le_rfl hs.freeblock.2 fun b hb ↦ ?_
  have hlt : sb.iblock i < b :=
    (Superblock.iblock_lt hs.layout hi.2).trans (Nat.lt_of_succ_le (hs.freeblock.1.trans hb))
  exact Function.update_of_ne hlt.ne' _ _

/-- The inodes of the image after one that was changed is stored. -/
theorem inodes_putInode {d : Dinode} (hi : (sbFor N).IsInum i) (hd : d.InRange)
    (hothers : ∀ j, j ≠ i → live j = m.inodes N j) :
    (m.putInode i d).inodes N = Function.update live i d := by
  funext j
  have hdinode : sb.dinode (m.putInode i d).disk j = if j = i then d else sb.dinode m.disk j :=
    Superblock.dinode_setDinode hd
  rw [State.inodes, hdinode]
  by_cases heq : j = i
  · subst heq
    rw [if_pos hi, if_pos rfl, Function.update_self]
  · rw [if_neg heq, Function.update_of_ne heq, hothers j heq]
    rfl

/-- The inode of a file is stored. -/
theorem Represents.put (h : Represents N m live files) (hi : (sbFor N).IsInum i) {d : Dinode}
    (hd : d.InRange) (hothers : ∀ j, j ≠ i → live j = m.inodes N j)
    (howned : Owned (sbFor N) (m.putInode i d).marked (Function.update live i d))
    (hf : Stored (m.putInode i d).marked d f) :
    Represents N (m.putInode i d) ((m.putInode i d).inodes N) (Function.update files i (some f)) := by
  have hcontents := fun j k (hne : j ≠ i) (hj : Allocated (sbFor N) live j) ↦
    contents_putInode (d := d) h.sound hi hj
      (congrArg Dinode.addrs (Function.update_of_ne hne d live)) k
  rw [inodes_putInode hi hd hothers]
  refine h.update (h.sound.putInode hi howned) hi (fun j hj ↦ Function.update_of_ne hj _ _)
    (fun j k hne hj ↦ ?_) (fun j x hne hj ↦ ?_) ?_
  · rw [(hcontents j k hne hj).1]
  · rw [Dinode.byteAt, (hcontents j _ hne hj).2]
    rfl
  · rwa [Function.update_self]

/-- An inode is stored with a new size. -/
theorem Represents.putSize (h : Represents N m live files) (hf : files i = some f) {size : ℕ}
    (hsize : size ≤ MAXFILE * BSIZE) (hothers : ∀ j, j ≠ i → live j = m.inodes N j) :
    let d := { live i with size := size }
    Represents N (m.putInode i d) ((m.putInode i d).inodes N)
      (Function.update files i (some { f with size := size })) := by
  intro d
  have hs := h.sound
  have hi := h.allocated hf
  have hold := h.stored i f hf
  have hrange : d.InRange := by
    refine ⟨hsize.trans_lt (by decide), fun slot ↦ ?_⟩
    by_cases hzero : d.addrs slot = 0
    · rw [hzero]
      decide
    · have hat := at_slotPlace m.marked (live i) slot
      exact hat ▸ (hs.handed hi (hat.trans_ne hzero)).1.2.trans (by decide : FSSIZE < 2 ^ 32)
  have hsame : ∀ j, (Function.update live i d j).type = (live j).type ∧
      (Function.update live i d j).addrs = (live j).addrs := by
    intro j
    by_cases heq : j = i
    · rw [heq, Function.update_self]
      exact ⟨rfl, rfl⟩
    · rw [Function.update_of_ne heq]
      exact ⟨rfl, rfl⟩
  have howned := hs.owned.congr hs.layout.data (fun _ ↦ bit_putInode d)
    (fun _ ↦ putInode_data hs.layout hi.1 d)
    (fun j ↦ by rw [Allocated, Allocated, (hsame j).1]) fun j _ ↦ (hsame j).2
  have hcontents := contents_putInode (d := d) hs hi.1 hi (rfl : d.addrs = (live i).addrs)
  refine h.put hi.1 hrange hothers howned ⟨hold.type, hsize, ?_, fun x ↦ ?_, fun k ↦ ?_⟩
  · exact congrArg (fun d' : Dinode ↦ { d' with size := size }) hold.inode
  · rw [Dinode.byteAt, (hcontents _).2]
    exact hold.byte x
  · rw [(hcontents k).1]
    exact hold.blocks k

namespace Represents

/-- `iappend` appends to a file. -/
theorem iappend {type : Int16} {bytes p : List UInt8} (h : Represents N m (m.inodes N) files)
    (hi : files i = some (.ofBytes type bytes))
    (hE : ¬ Room m bytes.length p.length → ∀ f, E f) :
    wp (iappend i p) (fun _ m' ↦ Represents N m' (m'.inodes N)
        (Function.update files i (some (.ofBytes type (bytes ++ p)))) ∧
      m'.freeinode = m.freeinode ∧
      m'.freeblock ≤ m.freeblock + 2 * touched bytes.length p.length) E m := by
  have hs := h.sound
  have hinum := h.inum i _ hi
  have hf := h.stored i _ hi
  have hsize : (m.inodes N i).size = bytes.length := congrArg Dinode.size hf.inode
  rw [Mkfs.iappend, wp_bind, wp_rinode hs.layout hs.len hinum, hsize, wp_bind]
  refine wp_post (iappendLoop_spec hs (h.allocated hi) hf.size le_rfl hE) ?_
  rintro ⟨din, off⟩ m₁ ⟨hoff, hend, hfree, live', hlive, happ⟩
  dsimp only at hoff hlive ⊢
  rw [wp_winode hs.layout happ.sound.len hinum.2, hoff, ← hlive]
  have h₁ := (happ.represents h hi).putSize (Function.update_self ..) hend fun j hj ↦ by
    rw [happ.keeps.inodes, happ.writes.others j hj]
  rw [Function.update_idem] at h₁
  refine ⟨?_, happ.keeps.freeinode, hfree⟩
  rwa [FileSpec.ofBytes, List.length_append]

/-- `ialloc` makes an empty file. -/
theorem ialloc {type : Int16} (h : Represents N m (m.inodes N) files)
    (hi : (sbFor N).IsInum m.freeinode) (hnew : files m.freeinode = none) (htype : type ≠ 0) :
    wp (ialloc type) (fun i m' ↦ i = m.freeinode ∧ Represents N m' (m'.inodes N)
        (Function.update files m.freeinode (some (.ofBytes type []))) ∧
      m'.freeinode = m.freeinode + 1 ∧ m'.freeblock = m.freeblock) E m := by
  have hs := h.sound
  have hlen : State.len { m with freeinode := m.freeinode + 1 } = FSSIZE := hs.len
  rw [Mkfs.ialloc, wp_bind, wp_get, wp_bind, wp_modify, wp_bind, wp_winode hs.layout hlen hi.2,
    wp_pure]
  set d := (FileSpec.ofBytes type []).inode fun _ ↦ 0
  set i := m.freeinode
  set m₁ := State.putInode { m with freeinode := i + 1 } i d
  have h₁ : Represents N { m with freeinode := i + 1 } (m.inodes N) files :=
    ⟨⟨hs.layout, hs.len, hs.freeblock, hs.owned, hs.zero⟩, h.free, h.inum, h.stored⟩
  have hbit : ∀ x, x < FSSIZE → (sbFor N).bit m₁.marked x = (sbFor N).bit m.marked x :=
    fun _ ↦ bit_putInode d
  have hunused : ¬ Allocated (sbFor N) (m.inodes N) i := by
    rintro ⟨-, hne⟩
    rw [h.free i hnew] at hne
    exact hne rfl
  have hblock : ∀ k, d.blockOf m₁.marked k = 0 := by
    intro k
    by_contra hne
    obtain ⟨place, -, hat⟩ := blockOf_eq_at hne
    exact hne (hat.trans (truncated_at d m₁.marked place))
  have howned : Owned (sbFor N) m₁.marked (Function.update (m.inodes N) i d) := by
    refine hs.owned.release hs.layout (fun j hj ↦ Function.update_of_ne hj _ _) ?_
      (fun _ ↦ putInode_data hs.layout hi d) ?_ ?_
    · rw [Function.update_self]
      exact truncated_at d m₁.marked
    · intro x hx
      rw [hbit x hx.2]
      exact (and_iff_left fun hno ↦ hunused hno.1).symm
    · intro x hx
      rw [hbit x (hx.trans (by decide : sb.dataStart < FSSIZE))]
      exact hs.owned.reserved x hx
  have hstored : Stored m₁.marked d (.ofBytes type []) := by
    refine ⟨htype, Nat.zero_le _, rfl, fun x ↦ ?_, fun k ↦ ?_⟩
    · rw [Dinode.byteAt, Dinode.contents, if_pos (hblock _)]
      simp [Buffer.get, Buffer.fill, FileSpec.ofBytes]
    · rw [hblock]
      simp [FileSpec.ofBytes]
  exact ⟨rfl, h₁.put hi ⟨Nat.two_pow_pos 32, fun _ ↦ Nat.two_pow_pos 32⟩ (fun _ _ ↦ rfl) howned
    hstored, rfl, rfl⟩

end Represents

end

/-! ## The files of the command line -/

/-- The names in the root directory. -/
def rootNames (files : List HostFile) : List (List UInt8) :=
  dot :: dotdot :: files.map HostFile.name

/-- The entries of the root directory; the first two are its own. -/
def rootEntries (files : List HostFile) : List Dirent :=
  (rootNames files).mapIdx fun k name ↦ .make name (max k ROOTINO)

/-- The bytes of the root directory. -/
def rootBytes (files : List HostFile) : List UInt8 := (rootEntries files).flatMap Dirent.encode

/-- The files of the image, before the size of the root directory is rounded up. -/
def made (files : List HostFile) : ℕ → Option FileSpec
  | 0 => none
  | 1 => some (.ofBytes T_DIR (rootBytes files))
  | k + 2 => files[k]?.map fun file ↦ .ofBytes T_FILE file.bytes

theorem inum_ne_root (k : ℕ) : k + 2 ≠ ROOTINO := (Nat.lt_add_left k (by decide : 1 < 2)).ne'

/-- All files but the root directory come from the command line. -/
theorem made_of_ne {files : List HostFile} {f : FileSpec} (hi : i ≠ ROOTINO)
    (hf : made files i = some f) : ∃ bytes, f = .ofBytes T_FILE bytes := by
  rcases i with _ | _ | k
  · cases hf
  · exact absurd rfl hi
  · obtain ⟨file, -, rfl⟩ := Option.map_eq_some_iff.mp hf
    exact ⟨file.bytes, rfl⟩

theorem length_entry (name : List UInt8) (inum : ℕ) :
    (Dirent.make name inum).encode.length = DIRENT := by
  rw [Dirent.encode, List.length_append, length_leBytes]
  exact congrArg (2 + ·) (length_strncpy _ _)

theorem rootBytes_append (files : List HostFile) (file : HostFile) :
    rootBytes (files ++ [file]) =
      rootBytes files ++ (Dirent.make file.name (files.length + 2)).encode := by
  simp [rootBytes, rootEntries, rootNames, List.mapIdx_append]

theorem length_rootBytes (files : List HostFile) :
    (rootBytes files).length = DIRENT * (files.length + 2) := by
  induction files using List.reverseRecOn with
  | nil => decide
  | append_singleton files file ih =>
    rw [rootBytes_append, List.length_append, ih, length_entry, List.length_append]
    rfl

/-- There is only the root directory. -/
theorem made_nil : made [] = Function.update (fun _ ↦ none) ROOTINO (some (.ofBytes T_DIR
    ([] ++ (Dirent.make dot ROOTINO).encode ++ (Dirent.make dotdot ROOTINO).encode))) := by
  funext i
  rcases i with _ | _ | k
  · rfl
  · exact congrArg (some ∘ FileSpec.ofBytes T_DIR) (by simp [rootBytes, rootEntries, rootNames])
  · rfl

/-- A file is added. -/
theorem made_append (files : List HostFile) (file : HostFile) :
    made (files ++ [file]) = Function.update (Function.update (made files) ROOTINO
      (some (.ofBytes T_DIR (rootBytes files ++
        (Dirent.make file.name (files.length + 2)).encode)))) (files.length + 2)
      (some (.ofBytes T_FILE file.bytes)) := by
  funext i
  rcases i with _ | _ | k
  · rfl
  · rw [Function.update_of_ne (by simp), ← rootBytes_append]
    rfl
  · by_cases heq : k = files.length
    · subst heq
      rw [Function.update_self, made, List.getElem?_concat_length]
      rfl
    · rw [Function.update_of_ne (by omega), Function.update_of_ne (by simp), made, made]
      congr 1
      grind

/-- An entry fits into one block of the root directory. -/
theorem touched_entry (n : ℕ) : touched (DIRENT * n) DIRENT = 1 := by
  simp only [touched, DIRENT, BSIZE]
  split <;> omega

/-- One more entry in the root directory. -/
theorem Represents.entry {files : ℕ → Option FileSpec} {bytes : List UInt8} {n : ℕ}
    (h : Represents N m (m.inodes N) files) (hroot : files ROOTINO = some (.ofBytes T_DIR bytes))
    (hlen : bytes.length = DIRENT * n) (hn : n < 208)
    (hE : FSSIZE < m.freeblock + 2 → ∀ f, E f) (name : List UInt8) (inum : ℕ) :
    wp (Mkfs.iappend ROOTINO (Dirent.make name inum).encode) (fun _ m' ↦
      Represents N m' (m'.inodes N) (Function.update files ROOTINO
        (some (.ofBytes T_DIR (bytes ++ (Dirent.make name inum).encode)))) ∧
      m'.freeinode = m.freeinode ∧ m'.freeblock ≤ m.freeblock + 2) E m := by
  refine wp_post (h.iappend hroot fun hno f ↦ ?_) ?_
  · rw [hlen, length_entry, Room, touched_entry] at hno
    refine hE (Nat.lt_of_not_le fun hroom ↦ hno ⟨hroom, ?_⟩) f
    have hbound : DIRENT * 208 + DIRENT ≤ MAXFILE * BSIZE := by decide
    have hle := Nat.mul_le_mul_left DIRENT hn.le
    omega
  · rintro _ m' ⟨hrep, hfree, hblock⟩
    rw [hlen, length_entry, touched_entry] at hblock
    exact ⟨hrep, hfree, hblock⟩

/-- A file that can be opened, has no slash in its name and is empty. -/
structure HostFile.Empty (file : HostFile) : Prop where
  name : '/'.toUInt8 ∉ file.shortname
  readable : file.readable = true
  pieces : file.pieces = []

/-- What holds after some of the files were made. -/
structure MadeFiles (N : ℕ) (m : State) (files : List HostFile) : Prop where
  represents : Represents N m (m.inodes N) (made files)
  freeinode : m.freeinode = files.length + 2
  freeblock : (∀ file ∈ files, file.Empty) → m.freeblock ≤ nmeta + 2 * (files.length + 2)

/-- The pieces of a file are appended one by one. -/
theorem pieces_spec {files : ℕ → Option FileSpec} {pieces : List (List UInt8)}
    (h : Represents N m (m.inodes N) files) (hi : files i = some (.ofBytes T_FILE []))
    (hE : pieces ≠ [] → ∀ f, E f) :
    wp (pieces.forM (iappend i)) (fun _ m' ↦
      Represents N m' (m'.inodes N)
        (Function.update files i (some (.ofBytes T_FILE pieces.flatten))) ∧
      m'.freeinode = m.freeinode ∧ (pieces = [] → m'.freeblock ≤ m.freeblock)) E m := by
  refine wp_forM (fun done (m' : State) ↦
    Represents N m' (m'.inodes N)
      (Function.update files i (some (.ofBytes T_FILE done.flatten))) ∧
      m'.freeinode = m.freeinode ∧ (done = [] → m'.freeblock ≤ m.freeblock))
    ⟨?_, rfl, fun _ ↦ le_rfl⟩ ?_
  · rwa [List.flatten_nil, ← hi, Function.update_eq_self]
  · rintro done piece rest m₁ heq ⟨h₁, hfree, -⟩
    refine wp_post (h₁.iappend (Function.update_self ..) fun _ ↦ hE (by simp [heq])) ?_
    rintro _ m₂ ⟨h₂, hfree₂, -⟩
    rw [Function.update_idem] at h₂
    exact ⟨by simpa using h₂, hfree₂.trans hfree, by simp⟩

theorem addFile_spec {done : List HostFile} {file : HostFile} (h : MadeFiles N m done)
    (hlt : done.length + 2 < N) (hN : N ≤ 208)
    (hE : ¬ (file.Empty ∧ m.freeblock + 2 ≤ FSSIZE) → ∀ f, E f) :
    wp (addFile ROOTINO file) (fun _ m' ↦ Represents N m' (m'.inodes N) (made (done ++ [file])) ∧
      m'.freeinode = done.length + 3 ∧ (file.Empty → m'.freeblock ≤ m.freeblock + 2)) E m := by
  have hnot : ¬ file.Empty → ∀ f, E f := fun hno ↦ hE fun hboth ↦ hno hboth.1
  have hfree := h.freeinode
  have hnew : made done m.freeinode = none := by
    rw [hfree, made, List.getElem?_eq_none le_rfl]
    rfl
  have hne : ROOTINO ≠ done.length + 2 := (inum_ne_root _).symm
  rw [addFile]
  split
  · rename_i hslash
    rw [wp_bind, wp_throw]
    exact hnot (fun hempty ↦ hempty.name hslash) _
  · dsimp only
    split
    · rename_i hclosed
      rw [wp_bind, wp_throw]
      refine hnot (fun hempty ↦ ?_) _
      rw [hempty.readable] at hclosed
      cases hclosed
    · rw [wp_bind]
      refine wp_post (h.represents.ialloc (hfree ▸ ⟨Nat.succ_pos _, hlt⟩) hnew (by decide)) ?_
      rintro i m₁ ⟨rfl, h₁, hfree₁, hblock₁⟩
      rw [hfree] at h₁ hfree₁ ⊢
      rw [wp_bind]
      refine wp_post (h₁.entry (n := done.length + 2) (Function.update_of_ne hne _ _)
        (length_rootBytes done) (by omega) (fun hfull ↦ hE fun hboth ↦ ?_) _ _) ?_
      · rw [hblock₁] at hfull
        exact absurd hboth.2 (Nat.not_le_of_lt hfull)
      · rintro _ m₂ ⟨h₂, hfree₂, hblock₂⟩
        refine wp_post (pieces_spec h₂ (i := done.length + 2) ?_ fun hpieces ↦ ?_) ?_
        · rw [Function.update_of_ne hne.symm, Function.update_self]
        · exact hnot fun hempty ↦ hpieces hempty.pieces
        · rintro _ m₃ ⟨h₃, hfree₃, hblock₃⟩
          refine ⟨?_, hfree₃.trans (hfree₂.trans hfree₁), fun hempty ↦ ?_⟩
          · rw [Function.update_comm hne, Function.update_idem] at h₃
            rwa [made_append, HostFile.bytes, Function.update_comm hne]
          · have hlast := hblock₃ hempty.pieces
            omega

theorem files_spec {files : List HostFile} (h : MadeFiles N m []) (hfew : files.length + 2 ≤ N)
    (hN : N ≤ 208) (hE : ¬ (∀ file ∈ files, file.Empty) → ∀ f, E f) :
    wp (files.forM (addFile ROOTINO)) (fun _ m' ↦ MadeFiles N m' files) E m := by
  refine wp_forM (fun done m' ↦ MadeFiles N m' done) h ?_
  intro done file rest m₁ heq h₁
  have hlen : files.length = done.length + (rest.length + 1) := by
    rw [heq, List.length_append, List.length_cons]
  have hroom : nmeta + 2 * 208 + 2 ≤ FSSIZE := by decide
  refine wp_post (addFile_spec h₁ (by omega) hN fun hno ↦ ?_) ?_
  · refine hE fun hempty ↦ hno ⟨hempty file (by simp [heq]), ?_⟩
    have hblock := h₁.freeblock fun file' hfile ↦ hempty file' (by simp [heq, hfile])
    omega
  · rintro _ m₂ ⟨hrep, hfree, hblock⟩
    have hsucc : (done ++ [file]).length = done.length + 1 := List.length_append
    refine ⟨hrep, hfree.trans (by rw [hsucc]), fun hempty ↦ ?_⟩
    have hdone := h₁.freeblock fun file' hfile ↦ hempty file' (by simp [hfile])
    have hlast := hblock (hempty file (by simp))
    omega

/-! ## The whole program -/

/-- What holds before the first inode is made, when `n` sectors exist. -/
structure Blank (m : State) (n : ℕ) : Prop where
  len : m.len = n
  freeinode : m.freeinode = 1
  freeblock : m.freeblock = nmeta
  disk : ∀ b, b ≠ 1 → m.disk b = .fill 0

namespace Blank

variable {n : ℕ}

/-- A sector of zeros is written, or the superblock. -/
theorem wsect (h : Blank m n) {sec : ℕ} {buf : Block} (hsec : sec < FSSIZE)
    (hbuf : sec ≠ 1 → buf = .fill 0) :
    wp (wsect sec buf) (fun _ m' ↦ Blank m' (max n (sec + 1))) E m := by
  rw [Mkfs.wsect, wp_modify, sector_eq hsec]
  refine ⟨by rw [h.len], h.freeinode, h.freeblock, fun b hb ↦ ?_⟩
  change Function.update m.disk sec buf b = _
  by_cases heq : b = sec
  · subst heq
    rw [Function.update_self, hbuf hb]
  · rw [Function.update_of_ne heq, h.disk b hb]

/-- No inode is used, and no block. -/
theorem represents (h : Blank m FSSIZE) (hS : (sbFor N).WellFormed) :
    Represents N m (m.inodes N) fun _ ↦ none := by
  have hzero : ∀ i, m.inodes N i = .zero := by
    intro i
    have hne : sb.iblock i ≠ 1 := by
      have hle : sb.inodestart ≤ sb.iblock i := Nat.le_add_left _ _
      exact (Nat.lt_of_lt_of_le (by decide) hle).ne'
    rw [State.inodes, Superblock.dinode, h.disk _ hne, dinode_fill, ite_self]
  have hunused : ∀ i, ¬ Allocated (sbFor N) (m.inodes N) i := by
    rintro i ⟨-, hne⟩
    rw [hzero] at hne
    exact hne rfl
  have hfree := h.freeblock
  refine ⟨⟨hS, h.len, ⟨hfree.ge, hfree.trans_le (by decide)⟩, ?_, fun b hb ↦ ?_⟩, fun i _ ↦ hzero i,
    fun _ _ hf ↦ (by cases hf), fun _ _ hf ↦ (by cases hf)⟩
  · refine ⟨fun i _ hi ↦ absurd hi (hunused i), fun i _ _ _ hi ↦ absurd hi (hunused i), ?_, ?_⟩
    · intro b hb
      rw [bit_marked hb.2, hfree, decide_eq_true_eq]
      exact iff_of_false (Nat.not_lt_of_le hb.1) fun hex ↦ hunused _ hex.choose_spec.choose_spec.1
    · intro b hb
      rw [bit_marked (hb.trans (by decide : sb.dataStart < FSSIZE)), hfree]
      exact decide_eq_true hb
  · exact h.disk b (Nat.lt_of_lt_of_le (by decide) (hfree ▸ hb)).ne'

end Blank

theorem zeroLoop_spec {n : ℕ} (hn : n ≤ FSSIZE) :
    wp ((List.range n).forM (wsect · (.fill 0))) (fun _ m ↦ Blank m n) E start := by
  induction n with
  | zero => exact ⟨rfl, rfl, rfl, fun _ _ ↦ rfl⟩
  | succ n ih =>
    rw [List.range_succ]
    change wp (forM (List.range n ++ [n]) _) _ _ _
    rw [List.forM_append, wp_bind]
    refine wp_post (ih (Nat.le_of_succ_le hn)) fun _ m h ↦ ?_
    rw [List.forM_cons, wp_bind]
    refine wp_post (h.wsect hn fun _ ↦ rfl) fun _ m' h' ↦ ?_
    rwa [max_eq_right (Nat.le_succ n)] at h'

/-- The image after it was filled with zeros and got its superblock. -/
theorem zeroes_spec : wp zeroes (fun _ m ↦ Blank m FSSIZE) E start := by
  rw [zeroes, wp_bind]
  -- with a variable for the number of sectors the loop is not evaluated
  generalize hn : FSSIZE = n
  refine wp_post (zeroLoop_spec hn.ge) fun _ m h ↦ ?_
  refine wp_post (h.wsect (by decide) fun hne ↦ absurd rfl hne) fun _ m' h' ↦ ?_
  rwa [max_eq_left (by rw [← hn]; decide)] at h'

/-- The files of the finished image. -/
def finished (files : List HostFile) : ℕ → Option FileSpec :=
  Function.update (made files) ROOTINO
    (some ⟨T_DIR, (DIRENT * (files.length + 2) / BSIZE + 1) * BSIZE, rootBytes files⟩)

/-- The size of the root directory is rounded up. -/
theorem fixSize_spec {files : List HostFile} (h : Represents N m (m.inodes N) (made files))
    (hfew : files.length + 2 ≤ 208) :
    wp (fixSize ROOTINO) (fun _ m' ↦ Represents N m' (m'.inodes N) (finished files)) E m := by
  have hinum := h.inum ROOTINO _ rfl
  have hsize : (m.inodes N ROOTINO).size = DIRENT * (files.length + 2) :=
    (congrArg Dinode.size (h.stored ROOTINO _ rfl).inode).trans (length_rootBytes files)
  have hbound : (DIRENT * (files.length + 2) / BSIZE + 1) * BSIZE ≤ MAXFILE * BSIZE := by
    have hle : DIRENT * (files.length + 2) / BSIZE ≤ DIRENT * 208 / BSIZE := by gcongr
    exact Nat.mul_le_mul_right _ ((Nat.add_le_add_right hle 1).trans (by decide))
  rw [fixSize, wp_bind, wp_rinode h.sound.layout h.sound.len hinum,
    wp_winode h.sound.layout h.sound.len hinum.2, hsize]
  have hroot : made files ROOTINO = some (.ofBytes T_DIR (rootBytes files)) := rfl
  exact h.putSize hroot hbound fun _ _ ↦ rfl

/-- The bitmap is written. -/
theorem balloc_spec {files : ℕ → Option FileSpec} (h : Represents N m (m.inodes N) files) :
    wp (balloc m.freeblock) (fun _ m' ↦
      Represents N m' (m'.inodes N) files ∧ m'.disk = m'.marked) E m := by
  have hs := h.sound
  have hroom : m.freeblock < BSIZE * 8 := hs.freeblock.2.trans_lt (by decide)
  rw [balloc, if_pos hroom, wp_wsect hs.len (by decide)]
  set m' := m.written sb.bmapstart (bitmap m.freeblock)
  have hmarked : m'.marked = m.marked := Function.update_idem ..
  have hinodes : m'.inodes N = m.inodes N := by
    funext j
    rw [State.inodes, State.inodes]
    split
    · rename_i hj
      have hne : sb.iblock j ≠ sb.bmapstart := (Superblock.iblock_lt hs.layout hj.2).ne
      exact congrArg (Block.dinode · (j % IPB)) (Function.update_of_ne hne _ _)
    · rfl
  have hs' : Sound N m' (m.inodes N) := by
    refine hs.next (hmarked ▸ hs.owned) rfl le_rfl hs.freeblock.2 fun b hb ↦ ?_
    have hlt : sb.bmapstart < b := Nat.lt_of_succ_le (hs.freeblock.1.trans hb)
    exact Function.update_of_ne hlt.ne' _ _
  rw [hinodes]
  exact ⟨⟨hs', h.free, h.inum, hmarked ▸ h.stored⟩, hmarked.symm⟩

attribute [local irreducible] zeroes in
/-- What `main` leaves, and that it fails only if a file is not empty. -/
theorem main_spec {files : List HostFile} (hfew : files.length + 2 ≤ N) (hN : N < 208)
    (hE : ¬ (∀ file ∈ files, file.Empty) → ∀ f, E f) :
    wp (main files) (fun _ m ↦
      Represents N m (m.inodes N) (finished files) ∧ m.disk = m.marked) E start := by
  have hS : (sbFor N).WellFormed := wellFormed_sbFor (Nat.lt_of_lt_of_le (by decide)
    ((Nat.le_add_left 2 _).trans hfew)) hN
  rw [main, wp_bind]
  refine wp_post zeroes_spec fun _ m h ↦ ?_
  have hone := h.freeinode
  have hroot : (sbFor N).IsInum m.freeinode := hone ▸ ⟨Nat.one_pos, hS.root⟩
  rw [wp_bind]
  refine wp_post ((h.represents hS).ialloc hroot rfl (by decide)) ?_
  rintro i m₀ ⟨rfl, h₀, hfree₀, hblock₀⟩
  rw [hone] at h₀ hfree₀ ⊢
  rw [h.freeblock] at hblock₀
  rw [if_neg (by decide), wp_bind]
  refine wp_post (h₀.entry (n := 0) (Function.update_self ..) rfl (by decide) (fun hfull ↦ ?_) _ _) ?_
  · exact absurd hfull (by rw [hblock₀]; decide)
  rintro _ m₁ ⟨h₁, hfree₁, hblock₁⟩
  rw [hblock₀] at hblock₁
  rw [wp_bind]
  refine wp_post (h₁.entry (n := 1) (Function.update_self ..) (by decide) (by decide)
    (fun hfull ↦ ?_) _ _) ?_
  · exact absurd (hfull.trans_le (Nat.add_le_add_right hblock₁ 2)) (by decide)
  rintro _ m₂ ⟨h₂, hfree₂, hblock₂⟩
  have hmade : MadeFiles N m₂ [] := by
    refine ⟨?_, hfree₂.trans (hfree₁.trans hfree₀), fun _ ↦
      hblock₂.trans (Nat.add_le_add_right hblock₁ 2)⟩
    rw [made_nil]
    rwa [Function.update_idem, Function.update_idem] at h₂
  rw [wp_bind]
  refine wp_post (files_spec hmade hfew hN.le hE) fun _ m₃ h₃ ↦ ?_
  rw [wp_bind]
  refine wp_post (fixSize_spec h₃.represents (hfew.trans hN.le)) fun _ m₄ h₄ ↦ ?_
  rw [wp_bind, wp_get]
  exact balloc_spec h₄

/-! ## The entries of the root directory -/

/-- The bytes of entry `k`. -/
theorem getD_entries {entries : List Dirent} (hrange : ∀ e ∈ entries, e.InRange) (k : ℕ) {x : ℕ}
    (hx : x < DIRENT) : (entries.flatMap Dirent.encode).getD (DIRENT * k + x) 0 =
      (entries.getD k .empty).encode.getD x 0 := by
  induction entries generalizing k with
  | nil =>
    have hzero : Dirent.empty.encode = List.replicate DIRENT 0 := by decide
    simp [hzero]
  | cons e entries ih =>
    have hlen := length_dirent (hrange e List.mem_cons_self)
    rw [List.flatMap_cons]
    cases k with
    | zero =>
      rw [List.getD_append _ _ _ _ (by omega), Nat.mul_zero, Nat.zero_add]
      rfl
    | succ k =>
      rw [List.getD_append_right _ _ _ _ (by rw [hlen, Nat.mul_succ]; omega), hlen, Nat.mul_succ,
        Nat.add_right_comm, Nat.add_sub_cancel, ih (fun e he ↦ hrange e (List.mem_cons_of_mem _ he))]
      rfl

theorem length_rootNames (files : List HostFile) : (rootNames files).length = files.length + 2 := by
  simp [rootNames]

theorem rootEntries_of_name {files : List HostFile} {k : ℕ} {name : List UInt8}
    (hname : (rootNames files)[k]? = some name) :
    (rootEntries files).getD k .empty = .make name (max k ROOTINO) := by
  simp [rootEntries, List.getD_eq_getElem?_getD, hname]

theorem rootEntries_inum {files : List HostFile} {e : Dirent} (he : e ∈ rootEntries files) :
    e.inum < files.length + 2 ∧ e.name.length = DIRSIZ := by
  obtain ⟨k, hk, rfl⟩ := List.mem_mapIdx.mp he
  rw [length_rootNames] at hk
  exact ⟨max_lt hk (Nat.succ_lt_succ (Nat.succ_pos _)), length_strncpy _ _⟩

theorem getD_rootEntries (files : List HostFile) (k : ℕ) :
    ((rootEntries files).getD k .empty).inum < files.length + 2 ∧
      ((rootEntries files).getD k .empty).name.length = DIRSIZ := by
  by_cases hk : k < (rootEntries files).length
  · rw [List.getD_eq_getElem _ _ hk]
    exact rootEntries_inum (List.getElem_mem hk)
  · rw [List.getD_eq_default _ _ (Nat.le_of_not_lt hk)]
    exact ⟨Nat.succ_pos _, Dirent.empty_inRange.name⟩

theorem dirent_rootBytes {files : List HostFile} {node : Node} (hfew : files.length + 2 ≤ 2 ^ 16)
    (hbyte : ∀ x, node.byte x = (rootBytes files).getD x 0) (k : ℕ) :
    node.dirent k = (rootEntries files).getD k .empty := by
  have hself := getD_rootEntries files k
  refine .trans (Node.dirent_congr fun x hx ↦ ?_)
    (Node.dirent_setDirent_self node k ⟨hself.1.trans_le hfew, hself.2⟩)
  rw [hbyte, rootBytes, getD_entries _ k hx, Node.setDirent, Node.setContents]
  · dsimp only
    rw [if_pos (by omega), Nat.add_sub_cancel_left]
  · exact fun e he ↦ ⟨(rootEntries_inum he).1.trans_le hfew, (rootEntries_inum he).2⟩

/-! ## The image as the kernel sees it -/

section

-- The 1000 rounds of the first loop are not to be evaluated.
attribute [local irreducible] main

variable {files : List HostFile}

/-- With few enough files, the kernel finds them all. -/
theorem main_represents (hfew : files.length ≤ NINODES - 2) (hok : main files start = .ok ((), m)) :
    Represents NINODES m (m.inodes NINODES) (finished files) ∧ m.disk = m.marked := by
  have hle : files.length + 2 ≤ NINODES := Nat.add_le_of_le_sub (by decide) hfew
  have hresult := wp_of_ok (main_spec (E := fun _ ↦ True) hle (by decide) fun _ _ ↦ trivial) hok
  exact hresult

theorem node_of_represents {specs : ℕ → Option FileSpec}
    (h : Represents NINODES m (m.inodes NINODES) specs) (hdisk : m.disk = m.marked) {f : FileSpec}
    (hf : specs i = some f) : (boot sb m.disk).node i = f.node := by
  rw [← (h.stored i f hf).node, ← hdisk]
  rfl

/-- The root directory of the image. -/
theorem node_root (hfew : files.length ≤ NINODES - 2) (hok : main files start = .ok ((), m)) :
    let n := (boot sb m.disk).node ROOTINO
    n.type = T_DIR ∧ n.size = (DIRENT * (files.length + 2) / BSIZE + 1) * BSIZE ∧
      ∀ k, n.dirent k = (rootEntries files).getD k .empty := by
  obtain ⟨h, hdisk⟩ := main_represents hfew hok
  have hsmall : files.length + 2 ≤ 2 ^ 16 := (Nat.add_le_add_right hfew 2).trans (by decide)
  rw [node_of_represents h hdisk (Function.update_self ..)]
  exact ⟨rfl, rfl, dirent_rootBytes hsmall fun _ ↦ rfl⟩

/-- A file for which there is nothing to read. -/
def emptyFile : HostFile where
  path := [97]
  readable := true
  pieces := []
  nonempty := by simp
  length_le := by simp

/-- Empty files can be added while there is room for their inodes. -/
theorem exists_main_replicate {n : ℕ} (hn : n < 206) :
    ∃ m, main (List.replicate n emptyFile) start = .ok ((), m) := by
  have hempty : ∀ file ∈ List.replicate n emptyFile, file.Empty := by
    intro file hfile
    rw [List.eq_of_mem_replicate hfile]
    exact ⟨by decide, rfl, rfl⟩
  have hspec := main_spec (N := n + 2) (E := fun _ ↦ False)
    (by rw [List.length_replicate]) (by omega) fun hno ↦ absurd hempty hno
  obtain ⟨_, m, hok, -⟩ := ok_of_wp hspec
  exact ⟨m, hok⟩

/-- Every file is in the image, under its name and with its bytes. -/
def OnImage (files : List HostFile) (disk : Device) : Prop :=
  ∀ k file, files[k]? = some file →
    (boot sb disk).node (k + 2) = (FileSpec.ofBytes T_FILE file.bytes).node ∧
    ((boot sb disk).node ROOTINO).dirent (k + 2) = .make file.name (k + 2)

/-- The kernel finds a file by its name if and only if the name differs in its first 14 bytes from
`.`, `..` and the names of the files before it; `mkfs` does not check that. -/
theorem child_root_iff (hfew : files.length ≤ NINODES - 2) (hok : main files start = .ok ((), m))
    {k : ℕ} {file : HostFile} (hfile : files[k]? = some file) :
    (boot sb m.disk).child ROOTINO file.name = some (k + 2) ↔
      ∀ name ∈ (rootNames files).take (k + 2), cstr DIRSIZ name ≠ cstr DIRSIZ file.name := by
  obtain ⟨htype, hsize, hdirent⟩ := node_root hfew hok
  rw [FsState.child, if_pos htype]
  set n := (boot sb m.disk).node ROOTINO
  have hfinds : ∀ {j name}, (rootNames files)[j]? = some name →
      (n.Finds file.name j ↔ cstr DIRSIZ name = cstr DIRSIZ file.name) := by
    intro j name hname
    rw [Node.finds_iff, Node.key, Node.Entry, hdirent, rootEntries_of_name hname, Dirent.make,
      cstr_strncpy, hsize]
    refine and_iff_right ⟨?_, (Nat.lt_of_lt_of_le Nat.one_pos (le_max_right _ _)).ne'⟩
    have hlt := (List.getElem?_eq_some_iff.mp hname).1
    rw [length_rootNames] at hlt
    simp only [DIRENT, BSIZE]
    omega
  have hself : (rootNames files)[k + 2]? = some file.name := by simp [rootNames, hfile]
  have hlen : k + 2 < (rootNames files).length := (List.getElem?_eq_some_iff.mp hself).1
  constructor
  · intro heq name hmem hname
    obtain ⟨j, hj, rfl⟩ := List.mem_take_iff_getElem.mp hmem
    have hfind := (hfinds (List.getElem?_eq_getElem (by omega))).mpr hname
    -- The first entry with the name is not the one of the file.
    classical
    have hex : ∃ j, n.Finds file.name j := ⟨j, hfind⟩
    have hle : Nat.find hex ≤ j := Nat.find_min' hex hfind
    rw [Node.lookup_first (Nat.find_spec hex) fun i hi ↦ Nat.find_min hex hi,
      hdirent, rootEntries_of_name (List.getElem?_eq_getElem (by omega))] at heq
    have hinum : max (Nat.find hex) ROOTINO = k + 2 := Option.some.inj heq
    exact (max_lt (by omega) (Nat.succ_lt_succ (Nat.succ_pos _))).ne hinum
  · intro hnone
    rw [Node.lookup_first ((hfinds hself).mpr rfl) fun j hj hfind ↦ ?_, hdirent,
      rootEntries_of_name hself]
    · rfl
    · have hlt : j < (rootNames files).length := hj.trans hlen
      exact hnone _ (List.mem_take_iff_getElem.mpr ⟨j, by omega, rfl⟩)
        ((hfinds (List.getElem?_eq_getElem hlt)).mp hfind)

/-- Of two files with one name the kernel finds the first. -/
theorem child_root_iff_two : ∃ m, main [emptyFile, emptyFile] start = .ok ((), m) ∧
    (boot sb m.disk).child ROOTINO emptyFile.name = some 2 ∧
    (boot sb m.disk).child ROOTINO emptyFile.name ≠ some 3 := by
  obtain ⟨m, hok⟩ := exists_main_replicate (n := 2) (by decide)
  refine ⟨m, hok, (child_root_iff (by decide) hok (k := 0) rfl).mpr (by decide), fun heq ↦ ?_⟩
  exact absurd ((child_root_iff (by decide) hok (k := 1) rfl).mp heq) (by decide)

/-- Every block below the size of a file has some of its bytes. -/
theorem finished_bytes (hnot : (files.length + 2) % (BSIZE / DIRENT) ≠ 0) {f : FileSpec}
    (hf : finished files i = some f) {k : ℕ} (hk : k * BSIZE < f.size) :
    k * BSIZE < f.bytes.length := by
  by_cases hi : i = ROOTINO
  · subst hi
    rw [finished, Function.update_self] at hf
    cases hf
    dsimp only at hk ⊢
    rw [length_rootBytes]
    simp only [DIRENT, BSIZE] at *
    omega
  · rw [finished, Function.update_of_ne hi] at hf
    obtain ⟨bytes, rfl⟩ := made_of_ne hi hf
    exact hk

/-- The image is one from which the file system of the kernel can start (its blocks are owned once
and marked, no file has a hole, and the directory holds numbers of inodes), unless the entries of the
root directory fill their blocks exactly: its size is then rounded up to one block more. -/
theorem wellFormed_iff (hfew : files.length ≤ NINODES - 2) (hok : main files start = .ok ((), m)) :
    WellFormed sb m.disk ↔ (files.length + 2) % (BSIZE / DIRENT) ≠ 0 := by
  obtain ⟨h, hdisk⟩ := main_represents hfew hok
  obtain ⟨hrtype, hrsize, hdirent⟩ := node_root hfew hok
  have hfew' : files.length ≤ 198 := hfew
  have hroot := h.stored ROOTINO _ (Function.update_self ..)
  have hsize : (m.inodes NINODES ROOTINO).size =
      (DIRENT * (files.length + 2) / BSIZE + 1) * BSIZE := by rw [hroot.inode]; rfl
  have hblocks := hroot.blocks
  simp only [length_rootBytes] at hblocks
  rw [← hdisk] at hblocks
  constructor
  · intro hwell hfull
    have hno := (hwell.image.noHoles ROOTINO (h.allocated (Function.update_self ..))).block
      ((files.length + 2) / 64)
    have hhole := (hblocks _).mp (hno (hsize.symm ▸ ?_))
    · simp only [DIRENT, BSIZE] at *
      omega
    · simp only [DIRENT, BSIZE] at *
      omega
  · intro hnot
    have hfile : ∀ i, Allocated sb (boot sb m.disk).inodes i →
        ∃ f, finished files i = some f ∧ Stored m.marked (m.inodes NINODES i) f := by
      rintro i ⟨-, htype⟩
      cases hf : finished files i with
      | none => exact absurd (congrArg Dinode.type (h.free i hf)) htype
      | some f => exact ⟨f, rfl, h.stored i f hf⟩
    refine ⟨wellFormed_sbFor (by decide) (by decide), ⟨?_, fun i hi ↦ ?_, fun i hi htype ↦ ?_⟩, ?_⟩
    · have howned := h.sound.owned
      rwa [← hdisk] at howned
    · obtain ⟨f, hf, hstored⟩ := hfile i hi
      have hsize : ((boot sb m.disk).inodes i).size = f.size := congrArg Dinode.size hstored.inode
      refine ⟨hsize.trans_le hstored.size, fun k hk ↦ ?_⟩
      have hblock := hstored.blocks k
      rw [← hdisk] at hblock
      refine hblock.mpr (finished_bytes hnot hf ?_)
      rwa [hsize] at hk
    · obtain ⟨f, hf, hstored⟩ := hfile i hi
      have hroot : i = ROOTINO := by
        by_contra hne
        rw [finished, Function.update_of_ne hne] at hf
        obtain ⟨bytes, rfl⟩ := made_of_ne hne hf
        exact absurd ((congrArg Dinode.type hstored.inode).symm.trans htype)
          (by decide : T_FILE ≠ T_DIR)
      subst hroot
      refine ⟨hrsize.symm ▸ ?_, fun k _ ↦ ?_⟩
      · simp only [DIRENT, BSIZE]
        omega
      · exact hdirent k ▸ (getD_rootEntries files k).1.trans_le (Nat.add_le_add_right hfew' 2)
    · exact hrtype

/-- With 61 files the image is well formed, with 62 it is not. -/
theorem wellFormed_iff_sixtyTwo :
    (∃ m, main (List.replicate 61 emptyFile) start = .ok ((), m) ∧ WellFormed sb m.disk) ∧
      ∃ m, main (List.replicate 62 emptyFile) start = .ok ((), m) ∧ ¬ WellFormed sb m.disk := by
  obtain ⟨m, hok⟩ := exists_main_replicate (n := 61) (by decide)
  obtain ⟨m', hok'⟩ := exists_main_replicate (n := 62) (by decide)
  refine ⟨⟨m, hok, (wellFormed_iff (by decide) hok).mpr (by decide)⟩, m', hok', fun hwell ↦ ?_⟩
  exact absurd ((wellFormed_iff (by decide) hok').mp hwell) (by decide)

end

end Xv6.Mkfs
