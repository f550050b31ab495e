import Xv6.Fs.Calls

/-!
# An Empty File System

The image that `mkfs` writes when it is given no files: the root directory, which has one block with
the entries `"."` and `".."`, and a bitmap in which the blocks up to this one are marked.  The root
directory has room for `slots` entries; `mkfs` rounds its size up to a whole block.
-/

namespace Xv6.Fs

open Lib

variable {sb : Superblock} {slots : ℕ}

namespace Superblock

/-- Mark the given blocks in the bitmap, as `balloc` of `mkfs` does. -/
def mark (sb : Superblock) (disk : Device) (blocks : List ℕ) : Device := blocks.foldl sb.setBit disk

theorem bit_mark (disk : Device) (blocks : List ℕ) (b : ℕ) :
    sb.bit (sb.mark disk blocks) b = (decide (b ∈ blocks) || sb.bit disk b) := by
  induction blocks generalizing disk with
  | nil => simp [mark]
  | cons c blocks ih =>
    have hstep : sb.mark disk (c :: blocks) = sb.mark (sb.setBit disk c) blocks := rfl
    rw [hstep, ih, bit_setBit, ← Bool.or_assoc]
    congr 1
    simp [Bool.or_comm]

/-- Marking blocks changes only the bitmap. -/
theorem mark_of_ne (disk : Device) {blocks : List ℕ} {x : ℕ} (h : ∀ b ∈ blocks, sb.bblock b ≠ x) :
    sb.mark disk blocks x = disk x := by
  induction blocks generalizing disk with
  | nil => rfl
  | cons c blocks ih =>
    have hstep : sb.mark disk (c :: blocks) = sb.mark (sb.setBit disk c) blocks := rfl
    rw [hstep, ih _ fun b hb ↦ h b (List.mem_cons_of_mem _ hb), setBit,
      Function.update_of_ne (h c List.mem_cons_self).symm]

end Superblock

/-- The inode of the root directory. -/
def formatRoot (sb : Superblock) (slots : ℕ) : Dinode where
  type := T_DIR
  major := 0
  minor := 0
  nlink := 1
  size := DIRENT * slots
  addrs k := if k = 0 then sb.dataStart else 0

/-- The block of the root directory. -/
def formatBlock : Block :=
  Buffer.setBytes (Buffer.setBytes (.fill 0) 0 (Dirent.make dot ROOTINO).encode) DIRENT
    (Dirent.make dotdot ROOTINO).encode

/-- The empty file system. -/
def format (sb : Superblock) (slots : ℕ) : Device :=
  sb.setDinode (Function.update (sb.mark (fun _ ↦ .fill 0) (List.range (sb.dataStart + 1)))
    sb.dataStart formatBlock) ROOTINO (formatRoot sb slots)

theorem dinode_fill (slot : ℕ) : Block.dinode (.fill 0) slot = .zero := by
  simp only [Block.dinode, Buffer.getLE_fill_zero]
  rfl

section

variable (hsb : sb.WellFormed) (hroom : sb.dataStart < sb.size)

include hsb hroom

theorem bit_format {b : ℕ} (hb : b < sb.size) :
    sb.bit (format sb slots) b = decide (b ≤ sb.dataStart) := by
  have hzero : sb.bit (fun _ ↦ .fill 0) b = false := by
    rw [Superblock.bit, Block.bit]
    simp [Buffer.get, Buffer.fill]
  rw [format, Superblock.bit_setDinode hsb _ hsb.root hb,
    Superblock.bit_update_data _ hb ⟨le_refl _, hroom⟩, Superblock.bit_mark, hzero]
  simp [List.mem_range]

theorem dinode_format {i : ℕ} (hi : i < sb.ninodes) (hslots : slots ≤ 64) :
    sb.dinode (format sb slots) i = if i = ROOTINO then formatRoot sb slots else .zero := by
  have hrange : (formatRoot sb slots).InRange := by
    have hsize := hsb.size
    refine ⟨?_, fun k ↦ ?_⟩
    · change DIRENT * slots < 2 ^ 32
      simp only [DIRENT]
      omega
    · change (if k = 0 then sb.dataStart else 0) < 2 ^ 32
      split <;> omega
  have hblock : ∀ b ∈ List.range (sb.dataStart + 1), sb.bblock b ≠ sb.iblock i := by
    intro b _
    have hlt := Superblock.iblock_lt hsb hi
    exact (lt_of_lt_of_le hlt (Nat.le_add_left _ _)).ne'
  rw [format, Superblock.dinode_setDinode hrange]
  split
  · rfl
  · rw [Superblock.dinode_update_data hsb _ hi ⟨le_refl _, hroom⟩, Superblock.dinode,
      Superblock.mark_of_ne _ hblock, dinode_fill]

theorem format_dataStart : format sb slots sb.dataStart = formatBlock := by
  rw [format, Superblock.setDinode_data hsb _ hsb.root ⟨le_refl _, hroom⟩, Function.update_self]

/-- Only the root is allocated. -/
theorem inodes_format (hslots : slots ≤ 64) (i : ℕ) :
    (boot sb (format sb slots)).inodes i =
      if i = ROOTINO then formatRoot sb slots else .zero := by
  change (if sb.IsInum i then sb.dinode (format sb slots) i else .zero) = _
  by_cases hi : sb.IsInum i
  · rw [if_pos hi, dinode_format hsb hroom hi.2 hslots]
  · have hne : i ≠ ROOTINO := by
      rintro rfl
      exact hi ⟨Nat.one_pos, hsb.root⟩
    rw [if_neg hi, if_neg hne]

end

/-- The only block of the root directory. -/
theorem formatRoot_at (disk : Device) (place : Place) :
    (formatRoot sb slots).at disk place = if place = .direct 0 then sb.dataStart else 0 := by
  cases place with
  | direct k =>
    have hiff : k.castSucc = 0 ↔ Place.direct k = .direct 0 := by
      rw [Place.direct.injEq, Fin.ext_iff, Fin.ext_iff]
      rfl
    change (if k.castSucc = 0 then sb.dataStart else 0) = _
    simp only [hiff]
  | indirect => rfl
  | entry j => rfl

/-- The entries of the root directory. -/
theorem formatBlock_dirent {n : Node} (h : ∀ x, x < BSIZE → n.byte x = formatBlock.get x) {k : ℕ}
    (hk : k < 64) :
    n.dirent k = if k = 0 then .make dot ROOTINO else if k = 1 then .make dotdot ROOTINO
      else .empty := by
  have hrange : ∀ name, (Dirent.make name ROOTINO).InRange :=
    fun name ↦ ⟨(by decide : ROOTINO < 2 ^ 16), length_strncpy _ _⟩
  have hlength : ∀ name, (Dirent.make name ROOTINO).encode.length = DIRENT :=
    fun name ↦ length_dirent (hrange name)
  have hbytes : n.bytes (DIRENT * k) DIRENT = formatBlock.getBytes (DIRENT * k) DIRENT := by
    refine List.map_congr_left fun x hx ↦ h _ ?_
    have := List.mem_range.mp hx
    simp only [DIRENT, BSIZE] at *
    omega
  rw [Node.dirent, hbytes, formatBlock]
  by_cases hzero : k = 0
  · subst hzero
    have hself := Buffer.getBytes_setBytes_self (.fill 0 : Block) 0 (Dirent.make dot ROOTINO).encode
      (by rw [hlength]; decide)
    rw [hlength] at hself
    rw [if_pos rfl, Buffer.getBytes_setBytes_of_disjoint _ _ _ _ _ (.inl (by decide)),
      Nat.mul_zero, hself, decode_encode (hrange _)]
  · by_cases hone : k = 1
    · subst hone
      have hself := Buffer.getBytes_setBytes_self
        (Buffer.setBytes (.fill 0 : Block) 0 (Dirent.make dot ROOTINO).encode) DIRENT
        (Dirent.make dotdot ROOTINO).encode (by rw [hlength]; decide)
      rw [hlength] at hself
      rw [if_neg hzero, if_pos rfl, Nat.mul_one, hself, decode_encode (hrange _)]
    · rw [if_neg hzero, if_neg hone, Buffer.getBytes_setBytes_of_disjoint,
        Buffer.getBytes_setBytes_of_disjoint, Buffer.getBytes_fill_zero]
      · decide
      · rw [hlength]
        simp only [DIRENT]
        omega
      · rw [hlength]
        simp only [DIRENT]
        omega

/-- The root directory of the empty file system. -/
theorem node_format (hsb : sb.WellFormed) (hroom : sb.dataStart < sb.size) (hslots : slots ≤ 64) :
    (boot sb (format sb slots)).node ROOTINO =
      { type := T_DIR, major := 0, minor := 0, nlink := 1, size := DIRENT * slots,
        byte := (formatRoot sb slots).byteAt (format sb slots) } := by
  rw [FsState.node, inodes_format hsb hroom hslots, if_pos rfl, Dinode.node, if_neg]
  · rfl
  · exact (by decide : T_DIR ≠ 0)

theorem format_byte (hsb : sb.WellFormed) (hroom : sb.dataStart < sb.size) {x : ℕ}
    (hx : x < BSIZE) : (formatRoot sb slots).byteAt (format sb slots) x = formatBlock.get x := by
  have hpos : sb.dataStart ≠ 0 := Nat.succ_ne_zero _
  have hblock : (formatRoot sb slots).blockOf (format sb slots) 0 = sb.dataStart := rfl
  rw [Dinode.byteAt, Nat.div_eq_of_lt hx, Nat.mod_eq_of_lt hx, Dinode.contents, hblock, if_neg hpos,
    format_dataStart hsb hroom]

/-- The empty file system is well formed. -/
theorem wellFormed_format (hsb : sb.WellFormed) (hroom : sb.dataStart < sb.size)
    (hslots : slots ≤ 64) : WellFormed sb (format sb slots) := by
  have hinodes := inodes_format hsb hroom hslots
  have hpos : sb.dataStart ≠ 0 := Nat.succ_ne_zero _
  -- Only the first place of the root inode holds a block.
  have hroot : ∀ i, Allocated sb (boot sb (format sb slots)).inodes i → i = ROOTINO := by
    rintro i ⟨-, htype⟩
    by_contra hne
    rw [hinodes, if_neg hne] at htype
    exact htype rfl
  have hself : (boot sb (format sb slots)).inodes ROOTINO = formatRoot sb slots := by
    rw [hinodes, if_pos rfl]
  have halloc : Allocated sb (boot sb (format sb slots)).inodes ROOTINO := by
    refine ⟨⟨Nat.one_pos, hsb.root⟩, ?_⟩
    rw [hself]
    exact (by decide : T_DIR ≠ 0)
  have hat : ∀ i place, Allocated sb (boot sb (format sb slots)).inodes i →
      ((boot sb (format sb slots)).inodes i).at (format sb slots) place =
        if place = .direct 0 then sb.dataStart else 0 := by
    intro i place hi
    rw [hroot i hi, hself, formatRoot_at]
  have hdirect : ∀ i place, Allocated sb (boot sb (format sb slots)).inodes i →
      ((boot sb (format sb slots)).inodes i).at (format sb slots) place ≠ 0 →
        place = .direct 0 := by
    intro i place hi hne
    by_contra hplace
    rw [hat i place hi, if_neg hplace] at hne
    exact hne rfl
  refine ⟨hsb, ⟨⟨?_, ?_, ?_, ?_⟩, ?_, ?_⟩, by rw [node_format hsb hroom hslots]⟩
  · intro i place hi hne
    rw [hat i place hi, if_pos (hdirect i place hi hne)]
    exact ⟨le_refl _, hroom⟩
  · intro i j place other hi hj hne heq
    refine ⟨(hroot i hi).trans (hroot j hj).symm, ?_⟩
    rw [hdirect i place hi hne, hdirect j other hj (heq ▸ hne)]
  · intro b hb
    rw [bit_format hsb hroom hb.2, decide_eq_true_iff]
    constructor
    · intro hle
      refine ⟨ROOTINO, .direct 0, halloc, ?_⟩
      rw [hat _ _ halloc, if_pos rfl]
      exact le_antisymm hb.1 hle
    · rintro ⟨i, place, hi, rfl⟩
      rw [hat i place hi]
      split
      · exact le_refl _
      · exact Nat.zero_le _
  · intro b hb
    rw [bit_format hsb hroom (hb.trans hroom), decide_eq_true_iff]
    exact hb.le
  · intro i hi
    rw [hroot i hi, hself]
    refine ⟨?_, fun k hk ↦ ?_⟩
    · change DIRENT * slots ≤ MAXFILE * BSIZE
      calc DIRENT * slots ≤ DIRENT * 64 := Nat.mul_le_mul_left _ hslots
        _ ≤ MAXFILE * BSIZE := by decide
    · have hlt : k * BSIZE < DIRENT * slots := hk
      obtain rfl : k = 0 := by
        simp only [DIRENT, BSIZE] at hlt
        omega
      exact hpos
  · intro i hi _
    rw [hroot i hi, hself]
    have hnode := node_format hsb hroom hslots
    rw [FsState.node, hself] at hnode
    change ((formatRoot sb slots).node (format sb slots)).DirOk sb.ninodes
    have hnode : (formatRoot sb slots).node (format sb slots) = _ := hnode
    rw [hnode]
    refine ⟨Nat.mul_mod_right _ _, fun k hk ↦ ?_⟩
    have hk : DIRENT * k < DIRENT * slots := hk
    rw [formatBlock_dirent (fun x hx ↦ format_byte hsb hroom hx)
      (lt_of_lt_of_le (Nat.lt_of_mul_lt_mul_left hk) hslots)]
    have hone := hsb.root
    split
    · exact hone
    · split
      · exact hone
      · exact lt_trans Nat.one_pos hone

/-- Nothing waits to be freed on the empty file system. -/
theorem calm_format (hsb : sb.WellFormed) (hroom : sb.dataStart < sb.size) (hslots : slots ≤ 64) :
    (boot sb (format sb slots)).Calm where
  root := by
    rw [node_format hsb hroom hslots]
    exact (by decide : (1 : Int16) ≠ 0)
  used i hi hzero := by
    by_cases hroot : i = ROOTINO
    · rw [hroot, node_format hsb hroom hslots] at hzero
      exact absurd hzero (by decide : (1 : Int16) ≠ 0)
    · rw [node_type, inodes_format hsb hroom hslots, if_neg hroot] at hi
      exact absurd rfl hi

/-- A disk of 16 blocks. -/
def smallSb : Superblock where
  size := 16
  nblocks := 11
  ninodes := 16
  nlog := 0
  logstart := 2
  inodestart := 2
  bmapstart := 4

theorem smallSb_wellFormed : smallSb.WellFormed := by
  constructor <;> decide

/-- A small disk with an empty file system. -/
def small : FsState := boot smallSb (format smallSb 2)

theorem wellFormed_small : WellFormed smallSb (format smallSb 2) :=
  wellFormed_format smallSb_wellFormed (by decide) (by decide)

end Xv6.Fs
