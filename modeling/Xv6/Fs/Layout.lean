import Mathlib.Data.Nat.Bitwise
import Mathlib.Tactic
import Xv6.Disk.Block

/-!
# The On-Disk Format

`kernel/fs.h`: the superblock, the array of on-disk inodes, the free-block bitmap and directory
entries, as the kernel reads and writes them in disk blocks.  Reading back what was stored gives it
back, and storing one inode, bit or data block leaves all others as they were; the rest of the
development uses the format through these laws only.
-/

namespace Xv6.Fs

open Lib

/-- Root i-number. -/
abbrev ROOTINO : ℕ := 1

abbrev NDIRECT : ℕ := 12

abbrev NINDIRECT : ℕ := BSIZE / 4

abbrev MAXFILE : ℕ := NDIRECT + NINDIRECT

/-- Inodes per block; an on-disk inode has 64 bytes. -/
abbrev IPB : ℕ := BSIZE / 64

/-- Bitmap bits per block. -/
abbrev BPB : ℕ := BSIZE * 8

abbrev DIRSIZ : ℕ := 14

/-- `sizeof(struct dirent)`. -/
abbrev DIRENT : ℕ := 16

/-- `struct superblock`, less the magic number. -/
structure Superblock where
  size : ℕ
  nblocks : ℕ
  ninodes : ℕ
  nlog : ℕ
  logstart : ℕ
  inodestart : ℕ
  bmapstart : ℕ

/-- File types; type 0 marks a free inode. -/
abbrev T_DIR : Int16 := 1

abbrev T_FILE : Int16 := 2

abbrev T_DEVICE : Int16 := 3

/-- `struct dinode`. -/
structure Dinode where
  type : Int16
  major : Int16
  minor : Int16
  nlink : Int16
  size : ℕ
  addrs : Fin (NDIRECT + 1) → ℕ

/-- An inode after `memset` to zero. -/
def Dinode.zero : Dinode where
  type := 0
  major := 0
  minor := 0
  nlink := 0
  size := 0
  addrs _ := 0

/-- The 32-bit fields hold 32-bit values. -/
structure Dinode.InRange (d : Dinode) : Prop where
  size : d.size < 2 ^ 32
  addrs : ∀ k, d.addrs k < 2 ^ 32

namespace Superblock

variable (sb : Superblock)

/-- `IBLOCK`: the block that contains inode `inum`. -/
def iblock (inum : ℕ) : ℕ := inum / IPB + sb.inodestart

/-- `BBLOCK`: the block of the bitmap that contains the bit of block `b`. -/
def bblock (b : ℕ) : ℕ := b / BPB + sb.bmapstart

/-- The first block after the bitmap. -/
def dataStart : ℕ := sb.bmapstart + (sb.size / BPB + 1)

/-- The block is in the data area. -/
def IsData (b : ℕ) : Prop := sb.dataStart ≤ b ∧ b < sb.size

/-- The number names an inode; inode 0 is not used. -/
def IsInum (inum : ℕ) : Prop := 0 < inum ∧ inum < sb.ninodes

/-- The areas follow each other as `mkfs` lays them out, and i-numbers fit in directory entries. -/
structure WellFormed : Prop where
  inodes : sb.inodestart + (sb.ninodes / IPB + 1) ≤ sb.bmapstart
  data : sb.dataStart ≤ sb.size
  size : sb.size ≤ 2 ^ 31
  root : ROOTINO < sb.ninodes
  ninodes : sb.ninodes ≤ 2 ^ 16

end Superblock

/-! ## Fields of a block -/

/-- The bytes of a `short`. -/
def shortBytes (x : Int16) : List UInt8 := leBytes 2 x.toBitVec.toNat

/-- The `short` with the given low 16 bits. -/
def shortOf (n : ℕ) : Int16 := Int16.ofBitVec (BitVec.ofNat 16 n)

/-- The bytes of an array of `uint`. -/
def wordBytes : List ℕ → List UInt8
  | [] => []
  | w :: ws => leBytes 4 w ++ wordBytes ws

/-- The bytes of an on-disk inode. -/
def Dinode.encode (d : Dinode) : List UInt8 :=
  shortBytes d.type ++ (shortBytes d.major ++ (shortBytes d.minor ++ (shortBytes d.nlink ++
    (leBytes 4 d.size ++ wordBytes (List.ofFn d.addrs)))))

end Xv6.Fs

namespace Xv6.Block

open Lib Fs

/-- Inode `slot` of a block of inodes. -/
def dinode (block : Block) (slot : ℕ) : Dinode where
  type := shortOf (block.getLE 2 (64 * slot))
  major := shortOf (block.getLE 2 (64 * slot + 2))
  minor := shortOf (block.getLE 2 (64 * slot + 4))
  nlink := shortOf (block.getLE 2 (64 * slot + 6))
  size := block.getLE 4 (64 * slot + 8)
  addrs k := block.getLE 4 (64 * slot + (12 + 4 * k.val))

/-- Store an inode into a block of inodes. -/
def setDinode (block : Block) (slot : ℕ) (d : Dinode) : Block :=
  block.setBytes (64 * slot) d.encode

/-- The mask of bit `bi` in its byte. -/
def mask (bi : ℕ) : UInt8 := 1 <<< UInt8.ofNat (bi % 8)

/-- Bit `bi` of a bitmap block. -/
def bit (block : Block) (bi : ℕ) : Bool := block.get (bi / 8) &&& mask bi != 0

/-- Set bit `bi` of a bitmap block. -/
def setBit (block : Block) (bi : ℕ) : Block :=
  block.setBytes (bi / 8) [block.get (bi / 8) ||| mask bi]

/-- Clear bit `bi` of a bitmap block. -/
def clearBit (block : Block) (bi : ℕ) : Block :=
  block.setBytes (bi / 8) [block.get (bi / 8) &&& ~~~ mask bi]

/-! ## Reading back inodes -/

@[simp]
theorem length_wordBytes (ws : List ℕ) : (wordBytes ws).length = 4 * ws.length := by
  induction ws with
  | nil => rfl
  | cons w ws ih =>
    simp only [wordBytes, List.length_append, length_leBytes, ih, List.length_cons]
    omega

theorem wordBytes_slice (ws : List ℕ) {k : ℕ} (hk : k < ws.length) :
    ((wordBytes ws).drop (4 * k)).take 4 = leBytes 4 (ws.get ⟨k, hk⟩) := by
  induction ws generalizing k with
  | nil => simp at hk
  | cons w ws ih =>
    cases k with
    | zero => simp [wordBytes]
    | succ k =>
      have hdrop : (wordBytes (w :: ws)).drop (4 * (k + 1)) = (wordBytes ws).drop (4 * k) := by
        rw [wordBytes, Nat.mul_add, Nat.add_comm, ← List.drop_drop]
        simp
      rw [hdrop]
      exact ih (by simpa using hk)

@[simp]
theorem length_encode (d : Dinode) : d.encode.length = 64 := by
  simp [Dinode.encode, shortBytes]

@[simp]
theorem shortOf_leValue_shortBytes (x : Int16) : shortOf (leValue (shortBytes x)) = x := by
  rw [shortBytes, leValue_leBytes, shortOf]
  have hlt : x.toBitVec.toNat < 256 ^ 2 := x.toBitVec.isLt
  rw [Nat.mod_eq_of_lt hlt]
  simp

@[simp]
theorem length_shortBytes (x : Int16) : (shortBytes x).length = 2 := by
  simp [shortBytes]

theorem drop_shortBytes (x : Int16) {n : ℕ} (hn : 2 ≤ n) : (shortBytes x).drop n = [] :=
  List.drop_eq_nil_of_le (by simpa using hn)

/-- The fields of an encoded inode. -/
theorem encode_slices (d : Dinode) :
    (d.encode.drop 0).take 2 = shortBytes d.type ∧
      (d.encode.drop 2).take 2 = shortBytes d.major ∧
      (d.encode.drop 4).take 2 = shortBytes d.minor ∧
      (d.encode.drop 6).take 2 = shortBytes d.nlink ∧
      (d.encode.drop 8).take 4 = leBytes 4 d.size ∧
      ∀ k : Fin (NDIRECT + 1), (d.encode.drop (12 + 4 * k.val)).take 4 = leBytes 4 (d.addrs k) := by
  refine ⟨by simp [Dinode.encode], by simp [Dinode.encode],
    by simp [Dinode.encode, List.drop_append, drop_shortBytes],
    by simp [Dinode.encode, List.drop_append, drop_shortBytes],
    by simp [Dinode.encode, List.drop_append, drop_shortBytes], fun k ↦ ?_⟩
  have hskip : d.encode.drop (12 + 4 * k.val) = (wordBytes (List.ofFn d.addrs)).drop (4 * k.val) := by
    have hlength : (shortBytes d.type ++ (shortBytes d.major ++ (shortBytes d.minor ++
        (shortBytes d.nlink ++ leBytes 4 d.size)))).length = 12 := by simp
    have hsplit : d.encode = (shortBytes d.type ++ (shortBytes d.major ++ (shortBytes d.minor ++
        (shortBytes d.nlink ++ leBytes 4 d.size)))) ++ wordBytes (List.ofFn d.addrs) := by
      simp only [Dinode.encode, List.append_assoc]
    rw [hsplit, ← hlength, List.drop_length_add_append]
  have hk : k.val < (List.ofFn d.addrs).length := by
    rw [List.length_ofFn]
    exact k.isLt
  rw [hskip, wordBytes_slice _ hk, List.get_ofFn]
  rfl

/-- An inode stored in a block and read back. -/
theorem dinode_setDinode_self (block : Block) {slot : ℕ} (hslot : slot < IPB) {d : Dinode}
    (hd : d.InRange) : dinode (setDinode block slot d) slot = d := by
  have hfits : 64 * slot + d.encode.length ≤ BSIZE := by
    rw [length_encode]
    simp only [IPB, BSIZE] at *
    omega
  have hfield : ∀ width start, start + width ≤ 64 →
      (setDinode block slot d).getLE width (64 * slot + start) =
        leValue ((d.encode.drop start).take width) := by
    intro width start hinside
    exact Buffer.getLE_setBytes_inside _ _ _ _ _ hfits (by simpa using hinside)
  obtain ⟨htype, hmajor, hminor, hnlink, hsize, haddrs⟩ := encode_slices d
  have hword : ∀ w, w < 2 ^ 32 → leValue (leBytes 4 w) = w := by
    intro w hw
    rw [leValue_leBytes]
    exact Nat.mod_eq_of_lt hw
  have hzero := hfield 2 0 (by omega)
  rw [Nat.add_zero] at hzero
  unfold dinode
  rw [hzero, hfield 2 2 (by omega), hfield 2 4 (by omega), hfield 2 6 (by omega),
    hfield 4 8 (by omega), htype, hmajor, hminor, hnlink, hsize, hword _ hd.size]
  simp only [shortOf_leValue_shortBytes]
  congr
  funext k
  rw [hfield 4 _ (by have := k.isLt; simp only [NDIRECT] at this; omega), haddrs k,
    hword _ (hd.addrs k)]

/-- Storing an inode leaves the other inodes of the block as they were. -/
theorem dinode_setDinode_of_ne (block : Block) {slot other : ℕ} (d : Dinode) (hne : other ≠ slot) :
    dinode (setDinode block slot d) other = dinode block other := by
  have hfield : ∀ width start, start + width ≤ 64 →
      (setDinode block slot d).getLE width (64 * other + start) =
        block.getLE width (64 * other + start) := by
    intro width start hinside
    apply Buffer.getLE_setBytes_of_disjoint
    rw [length_encode]
    omega
  have hzero := hfield 2 0 (by omega)
  rw [Nat.add_zero] at hzero
  unfold dinode
  rw [hzero, hfield 2 2 (by omega), hfield 2 4 (by omega), hfield 2 6 (by omega),
    hfield 4 8 (by omega)]
  congr
  funext k
  exact hfield 4 _ (by have := k.isLt; simp only [NDIRECT] at this; omega)

/-! ## Reading back bits -/

theorem toNat_mask (bi : ℕ) : (mask bi).toNat = 2 ^ (bi % 8) := by
  unfold mask
  have hlt : bi % 8 < 8 := Nat.mod_lt _ (by decide)
  interval_cases bi % 8 <;> rfl

/-- The test of a bit in its byte. -/
theorem and_mask (byte : UInt8) (bi : ℕ) :
    (byte &&& mask bi != 0) = byte.toNat.testBit (bi % 8) := by
  have hand : (byte &&& mask bi).toNat = (byte.toNat.testBit (bi % 8)).toNat * 2 ^ (bi % 8) := by
    rw [UInt8.toNat_and, toNat_mask, Nat.and_two_pow]
  have hiff : byte &&& mask bi = 0 ↔ (byte.toNat.testBit (bi % 8)).toNat = 0 := by
    rw [← UInt8.toNat_inj, hand]
    simp
  cases htest : byte.toNat.testBit (bi % 8) <;> simp_all

theorem testBit_or_mask (byte : UInt8) (bi other : ℕ) :
    (byte ||| mask bi).toNat.testBit (other % 8) =
      (byte.toNat.testBit (other % 8) || decide (bi % 8 = other % 8)) := by
  rw [UInt8.toNat_or, Nat.testBit_or, toNat_mask, Nat.testBit_two_pow]

theorem testBit_and_not_mask (byte : UInt8) (bi other : ℕ) :
    (byte &&& ~~~ mask bi).toNat.testBit (other % 8) =
      (byte.toNat.testBit (other % 8) && !decide (bi % 8 = other % 8)) := by
  rw [UInt8.toNat_and, Nat.testBit_and, UInt8.toNat_not, toNat_mask]
  have hbi : bi % 8 < 8 := Nat.mod_lt _ (by decide)
  have hother : other % 8 < 8 := Nat.mod_lt _ (by decide)
  congr 1
  interval_cases bi % 8 <;> interval_cases other % 8 <;> rfl

/-- Storing into the byte of one bit. -/
theorem get_setBytes_singleton (block : Block) (byte : UInt8) {offset other : ℕ}
    (hother : other < BSIZE) :
    Buffer.get (block.setBytes offset [byte]) other =
      if other = offset then byte else block.get other := by
  rw [Buffer.get_setBytes _ _ _ _ hother]
  by_cases heq : other = offset
  · simp [heq]
  · rw [if_neg, if_neg heq]
    simp only [List.length_singleton]
    omega

theorem bit_setBit (block : Block) {bi other : ℕ} (hother : other < BPB) :
    bit (setBit block bi) other = (decide (other = bi) || bit block other) := by
  have hbyte : other / 8 < BSIZE := by
    simp only [BPB] at hother
    omega
  simp only [bit, and_mask, setBit]
  rw [get_setBytes_singleton _ _ hbyte]
  by_cases hdiv : other / 8 = bi / 8
  · rw [if_pos hdiv, testBit_or_mask, hdiv, Bool.or_comm]
    congr 1
    rw [decide_eq_decide]
    omega
  · rw [if_neg hdiv]
    have hne : other ≠ bi := fun heq ↦ hdiv (by rw [heq])
    simp [hne]

theorem bit_clearBit (block : Block) {bi other : ℕ} (hother : other < BPB) :
    bit (clearBit block bi) other = (!decide (other = bi) && bit block other) := by
  have hbyte : other / 8 < BSIZE := by
    simp only [BPB] at hother
    omega
  simp only [bit, and_mask, clearBit]
  rw [get_setBytes_singleton _ _ hbyte]
  by_cases hdiv : other / 8 = bi / 8
  · rw [if_pos hdiv, testBit_and_not_mask, hdiv, Bool.and_comm]
    congr 2
    rw [decide_eq_decide]
    omega
  · rw [if_neg hdiv]
    have hne : other ≠ bi := fun heq ↦ hdiv (by rw [heq])
    simp [hne]

end Xv6.Block

namespace Xv6.Fs.Superblock

variable (sb : Superblock)

/-! ## Inodes, bits and data blocks of a device -/

/-- The on-disk inode `inum`. -/
def dinode (disk : Device) (inum : ℕ) : Dinode := (disk (sb.iblock inum)).dinode (inum % IPB)

/-- Store the on-disk inode `inum`. -/
def setDinode (disk : Device) (inum : ℕ) (d : Dinode) : Device :=
  Function.update disk (sb.iblock inum) ((disk (sb.iblock inum)).setDinode (inum % IPB) d)

/-- The bit of block `b` in the bitmap. -/
def bit (disk : Device) (b : ℕ) : Bool := (disk (sb.bblock b)).bit (b % BPB)

/-- Mark block `b` as used. -/
def setBit (disk : Device) (b : ℕ) : Device :=
  Function.update disk (sb.bblock b) ((disk (sb.bblock b)).setBit (b % BPB))

/-- Mark block `b` as free. -/
def clearBit (disk : Device) (b : ℕ) : Device :=
  Function.update disk (sb.bblock b) ((disk (sb.bblock b)).clearBit (b % BPB))

variable {sb} {disk : Device}

theorem dinode_setDinode {inum other : ℕ} {d : Dinode} (hd : d.InRange) :
    sb.dinode (sb.setDinode disk inum d) other = if other = inum then d else sb.dinode disk other := by
  by_cases heq : other = inum
  · rw [if_pos heq, heq, dinode, setDinode, Function.update_self,
      Block.dinode_setDinode_self _ (Nat.mod_lt _ (by decide)) hd]
  · rw [if_neg heq, dinode, setDinode]
    by_cases hblock : sb.iblock other = sb.iblock inum
    · have hslot : other % IPB ≠ inum % IPB := by
        intro hmod
        apply heq
        rw [← Nat.div_add_mod other IPB, ← Nat.div_add_mod inum IPB, hmod]
        simp only [iblock] at hblock
        have : other / IPB = inum / IPB := by omega
        rw [this]
      rw [hblock, Function.update_self, Block.dinode_setDinode_of_ne _ _ hslot, dinode, hblock]
    · rw [Function.update_of_ne hblock, dinode]

/-- Two blocks whose bits are in one block of the bitmap. -/
theorem eq_of_bblock_eq {b other : ℕ} (hblock : sb.bblock other = sb.bblock b)
    (hmod : other % BPB = b % BPB) : other = b := by
  rw [← Nat.div_add_mod other BPB, ← Nat.div_add_mod b BPB, hmod]
  simp only [bblock] at hblock
  have : other / BPB = b / BPB := by omega
  rw [this]

theorem bit_setBit (b other : ℕ) :
    sb.bit (sb.setBit disk b) other = (decide (other = b) || sb.bit disk other) := by
  rw [bit, setBit]
  by_cases hblock : sb.bblock other = sb.bblock b
  · rw [hblock, Function.update_self, Block.bit_setBit _ (Nat.mod_lt _ (by decide)), bit, hblock]
    congr 1
    rw [decide_eq_decide]
    exact ⟨eq_of_bblock_eq hblock, fun heq ↦ by rw [heq]⟩
  · have hne : other ≠ b := fun heq ↦ hblock (by rw [heq])
    rw [Function.update_of_ne hblock, bit]
    simp [hne]

theorem bit_clearBit (b other : ℕ) :
    sb.bit (sb.clearBit disk b) other = (!decide (other = b) && sb.bit disk other) := by
  rw [bit, clearBit]
  by_cases hblock : sb.bblock other = sb.bblock b
  · rw [hblock, Function.update_self, Block.bit_clearBit _ (Nat.mod_lt _ (by decide)), bit, hblock]
    congr 2
    rw [decide_eq_decide]
    exact ⟨eq_of_bblock_eq hblock, fun heq ↦ by rw [heq]⟩
  · have hne : other ≠ b := fun heq ↦ hblock (by rw [heq])
    rw [Function.update_of_ne hblock, bit]
    simp [hne]

theorem bmapstart_le {b : ℕ} (hb : sb.IsData b) : sb.bmapstart ≤ b :=
  (Nat.le_add_right _ _).trans hb.1

theorem bblock_lt {b : ℕ} (hb : b < sb.size) :
    sb.bmapstart ≤ sb.bblock b ∧ sb.bblock b < sb.dataStart := by
  have hdiv : b / BPB ≤ sb.size / BPB := Nat.div_le_div_right (by omega)
  have hzero := Nat.zero_le (b / BPB)
  unfold bblock dataStart
  omega

theorem update_bblock_data {b x : ℕ} (block : Block) (hb : b < sb.size) (hx : sb.IsData x) :
    Function.update disk (sb.bblock b) block x = disk x := by
  have hbb := bblock_lt hb
  have hstart := hx.1
  rw [Function.update_of_ne (by omega)]

theorem bit_update_data {b x : ℕ} (block : Block) (hb : b < sb.size) (hx : sb.IsData x) :
    sb.bit (Function.update disk x block) b = sb.bit disk b := by
  have hbb := bblock_lt hb
  have hstart := hx.1
  rw [bit, Function.update_of_ne (by omega), bit]

variable (hsb : sb.WellFormed)

include hsb

/-- The three areas do not overlap. -/
theorem iblock_lt {inum : ℕ} (hinum : inum < sb.ninodes) : sb.iblock inum < sb.bmapstart := by
  have hdiv : inum / IPB ≤ sb.ninodes / IPB := Nat.div_le_div_right (by omega)
  have := hsb.inodes
  unfold iblock
  omega

theorem bit_setDinode {inum b : ℕ} (d : Dinode) (hinum : inum < sb.ninodes) (hb : b < sb.size) :
    sb.bit (sb.setDinode disk inum d) b = sb.bit disk b := by
  have hi := iblock_lt hsb hinum
  have hbb := bblock_lt hb
  rw [bit, setDinode, Function.update_of_ne (by omega), bit]

theorem setDinode_data {inum b : ℕ} (d : Dinode) (hinum : inum < sb.ninodes) (hb : sb.IsData b) :
    sb.setDinode disk inum d b = disk b := by
  have hi := iblock_lt hsb hinum
  have hstart := bmapstart_le hb
  rw [setDinode, Function.update_of_ne (by omega)]

/-- Changing a block of the bitmap leaves inodes and data blocks as they were. -/
theorem dinode_update_bblock {inum b : ℕ} (block : Block) (hinum : inum < sb.ninodes)
    (hb : b < sb.size) :
    sb.dinode (Function.update disk (sb.bblock b) block) inum = sb.dinode disk inum := by
  have hi := iblock_lt hsb hinum
  have hbb := bblock_lt hb
  rw [dinode, Function.update_of_ne (by omega), dinode]

/-- Changing a data block leaves inodes and the bitmap as they were. -/
theorem dinode_update_data {inum x : ℕ} (block : Block) (hinum : inum < sb.ninodes)
    (hx : sb.IsData x) : sb.dinode (Function.update disk x block) inum = sb.dinode disk inum := by
  have hi := iblock_lt hsb hinum
  have hstart := bmapstart_le hx
  rw [dinode, Function.update_of_ne (by omega), dinode]

end Xv6.Fs.Superblock
