import Xv6.Fs.ReadWrite
import Xv6.Fs.Dirent

/-!
# The Program that Makes a File System

A model of `mkfs/mkfs.c`.  The image is a file of sectors on the host: a read past its end fails and a
write past its end makes it longer.  Apart from that, the host's `lseek` and `write` succeed.  What the
host's `read` returns for an input file is a list of pieces.
-/

namespace Xv6.Mkfs

open Lib Fs

abbrev FSSIZE : ℕ := 1000

abbrev NINODES : ℕ := 200

abbrev nbitmap : ℕ := FSSIZE / (BSIZE * 8) + 1

abbrev ninodeblocks : ℕ := NINODES / IPB + 1

abbrev nlog : ℕ := LOGSIZE

/-- The number of blocks in front of the data blocks. -/
abbrev nmeta : ℕ := 2 + nlog + ninodeblocks + nbitmap

abbrev FSMAGIC : ℕ := 0x10203040

/-- The superblock. -/
def sb : Superblock where
  size := FSSIZE
  nblocks := FSSIZE - nmeta
  ninodes := NINODES
  nlog := nlog
  logstart := 2
  inodestart := 2 + nlog
  bmapstart := 2 + nlog + ninodeblocks

/-- The block of the superblock. -/
def sbBlock : Block :=
  Buffer.setBytes (.fill 0) 0 (wordBytes [FSMAGIC, sb.size, sb.nblocks, sb.ninodes, sb.nlog,
    sb.logstart, sb.inodestart, sb.bmapstart])

/-- The image, of which `len` sectors exist, and the global variables. -/
structure State where
  disk : Device
  len : ℕ
  freeinode : ℕ
  freeblock : ℕ

/-- How the program fails. -/
inductive Failure where
  | die
  | assertion
  deriving DecidableEq

/-- Code of the program. -/
abbrev MkM := StateT State (Except Failure)

/-- The sector at the offset `sec * BSIZE`, which is a `uint`. -/
def sector (sec : ℕ) : ℕ := sec * BSIZE % 2 ^ 32 / BSIZE

/-- `rsect`. -/
def rsect (sec : ℕ) : MkM Block := do
  let s ← get
  if sector sec < s.len then return s.disk (sector sec) else throw .die

/-- `wsect`. -/
def wsect (sec : ℕ) (buf : Block) : MkM Unit :=
  modify fun s ↦ { s with
    disk := Function.update s.disk (sector sec) buf
    len := max s.len (sector sec + 1) }

/-- `winode`. -/
def winode (inum : ℕ) (d : Dinode) : MkM Unit := do
  let buf ← rsect (sb.iblock inum)
  wsect (sb.iblock inum) (buf.setDinode (inum % IPB) d)

/-- `rinode`. -/
def rinode (inum : ℕ) : MkM Dinode := do
  let buf ← rsect (sb.iblock inum)
  return buf.dinode (inum % IPB)

/-- `ialloc`. -/
def ialloc (type : Int16) : MkM ℕ := do
  let inum := (← get).freeinode
  modify fun s ↦ { s with freeinode := s.freeinode + 1 }
  winode inum { Dinode.zero with type := type, nlink := 1 }
  return inum

/-- The bitmap in which the first `used` blocks are marked. -/
def bitmap (used : ℕ) : Block := (List.range used).foldl Block.setBit (.fill 0)

/-- `balloc`. -/
def balloc (used : ℕ) : MkM Unit := do
  if used < BSIZE * 8 then wsect sb.bmapstart (bitmap used) else throw .assertion

/-- `freeblock++`. -/
def takeBlock : MkM ℕ := do
  let b := (← get).freeblock
  modify fun s ↦ { s with freeblock := s.freeblock + 1 }
  return b

/-- A slot of an inode, filled if it is empty. -/
def fillSlot (din : Dinode) (slot : Fin (NDIRECT + 1)) : MkM Dinode := do
  if din.addrs slot = 0 then return din.setAddr slot (← takeBlock) else return din

/-- Entry `k` of the indirect block `a`, filled if it is empty. -/
def fillEntry (a k : ℕ) : MkM ℕ := do
  let indirect ← rsect a
  if indirect.word k = 0 then
    let indirect := indirect.setWord k (← takeBlock)
    wsect a indirect
    return indirect.word k
  else return indirect.word k

/-- The part of `iappend` that finds the block `x` with index `fbn` of a file. -/
def fileBlock (din : Dinode) (fbn : ℕ) : MkM (Dinode × ℕ) := do
  if h : fbn < NDIRECT then
    let din ← fillSlot din ⟨fbn, Nat.lt_succ_of_lt h⟩
    return (din, din.addrs ⟨fbn, Nat.lt_succ_of_lt h⟩)
  else
    let din ← fillSlot din (Fin.last NDIRECT)
    return (din, ← fillEntry (din.addrs (Fin.last NDIRECT)) (fbn - NDIRECT))

/-- The loop of `iappend`, from offset `off` on; every round takes at least one byte. -/
def iappendLoop : ℕ → Dinode → ℕ → List UInt8 → MkM (Dinode × ℕ)
  | 0, din, off, _ => return (din, off)
  | fuel + 1, din, off, p => do
      if p = [] then return (din, off)
      else
        let fbn := off / BSIZE
        if fbn < MAXFILE then
          let (din, x) ← fileBlock din fbn
          let n1 := min p.length ((fbn + 1) * BSIZE - off)
          let buf ← rsect x
          wsect x (buf.setBytes (off - fbn * BSIZE) (p.take n1))
          iappendLoop fuel din (off + n1) (p.drop n1)
        else throw .assertion

/-- `iappend`. -/
def iappend (inum : ℕ) (p : List UInt8) : MkM Unit := do
  let din ← rinode inum
  let (din, off) ← iappendLoop p.length din din.size p
  winode inum { din with size := off }

/-- A file named on the command line: whether it can be opened, and what `read` returns for it. -/
structure HostFile where
  path : List UInt8
  readable : Bool
  pieces : List (List UInt8)
  nonempty : ∀ piece ∈ pieces, piece ≠ []
  length_le : ∀ piece ∈ pieces, piece.length ≤ BSIZE

namespace HostFile

/-- The bytes of the file. -/
def bytes (file : HostFile) : List UInt8 := file.pieces.flatten

/-- The path without `user/`. -/
def shortname (file : HostFile) : List UInt8 :=
  let user := "user/".toList.map Char.toUInt8
  if file.path.take 5 = user then file.path.drop 5 else file.path

/-- The name in the image, without a leading underscore. -/
def name (file : HostFile) : List UInt8 :=
  if file.shortname.headD 0 = '_'.toUInt8 then file.shortname.drop 1 else file.shortname

end HostFile

/-- The body of the loop of `main` over the files. -/
def addFile (rootino : ℕ) (file : HostFile) : MkM Unit := do
  if '/'.toUInt8 ∈ file.shortname then throw .assertion
  if !file.readable then throw .die
  let inum ← ialloc T_FILE
  iappend rootino (Dirent.make file.name inum).encode
  file.pieces.forM (iappend inum)

/-- The part of `main` that writes zeros and the superblock. -/
def zeroes : MkM Unit := do
  (List.range FSSIZE).forM (wsect · (.fill 0))
  wsect 1 sbBlock

/-- The part of `main` that fixes the size of the root directory. -/
def fixSize (rootino : ℕ) : MkM Unit := do
  let din ← rinode rootino
  winode rootino { din with size := (din.size / BSIZE + 1) * BSIZE }

/-- `main`, for the files on the command line. -/
def main (files : List HostFile) : MkM Unit := do
  zeroes
  let rootino ← ialloc T_DIR
  if rootino ≠ ROOTINO then throw .assertion
  iappend rootino (Dirent.make dot rootino).encode
  iappend rootino (Dirent.make dotdot rootino).encode
  files.forM (addFile rootino)
  fixSize rootino
  balloc (← get).freeblock

/-- The program starts with an empty image. -/
def start : State where
  disk _ := .fill 0
  len := 0
  freeinode := 1
  freeblock := nmeta

end Xv6.Mkfs
