import Xv6.Fs.State

/-!
# Blocks, Inodes and File Contents

The lower half of `kernel/fs.c`: the block allocator, the inode table and the contents of inodes.
Where the source walks the bitmap block by block, or reads one inode block per inode, the search
here goes through the same bits and inodes in the same order.
-/

namespace Xv6.Fs

open Lib

/-! ## Blocks -/

/-- `bzero`. -/
def bzero (bno : ℕ) : FsM Unit := do
  let _ ← bread bno
  bstore bno (.fill 0)
  logWrite bno
  brelse bno

/-- `balloc`. -/
def balloc : FsM ℕ := do
  let s ← get
  match scan (fun b ↦ !s.sb.bit s.disk b) 0 s.sb.size with
  | some b =>
    let bp ← bread (s.sb.bblock b)
    bstore (s.sb.bblock b) (bp.setBit (b % BPB))
    logWrite (s.sb.bblock b)
    brelse (s.sb.bblock b)
    bzero b
    return b
  | none => panic .ballocOut

/-- `bfree`. -/
def bfree (b : ℕ) : FsM Unit := do
  let bblock := (← get).sb.bblock b
  let bp ← bread bblock
  if bp.bit (b % BPB) then
    bstore bblock (bp.clearBit (b % BPB))
    logWrite bblock
    brelse bblock
  else panic .bfreeFree

/-! ## Inodes -/

/-- `iget`: the entry that holds the inode if there is one, and else the first free entry. -/
def iget (dev inum : ℕ) : FsM (Fin NINODE) := do
  let s ← get
  let same := fun ip ↦ decide (0 < (s.itable ip).ref ∧ (s.itable ip).dev = dev ∧
    (s.itable ip).inum = inum)
  match (List.finRange NINODE).find? same with
  | some ip =>
    setInode ip { s.itable ip with ref := (s.itable ip).ref + 1 }
    return ip
  | none =>
    match (List.finRange NINODE).find? fun ip ↦ decide ((s.itable ip).ref = 0) with
    | some ip =>
      setInode ip { s.itable ip with dev := dev, inum := inum, ref := 1, valid := false }
      return ip
    | none => panic .igetNone

/-- `ialloc`. -/
def ialloc (dev : ℕ) (type : Int16) : FsM (Fin NINODE) := do
  let s ← get
  match scan (fun inum ↦ decide ((s.sb.dinode s.disk inum).type = 0)) 1 (s.sb.ninodes - 1) with
  | some inum =>
    let bp ← bread (s.sb.iblock inum)
    bstore (s.sb.iblock inum) (bp.setDinode (inum % IPB) { Dinode.zero with type := type })
    logWrite (s.sb.iblock inum)
    brelse (s.sb.iblock inum)
    iget dev inum
  | none => panic .iallocNone

/-- `iupdate`. -/
def iupdate (ip : Fin NINODE) : FsM Unit := do
  let i ← inode ip
  let iblock := (← get).sb.iblock i.inum
  let bp ← bread iblock
  bstore iblock (bp.setDinode (i.inum % IPB) i.copy)
  logWrite iblock
  brelse iblock

/-- `idup`. -/
def idup (ip : Fin NINODE) : FsM (Fin NINODE) := do
  let i ← inode ip
  setInode ip { i with ref := i.ref + 1 }
  return ip

/-- `acquiresleep(&ip->lock)`; the running call would wait for itself if it holds the lock. -/
def acquiresleep (ip : Fin NINODE) : FsM Unit := do
  let i ← inode ip
  if i.locked then throw .disabled
  else setInode ip { i with locked := true }

/-- `releasesleep(&ip->lock)`. -/
def releasesleep (ip : Fin NINODE) : FsM Unit := do
  let i ← inode ip
  setInode ip { i with locked := false }

/-- `ilock`. -/
def ilock (ip : Fin NINODE) : FsM Unit := do
  if (← inode ip).ref < 1 then panic .ilockRef
  else
    acquiresleep ip
    let s ← get
    let i := s.itable ip
    if i.valid then pure ()
    else
      let bp ← bread (s.sb.iblock i.inum)
      let copy := bp.dinode (i.inum % IPB)
      brelse (s.sb.iblock i.inum)
      setInode ip { i with copy := copy, valid := true }
      if copy.type = 0 then panic .ilockNoType
      else pure ()

/-- `iunlock`. -/
def iunlock (ip : Fin NINODE) : FsM Unit := do
  let i ← inode ip
  if i.locked = false ∨ i.ref < 1 then panic .iunlockNotHeld
  else releasesleep ip

/-! ## Inode contents -/

/-- `bmap`. -/
def bmap (ip : Fin NINODE) (bn : ℕ) : FsM ℕ := do
  let i ← inode ip
  if h : bn < NDIRECT then
    let slot : Fin (NDIRECT + 1) := Fin.castSucc ⟨bn, h⟩
    if i.copy.addrs slot = 0 then
      let addr ← balloc
      modifyCopy ip fun d ↦ { d with addrs := Function.update d.addrs slot addr }
      return addr
    else return i.copy.addrs slot
  else if bn - NDIRECT < NINDIRECT then
    let bn := bn - NDIRECT
    let addr ← if i.copy.addrs (Fin.last NDIRECT) = 0 then do
        let addr ← balloc
        modifyCopy ip fun d ↦ { d with addrs := Function.update d.addrs (Fin.last NDIRECT) addr }
        pure addr
      else pure (i.copy.addrs (Fin.last NDIRECT))
    let a ← bread addr
    if a.word bn = 0 then
      let new ← balloc
      let a ← bload addr
      bstore addr (a.setWord bn new)
      logWrite addr
      brelse addr
      return new
    else
      brelse addr
      return a.word bn
  else panic .bmapRange

/-- `itrunc`. -/
def itrunc (ip : Fin NINODE) : FsM Unit := do
  (List.finRange NDIRECT).forM fun k ↦ do
    let i ← inode ip
    if i.copy.addrs k.castSucc = 0 then pure ()
    else
      bfree (i.copy.addrs k.castSucc)
      modifyCopy ip fun d ↦ { d with addrs := Function.update d.addrs k.castSucc 0 }
  let i ← inode ip
  let addr := i.copy.addrs (Fin.last NDIRECT)
  if addr = 0 then pure ()
  else
    let _ ← bread addr
    (List.range NINDIRECT).forM fun j ↦ do
      let a ← bload addr
      if a.word j = 0 then pure () else bfree (a.word j)
    brelse addr
    bfree addr
    modifyCopy ip fun d ↦ { d with addrs := Function.update d.addrs (Fin.last NDIRECT) 0 }
  modifyCopy ip fun d ↦ { d with size := 0 }
  iupdate ip

/-- `iput`. -/
def iput (ip : Fin NINODE) : FsM Unit := do
  let i ← inode ip
  if i.ref = 1 ∧ i.valid ∧ i.copy.nlink = 0 then
    acquiresleep ip
    itrunc ip
    modifyCopy ip fun d ↦ { d with type := 0 }
    iupdate ip
    let i ← inode ip
    setInode ip { i with valid := false }
    releasesleep ip
  else pure ()
  let i ← inode ip
  setInode ip { i with ref := i.ref - 1 }

/-- `iunlockput`. -/
def iunlockput (ip : Fin NINODE) : FsM Unit := do
  iunlock ip
  iput ip

/-- Where a copy comes from: the byte at each mapped address.  A kernel address is always mapped. -/
abbrev Source := ℕ → Option UInt8

/-- Where a copy goes to: the addresses that are mapped for writing. -/
abbrev Dest := ℕ → Bool

/-- A kernel buffer that holds the given bytes. -/
def kernelSource (bytes : List UInt8) : Source := fun k ↦ some (bytes.getD k 0)

/-- A kernel buffer. -/
def kernelDest : Dest := fun _ ↦ true

/-- `either_copyin`: the bytes copied; fewer than `len` if it fails. -/
def copyin (mem : Source) (src : ℕ) : ℕ → List UInt8
  | 0 => []
  | len + 1 =>
    match mem src with
    | some byte => byte :: copyin mem (src + 1) len
    | none => []

/-- `either_copyout`: the bytes stored; fewer than there are if it fails. -/
def copyout (mem : Dest) (dst : ℕ) : List UInt8 → List UInt8
  | [] => []
  | byte :: bytes => if mem dst then byte :: copyout mem (dst + 1) bytes else []

/-- The loop of `readi`; each iteration copies at least one byte. -/
def readiLoop (ip : Fin NINODE) (mem : Dest) (n : ℕ) :
    ℕ → ℕ → ℕ → ℕ → List UInt8 → FsM (ℤ × List UInt8)
  | 0, tot, _, _, copied => return (tot, copied)
  | fuel + 1, tot, off, dst, copied => do
      if tot < n then
        let b ← bmap ip (off / BSIZE)
        let bp ← bread b
        let m := min (n - tot) (BSIZE - off % BSIZE)
        let bytes := copyout mem dst (bp.getBytes (off % BSIZE) m)
        if bytes.length < m then
          brelse b
          return (-1, copied ++ bytes)
        else
          brelse b
          readiLoop ip mem n fuel (tot + m) (off + m) (dst + m) (copied ++ bytes)
      else return (tot, copied)

/-- `readi`: the returned number and the bytes copied out, from `dst` on. -/
def readi (ip : Fin NINODE) (mem : Dest) (dst off n : ℕ) : FsM (ℤ × List UInt8) := do
  let i ← inode ip
  if off > i.copy.size ∨ (off + n) % 2 ^ 32 < off then return (0, [])
  else
    let n := if (off + n) % 2 ^ 32 > i.copy.size then i.copy.size - off else n
    readiLoop ip mem n n 0 off dst []

/-- The loop of `writei`: the number of bytes copied in and the offset after them. -/
def writeiLoop (ip : Fin NINODE) (mem : Source) (n : ℕ) : ℕ → ℕ → ℕ → ℕ → FsM (ℕ × ℕ)
  | 0, tot, off, _ => return (tot, off)
  | fuel + 1, tot, off, src => do
      if tot < n then
        let b ← bmap ip (off / BSIZE)
        let bp ← bread b
        let m := min (n - tot) (BSIZE - off % BSIZE)
        let bytes := copyin mem src m
        bstore b (bp.setBytes (off % BSIZE) bytes)
        if bytes.length < m then
          brelse b
          return (tot, off)
        else
          logWrite b
          brelse b
          writeiLoop ip mem n fuel (tot + m) (off + m) (src + m)
      else return (tot, off)

/-- `writei`. -/
def writei (ip : Fin NINODE) (mem : Source) (src off n : ℕ) : FsM ℤ := do
  let i ← inode ip
  if off > i.copy.size ∨ (off + n) % 2 ^ 32 < off then return -1
  else if (off + n) % 2 ^ 32 > MAXFILE * BSIZE then return -1
  else
    let (tot, off) ← writeiLoop ip mem n n 0 off src
    modifyCopy ip fun d ↦ { d with size := if off > d.size then off else d.size }
    iupdate ip
    return tot

end Xv6.Fs
