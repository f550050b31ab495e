import Xv6.Fs.Inode

/-!
# Directories and Paths

The upper half of `kernel/fs.c`.  A C string is the list of its bytes before the terminating NUL; a
name buffer of `DIRSIZ` bytes need not be terminated.  Reading past the end of such a list gives the
NUL.
-/

namespace Xv6.Fs

open Lib

/-- `strncmp`. -/
def strncmp (p q : List UInt8) : ℕ → ℤ
  | 0 => 0
  | n + 1 =>
    if p.headD 0 ≠ 0 ∧ p.headD 0 = q.headD 0 then strncmp p.tail q.tail n
    else (p.headD 0).toNat - (q.headD 0).toNat

/-- `namecmp`. -/
def namecmp (s t : List UInt8) : ℤ := strncmp s t DIRSIZ

/-- `strncpy`: the `n` bytes stored. -/
def strncpy (t : List UInt8) : ℕ → List UInt8
  | 0 => []
  | n + 1 =>
    if t.headD 0 = 0 then List.replicate (n + 1) 0
    else t.headD 0 :: strncpy t.tail n

/-- `struct dirent`. -/
structure Dirent where
  inum : ℕ
  name : List UInt8
  deriving DecidableEq

/-- The entry in the given bytes. -/
def Dirent.decode (bytes : List UInt8) : Dirent where
  inum := leValue (bytes.take 2)
  name := (bytes.drop 2).take DIRSIZ

/-- The bytes of an entry. -/
def Dirent.encode (de : Dirent) : List UInt8 := leBytes 2 de.inum ++ de.name

/-- The name `"."`. -/
def dot : List UInt8 := [46]

/-- The name `".."`. -/
def dotdot : List UInt8 := [46, 46]

/-! ## Directories -/

/-- The loop of `dirlookup`, from offset `off`. -/
def dirlookupLoop (dp : Fin NINODE) (name : List UInt8) :
    ℕ → ℕ → FsM (Option (Fin NINODE × ℕ))
  | 0, _ => return none
  | fuel + 1, off => do
      let d ← inode dp
      if off < d.copy.size then
        let (r, bytes) ← readi dp kernelDest 0 off DIRENT
        if r ≠ DIRENT then panic .dirlookupRead
        else
          let de := Dirent.decode bytes
          if de.inum ≠ 0 ∧ namecmp name de.name = 0 then
            let ip ← iget d.dev de.inum
            return some (ip, off)
          else dirlookupLoop dp name fuel (off + DIRENT)
      else return none

/-- `dirlookup`: the inode and the offset of the entry with the given name. -/
def dirlookup (dp : Fin NINODE) (name : List UInt8) : FsM (Option (Fin NINODE × ℕ)) := do
  let d ← inode dp
  if d.copy.type ≠ T_DIR then panic .dirlookupNotDir
  else dirlookupLoop dp name (d.copy.size / DIRENT + 2) 0

/-- The loop of `dirlink` that looks for an empty entry: its offset, or one past the last entry. -/
def emptyEntry (dp : Fin NINODE) : ℕ → ℕ → FsM ℕ
  | 0, off => return off
  | fuel + 1, off => do
      let d ← inode dp
      if off < d.copy.size then
        let (r, bytes) ← readi dp kernelDest 0 off DIRENT
        if r ≠ DIRENT then panic .dirlinkRead
        else if (Dirent.decode bytes).inum = 0 then return off
        else emptyEntry dp fuel (off + DIRENT)
      else return off

/-- `dirlink`; `false` is the result -1. -/
def dirlink (dp : Fin NINODE) (name : List UInt8) (inum : ℕ) : FsM Bool := do
  match ← dirlookup dp name with
  | some (ip, _) =>
    iput ip
    return false
  | none =>
    let d ← inode dp
    let off ← emptyEntry dp (d.copy.size / DIRENT + 2) 0
    let de : Dirent := { inum := inum, name := strncpy name DIRSIZ }
    let r ← writei dp (kernelSource de.encode) 0 off DIRENT
    if r ≠ DIRENT then panic .dirlinkWrite
    else return true

/-! ## Paths -/

/-- The character `'/'`. -/
def slash : UInt8 := 47

/-- `skipelem`: the rest of the path and the first element. -/
def skipelem (path : List UInt8) : Option (List UInt8 × List UInt8) :=
  let path := path.dropWhile (· = slash)
  if path = [] then none
  else
    let s := path.takeWhile (· ≠ slash)
    some ((path.dropWhile (· ≠ slash)).dropWhile (· = slash), s.take DIRSIZ)

/-- The loop of `namex`, at inode `ip` with the rest of the path. -/
def namexLoop (nameiparent : Bool) :
    ℕ → List UInt8 → Fin NINODE → FsM (Option (Fin NINODE × List UInt8))
  | 0, _, _ => return none
  | fuel + 1, path, ip => do
      match skipelem path with
      | none =>
        if nameiparent then
          iput ip
          return none
        else return some (ip, [])
      | some (rest, name) =>
        ilock ip
        if (← inode ip).copy.type ≠ T_DIR then
          iunlockput ip
          return none
        else if nameiparent ∧ rest = [] then
          iunlock ip
          return some (ip, name)
        else
          match ← dirlookup ip name with
          | none =>
            iunlockput ip
            return none
          | some (next, _) =>
            iunlockput ip
            namexLoop nameiparent fuel rest next

/-- The current directory of process `p`; only a running process makes system calls. -/
def cwd (p : Fin NPROC) : FsM (Fin NINODE) := do
  match ((← get).proc p).cwd with
  | some ip => return ip
  | none => throw .disabled

/-- `namex`, called by process `p`; every element takes at least one byte of the path. -/
def namex (p : Fin NPROC) (path : List UInt8) (nameiparent : Bool) :
    FsM (Option (Fin NINODE × List UInt8)) := do
  let ip ← if path.head? = some slash then iget ROOTDEV ROOTINO else do idup (← cwd p)
  namexLoop nameiparent (path.length + 1) path ip

/-- `namei`. -/
def namei (p : Fin NPROC) (path : List UInt8) : FsM (Option (Fin NINODE)) := do
  return (← namex p path false).map Prod.fst

/-- `nameiparent`: the parent directory and the last element. -/
def nameiparent (p : Fin NPROC) (path : List UInt8) : FsM (Option (Fin NINODE × List UInt8)) :=
  namex p path true

end Xv6.Fs
