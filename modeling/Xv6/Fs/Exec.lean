import Xv6.Fs.Name

/-!
# Loading a Program

`kernel/exec.c`.  Page tables and physical memory are not part of the file system: what the
functions that allocate and look up user memory answer is an argument of the call.
-/

namespace Xv6.Fs

open Lib

abbrev ELF_MAGIC : ℕ := 0x464C457F

abbrev ELF_PROG_LOAD : ℕ := 1

/-- The fields of `struct elfhdr` that `exec` reads. -/
structure Elfhdr where
  magic : ℕ
  phoff : ℕ
  phnum : ℕ

/-- `sizeof(struct elfhdr)`. -/
abbrev ELFHDR : ℕ := 64

/-- The header in the given bytes. -/
def Elfhdr.decode (bytes : List UInt8) : Elfhdr where
  magic := leValue (bytes.take 4)
  phoff := leValue ((bytes.drop 32).take 8)
  phnum := leValue ((bytes.drop 56).take 2)

/-- The fields of `struct proghdr` that `exec` reads. -/
structure Proghdr where
  type : ℕ
  off : ℕ
  vaddr : ℕ
  filesz : ℕ
  memsz : ℕ

/-- `sizeof(struct proghdr)`. -/
abbrev PROGHDR : ℕ := 56

/-- The header in the given bytes. -/
def Proghdr.decode (bytes : List UInt8) : Proghdr where
  type := leValue (bytes.take 4)
  off := leValue ((bytes.drop 8).take 8)
  vaddr := leValue ((bytes.drop 16).take 8)
  filesz := leValue ((bytes.drop 32).take 8)
  memsz := leValue ((bytes.drop 40).take 8)

/-- What the functions on user memory answer: whether `proc_pagetable` finds memory, whether
`uvmalloc` does for each program header, whether `walkaddr` finds an address, and the number of
arguments if the stack can be allocated and filled. -/
structure UserMemory where
  pagetable : Bool
  uvmalloc : ℕ → Bool
  walkaddr : ℕ → Bool
  args : Option ℕ

/-- `loadseg`, from byte `i` of the segment; `false` is the result -1. -/
def loadseg (mem : UserMemory) (va : ℕ) (ip : Fin NINODE) (offset sz : ℕ) : ℕ → ℕ → FsM Bool
  | 0, _ => return true
  | fuel + 1, i => do
      if i < sz then
        if mem.walkaddr (va + i) = false then panic .loadsegAddr
        else
          let n := min (sz - i) PGSIZE
          let (r, _) ← readi ip kernelDest 0 ((offset + i) % 2 ^ 32) n
          if r ≠ n then return false
          else loadseg mem va ip offset sz fuel (i + PGSIZE)
      else return true

/-- One program header of the loop of `exec`: `false` is a jump to `bad`. -/
def execSegment (mem : UserMemory) (ip : Fin NINODE) (i off : ℕ) : FsM Bool := do
  let (r, bytes) ← readi ip kernelDest 0 off PROGHDR
  if r ≠ PROGHDR then return false
  else
    let ph := Proghdr.decode bytes
    if ph.type ≠ ELF_PROG_LOAD then return true
    else if ph.memsz < ph.filesz then return false
    else if (ph.vaddr + ph.memsz) % 2 ^ 64 < ph.vaddr then return false
    else if mem.uvmalloc i = false then return false
    else if ph.vaddr % PGSIZE ≠ 0 then return false
    else
      let sz := ph.filesz % 2 ^ 32
      loadseg mem ph.vaddr ip (ph.off % 2 ^ 32) sz (sz / PGSIZE + 1) 0

/-- The loop of `exec` over `count` program headers, from header `i` at offset `off`. -/
def execLoop (mem : UserMemory) (ip : Fin NINODE) : ℕ → ℕ → ℕ → FsM Bool
  | 0, _, _ => return true
  | count + 1, i, off => do
      if ← execSegment mem ip i off then
        execLoop mem ip count (i + 1) ((off + PROGHDR) % 2 ^ 32)
      else return false

/-- The part of `exec` that reads the file: `false` is a jump to `bad`. -/
def execLoad (mem : UserMemory) (ip : Fin NINODE) : FsM Bool := do
  let (r, bytes) ← readi ip kernelDest 0 0 ELFHDR
  if r ≠ ELFHDR then return false
  else
    let elf := Elfhdr.decode bytes
    if elf.magic ≠ ELF_MAGIC then return false
    else if mem.pagetable = false then return false
    else execLoop mem ip elf.phnum 0 (elf.phoff % 2 ^ 32)

/-- `exec`, called by process `p`: the number of arguments. -/
def exec (p : Fin NPROC) (path : List UInt8) (mem : UserMemory) : FsM ℤ := do
  beginOp
  match ← namei p path with
  | none =>
    endOp
    return -1
  | some ip =>
    ilock ip
    if ← execLoad mem ip then
      iunlockput ip
      endOp
      match mem.args with
      | some argc => return argc
      | none => return -1
    else
      iunlockput ip
      endOp
      return -1

end Xv6.Fs
