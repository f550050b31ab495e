import Xv6.Fs.ByteArray
import Xv6.Fs.Exec
import Xv6.Vm.ProcPagetable

/-!
# Replacing a Program

`kernel/exec.c`, with the page tables and the memory of the process.  The file of the program is its
bytes; that `readi` reads these bytes is shown for the file system.
-/

namespace Xv6.Vm

open Lib

open Fs (Proghdr ELFHDR PROGHDR ELF_MAGIC ELF_PROG_LOAD)

/-- The contents of a file. -/
structure File where
  bytes : List UInt8
  size_le : bytes.length ≤ Fs.MAXFILE * BSIZE

/-- What `readi` copies to kernel memory. -/
def File.readi (ip : File) (off n : ℕ) : List UInt8 :=
  if ip.bytes.length < off ∨ (off + n) % 2 ^ 32 < off then []
  else
    let n := if ip.bytes.length < (off + n) % 2 ^ 32 then ip.bytes.length - off else n
    (ip.bytes.drop off).take n

/-- The fields of `struct elfhdr` that `exec` reads. -/
structure Elfhdr extends Fs.Elfhdr where
  entry : ℕ

/-- The header in the given bytes. -/
def Elfhdr.decode (bytes : List UInt8) : Elfhdr where
  toElfhdr := .decode bytes
  entry := leValue ((bytes.drop 24).take 8)

/-- The loop of `loadseg`, from byte `i` of the segment. -/
def loadsegLoop (pagetable va : ℕ) (ip : File) (offset sz : ℕ) : ℕ → ℕ → VmM Bool
  | 0, _ => throw .disabled
  | fuel + 1, i => do
      if i < sz then
        let pa ← walkaddr pagetable ((va + i) % 2 ^ 64)
        if pa = 0 then panic .loadsegAddr
        else
          let n := if sz - i < PGSIZE then sz - i else PGSIZE
          let bytes := ip.readi ((offset + i) % 2 ^ 32) n
          memmove pa bytes
          if bytes.length ≠ n then return false
          else loadsegLoop pagetable va ip offset sz fuel ((i + PGSIZE) % 2 ^ 32)
      else return true

/-- `loadseg`; the result -1 is `false`. -/
def loadseg (pagetable va : ℕ) (ip : File) (offset sz : ℕ) : VmM Bool :=
  loadsegLoop pagetable va ip offset sz (2 ^ 32 / PGSIZE + 1) 0

/-- The loop of `exec` over `count` program headers, from the one at `off`: whether all were loaded
(otherwise it jumps to `bad`), and `sz`. -/
def loadProgram (pagetable : ℕ) (ip : File) : ℕ → ℕ → ℕ → VmM (Bool × ℕ)
  | 0, _, sz => return (true, sz)
  | count + 1, off, sz => do
      let bytes := ip.readi off PROGHDR
      if bytes.length ≠ PROGHDR then return (false, sz)
      else
        let ph := Proghdr.decode bytes
        if ph.type ≠ ELF_PROG_LOAD then
          loadProgram pagetable ip count ((off + PROGHDR) % 2 ^ 32) sz
        else if ph.memsz < ph.filesz then return (false, sz)
        else if (ph.vaddr + ph.memsz) % 2 ^ 64 < ph.vaddr then return (false, sz)
        else
          let sz1 ← uvmalloc pagetable sz ((ph.vaddr + ph.memsz) % 2 ^ 64)
          if sz1 = 0 then return (false, sz)
          else if ph.vaddr % PGSIZE ≠ 0 then return (false, sz1)
          else if ← loadseg pagetable ph.vaddr ip (ph.off % 2 ^ 32) (ph.filesz % 2 ^ 32) then
            loadProgram pagetable ip count ((off + PROGHDR) % 2 ^ 32) sz1
          else return (false, sz1)

/-- The difference of two `uint64`. -/
def uint64Sub (a b : ℕ) : ℕ := (a + (2 ^ 64 - b)) % 2 ^ 64

/-- `sp -= n; sp -= sp % 16`. -/
def push (sp n : ℕ) : ℕ := uint64Sub sp n - uint64Sub sp n % 16

/-- The loop of `exec` over the arguments from number `argc` on: `sp` and what it stores in `ustack`.
`none` is a jump to `bad`. -/
def pushArgs (pagetable stackbase : ℕ) : List (List UInt8) → ℕ → ℕ → VmM (Option (ℕ × List ℕ))
  | [], _, sp => return some (sp, [])
  | arg :: argv, argc, sp => do
      if MAXARG ≤ argc then return none
      else
        let sp := push sp (arg.length + 1)
        if sp < stackbase then return none
        else if ← copyout pagetable sp (arg ++ [0]) then
          match ← pushArgs pagetable stackbase argv (argc + 1) sp with
          | none => return none
          | some (last, ustack) => return some (last, sp :: ustack)
        else return none

/-- The bytes of `ustack`. -/
def ustackBytes (ustack : List ℕ) : List UInt8 := ustack.flatMap (leBytes 8)

/-- The part of `exec` that fills the stack below `sz`: `sp`.  `none` is a jump to `bad`. -/
def pushStack (pagetable sz : ℕ) (argv : List (List UInt8)) : VmM (Option ℕ) := do
  let stackbase := uint64Sub sz PGSIZE
  match ← pushArgs pagetable stackbase argv 0 sz with
  | none => return none
  | some (sp, ustack) =>
    let sp := push sp ((argv.length + 1) * 8)
    if sp < stackbase then return none
    else if ← copyout pagetable sp (ustackBytes (ustack ++ [0])) then return some sp
    else return none

/-- The part of `exec` that makes the new image: `sp`, and `sz`.  `none` is a jump to `bad`. -/
def makeImage (pagetable : ℕ) (ip : File) (elf : Elfhdr) (argv : List (List UInt8)) :
    VmM (Option ℕ × ℕ) := do
  let (loaded, sz) ← loadProgram pagetable ip elf.phnum (elf.phoff % 2 ^ 32) 0
  if loaded then
    let sz := pgroundup sz
    let sz1 ← uvmalloc pagetable sz ((sz + 2 * PGSIZE) % 2 ^ 64)
    if sz1 = 0 then return (none, sz)
    else
      uvmclear pagetable (uint64Sub sz1 (2 * PGSIZE))
      return (← pushStack pagetable sz1 argv, sz1)
  else return (none, sz)

/-- The loop of `exec` that looks for the last `/` of the path. -/
def lastElem : List UInt8 → List UInt8 → List UInt8
  | [], last => last
  | c :: s, last => lastElem s (if c = 47 then s else last)

/-- `exec`, called by process `p`: the result, and the process after it.  `namei` finds the file `ip`,
or none. -/
def exec (trampoline : ℕ) (path : List UInt8) (ip : Option File) (argv : List (List UInt8))
    (p : Proc) : VmM (ℤ × Proc) := do
  match ip with
  | none => return (-1, p)
  | some ip =>
    let bytes := ip.readi 0 ELFHDR
    if bytes.length ≠ ELFHDR then return (-1, p)
    else
      let elf := Elfhdr.decode bytes
      if elf.magic ≠ ELF_MAGIC then return (-1, p)
      else
        match ← procPagetable trampoline p.trapframe with
        | none => return (-1, p)
        | some pagetable =>
          match ← makeImage pagetable ip elf argv with
          | (none, sz) =>
            procFreepagetable pagetable sz
            return (-1, p)
          | (some sp, sz) =>
            procFreepagetable p.pagetable p.sz
            return (argv.length, { p with
              pagetable := pagetable, sz := sz, epc := elf.entry, sp := sp, a1 := sp,
              name := (lastElem path path).take 15 })

/-! ## Reading the file -/

/-- The file of an inode. -/
def fileOf (s : Fs.FsState) (ip : Fin NINODE) (h : Fs.Solid s ip) : File where
  bytes := s.data ip
  size_le := by
    rw [Fs.length_data]
    exact h.noHoles.size

theorem File.readi_eq (ip : File) (off : ℕ) {n : ℕ} (hn : n < 2 ^ 32) :
    ip.readi off n = if ip.bytes.length < off ∨ 2 ^ 32 ≤ off + n then []
      else (ip.bytes.drop off).take n := by
  have hsize : ip.bytes.length < 2 ^ 32 := ip.size_le.trans_lt (by decide)
  rw [File.readi]
  by_cases hbad : ip.bytes.length < off ∨ 2 ^ 32 ≤ off + n
  · rw [if_pos hbad, if_pos (by omega)]
  · rw [if_neg hbad, if_neg (by omega), Nat.mod_eq_of_lt (by omega)]
    dsimp only
    split
    · rename_i hlong
      rw [List.take_of_length_le (by rw [List.length_drop]),
        List.take_of_length_le (by rw [List.length_drop]; omega)]
    · rfl

/-- `readi` of the file system reads the file of the inode. -/
theorem readi_fileOf {s : Fs.FsState} {ip : Fin NINODE} (h : Fs.Solid s ip) (off : ℕ) {n : ℕ}
    (hn : n < 2 ^ 32) :
    Fs.readi ip Fs.kernelDest 0 off n s =
      .ok ((((fileOf s ip h).readi off n).length, (fileOf s ip h).readi off n), s) := by
  obtain ⟨r, s', hok, rfl, hr⟩ :=
    ok_of_wp (Fs.readi_spec h.bufs h.noHoles Fs.kernelDest 0 off hn)
  rw [hok, hr fun _ _ ↦ rfl, File.readi_eq _ off hn]
  have hlength : (fileOf s' ip h).bytes.length = (s'.itable ip).copy.size := Fs.length_data s' ip
  rw [hlength]
  split
  · rfl
  · rw [show (fileOf s' ip h).bytes = s'.data ip from rfl, Fs.take_drop_data]
    simp [Fs.Dinode.bytes]

end Xv6.Vm
