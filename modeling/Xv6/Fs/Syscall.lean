import Xv6.Fs.Exec

/-!
# Open Files and System Calls

`kernel/file.c` and `kernel/sysfile.c`, and what `fork` and `exit` of `kernel/proc.c` do to open
files and current directories.  Each call is made by a process `p`, and its arguments have been
fetched: a call whose arguments cannot be fetched returns -1 and does nothing, but for those that
have started an operation before.  The functions that read and write pipes and devices do not touch
the file system, and what they return is an argument of the call, as are the answers of the page
allocator and of copies to user memory.
-/

namespace Xv6.Fs

open Lib

/-- `O_RDONLY` and the other bits of the mode of `open`. -/
abbrev O_RDONLY : ℕ := 0x000

abbrev O_WRONLY : ℕ := 0x001

abbrev O_RDWR : ℕ := 0x002

abbrev O_CREATE : ℕ := 0x200

abbrev O_TRUNC : ℕ := 0x400

/-- The one device with read and write functions. -/
abbrev CONSOLE : Int16 := 1

/-! ## The file table -/

/-- Change entry `f` of the file table. -/
def setFile (f : Fin NFILE) (file : File) : FsM Unit :=
  modify fun s ↦ { s with ftable := Function.update s.ftable f file }

/-- Change the descriptor `fd` of process `p`. -/
def setOfile (p : Fin NPROC) (fd : Fin NOFILE) (f : Option (Fin NFILE)) : FsM Unit :=
  modify fun s ↦ { s with proc := Function.update s.proc p { s.proc p with
    ofile := Function.update (s.proc p).ofile fd f } }

/-- Change the current directory of process `p`. -/
def setCwd (p : Fin NPROC) (ip : Option (Fin NINODE)) : FsM Unit :=
  modify fun s ↦ { s with proc := Function.update s.proc p { s.proc p with cwd := ip } }

/-- `filealloc`. -/
def filealloc : FsM (Option (Fin NFILE)) := do
  let s ← get
  match (List.finRange NFILE).find? fun f ↦ decide ((s.ftable f).ref = 0) with
  | some f =>
    setFile f { s.ftable f with ref := 1 }
    return some f
  | none => return none

/-- `filedup`. -/
def filedup (f : Fin NFILE) : FsM Unit := do
  let s ← get
  if (s.ftable f).ref < 1 then panic .filedupRef
  else setFile f { s.ftable f with ref := (s.ftable f).ref + 1 }

/-- `kalloc`: a page that is not in use, or nothing if memory has run out. -/
def kalloc (page : Option ℕ) : FsM (Option ℕ) := do
  match page with
  | none => return none
  | some pi =>
    let s ← get
    if s.pages pi then throw .disabled
    else
      set { s with pages := Function.update s.pages pi true }
      return some pi

/-- `kfree`; the page is filled with ones. -/
def kfree (pi : ℕ) : FsM Unit :=
  modify fun s ↦ { s with
    pages := Function.update s.pages pi false
    pipe := Function.update s.pipe pi { readopen := true, writeopen := true } }

/-- Store into the pipe in page `pi`. -/
def setPipe (pi : ℕ) (pipe : Pipe) : FsM Unit :=
  modify fun s ↦ { s with pipe := Function.update s.pipe pi pipe }

/-- A pipe with one end closed. -/
def Pipe.close (pipe : Pipe) (writable : Bool) : Pipe :=
  if writable then { pipe with writeopen := false } else { pipe with readopen := false }

/-- `pipeclose`, less the wakeup. -/
def pipeclose (pi : ℕ) (writable : Bool) : FsM Unit := do
  let pipe := ((← get).pipe pi).close writable
  setPipe pi pipe
  if pipe.readopen = false ∧ pipe.writeopen = false then kfree pi else pure ()

/-- `fileclose`. -/
def fileclose (f : Fin NFILE) : FsM Unit := do
  let s ← get
  let ff := s.ftable f
  if ff.ref < 1 then panic .filecloseRef
  else if 0 < ff.ref - 1 then setFile f { ff with ref := ff.ref - 1 }
  else
    setFile f { ff with ref := 0, type := .none }
    match ff.type with
    | .none => pure ()
    | .pipe => pipeclose ff.pipe ff.writable
    | .inode | .device =>
      beginOp
      iput ff.ip
      endOp

/-- `filestat`, less the copy to user memory, which does not touch the file system. -/
def filestat (f : Fin NFILE) : FsM Unit := do
  let s ← get
  match (s.ftable f).type with
  | .none | .pipe => pure ()
  | .inode | .device =>
    ilock (s.ftable f).ip
    iunlock (s.ftable f).ip

/-- `fileread` of `n` bytes. -/
def fileread (f : Fin NFILE) (mem : Dest) (addr : ℕ) (n : ℤ) (device : ℤ) : FsM ℤ := do
  let file := (← get).ftable f
  if file.readable = false then return -1
  else
    match file.type with
    | .pipe => return device
    | .device => if file.major = CONSOLE then return device else return -1
    | .inode =>
      ilock file.ip
      let (r, _) ← readi file.ip mem addr file.off (n % 2 ^ 32).toNat
      if 0 < r then setFile f { file with off := (file.off + r.toNat) % 2 ^ 32 } else pure ()
      iunlock file.ip
      return r
    | .none => panic .filereadType

/-- The most bytes `filewrite` writes in one operation. -/
abbrev MAXCHUNK : ℤ := ((MAXOPBLOCKS - 1 - 1 - 2) / 2 * BSIZE : ℕ)

/-- The loop of `filewrite`; each full iteration writes at least one byte. -/
def filewriteLoop (f : Fin NFILE) (mem : Source) (addr : ℕ) (n : ℤ) : ℕ → ℤ → FsM ℤ
  | 0, i => return i
  | fuel + 1, i => do
      if i < n then
        let n1 := min (n - i) MAXCHUNK
        beginOp
        let file := (← get).ftable f
        ilock file.ip
        let r ← writei file.ip mem (addr + i.toNat) file.off n1.toNat
        if 0 < r then setFile f { file with off := (file.off + r.toNat) % 2 ^ 32 } else pure ()
        iunlock file.ip
        endOp
        if r ≠ n1 then return i
        else filewriteLoop f mem addr n fuel (i + r)
      else return i

/-- `filewrite` of `n` bytes. -/
def filewrite (f : Fin NFILE) (mem : Source) (addr : ℕ) (n : ℤ) (device : ℤ) : FsM ℤ := do
  let file := (← get).ftable f
  if file.writable = false then return -1
  else
    match file.type with
    | .pipe => return device
    | .device => if file.major = CONSOLE then return device else return -1
    | .inode =>
      let i ← filewriteLoop f mem addr n (n.toNat + 1) 0
      return if i = n then n else -1
    | .none => panic .filewriteType

/-- `pipealloc`: the read end and the write end. -/
def pipealloc (page : Option ℕ) : FsM (Option (Fin NFILE × Fin NFILE)) := do
  match ← filealloc with
  | none => return none
  | some f0 =>
    match ← filealloc with
    | none =>
      fileclose f0
      return none
    | some f1 =>
      match ← kalloc page with
      | none =>
        fileclose f0
        fileclose f1
        return none
      | some pi =>
        setPipe pi { readopen := true, writeopen := true }
        setFile f0 { (← get).ftable f0 with
          type := .pipe, readable := true, writable := false, pipe := pi }
        setFile f1 { (← get).ftable f1 with
          type := .pipe, readable := false, writable := true, pipe := pi }
        return some (f0, f1)

/-! ## System calls -/

/-- `fdalloc`. -/
def fdalloc (p : Fin NPROC) (f : Fin NFILE) : FsM (Option (Fin NOFILE)) := do
  let s ← get
  match (List.finRange NOFILE).find? fun fd ↦ decide ((s.proc p).ofile fd = none) with
  | some fd =>
    setOfile p fd (some f)
    return some fd
  | none => return none

/-- `argfd`: the open file of a descriptor. -/
def argfd (p : Fin NPROC) (fd : ℤ) : FsM (Option (Fin NOFILE × Fin NFILE)) := do
  if h : 0 ≤ fd ∧ fd < NOFILE then
    let slot : Fin NOFILE := ⟨fd.toNat, by omega⟩
    match ((← get).proc p).ofile slot with
    | some f => return some (slot, f)
    | none => return none
  else return none

/-- `sys_dup`. -/
def sysDup (p : Fin NPROC) (fd : ℤ) : FsM ℤ := do
  match ← argfd p fd with
  | none => return -1
  | some (_, f) =>
    match ← fdalloc p f with
    | none => return -1
    | some new =>
      filedup f
      return new.val

/-- `sys_read`. -/
def sysRead (p : Fin NPROC) (fd : ℤ) (mem : Dest) (addr : ℕ) (n device : ℤ) : FsM ℤ := do
  match ← argfd p fd with
  | none => return -1
  | some (_, f) => fileread f mem addr n device

/-- `sys_write`. -/
def sysWrite (p : Fin NPROC) (fd : ℤ) (mem : Source) (addr : ℕ) (n device : ℤ) : FsM ℤ := do
  match ← argfd p fd with
  | none => return -1
  | some (_, f) => filewrite f mem addr n device

/-- `sys_close`. -/
def sysClose (p : Fin NPROC) (fd : ℤ) : FsM ℤ := do
  match ← argfd p fd with
  | none => return -1
  | some (slot, f) =>
    setOfile p slot none
    fileclose f
    return 0

/-- `sys_fstat`. -/
def sysFstat (p : Fin NPROC) (fd : ℤ) : FsM Unit := do
  match ← argfd p fd with
  | none => pure ()
  | some (_, f) => filestat f

/-- The end of `sys_link` when the new link cannot be made. -/
def linkBad (ip : Fin NINODE) : FsM ℤ := do
  ilock ip
  modifyCopy ip fun d ↦ { d with nlink := d.nlink - 1 }
  iupdate ip
  iunlockput ip
  endOp
  return -1

/-- `sys_link`. -/
def sysLink (p : Fin NPROC) (old new : List UInt8) : FsM ℤ := do
  beginOp
  match ← namei p old with
  | none =>
    endOp
    return -1
  | some ip =>
    ilock ip
    if (← inode ip).copy.type = T_DIR then
      iunlockput ip
      endOp
      return -1
    else
      modifyCopy ip fun d ↦ { d with nlink := d.nlink + 1 }
      iupdate ip
      iunlock ip
      match ← nameiparent p new with
      | none => linkBad ip
      | some (dp, name) =>
        ilock dp
        let d ← inode dp
        let i ← inode ip
        let linked ← if d.dev ≠ i.dev then pure false else dirlink dp name i.inum
        iunlockput dp
        if linked then
          iput ip
          endOp
          return 0
        else linkBad ip

/-- `isdirempty`, from offset `off`. -/
def isdiremptyLoop (dp : Fin NINODE) : ℕ → ℕ → FsM Bool
  | 0, _ => return true
  | fuel + 1, off => do
      let d ← inode dp
      if off < d.copy.size then
        let (r, bytes) ← readi dp kernelDest 0 off DIRENT
        if r ≠ DIRENT then panic .isdiremptyRead
        else if (Dirent.decode bytes).inum ≠ 0 then return false
        else isdiremptyLoop dp fuel (off + DIRENT)
      else return true

/-- `isdirempty`. -/
def isdirempty (dp : Fin NINODE) : FsM Bool := do
  isdiremptyLoop dp ((← inode dp).copy.size / DIRENT + 2) (2 * DIRENT)

/-- The end of `sys_unlink` when nothing is removed. -/
def unlinkBad (dp : Fin NINODE) : FsM ℤ := do
  iunlockput dp
  endOp
  return -1

/-- `sys_unlink`. -/
def sysUnlink (p : Fin NPROC) (path : List UInt8) : FsM ℤ := do
  beginOp
  match ← nameiparent p path with
  | none =>
    endOp
    return -1
  | some (dp, name) =>
    ilock dp
    if namecmp name dot = 0 ∨ namecmp name dotdot = 0 then unlinkBad dp
    else
      match ← dirlookup dp name with
      | none => unlinkBad dp
      | some (ip, off) =>
        ilock ip
        if (← inode ip).copy.nlink < 1 then panic .unlinkNlink
        else
          let full ← if (← inode ip).copy.type = T_DIR then do pure (!(← isdirempty ip))
            else pure false
          if full then
            iunlockput ip
            unlinkBad dp
          else
            let de : Dirent := { inum := 0, name := List.replicate DIRSIZ 0 }
            let r ← writei dp (kernelSource de.encode) 0 off DIRENT
            if r ≠ DIRENT then panic .unlinkWritei
            else
              if (← inode ip).copy.type = T_DIR then
                modifyCopy dp fun d ↦ { d with nlink := d.nlink - 1 }
                iupdate dp
              else pure ()
              iunlockput dp
              modifyCopy ip fun d ↦ { d with nlink := d.nlink - 1 }
              iupdate ip
              iunlockput ip
              endOp
              return 0

/-- The part of `create` that allocates and initialises the inode. -/
def createInode (dp : Fin NINODE) (type major minor : Int16) : FsM (Fin NINODE) := do
  let ip ← ialloc (← inode dp).dev type
  ilock ip
  modifyCopy ip fun d ↦ { d with major := major, minor := minor, nlink := 1 }
  iupdate ip
  return ip

/-- The part of `create` that makes the entries `"."` and `".."` of a new directory. -/
def createDots (dp ip : Fin NINODE) : FsM Unit := do
  modifyCopy dp fun d ↦ { d with nlink := d.nlink + 1 }
  iupdate dp
  let self ← dirlink ip dot (← inode ip).inum
  let dots ← if self then do dirlink ip dotdot (← inode dp).inum else pure false
  if dots then pure () else panic .createDots

/-- `create`: the new or existing inode, locked. -/
def create (p : Fin NPROC) (path : List UInt8) (type major minor : Int16) :
    FsM (Option (Fin NINODE)) := do
  match ← nameiparent p path with
  | none => return none
  | some (dp, name) =>
    ilock dp
    match ← dirlookup dp name with
    | some (ip, _) =>
      iunlockput dp
      ilock ip
      let found := (← inode ip).copy.type
      if type = T_FILE ∧ (found = T_FILE ∨ found = T_DEVICE) then return some ip
      else
        iunlockput ip
        return none
    | none =>
      let ip ← createInode dp type major minor
      if type = T_DIR then createDots dp ip else pure ()
      let linked ← dirlink dp name (← inode ip).inum
      if linked then
        iunlockput dp
        return some ip
      else panic .createDirlink

/-- The part of `sys_open` after the inode is found and locked. -/
def openLocked (p : Fin NPROC) (ip : Fin NINODE) (omode : ℕ) : FsM ℤ := do
  let copy := (← inode ip).copy
  if copy.type = T_DEVICE ∧ (copy.major < 0 ∨ copy.major ≥ Int16.ofNat NDEV) then
    iunlockput ip
    endOp
    return -1
  else
    match ← filealloc with
    | none =>
      iunlockput ip
      endOp
      return -1
    | some f =>
      match ← fdalloc p f with
      | none =>
        fileclose f
        iunlockput ip
        endOp
        return -1
      | some fd =>
        let file := (← get).ftable f
        setFile f { file with
          type := if copy.type = T_DEVICE then .device else .inode
          major := if copy.type = T_DEVICE then copy.major else file.major
          off := if copy.type = T_DEVICE then file.off else 0
          ip := ip
          readable := omode &&& O_WRONLY = 0
          writable := omode &&& O_WRONLY ≠ 0 ∨ omode &&& O_RDWR ≠ 0 }
        if omode &&& O_TRUNC ≠ 0 ∧ copy.type = T_FILE then itrunc ip else pure ()
        iunlock ip
        endOp
        return fd.val

/-- `sys_open`. -/
def sysOpen (p : Fin NPROC) (path : List UInt8) (omode : ℕ) : FsM ℤ := do
  beginOp
  if omode &&& O_CREATE ≠ 0 then
    match ← create p path T_FILE 0 0 with
    | none =>
      endOp
      return -1
    | some ip => openLocked p ip omode
  else
    match ← namei p path with
    | none =>
      endOp
      return -1
    | some ip =>
      ilock ip
      if (← inode ip).copy.type = T_DIR ∧ omode ≠ O_RDONLY then
        iunlockput ip
        endOp
        return -1
      else openLocked p ip omode

/-- The common body of `sys_mkdir` and `sys_mknod`. -/
def sysCreate (p : Fin NPROC) (path : List UInt8) (type major minor : Int16) : FsM ℤ := do
  beginOp
  match ← create p path type major minor with
  | none =>
    endOp
    return -1
  | some ip =>
    iunlockput ip
    endOp
    return 0

/-- `sys_mkdir`. -/
def sysMkdir (p : Fin NPROC) (path : List UInt8) : FsM ℤ := sysCreate p path T_DIR 0 0

/-- `sys_mknod`. -/
def sysMknod (p : Fin NPROC) (path : List UInt8) (major minor : Int16) : FsM ℤ :=
  sysCreate p path T_DEVICE major minor

/-- `sys_chdir`. -/
def sysChdir (p : Fin NPROC) (path : List UInt8) : FsM ℤ := do
  beginOp
  match ← namei p path with
  | none =>
    endOp
    return -1
  | some ip =>
    ilock ip
    if (← inode ip).copy.type ≠ T_DIR then
      iunlockput ip
      endOp
      return -1
    else
      iunlock ip
      iput (← cwd p)
      endOp
      setCwd p (some ip)
      return 0

/-- `sys_mkdir`, `sys_mknod` and `sys_chdir` of a path that cannot be fetched. -/
def pathFault : FsM ℤ := do
  beginOp
  endOp
  return -1

/-- `sys_pipe`; `copied` tells whether both descriptors can be copied to user memory. -/
def sysPipe (p : Fin NPROC) (page : Option ℕ) (copied : Bool) : FsM ℤ := do
  match ← pipealloc page with
  | none => return -1
  | some (rf, wf) =>
    match ← fdalloc p rf with
    | none =>
      fileclose rf
      fileclose wf
      return -1
    | some fd0 =>
      match ← fdalloc p wf with
      | none =>
        setOfile p fd0 none
        fileclose rf
        fileclose wf
        return -1
      | some fd1 =>
        if copied then return 0
        else
          setOfile p fd0 none
          setOfile p fd1 none
          fileclose rf
          fileclose wf
          return -1

/-! ## Processes -/

/-- The first process. -/
def initproc : Fin NPROC := ⟨0, by decide⟩

/-- What `exit` does to open files and the current directory. -/
def exit (p : Fin NPROC) : FsM Unit := do
  if p = initproc then panic .initExiting
  else
    (List.finRange NOFILE).forM fun fd ↦ do
      match ((← get).proc p).ofile fd with
      | some f =>
        fileclose f
        setOfile p fd none
      | none => pure ()
    beginOp
    iput (← cwd p)
    endOp
    setCwd p none

/-- What `fork` does to open files and the current directory; `np` is the slot that `allocproc`
found. -/
def fork (p np : Fin NPROC) : FsM Unit := do
  if ((← get).proc np).cwd.isSome then throw .disabled
  else
    (List.finRange NOFILE).forM fun fd ↦ do
      match ((← get).proc p).ofile fd with
      | some f =>
        filedup f
        setOfile np fd (some f)
      | none => pure ()
    let ip ← idup (← cwd p)
    setCwd np (some ip)

/-! ## The system -/

/-- The calls of the processes. -/
inductive Action where
  | open (p : Fin NPROC) (path : List UInt8) (omode : ℕ)
  | mkdir (p : Fin NPROC) (path : List UInt8)
  | mknod (p : Fin NPROC) (path : List UInt8) (major minor : Int16)
  | link (p : Fin NPROC) (old new : List UInt8)
  | unlink (p : Fin NPROC) (path : List UInt8)
  | chdir (p : Fin NPROC) (path : List UInt8)
  | read (p : Fin NPROC) (fd : ℤ) (mem : Dest) (addr : ℕ) (n device : ℤ)
  | write (p : Fin NPROC) (fd : ℤ) (mem : Source) (addr : ℕ) (n device : ℤ)
  | fstat (p : Fin NPROC) (fd : ℤ)
  | dup (p : Fin NPROC) (fd : ℤ)
  | close (p : Fin NPROC) (fd : ℤ)
  | pipe (p : Fin NPROC) (page : Option ℕ) (copied : Bool)
  | exec (p : Fin NPROC) (path : List UInt8) (mem : UserMemory)
  | pathFault (p : Fin NPROC)
  | fork (p np : Fin NPROC)
  | exit (p : Fin NPROC)

/-- The process that makes a call. -/
def Action.proc : Action → Fin NPROC
  | .open p _ _ | .mkdir p _ | .mknod p _ _ _ | .link p _ _ | .unlink p _ | .chdir p _
  | .read p _ _ _ _ _ | .write p _ _ _ _ _ | .fstat p _ | .dup p _ | .close p _ | .pipe p _ _
  | .exec p _ _ | .pathFault p | .fork p _ | .exit p => p

/-- The code of a call, less its result. -/
def Action.code : Action → FsM Unit
  | .open p path omode => do let _ ← sysOpen p path omode
  | .mkdir p path => do let _ ← sysMkdir p path
  | .mknod p path major minor => do let _ ← sysMknod p path major minor
  | .link p old new => do let _ ← sysLink p old new
  | .unlink p path => do let _ ← sysUnlink p path
  | .chdir p path => do let _ ← sysChdir p path
  | .read p fd mem addr n device => do let _ ← sysRead p fd mem addr n device
  | .write p fd mem addr n device => do let _ ← sysWrite p fd mem addr n device
  | .fstat p fd => sysFstat p fd
  | .dup p fd => do let _ ← sysDup p fd
  | .close p fd => do let _ ← sysClose p fd
  | .pipe p page copied => do let _ ← sysPipe p page copied
  | .exec p path mem => do let _ ← Fs.exec p path mem
  | .pathFault _ => do let _ ← Fs.pathFault
  | .fork p np => Fs.fork p np
  | .exit p => Fs.exit p

/-- One call, made by a running process and run to completion. -/
def step (s : FsState) (action : Action) : Except Stop FsState :=
  if (s.proc action.proc).cwd = none then .error .disabled
  else
    match action.code s with
    | .ok (_, s') => .ok s'
    | .error stop => .error stop

theorem step_ok {s s' : FsState} {action : Action} (hstep : step s action = .ok s') :
    (s.proc action.proc).cwd ≠ none ∧ action.code s = .ok ((), s') := by
  rw [step] at hstep
  split at hstep
  · cases hstep
  · rename_i hlive
    split at hstep
    · rename_i t hcode
      obtain rfl := Except.ok.inj hstep
      exact ⟨hlive, hcode⟩
    · cases hstep

theorem step_stopped {s : FsState} {action : Action} {stop : Stop}
    (hstep : step s action = .error stop) :
    stop = .disabled ∨ (s.proc action.proc).cwd ≠ none ∧ action.code s = .error stop := by
  rw [step] at hstep
  split at hstep
  · exact .inl (Except.error.inj hstep).symm
  · rename_i hlive
    split at hstep
    · cases hstep
    · rename_i hcode
      obtain rfl := Except.error.inj hstep
      exact .inr ⟨hlive, hcode⟩

/-- The state after `iinit`, `fileinit` and `userinit`: the first process has the root directory as
its current directory. -/
def boot (sb : Superblock) (disk : Device) : FsState where
  sb := sb
  disk := disk
  itable ip := if ip.val = 0 then
      { dev := ROOTDEV, inum := ROOTINO, ref := 1, locked := false, valid := false,
        copy := Dinode.zero }
    else { dev := 0, inum := 0, ref := 0, locked := false, valid := false, copy := Dinode.zero }
  ftable _ :=
    { type := .none, ref := 0, readable := false, writable := false, pipe := 0,
      ip := ⟨0, by decide⟩, off := 0, major := 0 }
  proc p := { ofile := fun _ ↦ none, cwd := if p = initproc then some ⟨0, by decide⟩ else none }
  pages _ := false
  pipe _ := { readopen := false, writeopen := false }
  bufs := []
  outstanding := 0
  logged := []

end Xv6.Fs
