import Mathlib.Tactic

/-!
# Kernel Panics

A call of `panic` stops the machine.  The modelled functions return the panic they reach as an
error value; the constructors name the call sites and `Panic.message` gives the text each one
passes to `panic`.
-/

namespace Xv6

/-- The reachable or to-be-excluded calls of `panic` in the modelled functions. -/
inductive Panic where
  | logTooBig
  | logOutsideTrans
  | logCommitting
  | bgetNoBuffers
  | bwriteNotHeld
  | brelseNotHeld
  | ballocOut
  | bfreeFree
  | iallocNone
  | igetNone
  | ilockRef
  | ilockNoType
  | iunlockNotHeld
  | bmapRange
  | dirlookupNotDir
  | dirlookupRead
  | dirlinkRead
  | dirlinkWrite
  | isdiremptyRead
  | unlinkNlink
  | unlinkWritei
  | createDots
  | createDirlink
  | filedupRef
  | filecloseRef
  | filereadType
  | filewriteType
  | loadsegAddr
  | initExiting
  | zombieExit
  | acquireHeld
  | releaseNotHeld
  | schedLock
  | schedLocks
  | schedRunning
  | kfree
  | walk
  | mappagesSize
  | mappagesRemap
  | uvmunmapAlign
  | uvmunmapWalk
  | uvmunmapMapped
  | uvmunmapLeaf
  | uvmcopyPte
  | uvmcopyPresent
  | uvmclear
  | freewalkLeaf
  deriving DecidableEq, Repr

/-- The argument of the call. -/
def Panic.message : Panic → String
  | .logTooBig => "too big a transaction"
  | .logOutsideTrans => "log_write outside of trans"
  | .logCommitting => "log.committing"
  | .bgetNoBuffers => "bget: no buffers"
  | .bwriteNotHeld => "bwrite"
  | .brelseNotHeld => "brelse"
  | .ballocOut => "balloc: out of blocks"
  | .bfreeFree => "freeing free block"
  | .iallocNone => "ialloc: no inodes"
  | .igetNone => "iget: no inodes"
  | .ilockRef => "ilock"
  | .ilockNoType => "ilock: no type"
  | .iunlockNotHeld => "iunlock"
  | .bmapRange => "bmap: out of range"
  | .dirlookupNotDir => "dirlookup not DIR"
  | .dirlookupRead => "dirlookup read"
  | .dirlinkRead => "dirlink read"
  | .dirlinkWrite => "dirlink"
  | .isdiremptyRead => "isdirempty: readi"
  | .unlinkNlink => "unlink: nlink < 1"
  | .unlinkWritei => "unlink: writei"
  | .createDots => "create dots"
  | .createDirlink => "create: dirlink"
  | .filedupRef => "filedup"
  | .filecloseRef => "fileclose"
  | .filereadType => "fileread"
  | .filewriteType => "filewrite"
  | .loadsegAddr => "loadseg: address should exist"
  | .initExiting => "init exiting"
  | .zombieExit => "zombie exit"
  | .acquireHeld => "acquire"
  | .releaseNotHeld => "release"
  | .schedLock => "sched p->lock"
  | .schedLocks => "sched locks"
  | .schedRunning => "sched running"
  | .kfree => "kfree"
  | .walk => "walk"
  | .mappagesSize => "mappages: size"
  | .mappagesRemap => "mappages: remap"
  | .uvmunmapAlign => "uvmunmap: not aligned"
  | .uvmunmapWalk => "uvmunmap: walk"
  | .uvmunmapMapped => "uvmunmap: not mapped"
  | .uvmunmapLeaf => "uvmunmap: not a leaf"
  | .uvmcopyPte => "uvmcopy: pte should exist"
  | .uvmcopyPresent => "uvmcopy: page not present"
  | .uvmclear => "uvmclear"
  | .freewalkLeaf => "freewalk: leaf"

/-- Why a step of a system does not happen: the process is not at that point, or the kernel
panics. -/
inductive Stop where
  | disabled
  | panic (panic : Panic)
  deriving DecidableEq, Repr

end Xv6
