import Mathlib.Tactic

/-!
# Kernel Parameters

The constants of `kernel/param.h` and `kernel/fs.h` that the modelled subsystems read.  They keep
the source's names so that a definition can be compared with the code line by line.
-/

namespace Xv6

/-- Maximum number of blocks any file-system operation writes. -/
abbrev MAXOPBLOCKS : ℕ := 10

/-- Maximum number of data blocks in the on-disk log. -/
abbrev LOGSIZE : ℕ := MAXOPBLOCKS * 3

/-- Number of buffers in the disk block cache. -/
abbrev NBUF : ℕ := MAXOPBLOCKS * 3

/-- Maximum number of processes. -/
abbrev NPROC : ℕ := 64

/-- Open files per process. -/
abbrev NOFILE : ℕ := 16

/-- Open files per system. -/
abbrev NFILE : ℕ := 100

/-- Maximum number of active i-nodes. -/
abbrev NINODE : ℕ := 50

/-- Maximum major device number. -/
abbrev NDEV : ℕ := 10

/-- Maximum number of exec arguments. -/
abbrev MAXARG : ℕ := 32

/-- Device number of the file system root disk. -/
abbrev ROOTDEV : ℕ := 1

theorem NPROC_pos : 0 < NPROC := by decide

theorem NINODE_pos : 0 < NINODE := by decide

/-- Bytes per page. -/
abbrev PGSIZE : ℕ := 4096

/-- Block size in bytes. -/
abbrev BSIZE : ℕ := 1024

end Xv6
