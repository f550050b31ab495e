import Xv6.Fs.Format

/-!
# Blocks are Owned

Whatever calls processes make on a well-formed file system, every block number that an allocated
inode holds is the number of a data block that is held in no other place and is marked in the
bitmap, and every marked data block is held.  So `bfree` never finds that the block it frees is
free.
-/

namespace Xv6.Fs

open Lib

variable {sb : Superblock} {disk : Device} {s : FsState}

/-- A call frees no free block. -/
theorem step_ne_bfreeFree (h : Base s 0 ∅) (action : Action) :
    step s action ≠ .error (.panic .bfreeFree) := by
  intro hstep
  exact step_error (E := (· ≠ .panic .bfreeFree)) (fun _ hne ↦ hne.1) h (.inl (by simp)) hstep
    rfl

/-- After every run of calls the data blocks are owned: `Owned` says that the blocks which allocated
inodes hold are data blocks, each held in one place, and that these are the marked data blocks.  No
further call frees a free block. -/
theorem blocks_owned (h : WellFormed sb disk) {actions : List Action}
    (hrun : run step (boot sb disk) actions = .ok s) :
    Owned s.sb s.disk s.inodes ∧ ∀ action, step s action ≠ .error (.panic .bfreeFree) :=
  ⟨(h.run hrun).image.owned, step_ne_bfreeFree (h.run hrun)⟩

/-- A run on the small disk: a directory and a file in it are made, the file is opened, and the
process writes 3 bytes and closes it. -/
theorem blocks_owned_small : ∃ s, run step small
    [.mkdir initproc [97], .open initproc [97, 47, 98] (O_CREATE + O_RDWR),
      .write initproc 0 (kernelSource [1, 2, 3]) 0 3 0, .close initproc 0] = .ok s ∧
    Owned s.sb s.disk s.inodes ∧ ∀ action, step s action ≠ .error (.panic .bfreeFree) := by
  have hok : (run step small [.mkdir initproc [97],
      .open initproc [97, 47, 98] (O_CREATE + O_RDWR),
      .write initproc 0 (kernelSource [1, 2, 3]) 0 3 0, .close initproc 0]).toBool = true := by
    decide +kernel
  cases hrun : run step small [.mkdir initproc [97],
      .open initproc [97, 47, 98] (O_CREATE + O_RDWR),
      .write initproc 0 (kernelSource [1, 2, 3]) 0 3 0, .close initproc 0] with
  | ok s => exact ⟨s, rfl, blocks_owned wellFormed_small hrun⟩
  | error stop =>
    rw [hrun] at hok
    cases hok

end Xv6.Fs
