import Xv6.Lib.Bytes
import Xv6.Param

/-!
# Disk Blocks

A disk block is `BSIZE` bytes.  The kernel overlays C structures on `b->data`; the overlays used
by several subsystems are arrays of 32-bit words, read and written here at a word index.
-/

namespace Xv6

open Lib

/-- The contents of one disk block or of one buffer's `data` field. -/
abbrev Block := Buffer BSIZE

/-- Contents of a whole device, indexed by block number. -/
abbrev Device := ℕ → Block

namespace Block

/-- Word `index` of a block seen as `uint[BSIZE / 4]`. -/
def word (block : Block) (index : ℕ) : ℕ := block.getLE 4 (4 * index)

/-- Store a word into a block seen as `uint[BSIZE / 4]`. -/
def setWord (block : Block) (index value : ℕ) : Block := block.setLE 4 (4 * index) value

theorem word_setWord_self (block : Block) (index value : ℕ) (hindex : index < 256) :
    (setWord block index value).word index = value % 2 ^ 32 := by
  have hfits : 4 * index + 4 ≤ BSIZE := by
    change 4 * index + 4 ≤ 1024
    omega
  exact Buffer.getLE_setLE_self block 4 (4 * index) value hfits

theorem word_setWord_of_ne (block : Block) {index other : ℕ} (value : ℕ) (hne : other ≠ index) :
    (setWord block index value).word other = block.word other := by
  apply Buffer.getLE_setLE_of_disjoint
  omega

/-- The words of a block of zeros; a read past its end gives zero as well. -/
theorem word_fill_zero (index : ℕ) : word (.fill 0) index = 0 := Buffer.getLE_fill_zero 4 _

end Block

end Xv6
