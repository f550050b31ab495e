import Mathlib.Logic.Function.Basic
import Mathlib.Tactic

/-!
# Overlapping Moves

`memmove` of `kernel/string.c` and `memmove` of `user/ulib.c` copy byte by byte, upwards or downwards
through memory, and choose the direction by different tests.  A copy in one direction is right if no
byte is overwritten before it is read, which is a condition on the distance of the two ranges; each
test chooses a direction that meets it.
-/

namespace Xv6.User

/-- A pointer. -/
abbrev Addr := BitVec 64

/-- Memory, by address. -/
abbrev Memory := Addr → UInt8

/-- `while(n-- > 0) *d++ = *s++;`. -/
def copyUp (mem : Memory) (d s : Addr) : ℕ → Memory
  | 0 => mem
  | n + 1 => copyUp (Function.update mem d (mem s)) (d + 1) (s + 1) n

/-- `while(n-- > 0) *--d = *--s;`. -/
def copyDown (mem : Memory) (d s : Addr) : ℕ → Memory
  | 0 => mem
  | n + 1 => copyDown (Function.update mem (d - 1) (mem (s - 1))) (d - 1) (s - 1) n

/-- `memmove` of the kernel. -/
def kernelMemmove (mem : Memory) (dst src : Addr) (n : BitVec 32) : Memory :=
  if n = 0 then mem
  else if src < dst ∧ src + n.setWidth 64 > dst then
    copyDown mem (dst + n.setWidth 64) (src + n.setWidth 64) n.toNat
  else copyUp mem dst src n.toNat

/-- `memmove` of the user library; its count is an `int`. -/
def userMemmove (mem : Memory) (dst src : Addr) (n : BitVec 32) : Memory :=
  if src > dst then copyUp mem dst src n.toInt.toNat
  else copyDown mem (dst + n.signExtend 64) (src + n.signExtend 64) n.toInt.toNat

/-- Memory after `n` bytes have been moved.  What is moved is what was there before. -/
def moved (mem : Memory) (dst src : Addr) (n : ℕ) : Memory := fun a ↦
  if (a - dst).toNat < n then mem (src + (a - dst)) else mem a

/-- If the first byte that is stored is one of the source, it is read now. -/
theorem first_ne {d s x : Addr} {n : ℕ} (h : d = s ∨ n ≤ (d - s).toNat) (hx : x ≠ 0)
    (hin : x.toNat < n) : s + x ≠ d := by
  intro heq
  have hdistance : d - s = x := by
    rw [← heq, BitVec.add_comm, BitVec.add_sub_cancel]
  rcases h with rfl | h
  · rw [BitVec.sub_self] at hdistance
    exact hx hdistance.symm
  · rw [hdistance] at h
    omega

/-- The same for the last byte. -/
theorem last_ne {d s x y : Addr} (h : d = s ∨ y.toNat < (s - d).toNat) (hx : x.toNat < y.toNat) :
    s + x ≠ d + y := by
  intro heq
  have hdistance : s - d = y - x := by
    have hs : s = d + y - x := by rw [← heq, BitVec.add_sub_cancel]
    rw [hs]
    clear * -
    bv_omega
  rcases h with rfl | h
  · rw [BitVec.sub_self] at hdistance
    clear * - hdistance hx
    bv_omega
  · rw [hdistance, BitVec.toNat_sub_of_le (BitVec.le_def.mpr (Nat.le_of_lt hx))] at h
    omega

/-- A copy upwards is right if no byte of the source is overwritten before it is read. -/
theorem copyUp_eq_moved (mem : Memory) {d s : Addr} {n : ℕ} (hn : n < 2 ^ 64)
    (h : d = s ∨ n ≤ (d - s).toNat) : copyUp mem d s n = moved mem d s n := by
  induction n generalizing mem d s with
  | zero =>
    funext a
    simp [copyUp, moved]
  | succ n ih =>
    have hdiff : d + 1 - (s + 1) = d - s := by bv_omega
    have hrest : d + 1 = s + 1 ∨ n ≤ (d + 1 - (s + 1)).toNat := by
      rw [hdiff]
      rcases h with rfl | h
      · exact .inl rfl
      · exact .inr (by omega)
    rw [copyUp, ih _ (by omega) hrest]
    funext a
    rw [moved, moved]
    by_cases ha : a = d
    · subst ha
      rw [if_neg (by bv_omega), if_pos (by bv_omega), Function.update_self]
      congr 1
      bv_omega
    · have hsource : s + 1 + (a - (d + 1)) = s + (a - d) := by bv_omega
      rw [hsource, Function.update_of_ne ha]
      by_cases hin : (a - d).toNat < n + 1
      · have hne : a - d ≠ 0 := by bv_omega
        rw [if_pos hin, if_pos (by bv_omega), Function.update_of_ne (first_ne h hne hin)]
      · rw [if_neg hin, if_neg (by bv_omega)]

/-- A copy downwards, from the ends of the ranges, is right under the opposite condition. -/
theorem copyDown_eq_moved (mem : Memory) {d s : Addr} {n : ℕ} (hn : n < 2 ^ 64)
    (h : d = s ∨ n ≤ (s - d).toNat) :
    copyDown mem (d + BitVec.ofNat 64 n) (s + BitVec.ofNat 64 n) n = moved mem d s n := by
  induction n generalizing mem with
  | zero =>
    funext a
    simp [copyDown, moved]
  | succ n ih =>
    have hd : d + BitVec.ofNat 64 (n + 1) - 1 = d + BitVec.ofNat 64 n := by bv_omega
    have hs : s + BitVec.ofNat 64 (n + 1) - 1 = s + BitVec.ofNat 64 n := by bv_omega
    have hrest : d = s ∨ n ≤ (s - d).toNat := by
      rcases h with rfl | h
      · exact .inl rfl
      · exact .inr (by omega)
    rw [copyDown, hd, hs, ih _ (by omega) hrest]
    funext a
    rw [moved, moved]
    by_cases ha : a = d + BitVec.ofNat 64 n
    · subst ha
      rw [if_neg (by bv_omega), if_pos (by bv_omega), Function.update_self]
      congr 1
      bv_omega
    · rw [Function.update_of_ne ha]
      by_cases hin : (a - d).toNat < n + 1
      · have hlast : (a - d).toNat < n := by clear h hrest ih; bv_omega
        have hcount : (BitVec.ofNat 64 n).toNat = n := by
          rw [BitVec.toNat_ofNat, Nat.mod_eq_of_lt (by omega)]
        have hne : s + (a - d) ≠ d + BitVec.ofNat 64 n := by
          refine last_ne ?_ (by rwa [hcount])
          rwa [hcount]
        rw [if_pos hin, if_pos hlast, Function.update_of_ne hne]
      · rw [if_neg hin, if_neg (by bv_omega)]

/-- `memmove` of the kernel goes downwards if the destination starts inside the source. -/
theorem kernelMemmove_eq_moved (mem : Memory) {dst src : Addr} {n : BitVec 32}
    (hdst : dst.toNat + n.toNat ≤ 2 ^ 64) (hsrc : src.toNat + n.toNat ≤ 2 ^ 64) :
    kernelMemmove mem dst src n = moved mem dst src n.toNat := by
  have hwidth : n.setWidth 64 = BitVec.ofNat 64 n.toNat := by bv_omega
  rw [kernelMemmove]
  split
  · rename_i hzero
    funext a
    simp [hzero, moved]
  · rw [hwidth]
    split
    · rename_i hinside
      exact copyDown_eq_moved mem (by omega) (.inr (by bv_omega))
    · rename_i houtside
      refine copyUp_eq_moved mem (by omega) ?_
      by_cases heq : dst = src
      · exact .inl heq
      · exact .inr (by bv_omega)

/-- `memmove` of the user library goes upwards if the destination starts before the source. -/
theorem userMemmove_eq_moved (mem : Memory) {dst src : Addr} {n : BitVec 32} (hn : 0 ≤ n.toInt)
    (hdst : dst.toNat + n.toNat ≤ 2 ^ 64) (hsrc : src.toNat + n.toNat ≤ 2 ^ 64) :
    userMemmove mem dst src n = moved mem dst src n.toNat := by
  have hsmall : 2 * n.toNat < 2 ^ 32 := BitVec.toInt_pos_iff.mp hn
  have hcount : n.toInt.toNat = n.toNat := by
    rw [BitVec.toInt_eq_toNat_of_lt hsmall, Int.toNat_natCast]
  have hwidth : n.signExtend 64 = BitVec.ofNat 64 n.toNat := by
    rw [BitVec.signExtend_eq_setWidth_of_msb_false (BitVec.msb_eq_false_iff_two_mul_lt.mpr hsmall)]
    bv_omega
  rw [userMemmove, hcount, hwidth]
  split
  · rename_i hbefore
    exact copyUp_eq_moved mem (by omega) (.inr (by bv_omega))
  · rename_i hbehind
    refine copyDown_eq_moved mem (by omega) ?_
    by_cases heq : dst = src
    · exact .inl heq
    · exact .inr (by bv_omega)

/-- The bytes of the source are at the destination, and all other bytes are as they were. -/
structure Moves (mem mem' : Memory) (dst src : Addr) (n : ℕ) : Prop where
  bytes : ∀ i, i < n → mem' (dst + BitVec.ofNat 64 i) = mem (src + BitVec.ofNat 64 i)
  others : ∀ a, a.toNat < dst.toNat ∨ dst.toNat + n ≤ a.toNat → mem' a = mem a

theorem moves_moved (mem : Memory) {dst : Addr} (src : Addr) {n : ℕ} (hn : n < 2 ^ 64)
    (hdst : dst.toNat + n ≤ 2 ^ 64) : Moves mem (moved mem dst src n) dst src n where
  bytes i hi := by
    have hoffset : dst + BitVec.ofNat 64 i - dst = BitVec.ofNat 64 i := by bv_omega
    rw [moved, hoffset, if_pos (by bv_omega)]
  others a ha := by rw [moved, if_neg (by bv_omega)]

/-- **Both versions of `memmove` are right under overlap**, for every position of the two ranges, and
they agree where the count of the user library can be given. -/
theorem memmove_overlap (mem : Memory) (dst src : Addr) (n : BitVec 32)
    (hdst : dst.toNat + n.toNat ≤ 2 ^ 64) (hsrc : src.toNat + n.toNat ≤ 2 ^ 64) :
    Moves mem (kernelMemmove mem dst src n) dst src n.toNat ∧
      (0 ≤ n.toInt → Moves mem (userMemmove mem dst src n) dst src n.toNat ∧
        userMemmove mem dst src n = kernelMemmove mem dst src n) := by
  have hmoves := moves_moved mem src (by omega) hdst
  rw [kernelMemmove_eq_moved mem hdst hsrc]
  refine ⟨hmoves, fun hn ↦ ?_⟩
  rw [userMemmove_eq_moved mem hn hdst hsrc]
  exact ⟨hmoves, rfl⟩

/-- Three bytes are moved by one, to either side. -/
theorem memmove_overlap_by_one :
    Moves (fun a ↦ a.toNat.toUInt8) (kernelMemmove (fun a ↦ a.toNat.toUInt8) 101 100 3) 101 100 3 ∧
    Moves (fun a ↦ a.toNat.toUInt8) (kernelMemmove (fun a ↦ a.toNat.toUInt8) 99 100 3) 99 100 3 ∧
    Moves (fun a ↦ a.toNat.toUInt8) (userMemmove (fun a ↦ a.toNat.toUInt8) 101 100 3) 101 100 3 :=
  ⟨(memmove_overlap _ 101 100 3 (by decide) (by decide)).1,
    (memmove_overlap _ 99 100 3 (by decide) (by decide)).1,
    ((memmove_overlap _ 101 100 3 (by decide) (by decide)).2 (by decide)).1⟩

end Xv6.User
