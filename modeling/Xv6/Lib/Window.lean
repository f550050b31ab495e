import Mathlib.Data.Fin.Basic
import Mathlib.Data.Nat.ModEq
import Mathlib.Logic.Function.Basic
import Mathlib.Tactic

/-!
# Windows of a Circular Buffer

A buffer of a fixed size that is addressed by counters which only grow, or wrap at a multiple of the
size.  The window from one counter to the other is the queue that the buffer holds: storing at its
end appends an item, and moving its start drops the first one.
-/

namespace Xv6.Lib

variable {α : Type*} {size : ℕ} [NeZero size] (data : Fin size → α) (start count : ℕ)

/-- The `count` items from position `start` on. -/
def window : List α := (List.range count).map fun j ↦ data (Fin.ofNat size (start + j))

@[simp]
theorem length_window : (window data start count).length = count := by
  simp [window]

/-- Dropping the first item. -/
theorem window_succ : window data start (count + 1) =
    data (Fin.ofNat size start) :: window data (start + 1) count := by
  simp only [window, List.range_succ_eq_map, List.map_cons, List.map_map]
  congr 1
  refine List.map_congr_left fun j _ ↦ ?_
  simp only [Function.comp_apply, Nat.succ_eq_add_one]
  congr 2
  omega

/-- Moving the end. -/
theorem window_snoc : window data start (count + 1) =
    window data start count ++ [data (Fin.ofNat size (start + count))] := by
  simp [window, List.range_succ]

/-- The position behind the window is none of its positions, when there is room. -/
theorem ofNat_ne_of_lt {j : ℕ} (hj : j < count) (hroom : count < size) :
    Fin.ofNat size (start + j) ≠ Fin.ofNat size (start + count) := by
  intro heq
  have hmod : (start + j) ≡ (start + count) [MOD size] := congrArg Fin.val heq
  have hlt := Nat.ModEq.add_left_cancel' start hmod
  rw [Nat.ModEq, Nat.mod_eq_of_lt (hj.trans hroom), Nat.mod_eq_of_lt hroom] at hlt
  omega

/-- Storing behind the end, when there is room. -/
theorem window_update {n : ℕ} (a : α) (hle : count ≤ n) (hroom : n < size) :
    window (Function.update data (Fin.ofNat size (start + n)) a) start count =
      window data start count :=
  List.map_congr_left fun _ hj ↦
    Function.update_of_ne
      (ofNat_ne_of_lt start n ((List.mem_range.mp hj).trans_le hle) hroom) ..

/-- Storing an item at the end, when there is room. -/
theorem window_store (a : α) (hroom : count < size) :
    window (Function.update data (Fin.ofNat size (start + count)) a) start (count + 1) =
      window data start count ++ [a] := by
  rw [window_snoc, window_update data start count a le_rfl hroom, Function.update_self]

/-- Two windows that follow each other. -/
theorem window_add (more : ℕ) : window data start (count + more) =
    window data start count ++ window data (start + count) more := by
  simp [window, List.range_add, Nat.add_assoc]

/-- A counter that wraps at a multiple of the size. -/
theorem window_mod {modulus : ℕ} (h : size ∣ modulus) :
    window data (start % modulus) count = window data start count := by
  refine List.map_congr_left fun j _ ↦ congrArg data (Fin.ext ?_)
  simp only [Fin.ofNat]
  exact ((Nat.mod_modEq start modulus).of_dvd h).add_right j

end Xv6.Lib
