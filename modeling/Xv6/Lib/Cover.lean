import Mathlib.Data.List.Basic
import Mathlib.Data.List.Pairwise
import Mathlib.Order.Nat
import Mathlib.Tactic

/-!
# Covering by Intervals

Intervals are made of units of `m` numbers.  `cover m l x r` counts the intervals of a list that
contain `x` as number `r` of a unit.  Joining two intervals that meet, or cutting one in two between
units, leaves it as it is.  So what is cut from disjoint intervals and joined again is disjoint.
-/

namespace Xv6.Lib

/-- The numbers from `lo` up to but not including `hi`. -/
structure Interval where
  lo : ℕ
  hi : ℕ
  deriving DecidableEq

namespace Interval

def Mem (i : Interval) (x : ℕ) : Prop := i.lo ≤ x ∧ x < i.hi

instance (i : Interval) (x : ℕ) : Decidable (i.Mem x) := inferInstanceAs (Decidable (_ ∧ _))

/-- `x` is number `r` of a unit of the interval. -/
def At (m : ℕ) (i : Interval) (x r : ℕ) : Prop := i.Mem x ∧ (x - i.lo) % m = r

instance (m : ℕ) (i : Interval) (x r : ℕ) : Decidable (i.At m x r) :=
  inferInstanceAs (Decidable (_ ∧ _))

/-- Two intervals without a common number. -/
def Apart (i j : Interval) : Prop := ∀ x, i.Mem x → ¬ j.Mem x

instance : Std.Symm Apart := ⟨fun _ _ h x hj hi ↦ h x hi hj⟩

/-- The first numbers of the units. -/
theorem at_zero_iff {m lo n x : ℕ} (hm : 0 < m) :
    At m ⟨lo, lo + m * n⟩ x 0 ↔ ∃ j < n, lo + m * j = x := by
  constructor
  · rintro ⟨⟨hlo, hhi⟩, hmod⟩
    obtain ⟨j, hj⟩ := Nat.dvd_of_mod_eq_zero hmod
    have hx : lo + m * j = x := hj ▸ Nat.add_sub_cancel' hlo
    rw [← hx] at hhi
    exact ⟨j, Nat.lt_of_mul_lt_mul_left (Nat.lt_of_add_lt_add_left hhi), hx⟩
  · rintro ⟨j, hj, rfl⟩
    refine ⟨⟨Nat.le_add_right _ _, ?_⟩, ?_⟩
    · exact Nat.add_lt_add_left (Nat.mul_lt_mul_of_pos_left hj hm) lo
    · rw [Nat.add_sub_cancel_left, Nat.mul_mod_right]

end Interval

/-- The number of intervals that contain `x` as number `r` of a unit. -/
def cover (m : ℕ) (l : List Interval) (x r : ℕ) : ℕ := l.countP fun i ↦ i.At m x r

variable {m : ℕ} {l l' : List Interval} {i : Interval} {x r r' : ℕ}

theorem cover_cons (m : ℕ) (i : Interval) (l : List Interval) (x r : ℕ) :
    cover m (i :: l) x r = cover m l x r + if i.At m x r then 1 else 0 := by
  rw [cover, List.countP_cons]
  simp [cover]

theorem cover_perm (m : ℕ) (h : l.Perm l') (x r : ℕ) : cover m l x r = cover m l' x r :=
  h.countP_eq _

/-- Two intervals that meet are as good as one. -/
theorem cover_join {a b c : ℕ} (hab : a ≤ b) (hbc : b ≤ c) (hm : m ∣ b - a) (l : List Interval)
    (x r : ℕ) : cover m (⟨a, b⟩ :: ⟨b, c⟩ :: l) x r = cover m (⟨a, c⟩ :: l) x r := by
  have hmod (hx : b ≤ x) : (x - a) % m = (x - b) % m := by
    obtain ⟨k, hk⟩ := hm
    rw [show x - a = x - b + m * k by omega, Nat.add_mul_mod_self_left]
  have hat : Interval.At m ⟨a, c⟩ x r ↔ Interval.At m ⟨a, b⟩ x r ∨ Interval.At m ⟨b, c⟩ x r := by
    simp only [Interval.At, Interval.Mem]
    rcases Nat.lt_or_ge x b with hx | hx
    · omega
    · rw [hmod hx]
      omega
  have hapart : ¬ (Interval.At m ⟨a, b⟩ x r ∧ Interval.At m ⟨b, c⟩ x r) := by
    simp only [Interval.At, Interval.Mem]
    omega
  simp only [cover_cons, hat]
  split_ifs <;> first | omega | tauto

theorem cover_pos : 0 < cover m l x r ↔ ∃ i ∈ l, i.At m x r := by
  simp [cover, List.countP_pos_iff]

theorem cover_le_cons : cover m l x r ≤ cover m (i :: l) x r := by
  rw [cover_cons]
  exact Nat.le_add_right _ _

/-- Disjoint intervals cover no number twice. -/
theorem cover_le_one (h : l.Pairwise Interval.Apart) (x r : ℕ) : cover m l x r ≤ 1 := by
  induction l with
  | nil => exact Nat.zero_le _
  | cons i l ih =>
    obtain ⟨hi, hrest⟩ := List.pairwise_cons.mp h
    rw [cover_cons]
    split
    · rename_i hmem
      have hzero : ¬ 0 < cover m l x r := fun hpos ↦ by
        obtain ⟨j, hj, hjx⟩ := cover_pos.mp hpos
        exact hi j hj x hmem.1 hjx.1
      omega
    · exact ih hrest

/-- In disjoint intervals a number has one place in a unit. -/
theorem eq_of_cover_pos (h : l.Pairwise Interval.Apart) (hr : 0 < cover m l x r)
    (hr' : 0 < cover m l x r') : r = r' := by
  obtain ⟨i, hi, hix⟩ := cover_pos.mp hr
  obtain ⟨j, hj, hjx⟩ := cover_pos.mp hr'
  by_cases hij : i = j
  · rw [← hix.2, hij, hjx.2]
  · exact absurd hjx.1 (h.forall hi hj hij x hix.1)

/-- Intervals that cover each number once, in one place of a unit, are disjoint. -/
theorem pairwise_apart (hone : ∀ x r, cover m l x r ≤ 1)
    (hplace : ∀ x r r', 0 < cover m l x r → 0 < cover m l x r' → r = r') :
    l.Pairwise Interval.Apart := by
  induction l with
  | nil => exact .nil
  | cons i l ih =>
    refine .cons (fun j hj x hi hjx ↦ ?_) (ih (fun x r ↦ cover_le_cons.trans (hone x r)) ?_)
    · have hpos : 0 < cover m l x ((x - j.lo) % m) := cover_pos.mpr ⟨j, hj, hjx, rfl⟩
      have hi' : i.At m x ((x - i.lo) % m) := ⟨hi, rfl⟩
      have heq := hplace x _ _ (cover_pos.mpr ⟨i, List.mem_cons_self, hi'⟩)
        (hpos.trans_le cover_le_cons)
      have hle := hone x ((x - i.lo) % m)
      rw [cover_cons, if_pos hi', heq] at hle
      omega
    · exact fun x r r' hr hr' ↦
        hplace x r r' (hr.trans_le cover_le_cons) (hr'.trans_le cover_le_cons)

/-- What covers the same as disjoint intervals is disjoint. -/
theorem apart_of_cover_eq (h : l'.Pairwise Interval.Apart)
    (heq : ∀ x r, cover m l x r = cover m l' x r) : l.Pairwise Interval.Apart :=
  pairwise_apart (fun x r ↦ (heq x r).trans_le (cover_le_one h x r)) fun x r r' hr hr' ↦
    eq_of_cover_pos h (heq x r ▸ hr) (heq x r' ▸ hr')

end Xv6.Lib
