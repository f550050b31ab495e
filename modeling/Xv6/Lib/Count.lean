import Mathlib.Algebra.BigOperators.Group.Finset.Basic
import Mathlib.Data.Fintype.BigOperators
import Mathlib.Tactic

/-!
# Counting after one Value Changes

A family of values indexed by a finite set, of which one is replaced: how sums and counts over the
family change.
-/

namespace Xv6.Lib

variable {α β : Type} [DecidableEq α]

/-- A sum after one value changed. -/
theorem sum_update {M : Type} [AddCommMonoid M] {S : Finset α} {a : α} (ha : a ∈ S) (F : α → β)
    (x : β) (g : α → β → M) :
    (∑ b ∈ S, g b (Function.update F a x b)) + g a (F a) = (∑ b ∈ S, g b (F b)) + g a x := by
  have hrest : ∑ b ∈ S.erase a, g b (Function.update F a x b) = ∑ b ∈ S.erase a, g b (F b) :=
    Finset.sum_congr rfl fun b hb ↦ by rw [Function.update_of_ne (Finset.ne_of_mem_erase hb)]
  rw [← Finset.add_sum_erase S _ ha, ← Finset.add_sum_erase S (fun b ↦ g b (F b)) ha, hrest,
    Function.update_self, add_right_comm, add_comm (g a x), add_right_comm]

/-- A count after one value changed. -/
theorem card_filter_update [Fintype α] (F : α → β) (a : α) (x : β) (P : β → Prop)
    [DecidablePred P] :
    (Finset.univ.filter fun b ↦ P (Function.update F a x b)).card + (if P (F a) then 1 else 0) =
      (Finset.univ.filter fun b ↦ P (F b)).card + if P x then 1 else 0 := by
  rw [Finset.card_filter, Finset.card_filter]
  exact sum_update (Finset.mem_univ a) F x fun _ y ↦ if P y then 1 else 0

end Xv6.Lib
