import Mathlib.Data.List.Basic
import Mathlib.Logic.Function.Basic
import Mathlib.Tactic

/-!
# Sequences of Atomic Writes

A store is a function from addresses to contents, and a program that performs single-cell writes
in order is described by the list of those writes.  Stopping the program after some of them is
taking a prefix of the list.  The results below are the ones a redo log rests on: cells outside a
list keep their contents, and replaying a whole list over a store in which a prefix of the same
list has already been performed gives the same store as performing it once.
-/

namespace Xv6.Lib

variable {K V : Type*} [DecidableEq K]

/-- Perform a list of writes in order. -/
def performWrites (store : K → V) : List (K × V) → K → V
  | [] => store
  | write :: writes => performWrites (Function.update store write.1 write.2) writes

@[simp]
theorem performWrites_nil (store : K → V) : performWrites store [] = store := rfl

@[simp]
theorem performWrites_cons (store : K → V) (write : K × V) (writes : List (K × V)) :
    performWrites store (write :: writes) =
      performWrites (Function.update store write.1 write.2) writes := rfl

theorem performWrites_append (store : K → V) (first second : List (K × V)) :
    performWrites store (first ++ second) = performWrites (performWrites store first) second := by
  induction first generalizing store with
  | nil => rfl
  | cons write first ih =>
    simp only [List.cons_append, performWrites_cons]
    exact ih _

/-- A cell that no write addresses keeps its contents. -/
theorem performWrites_of_forall_ne {writes : List (K × V)} {key : K}
    (hkey : ∀ write ∈ writes, write.1 ≠ key) (store : K → V) :
    performWrites store writes key = store key := by
  induction writes generalizing store with
  | nil => rfl
  | cons write writes ih =>
    have hhead : write.1 ≠ key := hkey write List.mem_cons_self
    rw [performWrites_cons, ih (fun other hother ↦ hkey other (List.mem_cons_of_mem _ hother))]
    exact Function.update_of_ne hhead.symm _ _

/-- The final contents of a cell depend on the initial store only when nothing is written there. -/
theorem performWrites_congr {writes : List (K × V)} {left right : K → V} {key : K}
    (hkey : (∃ write ∈ writes, write.1 = key) ∨ left key = right key) :
    performWrites left writes key = performWrites right writes key := by
  induction writes generalizing left right with
  | nil =>
    rcases hkey with ⟨write, hmem, -⟩ | heq
    · cases hmem
    · exact heq
  | cons write writes ih =>
    rw [performWrites_cons, performWrites_cons]
    apply ih
    by_cases hhead : write.1 = key
    · right
      subst hhead
      simp
    · rcases hkey with ⟨other, hmem, hother⟩ | heq
      · rcases List.mem_cons.mp hmem with rfl | hmem
        · exact absurd hother hhead
        · exact Or.inl ⟨other, hmem, hother⟩
      · right
        simpa [Function.update_of_ne (Ne.symm hhead)] using heq

/-- Replaying a whole list after a prefix of it has been performed is performing it once. -/
theorem performWrites_take_then_all (store : K → V) (writes : List (K × V)) (count : ℕ) :
    performWrites (performWrites store (writes.take count)) writes = performWrites store writes := by
  funext key
  apply performWrites_congr
  by_cases hkey : ∃ write ∈ writes, write.1 = key
  · exact Or.inl hkey
  · right
    apply performWrites_of_forall_ne
    intro write hmem heq
    exact hkey ⟨write, List.mem_of_mem_take hmem, heq⟩

/-- A cell to which every write stores the same contents ends up with them. -/
theorem performWrites_of_consistent {writes : List (K × V)} {key : K} {value : V}
    (hmem : ∃ write ∈ writes, write.1 = key)
    (hvalue : ∀ write ∈ writes, write.1 = key → write.2 = value) (store : K → V) :
    performWrites store writes key = value := by
  induction writes generalizing store with
  | nil =>
    obtain ⟨write, hwrite, -⟩ := hmem
    cases hwrite
  | cons write writes ih =>
    rw [performWrites_cons]
    by_cases htail : ∃ other ∈ writes, other.1 = key
    · exact ih htail (fun other hother ↦ hvalue other (List.mem_cons_of_mem _ hother)) _
    · rw [performWrites_of_forall_ne (fun other hother heq ↦ htail ⟨other, hother, heq⟩)]
      obtain ⟨other, hother, hkey⟩ := hmem
      rcases List.mem_cons.mp hother with rfl | hother
      · rw [hkey, Function.update_self]
        exact hvalue other List.mem_cons_self hkey
      · exact absurd ⟨other, hother, hkey⟩ htail

/-- Two stores that agree outside a set of cells still agree outside it after the same writes. -/
theorem performWrites_agree {writes : List (K × V)} {left right : K → V} {region : K → Prop}
    (hagree : ∀ key, region key → left key = right key) :
    ∀ key, region key → performWrites left writes key = performWrites right writes key :=
  fun key hkey ↦ performWrites_congr (Or.inr (hagree key hkey))

end Xv6.Lib
