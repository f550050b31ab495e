import Mathlib.Data.List.Nodup
import Mathlib.Data.List.Perm.Basic
import Mathlib.Logic.Function.Basic
import Mathlib.Tactic

/-!
# Singly Linked Lists

`Path next a l b` says that the nodes of `l` are met, in order, on the way from `a` to `b` along the
pointers `next`.  A path from a node back to it is a cycle; it may be entered at any of its nodes.
A node is inserted behind the last node of a path, or skipped, by one store.
-/

namespace Xv6.Lib

variable {α : Type*} {next next' : α → α} {a b c d x y : α} {l l' first second : List α}

/-- From `a`, following the pointers, the nodes of `l` are met and then `b`. -/
def Path (next : α → α) (a : α) : List α → α → Prop
  | [], b => next a = b
  | x :: l, b => next a = x ∧ Path next x l b

theorem path_append :
    Path next a (first ++ x :: second) b ↔ Path next a first x ∧ Path next x second b := by
  induction first generalizing a with
  | nil => rfl
  | cons y first ih =>
    rw [List.cons_append, Path, Path, ih, and_assoc]

namespace Path

theorem congr (h : Path next a l b) (heq : ∀ x ∈ a :: l, next' x = next x) : Path next' a l b := by
  induction l generalizing a with
  | nil => exact (heq a List.mem_cons_self).trans h
  | cons x l ih =>
    refine ⟨(heq a List.mem_cons_self).trans h.1, ih h.2 fun y hy ↦ ?_⟩
    exact heq y (List.mem_cons_of_mem _ hy)

/-- The nodes that are pointed to. -/
theorem map_next (h : Path next a l b) : (a :: l).map next = l ++ [b] := by
  induction l generalizing a with
  | nil => exact congrArg (fun x ↦ [x]) h
  | cons x l ih => rw [List.map_cons, ih h.2, h.1, List.cons_append]

theorem next_mem (h : Path next a l b) (hx : x ∈ a :: l) : next x ∈ l ++ [b] :=
  h.map_next ▸ List.mem_map_of_mem hx

/-- A node has one predecessor. -/
theorem eq_of_next (h : Path next a l b) (hnodup : (l ++ [b]).Nodup) (hx : x ∈ a :: l)
    (hy : y ∈ a :: l) (heq : next x = next y) : x = y :=
  List.inj_on_of_nodup_map (h.map_next ▸ hnodup) hx hy heq

theorem next_last (h : Path next a l b) : next (l.getLastD a) = b := by
  induction l generalizing a with
  | nil => exact h
  | cons x l ih =>
    rw [List.getLastD_cons]
    exact ih h.2

theorem last_mem (a : α) (l : List α) : l.getLastD a ∈ a :: l := by
  induction l generalizing a with
  | nil => exact List.mem_cons_self
  | cons x l ih =>
    rw [List.getLastD_cons]
    exact List.mem_cons_of_mem _ (ih x)

/-- A path in two parts. -/
theorem split (h : Path next a (first ++ second) b) :
    Path next a first (next (first.getLastD a)) ∧ Path next (first.getLastD a) second b := by
  induction first generalizing a with
  | nil => exact ⟨rfl, h⟩
  | cons x first ih =>
    obtain ⟨hfirst, hsecond⟩ := ih h.2
    rw [List.getLastD_cons]
    exact ⟨⟨h.1, hfirst⟩, hsecond⟩

/-- Another node takes the place of the first one. -/
theorem restart (h : Path next a l b) (hc : next' c = next a) (heq : ∀ x ∈ l, next' x = next x) :
    Path next' c l b := by
  cases l with
  | nil => exact hc.trans h
  | cons x l => exact ⟨hc.trans h.1, h.2.congr heq⟩

theorem rel_last {R : α → α → Prop} (hpair : (a :: l).Pairwise R) (hx : x ∈ a :: l)
    (hne : x ≠ l.getLastD a) : R x (l.getLastD a) := by
  induction l generalizing a with
  | nil => exact absurd (List.mem_singleton.mp hx) hne
  | cons y l ih =>
    rw [List.getLastD_cons] at hne ⊢
    obtain ⟨ha, hrest⟩ := List.pairwise_cons.mp hpair
    rcases List.mem_cons.mp hx with rfl | hx
    · exact ha _ (last_mem y l)
    · exact ih hrest hx hne

/-- Behind every node but the last one there is the next one of the list. -/
theorem next_of_ne_last {R : α → α → Prop} (h : Path next a l b) (hpair : (a :: l).Pairwise R)
    (hx : x ∈ a :: l) (hne : x ≠ l.getLastD a) : next x ∈ l ∧ R x (next x) := by
  induction l generalizing a with
  | nil =>
    rcases List.mem_cons.mp hx with rfl | hx
    · exact absurd rfl hne
    · cases hx
  | cons y l ih =>
    rw [List.getLastD_cons] at hne
    obtain ⟨ha, hrest⟩ := List.pairwise_cons.mp hpair
    rcases List.mem_cons.mp hx with rfl | hx
    · rw [h.1]
      exact ⟨List.mem_cons_self, ha y List.mem_cons_self⟩
    · obtain ⟨hmem, hR⟩ := ih h.2 hrest hx hne
      exact ⟨List.mem_cons_of_mem _ hmem, hR⟩

/-- A cycle may be entered at any of its nodes. -/
theorem rotate (h : Path next a l a) (hx : x ∈ a :: l) :
    ∃ l', Path next x l' x ∧ (x :: l').Perm (a :: l) := by
  rcases List.mem_cons.mp hx with rfl | hx
  · exact ⟨l, h, .refl _⟩
  · obtain ⟨first, second, rfl⟩ := List.append_of_mem hx
    obtain ⟨hfirst, hsecond⟩ := path_append.mp h
    refine ⟨second ++ a :: first, path_append.mpr ⟨hsecond, hfirst⟩, ?_⟩
    show ((x :: second) ++ (a :: first)).Perm ((a :: first) ++ (x :: second))
    exact List.perm_append_comm

variable [DecidableEq α]

/-- The last node of a path is made to point elsewhere. -/
theorem retarget (h : Path next a l b) (hnodup : (a :: l).Nodup) (y : α) :
    Path (Function.update next (l.getLastD a) y) a l y := by
  induction l generalizing a with
  | nil => exact Function.update_self ..
  | cons x l ih =>
    obtain ⟨hnot, hrest⟩ := List.nodup_cons.mp hnodup
    rw [List.getLastD_cons]
    refine ⟨?_, ih h.2 hrest⟩
    rw [Function.update_of_ne (ne_of_mem_of_not_mem (last_mem x l) hnot).symm]
    exact h.1

/-- Behind the path from `a`, the nodes behind `c` follow; `c` itself is skipped. -/
theorem splice (h : Path next a l b) (hnodup : (a :: l).Nodup) (h' : Path next c l' d)
    (hlast : l.getLastD a ∉ l') :
    Path (Function.update next (l.getLastD a) (next c)) a (l ++ l') d := by
  cases l' with
  | nil =>
    rw [List.append_nil, show next c = d from h']
    exact h.retarget hnodup d
  | cons x l' =>
    refine path_append.mpr ⟨?_, h'.2.congr fun y hy ↦ ?_⟩
    · rw [h'.1]
      exact h.retarget hnodup x
    · exact Function.update_of_ne (ne_of_mem_of_not_mem hy hlast) _ _

/-- Behind the path from `a`, the path from `c` follows. -/
theorem insert (h : Path next a l b) (hnodup : (a :: l).Nodup) (h' : Path next c l' d)
    (hlast : l.getLastD a ∉ c :: l') :
    Path (Function.update next (l.getLastD a) c) a (l ++ c :: l') d := by
  refine path_append.mpr ⟨h.retarget hnodup c, h'.congr fun y hy ↦ ?_⟩
  exact Function.update_of_ne (ne_of_mem_of_not_mem hy hlast) _ _

end Path

end Xv6.Lib
