import Mathlib.Data.List.Basic
import Mathlib.Data.List.Nodup
import Mathlib.Data.List.Perm.Basic
import Mathlib.Logic.Function.Basic
import Mathlib.Tactic

/-!
# Circular Doubly Linked Lists

Nodes carry a successor and a predecessor pointer.  `Linked a l b` says that the nodes of `l` are
met, in order, between `a` and `b`, and that the predecessor pointers agree.  A ring is a list of
nodes linked from a head node back to it.  The two pieces of pointer surgery are unlinking a node
and inserting one after the head; each is a few stores, in a fixed order.
-/

namespace Xv6.Lib

variable {Node : Type*}

/-- The pointers of all nodes. -/
structure Links (Node : Type*) where
  next : Node → Node
  prev : Node → Node

namespace Links

/-- From `a`, following successors, the nodes of `l` are met and then `b`. -/
def Linked (links : Links Node) (a : Node) : List Node → Node → Prop
  | [], b => links.next a = b ∧ links.prev b = a
  | x :: l, b => links.next a = x ∧ links.prev x = a ∧ Linked links x l b

/-- The nodes of `l`, each once, form a cycle with the head. -/
structure IsRing (links : Links Node) (head : Node) (l : List Node) : Prop where
  linked : links.Linked head l head
  nodup : (head :: l).Nodup

theorem linked_append (links : Links Node) {a b x : Node} {first second : List Node} :
    links.Linked a (first ++ x :: second) b ↔
      links.Linked a first x ∧ links.Linked x second b := by
  induction first generalizing a with
  | nil => simp [Linked, and_assoc]
  | cons y first ih => simp [Linked, ih, and_assoc]

/-- Only the successors of `a` and of the nodes between, and the predecessors of `b` and of the
nodes between, matter. -/
theorem Linked.congr {links links' : Links Node} {a b : Node} {l : List Node}
    (h : links.Linked a l b) (hnext : ∀ x ∈ a :: l, links'.next x = links.next x)
    (hprev : ∀ x ∈ b :: l, links'.prev x = links.prev x) : links'.Linked a l b := by
  induction l generalizing a with
  | nil =>
    obtain ⟨hn, hp⟩ := h
    exact ⟨(hnext a (by simp)).trans hn, (hprev b (by simp)).trans hp⟩
  | cons x l ih =>
    obtain ⟨hn, hp, hrest⟩ := h
    refine ⟨(hnext a (by simp)).trans hn, (hprev x (by simp)).trans hp, ih hrest ?_ ?_⟩
    · intro y hy
      exact hnext y (List.mem_cons_of_mem _ hy)
    · intro y hy
      apply hprev y
      rcases List.mem_cons.mp hy with rfl | hy
      · simp
      · simp [hy]

/-- The node after `a` is one of those between, or the end. -/
theorem Linked.next_mem {links : Links Node} {a b : Node} {l : List Node}
    (h : links.Linked a l b) : links.next a ∈ b :: l := by
  cases l with
  | nil => simp [h.1]
  | cons x l => simp [h.1]

/-- The node before `b` is one of those between, or the start. -/
theorem Linked.prev_mem {links : Links Node} {a b : Node} {l : List Node}
    (h : links.Linked a l b) : links.prev b ∈ a :: l := by
  induction l generalizing a with
  | nil => simp [h.2]
  | cons x l ih => exact List.mem_cons_of_mem _ (ih h.2.2)

/-! ## Walking backwards -/

/-- The same nodes with the two pointers exchanged. -/
def flip (links : Links Node) : Links Node where
  next := links.prev
  prev := links.next

theorem Linked.flip {links : Links Node} {a b : Node} {l : List Node} (h : links.Linked a l b) :
    links.flip.Linked b l.reverse a := by
  induction l generalizing a with
  | nil => exact ⟨h.2, h.1⟩
  | cons x l ih =>
    obtain ⟨hn, hp, hrest⟩ := h
    rw [List.reverse_cons, linked_append]
    exact ⟨ih hrest, hp, hn⟩

section Surgery

variable [DecidableEq Node]

/-- Take a node out: its neighbours are linked to each other. -/
def unlink (links : Links Node) (b : Node) : Links Node :=
  let links := { links with prev := Function.update links.prev (links.next b) (links.prev b) }
  { links with next := Function.update links.next (links.prev b) (links.next b) }

/-- Insert a node after the head. -/
def pushFront (links : Links Node) (head b : Node) : Links Node :=
  let links := { links with next := Function.update links.next b (links.next head) }
  let links := { links with prev := Function.update links.prev b head }
  let links := { links with prev := Function.update links.prev (links.next head) b }
  { links with next := Function.update links.next head b }

/-- Inserting a node that is not in a ring. -/
theorem IsRing.pushFront {links : Links Node} {head b : Node} {l : List Node}
    (h : links.IsRing head l) (hb : b ∉ head :: l) :
    (links.pushFront head b).IsRing head (b :: l) := by
  have hbhead : b ≠ head := fun heq ↦ hb (by simp [heq])
  have hbl : b ∉ l := fun hmem ↦ hb (by simp [hmem])
  have hheadl : head ∉ l := (List.nodup_cons.mp h.nodup).1
  have hnodup : (head :: b :: l).Nodup := by
    rw [List.nodup_cons, List.nodup_cons]
    refine ⟨?_, hbl, (List.nodup_cons.mp h.nodup).2⟩
    simp [hheadl, hbhead.symm]
  -- The links after the four stores, in terms of the first node of the ring.
  set first := links.next head with hfirst
  have hnext : (links.pushFront head b).next =
      Function.update (Function.update links.next b first) head b := rfl
  have hprev : (links.pushFront head b).prev =
      Function.update (Function.update links.prev b head) first b := by
    simp [Links.pushFront, Function.update_of_ne hbhead.symm, hfirst]
  refine ⟨⟨by simp [hnext], ?_, ?_⟩, hnodup⟩
  · have hne : b ≠ first := by
      cases l with
      | nil => rw [hfirst, h.linked.1]; exact hbhead
      | cons x l =>
        rw [hfirst, h.linked.1]
        exact fun heq ↦ hbl (by simp [heq])
    simp [hprev, Function.update_of_ne hne]
  · cases l with
    | nil =>
      have hfirst' : first = head := h.linked.1
      exact ⟨by simp [hnext, Function.update_of_ne hbhead, hfirst'], by simp [hprev, hfirst']⟩
    | cons x l =>
      obtain ⟨hn, hp, hrest⟩ := h.linked
      have hfirst' : first = x := hn
      refine ⟨by simp [hnext, Function.update_of_ne hbhead, hfirst'],
        by simp [hprev, hfirst'], ?_⟩
      have hxl : x ∉ l := (List.nodup_cons.mp (List.nodup_cons.mp h.nodup).2).1
      have hheadx : head ≠ x := fun heq ↦ hheadl (by simp [heq])
      refine hrest.congr ?_ ?_
      · intro y hy
        have hyhead : y ≠ head := fun heq ↦ hheadl (heq ▸ hy)
        have hyb : y ≠ b := fun heq ↦ hbl (heq ▸ hy)
        simp [hnext, Function.update_of_ne hyhead, Function.update_of_ne hyb]
      · intro y hy
        have hyx : y ≠ x := by
          rcases List.mem_cons.mp hy with rfl | hy
          · exact hheadx
          · exact fun heq ↦ hxl (heq ▸ hy)
        have hyb : y ≠ b := by
          rcases List.mem_cons.mp hy with rfl | hy
          · exact hbhead.symm
          · exact fun heq ↦ hbl (by simp [← heq, hy])
        simp [hprev, hfirst', Function.update_of_ne hyx, Function.update_of_ne hyb]

/-- Joining the two sides of a node that is taken out. -/
theorem Linked.unlink {links : Links Node} {a b c : Node} {first second : List Node}
    (hfirst : links.Linked a first b) (hsecond : links.Linked b second c)
    (hnodup : (a :: (first ++ b :: second)).Nodup) (hc : c ∉ first ++ b :: second) :
    (links.unlink b).Linked a (first ++ second) c := by
  have hb : b ∉ second := by
    intro hmem
    have := (List.nodup_cons.mp hnodup).2
    rw [List.nodup_append] at this
    exact (List.nodup_cons.mp this.2.1).1 hmem
  have hbn : b ≠ links.next b := by
    intro heq
    rcases List.mem_cons.mp hsecond.next_mem with hc' | hmem
    · exact hc (by simp [← hc', ← heq])
    · exact hb (heq ▸ hmem)
  have hnext : (links.unlink b).next =
      Function.update links.next (links.prev b) (links.next b) := by
    simp [Links.unlink, Function.update_of_ne hbn]
  have hprev : (links.unlink b).prev =
      Function.update links.prev (links.next b) (links.prev b) := rfl
  induction first generalizing a with
  | nil =>
    have hpa : links.prev b = a := hfirst.2
    have hab : a ∉ b :: second := (List.nodup_cons.mp hnodup).1
    cases second with
    | nil =>
      have hnc : links.next b = c := hsecond.1
      exact ⟨by simp [hnext, hpa, hnc], by simp [hprev, hpa, hnc]⟩
    | cons y second =>
      obtain ⟨hny, -, hrest⟩ := hsecond
      refine ⟨by simp [hnext, hpa, hny], by simp [hprev, hpa, hny], hrest.congr ?_ ?_⟩
      · intro x hx
        have hxa : x ≠ a := fun heq ↦ hab (by simp [← heq, List.mem_cons.mp hx])
        simp [hnext, hpa, Function.update_of_ne hxa]
      · intro x hx
        have hxy : x ≠ y := by
          rcases List.mem_cons.mp hx with rfl | hx
          · exact fun heq ↦ hc (by simp [heq])
          · intro heq
            have hy := (List.nodup_cons.mp (List.nodup_cons.mp hnodup).2).2
            exact (List.nodup_cons.mp hy).1 (heq ▸ hx)
        simp [hprev, hny, Function.update_of_ne hxy]
  | cons x first ih =>
    obtain ⟨hn, hp, hrest⟩ := hfirst
    have hnodup' : (x :: (first ++ b :: second)).Nodup := (List.nodup_cons.mp hnodup).2
    have hc' : c ∉ first ++ b :: second := fun hmem ↦ hc (by simp_all)
    have hax : a ≠ links.prev b := by
      intro heq
      apply (List.nodup_cons.mp hnodup).1
      have hmem := hrest.prev_mem
      rw [← heq] at hmem
      rcases List.mem_cons.mp hmem with rfl | hmem
      · simp
      · simp [hmem]
    have hxn : x ≠ links.next b := by
      intro heq
      have hmem := hsecond.next_mem
      rw [← heq] at hmem
      rcases List.mem_cons.mp hmem with rfl | hmem
      · exact hc (by simp)
      · exact (List.nodup_cons.mp hnodup').1 (by simp [hmem])
    exact ⟨by simp [hnext, Function.update_of_ne hax, hn],
      by simp [hprev, Function.update_of_ne hxn, hp], ih hrest hnodup' hc'⟩

/-- Taking a node out of a ring. -/
theorem IsRing.unlink {links : Links Node} {head b : Node} {first second : List Node}
    (h : links.IsRing head (first ++ b :: second)) :
    (links.unlink b).IsRing head (first ++ second) ∧ b ∉ head :: (first ++ second) := by
  obtain ⟨hfirst, hsecond⟩ := (linked_append links).mp h.linked
  have hhead : head ∉ first ++ b :: second := (List.nodup_cons.mp h.nodup).1
  have htail : (first ++ b :: second).Nodup := (List.nodup_cons.mp h.nodup).2
  have hmiddle : (b :: (first ++ second)).Nodup := List.nodup_middle.mp htail
  refine ⟨⟨hfirst.unlink hsecond h.nodup hhead, ?_⟩, ?_⟩
  · refine List.nodup_cons.mpr ⟨fun hmem ↦ hhead ?_, (List.nodup_cons.mp hmiddle).2⟩
    rcases List.mem_append.mp hmem with hmem | hmem <;> simp [hmem]
  · intro hmem
    rcases List.mem_cons.mp hmem with rfl | hmem
    · exact hhead (by simp)
    · exact (List.nodup_cons.mp hmiddle).1 hmem

/-! ## Searching -/

/-- Follow a pointer until a node satisfies the test or the head is met. -/
def find (follow : Node → Node) (head : Node) (test : Node → Bool) : ℕ → Node → Option Node
  | 0, _ => none
  | fuel + 1, x =>
    if x = head then none
    else if test x then some x
    else find follow head test fuel (follow x)

/-- With fuel for every node of the ring, the search meets its nodes in order. -/
theorem Linked.find_eq {links : Links Node} {a head : Node} {l : List Node}
    (h : links.Linked a l head) (hhead : head ∉ l) (test : Node → Bool) {fuel : ℕ}
    (hfuel : l.length < fuel) :
    find links.next head test fuel (links.next a) = l.find? test := by
  induction l generalizing a fuel with
  | nil =>
    obtain ⟨fuel, rfl⟩ : ∃ k, fuel = k + 1 := ⟨fuel - 1, by simp at hfuel; omega⟩
    simp [find, h.1]
  | cons x l ih =>
    obtain ⟨fuel, rfl⟩ : ∃ k, fuel = k + 1 := ⟨fuel - 1, by simp at hfuel; omega⟩
    obtain ⟨hn, -, hrest⟩ := h
    have hx : x ≠ head := fun heq ↦ hhead (by simp [heq])
    rw [hn, find, if_neg hx, List.find?_cons]
    split
    · rename_i htest
      simp [htest]
    · rename_i htest
      simp only [htest]
      exact ih hrest (fun hmem ↦ hhead (by simp [hmem])) (by simpa using hfuel)

theorem IsRing.find_next {links : Links Node} {head : Node} {l : List Node}
    (h : links.IsRing head l) (test : Node → Bool) {fuel : ℕ} (hfuel : l.length < fuel) :
    find links.next head test fuel (links.next head) = l.find? test :=
  h.linked.find_eq (List.nodup_cons.mp h.nodup).1 test hfuel

theorem IsRing.find_prev {links : Links Node} {head : Node} {l : List Node}
    (h : links.IsRing head l) (test : Node → Bool) {fuel : ℕ} (hfuel : l.length < fuel) :
    find links.prev head test fuel (links.prev head) = l.reverse.find? test := by
  have hhead : head ∉ l.reverse := by
    simpa using (List.nodup_cons.mp h.nodup).1
  exact h.linked.flip.find_eq hhead test (by simpa using hfuel)

end Surgery

end Links

end Xv6.Lib
