import Mathlib.Data.List.Induction
import Mathlib.Logic.Function.Basic
import Mathlib.Order.Nat
import Mathlib.Tactic

/-!
# Radix Trees

Entries of a table may point to tables of the next level.  A table is found by the indices on the way
to it from the root, and an entry of the last level by those of its table and its own.  The tables
of a tree are distinct, so that a store to an entry of the last level changes that entry alone, and a
new empty table changes no entry at all.
-/

namespace Xv6.Lib.Radix

variable {A I E : Type*} (child : E → Option A)

/-- The table that is found from `a` by a list of indices. -/
def follow (mem : A → I → E) : A → List I → Option A
  | a, [] => some a
  | a, i :: p => (child (mem a i)).bind fun b ↦ follow mem b p

/-- The tables of the first `n` levels below `root`. -/
def IsTable (mem : A → I → E) (n : ℕ) (root a : A) : Prop :=
  ∃ p : List I, p.length ≤ n ∧ follow child mem root p = some a

/-- Each table is found in one way. -/
def Distinct (mem : A → I → E) (n : ℕ) (root : A) : Prop :=
  ∀ p q : List I, p.length ≤ n → q.length ≤ n → ∀ a, follow child mem root p = some a →
    follow child mem root q = some a → p = q

/-- The entry that is found by the indices of its table and its own. -/
def entry (mem : A → I → E) (root : A) (p : List I) (i : I) : Option E :=
  (follow child mem root p).map fun a ↦ mem a i

variable {child} {mem mem' : A → I → E} {n : ℕ} {root a b : A} {p q : List I} {i j : I} {e : E}

theorem follow_append (a : A) (p q : List I) :
    follow child mem a (p ++ q) = (follow child mem a p).bind fun b ↦ follow child mem b q := by
  induction p generalizing a with
  | nil => rfl
  | cons i p ih =>
    rw [List.cons_append, follow, follow, Option.bind_assoc]
    exact Option.bind_congr fun b _ ↦ ih b

theorem follow_snoc (a : A) (p : List I) (i : I) :
    follow child mem a (p ++ [i]) = (follow child mem a p).bind fun b ↦ child (mem b i) := by
  rw [follow_append]
  refine Option.bind_congr fun b _ ↦ ?_
  rw [follow]
  exact Option.bind_fun_some _

/-- What is found depends on the tables on the way to it. -/
theorem follow_congr
    (h : ∀ q, q.length < p.length → ∀ a, follow child mem root q = some a → mem' a = mem a) :
    follow child mem' root p = follow child mem root p := by
  induction p using List.reverseRecOn with
  | nil => rfl
  | append_singleton p i ih =>
    have hp : follow child mem' root p = follow child mem root p := by
      apply ih
      intro q hq
      apply h
      rw [List.length_append]
      exact Nat.lt_add_right _ hq
    rw [follow_snoc, follow_snoc, hp]
    refine Option.bind_congr fun a ha ↦ ?_
    rw [h p (by simp) a ha]

theorem isTable_root : IsTable child mem n root root := ⟨[], Nat.zero_le _, rfl⟩

theorem IsTable.congr (h : ∀ p : List I, p.length ≤ n →
    follow child mem' root p = follow child mem root p) :
    IsTable child mem' n root a ↔ IsTable child mem n root a := by
  constructor
  · rintro ⟨p, hp, ha⟩
    exact ⟨p, hp, h p hp ▸ ha⟩
  · rintro ⟨p, hp, ha⟩
    exact ⟨p, hp, (h p hp).trans ha⟩

theorem Distinct.congr (hdistinct : Distinct child mem n root) (h : ∀ p : List I, p.length ≤ n →
    follow child mem' root p = follow child mem root p) : Distinct child mem' n root := by
  intro p q hp hq a ha hb
  rw [h p hp] at ha
  rw [h q hq] at hb
  exact hdistinct p q hp hq a ha hb

/-! ## Subtrees -/

theorem isTable_zero : IsTable child mem 0 root a ↔ a = root := by
  constructor
  · rintro ⟨p, hp, ha⟩
    rw [List.eq_nil_of_length_eq_zero (Nat.le_zero.mp hp)] at ha
    exact (Option.some.inj ha).symm
  · rintro rfl
    exact isTable_root

theorem isTable_succ : IsTable child mem (n + 1) root a ↔
    a = root ∨ ∃ i c, child (mem root i) = some c ∧ IsTable child mem n c a := by
  constructor
  · rintro ⟨p, hp, ha⟩
    cases p with
    | nil => exact .inl (Option.some.inj ha).symm
    | cons i p =>
      obtain ⟨c, hc, ha⟩ := Option.bind_eq_some_iff.mp ha
      exact .inr ⟨i, c, hc, p, Nat.le_of_succ_le_succ hp, ha⟩
  · rintro (rfl | ⟨i, c, hc, p, hp, ha⟩)
    · exact isTable_root
    · exact ⟨i :: p, Nat.succ_le_succ hp, Option.bind_eq_some_iff.mpr ⟨c, hc, ha⟩⟩

theorem follow_cons {c : A} (hc : child (mem root i) = some c) (p : List I) :
    follow child mem root (i :: p) = follow child mem c p := by
  rw [follow, hc, Option.bind_some]

section Subtree

variable {c : A} (h : Distinct child mem (n + 1) root) (hc : child (mem root i) = some c)

include h hc

theorem Distinct.subtree : Distinct child mem n c := by
  intro p q hp hq a ha hb
  rw [← follow_cons hc] at ha hb
  exact (List.cons.inj (h _ _ (Nat.succ_le_succ hp) (Nat.succ_le_succ hq) a ha hb)).2

theorem Distinct.root_notin : ¬ IsTable child mem n c root := by
  rintro ⟨p, hp, hroot⟩
  rw [← follow_cons hc] at hroot
  have hlength : (i :: p).length ≤ n + 1 := Nat.succ_le_succ hp
  cases h [] (i :: p) (Nat.zero_le _) hlength root rfl hroot

/-- The subtrees of a table are disjoint. -/
theorem Distinct.apart {d : A} (hd : child (mem root j) = some d) (ha : IsTable child mem n c a)
    (hb : IsTable child mem n d a) : i = j := by
  obtain ⟨p, hp, ha⟩ := ha
  obtain ⟨q, hq, hb⟩ := hb
  rw [← follow_cons hc] at ha
  rw [← follow_cons hd] at hb
  exact (List.cons.inj (h _ _ (Nat.succ_le_succ hp) (Nat.succ_le_succ hq) a ha hb)).1

end Subtree

variable [DecidableEq A] [DecidableEq I]

/-- A store to an entry. -/
def store (mem : A → I → E) (a : A) (i : I) (e : E) : A → I → E :=
  Function.update mem a (Function.update (mem a) i e)

theorem store_of_ne (h : b ≠ a) : store mem a i e b = mem b := Function.update_of_ne h _ _

theorem store_self : store mem a i e a i = e := by
  rw [store, Function.update_self, Function.update_self]

theorem store_entry_of_ne (h : j ≠ i) : store mem a i e b j = mem b j := by
  by_cases hb : b = a
  · rw [store, hb, Function.update_self, Function.update_of_ne h]
  · rw [store_of_ne hb]

theorem store_other (h : ¬ (b = a ∧ j = i)) : store mem a i e b j = mem b j := by
  by_cases hj : j = i
  · rw [store_of_ne fun hb ↦ h ⟨hb, hj⟩]
  · exact store_entry_of_ne hj

section Leaf

variable (hdistinct : Distinct child mem n root) (hp : p.length = n)
  (ha : follow child mem root p = some a)

include hdistinct hp ha

/-- A store to the last level leaves the tables where they are. -/
theorem follow_store_leaf (hq : q.length ≤ n) :
    follow child (store mem a i e) root q = follow child mem root q := by
  apply follow_congr
  intro r hr b hb
  apply store_of_ne
  rintro rfl
  have heq : p = r := hdistinct p r hp.le (hr.le.trans hq) b ha hb
  rw [heq] at hp
  exact absurd (hr.trans_le hq) (hp ▸ lt_irrefl _)

theorem entry_store_leaf (hq : q.length = n) :
    entry child (store mem a i e) root q j =
      if q = p ∧ j = i then some e else entry child mem root q j := by
  rw [entry, follow_store_leaf hdistinct hp ha hq.le]
  split
  · rename_i heq
    rw [heq.1, heq.2, ha, Option.map_some, store_self]
  · rename_i hne
    rw [entry]
    refine Option.map_congr fun b hb ↦ ?_
    by_cases hj : j = i
    · apply congrFun
      apply store_of_ne
      rintro rfl
      exact hne ⟨hdistinct q p hq.le hp.le b hb ha, hj⟩
    · exact store_entry_of_ne hj

end Leaf

section Insert

variable (hdistinct : Distinct child mem n root) (hp : p.length < n)
  (ha : follow child mem root p = some a) (hi : child (mem a i) = none) (he : child e = some b)
  (hempty : ∀ j, child (mem b j) = none) (hfresh : ¬ IsTable child mem n root b)

include hdistinct hp ha hi he hempty hfresh

/-- An empty table is inserted. -/
theorem follow_insert (hq : q.length ≤ n) :
    follow child (store mem a i e) root q =
      if q = p ++ [i] then some b else follow child mem root q := by
  induction q using List.reverseRecOn with
  | nil =>
    rw [if_neg (by simp)]
    rfl
  | append_singleton q j ih =>
    have hlength : q.length < n := by
      rw [List.length_append] at hq
      exact hq
    have hba : b ≠ a := by
      rintro rfl
      exact hfresh ⟨p, hp.le, ha⟩
    rw [follow_snoc, ih hlength.le, follow_snoc]
    by_cases hqp : q = p ++ [i]
    · -- Below the new table there is nothing, as there was before.
      have hnone : follow child mem root (p ++ [i]) = none := by
        rw [follow_snoc, ha, Option.bind_some, hi]
      have hne : q ++ [j] ≠ p ++ [i] := by
        rw [hqp]
        simp
      rw [if_pos hqp, if_neg hne, Option.bind_some, store_of_ne hba, hempty, hqp, hnone]
      rfl
    · rw [if_neg hqp]
      cases hc : follow child mem root q with
      | none =>
        rw [if_neg]
        · rfl
        · intro heq
          rw [(List.append_inj' heq rfl).1, ha] at hc
          cases hc
      | some c =>
        rw [Option.bind_some, Option.bind_some]
        by_cases heq : q ++ [j] = p ++ [i]
        · obtain ⟨rfl, hj⟩ := List.append_inj' heq rfl
          obtain rfl : j = i := List.singleton_inj.mp hj
          rw [if_pos rfl, ← Option.some.inj (ha.symm.trans hc), store_self, he]
        · rw [if_neg heq]
          by_cases hca : c = a
          · have hqeq : q = p := hdistinct q p hlength.le hp.le c hc (hca ▸ ha)
            rw [store_entry_of_ne]
            rintro rfl
            exact heq (hqeq ▸ rfl)
          · rw [store_of_ne hca]

theorem isTable_insert {c : A} :
    IsTable child (store mem a i e) n root c ↔ IsTable child mem n root c ∨ c = b := by
  have hfollow {q : List I} := follow_insert hdistinct hp ha hi he hempty hfresh (q := q)
  constructor
  · rintro ⟨q, hq, hc⟩
    rw [hfollow hq] at hc
    split at hc
    · exact .inr (Option.some.inj hc).symm
    · exact .inl ⟨q, hq, hc⟩
  · rintro (⟨q, hq, hc⟩ | rfl)
    · refine ⟨q, hq, ?_⟩
      rw [hfollow hq, if_neg, hc]
      rintro rfl
      rw [follow_snoc, ha, Option.bind_some, hi] at hc
      cases hc
    · have hlength : (p ++ [i]).length ≤ n := by
        rw [List.length_append]
        exact hp
      exact ⟨p ++ [i], hlength, by rw [hfollow hlength, if_pos rfl]⟩

theorem distinct_insert : Distinct child (store mem a i e) n root := by
  have hfollow {q : List I} := follow_insert hdistinct hp ha hi he hempty hfresh (q := q)
  intro q r hq hr c hc hd
  rw [hfollow hq] at hc
  rw [hfollow hr] at hd
  by_cases hqp : q = p ++ [i]
  · rw [if_pos hqp] at hc
    by_cases hrp : r = p ++ [i]
    · rw [hqp, hrp]
    · rw [if_neg hrp, ← Option.some.inj hc] at hd
      exact absurd ⟨r, hr, hd⟩ hfresh
  · rw [if_neg hqp] at hc
    by_cases hrp : r = p ++ [i]
    · rw [if_pos hrp] at hd
      rw [← Option.some.inj hd] at hc
      exact absurd ⟨q, hq, hc⟩ hfresh
    · rw [if_neg hrp] at hd
      exact hdistinct q r hq hr c hc hd

/-- The entries of the last level are what they were, and those of the new table. -/
theorem entry_insert (hq : q.length = n) :
    entry child (store mem a i e) root q j =
      if q = p ++ [i] then some (mem b j) else entry child mem root q j := by
  have hba : b ≠ a := by
    rintro rfl
    exact hfresh ⟨p, hp.le, ha⟩
  rw [entry, follow_insert hdistinct hp ha hi he hempty hfresh hq.le]
  split
  · rw [Option.map_some, store_of_ne hba]
  · rw [entry]
    refine Option.map_congr fun c hc ↦ ?_
    apply congrFun
    apply store_of_ne
    rintro rfl
    have heq : q = p := hdistinct q p hq.le hp.le c hc ha
    rw [heq] at hq
    exact absurd hp hq.not_lt

end Insert

end Xv6.Lib.Radix
