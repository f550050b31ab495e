import Xv6.Cache.Bio

/-!
# Rings of Buffers and the Effect of Each Call

The links of the buffer cache form one ring through all buffers, from `binit` on, so the two loops
of `bget` see every buffer.  This gives one description of what each function of the cache returns
and changes.
-/

namespace Xv6.Cache

open Lib

variable {Pid : Type}

/-! ## The ring of all buffers -/

/-- The nodes of all buffers. -/
def allBufs : List Node := (List.finRange NBUF).map Node.buf

/-- The links form one ring through all buffers and the head. -/
def Bcache.Ringed (c : Bcache Pid) : Prop :=
  ∃ order, c.links.IsRing .head order ∧ order.Perm allBufs

theorem mem_allBufs (i : Fin NBUF) : Node.buf i ∈ allBufs :=
  List.mem_map.mpr ⟨i, List.mem_finRange i, rfl⟩

theorem length_allBufs : allBufs.length = NBUF := by
  simp [allBufs]

/-- Inserting buffers one after the other, as `binit` does. -/
theorem foldl_pushFront_isRing {links : Links Node} {l : List Node} (h : links.IsRing .head l)
    (bufs : List (Fin NBUF)) (hnodup : bufs.Nodup) (hnew : ∀ i ∈ bufs, Node.buf i ∉ l) :
    (bufs.foldl (fun links i ↦ links.pushFront .head (.buf i)) links).IsRing .head
      ((bufs.map Node.buf).reverse ++ l) := by
  induction bufs generalizing links l with
  | nil => simpa using h
  | cons i bufs ih =>
    obtain ⟨hi, hbufs⟩ := List.nodup_cons.mp hnodup
    have hfresh : Node.buf i ∉ Node.head :: l := by
      simpa using hnew i (by simp)
    have hrest : ∀ j ∈ bufs, Node.buf j ∉ Node.buf i :: l := by
      intro j hj hmem
      rcases List.mem_cons.mp hmem with heq | hmem
      · exact hi (Node.buf.inj heq ▸ hj)
      · exact hnew j (by simp [hj]) hmem
    simpa using ih (h.pushFront hfresh) hbufs hrest

theorem binit_ringed : (binit : Bcache Pid).Ringed := by
  have hempty : ({ next := fun _ ↦ .head, prev := fun _ ↦ .head } : Links Node).IsRing .head [] :=
    ⟨⟨rfl, rfl⟩, by simp⟩
  have hring := foldl_pushFront_isRing hempty (List.finRange NBUF) (List.nodup_finRange NBUF)
    (by simp)
  rw [List.append_nil] at hring
  exact ⟨_, hring, List.reverse_perm _⟩

/-- Moving a buffer to the front. -/
theorem Bcache.Ringed.moveFront {c : Bcache Pid} (h : c.Ringed) (i : Fin NBUF) :
    ({ c with links := (c.links.unlink (.buf i)).pushFront .head (.buf i) } : Bcache Pid).Ringed := by
  obtain ⟨order, hring, hperm⟩ := h
  obtain ⟨first, second, rfl⟩ := List.append_of_mem (hperm.mem_iff.mpr (mem_allBufs i))
  obtain ⟨hrest, hout⟩ := hring.unlink
  exact ⟨_, hrest.pushFront hout, List.perm_middle.symm.trans hperm⟩

/-! ## What each call does to the buffers -/

@[simp]
theorem set_buf_self (c : Bcache Pid) (i : Fin NBUF) (b : Buf Pid) : (c.set i b).buf i = b := by
  simp [Bcache.set]

theorem set_buf_of_ne (c : Bcache Pid) {i j : Fin NBUF} (b : Buf Pid) (hne : j ≠ i) :
    (c.set i b).buf j = c.buf j := by
  simp [Bcache.set, hne]

@[simp]
theorem set_links (c : Bcache Pid) (i : Fin NBUF) (b : Buf Pid) : (c.set i b).links = c.links := rfl

theorem Bcache.Ringed.set {c : Bcache Pid} (h : c.Ringed) (i : Fin NBUF) (b : Buf Pid) :
    (c.set i b).Ringed := h

/-- A buffer holds a block. -/
def Bcache.Holds (c : Bcache Pid) (i : Fin NBUF) (dev blockno : ℕ) : Prop :=
  (c.buf i).dev = dev ∧ (c.buf i).blockno = blockno

theorem holds_set_of_ne (c : Bcache Pid) {i j : Fin NBUF} (b : Buf Pid) (hne : j ≠ i)
    (dev blockno : ℕ) : (c.set i b).Holds j dev blockno ↔ c.Holds j dev blockno := by
  rw [Bcache.Holds, Bcache.Holds, set_buf_of_ne c b hne]

/-- The search for a block meets every buffer. -/
theorem find_caches {c : Bcache Pid} (h : c.Ringed) (dev blockno : ℕ) :
    match Links.find c.links.next .head (c.caches dev blockno) (NBUF + 1) (c.links.next .head) with
    | some (.buf i) => c.Holds i dev blockno
    | _ => ∀ i, ¬ c.Holds i dev blockno := by
  obtain ⟨order, hring, hperm⟩ := h
  have hlength : order.length < NBUF + 1 := by
    rw [hperm.length_eq, length_allBufs]
    omega
  rw [hring.find_next _ hlength]
  split
  · rename_i i hfind
    simpa [Bcache.caches, Bcache.Holds] using List.find?_some hfind
  · rename_i hnone
    intro i hi
    cases hfind : order.find? (c.caches dev blockno) with
    | none =>
      have := List.find?_eq_none.mp hfind (.buf i) (hperm.mem_iff.mpr (mem_allBufs i))
      exact this (by simpa [Bcache.caches, Bcache.Holds] using hi)
    | some node =>
      cases node with
      | head => simpa [Bcache.caches] using List.find?_some hfind
      | buf j => exact hnone j hfind

/-- The search for an unused buffer meets every buffer. -/
theorem find_unused {c : Bcache Pid} (h : c.Ringed) :
    match Links.find c.links.prev .head c.unused (NBUF + 1) (c.links.prev .head) with
    | some (.buf i) => (c.buf i).refcnt = 0
    | _ => ∀ i, (c.buf i).refcnt ≠ 0 := by
  obtain ⟨order, hring, hperm⟩ := h
  have hlength : order.length < NBUF + 1 := by
    rw [hperm.length_eq, length_allBufs]
    omega
  rw [hring.find_prev _ hlength]
  split
  · rename_i i hfind
    simpa [Bcache.unused] using List.find?_some hfind
  · rename_i hnone
    intro i hi
    cases hfind : order.reverse.find? c.unused with
    | none =>
      have hmem : Node.buf i ∈ order.reverse := by
        simpa using hperm.mem_iff.mpr (mem_allBufs i)
      exact List.find?_eq_none.mp hfind (.buf i) hmem (by simpa [Bcache.unused] using hi)
    | some node =>
      cases node with
      | head => simpa [Bcache.unused] using List.find?_some hfind
      | buf j => exact hnone j hfind

/-- What `bget` returns: the buffer that holds the block, or else a buffer not in use. -/
theorem bget_ok {c c' : Bcache Pid} (h : c.Ringed) {dev blockno : ℕ} {i : Fin NBUF}
    (hget : bget c dev blockno = .ok (c', i)) :
    (c.Holds i dev blockno ∧
        c' = c.set i { c.buf i with refcnt := increment (c.buf i).refcnt }) ∨
      ((∀ j, ¬ c.Holds j dev blockno) ∧ (c.buf i).refcnt = 0 ∧
        c' = c.set i { c.buf i with
          dev := dev, blockno := blockno, valid := false, refcnt := 1 }) := by
  have hcaches := find_caches h dev blockno
  have hunused := find_unused h
  unfold bget at hget
  split at hget
  · rename_i j hfind
    rw [hfind] at hcaches
    obtain ⟨rfl, rfl⟩ := Prod.mk.inj (Except.ok.inj hget)
    exact .inl ⟨hcaches, rfl⟩
  · rename_i hmiss
    have habsent : ∀ j, ¬ c.Holds j dev blockno := by
      split at hcaches
      · rename_i j hfind
        exact absurd hfind (hmiss j)
      · exact hcaches
    split at hget
    · rename_i j hfind
      rw [hfind] at hunused
      obtain ⟨rfl, rfl⟩ := Prod.mk.inj (Except.ok.inj hget)
      exact .inr ⟨habsent, hunused, rfl⟩
    · cases hget

/-- `bget` panics exactly when the block is not cached and every buffer is in use. -/
theorem bget_error_iff {c : Bcache Pid} (h : c.Ringed) {dev blockno : ℕ} {panic : Panic} :
    bget c dev blockno = .error panic ↔ panic = .bgetNoBuffers ∧
      ∀ i, ¬ c.Holds i dev blockno ∧ (c.buf i).refcnt ≠ 0 := by
  have hcaches := find_caches h dev blockno
  have hunused := find_unused h
  unfold bget
  split
  · rename_i i hfind
    rw [hfind] at hcaches
    exact ⟨by simp, fun hno ↦ absurd hcaches (hno.2 i).1⟩
  · rename_i hmiss
    have habsent : ∀ j, ¬ c.Holds j dev blockno := by
      split at hcaches
      · rename_i j hfind
        exact absurd hfind (hmiss j)
      · exact hcaches
    split
    · rename_i i hfind
      rw [hfind] at hunused
      exact ⟨by simp, fun hno ↦ absurd hunused (hno.2 i).2⟩
    · rename_i hfull
      have hall : ∀ j, (c.buf j).refcnt ≠ 0 := by
        split at hunused
        · rename_i j hfind
          exact absurd hfind (hfull j)
        · exact hunused
      constructor
      · intro heq
        exact ⟨(Except.error.inj heq).symm, fun j ↦ ⟨habsent j, hall j⟩⟩
      · rintro ⟨rfl, -⟩
        rfl

/-- What `brelse` does: the caller held the buffer, and the lock and one reference go. -/
theorem brelse_ok [DecidableEq Pid] {c c' : Bcache Pid} (h : c.Ringed) {p : Pid} {i : Fin NBUF}
    (hrelse : brelse c p i = .ok c') :
    (c.buf i).holder = some p ∧ c'.Ringed ∧
      c'.buf = (c.set i { c.buf i with
        holder := none, refcnt := decrement (c.buf i).refcnt }).buf := by
  unfold brelse at hrelse
  split at hrelse
  · rename_i hholder
    dsimp only at hrelse
    split at hrelse
    · obtain rfl := Except.ok.inj hrelse
      exact ⟨hholder, (h.set i _).moveFront i, rfl⟩
    · obtain rfl := Except.ok.inj hrelse
      exact ⟨hholder, h.set i _, rfl⟩
  · cases hrelse

end Xv6.Cache
