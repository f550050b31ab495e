import Xv6.Cache.Buffers

/-!
# The Buffer Cache Refines a Block Store

The invariant of the buffer cache under its documented protocol, and what follows from it for every
sequence of calls: the buffers form one ring, no two assigned buffers hold the same block, a buffer
in use keeps its block, and `bread` returns what was last stored for the block.
-/

namespace Xv6.Cache

open Lib

variable {Pid : Type}

/-! ## The invariant -/

/-- References to a buffer held by processes inside `bread` that wait for its lock. -/
def System.waiting (s : System Pid) (i : Fin NBUF) : ℕ := s.waiters.countP (·.i = i)

/-- A buffer is pinned or held. -/
def System.Kept (s : System Pid) (i : Fin NBUF) : Prop :=
  0 < s.pins i ∨ (s.cache.buf i).holder ≠ none

/-- What holds of each buffer, on device `dev` whose contents were `disk`. -/
structure BufInv (dev : ℕ) (disk : Device) (s : System Pid) (i : Fin NBUF) : Prop where
  /-- `refcnt` counts the pins, the waiting processes and the holder. -/
  refs : (s.cache.buf i).refcnt =
    s.pins i + s.waiting i + if (s.cache.buf i).holder = none then 0 else 1
  bounded : (s.cache.buf i).refcnt < 2 ^ 32
  /-- A buffer that is pinned or held has been read. -/
  kept : s.Kept i → (s.cache.buf i).valid = true
  /-- A buffer that has been read has the bytes last stored for its block. -/
  fresh : (s.cache.buf i).valid = true → (s.cache.buf i).dev = dev ∧
    (s.cache.buf i).data = lastStored disk s.events (s.cache.buf i).blockno

/-- Every `bread` returned the bytes last stored before it. -/
def Faithful (disk : Device) (events : List Event) : Prop :=
  ∀ before blockno data after, events = before ++ .returned blockno data :: after →
    data = lastStored disk before blockno

theorem Faithful.snoc {disk : Device} {events : List Event} (h : Faithful disk events)
    {event : Event} (hevent : ∀ blockno data, event = .returned blockno data →
      data = lastStored disk events blockno) : Faithful disk (events ++ [event]) := by
  intro before blockno data after heq
  rcases List.eq_nil_or_concat after with rfl | ⟨after, last, rfl⟩
  · obtain ⟨rfl, hlast⟩ := List.append_inj' heq rfl
    exact hevent blockno data (List.cons.inj hlast).1
  · rw [List.concat_eq_append, ← List.cons_append, ← List.append_assoc] at heq
    exact h before blockno data after (List.append_inj' heq rfl).1

/-- The invariant of the cache and its callers. -/
structure Inv (dev : ℕ) (disk : Device) (s : System Pid) : Prop where
  ringed : s.cache.Ringed
  buf : ∀ i, BufInv dev disk s i
  /-- A block is held by at most one buffer. -/
  unique : ∀ i j blockno, s.cache.Holds i dev blockno → s.cache.Holds j dev blockno → i = j
  /-- Buffers that never held a block carry device 0. -/
  assigned : ∀ i, (s.cache.buf i).dev = 0 ∨ (s.cache.buf i).dev = dev
  /-- A waiting process has a reference to the buffer of the block it asked for. -/
  asked : ∀ w ∈ s.waiters, s.cache.Holds w.i dev w.blockno
  /-- A block whose last bytes are not on disk is in a buffer that is pinned or held. -/
  dirty : ∀ blockno, s.disk blockno ≠ lastStored disk s.events blockno →
    ∃ i, s.cache.Holds i dev blockno ∧ s.Kept i
  returned : Faithful disk s.events

theorem lastStored_returned (disk : Device) (events : List Event) (blockno : ℕ) (data : Block) :
    lastStored disk (events ++ [.returned blockno data]) = lastStored disk events := by
  simp [lastStored]

theorem lastStored_stored (disk : Device) (events : List Event) (blockno : ℕ) (data : Block) :
    lastStored disk (events ++ [.stored blockno data]) =
      Function.update (lastStored disk events) blockno data := by
  simp [lastStored]

theorem inv_boot {dev : ℕ} (hdev : dev ≠ 0) (disk : Device) :
    Inv dev disk (boot disk : System Pid) where
  ringed := binit_ringed
  buf i :=
    { refs := rfl
      bounded := by simp [boot, binit]
      kept := by simp [System.Kept, boot, binit]
      fresh := by simp [boot, binit] }
  unique i j blockno hi _ := absurd hi.1.symm hdev
  assigned i := .inl rfl
  asked w hw := by cases hw
  dirty blockno hne := absurd rfl hne
  returned before blockno data after heq := by simp [boot] at heq

/-! ## Steps that concern one buffer -/

/-- From `s` to `s'` only buffer `i` changes, which keeps its block, and only that block changes on
disk and in the store. -/
structure Concerns (disk : Device) (s s' : System Pid) (i : Fin NBUF) : Prop where
  ringed : s'.cache.Ringed
  key : ∀ dev blockno, s'.cache.Holds i dev blockno ↔ s.cache.Holds i dev blockno
  buf : ∀ j, j ≠ i → s'.cache.buf j = s.cache.buf j
  pins : ∀ j, j ≠ i → s'.pins j = s.pins j
  waiting : ∀ j, j ≠ i → s'.waiting j = s.waiting j
  onDisk : ∀ blockno, blockno ≠ (s.cache.buf i).blockno → s'.disk blockno = s.disk blockno
  store : ∀ blockno, blockno ≠ (s.cache.buf i).blockno →
    lastStored disk s'.events blockno = lastStored disk s.events blockno

section Concerns

variable {dev : ℕ} {disk : Device} {s s' : System Pid} {i : Fin NBUF}

theorem Concerns.holds_iff (hc : Concerns disk s s' i) (j : Fin NBUF) (d blockno : ℕ) :
    s'.cache.Holds j d blockno ↔ s.cache.Holds j d blockno := by
  by_cases hj : j = i
  · exact hj ▸ hc.key d blockno
  · rw [Bcache.Holds, Bcache.Holds, hc.buf j hj]

theorem Concerns.kept_iff (hc : Concerns disk s s' i) {j : Fin NBUF} (hj : j ≠ i) :
    s'.Kept j ↔ s.Kept j := by
  rw [System.Kept, System.Kept, hc.buf j hj, hc.pins j hj]

/-- The other buffers keep their part of the invariant: they hold other blocks. -/
theorem Concerns.bufInv (hc : Concerns disk s s' i) (h : Inv dev disk s)
    (hdev : (s.cache.buf i).dev = dev) {j : Fin NBUF} (hj : j ≠ i) : BufInv dev disk s' j where
  refs := by rw [hc.buf j hj, hc.pins j hj, hc.waiting j hj, (h.buf j).refs]
  bounded := by rw [hc.buf j hj]; exact (h.buf j).bounded
  kept := by rw [hc.buf j hj, hc.kept_iff hj]; exact (h.buf j).kept
  fresh := by
    rw [hc.buf j hj]
    intro hvalid
    obtain ⟨hdevj, hdata⟩ := (h.buf j).fresh hvalid
    have hother : (s.cache.buf j).blockno ≠ (s.cache.buf i).blockno := by
      intro heq
      exact hj (h.unique j i _ ⟨hdevj, heq⟩ ⟨hdev, rfl⟩)
    exact ⟨hdevj, by rw [hc.store _ hother, hdata]⟩

/-- A step that concerns one buffer keeps the invariant if it keeps it there. -/
theorem Concerns.inv (hc : Concerns disk s s' i) (h : Inv dev disk s)
    (hdev : (s.cache.buf i).dev = dev) (hbuf : BufInv dev disk s' i)
    (hasked : ∀ w ∈ s'.waiters, w ∈ s.waiters ∨ s.cache.Holds w.i dev w.blockno)
    (hdirty : s'.disk (s.cache.buf i).blockno ≠
      lastStored disk s'.events (s.cache.buf i).blockno → s'.Kept i)
    (hreturned : Faithful disk s'.events) : Inv dev disk s' where
  ringed := hc.ringed
  buf j := by
    by_cases hj : j = i
    · exact hj ▸ hbuf
    · exact hc.bufInv h hdev hj
  unique j k blockno hj hk :=
    h.unique j k blockno ((hc.holds_iff j dev blockno).mp hj) ((hc.holds_iff k dev blockno).mp hk)
  assigned j := by
    rcases h.assigned j with h0 | hd
    · exact .inl ((hc.holds_iff j 0 _).mpr ⟨h0, rfl⟩).1
    · exact .inr ((hc.holds_iff j dev _).mpr ⟨hd, rfl⟩).1
  asked w hw := by
    rw [hc.holds_iff]
    rcases hasked w hw with hold | hnew
    · exact h.asked w hold
    · exact hnew
  dirty blockno hne := by
    by_cases hb : blockno = (s.cache.buf i).blockno
    · subst hb
      exact ⟨i, (hc.key dev _).mpr ⟨hdev, rfl⟩, hdirty hne⟩
    · rw [hc.onDisk _ hb, hc.store _ hb] at hne
      obtain ⟨j, hholds, hkept⟩ := h.dirty blockno hne
      have hj : j ≠ i := fun heq ↦ hb (heq ▸ hholds.2).symm
      exact ⟨j, (hc.holds_iff j dev blockno).mpr hholds, (hc.kept_iff hj).mpr hkept⟩
  returned := hreturned

/-- Changing one buffer, other than its block, and nothing else that the invariant of the other
buffers speaks of. -/
theorem concerns_of_set {b : Buf Pid} (hringed : s'.cache.Ringed)
    (hbuf : s'.cache.buf = (s.cache.set i b).buf) (hdev : b.dev = (s.cache.buf i).dev)
    (hblockno : b.blockno = (s.cache.buf i).blockno)
    (hpins : ∀ j, j ≠ i → s'.pins j = s.pins j)
    (hwaiting : ∀ j, j ≠ i → s'.waiting j = s.waiting j) (hdisk : s'.disk = s.disk)
    (hstore : ∀ blockno, blockno ≠ (s.cache.buf i).blockno →
      lastStored disk s'.events blockno = lastStored disk s.events blockno) :
    Concerns disk s s' i where
  ringed := hringed
  key d blockno := by simp [Bcache.Holds, hbuf, hdev, hblockno]
  buf j hj := by rw [hbuf, set_buf_of_ne _ _ hj]
  pins := hpins
  waiting := hwaiting
  onDisk _ _ := by rw [hdisk]
  store := hstore

end Concerns

/-! ## The calls -/

section Calls

variable {dev : ℕ} {disk : Device} {s s' : System Pid} {i : Fin NBUF}

theorem increment_eq {refcnt : ℕ} (h : refcnt + 1 < 2 ^ 32) : increment refcnt = refcnt + 1 :=
  Nat.mod_eq_of_lt h

theorem decrement_eq {refcnt : ℕ} (hpos : 0 < refcnt) (h : refcnt < 2 ^ 32) :
    decrement refcnt = refcnt - 1 := by
  unfold decrement
  omega

theorem waiting_erase [DecidableEq Pid] {w : Waiter Pid} (hw : w ∈ s.waiters) (j : Fin NBUF) :
    s.waiting j = (s.waiters.erase w).countP (·.i = j) + if w.i = j then 1 else 0 := by
  rw [System.waiting, (List.perm_cons_erase hw).countP_eq]
  simp [List.countP_cons]

/-- A buffer that is pinned or held has a block of the device. -/
theorem Inv.dev_of_kept (h : Inv dev disk s) (hkept : s.Kept i) : (s.cache.buf i).dev = dev :=
  ((h.buf i).fresh ((h.buf i).kept hkept)).1

theorem Inv.kept_of_dirty (h : Inv dev disk s) (hdev : (s.cache.buf i).dev = dev)
    (hne : s.disk (s.cache.buf i).blockno ≠
      lastStored disk s.events (s.cache.buf i).blockno) : s.Kept i := by
  obtain ⟨j, hholds, hkept⟩ := h.dirty _ hne
  exact h.unique j i _ hholds ⟨hdev, rfl⟩ ▸ hkept

/-- `bread` of a block that a buffer holds. -/
theorem Inv.hit (h : Inv dev disk s) {p : Pid} {blockno : ℕ}
    (hholds : s.cache.Holds i dev blockno) (hroom : (s.cache.buf i).refcnt + 1 < 2 ^ 32) :
    Inv dev disk { s with
      cache := s.cache.set i { s.cache.buf i with refcnt := increment (s.cache.buf i).refcnt }
      waiters := { p := p, blockno := blockno, i := i } :: s.waiters } := by
  have hbuf := h.buf i
  refine Concerns.inv (concerns_of_set (h.ringed.set i _) rfl rfl rfl (fun _ _ ↦ rfl) ?_ rfl
    (fun _ _ ↦ rfl)) h hholds.1 ?_ ?_ ?_ h.returned
  · intro j hj
    simpa [System.waiting, List.countP_cons] using hj.symm
  · constructor
    · have hrefs := hbuf.refs
      simp only [System.waiting, set_buf_self, increment_eq hroom, List.countP_cons, decide_true,
        if_true] at hrefs ⊢
      omega
    · simpa [increment_eq hroom] using hroom
    · simpa [System.Kept] using hbuf.kept
    · simpa using hbuf.fresh
  · intro w hw
    rcases List.mem_cons.mp hw with rfl | hw
    · exact .inr hholds
    · exact .inl hw
  · intro hne
    simpa [System.Kept] using h.kept_of_dirty hholds.1 hne

/-- `bread` of a block that no buffer holds: a buffer without references takes it. -/
theorem Inv.miss (h : Inv dev disk s) {p : Pid} {blockno : ℕ}
    (habsent : ∀ j, ¬ s.cache.Holds j dev blockno) (hunused : (s.cache.buf i).refcnt = 0) :
    Inv dev disk { s with
      cache := s.cache.set i { s.cache.buf i with
        dev := dev, blockno := blockno, valid := false, refcnt := 1 }
      waiters := { p := p, blockno := blockno, i := i } :: s.waiters } := by
  have hrefs := (h.buf i).refs
  have hfree : s.pins i = 0 ∧ s.waiting i = 0 ∧ (s.cache.buf i).holder = none := by
    rw [hunused] at hrefs
    refine ⟨by omega, by omega, ?_⟩
    by_contra hheld
    rw [if_neg hheld] at hrefs
    omega
  obtain ⟨hpins, hwaiting, hholder⟩ := hfree
  have hidle : ¬ s.Kept i := by simp [System.Kept, hpins, hholder]
  constructor
  case ringed => exact h.ringed.set i _
  case buf =>
    intro j
    by_cases hj : j = i
    · subst hj
      constructor
      · simp only [System.waiting, set_buf_self, List.countP_cons, decide_true, if_true] at hwaiting ⊢
        simp [hpins, hwaiting, hholder]
      · simp
      · simp [System.Kept, hpins, hholder]
      · simp
    · have hbuf := h.buf j
      constructor
      · simpa [System.waiting, set_buf_of_ne _ _ hj, List.countP_cons, Ne.symm hj] using hbuf.refs
      · simpa [set_buf_of_ne _ _ hj] using hbuf.bounded
      · simpa [System.Kept, set_buf_of_ne _ _ hj] using hbuf.kept
      · simpa [set_buf_of_ne _ _ hj] using hbuf.fresh
  case unique =>
    intro j k b hj hk
    by_cases hji : j = i <;> by_cases hki : k = i
    · rw [hji, hki]
    · have hb : b = blockno := by simpa [hji, Bcache.Holds] using hj.2.symm
      exact absurd ((holds_set_of_ne _ _ hki _ _).mp hk) (hb ▸ habsent k)
    · have hb : b = blockno := by simpa [hki, Bcache.Holds] using hk.2.symm
      exact absurd ((holds_set_of_ne _ _ hji _ _).mp hj) (hb ▸ habsent j)
    · exact h.unique j k b ((holds_set_of_ne _ _ hji _ _).mp hj)
        ((holds_set_of_ne _ _ hki _ _).mp hk)
  case assigned =>
    intro j
    by_cases hj : j = i
    · simp [hj]
    · simpa [set_buf_of_ne _ _ hj] using h.assigned j
  case asked =>
    intro w hw
    rcases List.mem_cons.mp hw with rfl | hw
    · simp [Bcache.Holds]
    · have hne : w.i ≠ i := by
        intro heq
        refine List.countP_eq_zero.mp hwaiting w hw ?_
        simpa using heq
      exact (holds_set_of_ne _ _ hne _ _).mpr (h.asked w hw)
  case dirty =>
    intro b hb
    obtain ⟨j, hholds, hkept⟩ := h.dirty b hb
    have hj : j ≠ i := fun heq ↦ hidle (heq ▸ hkept)
    refine ⟨j, (holds_set_of_ne _ _ hj _ _).mpr hholds, ?_⟩
    simpa [System.Kept, set_buf_of_ne _ _ hj] using hkept
  case returned => exact h.returned

/-- The second half of `bread`: a buffer that had not been read gets its block from disk, which no
other buffer has newer bytes for. -/
theorem Inv.locked [DecidableEq Pid] (h : Inv dev disk s) {w : Waiter Pid} (hw : w ∈ s.waiters)
    (hfree : (s.cache.buf w.i).holder = none) :
    Inv dev disk { s with
      cache := breadLocked s.cache s.disk w.p w.i
      waiters := s.waiters.erase w
      events := s.events ++
        [.returned w.blockno ((breadLocked s.cache s.disk w.p w.i).buf w.i).data] } := by
  obtain ⟨hdev, hblockno⟩ := h.asked w hw
  have hbuf := h.buf w.i
  set b := (breadLocked s.cache s.disk w.p w.i).buf w.i with hb
  have hset : breadLocked s.cache s.disk w.p w.i = s.cache.set w.i b := by
    simp [hb, breadLocked]
  have hkey : b.dev = (s.cache.buf w.i).dev ∧ b.blockno = (s.cache.buf w.i).blockno ∧
      b.holder = some w.p ∧ b.refcnt = (s.cache.buf w.i).refcnt ∧ b.valid = true := by
    simp only [hb, breadLocked, set_buf_self]
    split
    · rename_i hvalid
      exact ⟨rfl, rfl, rfl, rfl, hvalid⟩
    · exact ⟨rfl, rfl, rfl, rfl, rfl⟩
  have hdata : b.data = lastStored disk s.events (s.cache.buf w.i).blockno := by
    simp only [hb, breadLocked, set_buf_self]
    split
    · rename_i hvalid
      exact (hbuf.fresh hvalid).2
    · rename_i hvalid
      by_contra hne
      exact hvalid (hbuf.kept (h.kept_of_dirty hdev hne))
  obtain ⟨hbdev, hbblockno, hbholder, hbrefcnt, hbvalid⟩ := hkey
  refine Concerns.inv (concerns_of_set (hset ▸ h.ringed.set w.i b) (by rw [hset]) hbdev hbblockno
    (fun _ _ ↦ rfl) ?_ rfl ?_) h hdev ?_ ?_ ?_ ?_
  · intro j hj
    rw [waiting_erase hw j, if_neg hj.symm]
    rfl
  · intro blockno _
    rw [lastStored_returned]
  · constructor
    · have hrefs := hbuf.refs
      rw [waiting_erase hw w.i, if_pos rfl, if_pos hfree] at hrefs
      simp only [hset, set_buf_self, hbholder, hbrefcnt, System.waiting, hrefs, reduceCtorEq,
        if_false]
      omega
    · simpa [hset, hbrefcnt] using hbuf.bounded
    · simp [hset, hbvalid]
    · simp [hset, hbdev, hdev, hdata, hbblockno, lastStored_returned]
  · intro w' hw'
    exact .inl (List.mem_of_mem_erase hw')
  · intro _
    simp [System.Kept, hset, hbholder]
  · refine h.returned.snoc ?_
    rintro blockno data heq
    obtain ⟨rfl, rfl⟩ := Event.returned.inj heq
    rw [hdata, hblockno]

/-- The holder stores bytes. -/
theorem Inv.modify (h : Inv dev disk s) {p : Pid} (hholder : (s.cache.buf i).holder = some p)
    (data : Block) :
    Inv dev disk { s with
      cache := s.cache.set i { s.cache.buf i with data := data }
      events := s.events ++ [.stored (s.cache.buf i).blockno data] } := by
  have hbuf := h.buf i
  have hkept : s.Kept i := .inr (by simp [hholder])
  have hdev := h.dev_of_kept hkept
  refine Concerns.inv (concerns_of_set (h.ringed.set i _) rfl rfl rfl (fun _ _ ↦ rfl)
    (fun _ _ ↦ rfl) rfl ?_) h hdev ?_ (fun _ hw ↦ .inl hw) ?_ ?_
  · intro blockno hne
    rw [lastStored_stored, Function.update_of_ne hne]
  · constructor
    · simpa [System.waiting] using hbuf.refs
    · simpa using hbuf.bounded
    · simpa [System.Kept] using hbuf.kept
    · simp [hdev, lastStored_stored]
  · intro _
    simpa [System.Kept] using hkept
  · exact h.returned.snoc nofun

/-- `bwrite`: the block on disk gets the bytes of its buffer, which are the last stored. -/
theorem Inv.bwrite (h : Inv dev disk s) {p : Pid} (hholder : (s.cache.buf i).holder = some p) :
    Inv dev disk { s with
      disk := Function.update s.disk (s.cache.buf i).blockno (s.cache.buf i).data } := by
  have hkept : s.Kept i := .inr (by simp [hholder])
  have hdev := h.dev_of_kept hkept
  have hc : Concerns disk s { s with
      disk := Function.update s.disk (s.cache.buf i).blockno (s.cache.buf i).data } i :=
    { ringed := h.ringed
      key := fun _ _ ↦ Iff.rfl
      buf := fun _ _ ↦ rfl
      pins := fun _ _ ↦ rfl
      waiting := fun _ _ ↦ rfl
      onDisk := fun _ hne ↦ Function.update_of_ne hne _ _
      store := fun _ _ ↦ rfl }
  have hbuf := h.buf i
  exact hc.inv h hdev ⟨hbuf.refs, hbuf.bounded, hbuf.kept, hbuf.fresh⟩ (fun _ hw ↦ .inl hw)
    (fun _ ↦ hkept) h.returned

/-- `brelse`: a buffer whose bytes are not on disk is still pinned. -/
theorem Inv.brelse (h : Inv dev disk s) {p : Pid} {c : Bcache Pid}
    (hholder : (s.cache.buf i).holder = some p) (hwritten : s.written i ∨ 0 < s.pins i)
    (hringed : c.Ringed)
    (hc : c.buf = (s.cache.set i { s.cache.buf i with
      holder := none, refcnt := decrement (s.cache.buf i).refcnt }).buf) :
    Inv dev disk { s with cache := c } := by
  have hbuf := h.buf i
  have hkept : s.Kept i := .inr (by simp [hholder])
  have hvalid := hbuf.kept hkept
  have hrefs := hbuf.refs
  rw [if_neg (by simp [hholder])] at hrefs
  have hdecrement := decrement_eq (by omega) hbuf.bounded
  refine Concerns.inv (concerns_of_set hringed hc rfl rfl (fun _ _ ↦ rfl) (fun _ _ ↦ rfl) rfl
    (fun _ _ ↦ rfl)) h (h.dev_of_kept hkept) ?_ (fun _ hw ↦ .inl hw) ?_ h.returned
  · constructor
    · simp only [hc, set_buf_self, hdecrement, if_true]
      exact (by omega : (s.cache.buf i).refcnt - 1 = s.pins i + s.waiting i + 0)
    · have := hbuf.bounded
      simp only [hc, set_buf_self, hdecrement]
      omega
    · simp [hc, hvalid]
    · simpa [hc] using hbuf.fresh
  · intro hne
    rcases hwritten with hwritten | hpins
    · exact absurd (hwritten.symm.trans (hbuf.fresh hvalid).2) hne
    · exact .inl hpins

/-- `bpin`. -/
theorem Inv.bpin (h : Inv dev disk s) {p : Pid} (hholder : (s.cache.buf i).holder = some p)
    (hroom : (s.cache.buf i).refcnt + 1 < 2 ^ 32) :
    Inv dev disk { s with
      cache := bpin s.cache i
      pins := Function.update s.pins i (s.pins i + 1) } := by
  have hbuf := h.buf i
  have hkept : s.Kept i := .inr (by simp [hholder])
  have hrefs := hbuf.refs
  refine Concerns.inv (concerns_of_set (h.ringed.set i _) rfl rfl rfl
    (fun _ hj ↦ Function.update_of_ne hj _ _) (fun _ _ ↦ rfl) rfl (fun _ _ ↦ rfl)) h
    (h.dev_of_kept hkept) ?_ (fun _ hw ↦ .inl hw) ?_ h.returned
  · constructor
    · simp only [Cache.bpin, System.waiting, set_buf_self, increment_eq hroom,
        Function.update_self] at hrefs ⊢
      omega
    · simpa [Cache.bpin, increment_eq hroom] using hroom
    · simp [Cache.bpin, hbuf.kept hkept]
    · simpa [Cache.bpin] using hbuf.fresh
  · intro _
    simp [System.Kept]

/-- `bunpin`: a buffer whose bytes are not on disk is still pinned or held. -/
theorem Inv.bunpin (h : Inv dev disk s) (hpinned : 0 < s.pins i)
    (hwritten : s.written i ∨ 1 < s.pins i ∨ (s.cache.buf i).holder ≠ none) :
    Inv dev disk { s with
      cache := bunpin s.cache i
      pins := Function.update s.pins i (s.pins i - 1) } := by
  have hbuf := h.buf i
  have hvalid := hbuf.kept (.inl hpinned)
  have hrefs := hbuf.refs
  have hdecrement := decrement_eq (by omega) hbuf.bounded
  refine Concerns.inv (concerns_of_set (h.ringed.set i _) rfl rfl rfl
    (fun _ hj ↦ Function.update_of_ne hj _ _) (fun _ _ ↦ rfl) rfl (fun _ _ ↦ rfl)) h
    (h.dev_of_kept (.inl hpinned)) ?_ (fun _ hw ↦ .inl hw) ?_ h.returned
  · constructor
    · simp only [Cache.bunpin, System.waiting, set_buf_self, hdecrement,
        Function.update_self] at hrefs ⊢
      omega
    · have := hbuf.bounded
      simp only [Cache.bunpin, set_buf_self, hdecrement]
      omega
    · simp [Cache.bunpin, hvalid]
    · simpa [Cache.bunpin] using hbuf.fresh
  · intro hne
    rcases hwritten with hwritten | hpins | hheld
    · exact absurd (hwritten.symm.trans (hbuf.fresh hvalid).2) hne
    · exact .inl (by simp only [Function.update_self]; omega)
    · exact .inr (by simpa [Cache.bunpin] using hheld)

end Calls

/-! ## Runs -/

section Runs

variable [DecidableEq Pid] {dev : ℕ} {disk : Device}

/-- Every call that follows the protocol keeps the invariant. -/
theorem inv_step {s s' : System Pid} {action : Action Pid} (h : Inv dev disk s)
    (hfollows : Follows dev s action) (hstep : step s action = .ok s') : Inv dev disk s' := by
  cases action with
  | bread p d blockno =>
    obtain ⟨rfl, hroom⟩ := hfollows
    simp only [step] at hstep
    split at hstep
    · rename_i c i hget
      obtain rfl := Except.ok.inj hstep
      rcases bget_ok h.ringed hget with ⟨hholds, rfl⟩ | ⟨habsent, hunused, rfl⟩
      · exact h.hit hholds (hroom i)
      · exact h.miss habsent hunused
    · cases hstep
  | locked w =>
    simp only [step] at hstep
    split at hstep
    · rename_i hw
      obtain rfl := Except.ok.inj hstep
      exact h.locked hw.1 hw.2
    · cases hstep
  | modify p i data =>
    obtain rfl := Except.ok.inj hstep
    exact h.modify hfollows data
  | bwrite p i =>
    simp only [step, bwrite, if_pos (show (s.cache.buf i).holder = some p from hfollows)] at hstep
    obtain rfl := Except.ok.inj hstep
    exact h.bwrite hfollows
  | brelse p i =>
    simp only [step] at hstep
    split at hstep
    · rename_i c hrelse
      obtain rfl := Except.ok.inj hstep
      obtain ⟨hholder, hringed, hc⟩ := brelse_ok h.ringed hrelse
      exact h.brelse hholder hfollows.2 hringed hc
    · cases hstep
  | bpin p i =>
    obtain rfl := Except.ok.inj hstep
    exact h.bpin hfollows.1 hfollows.2
  | bunpin p i =>
    obtain rfl := Except.ok.inj hstep
    exact h.bunpin hfollows.1 hfollows.2

theorem inv_of_reaches (hdev : dev ≠ 0) {actions : List (Action Pid)} {s : System Pid}
    (h : Reaches dev disk actions s) : Inv dev disk s := by
  induction h with
  | boot => exact inv_boot hdev disk
  | call _ hfollows hstep ih => exact inv_step ih hfollows hstep

/-- A call changes the block of a buffer, or forgets its bytes, only if nothing refers to it. -/
theorem step_keeps_block {s s' : System Pid} {action : Action Pid} (hringed : s.cache.Ringed)
    (hstep : step s action = .ok s') {i : Fin NBUF} (hrefcnt : 0 < (s.cache.buf i).refcnt) :
    s'.cache.Holds i (s.cache.buf i).dev (s.cache.buf i).blockno ∧
      ((s.cache.buf i).valid = true → (s'.cache.buf i).valid = true) := by
  -- A change to a buffer that keeps its block and its `valid` flag.
  have hset : ∀ (j : Fin NBUF) (b : Buf Pid), b.dev = (s.cache.buf j).dev →
      b.blockno = (s.cache.buf j).blockno →
      ((s.cache.buf j).valid = true → b.valid = true) →
      (s.cache.set j b).Holds i (s.cache.buf i).dev (s.cache.buf i).blockno ∧
        ((s.cache.buf i).valid = true → ((s.cache.set j b).buf i).valid = true) := by
    intro j b hdev hblockno hvalid
    by_cases hij : i = j
    · subst hij
      simpa [Bcache.Holds, hdev, hblockno] using hvalid
    · simp [Bcache.Holds, set_buf_of_ne _ _ hij]
  cases action with
  | bread p d blockno =>
    simp only [step] at hstep
    split at hstep
    · rename_i c j hget
      obtain rfl := Except.ok.inj hstep
      rcases bget_ok hringed hget with ⟨-, rfl⟩ | ⟨-, hunused, rfl⟩
      · exact hset j _ rfl rfl id
      · have hij : i ≠ j := by
          rintro rfl
          omega
        simp [Bcache.Holds, set_buf_of_ne _ _ hij]
    · cases hstep
  | locked w =>
    simp only [step] at hstep
    split at hstep
    · obtain rfl := Except.ok.inj hstep
      refine hset w.i _ ?_ ?_ ?_ <;> split <;> simp_all
    · cases hstep
  | modify p j data =>
    obtain rfl := Except.ok.inj hstep
    exact hset j _ rfl rfl id
  | bwrite p j =>
    simp only [step] at hstep
    split at hstep
    · obtain rfl := Except.ok.inj hstep
      exact ⟨⟨rfl, rfl⟩, id⟩
    · cases hstep
  | brelse p j =>
    simp only [step] at hstep
    split at hstep
    · rename_i c hrelse
      obtain rfl := Except.ok.inj hstep
      obtain ⟨-, -, hc⟩ := brelse_ok hringed hrelse
      rw [Bcache.Holds, hc]
      exact hset j _ rfl rfl id
    · cases hstep
  | bpin p j =>
    obtain rfl := Except.ok.inj hstep
    exact hset j _ rfl rfl id
  | bunpin p j =>
    obtain rfl := Except.ok.inj hstep
    exact hset j _ rfl rfl id

/-- After `binit` all buffers carry the same device and block number: device 0, block 0. -/
theorem boot_same_key : ∃ s : System ℕ, Reaches 1 (fun _ ↦ .fill 0) [] s ∧
    (s.cache.buf ⟨0, by decide⟩).dev = (s.cache.buf ⟨1, by decide⟩).dev ∧
    (s.cache.buf ⟨0, by decide⟩).blockno = (s.cache.buf ⟨1, by decide⟩).blockno :=
  ⟨boot (fun _ ↦ .fill 0), .boot, rfl, rfl⟩

/-- The buffer cache refines an array of blocks.  After every sequence of calls that follows the
protocol on a device other than 0: the buffers and the head form one ring; two buffers that have
been given a block have different ones; no call recycles a buffer with references; `bread` panics
only if the block is in no buffer and every buffer is in use; and every `bread` returned the bytes
last stored for its block. -/
theorem bcache_refines_store (hdev : dev ≠ 0) {actions : List (Action Pid)} {s : System Pid}
    (h : Reaches dev disk actions s) :
    (∃ order, s.cache.links.IsRing .head order ∧
      order.Perm ((List.finRange NBUF).map Node.buf)) ∧
    (∀ i j, i ≠ j → (s.cache.buf i).dev ≠ 0 →
      ((s.cache.buf i).dev, (s.cache.buf i).blockno) ≠
        ((s.cache.buf j).dev, (s.cache.buf j).blockno)) ∧
    (∀ action s', step s action = .ok s' → ∀ i, 0 < (s.cache.buf i).refcnt →
      (s'.cache.buf i).dev = (s.cache.buf i).dev ∧
        (s'.cache.buf i).blockno = (s.cache.buf i).blockno ∧
        ((s.cache.buf i).valid = true → (s'.cache.buf i).valid = true)) ∧
    (∀ p blockno, (∃ s', step s (.bread p dev blockno) = .ok s') ∨
      step s (.bread p dev blockno) = .error (.panic .bgetNoBuffers) ∧
        ∀ i, 0 < (s.cache.buf i).refcnt ∧
          ((s.cache.buf i).dev, (s.cache.buf i).blockno) ≠ (dev, blockno)) ∧
    (∀ before blockno data after, s.events = before ++ .returned blockno data :: after →
      data = lastStored disk before blockno) := by
  have hinv := inv_of_reaches hdev h
  refine ⟨hinv.ringed, ?_, ?_, ?_, hinv.returned⟩
  · intro i j hij hne heq
    obtain ⟨hdev', hblockno⟩ := Prod.mk.inj heq
    have hi := (hinv.assigned i).resolve_left hne
    exact hij (hinv.unique i j _ ⟨hi, rfl⟩ ⟨hdev' ▸ hi, hblockno.symm⟩)
  · intro action s' hstep i hrefcnt
    obtain ⟨⟨hd, hb⟩, hvalid⟩ := step_keeps_block hinv.ringed hstep hrefcnt
    exact ⟨hd, hb, hvalid⟩
  · intro p blockno
    cases hget : bget s.cache dev blockno with
    | ok result => exact .inl ⟨_, by simp only [step, hget]; rfl⟩
    | error panic =>
      obtain ⟨rfl, hall⟩ := (bget_error_iff hinv.ringed).mp hget
      refine .inr ⟨by simp only [step, hget], fun i ↦ ⟨Nat.pos_of_ne_zero (hall i).2, ?_⟩⟩
      intro heq
      exact (hall i).1 ⟨(Prod.mk.inj heq).1, (Prod.mk.inj heq).2⟩

/-- Process 0 reads block 5 of device 1 after `binit` and gets the bytes on disk. -/
theorem bcache_refines_store_first_read : ∃ (i : Fin NBUF) (s : System ℕ) (data : Block),
    (1 ≠ 0 ∧ Reaches 1 (fun _ ↦ .fill 7) [.bread 0 1 5, .locked { p := 0, blockno := 5, i := i }] s) ∧
      s.events = [.returned 5 data] ∧ data = lastStored (fun _ ↦ .fill 7) [] 5 := by
  have hget : ∃ c i, bget (binit : Bcache ℕ) 1 5 = .ok (c, i) := by
    cases hget : bget (binit : Bcache ℕ) 1 5 with
    | ok result => exact ⟨result.1, result.2, rfl⟩
    | error panic =>
      obtain ⟨-, hall⟩ := (bget_error_iff binit_ringed).mp hget
      exact absurd rfl (hall ⟨0, by decide⟩).2
  obtain ⟨c, i, hget⟩ := hget
  have hfree : (c.buf i).holder = none := by
    rcases bget_ok binit_ringed hget with ⟨-, rfl⟩ | ⟨-, -, rfl⟩ <;> simp [binit]
  let w : Waiter ℕ := { p := 0, blockno := 5, i := i }
  let s₁ : System ℕ := { (boot (fun _ ↦ .fill 7) : System ℕ) with cache := c, waiters := [w] }
  have hs₁ : Reaches 1 (fun _ ↦ .fill 7) [.bread 0 1 5] s₁ := by
    change Reaches 1 _ ([] ++ [.bread 0 1 5]) s₁
    refine Reaches.call .boot ⟨rfl, fun j ↦ ?_⟩ ?_
    · simp [boot, binit]
    · simp [step, boot, hget, s₁, w]
  have hstep : step s₁ (.locked w) = .ok { s₁ with
      cache := breadLocked c (fun _ ↦ .fill 7) 0 i
      waiters := s₁.waiters.erase w
      events := [.returned 5 ((breadLocked c (fun _ ↦ .fill 7) 0 i).buf i).data] } := by
    have hlocked : w ∈ s₁.waiters ∧ (s₁.cache.buf w.i).holder = none := ⟨by simp [s₁], hfree⟩
    simp only [step, if_pos hlocked]
    rfl
  have hs₂ := hs₁.call (show Follows 1 s₁ (.locked w) from trivial) hstep
  refine ⟨i, _, _, ⟨by decide, hs₂⟩, rfl, ?_⟩
  exact (bcache_refines_store (by decide) hs₂).2.2.2.2 [] 5 _ [] rfl

end Runs

end Xv6.Cache
