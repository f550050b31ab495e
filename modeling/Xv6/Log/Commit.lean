import Xv6.Log.Recovery

/-!
# Commits Cut Short

What a machine that stops anywhere inside a sequence of transactions leaves on the device.  The
writes of one commit are the log area, the header, the home locations and the cleared header; up
to the first header write the device still recovers to the old home image, and from that write on
to the new one.
-/

namespace Xv6.Log

open Lib

/-- Between transactions: nothing logged, nothing outstanding, and the cache agrees with a device
whose log is empty. -/
structure Quiescent (start size : ℕ) (m : Machine) : Prop where
  start_eq : m.log.start = start
  size_eq : m.log.size = size
  outstanding : m.log.outstanding = 0
  committing : m.log.committing = false
  empty : m.log.lh.n = 0
  coherent : m.cache = m.disk
  clean : (m.disk start).word 0 = 0

theorem quiescent_boot {start size : ℕ} {disk : Device} (hclean : (disk start).word 0 = 0) :
    Quiescent start size (boot start size disk) :=
  ⟨rfl, rfl, rfl, rfl, rfl, rfl, hclean⟩

/-- The blocks of a transaction are home blocks with 32-bit numbers. -/
def HomeTransaction (start size : ℕ) (tx : Transaction) : Prop :=
  ∀ write ∈ tx, ¬ InLog start size write.1 ∧ write.1 < 2 ^ 32

/-! ## Logging -/

/-- What the `log_write` calls of a transaction leave behind: the device is untouched, the cache
holds the modifications, and the header lists exactly the modified blocks. -/
structure Logged (m m' : Machine) (tx : Transaction) : Prop where
  disk_eq : m'.disk = m.disk
  writes_eq : m'.writes = m.writes
  cache_eq : m'.cache = performWrites m.cache tx
  start_eq : m'.log.start = m.log.start
  size_eq : m'.log.size = m.log.size
  mem_blocks : ∀ b, b ∈ m'.log.lh.blocks ↔ b ∈ m.log.lh.blocks ∨ ∃ write ∈ tx, write.1 = b
  bound : m.log.lh.n ≤ LOGSIZE → m'.log.lh.n ≤ LOGSIZE
  room : m.log.lh.n < m.log.size → m'.log.lh.n < m'.log.size

theorem logAll_ok {m m' : Machine} {tx : Transaction} (h : logAll m tx = .ok m') :
    Logged m m' tx ∧ m'.log.outstanding = m.log.outstanding ∧
      m'.log.committing = m.log.committing := by
  induction tx generalizing m with
  | nil =>
    cases h
    exact ⟨⟨rfl, rfl, rfl, rfl, rfl, by simp, id, id⟩, rfl, rfl⟩
  | cons write tx ih =>
    obtain ⟨blockno, data⟩ := write
    rw [logAll] at h
    cases hwrite : logWrite m.log blockno with
    | error panic =>
      rw [hwrite] at h
      cases h
    | ok result =>
      obtain ⟨log, isNew⟩ := result
      rw [hwrite] at h
      obtain ⟨ih, ihout, ihcommitting⟩ := ih h
      obtain ⟨hbound, hroom, -, hstart, hsize, hout, hcommitting, hblocks⟩ := logWrite_ok hwrite
      have hn : log.lh.n ≤ m.log.lh.n + 1 := by
        rw [← LogHeader.length_blocks log.lh, hblocks, ← LogHeader.length_blocks m.log.lh]
        split <;> simp
      refine ⟨⟨ih.disk_eq, ih.writes_eq, ih.cache_eq, ih.start_eq.trans hstart,
        ih.size_eq.trans hsize, ?_, ?_, ?_⟩, ihout.trans hout,
        ihcommitting.trans hcommitting⟩
      · intro b
        rw [ih.mem_blocks]
        simp only [hblocks, List.mem_cons, exists_eq_or_imp]
        split
        · rename_i hmem
          constructor
          · rintro (hb | hb)
            · exact Or.inl hb
            · exact Or.inr (Or.inr hb)
          · rintro (hb | rfl | hb)
            · exact Or.inl hb
            · exact Or.inl hmem
            · exact Or.inr hb
        · simp only [List.mem_append, List.mem_singleton, eq_comm (a := b), or_assoc]
      · intro _
        exact ih.bound (show log.lh.n ≤ LOGSIZE by omega)
      · intro _
        exact ih.room (show log.lh.n < log.size by omega)

/-! ## The writes of a commit -/

/-- The redo list a commit makes durable: the cached contents of the logged blocks. -/
def redoList (m : Machine) : List (ℕ × Block) := m.log.lh.blocks.map fun b ↦ (b, m.cache b)

/-- A machine about to commit: the header lists home blocks, and outside them the cache agrees
with a device whose log is empty. -/
structure ReadyToCommit (start size : ℕ) (m : Machine) : Prop where
  start_eq : m.log.start = start
  size_eq : m.log.size = size
  redo : RedoList start size (redoList m)
  coherent : ∀ b, b ∉ m.log.lh.blocks → m.cache b = m.disk b
  clean : (m.disk start).word 0 = 0

section Commit

variable {start size : ℕ} {m : Machine}

theorem ReadyToCommit.homeBlocks (hm : ReadyToCommit start size m) : HomeBlocks m.log := by
  have hlength : (redoList m).length = m.log.lh.n := by simp [redoList]
  constructor
  · intro i hi
    rw [hm.start_eq, hm.size_eq]
    have hmem : m.log.lh.block i ∈ m.log.lh.blocks :=
      List.mem_map.mpr ⟨i, List.mem_range.mpr hi, rfl⟩
    exact hm.redo.outside _ (List.mem_map.mpr ⟨_, hmem, rfl⟩)
  · rw [hm.size_eq, ← hlength]
    exact hm.redo.room

/-- The header block that makes the transaction durable. -/
def committedHeader (m : Machine) : Block :=
  storeHeader m.log.lh (performWrites m.cache (logAreaWrites m) m.log.start)

/-- The disk writes of a commit, in program order, for some contents of the cleared header. -/
def commitWrites (m : Machine) (cleared : Block) : List (ℕ × Block) :=
  logAreaWrites m ++ (m.log.start, committedHeader m) :: (redoList m ++ [(m.log.start, cleared)])

/-- After `write_log` and the first `write_head`, `install_trans` finds in the log area what the
cache held for each logged block. -/
theorem installWrites_after_head (m : Machine) :
    installWrites (put (putAll m (logAreaWrites m)) (m.log.start, committedHeader m)) =
      redoList m := by
  rw [putAll_eq]
  simp only [installWrites, redoList, LogHeader.blocks, List.map_map, put, Machine.modify,
    Machine.bwrite]
  apply List.map_congr_left
  intro tail htail
  have hne : m.log.start + tail + 1 ≠ m.log.start := by omega
  refine Prod.ext rfl ?_
  simp only [Function.update_of_ne hne, Function.comp]
  apply performWrites_of_consistent
  · exact ⟨_, List.mem_map.mpr ⟨tail, htail, rfl⟩, rfl⟩
  · intro write hwrite heq
    obtain ⟨other, -, rfl⟩ := List.mem_map.mp hwrite
    have hother : other = tail := by
      simp only at heq
      omega
    rw [hother]

/-- A commit performs its writes on the device and on the cache and empties the header. -/
theorem commit_eq (hm : ReadyToCommit start size m) (hn : 0 < m.log.lh.n) :
    ∃ cleared : Block, cleared.word 0 = 0 ∧
      commit m =
        { disk := performWrites m.disk (commitWrites m cleared)
          cache := performWrites m.cache (commitWrites m cleared)
          log := { m.log with lh := { m.log.lh with n := 0 } }
          writes := m.writes ++ commitWrites m cleared } := by
  have hhome := hm.homeBlocks
  have hhead : writeHead (writeLog m) =
      put (putAll m (logAreaWrites m)) (m.log.start, committedHeader m) := by
    rw [writeLog_eq_putAll hhome, putAll_eq]
    rfl
  have hlog : (put (putAll m (logAreaWrites m)) (m.log.start, committedHeader m)).log = m.log := by
    rw [putAll_eq]
    rfl
  have hinstall : installTrans (writeHead (writeLog m)) =
      putAll (put (putAll m (logAreaWrites m)) (m.log.start, committedHeader m)) (redoList m) := by
    rw [hhead, installTrans_eq_putAll (by rw [hlog]; exact hhome), installWrites_after_head]
  refine ⟨clearedHeader (performWrites (Function.update
    (performWrites m.cache (logAreaWrites m)) m.log.start (committedHeader m)) (redoList m)
      m.log.start), clearedHeader_count _, ?_⟩
  rw [commit, if_pos hn, hinstall, writeHead_clearHead, putAll_eq, putAll_eq]
  simp [put, clearHead, Machine.modify, Machine.bwrite, commitWrites, performWrites_append]

theorem logAreaWrites_ne_start (m : Machine) :
    ∀ write ∈ logAreaWrites m, write.1 ≠ m.log.start := by
  intro write hwrite heq
  obtain ⟨tail, -, rfl⟩ := List.mem_map.mp hwrite
  simp only at heq
  omega

theorem ReadyToCommit.logAreaWrites_inLog (hm : ReadyToCommit start size m) :
    ∀ write ∈ logAreaWrites m, InLog start size write.1 := by
  intro write hwrite
  obtain ⟨tail, htail, rfl⟩ := List.mem_map.mp hwrite
  have htail : tail < m.log.lh.n := List.mem_range.mp htail
  have hroom := hm.homeBlocks.room
  have hstart := hm.start_eq
  have hsize := hm.size_eq
  constructor <;> simp only <;> omega

/-- Writes inside the log area leave the home blocks alone. -/
theorem performWrites_home {writes : List (ℕ × Block)} {disk : Device}
    (hinside : ∀ write ∈ writes, InLog start size write.1) {b : ℕ} (hb : ¬ InLog start size b) :
    performWrites disk writes b = disk b := by
  apply performWrites_of_forall_ne
  intro write hmem heq
  exact hb (heq ▸ hinside write hmem)

/-- With log area and header written, the on-disk log holds the redo list. -/
theorem ReadyToCommit.logHolds (hm : ReadyToCommit start size m) :
    LogHolds start (redoList m)
      (Function.update (performWrites m.disk (logAreaWrites m)) start (committedHeader m)) := by
  have hlength : (redoList m).length = m.log.lh.n := by simp [redoList]
  have hbound : m.log.lh.n ≤ LOGSIZE := hlength ▸ hm.redo.bound
  have hstart := hm.start_eq
  constructor
  · rw [Function.update_self, hlength]
    exact storeHeader_count _ _ hbound
  · intro i hi
    have hi' : i < m.log.lh.n := hlength ▸ hi
    have hentry : (redoList m)[i] = (m.log.lh.block i, m.cache (m.log.lh.block i)) := by
      simp [redoList, LogHeader.blocks]
    have huint : m.log.lh.block i < 2 ^ 32 := by
      have := hm.redo.uint _ (List.getElem_mem hi)
      rwa [hentry] at this
    have hne : start + i + 1 ≠ start := by omega
    rw [hentry]
    refine ⟨?_, ?_⟩
    · rw [Function.update_self]
      exact storeHeader_block _ _ hbound hi' huint
    · rw [Function.update_of_ne hne]
      apply performWrites_of_consistent
      · exact ⟨_, List.mem_map.mpr ⟨i, List.mem_range.mpr hi', rfl⟩, by rw [hstart]⟩
      · intro write hwrite heq
        obtain ⟨other, -, rfl⟩ := List.mem_map.mp hwrite
        have hother : other = i := by
          simp only at heq
          omega
        rw [hother]

/-! ## Commit points -/

/-- The number of commit points in a list of disk writes.  Only `write_head` writes the header
block, and the header of a `write_head` that commits has a non-zero count. -/
def commitPoints (start : ℕ) (writes : List (ℕ × Block)) : ℕ :=
  writes.countP fun write ↦ decide (write.1 = start ∧ write.2.word 0 ≠ 0)

theorem commitPoints_append (first second : List (ℕ × Block)) :
    commitPoints start (first ++ second) = commitPoints start first + commitPoints start second :=
  List.countP_append

theorem commitPoints_eq_zero {writes : List (ℕ × Block)}
    (hne : ∀ write ∈ writes, write.1 ≠ start) : commitPoints start writes = 0 := by
  rw [commitPoints, List.countP_eq_zero]
  intro write hmem
  simp [hne write hmem]

theorem ReadyToCommit.redoList_ne_start (hm : ReadyToCommit start size m) :
    ∀ write ∈ redoList m, write.1 ≠ start := by
  intro write hmem heq
  have hroom := hm.redo.room
  exact hm.redo.outside write hmem (heq ▸ inLog_start (by omega))

/-- Stopping a commit after any number of its writes: before the first header write the device
recovers to the old home image, from then on to the new one. -/
theorem ReadyToCommit.crash (hm : ReadyToCommit start size m) (hn : 0 < m.log.lh.n)
    {cleared : Block} (hcleared : cleared.word 0 = 0) (count : ℕ) :
    (commitPoints start ((commitWrites m cleared).take count) = 0 ∧
        RecoversTo start size m.disk
          (performWrites m.disk ((commitWrites m cleared).take count))) ∨
      (commitPoints start ((commitWrites m cleared).take count) = 1 ∧
        RecoversTo start size (performWrites m.disk (redoList m))
          (performWrites m.disk ((commitWrites m cleared).take count))) := by
  have hsize : 0 < size := lt_of_le_of_lt (Nat.zero_le _) hm.redo.room
  have hareaLength : (logAreaWrites m).length = m.log.lh.n := by simp [logAreaWrites]
  have hbound : m.log.lh.n ≤ LOGSIZE := by simpa [redoList] using hm.redo.bound
  have hareaPoints : ∀ k, commitPoints start ((logAreaWrites m).take k) = 0 := fun k ↦
    commitPoints_eq_zero fun write hmem ↦
      hm.start_eq ▸ logAreaWrites_ne_start m write (List.mem_of_mem_take hmem)
  have hredoPoints : ∀ k, commitPoints start ((redoList m).take k) = 0 := fun k ↦
    commitPoints_eq_zero fun write hmem ↦
      hm.redoList_ne_start write (List.mem_of_mem_take hmem)
  have hheadPoint : commitPoints start [(start, committedHeader m)] = 1 := by
    have hcount : (committedHeader m).word 0 ≠ 0 := by
      rw [committedHeader, storeHeader_count _ _ hbound]
      omega
    simp [commitPoints, hcount]
  have hclearPoint : commitPoints start [(start, cleared)] = 0 := by
    simp [commitPoints, hcleared]
  -- The device once the header is written, and its home blocks.
  set committed := Function.update (performWrites m.disk (logAreaWrites m)) start
    (committedHeader m) with hcommitted
  have hcommittedHome : ∀ b, ¬ InLog start size b → committed b = m.disk b := by
    intro b hb
    have hne : b ≠ start := fun heq ↦ hb (heq ▸ inLog_start hsize)
    rw [hcommitted, Function.update_of_ne hne, performWrites_home hm.logAreaWrites_inLog hb]
  rw [commitWrites, hm.start_eq]
  by_cases hfirst : count ≤ m.log.lh.n
  · left
    rw [List.take_append_of_le_length (by omega)]
    refine ⟨hareaPoints count, recoversTo_of_count_eq_zero hsize ?_ ?_⟩
    · rw [performWrites_of_forall_ne]
      · exact hm.clean
      · intro write hmem
        exact hm.start_eq ▸ logAreaWrites_ne_start m write (List.mem_of_mem_take hmem)
    · intro b hb
      exact performWrites_home
        (fun write hmem ↦ hm.logAreaWrites_inLog write (List.mem_of_mem_take hmem)) hb
  · right
    obtain ⟨rest, hrest⟩ : ∃ rest, count = m.log.lh.n + (rest + 1) :=
      ⟨count - m.log.lh.n - 1, by omega⟩
    rw [hrest, ← hareaLength, List.take_length_add_append, List.take_succ_cons]
    by_cases hsecond : rest ≤ (redoList m).length
    · -- Part of the home locations is installed; the log still holds the whole redo list.
      rw [List.take_append_of_le_length hsecond]
      refine ⟨?_, redoList m, hm.redo, ?_, ?_⟩
      · rw [commitPoints_append, ← List.singleton_append, commitPoints_append, hheadPoint,
          hredoPoints rest, ← List.take_length (l := logAreaWrites m), hareaPoints]
      · rw [performWrites_append, performWrites_cons]
        apply hm.logHolds.of_agree hm.redo
        intro b hb
        exact performWrites_inLog
          (fun write hmem ↦ hm.redo.outside write (List.mem_of_mem_take hmem)) hb
      · intro b hb
        rw [performWrites_append, performWrites_cons, performWrites_take_then_all]
        exact performWrites_agree hcommittedHome b hb
    · -- The commit is complete and the header cleared.
      rw [List.take_of_length_le (by simp; omega)]
      refine ⟨?_, recoversTo_of_count_eq_zero hsize ?_ ?_⟩
      · rw [commitPoints_append, ← List.singleton_append, commitPoints_append,
          commitPoints_append, hheadPoint, hclearPoint, ← List.take_length (l := redoList m),
          hredoPoints, ← List.take_length (l := logAreaWrites m), hareaPoints]
      · rw [performWrites_append, performWrites_cons, performWrites_append]
        simpa using hcleared
      · intro b hb
        have hne : b ≠ start := fun heq ↦ hb (heq ▸ inLog_start hsize)
        rw [performWrites_append, performWrites_cons, performWrites_append]
        simp only [performWrites_cons, performWrites_nil, Function.update_of_ne hne]
        exact performWrites_agree hcommittedHome b hb

/-- A whole commit passes exactly one commit point. -/
theorem ReadyToCommit.commitPoints_commitWrites (hm : ReadyToCommit start size m)
    (hn : 0 < m.log.lh.n) {cleared : Block} (hcleared : cleared.word 0 = 0) :
    commitPoints start (commitWrites m cleared) = 1 := by
  rcases hm.crash hn hcleared (commitWrites m cleared).length with ⟨hzero, hold⟩ | ⟨hone, -⟩
  · exfalso
    have hcount : (committedHeader m).word 0 ≠ 0 := by
      have hbound : m.log.lh.n ≤ LOGSIZE := by simpa [redoList] using hm.redo.bound
      rw [committedHeader, storeHeader_count _ _ hbound]
      omega
    have hhead : commitPoints start [(m.log.start, committedHeader m)] = 1 := by
      simp [commitPoints, hcount, hm.start_eq]
    rw [List.take_length, commitWrites, commitPoints_append, ← List.singleton_append,
      commitPoints_append] at hzero
    omega
  · rwa [List.take_length] at hone

/-- The home blocks after a whole commit. -/
theorem ReadyToCommit.commitWrites_home (hm : ReadyToCommit start size m) (cleared : Block) {b : ℕ}
    (hb : ¬ InLog start size b) :
    performWrites m.disk (commitWrites m cleared) b = performWrites m.disk (redoList m) b := by
  have hsize : 0 < size := lt_of_le_of_lt (Nat.zero_le _) hm.redo.room
  have hne : b ≠ m.log.start := fun heq ↦ hb (heq ▸ hm.start_eq ▸ inLog_start hsize)
  rw [commitWrites, performWrites_append, performWrites_cons, performWrites_append]
  simp only [performWrites_cons, performWrites_nil, Function.update_of_ne hne]
  apply performWrites_congr
  right
  rw [Function.update_of_ne hne, performWrites_home hm.logAreaWrites_inLog hb]

/-- After a whole commit the cache agrees with the device again. -/
theorem ReadyToCommit.commitWrites_coherent (hm : ReadyToCommit start size m) (cleared : Block) :
    performWrites m.cache (commitWrites m cleared) =
      performWrites m.disk (commitWrites m cleared) := by
  funext b
  apply performWrites_congr
  by_cases hb : b ∈ m.log.lh.blocks
  · left
    refine ⟨(b, m.cache b), ?_, rfl⟩
    have hmem : (b, m.cache b) ∈ redoList m := List.mem_map.mpr ⟨b, hb, rfl⟩
    simp [commitWrites, hmem]
  · exact Or.inr (hm.coherent b hb)

theorem performWrites_commitWrites_start (m : Machine) (cleared : Block) (store : Device) :
    performWrites store (commitWrites m cleared) m.log.start = cleared := by
  rw [commitWrites, performWrites_append, performWrites_cons, performWrites_append]
  simp

end Commit

/-! ## Sequences of transactions -/

section Transactions

variable {start size : ℕ} {m m' : Machine} {tx : Transaction}

/-- Replaying the logged blocks from the cache has the effect of the transaction. -/
theorem performWrites_redoList {logged : Machine} (hlogged : Logged m logged tx)
    (hempty : m.log.lh.n = 0) (hcoherent : m.cache = m.disk) (store : Device) {b : ℕ}
    (hstore : store b = m.disk b) :
    performWrites store (redoList logged) b = performWrites m.disk tx b := by
  have hmem : b ∈ logged.log.lh.blocks ↔ ∃ write ∈ tx, write.1 = b := by
    have hnil : m.log.lh.blocks = [] := by simp [LogHeader.blocks, hempty]
    rw [hlogged.mem_blocks, hnil]
    simp
  by_cases hb : b ∈ logged.log.lh.blocks
  · apply performWrites_of_consistent
    · exact ⟨_, List.mem_map.mpr ⟨b, hb, rfl⟩, rfl⟩
    · intro write hwrite heq
      obtain ⟨other, -, rfl⟩ := List.mem_map.mp hwrite
      simp only at heq
      rw [heq, hlogged.cache_eq, hcoherent]
  · rw [performWrites_of_forall_ne, performWrites_of_forall_ne]
    · exact hstore
    · intro write hwrite heq
      exact hb (hmem.mpr ⟨write, hwrite, heq⟩)
    · intro write hwrite heq
      obtain ⟨other, hother, rfl⟩ := List.mem_map.mp hwrite
      simp only at heq
      exact hb (heq ▸ hother)

theorem Quiescent.readyToCommit (hm : Quiescent start size m) (hsize : 0 < size)
    (htx : HomeTransaction start size tx) {logged : Machine} (hlogged : Logged m logged tx) :
    ReadyToCommit start size logged := by
  have hnil : m.log.lh.blocks = [] := by simp [LogHeader.blocks, hm.empty]
  have hmem : ∀ b, b ∈ logged.log.lh.blocks ↔ ∃ write ∈ tx, write.1 = b := by
    intro b
    rw [hlogged.mem_blocks, hnil]
    simp
  have hhome : ∀ write ∈ redoList logged, ¬ InLog start size write.1 ∧ write.1 < 2 ^ 32 := by
    intro write hwrite
    obtain ⟨b, hb, rfl⟩ := List.mem_map.mp hwrite
    obtain ⟨other, hother, rfl⟩ := (hmem b).mp hb
    exact htx other hother
  refine ⟨hlogged.start_eq.trans hm.start_eq, hlogged.size_eq.trans hm.size_eq, ?_, ?_, ?_⟩
  · refine ⟨fun write hwrite ↦ (hhome write hwrite).1, fun write hwrite ↦ (hhome write hwrite).2,
      ?_, ?_⟩
    · have hroom := hlogged.room (by rw [hm.empty, hm.size_eq]; exact hsize)
      rw [hlogged.size_eq, hm.size_eq] at hroom
      simpa [redoList] using hroom
    · simpa [redoList] using hlogged.bound (by rw [hm.empty]; exact Nat.zero_le _)
  · intro b hb
    rw [hlogged.cache_eq, hlogged.disk_eq, hm.coherent]
    apply performWrites_of_forall_ne
    intro write hwrite heq
    exact hb ((hmem b).mpr ⟨write, hwrite, heq⟩)
  · rw [hlogged.disk_eq]
    exact hm.clean

/-- What one transaction does to the device: the writes it issues, where they lead, and what a
machine that stops inside them leaves. -/
structure Effect (start size : ℕ) (disk : Device) (tx : Transaction)
    (writes : List (ℕ × Block)) : Prop where
  home : ∀ b, ¬ InLog start size b → performWrites disk writes b = performWrites disk tx b
  points : commitPoints start writes = if tx = [] then 0 else 1
  crash : ∀ count,
    (commitPoints start (writes.take count) = 0 ∧
        RecoversTo start size disk (performWrites disk (writes.take count))) ∨
      (tx ≠ [] ∧ commitPoints start (writes.take count) = 1 ∧
        RecoversTo start size (performWrites disk tx)
          (performWrites disk (writes.take count)))

theorem RecoversTo.congr {home home' disk : Device} (hdisk : RecoversTo start size home disk)
    (hhome : ∀ b, ¬ InLog start size b → home b = home' b) :
    RecoversTo start size home' disk := by
  obtain ⟨redo, hredo, hholds, hreplay⟩ := hdisk
  exact ⟨redo, hredo, hholds, fun b hb ↦ (hreplay b hb).trans (hhome b hb)⟩

/-- Nothing to commit: no writes, no effect. -/
theorem effect_nil (hsize : 0 < size) {disk : Device} (hclean : (disk start).word 0 = 0) :
    Effect start size disk [] [] where
  home _ _ := rfl
  points := rfl
  crash count := by
    left
    rw [List.take_nil]
    exact ⟨rfl, recoversTo_of_count_eq_zero hsize hclean fun _ _ ↦ rfl⟩

/-- The commit of the blocks a transaction logged. -/
theorem commit_logged (hm : Quiescent start size m) (hsize : 0 < size)
    (htx : HomeTransaction start size tx) {logged : Machine} (hlogged : Logged m logged tx) :
    ∃ writes, Effect start size m.disk tx writes ∧
      (performWrites m.disk writes start).word 0 = 0 ∧
      commit logged =
        { disk := performWrites m.disk writes
          cache := performWrites m.disk writes
          log := { logged.log with lh := { logged.log.lh with n := 0 } }
          writes := m.writes ++ writes } := by
  have hready := hm.readyToCommit hsize htx hlogged
  have hnil : m.log.lh.blocks = [] := by simp [LogHeader.blocks, hm.empty]
  have hmem : ∀ b, b ∈ logged.log.lh.blocks ↔ ∃ write ∈ tx, write.1 = b := by
    intro b
    rw [hlogged.mem_blocks, hnil]
    simp
  by_cases hn : 0 < logged.log.lh.n
  · have hne : tx ≠ [] := by
      rintro rfl
      have hfirst := (hmem (logged.log.lh.block 0)).mp
        (List.mem_map.mpr ⟨0, List.mem_range.mpr hn, rfl⟩)
      simp at hfirst
    obtain ⟨cleared, hcleared, hcommit⟩ := commit_eq hready hn
    have hnew : ∀ b, performWrites m.disk (redoList logged) b = performWrites m.disk tx b :=
      fun b ↦ performWrites_redoList hlogged hm.empty hm.coherent m.disk rfl
    refine ⟨commitWrites logged cleared, ⟨?_, ?_, ?_⟩, ?_, ?_⟩
    · intro b hb
      rw [← hlogged.disk_eq, hready.commitWrites_home cleared hb, hlogged.disk_eq]
      exact hnew b
    · rw [hready.commitPoints_commitWrites hn hcleared, if_neg hne]
    · intro count
      have hcrash := hready.crash hn hcleared count
      rw [hlogged.disk_eq] at hcrash
      rcases hcrash with hold | ⟨hone, hnewImage⟩
      · exact Or.inl hold
      · exact Or.inr ⟨hne, hone, hnewImage.congr fun b _ ↦ hnew b⟩
    · rw [← hready.start_eq, performWrites_commitWrites_start]
      exact hcleared
    · rw [hcommit, hready.commitWrites_coherent, hlogged.disk_eq, hlogged.writes_eq]
  · -- Nothing was logged, so the transaction was empty and `commit` returns at once.
    have hzero : logged.log.lh.n = 0 := by omega
    have hempty : tx = [] := by
      rw [List.eq_nil_iff_forall_not_mem]
      intro write hwrite
      have hblocks := (hmem write.1).mpr ⟨write, hwrite, rfl⟩
      simp [LogHeader.blocks, hzero] at hblocks
    subst hempty
    refine ⟨[], effect_nil hsize hm.clean, hm.clean, ?_⟩
    have hcache : logged.cache = m.disk := by rw [hlogged.cache_eq, hm.coherent]; rfl
    rw [commit, if_neg hn]
    calc logged =
        { disk := logged.disk
          cache := logged.cache
          log := { logged.log with lh := { logged.log.lh with n := logged.log.lh.n } }
          writes := logged.writes } := rfl
      _ = _ := by
        rw [hlogged.disk_eq, hcache, hlogged.writes_eq, hzero, List.append_nil]
        rfl

/-- One transaction running alone: the effect of its commit, back to a quiescent machine. -/
theorem runTransaction_some (hm : Quiescent start size m) (hsize : 0 < size)
    (htx : HomeTransaction start size tx) (h : runTransaction m tx = some m') :
    ∃ writes, Effect start size m.disk tx writes ∧ Quiescent start size m' ∧
      m'.disk = performWrites m.disk writes ∧ m'.writes = m.writes ++ writes := by
  have hbegin : beginOp m.log = some { m.log with outstanding := m.log.outstanding + 1 } := by
    simp [beginOp, hm.committing, LogState.spaceFor, hm.empty, hm.outstanding]
  rw [runTransaction, hbegin] at h
  simp only at h
  split at h
  · cases h
  · rename_i logged hlog
    obtain ⟨hlogged, hout, hcommitting⟩ := logAll_ok hlog
    have hend : endOp logged.log =
        .ok ({ logged.log with outstanding := 0, committing := true }, true) := by
      have hzero : logged.log.outstanding - 1 = 0 := by
        rw [hout]
        simp [hm.outstanding]
      simp [endOp, hcommitting, hm.committing, hzero]
    rw [hend] at h
    simp only [if_true, Option.some.injEq] at h
    -- The locked sections of `begin_op` and `end_op` change no field that logging describes.
    have hlogged' : Logged m
        { logged with log := { logged.log with outstanding := 0, committing := true } } tx :=
      ⟨hlogged.disk_eq, hlogged.writes_eq, hlogged.cache_eq, hlogged.start_eq, hlogged.size_eq,
        hlogged.mem_blocks, hlogged.bound, hlogged.room⟩
    obtain ⟨writes, heffect, hclean, hcommit⟩ := commit_logged hm hsize htx hlogged'
    rw [hcommit] at h
    subst h
    exact ⟨writes, heffect, ⟨hlogged.start_eq.trans hm.start_eq, hlogged.size_eq.trans hm.size_eq,
      rfl, rfl, rfl, rfl, hclean⟩, rfl, rfl⟩

/-- The number of transactions in a list that modify anything. -/
def modifying (txs : List Transaction) : ℕ := txs.countP fun tx ↦ !tx.isEmpty

/-- A machine that issues no writes leaves a device that recovers to its own home image. -/
theorem Quiescent.crash_idle (hm : Quiescent start size m) (hsize : 0 < size)
    (txs : List Transaction) (count : ℕ) :
    ∃ k ≤ txs.length,
      modifying (txs.take k) = commitPoints start (([] : List (ℕ × Block)).take count) ∧
        RecoversTo start size (performWrites m.disk (txs.take k).flatten)
          (performWrites m.disk (([] : List (ℕ × Block)).take count)) := by
  refine ⟨0, Nat.zero_le _, by simp [modifying, commitPoints], ?_⟩
  simpa using recoversTo_of_count_eq_zero hsize hm.clean fun _ _ ↦ rfl

/-- Stopping a run of transactions after any number of its writes leaves a device that recovers
to the home image after those transactions whose commit point was passed. -/
theorem runTransactions_crash {txs : List Transaction} (hm : Quiescent start size m)
    (hsize : 0 < size) (htxs : ∀ tx ∈ txs, HomeTransaction start size tx) :
    ∃ writes, (runTransactions m txs).writes = m.writes ++ writes ∧ ∀ count,
      ∃ k ≤ txs.length, modifying (txs.take k) = commitPoints start (writes.take count) ∧
        RecoversTo start size (performWrites m.disk (txs.take k).flatten)
          (performWrites m.disk (writes.take count)) := by
  induction txs generalizing m with
  | nil => exact ⟨[], by simp [runTransactions], hm.crash_idle hsize []⟩
  | cons tx txs ih =>
    rw [runTransactions]
    cases hrun : runTransaction m tx with
    | none => exact ⟨[], by simp, hm.crash_idle hsize (tx :: txs)⟩
    | some m' =>
      obtain ⟨first, heffect, hm', hdisk, hwrites⟩ :=
        runTransaction_some hm hsize (htxs tx List.mem_cons_self) hrun
      have htxs' : ∀ tx ∈ txs, HomeTransaction start size tx :=
        fun other hother ↦ htxs other (List.mem_cons_of_mem _ hother)
      obtain ⟨rest, hrest, hcrash⟩ := ih hm' htxs'
      refine ⟨first ++ rest, by rw [hrest, hwrites, List.append_assoc], ?_⟩
      intro count
      by_cases hcount : count ≤ first.length
      · rw [List.take_append_of_le_length hcount]
        rcases heffect.crash count with ⟨hzero, hold⟩ | ⟨hne, hone, hnew⟩
        · exact ⟨0, Nat.zero_le _, by simp [modifying, hzero], by simpa using hold⟩
        · exact ⟨1, by simp, by simp [modifying, hone, hne], by simpa using hnew⟩
      · obtain ⟨extra, rfl⟩ : ∃ extra, count = first.length + extra :=
          ⟨count - first.length, by omega⟩
        obtain ⟨k, hk, hpoints, hrecovers⟩ := hcrash extra
        rw [List.take_length_add_append]
        refine ⟨k + 1, by simpa using hk, ?_, ?_⟩
        · rw [commitPoints_append, heffect.points, ← hpoints]
          cases tx <;> simp [modifying, Nat.add_comm]
        · rw [performWrites_append, ← hdisk]
          apply hrecovers.congr
          intro b hb
          rw [List.take_succ_cons, List.flatten_cons, performWrites_append, hdisk]
          exact performWrites_agree heffect.home b hb

/-- Crash atomicity of the redo log.  Start from any device whose log header is empty, run any
transactions on home blocks, stop the machine after any number `count` of the disk writes they
issue, then start and stop recovery after any number of its own writes, any number of times.  When
a recovery finally completes, the log is empty and the home blocks are those after the first `k`
transactions, where the modifying ones among them are exactly the commits whose first header write
reached the device. -/
theorem crash_atomicity (start size : ℕ) (hsize : 0 < size) (disk : Device)
    (hclean : (disk start).word 0 = 0) (txs : List Transaction)
    (htxs : ∀ tx ∈ txs, HomeTransaction start size tx) (count : ℕ) (counts : List ℕ) :
    let run := runTransactions (boot start size disk) txs
    let stopped := crashRecoveries start size (crashAfter disk run count) counts
    let final := (recoverFromLog (boot start size stopped)).disk
    (final start).word 0 = 0 ∧
      ∃ k ≤ txs.length, modifying (txs.take k) = commitPoints start (run.writes.take count) ∧
        ∀ b, ¬ InLog start size b → final b = performWrites disk (txs.take k).flatten b := by
  dsimp only
  obtain ⟨writes, hwrites, hcrash⟩ :=
    runTransactions_crash (quiescent_boot hclean) hsize htxs
  obtain ⟨k, hk, hpoints, hrecovers⟩ := hcrash count
  have hrun : (runTransactions (boot start size disk) txs).writes = writes :=
    hwrites.trans (List.nil_append writes)
  have hstopped : RecoversTo start size (performWrites disk (txs.take k).flatten)
      (crashAfter disk (runTransactions (boot start size disk) txs) count) := by
    rw [crashAfter, hrun]
    exact hrecovers
  obtain ⟨hempty, hhome⟩ := (hstopped.crashRecoveries counts).recoverFromLog
  rw [hrun]
  exact ⟨hempty, k, hk, hpoints, hhome⟩

/-- One transaction on block 45 of a zeroed device with the log at blocks 2 to 31, stopped after
its header write, and a first recovery stopped after its first write. -/
theorem crash_atomicity_one_block :
    let disk : Device := fun _ ↦ .fill 0
    let run := runTransactions (boot 2 30 disk) [[(45, .fill 7)]]
    let stopped := crashRecoveries 2 30 (crashAfter disk run 2) [1]
    let final := (recoverFromLog (boot 2 30 stopped)).disk
    (final 2).word 0 = 0 ∧
      ∃ k ≤ 1, modifying ([[(45, .fill 7)]].take k) = commitPoints 2 (run.writes.take 2) ∧
        ∀ b, ¬ InLog 2 30 b →
          final b = performWrites disk ([[(45, .fill 7)]].take k).flatten b :=
  crash_atomicity 2 30 (by decide) (fun _ ↦ .fill 0) (by decide) [[(45, .fill 7)]]
    (by simp [HomeTransaction, InLog]) 2 [1]

end Transactions

end Xv6.Log
