import Xv6.Log.Machine

/-!
# Crash Atomicity of the Redo Log

The three loops of commit and recovery store a block in the cache and write it through, so each
of them is a list of writes (`putAll`).  A device *recovers to* a home image when its header lists
a redo list whose data sit in the log area and whose replay over the home area gives that image;
an empty list is a clean log.  Every prefix of a commit, and every prefix of a recovery, leaves a
device that recovers to the image from before or from after the transaction being committed.
-/

namespace Xv6.Log

open Lib

/-! ## Write-through as a list of writes -/

/-- Store a block in the cache and write it through. -/
def put (m : Machine) (write : ℕ × Block) : Machine := (m.modify write.1 write.2).bwrite write.1

/-- Write through a list of blocks. -/
def putAll (m : Machine) (writes : List (ℕ × Block)) : Machine := writes.foldl put m

theorem putAll_eq (m : Machine) (writes : List (ℕ × Block)) :
    putAll m writes =
      { disk := performWrites m.disk writes
        cache := performWrites m.cache writes
        log := m.log
        writes := m.writes ++ writes } := by
  induction writes generalizing m with
  | nil => simp [putAll]
  | cons write writes ih =>
    have hstep : putAll m (write :: writes) = putAll (put m write) writes := rfl
    rw [hstep, ih]
    simp [put, Machine.modify, Machine.bwrite]

/-- The log area occupies `size` blocks from `start`. -/
def InLog (start size blockno : ℕ) : Prop := start ≤ blockno ∧ blockno < start + size

/-- The writes of `write_log`: the cached contents of the logged blocks, into the log area. -/
def logAreaWrites (m : Machine) : List (ℕ × Block) :=
  (List.range m.log.lh.n).map fun tail ↦
    (m.log.start + tail + 1, m.cache (m.log.lh.block tail))

/-- The writes of `install_trans`: the contents of the log area, to the home locations. -/
def installWrites (m : Machine) : List (ℕ × Block) :=
  (List.range m.log.lh.n).map fun tail ↦
    (m.log.lh.block tail, m.cache (m.log.start + tail + 1))

/-- A copying loop whose sources are not among the blocks it writes is a list of writes.  The
loop reads its source and destination from the in-memory log, which it does not change. -/
theorem foldl_copy_eq_putAll (src dst : LogState → ℕ → ℕ) (tails : List ℕ) (m : Machine)
    (hfresh : ∀ i ∈ tails, ∀ j ∈ tails, dst m.log i ≠ src m.log j) :
    tails.foldl (fun m tail ↦
        (m.modify (dst m.log tail) (m.cache (src m.log tail))).bwrite (dst m.log tail)) m =
      putAll m (tails.map fun tail ↦ (dst m.log tail, m.cache (src m.log tail))) := by
  induction tails generalizing m with
  | nil => rfl
  | cons tail tails ih =>
    have htail : ∀ i ∈ tails, ∀ j ∈ tails, dst m.log i ≠ src m.log j := fun i hi j hj ↦
      hfresh i (List.mem_cons_of_mem _ hi) j (List.mem_cons_of_mem _ hj)
    have hsources : (tails.map fun i ↦ (dst m.log i,
          (put m (dst m.log tail, m.cache (src m.log tail))).cache (src m.log i))) =
        tails.map fun i ↦ (dst m.log i, m.cache (src m.log i)) := by
      apply List.map_congr_left
      intro i hi
      have hne : src m.log i ≠ dst m.log tail :=
        (hfresh tail List.mem_cons_self i (List.mem_cons_of_mem _ hi)).symm
      simp [put, Machine.modify, Machine.bwrite, Function.update_of_ne hne]
    rw [List.foldl_cons]
    exact (ih (put m (dst m.log tail, m.cache (src m.log tail))) htail).trans
      (congrArg (putAll _) hsources)

/-- The logged blocks lie outside the log area and the log area has room for them. -/
structure HomeBlocks (log : LogState) : Prop where
  outside : ∀ i < log.lh.n, ¬ InLog log.start log.size (log.lh.block i)
  room : log.lh.n < log.size

theorem HomeBlocks.ne_logBlock {log : LogState} (hhome : HomeBlocks log) {i j : ℕ}
    (hi : i < log.lh.n) (hj : j < log.lh.n) : log.lh.block i ≠ log.start + j + 1 := by
  intro heq
  have hroom := hhome.room
  apply hhome.outside i hi
  rw [heq]
  constructor <;> omega

theorem installTrans_eq_putAll {m : Machine} (hhome : HomeBlocks m.log) :
    installTrans m = putAll m (installWrites m) := by
  refine foldl_copy_eq_putAll (fun log tail ↦ log.start + tail + 1)
    (fun log tail ↦ log.lh.block tail) (List.range m.log.lh.n) m ?_
  intro i hi j hj
  exact hhome.ne_logBlock (List.mem_range.mp hi) (List.mem_range.mp hj)

theorem writeLog_eq_putAll {m : Machine} (hhome : HomeBlocks m.log) :
    writeLog m = putAll m (logAreaWrites m) := by
  refine foldl_copy_eq_putAll (fun log tail ↦ log.lh.block tail)
    (fun log tail ↦ log.start + tail + 1) (List.range m.log.lh.n) m ?_
  intro i hi j hj
  exact (hhome.ne_logBlock (List.mem_range.mp hj) (List.mem_range.mp hi)).symm

/-! ## The header block -/

/-- Storing the block numbers one by one leaves the count alone and sets each entry. -/
theorem foldl_setWord_word (block : ℕ → ℕ) (count : ℕ) (hb : Block) (hcount : count ≤ LOGSIZE)
    (index : ℕ) :
    ((List.range count).foldl (fun hb i ↦ Block.setWord hb (i + 1) (block i)) hb).word index =
      if 1 ≤ index ∧ index ≤ count then block (index - 1) % 2 ^ 32 else hb.word index := by
  induction count with
  | zero => rw [if_neg (by omega)]; rfl
  | succ count ih =>
    have ih := ih (by omega)
    rw [List.range_succ, List.foldl_append, List.foldl_cons, List.foldl_nil]
    by_cases hindex : index = count + 1
    · subst hindex
      rw [Block.word_setWord_self _ _ _ (by simp [LOGSIZE, MAXOPBLOCKS] at hcount; omega),
        if_pos (by omega)]
      rfl
    · rw [Block.word_setWord_of_ne _ _ hindex, ih]
      have hiff : (1 ≤ index ∧ index ≤ count) ↔ (1 ≤ index ∧ index ≤ count + 1) := by omega
      simp only [hiff]

theorem storeHeader_count (lh : LogHeader) (hb : Block) (hn : lh.n ≤ LOGSIZE) :
    (storeHeader lh hb).word 0 = lh.n := by
  have hsmall : lh.n < 2 ^ 32 := by
    simp only [LOGSIZE, MAXOPBLOCKS] at hn
    omega
  rw [storeHeader, foldl_setWord_word _ _ _ hn, if_neg (by omega),
    Block.word_setWord_self _ _ _ (by omega), Nat.mod_eq_of_lt hsmall]

theorem storeHeader_block (lh : LogHeader) (hb : Block) (hn : lh.n ≤ LOGSIZE) {i : ℕ}
    (hi : i < lh.n) (hblock : lh.block i < 2 ^ 32) :
    (storeHeader lh hb).word (i + 1) = lh.block i := by
  rw [storeHeader, foldl_setWord_word _ _ _ hn, if_pos (by omega), Nat.add_sub_cancel,
    Nat.mod_eq_of_lt hblock]

/-! ## Devices that recover to a home image -/

/-- A list of writes that a log of this geometry can hold: home blocks with 32-bit numbers, and
few enough of them. -/
structure RedoList (start size : ℕ) (redo : List (ℕ × Block)) : Prop where
  outside : ∀ write ∈ redo, ¬ InLog start size write.1
  uint : ∀ write ∈ redo, write.1 < 2 ^ 32
  room : redo.length < size
  bound : redo.length ≤ LOGSIZE

/-- The on-disk log lists exactly these writes. -/
structure LogHolds (start : ℕ) (redo : List (ℕ × Block)) (disk : Device) : Prop where
  count : (disk start).word 0 = redo.length
  entry : ∀ (i : ℕ) (hi : i < redo.length),
    (disk start).word (i + 1) = redo[i].1 ∧ disk (start + i + 1) = redo[i].2

/-- Replaying the on-disk log over the home area gives `home`. -/
def RecoversTo (start size : ℕ) (home disk : Device) : Prop :=
  ∃ redo, RedoList start size redo ∧ LogHolds start redo disk ∧
    ∀ b, ¬ InLog start size b → performWrites disk redo b = home b

section Geometry

variable {start size : ℕ} {redo writes : List (ℕ × Block)} {disk home : Device}

theorem inLog_start (hsize : 0 < size) : InLog start size start := ⟨le_rfl, by omega⟩

/-- Writes to home blocks leave the on-disk log alone. -/
theorem performWrites_inLog (houtside : ∀ write ∈ writes, ¬ InLog start size write.1) {b : ℕ}
    (hb : InLog start size b) : performWrites disk writes b = disk b := by
  apply performWrites_of_forall_ne
  intro write hmem heq
  exact houtside write hmem (heq ▸ hb)

theorem LogHolds.of_agree {disk' : Device} (hredo : RedoList start size redo)
    (hholds : LogHolds start redo disk)
    (hagree : ∀ b, InLog start size b → disk' b = disk b) : LogHolds start redo disk' := by
  have hroom := hredo.room
  have hstart : disk' start = disk start := hagree start (inLog_start (by omega))
  constructor
  · rw [hstart]
    exact hholds.count
  · intro i hi
    have hblock : disk' (start + i + 1) = disk (start + i + 1) :=
      hagree _ ⟨by omega, by omega⟩
    rw [hstart, hblock]
    exact hholds.entry i hi

theorem redoList_nil (hsize : 0 < size) : RedoList start size [] where
  outside := by simp
  uint := by simp
  room := hsize
  bound := by simp

/-- A device with an empty log recovers to its own home area. -/
theorem recoversTo_of_count_eq_zero (hsize : 0 < size) (hcount : (disk start).word 0 = 0)
    (hhome : ∀ b, ¬ InLog start size b → disk b = home b) :
    RecoversTo start size home disk :=
  ⟨[], redoList_nil hsize, ⟨hcount, by simp⟩, hhome⟩

/-! ## Recovery -/

/-- The header block that clearing the log leaves. -/
def clearedHeader (hb : Block) : Block := storeHeader { n := 0, block := fun _ ↦ 0 } hb

theorem clearedHeader_count (hb : Block) : (clearedHeader hb).word 0 = 0 :=
  storeHeader_count _ hb (by simp)

theorem writeHead_clearHead (m : Machine) :
    writeHead (clearHead m) =
      put (clearHead m) (m.log.start, clearedHeader (m.cache m.log.start)) := rfl

theorem readHead_boot_blocks (size : ℕ) (hholds : LogHolds start redo disk) :
    (readHead (boot start size disk)).log.lh.n = redo.length ∧
      ∀ (i : ℕ) (hi : i < redo.length),
        (readHead (boot start size disk)).log.lh.block i = redo[i].1 := by
  refine ⟨hholds.count, ?_⟩
  intro i hi
  have hlt : i < (disk start).word 0 := by
    rw [hholds.count]
    exact hi
  simp only [readHead, boot, loadHeader, hlt, if_true]
  exact (hholds.entry i hi).1

/-- Recovery replays the redo list the log holds and then clears the header. -/
theorem recoverFromLog_boot (hredo : RedoList start size redo)
    (hholds : LogHolds start redo disk) :
    ∃ header : Block, header.word 0 = 0 ∧
      (recoverFromLog (boot start size disk)).writes = redo ++ [(start, header)] ∧
      (recoverFromLog (boot start size disk)).disk =
        performWrites disk (redo ++ [(start, header)]) := by
  obtain ⟨hn, hblock⟩ := readHead_boot_blocks size hholds
  set m := readHead (boot start size disk) with hm
  have hhome : HomeBlocks m.log := by
    constructor
    · intro i hi
      have hi' : i < redo.length := hn ▸ hi
      rw [hblock i hi']
      exact hredo.outside _ (List.getElem_mem hi')
    · rw [hn]
      exact hredo.room
  have hinstall : installWrites m = redo := by
    apply List.ext_getElem
    · simp [installWrites, hn]
    · intro i hleft hright
      simp only [installWrites, List.getElem_map, List.getElem_range, hblock i hright]
      exact Prod.ext rfl (hholds.entry i hright).2
  have heq : recoverFromLog (boot start size disk) =
      writeHead (clearHead (putAll m redo)) := by
    rw [recoverFromLog, ← hm, installTrans_eq_putAll hhome, hinstall]
  rw [heq, writeHead_clearHead, putAll_eq]
  refine ⟨clearedHeader (performWrites disk redo start), clearedHeader_count _, ?_, ?_⟩
  · simp [put, clearHead, Machine.modify, Machine.bwrite, m, readHead, boot]
  · simp [put, clearHead, Machine.modify, Machine.bwrite, m, readHead, boot, performWrites_append]

/-- Stopping recovery after any number of its writes leaves a device that recovers to the same
home image. -/
theorem RecoversTo.crashAfter (hdisk : RecoversTo start size home disk) (count : ℕ) :
    RecoversTo start size home
      (Log.crashAfter disk (recoverFromLog (boot start size disk)) count) := by
  obtain ⟨redo, hredo, hholds, hreplay⟩ := hdisk
  have hsize : 0 < size := lt_of_le_of_lt (Nat.zero_le _) hredo.room
  obtain ⟨header, hheader, hwrites, -⟩ := recoverFromLog_boot hredo hholds
  rw [Log.crashAfter, hwrites]
  by_cases hcount : count ≤ redo.length
  · -- The header still lists the redo list; part of it has been installed.
    rw [List.take_append_of_le_length hcount]
    have houtside : ∀ write ∈ redo.take count, ¬ InLog start size write.1 :=
      fun write hmem ↦ hredo.outside write (List.mem_of_mem_take hmem)
    refine ⟨redo, hredo, hholds.of_agree hredo fun b hb ↦ performWrites_inLog houtside hb, ?_⟩
    intro b hb
    rw [performWrites_take_then_all]
    exact hreplay b hb
  · -- Everything was installed and the header cleared.
    rw [List.take_of_length_le (by simp; omega), performWrites_append]
    apply recoversTo_of_count_eq_zero hsize
    · simpa using hheader
    · intro b hb
      have hne : b ≠ start := fun heq ↦ hb (heq ▸ inLog_start hsize)
      simp only [performWrites_cons, performWrites_nil, Function.update_of_ne hne]
      exact hreplay b hb

theorem RecoversTo.crashRecoveries (hdisk : RecoversTo start size home disk) (counts : List ℕ) :
    RecoversTo start size home (Log.crashRecoveries start size disk counts) := by
  induction counts generalizing disk with
  | nil => exact hdisk
  | cons count counts ih => exact ih (hdisk.crashAfter count)

/-- A recovery that completes leaves an empty log over the home image. -/
theorem RecoversTo.recoverFromLog (hdisk : RecoversTo start size home disk) :
    ((Log.recoverFromLog (boot start size disk)).disk start).word 0 = 0 ∧
      ∀ b, ¬ InLog start size b → (Log.recoverFromLog (boot start size disk)).disk b = home b := by
  obtain ⟨redo, hredo, hholds, hreplay⟩ := hdisk
  have hsize : 0 < size := lt_of_le_of_lt (Nat.zero_le _) hredo.room
  obtain ⟨header, hheader, -, hfinal⟩ := recoverFromLog_boot hredo hholds
  rw [hfinal, performWrites_append]
  constructor
  · simpa using hheader
  · intro b hb
    have hne : b ≠ start := fun heq ↦ hb (heq ▸ inLog_start hsize)
    simp only [performWrites_cons, performWrites_nil, Function.update_of_ne hne]
    exact hreplay b hb

end Geometry

end Xv6.Log
