import Xv6.Fs.ByteArray

/-!
# Writes that Stop Early

`writei` stores what it has copied from user memory into the buffer of a block before it knows that
the copy fails.  The bytes of the iteration that fails are then in the buffer, and are read from
there; they are not counted, and the block is not logged by this iteration.  The file is as the
result of `writei` says if and only if those bytes change no byte below the old size.
-/

namespace Xv6.Fs

open Lib

variable {s : FsState} {ip : Fin NINODE}

/-- What the disk holds after the transaction has committed: the blocks that were logged are as in
their buffers, and the others as they were on the disk. -/
def FsState.committed (s : FsState) (old : Device) : Device :=
  fun b ↦ if b ∈ s.logged then s.disk b else old b

/-- The bytes of a file on a disk. -/
def Superblock.file (sb : Superblock) (disk : Device) (inum : ℕ) : List UInt8 :=
  (sb.dinode disk inum).bytes disk 0 (sb.dinode disk inum).size

/-- A file with `tot` bytes from memory written at `off`. -/
def overwrite (data : List UInt8) (mem : Source) (src off tot : ℕ) : List UInt8 :=
  data.take off ++ copyin mem src tot ++ data.drop (off + tot)

/-- A byte of the file after a write that is as it should be. -/
def wantedByte (s : FsState) (ip : Fin NINODE) (mem : Source) (src off tot x : ℕ) : UInt8 :=
  if off ≤ x ∧ x < off + tot then (copyin mem src tot).getD (x - off) 0
  else (s.itable ip).copy.byteAt s.disk x

theorem getElem?_data (s : FsState) (ip : Fin NINODE) (x : ℕ) : (s.data ip)[x]? =
    if x < (s.itable ip).copy.size then some ((s.itable ip).copy.byteAt s.disk x) else none :=
  getElem?_bytes ..

/-- The bytes of the file after a write, one by one. -/
theorem getElem?_overwrite {data : List UInt8} {mem : Source} {src off tot : ℕ}
    (hoff : off ≤ data.length) (hlength : (copyin mem src tot).length = tot) (x : ℕ) :
    (overwrite data mem src off tot)[x]? =
      if off ≤ x ∧ x < off + tot then some ((copyin mem src tot).getD (x - off) 0)
      else data[x]? := by
  have htake : (data.take off).length = off := by rw [List.length_take, min_eq_left hoff]
  rw [overwrite, List.append_assoc]
  rcases Nat.lt_or_ge x off with hbefore | hge
  · rw [List.getElem?_append_left (by rwa [htake]), List.getElem?_take_of_lt hbefore,
      if_neg (by omega)]
  · rw [List.getElem?_append_right (by rwa [htake]), htake]
    rcases Nat.lt_or_ge x (off + tot) with hinside | hafter
    · have hx : x - off < (copyin mem src tot).length := by omega
      rw [List.getElem?_append_left hx, if_pos ⟨hge, hinside⟩, List.getD_eq_getElem?_getD,
        List.getElem?_eq_getElem hx]
      rfl
    · rw [List.getElem?_append_right (by omega), hlength, List.getElem?_drop,
        show off + tot + (x - off - tot) = x by omega, if_neg (by omega)]

/-- The same as a list over the offsets. -/
theorem overwrite_eq_map {mem : Source} {src off tot : ℕ} (hoff : off ≤ (s.itable ip).copy.size)
    (hlength : (copyin mem src tot).length = tot) :
    overwrite (s.data ip) mem src off tot =
      (List.range (max (s.itable ip).copy.size (off + tot))).map
        (wantedByte s ip mem src off tot) := by
  refine List.ext_getElem? fun x ↦ ?_
  rw [getElem?_overwrite (by rwa [length_data]) hlength, List.getElem?_map, getElem?_data]
  by_cases hinside : off ≤ x ∧ x < off + tot
  · have hx : x < max (s.itable ip).copy.size (off + tot) := by omega
    rw [if_pos hinside, List.getElem?_range hx, Option.map_some, wantedByte, if_pos hinside]
  · rw [if_neg hinside]
    by_cases hend : x < (s.itable ip).copy.size
    · have hx : x < max (s.itable ip).copy.size (off + tot) := by omega
      rw [if_pos hend, List.getElem?_range hx, Option.map_some, wantedByte, if_neg hinside]
    · rw [if_neg hend, List.getElem?_eq_none (by rw [List.length_range]; omega), Option.map_none]

/-- A file is as it should be if each of its bytes is. -/
theorem bytes_eq_overwrite_iff {mem : Source} {src off tot : ℕ} {disk : Device} {copy : Dinode}
    (hoff : off ≤ (s.itable ip).copy.size) (hlength : (copyin mem src tot).length = tot)
    (hsize : copy.size = max (s.itable ip).copy.size (off + tot)) :
    copy.bytes disk 0 copy.size = overwrite (s.data ip) mem src off tot ↔
      ∀ x, x < copy.size → copy.byteAt disk x = wantedByte s ip mem src off tot x := by
  rw [overwrite_eq_map hoff hlength, Dinode.bytes, hsize, List.map_inj_left]
  simp

/-! ## The bytes of the iteration that fails -/

section Written

variable {live : ℕ → Dinode} {mem : Source} {src off n done : ℕ} {disk : Device} {copy : Dinode}
  {logged : List ℕ}

theorem WrittenExact.length_copyin (h : WrittenExact s ip mem src off n done disk copy logged) :
    (copyin mem src done).length = done := by
  refine (copyin_mapped fun k hk ↦ ?_).1
  rw [← h.bytes k (by omega)]
  rfl

/-- The bytes that are counted are as they should be, and those before and after. -/
theorem WrittenExact.byteAt (h : WrittenExact s ip mem src off n done disk copy logged) {x : ℕ}
    (hx : ¬ (off + done ≤ x ∧ x < off + done + (unreported mem src off n done).length)) :
    copy.byteAt disk x = wantedByte s ip mem src off done x := by
  rw [wantedByte]
  split
  · rename_i hinside
    have hcopied : some ((copyin mem src done).getD (x - off) 0) = mem (src + (x - off)) :=
      getD_copyin (by rw [h.length_copyin]; omega)
    have hbyte := h.bytes (x - off) (by omega)
    rw [show off + (x - off) = x by omega, ← hcopied] at hbyte
    exact Option.some.inj hbyte
  · exact h.outside x (by omega)

/-- The bytes of the iteration that fails. -/
theorem WrittenExact.unreported (h : WrittenExact s ip mem src off n done disk copy logged) {k : ℕ}
    (hk : k < (unreported mem src off n done).length) :
    copy.byteAt disk (off + done + k) = (Fs.unreported mem src off n done).getD k 0 := by
  have hcopied : some ((Fs.unreported mem src off n done).getD k 0) = mem (src + done + k) :=
    getD_copyin hk
  have hbyte := h.bytes (done + k) (by omega)
  rw [← Nat.add_assoc, ← Nat.add_assoc, ← hcopied] at hbyte
  exact Option.some.inj hbyte

/-- On the disk, after the commit, all blocks are as in their buffers, or one is as it was before. -/
theorem WrittenExact.committed_eq {old : Device} (hold : ∀ b, b ∉ s.logged → s.disk b = old b)
    (h : WrittenExact s ip mem src off n done disk copy logged) :
    (s.put ip disk copy logged).committed old = disk ∨
      ∃ b, done < n ∧ b ≠ 0 ∧ b = copy.blockOf disk ((off + done) / BSIZE) ∧
        (s.put ip disk copy logged).committed old = Function.update disk b (s.disk b) := by
  have hunlogged : ∀ b, b ∉ logged → (s.put ip disk copy logged).committed old b = s.disk b := by
    intro b hb
    rw [hold b fun hmem ↦ hb (h.grown hmem)]
    exact if_neg hb
  have hlogged : ∀ b, b ∈ logged → (s.put ip disk copy logged).committed old b = disk b :=
    fun b hb ↦ if_pos hb
  by_cases htorn : ∃ b, b ∉ logged ∧ disk b ≠ s.disk b
  · obtain ⟨b, hb, hne⟩ := htorn
    obtain ⟨hdone, hzero, hblock⟩ := (h.unlogged b hb).resolve_left hne
    refine .inr ⟨b, hdone, hzero, hblock, funext fun c ↦ ?_⟩
    by_cases hcb : c = b
    · rw [hcb, Function.update_self, hunlogged b hb]
    · rw [Function.update_of_ne hcb]
      by_cases hc : c ∈ logged
      · exact hlogged c hc
      · rw [hunlogged c hc]
        refine ((h.unlogged c hc).resolve_right ?_).symm
        rintro ⟨-, -, hcblock⟩
        exact hcb (hcblock.trans hblock.symm)
  · refine .inl (funext fun b ↦ ?_)
    by_cases hb : b ∈ logged
    · exact hlogged b hb
    · rw [hunlogged b hb]
      by_contra hne
      exact htorn ⟨b, hb, fun heq ↦ hne heq.symm⟩

/-- The block of the iteration that fails holds none of the bytes that are counted. -/
theorem WrittenExact.wantedByte_of_block
    (h : WrittenExact s ip mem src off n done disk copy logged) (hdone : done < n) {x : ℕ}
    (hx : x / BSIZE = (off + done) / BSIZE) :
    wantedByte s ip mem src off done x = (s.itable ip).copy.byteAt s.disk x := by
  refine if_neg ?_
  rintro ⟨hle, hlt⟩
  have haligned := h.aligned hdone (by omega)
  simp only [BSIZE] at *
  omega

/-- The file on the disk after the commit. -/
theorem WrittenExact.committed (hsolid : Solid s ip) {old : Device}
    (hold : ∀ b, b ∉ s.logged → s.disk b = old b)
    (hw : Written s s.inodes ip mem src off n done disk copy)
    (h : WrittenExact s ip mem src off n done disk copy logged) :
    s.sb.dinode ((s.put ip disk copy logged).committed old) (s.inum ip) = copy ∧
      ∀ x, x < copy.size →
        copy.byteAt ((s.put ip disk copy logged).committed old) x = copy.byteAt disk x ∨
          copy.byteAt ((s.put ip disk copy logged).committed old) x =
            wantedByte s ip mem src off done x := by
  have hinum := hsolid.allocated.1
  have hdinode : s.sb.dinode disk (s.inum ip) = copy := by
    rw [hw.dinode _ hinum.2, if_pos rfl]
  rcases h.committed_eq hold with heq | ⟨b, hdone, hzero, hblock, heq⟩
  · rw [heq]
    exact ⟨hdinode, fun _ _ ↦ .inl rfl⟩
  · rw [heq]
    have hself : Function.update s.inodes (s.inum ip) copy (s.inum ip) = copy :=
      Function.update_self ..
    have htype : copy.type ≠ 0 := by
      rw [hw.fields]
      exact hsolid.copy ▸ hsolid.allocated.2
    have halloc : Allocated s.sb (Function.update s.inodes (s.inum ip) copy) (s.inum ip) :=
      ⟨hinum, by rwa [hself]⟩
    have hb : (Function.update s.inodes (s.inum ip) copy (s.inum ip)).blockOf disk
        ((off + done) / BSIZE) ≠ 0 := by
      rw [hself, ← hblock]
      exact hzero
    obtain ⟨-, -, hcontents⟩ := hw.change.owned.store hsolid.sb.data halloc hb (s.disk b)
    replace hcontents := fun k ↦ hcontents (s.inum ip) k halloc
    rw [hself, ← hblock] at hcontents
    have hdata : s.sb.IsData b := by
      obtain ⟨place, -, hat⟩ := blockOf_eq_at hb
      rw [hself] at hat
      have hrange := hw.change.owned.range _ place halloc (by rw [hself, ← hat, ← hblock]; exact hzero)
      rwa [hself, ← hat, ← hblock] at hrange
    refine ⟨?_, fun x hx ↦ ?_⟩
    · rw [Superblock.dinode_update_data hsolid.sb _ hinum.2 hdata, hdinode]
    · by_cases hxb : x / BSIZE = (off + done) / BSIZE
      · refine .inr ?_
        -- The block was there before: the iteration that fails starts at most at the old size.
        have hbefore : (s.itable ip).copy.blockOf s.disk ((off + done) / BSIZE) ≠ 0 := by
          refine hsolid.noHoles.block _ ?_
          have hoff := hw.off_le
          have haligned := h.aligned hdone
          have hsize : copy.size = max (s.itable ip).copy.size (off + done) := by rw [hw.fields]
          simp only [BSIZE] at *
          omega
        rw [h.wantedByte_of_block hdone hxb, Dinode.byteAt, hcontents, if_pos ⟨rfl, hxb⟩,
          Dinode.byteAt, hxb, Dinode.contents, if_neg hbefore, hblock, h.keeps _ hbefore]
      · refine .inl ?_
        rw [Dinode.byteAt, hcontents, if_neg fun hand ↦ hxb hand.2, Dinode.byteAt]

end Written

/-- A file with three bytes is made, and its inode is locked in another transaction. -/
def threeBytes : List InodeOp :=
  [.beginOp, .ialloc T_FILE, .ilock ⟨0, NINODE_pos⟩,
    .writei ⟨0, NINODE_pos⟩ (kernelSource [1, 2, 3]) 0 0 3, .iunlock ⟨0, NINODE_pos⟩, .endOp, .beginOp,
    .ilock ⟨0, NINODE_pos⟩]

/-- One page is mapped. -/
def onePage (byte : UInt8) : Source := fun addr ↦ if addr < 4096 then some byte else none

end Xv6.Fs
