import Xv6.Fs.Coherence

/-!
# Files are Arrays of Bytes

`readi`, `writei` and `itrunc` on an inode without holes do to its file what reading, overwriting and
clearing do to a list of bytes, whatever blocks hold the bytes.
-/

namespace Xv6.Fs

open Lib

variable {s s' : FsState} {ip : Fin NINODE}

/-! ## The abstract file -/

/-- Calls that read or change the contents of a file. -/
inductive FileOp where
  | writei (mem : Source) (src off n : ℕ)
  | readi (mem : Dest) (dst off n : ℕ)
  | itrunc

namespace FileOp

/-- The arguments are 32-bit numbers, and the caller's memory is mapped. -/
def Mapped : FileOp → Prop
  | .writei mem src off n => off < 2 ^ 32 ∧ n < 2 ^ 32 ∧ ∀ k, k < n → (mem (src + k)).isSome
  | .readi mem dst off n => off < 2 ^ 32 ∧ n < 2 ^ 32 ∧ ∀ k, k < n → mem (dst + k) = true
  | .itrunc => True

/-- What a call returns and copies out, and the bytes of the file after it. -/
def apply (data : List UInt8) : FileOp → (ℤ × List UInt8) × List UInt8
  | .writei mem src off n =>
    if data.length < off ∨ 2 ^ 32 ≤ off + n ∨ MAXFILE * BSIZE < off + n then ((-1, []), data)
    else ((n, []), data.take off ++ copyin mem src n ++ data.drop (off + n))
  | .readi _ _ off n =>
    if data.length < off ∨ 2 ^ 32 ≤ off + n then ((0, []), data)
    else ((((data.drop off).take n).length, (data.drop off).take n), data)
  | .itrunc => ((0, []), [])

/-- A sequence of calls: their results, and the bytes of the file after them. -/
def applyAll (data : List UInt8) : List FileOp → List (ℤ × List UInt8) × List UInt8
  | [] => ([], data)
  | op :: ops =>
    let (result, data') := op.apply data
    let (results, data'') := applyAll data' ops
    (result :: results, data'')

/-- The code of a call on the inode `ip`. -/
def code (ip : Fin NINODE) : FileOp → FsM (ℤ × List UInt8)
  | .writei mem src off n => do
      let r ← Fs.writei ip mem src off n
      return (r, [])
  | .readi mem dst off n => Fs.readi ip mem dst off n
  | .itrunc => do
      Fs.itrunc ip
      return (0, [])

end FileOp

/-! ## The inode -/

/-- An inode in use: its copy is as on the disk, it has no holes, and blocks are owned. -/
structure Solid (s : FsState) (ip : Fin NINODE) : Prop where
  sb : s.sb.WellFormed
  outstanding : 0 < s.outstanding
  bufs : s.bufs = []
  owned : Owned s.sb s.disk s.inodes
  allocated : Allocated s.sb s.inodes (s.inum ip)
  copy : s.inodes (s.inum ip) = (s.itable ip).copy
  noHoles : (s.itable ip).copy.NoHoles s.disk

/-- A locked inode. -/
theorem Base.solid {held : Multiset (Fin NINODE)} {locks : Finset (Fin NINODE)}
    (h : Base s held locks) (hip : ip ∈ locks) (hop : 0 < s.outstanding) : Solid s ip where
  sb := h.sb
  outstanding := hop
  bufs := h.bufs
  owned := h.image.owned
  allocated := h.allocated (h.refs_of_lock hip) (h.valid_of_lock hip)
  copy := (h.copy_eq (h.refs_of_lock hip) (h.valid_of_lock hip)).symm
  noHoles := h.noHoles (h.refs_of_lock hip) (h.valid_of_lock hip)

/-- The bytes of the file of an inode. -/
def FsState.data (s : FsState) (ip : Fin NINODE) : List UInt8 :=
  (s.itable ip).copy.bytes s.disk 0 (s.itable ip).copy.size

theorem length_data (s : FsState) (ip : Fin NINODE) :
    (s.data ip).length = (s.itable ip).copy.size := by
  simp [FsState.data, Dinode.bytes]

/-- Reading a part of the file. -/
theorem take_drop_data (s : FsState) (ip : Fin NINODE) (off n : ℕ) :
    ((s.data ip).drop off).take n = (s.itable ip).copy.bytes s.disk off
      (min n ((s.itable ip).copy.size - off)) := by
  apply List.ext_getElem
  · simp [length_data, Dinode.bytes]
  · intro k hk hk'
    simp [FsState.data, Dinode.bytes]

theorem data_put (s : FsState) (ip : Fin NINODE) (disk : Device) (copy : Dinode)
    (logged : List ℕ) : (s.put ip disk copy logged).data ip = copy.bytes disk 0 copy.size := by
  rw [FsState.data, put_itable_self]
  rfl

/-- The inode changes, in the table and on the disk. -/
theorem Solid.put (h : Solid s ip) {disk : Device} {copy : Dinode} (logged : List ℕ)
    (hchange : Change s.sb s.disk s.inodes disk (Function.update s.inodes (s.inum ip) copy)
      (s.inum ip))
    (hdinode : ∀ j, j < s.sb.ninodes → s.sb.dinode disk j =
      if j = s.inum ip then copy else s.sb.dinode s.disk j)
    (htype : copy.type ≠ 0) (hholes : copy.NoHoles disk) :
    Solid (s.put ip disk copy logged) ip ∧ (s.put ip disk copy logged).inum ip = s.inum ip ∧
      ∀ j, j ≠ s.inum ip → (s.put ip disk copy logged).node j = s.node j := by
  have hinodes : (s.put ip disk copy logged).inodes = Function.update s.inodes (s.inum ip) copy :=
    inodes_of_dinode rfl h.allocated.1 hdinode
  have hinum : (s.put ip disk copy logged).inum ip = s.inum ip := by
    rw [FsState.inum, put_itable_self, FsState.inum]
  have hself : (s.put ip disk copy logged).inodes (s.inum ip) = copy := by
    rw [hinodes, Function.update_self]
  have hcopy : ((s.put ip disk copy logged).itable ip).copy = copy := by rw [put_itable_self]
  rw [← hinodes] at hchange
  refine ⟨⟨h.sb, h.outstanding, h.bufs, hchange.owned, ?_, ?_, ?_⟩, hinum, fun j hj ↦ ?_⟩
  · rw [hinum]
    exact ⟨h.allocated.1, by rw [hself]; exact htype⟩
  · rw [hinum, hself, hcopy]
  · rw [hcopy]
    exact hholes
  · rw [node_of_change hinodes hchange, Function.update_of_ne hj]

theorem getElem?_bytes (disk : Device) (d : Dinode) (count x : ℕ) :
    (d.bytes disk 0 count)[x]? = if x < count then some (d.byteAt disk x) else none := by
  rw [Dinode.bytes, List.getElem?_map]
  split
  · rename_i hx
    simp [hx]
  · rename_i hx
    simp [hx]

/-- The bytes of a file after a write. -/
theorem Written.bytes {live : ℕ → Dinode} {mem : Source} {src off n done : ℕ} {disk : Device}
    {copy : Dinode} (h : Written s live ip mem src off n done disk copy)
    (hmem : ∀ k, k < n → (mem (src + k)).isSome) :
    done = n ∧ copy.bytes disk 0 copy.size =
      (s.data ip).take off ++ copyin mem src n ++ (s.data ip).drop (off + n) := by
  obtain ⟨hdone, hbytes⟩ := h.all hmem
  obtain ⟨hlength, hcopied⟩ := copyin_mapped hmem
  subst hdone
  have hsize : copy.size = max (s.itable ip).copy.size (off + done) := by rw [h.fields]
  have hoff := h.off_le
  have htake : ((s.data ip).take off).length = off := by
    rw [List.length_take, length_data, min_eq_left hoff]
  refine ⟨rfl, List.ext_getElem? fun x ↦ ?_⟩
  rw [getElem?_bytes, hsize, List.append_assoc]
  by_cases hbefore : x < off
  · rw [List.getElem?_append_left (by rw [htake]; exact hbefore), List.getElem?_take_of_lt hbefore,
      FsState.data, getElem?_bytes, if_pos (by omega), if_pos (by omega), h.outside x (.inl hbefore)]
  · rw [List.getElem?_append_right (by rw [htake]; omega), htake]
    by_cases hinside : x < off + done
    · have hx := hbytes (x - off) (by omega)
      have hx' := hcopied (x - off) (by omega)
      rw [show off + (x - off) = x by omega, ← hx'] at hx
      rw [List.getElem?_append_left (by rw [hlength]; omega), if_pos (by omega), hx,
        List.getD_eq_getElem?_getD, List.getElem?_eq_getElem (by rw [hlength]; omega)]
      rfl
    · rw [List.getElem?_append_right (by rw [hlength]; omega), hlength, List.getElem?_drop,
        show off + done + (x - off - done) = x by omega, FsState.data, getElem?_bytes,
        h.outside x (.inr (by omega))]
      by_cases hend : x < (s.itable ip).copy.size
      · rw [if_pos (by omega), if_pos hend]
      · rw [if_neg (by omega), if_neg hend]

/-- What a call does to the file of the inode, and that it leaves the other files as they were.  It
stops only if there is no free block. -/
theorem FileOp.code_spec (h : Solid s ip) {op : FileOp} (hop : op.Mapped) :
    wp (op.code ip) (fun r s' ↦ Solid s' ip ∧ s'.inum ip = s.inum ip ∧
      (r, s'.data ip) = op.apply (s.data ip) ∧ (r.1 = -1 → s' = s) ∧
      ∀ j, j ≠ s.inum ip → s'.node j = s.node j) (· = .panic .ballocOut) s := by
  have hmaxfile : MAXFILE * BSIZE < 2 ^ 32 := by decide
  have htype : (s.itable ip).copy.type ≠ 0 := h.copy ▸ h.allocated.2
  cases op with
  | writei mem src off n =>
    obtain ⟨-, hn, hmem⟩ := hop
    rw [FileOp.code, wp_bind]
    refine wp_post (writei_spec (E := (· = .panic .ballocOut)) mem src off n (fun _ _ ↦ rfl) h.sb
      h.outstanding h.bufs h.copy h.owned h.allocated h.noHoles hn) ?_
    rintro r _ (⟨hbad, rfl, rfl⟩ | ⟨done, disk, copy, logged, rfl, rfl, hwritten⟩)
    · refine ⟨h, rfl, ?_, fun _ ↦ rfl, fun _ _ ↦ rfl⟩
      rw [FileOp.apply, length_data, if_pos (by omega)]
    · have hoff := hwritten.off_le
      have hfits := hwritten.fits
      obtain ⟨rfl, hbytes⟩ := hwritten.bytes hmem
      obtain ⟨hsolid, hinum, hnode⟩ := h.put logged hwritten.change hwritten.dinode
        (by rw [hwritten.fields]; exact htype) hwritten.noHoles
      refine ⟨hsolid, hinum, ?_, fun hr ↦ ?_, hnode⟩
      · rw [data_put, hbytes, FileOp.apply, length_data, if_neg (by omega)]
      · exact absurd hr (by simp)
  | readi mem dst off n =>
    obtain ⟨-, hn, hmem⟩ := hop
    refine wp_post (readi_spec h.bufs h.noHoles mem dst off hn) ?_
    rintro r _ ⟨rfl, hr⟩
    refine ⟨h, rfl, ?_, fun _ ↦ rfl, fun _ _ ↦ rfl⟩
    rw [hr hmem, FileOp.apply, length_data]
    split
    · rfl
    · rw [take_drop_data]
      simp [Dinode.bytes]
  | itrunc =>
    rw [FileOp.code, wp_bind]
    refine wp_post (itrunc_spec h.sb h.outstanding h.bufs h.copy h.owned h.allocated) ?_
    rintro _ _ ⟨disk, logged, rfl, howned, hagree, hdinode⟩
    have hchange : Change s.sb s.disk s.inodes disk
        (Function.update s.inodes (s.inum ip) (s.itable ip).copy.truncated) (s.inum ip) :=
      .of_agree h.owned howned (fun j hj ↦ Function.update_of_ne hj _ _) hagree
    obtain ⟨hsolid, hinum, hnode⟩ := h.put logged hchange hdinode htype (truncated_noHoles _ _)
    refine ⟨hsolid, hinum, ?_, fun hr ↦ absurd hr (by decide), hnode⟩
    rw [data_put]
    rfl

/-- The code of a sequence of calls. -/
def FileOp.codeAll (ip : Fin NINODE) : List FileOp → FsM (List (ℤ × List UInt8))
  | [] => return []
  | op :: ops => do
      let result ← op.code ip
      let results ← codeAll ip ops
      return result :: results

/-- What a sequence of calls does. -/
theorem FileOp.codeAll_spec (h : Solid s ip) {ops : List FileOp} (hops : ∀ op ∈ ops, op.Mapped) :
    wp (codeAll ip ops) (fun results s' ↦ Solid s' ip ∧ s'.inum ip = s.inum ip ∧
      (results, s'.data ip) = applyAll (s.data ip) ops ∧
      ∀ j, j ≠ s.inum ip → s'.node j = s.node j) (· = .panic .ballocOut) s := by
  induction ops generalizing s with
  | nil => exact ⟨h, rfl, rfl, fun _ _ ↦ rfl⟩
  | cons op ops ih =>
    rw [codeAll, wp_bind]
    refine wp_post (code_spec h (hops op List.mem_cons_self)) ?_
    rintro r s₁ ⟨h₁, hinum₁, happly₁, -, hnode₁⟩
    rw [wp_bind]
    refine wp_post (ih h₁ fun op' hop' ↦ hops op' (List.mem_cons_of_mem _ hop')) ?_
    rintro rs s₂ ⟨h₂, hinum₂, happly₂, hnode₂⟩
    refine ⟨h₂, hinum₂.trans hinum₁, ?_, fun j hj ↦ ?_⟩
    · rw [applyAll, ← happly₁]
      dsimp only
      rw [← happly₂]
    · rw [hnode₂ j (hinum₁ ▸ hj), hnode₁ j hj]

/-- An inode without holes is an array of bytes: one call, and any sequence of calls, on it returns
and copies what the calls on the list of its bytes do, leaves the file with the bytes of that list
and leaves all other files as they were.  A call that returns -1 changes nothing. -/
theorem inode_refines_bytes (h : Solid s ip) :
    (∀ op : FileOp, op.Mapped → wp (op.code ip) (fun r s' ↦
      (r, s'.data ip) = op.apply (s.data ip) ∧ (r.1 = -1 → s' = s) ∧
      ∀ j, j ≠ s.inum ip → s'.node j = s.node j) (· = .panic .ballocOut) s) ∧
    ∀ ops : List FileOp, (∀ op ∈ ops, op.Mapped) → wp (FileOp.codeAll ip ops) (fun results s' ↦
      (results, s'.data ip) = FileOp.applyAll (s.data ip) ops ∧
      ∀ j, j ≠ s.inum ip → s'.node j = s.node j) (· = .panic .ballocOut) s :=
  ⟨fun _ hop ↦ wp_post (FileOp.code_spec h hop) fun _ _ hr ↦ hr.2.2,
    fun _ hops ↦ wp_post (FileOp.codeAll_spec h hops) fun _ _ hr ↦ hr.2.2⟩

/-- A new file on the small disk is written and read back. -/
theorem inode_refines_bytes_small : ∃ s : Pool,
    run InodeOp.step ⟨iinit smallSb (format smallSb 2), 0⟩
      [.beginOp, .ialloc T_FILE, .ilock ⟨0, by decide⟩] = .ok s ∧
    wp (FileOp.codeAll ⟨0, by decide⟩
      [.writei (kernelSource [1, 2, 3]) 0 0 3, .readi kernelDest 0 1 5]) (fun results s' ↦
        (results, s'.data ⟨0, by decide⟩) = ([(3, []), (2, [2, 3])], [1, 2, 3]) ∧
        ∀ j, j ≠ s.fs.inum ⟨0, by decide⟩ → s'.node j = s.fs.node j)
      (· = .panic .ballocOut) s.fs := by
  have hyields : yields (run InodeOp.step ⟨iinit smallSb (format smallSb 2), 0⟩
      [.beginOp, .ialloc T_FILE, .ilock ⟨0, by decide⟩])
      (fun s ↦ 0 < s.fs.outstanding ∧ (s.fs.itable ⟨0, by decide⟩).locked = true ∧
        s.fs.data ⟨0, by decide⟩ = []) = true := by decide +kernel
  obtain ⟨s, hrun, hop, hlocked, hdata⟩ := exists_of_yields hyields
  obtain ⟨locks, hbase⟩ := InodeOp.run_base wellFormed_small hrun
  have hsolid := hbase.solid ((hbase.table.slot _).lock.mp hlocked) hop
  refine ⟨s, hrun, wp_post ((inode_refines_bytes hsolid).2 _ fun op hop ↦ ?_) fun _ _ hr ↦ ?_⟩
  · simp only [List.mem_cons, List.not_mem_nil, or_false] at hop
    rcases hop with rfl | rfl
    · exact ⟨by decide, by decide, fun _ _ ↦ rfl⟩
    · exact ⟨by decide, by decide, fun _ _ ↦ rfl⟩
  · rw [hdata] at hr
    exact hr

end Xv6.Fs
