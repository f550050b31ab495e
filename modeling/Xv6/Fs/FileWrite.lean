import Xv6.Fs.ShortWrite
import Xv6.Fs.Writers

/-!
# What a Write Reports

`filewrite` writes to the inode of an open file a few blocks at a time, and each of these writes
moves the offset.  The call returns the number of bytes if all of them were written, and -1
otherwise: also when some blocks were written and only a later one could not be.  The result is as
the effect if the whole call succeeds, or if its first write fails and leaves the file as it was.
-/

namespace Xv6.Fs

open Lib

variable {s : FsState} {f : Fin NFILE} {mem : Source} {src off n : ℕ}

/-- What is in a file. -/
def Node.data (node : Node) : List UInt8 := node.bytes 0 node.size

theorem Node.getElem?_data (node : Node) (x : ℕ) :
    node.data[x]? = if x < node.size then some (node.byte x) else none := by
  rw [data, bytes, List.getElem?_map]
  by_cases hx : x < node.size
  · rw [List.getElem?_range hx, if_pos hx, Option.map_some, Nat.zero_add]
  · rw [List.getElem?_eq_none (by rw [List.length_range]; omega), if_neg hx, Option.map_none]

theorem Node.length_data (node : Node) : node.data.length = node.size := by
  rw [data, bytes, List.length_map, List.length_range]

/-! ## One write -/

/-- All bytes can be written. -/
structure Fits (node : Node) (off : ℕ) (mem : Source) (src n : ℕ) : Prop where
  off_le : off ≤ node.size
  room : off + n ≤ MAXFILE * BSIZE
  mapped : ∀ k, k < n → (mem (src + k)).isSome

/-- A write that fails leaves the file as it was: the range is refused, or the copy of the first
block fails, and what was copied is in the file already or behind its end. -/
def Untouched (node : Node) (off : ℕ) (mem : Source) (src n : ℕ) : Prop :=
  node.size < off ∨ MAXFILE * BSIZE < off + n ∨
    (unreported mem src off n 0).length < min n (BSIZE - off % BSIZE) ∧
      ∀ k byte, (unreported mem src off n 0)[k]? = some byte →
        ∀ before, node.data[off + k]? = some before → byte = before

/-- An attempt to write `n` bytes at the offset: the result, the new offset and the new file. -/
inductive Attempt (node : Node) (off : ℕ) (mem : Source) (src n : ℕ) : ℤ → ℕ → Node → Prop
  | refused (hrange : node.size < off ∨ MAXFILE * BSIZE < off + n) :
      Attempt node off mem src n (-1) off node
  | stored {done : ℕ} {byte : ℕ → UInt8} (hoff : off ≤ node.size)
      (hroom : off + n ≤ MAXFILE * BSIZE) (hstores : Stores mem src off n done node.byte byte) :
      Attempt node off mem src n done (off + done)
        (node.setContents (max node.size (off + done)) byte)

theorem unreported_zero (mem : Source) (src off n : ℕ) :
    unreported mem src off n 0 = copyin mem src (min n (BSIZE - off % BSIZE)) := rfl

theorem Fits.not_untouched {node : Node} (h : Fits node off mem src n) :
    ¬ Untouched node off mem src n := by
  rintro (hlt | hlt | ⟨hlt, -⟩)
  · exact Nat.not_lt.mpr h.off_le hlt
  · exact Nat.not_lt.mpr h.room hlt
  · rw [unreported_zero, (copyin_mapped fun k hk ↦ h.mapped k (by omega)).1] at hlt
    exact Nat.lt_irrefl _ hlt

/-- The bytes that are counted are in memory. -/
theorem Stores.mapped {done : ℕ} {old new : ℕ → UInt8} (h : Stores mem src off n done old new)
    {k : ℕ} (hk : k < done) : (mem (src + k)).isSome := by
  rw [← h.bytes k (by omega)]
  rfl

/-- A write that stops in the first block. -/
theorem Stores.stops_iff {done : ℕ} {old new : ℕ → UInt8} (h : Stores mem src off n done old new)
    (hlt : done < n) :
    (unreported mem src off n 0).length < min n (BSIZE - off % BSIZE) ↔ done = 0 := by
  constructor
  · intro hshort
    by_contra hpos
    have haligned := h.aligned hlt (by omega)
    rw [unreported_zero, (copyin_mapped fun k hk ↦ h.mapped ?_).1] at hshort
    · exact Nat.lt_irrefl _ hshort
    · simp only [BSIZE] at *
      omega
  · rintro rfl
    exact h.short hlt

namespace Attempt

variable {node node' : Node} {off' : ℕ} {r : ℤ}

/-- A write of all bytes. -/
theorem full (h : Attempt node off mem src n r off' node') (hr : r = n) :
    Fits node off mem src n ∧ off' = off + n ∧ off' ≤ node'.size ∧
      node'.data = overwrite node.data mem src off n := by
  cases h with
  | refused => omega
  | @stored done byte hoff hroom hstores =>
    obtain rfl : done = n := by omega
    have hmapped : ∀ k, k < done → (mem (src + k)).isSome := fun k hk ↦ hstores.mapped hk
    obtain ⟨hlength, hcopied⟩ := copyin_mapped hmapped
    refine ⟨⟨hoff, hroom, hmapped⟩, rfl, le_max_right _ _, List.ext_getElem? fun x ↦ ?_⟩
    rw [getElem?_overwrite (by rwa [Node.length_data]) hlength, Node.getElem?_data,
      Node.getElem?_data]
    show (if x < max node.size (off + done) then some (byte x) else none) = _
    by_cases hinside : off ≤ x ∧ x < off + done
    · obtain ⟨k, rfl⟩ := Nat.exists_eq_add_of_le hinside.1
      have hk : k < done := by omega
      rw [if_pos (by omega), if_pos hinside, Nat.add_sub_cancel_left, hcopied k hk,
        hstores.bytes k (by omega)]
    · have hnone : (unreported mem src off done done).length = 0 := by
        have := length_unreported_le mem src off (le_refl done)
        omega
      rw [if_neg hinside, hstores.outside x (by omega)]
      by_cases hx : x < node.size
      · rw [if_pos hx, if_pos (by omega)]
      · rw [if_neg hx, if_neg (by omega)]

/-- The file is as it was if the bytes that were stored before the copy failed are there already. -/
theorem data_eq_iff {byte : ℕ → UInt8} (hoff : off ≤ node.size)
    (hstores : Stores mem src off n 0 node.byte byte) :
    (node.setContents (max node.size (off + 0)) byte).data = node.data ↔
      ∀ k byte, (unreported mem src off n 0)[k]? = some byte →
        ∀ before, node.data[off + k]? = some before → byte = before := by
  have hcopied : ∀ k, k < (unreported mem src off n 0).length →
      (unreported mem src off n 0)[k]? = some (byte (off + k)) := by
    intro k hk
    have hmem : some ((unreported mem src off n 0).getD k 0) = mem (src + 0 + k) := getD_copyin hk
    rw [Nat.add_zero, ← hstores.bytes k (by omega)] at hmem
    rw [← hmem, List.getD_eq_getElem?_getD, List.getElem?_eq_getElem hk]
    rfl
  have hdata : ∀ x, (node.setContents (max node.size (off + 0)) byte).data[x]? =
      if x < node.size then some (byte x) else none := by
    intro x
    rw [Node.getElem?_data, Nat.add_zero]
    show (if x < max node.size off then some (byte x) else none) = _
    rw [max_eq_left hoff]
  constructor
  · intro hsame k b hb before hbefore
    obtain ⟨hk, -⟩ := List.getElem?_eq_some_iff.mp hb
    rw [hcopied k hk] at hb
    rw [← hsame, hdata] at hbefore
    split at hbefore
    · exact Option.some.inj (hb.symm.trans hbefore)
    · cases hbefore
  · intro hsame
    refine List.ext_getElem? fun x ↦ ?_
    rw [hdata, Node.getElem?_data]
    by_cases hx : x < node.size
    · rw [if_pos hx, if_pos hx]
      by_cases hinside : off ≤ x ∧ x < off + (unreported mem src off n 0).length
      · obtain ⟨k, rfl⟩ := Nat.exists_eq_add_of_le hinside.1
        refine congrArg some (hsame k _ (hcopied k (by omega)) _ ?_)
        rw [Node.getElem?_data, if_pos hx]
      · rw [hstores.outside x (by omega)]
    · rw [if_neg hx, if_neg hx]

/-- A write of fewer bytes, or of none. -/
theorem short (h : Attempt node off mem src n r off' node') (hr : r ≠ n) :
    ¬ Fits node off mem src n ∧ off ≤ off' ∧
      (off' = off ∧ node'.data = node.data ↔ Untouched node off mem src n) := by
  cases h with
  | refused hrange =>
    refine ⟨fun hfits ↦ ?_, le_refl _, iff_of_true ⟨rfl, rfl⟩ (or_assoc.mp (.inl hrange))⟩
    have := hfits.off_le
    have := hfits.room
    omega
  | @stored done byte hoff hroom hstores =>
    have hle := hstores.le
    have hlt : done < n := by omega
    refine ⟨fun hfits ↦ ?_, Nat.le_add_right _ _, ?_⟩
    · exact hlt.ne (done_of_mapped hle hstores.short hfits.mapped)
    · rw [Untouched, or_iff_right (Nat.not_lt.mpr hoff), or_iff_right (Nat.not_lt.mpr hroom),
        hstores.stops_iff hlt, Nat.add_eq_left]
      refine and_congr_right fun hzero ↦ ?_
      subst hzero
      exact data_eq_iff hoff hstores

end Attempt

/-! ## The loop -/

/-- A file is open for writing, and no other call is running. -/
structure WriteReady (s : FsState) (f : Fin NFILE) : Prop where
  base : Base s 0 ∅
  type : (s.ftable f).type = .inode
  writable : (s.ftable f).writable = true

/-- An iteration of the loop of `filewrite`, up to the test of the result. -/
def writeChunk (f : Fin NFILE) (mem : Source) (src : ℕ) (n1 : ℤ) : FsM ℤ := do
  beginOp
  let file := (← get).ftable f
  ilock file.ip
  let r ← writei file.ip mem src file.off n1.toNat
  if 0 < r then setFile f { file with off := (file.off + r.toNat) % 2 ^ 32 } else pure ()
  iunlock file.ip
  endOp
  return r

theorem filewriteLoop_succ (f : Fin NFILE) (mem : Source) (addr : ℕ) (n : ℤ) (fuel : ℕ) (i : ℤ) :
    filewriteLoop f mem addr n (fuel + 1) i =
      if i < n then do
        let r ← writeChunk f mem (addr + i.toNat) (min (n - i) MAXCHUNK)
        if r ≠ min (n - i) MAXCHUNK then return i
        else filewriteLoop f mem addr n fuel (i + r)
      else return i := by
  rw [filewriteLoop, writeChunk]
  split
  · simp only [bind_assoc]
    refine bind_congr fun _ ↦ bind_congr fun _ ↦ bind_congr fun _ ↦ bind_congr fun r ↦ ?_
    split
    · simp only [bind_assoc, pure_bind]
    · simp only [bind_assoc, pure_bind]
  · rfl

/-- The end of an iteration. -/
theorem unlock_file {E : Stop → Prop} {ip : Fin NINODE} (h : Base s 0 {ip})
    (hip : (s.ftable f).ip = ip) (htype : (s.ftable f).type = .inode)
    (hwritable : (s.ftable f).writable = true) (r : ℤ) :
    wp (do
      iunlock ip
      endOp
      return r) (fun r' s' ↦ r' = r ∧ WriteReady s' f ∧ s'.ftable f = s.ftable f ∧
        s'.target f = s.target f) E s := by
  have huses : 0 < s.uses ip := by
    rw [← hip]
    exact FsState.uses_pos (by rw [htype]; rfl)
  rw [wp_bind]
  refine wp_post (iunlock_last h) ?_
  rintro _ s₁ ⟨hcall, hkeeps⟩
  rw [wp_bind, wp_endOp]
  refine ⟨rfl, ⟨hcall.1.log _ _, ?_, ?_⟩, congrFun hkeeps.ftable f, ?_⟩
  · show (s₁.ftable f).type = .inode
    rw [hkeeps.ftable, htype]
  · show (s₁.ftable f).writable = true
    rw [hkeeps.ftable, hwritable]
  · show s₁.node (s₁.inum (s₁.ftable f).ip) = _
    rw [hkeeps.ftable, hkeeps.node, hip, hkeeps.inum _ (Nat.add_pos_left huses _)]
    rw [FsState.target, hip]

/-- One iteration of the loop. -/
theorem writeChunk_spec (h : WriteReady s f) (mem : Source) (src : ℕ) {n : ℕ} (hn : n < 2 ^ 32) :
    wp (writeChunk f mem src n) (fun r s' ↦ WriteReady s' f ∧
      Attempt (s.target f) (s.ftable f).off mem src n r (s'.ftable f).off (s'.target f))
      (· = .panic .ballocOut) s := by
  set ip := (s.ftable f).ip with hip
  have huses : 0 < s.uses ip := FsState.uses_pos (by rw [h.type]; rfl)
  rw [writeChunk, wp_bind, wp_beginOp, wp_bind, wp_get, wp_bind]
  set s₀ : FsState := { s with outstanding := s.outstanding + 1 } with hs₀
  have h₀ : Base s₀ 0 ∅ := h.base.log _ _
  have htype₀ : (s₀.ftable f).type.hasInode = true := by
    rw [hs₀, h.type]
    rfl
  refine wp_post (ilock_open h₀ htype₀ fun hlock ↦ absurd hlock (Finset.notMem_empty _)) ?_
  rintro _ s₁ ⟨h₁, hkeeps₁, hnode₁⟩
  replace hnode₁ : s₁.node (s₁.inum ip) = s.target f := hnode₁
  have hdir : (s₁.node (s₁.inum ip)).type ≠ T_DIR := by
    rw [hnode₁]
    exact h.base.files.notDir f h.type h.writable
  rw [wp_bind]
  refine wp_post (writei_locked_exact h₁ (by rw [hkeeps₁.outstanding]; exact Nat.succ_pos _)
    (by simp) mem src (s.ftable f).off hn (fun _ _ ↦ rfl) fun htdir ↦ absurd htdir hdir) ?_
  rw [hnode₁]
  rintro r s₂ (⟨hrange, rfl, rfl⟩ | ⟨done, byte, rfl, hoff, hroom, hstores, h₂, hsets⟩)
  · rw [if_neg (by decide)]
    refine wp_post (unlock_file h₁ (by rw [hkeeps₁.ftable]) (by rw [hkeeps₁.ftable]; exact h.type)
      (by rw [hkeeps₁.ftable]; exact h.writable) _) ?_
    rintro _ s' ⟨rfl, hready, hfile, htarget⟩
    have htarget₁ : s₂.target f = s.target f := by
      rw [FsState.target, hkeeps₁.ftable]
      exact hnode₁
    rw [hfile, htarget, htarget₁, hkeeps₁.ftable]
    exact ⟨hready, .refused hrange⟩
  · have hftable₂ : s₂.ftable = s.ftable := hsets.ftable.trans hkeeps₁.ftable
    have hnode₂ : s₂.node (s₂.inum ip) =
        (s.target f).setContents (max (s.target f).size ((s.ftable f).off + done)) byte := by
      rw [hsets.inum _ (Nat.add_pos_left (hkeeps₁.uses ▸ huses) _), hsets.node,
        Function.update_self]
    have hsmall : (s.ftable f).off + done < 2 ^ 32 := by
      have hmax : MAXFILE * BSIZE < 2 ^ 32 := by decide
      have := hstores.le
      omega
    -- The offset is moved by what was written, also if that is nothing.
    have hmoved : ∀ t : FsState, Base t 0 {ip} →
        t.ftable f = { s.ftable f with off := (s.ftable f).off + done } →
        t.node (t.inum ip) = s₂.node (s₂.inum ip) →
        wp (do
          iunlock ip
          endOp
          return (done : ℤ)) (fun r s' ↦ WriteReady s' f ∧ Attempt (s.target f) (s.ftable f).off mem
            src n r (s'.ftable f).off (s'.target f)) (· = .panic .ballocOut) t := by
      intro t ht hfile hnode
      refine wp_post (unlock_file ht (by rw [hfile]) (by rw [hfile]; exact h.type)
        (by rw [hfile]; exact h.writable) _) ?_
      rintro _ s' ⟨rfl, hready, hfile', htarget⟩
      have htarget' : t.target f = s₂.node (s₂.inum ip) := by
        rw [FsState.target, hfile]
        exact hnode
      rw [hfile', htarget, htarget', hnode₂, hfile]
      exact ⟨hready, .stored hoff hroom hstores⟩
    by_cases hdone : 0 < done
    · rw [if_pos (by exact_mod_cast hdone), wp_bind, wp_setFile]
      have hput := (h₂.putOff f (((s.ftable f).off + done) % 2 ^ 32)).1
      rw [hftable₂] at hput
      refine hmoved _ hput ?_ rfl
      show Function.update s₂.ftable f
        { s.ftable f with off := ((s.ftable f).off + done) % 2 ^ 32 } f = _
      rw [Function.update_self, Nat.mod_eq_of_lt hsmall]
    · obtain rfl : done = 0 := by omega
      rw [if_neg (by simp)]
      exact hmoved s₂ h₂ (by rw [hftable₂]; rfl) rfl

theorem overwrite_zero (data : List UInt8) (mem : Source) (src off : ℕ) :
    overwrite data mem src off 0 = data := by
  rw [overwrite, copyin, List.append_nil, Nat.add_zero, List.take_append_drop]

/-- A write in two parts. -/
theorem overwrite_add {data : List UInt8} {a b : ℕ} (hoff : off ≤ data.length)
    (hmem : ∀ k, k < a → (mem (src + k)).isSome) :
    overwrite (overwrite data mem src off a) mem (src + a) (off + a) b =
      overwrite data mem src off (a + b) := by
  have hlength : (data.take off ++ copyin mem src a).length = off + a := by
    rw [List.length_append, List.length_take, min_eq_left hoff, (copyin_mapped hmem).1]
  have htake : (overwrite data mem src off a).take (off + a) = data.take off ++ copyin mem src a := by
    rw [overwrite, ← hlength, List.take_left]
  have hdrop : (overwrite data mem src off a).drop (off + a + b) = data.drop (off + (a + b)) := by
    rw [overwrite, ← List.drop_drop, ← hlength, List.drop_left, hlength, List.drop_drop,
      Nat.add_assoc]
  rw [overwrite, htake, hdrop, overwrite, copyin_append hmem, List.append_assoc (data.take off)]

/-- The bytes of a write in two parts. -/
theorem fits_add_iff {node node' : Node} {a b : ℕ} (h : Fits node off mem src a)
    (hsize : off + a ≤ node'.size) :
    Fits node' (off + a) mem (src + a) b ↔ Fits node off mem src (a + b) := by
  constructor
  · intro hrest
    refine ⟨h.off_le, by have := hrest.room; omega, fun k hk ↦ ?_⟩
    by_cases hfirst : k < a
    · exact h.mapped k hfirst
    · have hmapped := hrest.mapped (k - a) (by omega)
      rwa [show src + a + (k - a) = src + k by omega] at hmapped
  · intro hall
    refine ⟨hsize, by have := hall.room; omega, fun k hk ↦ ?_⟩
    rw [Nat.add_assoc]
    exact hall.mapped (a + k) (by omega)

/-- The loop has written all bytes. -/
structure WroteAll (s s' : FsState) (f : Fin NFILE) (mem : Source) (src n : ℕ) : Prop where
  fits : 0 < n → Fits (s.target f) (s.ftable f).off mem src n
  off : (s'.ftable f).off = (s.ftable f).off + n
  data : (s'.target f).data = overwrite (s.target f).data mem src (s.ftable f).off n

/-- One of the writes of the loop has failed. -/
structure Stopped (s s' : FsState) (f : Fin NFILE) (mem : Source) (src n : ℕ) : Prop where
  pos : 0 < n
  fits : ¬ Fits (s.target f) (s.ftable f).off mem src n
  off_le : (s.ftable f).off ≤ (s'.ftable f).off
  same : (s'.ftable f).off = (s.ftable f).off ∧ (s'.target f).data = (s.target f).data ↔
    Untouched (s.target f) (s.ftable f).off mem src (min n MAXCHUNK.toNat)

section Iteration

variable {s₁ s' : FsState} {a b : ℕ}

/-- An iteration writes all its bytes, and so do the ones after it. -/
theorem WroteAll.cons
    (h : Attempt (s.target f) (s.ftable f).off mem src a a (s₁.ftable f).off (s₁.target f))
    (hrest : WroteAll s₁ s' f mem (src + a) b) : WroteAll s s' f mem src (a + b) := by
  obtain ⟨hfits, hoff, hsize, hdata⟩ := h.full rfl
  rw [hoff] at hsize
  refine ⟨fun _ ↦ ?_, ?_, ?_⟩
  · rcases Nat.eq_zero_or_pos b with hzero | hpos
    · rwa [hzero, Nat.add_zero]
    · have hfits' := hrest.fits hpos
      rw [hoff] at hfits'
      exact (fits_add_iff hfits hsize).mp hfits'
  · rw [hrest.off, hoff, Nat.add_assoc]
  · rw [hrest.data, hdata, hoff, overwrite_add _ hfits.mapped]
    rw [Node.length_data]
    exact hfits.off_le

/-- An iteration writes all its bytes, and a later one fails: the offset has been moved. -/
theorem Stopped.cons (ha : 0 < a)
    (hchunk : a = min (a + b) MAXCHUNK.toNat)
    (h : Attempt (s.target f) (s.ftable f).off mem src a a (s₁.ftable f).off (s₁.target f))
    (hrest : Stopped s₁ s' f mem (src + a) b) : Stopped s s' f mem src (a + b) := by
  obtain ⟨hfits, hoff, hsize, -⟩ := h.full rfl
  have hle := hrest.off_le
  have hnot := hrest.fits
  rw [hoff] at hle hsize hnot
  refine ⟨by omega, ?_, by omega, ?_⟩
  · rwa [← fits_add_iff hfits hsize]
  · rw [← hchunk]
    refine iff_of_false ?_ hfits.not_untouched
    rintro ⟨heq, -⟩
    omega

/-- The first iteration fails. -/
theorem Stopped.first {r : ℤ} (hb : 0 < b) (ha : a = min b MAXCHUNK.toNat)
    (h : Attempt (s.target f) (s.ftable f).off mem src a r (s₁.ftable f).off (s₁.target f))
    (hr : r ≠ a) : Stopped s s₁ f mem src b := by
  obtain ⟨hnot, hle, hiff⟩ := h.short hr
  rw [ha] at hiff
  refine ⟨hb, fun hfits ↦ hnot ⟨hfits.off_le, ?_, fun k hk ↦ hfits.mapped k ?_⟩, hle, hiff⟩
  · have := hfits.room
    omega
  · omega

end Iteration

/-- The loop of `filewrite`. -/
theorem filewriteLoop_exact (mem : Source) (addr : ℕ) {j m fuel : ℕ} (h : WriteReady s f)
    (hj : j ≤ m) (hfuel : m < j + fuel) :
    wp (filewriteLoop f mem addr m fuel j) (fun i s' ↦
      i = m ∧ WroteAll s s' f mem (addr + j) (m - j) ∨
        i ≠ m ∧ Stopped s s' f mem (addr + j) (m - j)) (· = .panic .ballocOut) s := by
  induction fuel generalizing s j with
  | zero => omega
  | succ fuel ih =>
    rw [filewriteLoop_succ]
    by_cases hlt : j < m
    · have hchunk : min ((m : ℤ) - j) MAXCHUNK = (min (m - j) MAXCHUNK.toNat : ℕ) := by
        have : MAXCHUNK = (MAXCHUNK.toNat : ℕ) := by decide
        omega
      obtain ⟨a, ha⟩ : ∃ a, a = min (m - j) MAXCHUNK.toNat := ⟨_, rfl⟩
      have hmax : 0 < MAXCHUNK.toNat ∧ MAXCHUNK.toNat < 2 ^ 32 := by decide
      rw [if_pos (by exact_mod_cast hlt), hchunk, ← ha, Int.toNat_natCast, wp_bind]
      refine wp_post (writeChunk_spec h mem _ (by omega)) ?_
      rintro r s₁ ⟨hready, hattempt⟩
      by_cases hr : r = a
      · subst hr
        rw [if_neg (by simp)]
        have hij : ((j : ℤ) + (a : ℤ)) = ((j + a : ℕ) : ℤ) := by push_cast; rfl
        rw [hij]
        refine wp_post (ih hready (by omega) (by omega)) ?_
        have hrest : m - j = a + (m - (j + a)) := by omega
        rw [← Nat.add_assoc, hrest]
        rintro i s' (⟨hi, hall⟩ | ⟨hi, hstopped⟩)
        · exact .inl ⟨hi, .cons hattempt hall⟩
        · exact .inr ⟨hi, .cons (by omega) (by omega) hattempt hstopped⟩
      · rw [if_pos hr]
        exact .inr ⟨by omega, .first (by omega) ha hattempt hr⟩
    · rw [if_neg (by exact_mod_cast hlt)]
      obtain rfl : j = m := by omega
      refine .inl ⟨rfl, ?_⟩
      rw [Nat.sub_self]
      exact ⟨fun hpos ↦ absurd hpos (Nat.lt_irrefl 0), rfl, (overwrite_zero ..).symm⟩

/-- The result of a write to an open file is as its effect. -/
def Reports (s s' : FsState) (f : Fin NFILE) (mem : Source) (addr : ℕ) (r : ℤ) : Prop :=
  (∃ k : ℕ, r = k ∧ (s'.ftable f).off = (s.ftable f).off + k ∧ (copyin mem addr k).length = k ∧
    (s'.target f).data = overwrite (s.target f).data mem addr (s.ftable f).off k) ∨
  r = -1 ∧ (s'.ftable f).off = (s.ftable f).off ∧ (s'.target f).data = (s.target f).data

/-- The result of a write to an inode is as its effect if and only if there is nothing to write, the
file can take all bytes and all of them are in memory, or the first write of the call fails and
leaves the file as it was. -/
theorem filewrite_reports_iff (h : Base s 0 ∅) (htype : (s.ftable f).type = .inode) (mem : Source)
    (addr : ℕ) (n device : ℤ) :
    wp (filewrite f mem addr n device) (fun r s' ↦ Reports s s' f mem addr r ↔
      (s.ftable f).writable = false ∨ n ≤ 0 ∨
        Fits (s.target f) (s.ftable f).off mem addr n.toNat ∨
        Untouched (s.target f) (s.ftable f).off mem addr (min n.toNat MAXCHUNK.toNat))
      (· = .panic .ballocOut) s := by
  rw [filewrite, wp_bind, wp_get]
  dsimp only
  split
  · rename_i hwritable
    exact iff_of_true (.inr ⟨rfl, rfl, rfl⟩) (.inl hwritable)
  · rename_i hwritable
    rw [htype]
    dsimp only
    rw [wp_bind, or_iff_right hwritable]
    rcases lt_or_ge n 0 with hneg | hnonneg
    · -- The loop is not entered.
      rw [filewriteLoop_succ, if_neg (by omega)]
      show Reports s s f mem addr (if 0 = n then n else -1) ↔ _
      rw [if_neg (by omega)]
      exact iff_of_true (.inr ⟨rfl, rfl, rfl⟩) (.inl hneg.le)
    · obtain ⟨m, rfl⟩ := Int.eq_ofNat_of_zero_le hnonneg
      have hready : WriteReady s f := ⟨h, htype, Bool.of_not_eq_false hwritable⟩
      refine wp_post (filewriteLoop_exact mem addr hready (Nat.zero_le m) (by simp)) ?_
      rw [Nat.add_zero, Nat.sub_zero]
      rintro i s' (⟨rfl, hall⟩ | ⟨hi, hstopped⟩)
      · show Reports s s' f mem addr (if (m : ℤ) = m then m else -1) ↔ _
        rw [if_pos rfl]
        rcases Nat.eq_zero_or_pos m with rfl | hpos
        · exact iff_of_true (.inl ⟨0, rfl, hall.off, rfl, hall.data⟩) (.inl (le_refl _))
        · have hfits := hall.fits hpos
          exact iff_of_true (.inl ⟨m, rfl, hall.off, (copyin_mapped hfits.mapped).1, hall.data⟩)
            (.inr (.inl hfits))
      · show Reports s s' f mem addr (if i = (m : ℤ) then (m : ℤ) else -1) ↔ _
        have hpos : ¬ (m : ℤ) ≤ 0 := by
          have := hstopped.pos
          omega
        have hnot : ¬ Fits (s.target f) (s.ftable f).off mem addr (m : ℤ).toNat := hstopped.fits
        rw [if_neg hi, or_iff_right hpos, or_iff_right hnot, Int.toNat_natCast, ← hstopped.same]
        constructor
        · rintro (⟨k, hk, -⟩ | ⟨-, hsame⟩)
          · omega
          · exact hsame
        · exact fun hsame ↦ .inr ⟨rfl, hsame⟩

/-- A file is made, and three bytes are written to it. -/
theorem filewrite_reports_iff_three : ∃ s s' : FsState,
    run step small [.open initproc [97] (O_CREATE + O_RDWR)] = .ok s ∧
    filewrite ⟨0, by decide⟩ (kernelSource [1, 2, 3]) 0 3 0 s = .ok (3, s') ∧
    Reports s s' ⟨0, by decide⟩ (kernelSource [1, 2, 3]) 0 3 := by
  have hyields : yields (run step small [.open initproc [97] (O_CREATE + O_RDWR)]) (fun s ↦
      (s.ftable ⟨0, by decide⟩).type = .inode ∧ (s.ftable ⟨0, by decide⟩).off = 0 ∧
      yields (filewrite ⟨0, by decide⟩ (kernelSource [1, 2, 3]) 0 3 0 s)
        (fun result ↦ result.1 = 3) = true) = true := by decide +kernel
  obtain ⟨s, hopen, htype, hoff, hwrite⟩ := exists_of_yields hyields
  obtain ⟨⟨r, s'⟩, hwritten, rfl⟩ := exists_of_yields hwrite
  have hiff := wp_of_ok (filewrite_reports_iff (wellFormed_small.run hopen) htype _ 0 3 0) hwritten
  refine ⟨s, s', hopen, hwritten, hiff.mpr (.inr (.inr (.inl ⟨?_, ?_, by decide⟩)))⟩
  · rw [hoff]
    exact Nat.zero_le _
  · rw [hoff]
    decide

/-- A page is mapped from 0 on.  Of 1025 bytes to an empty file the last one is not in it: the first
block is written and the call returns -1. -/
theorem failed_write_moves_offset : ∃ s s' : FsState,
    run step small [.open initproc [97] (O_CREATE + O_RDWR)] = .ok s ∧
    (s.ftable ⟨0, by decide⟩).type = .inode ∧ (s.ftable ⟨0, by decide⟩).off = 0 ∧
    (s.target ⟨0, by decide⟩).type = T_FILE ∧ (s.target ⟨0, by decide⟩).size = 0 ∧
    filewrite ⟨0, by decide⟩ (onePage 9) 3072 1025 0 s = .ok (-1, s') ∧
    (s'.ftable ⟨0, by decide⟩).off = 1024 ∧ (s'.target ⟨0, by decide⟩).size = 1024 ∧
    ¬ Reports s s' ⟨0, by decide⟩ (onePage 9) 3072 (-1) := by
  have hyields : yields (run step small [.open initproc [97] (O_CREATE + O_RDWR)]) (fun s ↦
      (s.ftable ⟨0, by decide⟩).type = .inode ∧ (s.ftable ⟨0, by decide⟩).off = 0 ∧
      (s.target ⟨0, by decide⟩).type = T_FILE ∧ (s.target ⟨0, by decide⟩).size = 0 ∧
      yields (filewrite ⟨0, by decide⟩ (onePage 9) 3072 1025 0 s) (fun result ↦ result.1 = -1 ∧
        (result.2.ftable ⟨0, by decide⟩).off = 1024 ∧
        (result.2.target ⟨0, by decide⟩).size = 1024) = true) = true := by decide +kernel
  obtain ⟨s, hopen, htype, hoff, hfile, hsize, hwrite⟩ := exists_of_yields hyields
  obtain ⟨⟨r, s'⟩, hwritten, rfl, hoff', hsize'⟩ := exists_of_yields hwrite
  refine ⟨s, s', hopen, htype, hoff, hfile, hsize, hwritten, hoff', hsize', ?_⟩
  rintro (⟨k, hk, -⟩ | ⟨-, hsame, -⟩)
  · omega
  · rw [hoff, hoff'] at hsame
    cases hsame

end Xv6.Fs
