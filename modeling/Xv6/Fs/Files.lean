import Xv6.Fs.Path
import Xv6.Lib.Count

/-!
# Open Files

What the calls on open files do: `fileclose`, `fileread`, `filewrite`, `filestat`, and the
references that open files and current directories hold.
-/

namespace Xv6.Fs

open Lib

variable {s s' : FsState} {E : Stop → Prop} {held held' : Multiset (Fin NINODE)}
  {locks : Finset (Fin NINODE)} {ip : Fin NINODE}

/-! ## References of open files and current directories -/

/-- The reference that an open file holds. -/
def File.refers (file : File) (k : Fin NINODE) : ℕ :=
  if file.type.hasInode = true ∧ file.ip = k then 1 else 0

/-- The reference that a process holds. -/
def Proc.refers (proc : Proc) (k : Fin NINODE) : ℕ := if proc.cwd = some k then 1 else 0

/-- The state with another entry in the file table. -/
def FsState.putFile (s : FsState) (f : Fin NFILE) (file : File) : FsState :=
  { s with ftable := Function.update s.ftable f file }

/-- The state with another process. -/
def FsState.putProc (s : FsState) (p : Fin NPROC) (proc : Proc) : FsState :=
  { s with proc := Function.update s.proc p proc }

section Primitive

variable {T : Unit → FsState → Prop}

@[simp]
theorem wp_setFile (f : Fin NFILE) (file : File) :
    wp (setFile f file) T E s ↔ T () (s.putFile f file) := Iff.rfl

@[simp]
theorem wp_setOfile (p : Fin NPROC) (fd : Fin NOFILE) (f : Option (Fin NFILE)) :
    wp (setOfile p fd f) T E s ↔ T () (s.putProc p
      { s.proc p with ofile := Function.update (s.proc p).ofile fd f }) := Iff.rfl

@[simp]
theorem wp_setCwd (p : Fin NPROC) (ip : Option (Fin NINODE)) :
    wp (setCwd p ip) T E s ↔ T () (s.putProc p { s.proc p with cwd := ip }) := Iff.rfl

@[simp]
theorem wp_setPipe (pi : ℕ) (pipe : Pipe) :
    wp (setPipe pi pipe) T E s ↔ T () { s with pipe := Function.update s.pipe pi pipe } := Iff.rfl

@[simp]
theorem wp_kfree (pi : ℕ) :
    wp (kfree pi) T E s ↔ T () { s with
      pages := Function.update s.pages pi false
      pipe := Function.update s.pipe pi { readopen := true, writeopen := true } } := Iff.rfl

end Primitive

theorem uses_putFile (s : FsState) (f : Fin NFILE) (file : File) (k : Fin NINODE) :
    (s.putFile f file).uses k + (s.ftable f).refers k = s.uses k + file.refers k := by
  rw [FsState.uses, FsState.uses, Nat.add_right_comm, Nat.add_right_comm _ _ (file.refers k)]
  exact congrArg (· + _)
    (card_filter_update s.ftable f file fun file ↦ file.type.hasInode = true ∧ file.ip = k)

theorem uses_putProc (s : FsState) (p : Fin NPROC) (proc : Proc) (k : Fin NINODE) :
    (s.putProc p proc).uses k + (s.proc p).refers k = s.uses k + proc.refers k := by
  rw [FsState.uses, FsState.uses, Nat.add_assoc, Nat.add_assoc]
  exact congrArg (_ + ·) (card_filter_update s.proc p proc fun proc ↦ proc.cwd = some k)

/-- A step that changes neither the disk nor the inode table: references move between the running
call and open files or current directories. -/
theorem Base.transfer (h : Base s held locks) (hsb : s'.sb = s.sb) (hdisk : s'.disk = s.disk)
    (hitable : s'.itable = s.itable) (hbufs : s'.bufs = s.bufs)
    (hrefs : ∀ k, s'.uses k + held'.count k = s.uses k + held.count k)
    (hvalid : ∀ k, 0 < s'.uses k → 0 < s.uses k ∨ (s.itable k).valid = true)
    (hfiles : Files s') : Base s' held' locks := by
  have hinodes : s'.inodes = s.inodes := by
    funext i
    rw [FsState.inodes, FsState.inodes, hsb, hdisk]
  constructor
  case sb => rw [hsb]; exact h.sb
  case image =>
    rw [hsb, hdisk, hinodes]
    exact h.image
  case table =>
    refine ⟨fun k l ↦ ?_, fun k ↦ ?_⟩
    · simp only [FsState.inum, hitable]
      exact h.table.unique k l
    · rw [hsb, hinodes, hitable]
      have hslot := h.table.slot k
      refine ⟨by rw [hslot.refs, hrefs], hslot.dev, hslot.inum, hslot.lock, hslot.lockedOk,
        hslot.synced, fun huses ↦ ?_⟩
      rcases hvalid k huses with hused | hv
      · exact hslot.used hused
      · have href : 0 < (s.itable k).ref := by
          have := hrefs k
          rw [hslot.refs]
          omega
        exact ⟨(h.allocated href hv).2, .inl hv⟩
  case files => exact hfiles
  case bufs => rw [hbufs, h.bufs]

/-- The log is not part of the invariant. -/
theorem Base.log (h : Base s held locks) (outstanding : ℕ) (logged : List ℕ) :
    Base { s with outstanding := outstanding, logged := logged } held locks :=
  h.transfer rfl rfl rfl rfl (fun _ ↦ rfl) (fun _ ↦ .inl) ⟨h.files.unused, h.files.notDir⟩

/-! ## Calls that make or remove no entry -/

/-- What calls do to files that make or remove no directory entry: inodes without links are freed,
and files that are no directories are written. -/
structure Minor (s s' : FsState) : Prop where
  node : ∀ i, s'.node i = s.node i ∨ (s'.node i = .free ∧ (s.node i).nlink = 0) ∨
    ((s.node i).type ≠ 0 ∧ (s.node i).type ≠ T_DIR ∧
      ∃ size byte, s'.node i = (s.node i).setContents size byte)
  calm : s'.Calm

namespace Minor

theorem trans {s'' : FsState} (h : Minor s s') (h' : Minor s' s'') : Minor s s'' where
  node i := by
    rcases h.node i with hsame | ⟨hfree, hnlink⟩ | ⟨htype, hdir, size, byte, hset⟩
    · rw [← hsame]
      exact h'.node i
    · rcases h'.node i with hsame | ⟨hfree', -⟩ | ⟨htype, -⟩
      · exact .inr (.inl ⟨hsame.trans hfree, hnlink⟩)
      · exact .inr (.inl ⟨hfree', hnlink⟩)
      · exact absurd (by rw [hfree]; rfl) htype
    · rcases h'.node i with hsame | ⟨hfree, hnlink⟩ | ⟨-, -, size', byte', hset'⟩
      · exact .inr (.inr ⟨htype, hdir, size, byte, hsame.trans hset⟩)
      · rw [hset] at hnlink
        exact .inr (.inl ⟨hfree, hnlink⟩)
      · refine .inr (.inr ⟨htype, hdir, size', byte', ?_⟩)
        rw [hset', hset]
        rfl
  calm := h'.calm

/-- No file changes. -/
theorem same (hcalm : s.Calm) (hnode : s'.node = s.node) (huse : ∀ i, s.InUse i → s'.InUse i) :
    Minor s s' where
  node i := .inl (by rw [hnode])
  calm := hcalm.congr hnode huse

theorem ofKeeps (hcalm : s.Calm) (h : Keeps s s' held) : Minor s s' :=
  .same hcalm h.node fun i ↦ (h.inUse_iff i).mpr

/-- A file that is not a directory is written. -/
theorem write {i size : ℕ} {byte : ℕ → UInt8} (hcalm : s.Calm) (htype : (s.node i).type ≠ 0)
    (hdir : (s.node i).type ≠ T_DIR)
    (hnode : s'.node = Function.update s.node i ((s.node i).setContents size byte))
    (huse : ∀ i, s.InUse i → s'.InUse i) : Minor s s' where
  node j := by
    by_cases hj : j = i
    · subst hj
      exact .inr (.inr ⟨htype, hdir, size, byte, by rw [hnode, Function.update_self]⟩)
    · exact .inl (by rw [hnode, Function.update_of_ne hj])
  calm := by
    have hsame : ∀ j, (s'.node j).type = (s.node j).type ∧ (s'.node j).nlink = (s.node j).nlink := by
      intro j
      rw [hnode]
      by_cases hj : j = i
      · subst hj
        rw [Function.update_self]
        exact ⟨rfl, rfl⟩
      · rw [Function.update_of_ne hj]
        exact ⟨rfl, rfl⟩
    refine ⟨by rw [(hsame _).2]; exact hcalm.root, fun j hj hnlink ↦ huse j (hcalm.used j ?_ ?_)⟩
    · rwa [(hsame j).1] at hj
    · rwa [(hsame j).2] at hnlink

/-- An open file or a process gives up its reference to the entry `ip`. -/
theorem put {t : FsState} (h : Base s held locks) (hcalm : s.Calm) (hitable : t.itable = s.itable)
    (hnode : t.node = s.node) (huse : 0 < s.uses ip) (huses : ∀ k, k ≠ ip → s.uses k ≤ t.uses k)
    (hputs : Puts t s' 0 ip) : Minor s s' := by
  have hinum : t.inum ip = s.inum ip := by rw [FsState.inum, hitable, FsState.inum]
  -- The inodes of other entries are in use as before.
  have hother : ∀ j, j ≠ s.inum ip → s.InUse j → s'.InUse j := by
    rintro j hj ⟨k, hk, hkj⟩
    have hkip : k ≠ ip := by
      rintro rfl
      exact hj hkj.symm
    have hk' := huses k hkip
    refine (hputs.inUse_iff j).mpr ⟨k, by omega, ?_⟩
    rw [FsState.inum, hitable]
    exact hkj
  by_cases hlast : t.Last 0 ip
  · have hfreed := hputs.freed hlast
    rw [hnode, hinum] at hfreed
    have hnlink : (s.node (s.inum ip)).nlink = 0 := by
      rw [← hnode, ← hinum]
      exact hlast.2.1
    refine ⟨fun j ↦ ?_, ?_, fun j hj hzero ↦ ?_⟩
    · by_cases hj : j = s.inum ip
      · subst hj
        exact .inr (.inl ⟨by rw [hfreed, Function.update_self], hnlink⟩)
      · exact .inl (by rw [hfreed, Function.update_of_ne hj])
    · rw [hfreed, Function.update_of_ne]
      · exact hcalm.root
      · intro heq
        exact hcalm.root (by rw [heq]; exact hnlink)
    · by_cases hji : j = s.inum ip
      · rw [hfreed, hji, Function.update_self] at hj
        exact absurd rfl hj
      · rw [hfreed, Function.update_of_ne hji] at hj hzero
        exact hother j hji (hcalm.used j hj hzero)
  · have hkept := (hputs.kept hlast).trans hnode
    refine ⟨fun j ↦ .inl (by rw [hkept]), by rw [hkept]; exact hcalm.root, fun j hj hzero ↦ ?_⟩
    rw [hkept] at hj hzero
    by_cases hji : j = s.inum ip
    · -- It was not the last reference, or the entry is the root that was never locked.
      subst hji
      by_contra hnot
      refine hlast ⟨?_, by rw [hnode, hinum]; exact hzero, ?_, ?_⟩
      · rcases ((h.table.slot ip).used huse).2 with hvalid | hroot
        · rw [hitable]
          exact hvalid
        · exact absurd (hroot ▸ hzero : (s.node ROOTINO).nlink = 0) hcalm.root
      · by_contra hpos
        exact hnot ((hputs.inUse_iff _).mpr ⟨ip, by omega, hinum⟩)
      · simp
    · exact hother j hji (hcalm.used j hj hzero)

end Minor

/-! ## Closing files -/

/-- What a call does that makes or removes no entry. -/
def MinorCall (s s' : FsState) : Prop := Base s' 0 ∅ ∧ (s.Calm → Minor s s')

theorem MinorCall.trans {s'' : FsState} (h : MinorCall s s') (h' : MinorCall s' s'') :
    MinorCall s s'' :=
  ⟨h'.1, fun hcalm ↦ (h.2 hcalm).trans (h'.2 (h.2 hcalm).calm)⟩

theorem FsState.InUse.congr {i : ℕ} (h : s.InUse i) (hitable : s'.itable = s.itable)
    (huses : ∀ k, s.uses k ≤ s'.uses k) : s'.InUse i := by
  obtain ⟨k, hk, hinum⟩ := h
  exact ⟨k, lt_of_lt_of_le hk (huses k), by rw [FsState.inum, hitable]; exact hinum⟩

/-- An open file is not a directory that is open for writing. -/
theorem Files.putFile (h : Files s) {f : Fin NFILE} {file : File}
    (hunused : file.ref = 0 → file.type = .none)
    (hnotDir : file.type = .inode → file.writable = true →
      (s.node (s.inum file.ip)).type ≠ T_DIR) : Files (s.putFile f file) := by
  refine ⟨fun g ↦ ?_, fun g ↦ ?_⟩
  · change (Function.update s.ftable f file g).ref = 0 →
      (Function.update s.ftable f file g).type = .none
    by_cases hg : g = f
    · rw [hg, Function.update_self]
      exact hunused
    · rw [Function.update_of_ne hg]
      exact h.unused g
  · change (Function.update s.ftable f file g).type = .inode →
      (Function.update s.ftable f file g).writable = true →
        (s.node (s.inum (Function.update s.ftable f file g).ip)).type ≠ T_DIR
    by_cases hg : g = f
    · rw [hg, Function.update_self]
      exact hnotDir
    · rw [Function.update_of_ne hg]
      exact h.notDir g

/-- A change of an open file that keeps its reference. -/
theorem Base.putFile (h : Base s held locks) {f : Fin NFILE} {file : File}
    (hfiles : Files (s.putFile f file)) (hrefers : file.refers = (s.ftable f).refers) :
    Base (s.putFile f file) held locks ∧ (s.putFile f file).uses = s.uses := by
  have huses : (s.putFile f file).uses = s.uses := by
    funext k
    have := uses_putFile s f file k
    rw [hrefers] at this
    omega
  exact ⟨h.transfer rfl rfl rfl rfl (fun k ↦ by rw [huses]) (fun k hk ↦ .inl (huses ▸ hk)) hfiles, huses⟩

/-- A reference that was one of an open file or a process is given up. -/
theorem iput_release {t : FsState} (h : Base s held locks) (ht : Base t {ip} ∅)
    (hitable : t.itable = s.itable) (hnode : t.node = s.node) (huse : 0 < s.uses ip)
    (huses : ∀ k, k ≠ ip → s.uses k ≤ t.uses k) (hop : 0 < t.outstanding) :
    wp (iput ip) (fun _ s' ↦ MinorCall s s') E t := by
  refine wp_post (iput_spec (show Base t (ip ::ₘ 0) ∅ from ht) (by simp) hop) ?_
  rintro _ s' ⟨hbase, hputs⟩
  exact ⟨hbase, fun hcalm ↦ .put h hcalm hitable hnode huse huses hputs⟩

/-- The log is not part of what a call does to files. -/
theorem MinorCall.log (h : MinorCall s s') (outstanding : ℕ) (logged : List ℕ) :
    MinorCall s { s' with outstanding := outstanding, logged := logged } :=
  ⟨h.1.log _ _, fun hcalm ↦ (h.2 hcalm).trans (.same (h.2 hcalm).calm rfl fun _ hi ↦ hi)⟩

/-- The pipes are not part of the invariant. -/
theorem Base.pipes (h : Base s held locks) (pages : ℕ → Bool) (pipe : ℕ → Pipe) :
    Base { s with pages := pages, pipe := pipe } held locks :=
  h.transfer rfl rfl rfl rfl (fun _ ↦ rfl) (fun _ ↦ .inl) ⟨h.files.unused, h.files.notDir⟩

/-- The pipes are not part of what a call does to files. -/
theorem MinorCall.pipes (h : MinorCall s s') (pages : ℕ → Bool) (pipe : ℕ → Pipe) :
    MinorCall s { s' with pages := pages, pipe := pipe } :=
  ⟨h.1.pipes _ _, fun hcalm ↦ (h.2 hcalm).trans (.same (h.2 hcalm).calm rfl fun _ hi ↦ hi)⟩

/-- `pipeclose`. -/
theorem pipeclose_spec (h : MinorCall s s') (pi : ℕ) (writable : Bool) :
    wp (pipeclose pi writable) (fun _ s'' ↦ MinorCall s s'') E s' := by
  rw [pipeclose, wp_bind, wp_get, wp_bind, wp_setPipe]
  split
  · rw [wp_kfree]
    exact h.pipes _ _
  · exact h.pipes _ _

/-- `fileclose`. -/
theorem fileclose_spec (hE : Allows E) (h : Base s 0 ∅) (f : Fin NFILE) :
    wp (fileclose f) (fun _ s' ↦ MinorCall s s') E s := by
  rw [fileclose, wp_bind, wp_get]
  dsimp only
  split
  · exact hE _ (by simp)
  · split
    · rename_i hpos
      have hfiles : Files (s.putFile f { s.ftable f with ref := (s.ftable f).ref - 1 }) :=
        h.files.putFile (fun hzero ↦ absurd hzero hpos.ne') (h.files.notDir f)
      obtain ⟨hbase, huses⟩ := h.putFile hfiles rfl
      exact ⟨hbase, fun hcalm ↦ .same hcalm rfl fun i hi ↦ hi.congr rfl fun k ↦
        (congrFun huses k).ge⟩
    · rw [wp_bind, wp_setFile]
      set t := s.putFile f { s.ftable f with ref := 0, type := .none } with ht
      have hfiles : Files t := h.files.putFile (fun _ ↦ rfl) (by simp)
      have huses : ∀ k, t.uses k + (s.ftable f).refers k = s.uses k := by
        intro k
        have := uses_putFile s f { s.ftable f with ref := 0, type := .none } k
        simpa [File.refers, FileType.hasInode] using this
      -- The file's reference to its inode becomes one of the call.
      have hlast : (s.ftable f).type.hasInode = true →
          wp (do
            beginOp
            iput (s.ftable f).ip
            endOp) (fun _ s' ↦ MinorCall s s') E t := by
        intro htype
        have hrefers : ∀ k, (s.ftable f).refers k = if k = (s.ftable f).ip then 1 else 0 := by
          intro k
          simp [File.refers, htype, eq_comm]
        have hbase : Base t {(s.ftable f).ip} ∅ := by
          refine h.transfer rfl rfl rfl rfl (fun k ↦ ?_) (fun k hk ↦ .inl ?_) hfiles
          · have := huses k
            rw [hrefers] at this
            rw [Multiset.count_singleton, Multiset.count_zero]
            omega
          · have := huses k
            omega
        rw [wp_bind, wp_beginOp, wp_bind]
        refine wp_post (iput_release h (hbase.log _ _) rfl rfl (FsState.uses_pos htype) ?_
          (Nat.succ_pos _)) ?_
        · intro k hk
          have := huses k
          rw [hrefers, if_neg hk] at this
          exact this.symm.le
        · rintro _ s' hr
          exact hr.log _ _
      have hnone : (s.ftable f).type.hasInode = false → MinorCall s t := by
        intro htype
        have heq : t.uses = s.uses := funext fun k ↦ by
          rw [← huses k, File.refers, htype, if_neg (by simp), Nat.add_zero]
        exact ⟨h.transfer rfl rfl rfl rfl (fun k ↦ by rw [heq]) (fun k hk ↦ .inl (heq ▸ hk)) hfiles,
          fun hcalm ↦ .same hcalm rfl fun i hi ↦ hi.congr rfl fun k ↦ by rw [heq]⟩
      cases htype : (s.ftable f).type with
      | none => exact hnone (by rw [htype]; rfl)
      | pipe => exact pipeclose_spec (hnone (by rw [htype]; rfl)) _ _
      | inode => exact hlast (by rw [htype]; rfl)
      | device => exact hlast (by rw [htype]; rfl)

/-! ## Reading and writing files -/

/-- The file that an entry of the file table stands for. -/
def FsState.target (s : FsState) (f : Fin NFILE) : Node := s.node (s.inum (s.ftable f).ip)

/-- Locking the inode of an open file, which waits if the inode is locked. -/
theorem ilock_open (h : Base s held locks) {f : Fin NFILE}
    (htype : (s.ftable f).type.hasInode = true) (hE : (s.ftable f).ip ∈ locks → E .disabled) :
    wp (ilock (s.ftable f).ip) (fun _ s' ↦ Base s' held (insert (s.ftable f).ip locks) ∧
      Keeps s s' held ∧ s'.node (s'.inum (s.ftable f).ip) = s.target f) E s := by
  have huses := FsState.uses_pos htype
  have halloc : Allocated s.sb s.inodes (s.inum (s.ftable f).ip) := by
    have hused := h.used_type huses
    rw [node_type] at hused
    exact allocated_iff_type.mpr hused
  refine wp_post (ilock_spec h (h.refs_pos (by omega)) hE (.inr halloc)) ?_
  rintro _ s' ⟨-, h', hkeeps⟩
  refine ⟨h', hkeeps, ?_⟩
  rw [hkeeps.inum _ (Nat.add_pos_left huses _), hkeeps.node]
  rfl

/-- The same when no inode is locked. -/
theorem ilock_file (hE : Allows E) (h : Base s 0 ∅) {f : Fin NFILE}
    (htype : (s.ftable f).type.hasInode = true) :
    wp (ilock (s.ftable f).ip) (fun _ s' ↦ Base s' 0 {(s.ftable f).ip} ∧ Keeps s s' 0) E s :=
  wp_post (ilock_open h htype fun _ ↦ hE _ (by simp)) fun _ _ hr ↦ ⟨hr.1, hr.2.1⟩

/-- `filestat`. -/
theorem filestat_spec (hE : Allows E) (h : Base s 0 ∅) (f : Fin NFILE) :
    wp (filestat f) (fun _ s' ↦ MinorCall s s') E s := by
  have hstat : (s.ftable f).type.hasInode = true → wp (do
      ilock (s.ftable f).ip
      iunlock (s.ftable f).ip) (fun _ s' ↦ MinorCall s s') E s := by
    intro htype
    rw [wp_bind]
    refine wp_post (ilock_file hE h htype) ?_
    rintro _ s₁ ⟨h₁, hkeeps₁⟩
    refine wp_post (iunlock_spec h₁ (by simp)) ?_
    rintro _ s₂ ⟨h₂, hkeeps₂⟩
    rw [Finset.erase_singleton] at h₂
    exact ⟨h₂, fun hcalm ↦ .ofKeeps hcalm (hkeeps₁.trans hkeeps₂)⟩
  rw [filestat, wp_bind, wp_get]
  cases htype : (s.ftable f).type with
  | none => exact ⟨h, fun hcalm ↦ .same hcalm rfl fun _ hi ↦ hi⟩
  | pipe => exact ⟨h, fun hcalm ↦ .same hcalm rfl fun _ hi ↦ hi⟩
  | inode => exact hstat (by rw [htype]; rfl)
  | device => exact hstat (by rw [htype]; rfl)

/-- Giving up the lock of an inode at the end of a call. -/
theorem iunlock_last (h : Base s 0 {ip}) :
    wp (iunlock ip) (fun _ s' ↦ MinorCall s s' ∧ Keeps s s' 0) E s := by
  refine wp_post (iunlock_spec h (by simp)) ?_
  rintro _ s' ⟨h', hkeeps⟩
  rw [Finset.erase_singleton] at h'
  exact ⟨⟨h', fun hcalm ↦ .ofKeeps hcalm hkeeps⟩, hkeeps⟩

/-- Moving the offset of an open file. -/
theorem Base.putOff (h : Base s held locks) (f : Fin NFILE) (off : ℕ) :
    Base (s.putFile f { s.ftable f with off := off }) held locks ∧
      (s.Calm → Minor s (s.putFile f { s.ftable f with off := off })) := by
  have hfiles : Files (s.putFile f { s.ftable f with off := off }) :=
    h.files.putFile (h.files.unused f) (h.files.notDir f)
  obtain ⟨hbase, huses⟩ := h.putFile hfiles rfl
  exact ⟨hbase, fun hcalm ↦ .same hcalm rfl fun i hi ↦ hi.congr rfl fun k ↦
    (congrFun huses k).ge⟩

/-- `fileread`. -/
theorem fileread_spec (hE : Allows E) (h : Base s 0 ∅) (f : Fin NFILE) (mem : Dest) (addr : ℕ)
    (n device : ℤ) : wp (fileread f mem addr n device) (fun _ s' ↦ MinorCall s s' ∧ s'.disk = s.disk)
      E s := by
  have hsame : MinorCall s s ∧ s.disk = s.disk :=
    ⟨⟨h, fun hcalm ↦ .same hcalm rfl fun _ hi ↦ hi⟩, rfl⟩
  rw [fileread, wp_bind, wp_get]
  dsimp only
  split
  · exact hsame
  · split
    · exact hsame
    · split
      · exact hsame
      · exact hsame
    · rename_i htype
      rw [wp_bind]
      refine wp_post (ilock_file hE h (by rw [htype]; rfl)) ?_
      rintro _ s₁ ⟨h₁, hkeeps⟩
      have hmem : (s.ftable f).ip ∈ ({(s.ftable f).ip} : Finset (Fin NINODE)) := by simp
      have hholes := h₁.noHoles (h₁.refs_of_lock hmem) (h₁.valid_of_lock hmem)
      have hn : (n % 2 ^ 32).toNat < 2 ^ 32 := by
        have := Int.emod_nonneg n (show (2 : ℤ) ^ 32 ≠ 0 by norm_num)
        have := Int.emod_lt_of_pos n (show (0 : ℤ) < 2 ^ 32 by norm_num)
        omega
      rw [wp_bind]
      refine wp_post (readi_spec h₁.bufs hholes mem addr (s.ftable f).off hn) ?_
      rintro ⟨r, bytes⟩ s₂ ⟨rfl, -⟩
      dsimp only
      split
      · have hoff := h₁.putOff f (((s.ftable f).off + r.toNat) % 2 ^ 32)
        rw [hkeeps.ftable] at hoff
        rw [wp_bind, wp_setFile, wp_bind]
        refine wp_post (iunlock_last hoff.1) ?_
        rintro _ s' ⟨hcall, hkeeps'⟩
        refine ⟨⟨hcall.1, fun hcalm ↦ ?_⟩, hkeeps'.disk.trans hkeeps.disk⟩
        have hminor := Minor.ofKeeps hcalm hkeeps
        have hminor' := hminor.trans (hoff.2 hminor.calm)
        exact hminor'.trans (hcall.2 hminor'.calm)
      · rw [wp_bind]
        refine wp_post (iunlock_last h₁) ?_
        rintro _ s' ⟨hcall, hkeeps'⟩
        refine ⟨⟨hcall.1, fun hcalm ↦ ?_⟩, hkeeps'.disk.trans hkeeps.disk⟩
        have hminor := Minor.ofKeeps hcalm hkeeps
        exact hminor.trans (hcall.2 hminor.calm)
    · exact hE _ (by simp)

/-- Writing to the locked inode of a file that is open for writing. -/
theorem writei_file (hE : Allows E) (h : Base s 0 {ip}) (hop : 0 < s.outstanding)
    (hdir : (s.node (s.inum ip)).type ≠ T_DIR) (mem : Source) (src off : ℕ) {n : ℕ}
    (hn : n < 2 ^ 32) :
    wp (writei ip mem src off n) (fun _ s' ↦ Base s' 0 {ip} ∧ Frame s s' 0 ∧
      (s.Calm → Minor s s')) E s := by
  have hmem : ip ∈ ({ip} : Finset (Fin NINODE)) := by simp
  refine wp_post (writei_locked h hop hmem mem src off hn (fun _ _ ↦ hE _ (by simp))
    fun htdir ↦ absurd htdir hdir) ?_
  rintro r s' (⟨-, -, rfl⟩ | ⟨done, byte, -, -, -, -, h', hsets⟩)
  · exact ⟨h, .refl _ _, fun hcalm ↦ .same hcalm rfl fun _ hi ↦ hi⟩
  · refine ⟨h', hsets.toFrame, fun hcalm ↦ .write hcalm ?_ hdir hsets.node fun i ↦
      (hsets.inUse_iff i).mpr⟩
    rw [node_type]
    exact (h.allocated (h.refs_of_lock hmem) (h.valid_of_lock hmem)).2

/-- The loop of `filewrite`. -/
theorem filewriteLoop_spec (hE : Allows E) (mem : Source) (addr : ℕ) (n : ℤ) {f : Fin NFILE}
    {fuel : ℕ} {i : ℤ} (h : Base s 0 ∅) (htype : (s.ftable f).type = .inode)
    (hwritable : (s.ftable f).writable = true) :
    wp (filewriteLoop f mem addr n fuel i) (fun _ s' ↦ MinorCall s s') E s := by
  induction fuel generalizing s i with
  | zero => exact ⟨h, fun hcalm ↦ .same hcalm rfl fun _ hi ↦ hi⟩
  | succ fuel ih =>
    rw [filewriteLoop]
    split
    · rw [wp_bind, wp_beginOp, wp_bind, wp_get]
      set s₀ : FsState := { s with outstanding := s.outstanding + 1 } with hs₀
      have h₀ : Base s₀ 0 ∅ := h.log _ _
      have hminor₀ : s.Calm → Minor s s₀ := fun hcalm ↦ .same hcalm rfl fun _ hi ↦ hi
      have huses : 0 < s.uses (s.ftable f).ip := FsState.uses_pos (by rw [htype]; rfl)
      rw [wp_bind]
      refine wp_post (ilock_file hE h₀ (by rw [hs₀, htype]; rfl)) ?_
      rintro _ s₁ ⟨h₁, hkeeps₁⟩
      have hdir : (s₁.node (s₁.inum (s.ftable f).ip)).type ≠ T_DIR := by
        rw [hkeeps₁.node, hkeeps₁.inum _ (Nat.add_pos_left huses _)]
        exact h.files.notDir f htype hwritable
      have hn : (min (n - i) MAXCHUNK).toNat < 2 ^ 32 := by
        have hle : min (n - i) MAXCHUNK ≤ MAXCHUNK := min_le_right _ _
        have hchunk : MAXCHUNK < 2 ^ 32 := by decide
        omega
      rw [wp_bind]
      refine wp_post (writei_file hE h₁ (by rw [hkeeps₁.outstanding]; exact Nat.succ_pos _) hdir
        mem _ _ hn) ?_
      rintro r s₂ ⟨h₂, hframe₂, hminor₂⟩
      have hftable₂ : s₂.ftable = s.ftable := hframe₂.ftable.trans hkeeps₁.ftable
      have hminor : s.Calm → Minor s s₂ := by
        intro hcalm
        have hm₀ := hminor₀ hcalm
        have hm₁ := Minor.ofKeeps hm₀.calm hkeeps₁
        exact (hm₀.trans hm₁).trans (hminor₂ hm₁.calm)
      -- The rest of the iteration, and the iterations after it.
      have hrest : ∀ t : FsState, Base t 0 {(s.ftable f).ip} → (s.Calm → Minor s t) →
          (t.ftable f).type = .inode → (t.ftable f).writable = true →
          wp (do
            iunlock (s.ftable f).ip
            endOp
            if r ≠ min (n - i) MAXCHUNK then return i
            else filewriteLoop f mem addr n fuel (i + r)) (fun _ s' ↦ MinorCall s s') E t := by
        intro t ht hminor htype' hwritable'
        rw [wp_bind]
        refine wp_post (iunlock_last ht) ?_
        rintro _ s₃ ⟨hcall, hkeeps⟩
        have hcall' : MinorCall s s₃ :=
          ⟨hcall.1, fun hcalm ↦ (hminor hcalm).trans (hcall.2 (hminor hcalm).calm)⟩
        rw [wp_bind, wp_endOp]
        have hlog := hcall'.log (s₃.outstanding - 1)
          (if s₃.outstanding - 1 = 0 then [] else s₃.logged)
        split
        · exact hlog
        · refine wp_post (ih hlog.1 ?_ ?_) fun _ s' hr ↦ hlog.trans hr
          · change (s₃.ftable f).type = .inode
            rw [hkeeps.ftable, htype']
          · change (s₃.ftable f).writable = true
            rw [hkeeps.ftable, hwritable']
      change wp (if 0 < r then _ else _) _ E s₂
      split
      · have hoff := h₂.putOff f (((s.ftable f).off + r.toNat) % 2 ^ 32)
        rw [hftable₂] at hoff
        rw [wp_bind, wp_setFile]
        refine hrest _ hoff.1 (fun hcalm ↦ (hminor hcalm).trans (hoff.2 (hminor hcalm).calm)) ?_ ?_
        · simpa [FsState.putFile] using htype
        · simpa [FsState.putFile] using hwritable
      · exact hrest s₂ h₂ hminor (by rw [hftable₂, htype]) (by rw [hftable₂, hwritable])
    · exact ⟨h, fun hcalm ↦ .same hcalm rfl fun _ hi ↦ hi⟩

/-- `filewrite`. -/
theorem filewrite_spec (hE : Allows E) (h : Base s 0 ∅) (f : Fin NFILE) (mem : Source) (addr : ℕ)
    (n device : ℤ) : wp (filewrite f mem addr n device) (fun _ s' ↦ MinorCall s s') E s := by
  have hsame : MinorCall s s := ⟨h, fun hcalm ↦ .same hcalm rfl fun _ hi ↦ hi⟩
  rw [filewrite, wp_bind, wp_get]
  dsimp only
  split
  · exact hsame
  · rename_i hwritable
    split
    · exact hsame
    · split
      · exact hsame
      · exact hsame
    · rename_i htype
      rw [wp_bind]
      exact filewriteLoop_spec hE mem addr n h htype (Bool.of_not_eq_false hwritable)
    · exact hE _ (by simp)

end Xv6.Fs
