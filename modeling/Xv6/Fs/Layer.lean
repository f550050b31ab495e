import Xv6.Fs.Syscall
import Xv6.Lib.Preserve

/-!
# The Inode Layer

The functions of `kernel/fs.c` work on the disk, on buffers and on the inode table: they leave open
files, processes, pipes and the number of outstanding operations alone, and they do not reach the
panics of `kernel/file.c`.  So do the calls that are made of one operation on paths: on each way
through them `begin_op` is followed by one `end_op`.
-/

namespace Xv6.Fs

open Lib

/-- The open files, processes and pipes. -/
structure Tables where
  ftable : Fin NFILE → File
  proc : Fin NPROC → Proc
  pages : ℕ → Bool
  pipe : ℕ → Pipe

/-- The tables of a state. -/
def FsState.tables (s : FsState) : Tables where
  ftable := s.ftable
  proc := s.proc
  pages := s.pages
  pipe := s.pipe

/-- The call stops for another reason than the number of references to a file. -/
def NotRefs (e : Stop) : Prop := e ≠ .panic .filedupRef ∧ e ≠ .panic .filecloseRef

/-- The code leaves the tables and the number of outstanding operations alone. -/
abbrev Below {α : Type} (x : FsM α) : Prop :=
  Preserves (fun s ↦ (s.tables, s.outstanding)) NotRefs x

namespace Below

/-! ## Buffers and blocks -/

theorem bread (b : ℕ) : Below (bread b) := by
  intro s
  rw [Fs.bread, wp_bind, wp_get]
  split
  · exact ⟨by decide, by decide⟩
  · rfl

theorem brelse (b : ℕ) : Below (brelse b) := by
  intro s
  rw [Fs.brelse, wp_bind, wp_get]
  split
  · rfl
  · exact ⟨by decide, by decide⟩

theorem bload (b : ℕ) : Below (bload b) := fun _ ↦ rfl

theorem bstore (b : ℕ) (data : Block) : Below (bstore b data) := .modify fun _ ↦ rfl

theorem logWrite (b : ℕ) : Below (logWrite b) := by
  intro s
  rw [Fs.logWrite, wp_bind, wp_get]
  split
  · exact ⟨by decide, by decide⟩
  · rfl

theorem panic {α : Type} {p : Panic} (hp : p ≠ .filedupRef ∧ p ≠ .filecloseRef) :
    Below (panic p : FsM α) :=
  .throw ⟨fun heq ↦ hp.1 (Stop.panic.inj heq), fun heq ↦ hp.2 (Stop.panic.inj heq)⟩

theorem disabled {α : Type} : Below (throw .disabled : FsM α) := .throw ⟨nofun, nofun⟩

/-- The end of a change to a buffer. -/
theorem write (b : ℕ) : Below (do
    Fs.logWrite b
    Fs.brelse b) := (logWrite b).bind fun _ ↦ brelse b

theorem bzero (bno : ℕ) : Below (bzero bno) :=
  (bread bno).bind fun _ ↦ (bstore _ _).bind fun _ ↦ write _

theorem balloc : Below balloc := by
  refine .get_bind fun s ↦ ?_
  split
  · exact (bread _).bind fun _ ↦ (bstore _ _).bind fun _ ↦ (logWrite _).bind fun _ ↦
      (brelse _).bind fun _ ↦ (bzero _).bind fun _ ↦ .pure _
  · exact panic (by simp)

theorem bfree (b : ℕ) : Below (bfree b) :=
  .get_bind fun _ ↦ (bread _).bind fun _ ↦ .ite (fun _ ↦ (bstore _ _).bind fun _ ↦ write _)
    fun _ ↦ panic (by simp)

/-! ## Inodes -/

theorem inode (ip : Fin NINODE) : Below (inode ip) := fun _ ↦ rfl

theorem setInode (ip : Fin NINODE) (i : Inode) : Below (setInode ip i) := .modify fun _ ↦ rfl

theorem modifyCopy (ip : Fin NINODE) (f : Dinode → Dinode) : Below (modifyCopy ip f) :=
  (inode ip).bind fun _ ↦ setInode ip _

theorem iget (dev inum : ℕ) : Below (iget dev inum) := by
  refine .get_bind fun s ↦ ?_
  dsimp only
  split
  · exact (setInode _ _).bind fun _ ↦ .pure _
  · split
    · exact (setInode _ _).bind fun _ ↦ .pure _
    · exact panic (by simp)

theorem ialloc (dev : ℕ) (type : Int16) : Below (ialloc dev type) := by
  refine .get_bind fun s ↦ ?_
  split
  · exact (bread _).bind fun _ ↦ (bstore _ _).bind fun _ ↦ (logWrite _).bind fun _ ↦
      (brelse _).bind fun _ ↦ iget dev _
  · exact panic (by simp)

theorem iupdate (ip : Fin NINODE) : Below (iupdate ip) :=
  (inode ip).bind fun _ ↦ .get_bind fun _ ↦ (bread _).bind fun _ ↦ (bstore _ _).bind fun _ ↦ write _

theorem idup (ip : Fin NINODE) : Below (idup ip) :=
  (inode ip).bind fun _ ↦ (setInode ip _).bind fun _ ↦ .pure _

theorem acquiresleep (ip : Fin NINODE) : Below (acquiresleep ip) :=
  (inode ip).bind fun _ ↦ .ite (fun _ ↦ disabled) fun _ ↦ setInode ip _

theorem releasesleep (ip : Fin NINODE) : Below (releasesleep ip) :=
  (inode ip).bind fun _ ↦ setInode ip _

theorem ilock (ip : Fin NINODE) : Below (ilock ip) := by
  refine (inode ip).bind fun _ ↦ .ite (fun _ ↦ panic (by simp)) fun _ ↦
    (acquiresleep ip).bind fun _ ↦ .get_bind fun s ↦ .ite (fun _ ↦ .pure _) fun _ ↦ ?_
  exact (bread _).bind fun _ ↦ (brelse _).bind fun _ ↦ (setInode ip _).bind fun _ ↦
    .ite (fun _ ↦ panic (by simp)) fun _ ↦ .pure _

theorem iunlock (ip : Fin NINODE) : Below (iunlock ip) :=
  (inode ip).bind fun _ ↦ .ite (fun _ ↦ panic (by simp)) fun _ ↦ releasesleep ip

/-! ## Contents -/

theorem bmap (ip : Fin NINODE) (bn : ℕ) : Below (bmap ip bn) := by
  have hentry : ∀ addr j, Below (do
      let a ← Fs.bread addr
      if a.word j = 0 then
        let new ← Fs.balloc
        let a ← Fs.bload addr
        Fs.bstore addr (a.setWord j new)
        Fs.logWrite addr
        Fs.brelse addr
        return new
      else
        Fs.brelse addr
        return a.word j) := by
    intro addr j
    refine (bread _).bind fun a ↦ .ite (fun _ ↦ ?_) fun _ ↦ (brelse _).bind fun _ ↦ .pure _
    exact balloc.bind fun _ ↦ (bload _).bind fun _ ↦ (bstore _ _).bind fun _ ↦
      (logWrite _).bind fun _ ↦ (brelse _).bind fun _ ↦ .pure _
  refine (inode ip).bind fun i ↦ ?_
  split
  · exact .ite (fun _ ↦ balloc.bind fun _ ↦ (modifyCopy ip _).bind fun _ ↦ .pure _) fun _ ↦ .pure _
  · refine .ite (fun _ ↦ .ite (fun _ ↦ ?_) fun _ ↦ ?_) fun _ ↦ panic (by simp)
    · exact balloc.bind fun _ ↦ (modifyCopy ip _).bind fun _ ↦ hentry _ _
    · exact hentry _ _

theorem itrunc (ip : Fin NINODE) : Below (itrunc ip) := by
  have hend : Below (do
      Fs.modifyCopy ip fun d ↦ { d with size := 0 }
      Fs.iupdate ip) := (modifyCopy ip _).bind fun _ ↦ iupdate ip
  refine .bind (.forM fun k ↦ (inode ip).bind fun i ↦ ?_) fun _ ↦ (inode ip).bind fun i ↦ ?_
  · exact .ite (fun _ ↦ .pure _) fun _ ↦ (bfree _).bind fun _ ↦ modifyCopy ip _
  · refine .ite (fun _ ↦ hend) fun _ ↦ (bread _).bind fun _ ↦ .bind (.forM fun j ↦
      (bload _).bind fun a ↦ ?_) fun _ ↦ (brelse _).bind fun _ ↦ (bfree _).bind fun _ ↦
      (modifyCopy ip _).bind fun _ ↦ hend
    exact .ite (fun _ ↦ .pure _) fun _ ↦ bfree _

theorem iput (ip : Fin NINODE) : Below (iput ip) := by
  have hend : Below (do
      let i ← Fs.inode ip
      Fs.setInode ip { i with ref := i.ref - 1 }) := (inode ip).bind fun _ ↦ setInode ip _
  refine (inode ip).bind fun i ↦ .ite (fun _ ↦ ?_) fun _ ↦ hend
  exact (acquiresleep ip).bind fun _ ↦ (itrunc ip).bind fun _ ↦ (modifyCopy ip _).bind fun _ ↦
    (iupdate ip).bind fun _ ↦ (inode ip).bind fun _ ↦ (setInode ip _).bind fun _ ↦
    (releasesleep ip).bind fun _ ↦ hend

theorem iunlockput (ip : Fin NINODE) : Below (iunlockput ip) :=
  (iunlock ip).bind fun _ ↦ iput ip

theorem readi (ip : Fin NINODE) (mem : Dest) (dst off n : ℕ) : Below (readi ip mem dst off n) := by
  have hloop : ∀ n fuel tot off dst copied,
      Below (readiLoop ip mem n fuel tot off dst copied) := by
    intro n fuel
    induction fuel with
    | zero => exact fun _ _ _ _ ↦ .pure _
    | succ fuel ih =>
      intro tot off dst copied
      refine .ite (fun _ ↦ (bmap ip _).bind fun _ ↦ (bread _).bind fun _ ↦ .ite (fun _ ↦ ?_)
        fun _ ↦ ?_) fun _ ↦ .pure _
      · exact (brelse _).bind fun _ ↦ .pure _
      · exact (brelse _).bind fun _ ↦ ih _ _ _ _
  exact (inode ip).bind fun _ ↦ .ite (fun _ ↦ .pure _) fun _ ↦ hloop _ _ _ _ _ _

theorem writei (ip : Fin NINODE) (mem : Source) (src off n : ℕ) :
    Below (writei ip mem src off n) := by
  have hloop : ∀ fuel tot off src, Below (writeiLoop ip mem n fuel tot off src) := by
    intro fuel
    induction fuel with
    | zero => exact fun _ _ _ ↦ .pure _
    | succ fuel ih =>
      intro tot off src
      refine .ite (fun _ ↦ (bmap ip _).bind fun _ ↦ (bread _).bind fun _ ↦
        (bstore _ _).bind fun _ ↦ .ite (fun _ ↦ ?_) fun _ ↦ ?_) fun _ ↦ .pure _
      · exact (brelse _).bind fun _ ↦ .pure _
      · exact (logWrite _).bind fun _ ↦ (brelse _).bind fun _ ↦ ih _ _ _
  refine (inode ip).bind fun _ ↦ .ite (fun _ ↦ .pure _) fun _ ↦ .ite (fun _ ↦ .pure _) fun _ ↦ ?_
  exact (hloop _ _ _ _).bind fun _ ↦ (modifyCopy ip _).bind fun _ ↦ (iupdate ip).bind fun _ ↦
    .pure _

/-! ## Directories and paths -/

theorem dirlookup (dp : Fin NINODE) (name : List UInt8) : Below (dirlookup dp name) := by
  have hloop : ∀ fuel off, Below (dirlookupLoop dp name fuel off) := by
    intro fuel
    induction fuel with
    | zero => exact fun _ ↦ .pure _
    | succ fuel ih =>
      intro off
      refine (inode dp).bind fun _ ↦ .ite (fun _ ↦ (readi dp _ _ _ _).bind fun _ ↦
        .ite (fun _ ↦ panic (by simp)) fun _ ↦ .ite (fun _ ↦ ?_) fun _ ↦ ih _) fun _ ↦ .pure _
      exact (iget _ _).bind fun _ ↦ .pure _
  exact (inode dp).bind fun _ ↦ .ite (fun _ ↦ panic (by simp)) fun _ ↦ hloop _ _

theorem emptyEntry (dp : Fin NINODE) (fuel off : ℕ) : Below (emptyEntry dp fuel off) := by
  induction fuel generalizing off with
  | zero => exact .pure _
  | succ fuel ih =>
    exact (inode dp).bind fun _ ↦ .ite (fun _ ↦ (readi dp _ _ _ _).bind fun _ ↦
      .ite (fun _ ↦ panic (by simp)) fun _ ↦ .ite (fun _ ↦ .pure _) fun _ ↦ ih _) fun _ ↦ .pure _

theorem dirlink (dp : Fin NINODE) (name : List UInt8) (inum : ℕ) : Below (dirlink dp name inum) := by
  refine (dirlookup dp name).bind fun r ↦ ?_
  split
  · exact (iput _).bind fun _ ↦ .pure _
  · exact (inode dp).bind fun _ ↦ (emptyEntry dp _ _).bind fun _ ↦ (writei dp _ _ _ _).bind fun _ ↦
      .ite (fun _ ↦ panic (by simp)) fun _ ↦ .pure _

theorem isdirempty (dp : Fin NINODE) : Below (isdirempty dp) := by
  have hloop : ∀ fuel off, Below (isdiremptyLoop dp fuel off) := by
    intro fuel
    induction fuel with
    | zero => exact fun _ ↦ .pure _
    | succ fuel ih =>
      exact fun off ↦ (inode dp).bind fun _ ↦ .ite (fun _ ↦ (readi dp _ _ _ _).bind fun _ ↦
        .ite (fun _ ↦ panic (by simp)) fun _ ↦ .ite (fun _ ↦ .pure _) fun _ ↦ ih _)
        fun _ ↦ .pure _
  exact (inode dp).bind fun _ ↦ hloop _ _

theorem namexLoop (nameiparent : Bool) (fuel : ℕ) (path : List UInt8) (ip : Fin NINODE) :
    Below (namexLoop nameiparent fuel path ip) := by
  induction fuel generalizing path ip with
  | zero => exact .pure _
  | succ fuel ih =>
    rw [Fs.namexLoop]
    split
    · exact .ite (fun _ ↦ (iput ip).bind fun _ ↦ .pure _) fun _ ↦ .pure _
    · refine (ilock ip).bind fun _ ↦ (inode ip).bind fun _ ↦ .ite (fun _ ↦
        (iunlockput ip).bind fun _ ↦ .pure _) fun _ ↦ .ite (fun _ ↦ (iunlock ip).bind fun _ ↦
        .pure _) fun _ ↦ (dirlookup ip _).bind fun r ↦ ?_
      split
      · exact (iunlockput ip).bind fun _ ↦ .pure _
      · exact (iunlockput ip).bind fun _ ↦ ih _ _

theorem cwd (p : Fin NPROC) : Below (cwd p) := by
  refine .get_bind fun s ↦ ?_
  split
  · exact .pure _
  · exact disabled

theorem namex (p : Fin NPROC) (path : List UInt8) (nameiparent : Bool) :
    Below (namex p path nameiparent) :=
  .ite (fun _ ↦ (iget _ _).bind fun _ ↦ namexLoop _ _ _ _) fun _ ↦ (cwd p).bind fun _ ↦
    (idup _).bind fun _ ↦ namexLoop _ _ _ _

theorem namei (p : Fin NPROC) (path : List UInt8) : Below (namei p path) :=
  (namex p path false).bind fun _ ↦ .pure _

theorem nameiparent (p : Fin NPROC) (path : List UInt8) : Below (nameiparent p path) :=
  namex p path true

theorem createInode (dp : Fin NINODE) (type major minor : Int16) :
    Below (createInode dp type major minor) :=
  (inode dp).bind fun _ ↦ (ialloc _ type).bind fun _ ↦ (ilock _).bind fun _ ↦
    (modifyCopy _ _).bind fun _ ↦ (iupdate _).bind fun _ ↦ .pure _

theorem createDots (dp ip : Fin NINODE) : Below (createDots dp ip) := by
  have hend : ∀ dots, Below (if dots = true then pure () else Fs.panic .createDots) :=
    fun _ ↦ .ite (fun _ ↦ .pure _) fun _ ↦ panic (by simp)
  exact (modifyCopy dp _).bind fun _ ↦ (iupdate dp).bind fun _ ↦ (inode ip).bind fun _ ↦
    (dirlink ip _ _).bind fun _ ↦ .ite (fun _ ↦ (inode dp).bind fun _ ↦
    (dirlink ip _ _).bind hend) fun _ ↦ .bind (.pure _) hend

theorem create (p : Fin NPROC) (path : List UInt8) (type major minor : Int16) :
    Below (create p path type major minor) := by
  refine (nameiparent p path).bind fun r ↦ ?_
  split
  · exact .pure _
  · refine (ilock _).bind fun _ ↦ (dirlookup _ _).bind fun r ↦ ?_
    split
    · exact (iunlockput _).bind fun _ ↦ (ilock _).bind fun _ ↦ (inode _).bind fun _ ↦
        .ite (fun _ ↦ .pure _) fun _ ↦ (iunlockput _).bind fun _ ↦ .pure _
    · have hend : ∀ dp ip name, Below (do
          let linked ← Fs.dirlink dp name (← Fs.inode ip).inum
          if linked then
            Fs.iunlockput dp
            return some ip
          else Fs.panic .createDirlink) := fun dp ip name ↦ (inode _).bind fun _ ↦
        (dirlink _ _ _).bind fun _ ↦ .ite (fun _ ↦ (iunlockput _).bind fun _ ↦ .pure _)
        fun _ ↦ panic (by simp)
      exact (createInode _ _ _ _).bind fun _ ↦ .ite (fun _ ↦ (createDots _ _).bind fun _ ↦
        hend _ _ _) fun _ ↦ hend _ _ _

/-! ## Programs -/

theorem execSegment (mem : UserMemory) (ip : Fin NINODE) (i off : ℕ) :
    Below (execSegment mem ip i off) := by
  have hloop : ∀ va offset sz fuel i, Below (loadseg mem va ip offset sz fuel i) := by
    intro va offset sz fuel
    induction fuel with
    | zero => exact fun _ ↦ .pure _
    | succ fuel ih =>
      exact fun i ↦ .ite (fun _ ↦ .ite (fun _ ↦ panic (by simp)) fun _ ↦
        (readi ip _ _ _ _).bind fun _ ↦ .ite (fun _ ↦ .pure _) fun _ ↦ ih _) fun _ ↦ .pure _
  exact (readi ip _ _ _ _).bind fun _ ↦ .ite (fun _ ↦ .pure _) fun _ ↦ .ite (fun _ ↦ .pure _)
    fun _ ↦ .ite (fun _ ↦ .pure _) fun _ ↦ .ite (fun _ ↦ .pure _) fun _ ↦ .ite (fun _ ↦ .pure _)
    fun _ ↦ .ite (fun _ ↦ .pure _) fun _ ↦ hloop _ _ _ _ _

theorem execLoop (mem : UserMemory) (ip : Fin NINODE) (count i off : ℕ) :
    Below (execLoop mem ip count i off) := by
  induction count generalizing i off with
  | zero => exact .pure _
  | succ count ih =>
    exact (execSegment mem ip i off).bind fun _ ↦ .ite (fun _ ↦ ih _ _) fun _ ↦ .pure _

theorem execLoad (mem : UserMemory) (ip : Fin NINODE) : Below (execLoad mem ip) :=
  (readi ip _ _ _ _).bind fun _ ↦ .ite (fun _ ↦ .pure _) fun _ ↦ .ite (fun _ ↦ .pure _) fun _ ↦
    .ite (fun _ ↦ .pure _) fun _ ↦ execLoop mem ip _ _ _

end Below

/-! ## Operations -/

section Ends

variable {ρ α β : Type} {view : FsState → ρ} {E : Stop → Prop} {x : FsM α} {f : α → FsM β}

/-- The code keeps what `view` shows and ends one operation. -/
def Ends (view : FsState → ρ) (E : Stop → Prop) (x : FsM α) : Prop :=
  ∀ s, wp x (fun _ s' ↦ view s' = view s ∧ s'.outstanding = s.outstanding - 1) E s

namespace Ends

theorem endOp (hview : ∀ s n l, view { s with outstanding := n, logged := l } = view s) :
    Ends view E endOp := fun s ↦ ⟨hview s _ _, rfl⟩

theorem throw {e : Stop} (he : E e) : Ends view E (MonadExcept.throw e : FsM α) := fun _ ↦ he

theorem get {f : FsState → FsM α} (hf : ∀ s, Ends view E (f s)) : Ends view E (get >>= f) :=
  fun s ↦ hf s s

/-- Code before it that keeps the number of outstanding operations. -/
theorem after (hx : Preserves (fun s ↦ (view s, s.outstanding)) E x) (hf : ∀ a, Ends view E (f a)) :
    Ends view E (x >>= f) := by
  intro s
  rw [wp_bind]
  refine wp_post (hx s) fun a s₁ h₁ ↦ wp_post (hf a s₁) fun _ s₂ h₂ ↦ ?_
  have hout : s₁.outstanding = s.outstanding := congrArg Prod.snd h₁
  exact ⟨h₂.1.trans (congrArg Prod.fst h₁), by rw [h₂.2, hout]⟩

/-- Code after it that keeps the number of outstanding operations. -/
theorem bind (hx : Ends view E x) (hf : ∀ a, Preserves (fun s ↦ (view s, s.outstanding)) E (f a)) :
    Ends view E (x >>= f) := by
  intro s
  rw [wp_bind]
  refine wp_post (hx s) fun a s₁ h₁ ↦ wp_post (hf a s₁) fun _ s₂ h₂ ↦ ?_
  have hout : s₂.outstanding = s₁.outstanding := congrArg Prod.snd h₂
  exact ⟨(congrArg Prod.fst h₂).trans h₁.1, by rw [hout, h₁.2]⟩

theorem ite {c : Prop} [Decidable c] {y : FsM α} (hx : c → Ends view E x) (hy : ¬ c → Ends view E y) :
    Ends view E (if c then x else y) := by
  split
  · rename_i hc
    exact hx hc
  · rename_i hc
    exact hy hc

/-- An operation that is begun and ended. -/
theorem begin (hview : ∀ s n l, view { s with outstanding := n, logged := l } = view s)
    (hx : Ends view E x) : Preserves (fun s ↦ (view s, s.outstanding)) E (do
      beginOp
      x) := by
  intro s
  rw [wp_bind, wp_beginOp]
  exact wp_post (hx _) fun _ s' h ↦ Prod.ext (h.1.trans (hview s _ _)) h.2

theorem preserves (hx : Ends view E x) : Preserves view E x :=
  fun s ↦ wp_post (hx s) fun _ _ h ↦ h.1

end Ends

end Ends

/-- The code leaves the tables alone and ends one operation. -/
abbrev Closes {α : Type} (x : FsM α) : Prop := Ends FsState.tables NotRefs x

namespace Closes

theorem endOp {α : Type} (a : α) : Closes (do
    endOp
    return a) := Ends.bind (Ends.endOp fun _ _ _ ↦ rfl) fun _ ↦ .pure a

theorem begin {α : Type} {x : FsM α} (hx : Closes x) : Below (do
    beginOp
    x) := Ends.begin (fun _ _ _ ↦ rfl) hx

theorem panic {α : Type} {p : Panic} (hp : p ≠ .filedupRef ∧ p ≠ .filecloseRef) :
    Closes (panic p : FsM α) :=
  Ends.throw ⟨fun heq ↦ hp.1 (Stop.panic.inj heq), fun heq ↦ hp.2 (Stop.panic.inj heq)⟩

/-- Giving up a locked inode at the end of an operation. -/
theorem iunlockput {α : Type} (ip : Fin NINODE) (a : α) : Closes (do
    iunlockput ip
    Fs.endOp
    return a) := .after (Below.iunlockput ip) fun _ ↦ endOp a

theorem linkBad (ip : Fin NINODE) : Closes (linkBad ip) :=
  .after (Below.ilock ip) fun _ ↦ .after (Below.modifyCopy ip _) fun _ ↦
    .after (Below.iupdate ip) fun _ ↦ iunlockput ip _

end Closes

namespace Below

theorem sysLink (p : Fin NPROC) (old new : List UInt8) : Below (sysLink p old new) := by
  refine Closes.begin (.after (namei p old) fun r ↦ ?_)
  split
  · exact Closes.endOp _
  · rename_i ip
    refine .after (ilock ip) fun _ ↦ .after (inode ip) fun _ ↦ .ite (fun _ ↦ Closes.iunlockput ip _)
      fun _ ↦ .after (modifyCopy ip _) fun _ ↦ .after (iupdate ip) fun _ ↦
      .after (iunlock ip) fun _ ↦ .after (nameiparent p new) fun r ↦ ?_
    split
    · exact Closes.linkBad ip
    · rename_i dp name
      have hend : ∀ linked : Bool, Closes (do
          Fs.iunlockput dp
          if linked then
            Fs.iput ip
            endOp
            return 0
          else linkBad ip) := fun _ ↦ .after (iunlockput dp) fun _ ↦
        .ite (fun _ ↦ .after (iput ip) fun _ ↦ Closes.endOp _) fun _ ↦ Closes.linkBad ip
      refine .after (ilock dp) fun _ ↦ .after (inode dp) fun _ ↦ .after (inode ip) fun _ ↦
        .ite (fun _ ↦ .after (.pure _) hend) fun _ ↦ .after (dirlink dp name _) hend

theorem sysUnlink (p : Fin NPROC) (path : List UInt8) : Below (sysUnlink p path) := by
  refine Closes.begin (.after (nameiparent p path) fun r ↦ ?_)
  split
  · exact Closes.endOp _
  · rename_i dp name
    refine .after (ilock dp) fun _ ↦ .ite (fun _ ↦ Closes.iunlockput dp _) fun _ ↦
      .after (dirlookup dp name) fun r ↦ ?_
    split
    · exact Closes.iunlockput dp _
    · rename_i ip off
      have hend : Closes (do
          Fs.iunlockput dp
          Fs.modifyCopy ip fun d ↦ { d with nlink := d.nlink - 1 }
          Fs.iupdate ip
          Fs.iunlockput ip
          endOp
          return (0 : ℤ)) := .after (iunlockput dp) fun _ ↦ .after (modifyCopy ip _) fun _ ↦
        .after (iupdate ip) fun _ ↦ Closes.iunlockput ip _
      have hrest : ∀ full : Bool, Closes (do
          if full then
            Fs.iunlockput ip
            unlinkBad dp
          else
            let de : Dirent := { inum := 0, name := List.replicate DIRSIZ 0 }
            let r ← Fs.writei dp (kernelSource de.encode) 0 off DIRENT
            if r ≠ DIRENT then Fs.panic .unlinkWritei
            else
              if (← Fs.inode ip).copy.type = T_DIR then
                Fs.modifyCopy dp fun d ↦ { d with nlink := d.nlink - 1 }
                Fs.iupdate dp
              else pure ()
              Fs.iunlockput dp
              Fs.modifyCopy ip fun d ↦ { d with nlink := d.nlink - 1 }
              Fs.iupdate ip
              Fs.iunlockput ip
              endOp
              return (0 : ℤ)) := by
        intro full
        refine .ite (fun _ ↦ .after (iunlockput ip) fun _ ↦ Closes.iunlockput dp _) fun _ ↦
          .after (writei dp _ _ _ _) fun _ ↦ .ite (fun _ ↦ Closes.panic (by simp)) fun _ ↦
          .after (inode ip) fun _ ↦ .ite (fun _ ↦ ?_) fun _ ↦ hend
        exact .after (modifyCopy dp _) fun _ ↦ .after (iupdate dp) fun _ ↦ hend
      refine .after (ilock ip) fun _ ↦ .after (inode ip) fun _ ↦ .ite (fun _ ↦ Closes.panic (by simp))
        fun _ ↦ .after (inode ip) fun _ ↦ .ite (fun _ ↦ ?_) fun _ ↦ .after (.pure _) hrest
      exact .after (isdirempty ip) fun _ ↦ .after (.pure _) hrest

theorem sysCreate (p : Fin NPROC) (path : List UInt8) (type major minor : Int16) :
    Below (sysCreate p path type major minor) := by
  refine Closes.begin (.after (create p path type major minor) fun r ↦ ?_)
  split
  · exact Closes.endOp _
  · exact Closes.iunlockput _ _

theorem exec (p : Fin NPROC) (path : List UInt8) (mem : UserMemory) : Below (exec p path mem) := by
  refine Closes.begin (.after (namei p path) fun r ↦ ?_)
  split
  · exact Closes.endOp _
  · rename_i ip
    refine .after (ilock ip) fun _ ↦ .after (execLoad mem ip) fun _ ↦ .ite (fun _ ↦ ?_) fun _ ↦
      Closes.iunlockput ip _
    cases mem.args with
    | some argc => exact Closes.iunlockput ip _
    | none => exact Closes.iunlockput ip _

theorem pathFault : Below pathFault := Closes.begin (Closes.endOp _)

theorem filestat (f : Fin NFILE) : Below (filestat f) := by
  refine .get_bind fun s ↦ ?_
  split
  · exact .pure _
  · exact .pure _
  · exact (ilock _).bind fun _ ↦ iunlock _
  · exact (ilock _).bind fun _ ↦ iunlock _

/-- What the tables show. -/
theorem tables {α : Type} {x : FsM α} (h : Below x) : Preserves FsState.tables NotRefs x :=
  h.map Prod.fst

end Below

end Xv6.Fs
