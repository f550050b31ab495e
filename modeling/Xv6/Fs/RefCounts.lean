import Xv6.Fs.Descriptors
import Xv6.Fs.Format

/-!
# Reference Counts of Open Files and Pipes

Between calls, the references of an open file are the descriptors of live processes that point to
it, pages of memory are allocated to pipes exactly while an end is open, and no call reaches the
panics of `filedup` and `fileclose`.
-/

namespace Xv6.Fs

open Lib

variable {s s' s₀ : FsState} {held : Multiset (Fin NFILE)} {p : Fin NPROC}

/-! ## Current directories -/

/-- Current directories are not counted. -/
theorem Counts.setCwd (h : Counts held s) (p : Fin NPROC) (cwd : Option (Fin NINODE)) :
    Counts held (s.putProc p { s.proc p with cwd := cwd }) := by
  have hdescriptor : (s.putProc p { s.proc p with cwd := cwd }).descriptor = s.descriptor := by
    funext ⟨q, fd⟩
    change (Function.update s.proc p _ q).ofile fd = (s.proc q).ofile fd
    by_cases hq : q = p
    · rw [hq, Function.update_self]
    · rw [Function.update_of_ne hq]
  refine ⟨fun f ↦ ?_, h.unused, ⟨h.pipes.mode, h.pipes.unique, h.pipes.page, h.pipes.opened⟩⟩
  rw [FsState.slots, hdescriptor]
  exact h.refs f

/-- A process gets a current directory. -/
theorem Exact.setCwd (h : Exact s₀ p held s) (ip : Fin NINODE) :
    Exact s₀ p held (s.putProc p { s.proc p with cwd := some ip }) := by
  refine ⟨h.toCounts.setCwd p _, fun q hq ↦ ?_, fun _ ↦ ?_⟩
  · exact (Function.update_of_ne hq _ _).trans (h.others q hq)
  · change (Function.update s.proc p _ p).cwd ≠ none
    rw [Function.update_self]
    simp

/-- `sys_chdir`. -/
theorem Exact.sysChdir (h : Exact s₀ p 0 s) (path : List UInt8) :
    wp (sysChdir p path) (fun _ s' ↦ Exact s₀ p 0 s') NotRefs s := by
  rw [Fs.sysChdir, wp_bind]
  refine wp_post (h.keep tables_beginOp) fun _ s₁ h₁ ↦ ?_
  rw [wp_bind]
  refine wp_post (h₁.below (.namei _ _)) ?_
  rintro (_ | ip) s₂ ⟨h₂, -⟩
  · exact h₂.keep (Closes.endOp _).preserves
  · dsimp only
    rw [wp_bind]
    refine wp_post (h₂.below (.ilock _)) ?_
    rintro _ s₃ ⟨h₃, -⟩
    rw [wp_bind, wp_inode]
    split
    · exact h₃.keep (Closes.iunlockput ip _).preserves
    · rw [wp_bind]
      refine wp_post (h₃.below (.iunlock _)) ?_
      rintro _ s₄ ⟨h₄, -⟩
      rw [wp_bind]
      refine wp_post (h₄.below (.cwd _)) ?_
      rintro old s₅ ⟨h₅, -⟩
      rw [wp_bind]
      refine wp_post (h₅.below (.iput _)) ?_
      rintro _ s₆ ⟨h₆, -⟩
      rw [wp_bind]
      refine wp_post (h₆.keep tables_endOp) fun _ s₇ h₇ ↦ ?_
      rw [wp_bind, wp_setCwd]
      exact h₇.setCwd ip

/-! ## Between calls -/

/-- Between calls the counts are exact, and only live processes have descriptors. -/
structure Settled (s : FsState) : Prop extends Counts 0 s where
  idle : ∀ q, (s.proc q).cwd = none → ∀ fd, (s.proc q).ofile fd = none

/-- The start of a call. -/
theorem Settled.exact (h : Settled s) (p : Fin NPROC) : Exact s p 0 s :=
  ⟨h.toCounts, fun _ _ ↦ rfl, id⟩

/-- The end of a call that keeps the process alive. -/
theorem Exact.settled (h : Exact s p 0 s') (hs : Settled s)
    (hidle : (s'.proc p).cwd = none → ∀ fd, (s'.proc p).ofile fd = none) : Settled s' := by
  refine ⟨h.toCounts, fun q ↦ ?_⟩
  by_cases hq : q = p
  · rw [hq]
    exact hidle
  · rw [h.others q hq]
    exact hs.idle q

/-! ## Processes -/

/-- `fileclose` does not look at processes. -/
theorem frames_fileclose (f : Fin NFILE) : Frames FsState.withProc (fileclose f) := by
  have hset : ∀ file, Frames FsState.withProc (setFile f file) := fun _ _ _ ↦ rfl
  refine .get_bind (fun _ _ ↦ rfl) fun s ↦ .ite (.throw _) (.ite (hset _)
    ((hset _).bind fun _ ↦ ?_))
  have hput : Frames FsState.withProc (do
      beginOp
      iput (s.ftable f).ip
      endOp) := .bind (fun _ _ ↦ rfl) fun _ ↦ (frames_iput _).bind fun _ _ _ ↦ rfl
  split
  · exact .pure _
  · exact .get_bind (fun _ _ ↦ rfl) fun _ ↦ .bind (fun _ _ ↦ rfl) fun _ ↦
      .ite (fun _ _ ↦ rfl) (.pure _)
  · exact hput
  · exact hput

/-- `exit` closes a file before it clears the descriptor, which makes no difference. -/
theorem Exact.closeSlot {f : Fin NFILE} {fd : Fin NOFILE} (h : Exact s₀ p 0 s)
    (hfd : (s.proc p).ofile fd = some f) :
    wp (do
      Fs.fileclose f
      Fs.setOfile p fd none) (fun _ s' ↦ Exact s₀ p 0 s' ∧
        (s'.proc p).ofile = Function.update (s.proc p).ofile fd none) NotRefs s := by
  rw [wp_bind]
  refine wp_post ((frames_fileclose f).wp FsState.proc (fun _ ↦ rfl) (fun _ _ ↦ rfl)
    (h.clear hfd).fileclose) ?_
  rintro _ s₁ ⟨h₁, hproc⟩
  rw [wp_setOfile, hproc, FsState.putProc, hproc]
  exact ⟨h₁, by simp⟩

/-- `exit`. -/
theorem Settled.exit (h : Settled s) (p : Fin NPROC) :
    wp (exit p) (fun _ s' ↦ Settled s') NotRefs s := by
  rw [Fs.exit]
  split
  · exact ⟨by decide, by decide⟩
  · rw [wp_bind]
    refine wp_post (wp_forM (fun done s' ↦ Exact s p 0 s' ∧
      ∀ fd ∈ done, (s'.proc p).ofile fd = none) ⟨h.exact p, by simp⟩ ?_) ?_
    · rintro done fd rest s₁ - ⟨h₁, hdone⟩
      rw [wp_bind, wp_get]
      split
      · rename_i f hf
        refine wp_post (h₁.closeSlot hf) ?_
        rintro _ s₂ ⟨h₂, hofile⟩
        refine ⟨h₂, fun fd' hfd' ↦ ?_⟩
        rw [hofile]
        by_cases heq : fd' = fd
        · rw [heq, Function.update_self]
        · rw [Function.update_of_ne heq]
          exact hdone fd' (by simpa [heq] using hfd')
      · rename_i hnone
        refine ⟨h₁, fun fd' hfd' ↦ ?_⟩
        by_cases heq : fd' = fd
        · rw [heq, hnone]
        · exact hdone fd' (by simpa [heq] using hfd')
    · rintro _ s₁ ⟨h₁, hdone⟩
      rw [wp_bind]
      refine wp_post (tables_beginOp s₁) fun _ s₂ h₂ ↦ ?_
      rw [wp_bind]
      refine wp_post ((Below.cwd p).tables s₂) fun old s₃ h₃ ↦ ?_
      rw [wp_bind]
      refine wp_post ((Below.iput old).tables s₃) fun _ s₄ h₄ ↦ ?_
      rw [wp_bind]
      refine wp_post (tables_endOp s₄) fun _ s₅ h₅ ↦ ?_
      have htables := h₅.trans (h₄.trans (h₃.trans h₂))
      have hexact := h₁.congr htables
      have hproc : s₅.proc = s₁.proc := congrArg Tables.proc htables
      rw [wp_setCwd]
      refine ⟨hexact.toCounts.setCwd p none, fun q ↦ ?_⟩
      change (Function.update s₅.proc p _ q).cwd = none →
        ∀ fd, (Function.update s₅.proc p _ q).ofile fd = none
      by_cases hq : q = p
      · rw [hq, Function.update_self, hproc]
        exact fun _ fd ↦ hdone fd (List.mem_finRange fd)
      · rw [Function.update_of_ne hq, hexact.others q hq]
        exact h.idle q

/-- `fork`: the child gets its descriptors one after the other. -/
theorem Settled.fork (h : Settled s) {p : Fin NPROC} (hlive : (s.proc p).cwd ≠ none)
    (np : Fin NPROC) : wp (fork p np) (fun _ s' ↦ Settled s') NotRefs s := by
  rw [Fs.fork, wp_bind, wp_get]
  split
  · exact ⟨by decide, by decide⟩
  · rename_i hnp
    have hnone : (s.proc np).cwd = none := by simpa using hnp
    have hne : p ≠ np := by
      rintro rfl
      exact hlive hnone
    rw [wp_bind]
    refine wp_post (wp_forM (fun done s' ↦ Exact s np 0 s' ∧
      ∀ fd ∉ done, (s'.proc np).ofile fd = none) ⟨h.exact np, fun fd _ ↦ h.idle np hnone fd⟩ ?_) ?_
    · rintro done fd rest s₁ hl ⟨h₁, hrest⟩
      have hfd : fd ∉ done := by
        have hnodup := List.nodup_finRange NOFILE
        rw [hl, List.nodup_append] at hnodup
        exact fun hmem ↦ hnodup.2.2 fd hmem fd (by simp) rfl
      rw [wp_bind, wp_get]
      split
      · rename_i f hf
        rw [wp_bind]
        refine wp_post (h₁.filedup (h₁.ref_pos_of_descriptor hf)) ?_
        rintro _ s₂ ⟨h₂, hproc⟩
        rw [wp_setOfile]
        refine ⟨h₂.fill (by rw [hproc]; exact hrest fd hfd), fun fd' hfd' ↦ ?_⟩
        have hne' : fd' ≠ fd := fun heq ↦ hfd' (by simp [heq])
        change (Function.update s₂.proc np _ np).ofile fd' = none
        rw [Function.update_self]
        dsimp only
        rw [Function.update_of_ne hne', hproc]
        exact hrest fd' fun hmem ↦ hfd' (by simp [hmem])
      · exact ⟨h₁, fun fd' hfd' ↦ hrest fd' fun hmem ↦ hfd' (by simp [hmem])⟩
    · rintro _ s₁ ⟨h₁, -⟩
      rw [wp_bind]
      refine wp_post (h₁.below (.cwd p)) ?_
      rintro ip s₂ ⟨h₂, -⟩
      rw [wp_bind]
      refine wp_post (h₂.below (.idup ip)) ?_
      rintro ip s₃ ⟨h₃, -⟩
      rw [wp_setCwd]
      refine (h₃.setCwd ip).settled h fun hcwd ↦ ?_
      have hsome : (Function.update s₃.proc np { s₃.proc np with cwd := some ip } np).cwd = none := hcwd
      rw [Function.update_self] at hsome
      cases hsome

/-! ## Runs -/

/-- Every call by a live process. -/
theorem Settled.code (h : Settled s) {action : Action} (hlive : (s.proc action.proc).cwd ≠ none) :
    wp action.code (fun _ s' ↦ Settled s') NotRefs s := by
  -- Most calls keep the process alive.
  have hcall : ∀ {x : FsM ℤ}, wp x (fun _ s' ↦ Exact s action.proc 0 s') NotRefs s →
      wp (do let _ ← x) (fun _ s' ↦ Settled s') NotRefs s := by
    intro x hx
    rw [wp_bind]
    exact wp_post hx fun _ s' h' ↦ h'.settled h fun hcwd ↦ absurd hcwd (h'.live hlive)
  cases action with
  | «open» p path omode => exact hcall ((h.exact p).sysOpen path omode)
  | mkdir p path => exact hcall ((h.exact p).keep (Below.sysCreate p path _ _ _).tables)
  | mknod p path major minor => exact hcall ((h.exact p).keep (Below.sysCreate p path _ _ _).tables)
  | link p old new => exact hcall ((h.exact p).keep (Below.sysLink p old new).tables)
  | unlink p path => exact hcall ((h.exact p).keep (Below.sysUnlink p path).tables)
  | chdir p path => exact hcall ((h.exact p).sysChdir path)
  | read p fd mem addr n device => exact hcall ((h.exact p).sysRead fd mem addr n device)
  | write p fd mem addr n device => exact hcall ((h.exact p).sysWrite fd mem addr n device)
  | fstat p fd =>
    exact wp_post ((h.exact p).sysFstat fd) fun _ s' h' ↦ h'.settled h fun hcwd ↦
      absurd hcwd (h'.live hlive)
  | dup p fd => exact hcall ((h.exact p).sysDup fd)
  | close p fd => exact hcall ((h.exact p).sysClose fd)
  | pipe p page copied => exact hcall ((h.exact p).sysPipe page copied)
  | exec p path mem => exact hcall ((h.exact p).keep (Below.exec p path mem).tables)
  | pathFault p => exact hcall ((h.exact p).keep Below.pathFault.tables)
  | fork p np => exact h.fork hlive np
  | exit p => exact h.exit p

theorem Settled.step (h : Settled s) {action : Action} (hstep : step s action = .ok s') :
    Settled s' := by
  obtain ⟨hlive, hcode⟩ := step_ok hstep
  have hsettled := wp_of_ok (h.code hlive) hcode
  exact hsettled

theorem Settled.step_error (h : Settled s) {action : Action} {stop : Stop}
    (hstep : Fs.step s action = .error stop) : NotRefs stop := by
  obtain rfl | ⟨hlive, hcode⟩ := step_stopped hstep
  · exact ⟨by decide, by decide⟩
  · exact wp_of_error (h.code hlive) hcode

theorem settled_boot (sb : Superblock) (disk : Device) : Settled (boot sb disk) := by
  have hslots : ∀ f, (boot sb disk).slots f = 0 := by
    intro f
    rw [FsState.slots, Finset.card_eq_zero, Finset.filter_eq_empty_iff]
    intro slot _ hslot
    cases hslot
  have hend : ∀ f pi w, ¬ ((boot sb disk).ftable f).IsEnd pi w := by
    intro f pi w hend
    cases hend.1
  refine ⟨⟨fun f ↦ ?_, fun _ _ ↦ rfl, ⟨fun _ hpipe ↦ ?_, ?_, ?_, fun _ _ hpage ↦ ?_⟩⟩,
    fun _ _ _ ↦ rfl⟩
  · rw [hslots, Multiset.count_zero]
    rfl
  · cases hpipe
  · exact fun f g pi w hf ↦ absurd hf (hend _ _ _)
  · intro pi
    refine ⟨fun hpage ↦ ?_, fun hopen ↦ ?_⟩
    · cases hpage
    · obtain ⟨w, f, hf⟩ := hopen
      exact absurd hf (hend f pi w)
  · cases hpage

/-- The descriptors of live processes that point to an open file. -/
def FsState.liveSlots (s : FsState) (f : Fin NFILE) : Finset (Fin NPROC × Fin NOFILE) :=
  Finset.univ.filter fun slot ↦ (s.proc slot.1).cwd ≠ none ∧ (s.proc slot.1).ofile slot.2 = some f

theorem Settled.ref_eq (h : Settled s) (f : Fin NFILE) :
    (s.ftable f).ref = (s.liveSlots f).card := by
  rw [h.refs, Multiset.count_zero, Nat.add_zero, FsState.slots, FsState.liveSlots]
  refine congrArg Finset.card (Finset.filter_congr fun slot _ ↦ ?_)
  refine ⟨fun hslot ↦ ⟨fun hcwd ↦ ?_, hslot⟩, And.right⟩
  have hnone := h.idle slot.1 hcwd slot.2
  cases hnone.symm.trans hslot

/-- A file that is an end of a pipe is in use. -/
theorem Settled.end_iff (h : Settled s) {pi : ℕ} {w : Bool} {f : Fin NFILE} :
    (s.ftable f).IsEnd pi w ↔ 0 < (s.ftable f).ref ∧ (s.ftable f).type = .pipe ∧
      (s.ftable f).pipe = pi ∧ (if w then (s.ftable f).writable else (s.ftable f).readable) = true := by
  constructor
  · rintro ⟨htype, hpipe, hw⟩
    refine ⟨Nat.pos_of_ne_zero fun hzero ↦ ?_, htype, hpipe, ?_⟩
    · exact nomatch (h.unused f hzero).symm.trans htype
    · have hmode := h.pipes.mode f htype
      cases w <;> simp [hmode, hw]
  · rintro ⟨-, htype, hpipe, hw⟩
    have hmode := h.pipes.mode f htype
    refine ⟨htype, hpipe, ?_⟩
    cases w <;> simpa [hmode] using hw

/-- After every run of calls, whatever runs out, the references of an open file are the descriptors
of live processes that point to it; unused files have no type; a page is allocated to a pipe exactly
while a file in use points to it; and the flags of a pipe tell which ends are open.  No further call
panics in `filedup` or `fileclose`. -/
theorem file_references_exact {sb : Superblock} {disk : Device} {actions : List Action}
    (hrun : run Fs.step (boot sb disk) actions = .ok s) :
    (∀ f, (s.ftable f).ref = (s.liveSlots f).card) ∧
    (∀ f, (s.ftable f).ref = 0 → (s.ftable f).type = .none) ∧
    (∀ pi, s.pages pi = true ↔
      ∃ f, 0 < (s.ftable f).ref ∧ (s.ftable f).type = .pipe ∧ (s.ftable f).pipe = pi) ∧
    (∀ pi, s.pages pi = true →
      ((s.pipe pi).readopen = true ↔ ∃ f, 0 < (s.ftable f).ref ∧ (s.ftable f).type = .pipe ∧
        (s.ftable f).pipe = pi ∧ (s.ftable f).readable = true) ∧
      ((s.pipe pi).writeopen = true ↔ ∃ f, 0 < (s.ftable f).ref ∧ (s.ftable f).type = .pipe ∧
        (s.ftable f).pipe = pi ∧ (s.ftable f).writable = true)) ∧
    ∀ action, Fs.step s action ≠ .error (.panic .filedupRef) ∧
      Fs.step s action ≠ .error (.panic .filecloseRef) := by
  have h : Settled s := run_induction Fs.step (P := fun _ s ↦ Settled s) (settled_boot sb disk)
    (fun _ _ _ _ _ hsettled hstep ↦ hsettled.step hstep) hrun
  refine ⟨h.ref_eq, h.unused, fun pi ↦ ?_, fun pi hpage ↦ ⟨?_, ?_⟩, fun action ↦ ⟨?_, ?_⟩⟩
  · rw [h.pipes.page]
    constructor
    · rintro ⟨w, f, hend⟩
      obtain ⟨hpos, htype, hpipe, -⟩ := h.end_iff.mp hend
      exact ⟨f, hpos, htype, hpipe⟩
    · rintro ⟨f, -, htype, hpipe⟩
      exact ⟨_, f, htype, hpipe, rfl⟩
  · exact (h.pipes.opened pi false hpage).trans (exists_congr fun f ↦ h.end_iff)
  · exact (h.pipes.opened pi true hpage).trans (exists_congr fun f ↦ h.end_iff)
  · exact fun hstep ↦ (h.step_error hstep).1 rfl
  · exact fun hstep ↦ (h.step_error hstep).2 rfl

/-- A pipe is made, its read end is duplicated and its write end closed: the read end has two
references, and the pipe is there without a write end. -/
theorem file_references_exact_pipe : ∃ s : FsState,
    run Fs.step small [.pipe initproc (some 7) true, .dup initproc 0, .close initproc 1] = .ok s ∧
    (s.ftable ⟨0, by decide⟩).ref = 2 ∧ s.pages 7 = true ∧ (s.pipe 7).writeopen = false ∧
    (s.liveSlots ⟨0, by decide⟩).card = 2 ∧
    ∀ action, Fs.step s action ≠ .error (.panic .filedupRef) ∧
      Fs.step s action ≠ .error (.panic .filecloseRef) := by
  have hyields : yields (run Fs.step small
      [.pipe initproc (some 7) true, .dup initproc 0, .close initproc 1])
      (fun s ↦ (s.ftable ⟨0, by decide⟩).ref = 2 ∧ s.pages 7 = true ∧
        (s.pipe 7).writeopen = false) = true := by decide +kernel
  obtain ⟨s, hrun, href, hpage, hclosed⟩ := exists_of_yields hyields
  obtain ⟨hrefs, -, -, -, hpanic⟩ := file_references_exact hrun
  exact ⟨s, hrun, href, hpage, hclosed, (hrefs _).symm.trans href, hpanic⟩

end Xv6.Fs
