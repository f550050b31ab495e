import Xv6.Fs.Link
import Xv6.Lib.Frame
import Xv6.Lib.Run

/-!
# All Calls

The calls on descriptors, current directories and processes, and the invariant of every run: from a
well-formed image, every call of every process keeps the file system well formed and has one of the
effects of `Effect`.
-/

namespace Xv6.Fs

open Lib

variable {s s' : FsState} {E : Stop → Prop} {held : Multiset (Fin NINODE)}
  {locks : Finset (Fin NINODE)} {ip : Fin NINODE}

/-! ## Current directories -/

/-- The state with other processes. -/
def FsState.withProc (q : Fin NPROC → Proc) (s : FsState) : FsState := { s with proc := q }

section Frames

open Frames

theorem frames_inode (ip : Fin NINODE) : Frames FsState.withProc (inode ip) := fun _ _ ↦ rfl

theorem frames_setInode (ip : Fin NINODE) (i : Inode) :
    Frames FsState.withProc (setInode ip i) := fun _ _ ↦ rfl

theorem frames_modifyCopy (ip : Fin NINODE) (f : Dinode → Dinode) :
    Frames FsState.withProc (modifyCopy ip f) := fun _ _ ↦ rfl

theorem frames_bread (b : ℕ) : Frames FsState.withProc (bread b) := by
  intro q s
  change (if b ∈ s.bufs then throw _ else _ : FsM Block) (s.withProc q) =
    ((if b ∈ s.bufs then throw _ else _ : FsM Block) s).map _
  split
  · rfl
  · rfl

theorem frames_brelse (b : ℕ) : Frames FsState.withProc (brelse b) := by
  intro q s
  change (if b ∈ s.bufs then _ else panic _ : FsM Unit) (s.withProc q) =
    ((if b ∈ s.bufs then _ else panic _ : FsM Unit) s).map _
  split
  · rfl
  · rfl

theorem frames_bload (b : ℕ) : Frames FsState.withProc (bload b) := fun _ _ ↦ rfl

theorem frames_bstore (b : ℕ) (data : Block) : Frames FsState.withProc (bstore b data) :=
  fun _ _ ↦ rfl

theorem frames_logWrite (b : ℕ) : Frames FsState.withProc (logWrite b) := by
  intro q s
  change (if s.outstanding < 1 then panic _ else _ : FsM Unit) (s.withProc q) =
    ((if s.outstanding < 1 then panic _ else _ : FsM Unit) s).map _
  split
  · rfl
  · rfl

theorem frames_bfree (b : ℕ) : Frames FsState.withProc (bfree b) :=
  get_bind (fun _ _ ↦ rfl) fun _ ↦ (frames_bread _).bind fun _ ↦
    ite ((frames_bstore _ _).bind fun _ ↦ (frames_logWrite _).bind fun _ ↦ frames_brelse _) (throw _)

theorem frames_iupdate (ip : Fin NINODE) : Frames FsState.withProc (iupdate ip) :=
  (frames_inode ip).bind fun _ ↦ get_bind (fun _ _ ↦ rfl) fun _ ↦ (frames_bread _).bind fun _ ↦
    (frames_bstore _ _).bind fun _ ↦ (frames_logWrite _).bind fun _ ↦ frames_brelse _

theorem frames_itrunc (ip : Fin NINODE) : Frames FsState.withProc (itrunc ip) := by
  have hend : Frames FsState.withProc (do
      modifyCopy ip fun d ↦ { d with size := 0 }
      iupdate ip) := (frames_modifyCopy ip _).bind fun _ ↦ frames_iupdate ip
  refine .bind (.forM fun k ↦ (frames_inode ip).bind fun i ↦ ?_) fun _ ↦
    (frames_inode ip).bind fun i ↦ ?_
  · exact ite (pure _) ((frames_bfree _).bind fun _ ↦ frames_modifyCopy ip _)
  · refine ite hend ((frames_bread _).bind fun _ ↦ .bind (.forM fun j ↦
      (frames_bload _).bind fun a ↦ ?_) fun _ ↦ (frames_brelse _).bind fun _ ↦
      (frames_bfree _).bind fun _ ↦ (frames_modifyCopy ip _).bind fun _ ↦ hend)
    exact ite (pure _) (frames_bfree _)

/-- `iput` does not look at processes. -/
theorem frames_iput (ip : Fin NINODE) : Frames FsState.withProc (iput ip) := by
  have hend : Frames FsState.withProc (do
      let i ← inode ip
      setInode ip { i with ref := i.ref - 1 }) :=
    (frames_inode ip).bind fun _ ↦ frames_setInode ip _
  refine (frames_inode ip).bind fun i ↦ ite ?_ hend
  refine .bind ?_ fun _ ↦ (frames_itrunc ip).bind fun _ ↦ (frames_modifyCopy ip _).bind fun _ ↦
    (frames_iupdate ip).bind fun _ ↦ (frames_inode ip).bind fun _ ↦
    (frames_setInode ip _).bind fun _ ↦ .bind ?_ fun _ ↦ hend
  · exact (frames_inode ip).bind fun _ ↦ ite (throw _) (frames_setInode ip _)
  · exact (frames_inode ip).bind fun _ ↦ frames_setInode ip _

end Frames

/-- Process `p` with another current directory. -/
def FsState.putCwd (s : FsState) (p : Fin NPROC) (cwd : Option (Fin NINODE)) : FsState :=
  s.putProc p { s.proc p with cwd := cwd }

theorem uses_putCwd (s : FsState) (p : Fin NPROC) (cwd : Option (Fin NINODE)) (k : Fin NINODE) :
    (s.putCwd p cwd).uses k + (if (s.proc p).cwd = some k then 1 else 0) =
      s.uses k + if cwd = some k then 1 else 0 :=
  uses_putProc s p { s.proc p with cwd := cwd } k

/-- The reference to a new current directory becomes one of the process. -/
theorem Base.putCwd {held' : Multiset (Fin NINODE)} (h : Base s held locks) {p : Fin NPROC}
    {cwd : Option (Fin NINODE)}
    (hrefs : ∀ k, (s.putCwd p cwd).uses k + held'.count k = s.uses k + held.count k)
    (hvalid : ∀ k, cwd = some k → 0 < s.uses k ∨ (s.itable k).valid = true) :
    Base (s.putCwd p cwd) held' locks := by
  refine h.transfer rfl rfl rfl rfl hrefs (fun k hk ↦ ?_) ⟨h.files.unused, h.files.notDir⟩
  by_cases hcwd : cwd = some k
  · exact hvalid k hcwd
  · have := uses_putCwd s p cwd k
    rw [if_neg hcwd] at this
    exact .inl (by omega)

/-- The old current directory of a process is given up; the process still has it when `iput` runs,
which makes no difference. -/
theorem iput_cwd {p : Fin NPROC} {old : Fin NINODE} {cwd : Option (Fin NINODE)}
    (h : Base s held ∅) (hop : 0 < s.outstanding) (hold : (s.proc p).cwd = some old)
    (ht : Base (s.putCwd p cwd) {old} ∅) :
    wp (iput old) (fun _ s' ↦ MinorCall s (s'.putCwd p cwd)) E s := by
  have hput : wp (iput old) (fun _ s' ↦ MinorCall s s') E
      (s.withProc (Function.update s.proc p { s.proc p with cwd := cwd })) := by
    refine iput_release h ht rfl rfl (FsState.uses_cwd hold) (fun k hk ↦ ?_) hop
    have hsum := uses_putCwd s p cwd k
    rw [hold, if_neg (fun heq ↦ hk (Option.some.inj heq).symm)] at hsum
    exact (Nat.le_add_right _ _).trans hsum.symm.le
  refine wp_post ((frames_iput old).wp FsState.proc (fun _ ↦ rfl) (fun _ _ ↦ rfl) hput) ?_
  rintro _ s' ⟨hr, hproc⟩
  rw [FsState.putCwd, FsState.putProc, hproc]
  exact hr

/-- `sys_chdir`. -/
theorem sysChdir_spec (hE : Allows E) (h : Base s 0 ∅) (hsound : Sound E s) (p : Fin NPROC)
    (path : List UInt8) : wp (sysChdir p path) (fun _ s' ↦ MinorCall s s') E s := by
  rw [sysChdir, wp_bind, wp_beginOp, wp_bind]
  set s₀ : FsState := { s with outstanding := s.outstanding + 1 } with hs₀
  refine wp_post (namei_spec hE p path (h.log _ _) (Nat.succ_pos _) (hsound.ready _)) ?_
  rintro (_ | ip) s₁ ⟨hq₁, hr⟩
  · exact ((hq₁.minorCall hr).log _ _).begin _
  · obtain ⟨h₁, hlock₁⟩ := hr
    have hmem : ip ∈ ip ::ₘ (0 : Multiset (Fin NINODE)) := by simp
    dsimp only
    rw [wp_bind]
    refine wp_post (ilock_spec h₁ (h₁.refs_of_mem hmem) (fun _ ↦ hE _ (by simp))
      hlock₁.allocated) ?_
    rintro _ s₂ ⟨-, h₂, hkeeps₂⟩
    rw [insert_empty_eq] at h₂
    have hlip : ip ∈ ({ip} : Finset (Fin NINODE)) := by simp
    have hq₂ : Quiet s₀ s₂ 0 := hq₁.trans (.ofKeeps (hkeeps₂.mono (Multiset.zero_le _)))
    have hop₂ : 0 < s₂.outstanding := by
      rw [hq₂.outstanding]
      exact Nat.succ_pos _
    rw [wp_bind, wp_inode]
    split
    · exact wp_post (fail_quiet hq₂ h₂ hop₂ _) fun _ _ hr ↦ hr.begin _
    · rw [wp_bind]
      refine wp_post (iunlock_spec h₂ hlip) ?_
      rintro _ s₃ ⟨h₃, hkeeps₃⟩
      rw [Finset.erase_singleton] at h₃
      have hq₃ : Quiet s₀ s₃ 0 := hq₂.trans (.ofKeeps (hkeeps₃.mono (Multiset.zero_le _)))
      have hvalid : (s₃.itable ip).valid = true :=
        hkeeps₃.valid ip (by simp) (h₂.valid_of_lock hlip)
      rw [cwd, wp_bind, wp_bind, wp_get]
      split
      · rename_i old hold
        rw [wp_pure, wp_bind]
        have ht : Base (s₃.putCwd p (some ip)) {old} ∅ := by
          refine h₃.putCwd (fun k ↦ ?_) fun k hk ↦ ?_
          · have := uses_putCwd s₃ p (some ip) k
            rw [hold] at this
            simp only [Option.some.injEq] at this
            rw [Multiset.count_singleton, Multiset.count_cons, Multiset.count_zero]
            simpa [eq_comm] using this
          · exact .inr (Option.some.inj hk ▸ hvalid)
        refine wp_post (iput_cwd h₃ (by rwa [hkeeps₃.outstanding]) hold ht) ?_
        rintro _ s₄ hr
        exact ((hr.log _ _).quiet hq₃).begin _
      · exact hE _ (by simp)

/-! ## Descriptors -/

/-- A call that changes nothing. -/
theorem MinorCall.refl (h : Base s 0 ∅) : MinorCall s s :=
  ⟨h, fun hcalm ↦ .same hcalm rfl fun _ hi ↦ hi⟩

/-- A change of the descriptors of a process. -/
theorem MinorCall.putOfile (h : MinorCall s s') (p : Fin NPROC)
    (ofile : Fin NOFILE → Option (Fin NFILE)) :
    MinorCall s (s'.putProc p { s'.proc p with ofile := ofile }) := by
  obtain ⟨hbase, huses⟩ := h.1.putOfile p ofile
  refine h.trans ⟨hbase, fun hcalm ↦ .same hcalm rfl fun i hi ↦ hi.congr rfl fun k ↦ ?_⟩
  rw [huses]

/-- `filedup`. -/
theorem filedup_spec (hE : Allows E) (h : Base s 0 ∅) (f : Fin NFILE) :
    wp (filedup f) (fun _ s' ↦ MinorCall s s' ∧ s'.proc = s.proc) E s := by
  rw [filedup, wp_bind, wp_get]
  split
  · exact hE _ (by simp)
  · have hfiles : Files (s.putFile f { s.ftable f with ref := (s.ftable f).ref + 1 }) :=
      h.files.putFile (fun hzero ↦ absurd hzero (Nat.succ_ne_zero _)) (h.files.notDir f)
    obtain ⟨hbase, huses⟩ := h.putFile hfiles rfl
    exact ⟨⟨hbase, fun hcalm ↦ .same hcalm rfl fun i hi ↦ hi.congr rfl fun k ↦
      (congrFun huses k).ge⟩, rfl⟩

/-- Looking up a descriptor. -/
theorem wp_argfd {T : Option (Fin NOFILE × Fin NFILE) → FsState → Prop} (h : ∀ r, T r s)
    (p : Fin NPROC) (fd : ℤ) : wp (argfd p fd) T E s := by
  rw [argfd]
  split
  · dsimp only
    rw [wp_bind, wp_get]
    split
    · exact h _
    · exact h _
  · exact h _

/-- `sys_dup`. -/
theorem sysDup_spec (hE : Allows E) (h : Base s 0 ∅) (p : Fin NPROC) (fd : ℤ) :
    wp (sysDup p fd) (fun _ s' ↦ MinorCall s s') E s := by
  rw [sysDup, wp_bind]
  refine wp_argfd (fun r ↦ ?_) p fd
  rcases r with _ | ⟨_, f⟩
  · exact .refl h
  · dsimp only
    rw [wp_bind]
    refine wp_fdalloc p f (.refl h) fun new ↦ ?_
    have hcall := (MinorCall.refl h).putOfile p (Function.update (s.proc p).ofile new (some f))
    dsimp only
    rw [wp_bind]
    exact wp_post (filedup_spec hE hcall.1 f) fun _ _ hr ↦ hcall.trans hr.1

/-- `sys_close`. -/
theorem sysClose_spec (hE : Allows E) (h : Base s 0 ∅) (p : Fin NPROC) (fd : ℤ) :
    wp (sysClose p fd) (fun _ s' ↦ MinorCall s s') E s := by
  rw [sysClose, wp_bind]
  refine wp_argfd (fun r ↦ ?_) p fd
  rcases r with _ | ⟨slot, f⟩
  · exact .refl h
  · have hcall := (MinorCall.refl h).putOfile p (Function.update (s.proc p).ofile slot none)
    dsimp only
    rw [wp_bind, wp_setOfile, wp_bind]
    exact wp_post (fileclose_spec hE hcall.1 f) fun _ _ hr ↦ hcall.trans hr

/-- `sys_read`. -/
theorem sysRead_spec (hE : Allows E) (h : Base s 0 ∅) (p : Fin NPROC) (fd : ℤ) (mem : Dest)
    (addr : ℕ) (n device : ℤ) :
    wp (sysRead p fd mem addr n device) (fun _ s' ↦ MinorCall s s' ∧ s'.disk = s.disk) E s := by
  rw [sysRead, wp_bind]
  refine wp_argfd (fun r ↦ ?_) p fd
  rcases r with _ | ⟨_, f⟩
  · exact ⟨.refl h, rfl⟩
  · exact fileread_spec hE h f mem addr n device

/-- `sys_write`. -/
theorem sysWrite_spec (hE : Allows E) (h : Base s 0 ∅) (p : Fin NPROC) (fd : ℤ) (mem : Source)
    (addr : ℕ) (n device : ℤ) :
    wp (sysWrite p fd mem addr n device) (fun _ s' ↦ MinorCall s s') E s := by
  rw [sysWrite, wp_bind]
  refine wp_argfd (fun r ↦ ?_) p fd
  rcases r with _ | ⟨_, f⟩
  · exact .refl h
  · exact filewrite_spec hE h f mem addr n device

/-- `sys_fstat`. -/
theorem sysFstat_spec (hE : Allows E) (h : Base s 0 ∅) (p : Fin NPROC) (fd : ℤ) :
    wp (sysFstat p fd) (fun _ s' ↦ MinorCall s s') E s := by
  rw [sysFstat, wp_bind]
  refine wp_argfd (fun r ↦ ?_) p fd
  rcases r with _ | ⟨_, f⟩
  · exact .refl h
  · exact filestat_spec hE h f

/-! ## Processes -/

/-- `exit`. -/
theorem exit_spec (hE : Allows E) (h : Base s 0 ∅) (p : Fin NPROC) :
    wp (exit p) (fun _ s' ↦ MinorCall s s') E s := by
  rw [exit]
  split
  · exact hE _ (by simp)
  · rw [wp_bind]
    refine wp_post (wp_forM (fun _ s' ↦ MinorCall s s') (.refl h) ?_) ?_
    · rintro done fd rest s₁ - h₁
      rw [wp_bind, wp_get]
      split
      · rename_i f _
        rw [wp_bind]
        refine wp_post (fileclose_spec hE h₁.1 f) fun _ s₂ h₂ ↦ ?_
        exact (h₁.trans h₂).putOfile p _
      · exact h₁
    · rintro _ s₁ h₁
      set s₂ : FsState := { s₁ with outstanding := s₁.outstanding + 1 } with hs₂
      have h₂ : Base s₂ 0 ∅ := h₁.1.log _ _
      rw [wp_bind, wp_beginOp, cwd, wp_bind, wp_bind, wp_get]
      split
      · rename_i old hold
        have ht : Base (s₂.putCwd p none) {old} ∅ := by
          refine h₂.putCwd (fun k ↦ ?_) fun k hk ↦ absurd hk (by simp)
          have := uses_putCwd s₂ p none k
          rw [show (s₂.proc p).cwd = some old from hold] at this
          rw [Multiset.count_singleton, Multiset.count_zero]
          simpa [eq_comm] using this
        rw [wp_pure, wp_bind]
        refine wp_post (iput_cwd h₂ (Nat.succ_pos _) hold ht) ?_
        rintro _ s₃ hr
        exact h₁.trans ((hr.log _ _).begin _)
      · exact hE _ (by simp)

/-- `fork`. -/
theorem fork_spec (hE : Allows E) (h : Base s 0 ∅) (p np : Fin NPROC) :
    wp (fork p np) (fun _ s' ↦ MinorCall s s') E s := by
  rw [fork, wp_bind, wp_get]
  split
  · exact hE _ (by simp)
  · rename_i hnone
    rw [wp_bind]
    refine wp_post (wp_forM (fun _ s' ↦ MinorCall s s' ∧ (s'.proc np).cwd = none)
      ⟨.refl h, by simpa using hnone⟩ ?_) ?_
    · rintro done fd rest s₁ - ⟨h₁, hnone₁⟩
      rw [wp_bind, wp_get]
      split
      · rename_i f _
        rw [wp_bind]
        refine wp_post (filedup_spec hE h₁.1 f) ?_
        rintro _ s₂ ⟨h₂, hproc⟩
        refine ⟨(h₁.trans h₂).putOfile np _, ?_⟩
        change (Function.update s₂.proc np _ np).cwd = none
        rw [Function.update_self, hproc]
        exact hnone₁
      · exact ⟨h₁, hnone₁⟩
    · rintro _ s₁ ⟨h₁, hnone₁⟩
      rw [cwd, wp_bind, wp_bind, wp_get]
      split
      · rename_i ip hcwd
        have huses := FsState.uses_cwd hcwd
        rw [wp_pure, wp_bind]
        refine wp_post (idup_spec h₁.1 (h₁.1.refs_pos (by omega))) ?_
        rintro ip s₂ ⟨rfl, h₂, hkeeps, -⟩
        rw [← hkeeps.proc] at hnone₁
        rw [← hkeeps.uses] at huses
        have hsum := uses_putCwd s₂ np (some ip)
        rw [hnone₁] at hsum
        have hbase : Base (s₂.putCwd np (some ip)) 0 ∅ := by
          refine h₂.putCwd (fun k ↦ ?_) fun k hk ↦ .inl (Option.some.inj hk ▸ huses)
          have := hsum k
          rw [Multiset.count_zero, Multiset.count_cons, Multiset.count_zero]
          simpa [eq_comm] using this
        refine h₁.trans ⟨hbase, fun hcalm ↦ (Minor.ofKeeps hcalm hkeeps).trans
          (.same (hkeeps.calm hkeeps.node hcalm) rfl fun i hi ↦ hi.congr rfl fun k ↦ ?_)⟩
        have := hsum k
        simp only [reduceCtorEq, if_false, Nat.add_zero] at this
        exact this ▸ Nat.le_add_right _ _
      · exact hE _ (by simp)

/-! ## Programs -/

section Exec

variable (hbufs : s.bufs = []) (hholes : (s.itable ip).copy.NoHoles s.disk)

include hbufs hholes

/-- Reading a part of the file into the kernel. -/
theorem readi_kernel (dst off : ℕ) {n : ℕ} (hn : n < 2 ^ 32) :
    wp (readi ip kernelDest dst off n) (fun _ s' ↦ s' = s) E s :=
  wp_post (readi_spec hbufs hholes kernelDest dst off hn) fun _ _ hr ↦ hr.1

/-- `loadseg` only reads. -/
theorem loadseg_spec (hE : E (.panic .loadsegAddr)) (mem : UserMemory) (va offset sz fuel i : ℕ) :
    wp (loadseg mem va ip offset sz fuel i) (fun _ s' ↦ s' = s) E s := by
  induction fuel generalizing i with
  | zero => rfl
  | succ fuel ih =>
    rw [loadseg]
    split
    · split
      · exact hE
      · dsimp only
        rw [wp_bind]
        refine wp_post (readi_kernel hbufs hholes 0 _ ?_) ?_
        · exact lt_of_le_of_lt (min_le_right _ _) (by decide)
        · rintro ⟨r, bytes⟩ s' rfl
          dsimp only
          split
          · rfl
          · exact ih _
    · rfl

/-- Loading what one program header names only reads. -/
theorem execSegment_spec (hE : E (.panic .loadsegAddr)) (mem : UserMemory) (i off : ℕ) :
    wp (execSegment mem ip i off) (fun _ s' ↦ s' = s) E s := by
  rw [execSegment, wp_bind]
  refine wp_post (readi_kernel hbufs hholes 0 _ (by decide)) ?_
  rintro ⟨r, bytes⟩ s' rfl
  dsimp only
  repeat' split
  all_goals first
    | rfl
    | exact loadseg_spec hbufs hholes hE mem _ _ _ _ _

/-- The loop of `exec` only reads. -/
theorem execLoop_spec (hE : E (.panic .loadsegAddr)) (mem : UserMemory) (count i off : ℕ) :
    wp (execLoop mem ip count i off) (fun _ s' ↦ s' = s) E s := by
  induction count generalizing i off with
  | zero => rfl
  | succ count ih =>
    rw [execLoop, wp_bind]
    refine wp_post (execSegment_spec hbufs hholes hE mem i off) ?_
    rintro loaded s' rfl
    split
    · exact ih _ _
    · rfl

/-- The part of `exec` that reads the file. -/
theorem execLoad_spec (hE : E (.panic .loadsegAddr)) (mem : UserMemory) :
    wp (execLoad mem ip) (fun _ s' ↦ s' = s) E s := by
  rw [execLoad, wp_bind]
  refine wp_post (readi_kernel hbufs hholes 0 _ (by decide)) ?_
  rintro ⟨r, bytes⟩ s' rfl
  dsimp only
  repeat' split
  all_goals first
    | rfl
    | exact execLoop_spec hbufs hholes hE mem _ _ _

end Exec

/-- `exec`. -/
theorem exec_spec (hE : Allows E) (h : Base s 0 ∅) (hsound : Sound E s) (p : Fin NPROC)
    (path : List UInt8) (mem : UserMemory) :
    wp (exec p path mem) (fun _ s' ↦ MinorCall s s') E s := by
  rw [exec, wp_bind, wp_beginOp, wp_bind]
  set s₀ : FsState := { s with outstanding := s.outstanding + 1 } with hs₀
  refine wp_post (namei_spec hE p path (h.log _ _) (Nat.succ_pos _) (hsound.ready _)) ?_
  rintro (_ | ip) s₁ ⟨hq₁, hr⟩
  · exact ((hq₁.minorCall hr).log _ _).begin _
  · obtain ⟨h₁, hlock₁⟩ := hr
    dsimp only
    rw [wp_bind]
    refine wp_post (ilock_spec h₁ (h₁.refs_of_mem (by simp)) (fun _ ↦ hE _ (by simp)) hlock₁.allocated) ?_
    rintro _ s₂ ⟨-, h₂, hkeeps₂⟩
    rw [insert_empty_eq] at h₂
    have hlip : ip ∈ ({ip} : Finset (Fin NINODE)) := by simp
    have hq₂ : Quiet s₀ s₂ 0 := hq₁.trans (.ofKeeps (hkeeps₂.mono (Multiset.zero_le _)))
    have hop₂ : 0 < s₂.outstanding := by
      rw [hq₂.outstanding]
      exact Nat.succ_pos _
    rw [wp_bind]
    refine wp_post (execLoad_spec h₂.bufs (h₂.noHoles (h₂.refs_of_lock hlip)
      (h₂.valid_of_lock hlip)) (hE _ (by simp)) mem) ?_
    rintro loaded s₃ rfl
    split
    · rw [wp_bind]
      refine wp_post (iunlockput_quiet h₂ hlip hop₂) ?_
      rintro _ s₄ ⟨h₄, hq₄⟩
      rw [Finset.erase_singleton] at h₄
      rw [wp_bind, wp_endOp]
      have hcall := (((hq₂.trans hq₄).minorCall h₄).log (s₄.outstanding - 1)
        (if s₄.outstanding - 1 = 0 then [] else s₄.logged)).begin _
      split
      · exact hcall
      · exact hcall
    · exact wp_post (fail_quiet hq₂ h₂ hop₂ _) fun _ _ hr ↦ hr.begin _

/-! ## Pipes -/

/-- A change of an open file without an inode. -/
theorem MinorCall.putFile (h : MinorCall s s') (f : Fin NFILE) (file : File)
    (hunused : file.ref = 0 → file.type = .none) (htype : file.type.hasInode = false)
    (hold : (s'.ftable f).type.hasInode = false) : MinorCall s (s'.putFile f file) := by
  have hfiles : Files (s'.putFile f file) := by
    refine h.1.files.putFile hunused fun hinode ↦ ?_
    rw [hinode] at htype
    cases htype
  have hrefers : file.refers = (s'.ftable f).refers := by
    funext k
    simp [File.refers, htype, hold]
  obtain ⟨hbase, huses⟩ := h.1.putFile hfiles hrefers
  exact h.trans ⟨hbase, fun hcalm ↦ .same hcalm rfl fun i hi ↦ hi.congr rfl fun k ↦
    (congrFun huses k).ge⟩

/-- Closing a file at the end of a call. -/
theorem MinorCall.fileclose (hE : Allows E) (h : MinorCall s s') (f : Fin NFILE) :
    wp (fileclose f) (fun _ s'' ↦ MinorCall s s'') E s' :=
  wp_post (fileclose_spec hE h.1 f) fun _ _ hr ↦ h.trans hr

/-- Closing both ends of a pipe. -/
theorem MinorCall.fileclose₂ (hE : Allows E) (h : MinorCall s s') (f g : Fin NFILE) {α : Type}
    (a : α) : wp (do
      Fs.fileclose f
      Fs.fileclose g
      return a) (fun _ s'' ↦ MinorCall s s'') E s' := by
  rw [wp_bind]
  refine wp_post (h.fileclose hE f) fun _ s₁ h₁ ↦ ?_
  rw [wp_bind]
  exact wp_post (h₁.fileclose hE g) fun _ _ h₂ ↦ h₂

/-- A file in use that has no inode. -/
def FsState.Plain (s : FsState) (f : Fin NFILE) : Prop :=
  (s.ftable f).ref ≠ 0 ∧ (s.ftable f).type.hasInode = false

theorem FsState.Plain.putFile {f g : Fin NFILE} {file : File} (h : s.Plain f ∨ g = f)
    (href : file.ref ≠ 0) (htype : file.type.hasInode = false) : (s.putFile g file).Plain f := by
  change (Function.update s.ftable g file f).ref ≠ 0 ∧
    (Function.update s.ftable g file f).type.hasInode = false
  by_cases hfg : f = g
  · rw [hfg, Function.update_self]
    exact ⟨href, htype⟩
  · rw [Function.update_of_ne hfg]
    exact h.resolve_right (Ne.symm hfg)

/-- A new file. -/
theorem MinorCall.filealloc {T : Option (Fin NFILE) → FsState → Prop} (h : MinorCall s s')
    (hnone : T none s')
    (hsome : ∀ f, MinorCall s (s'.putFile f { s'.ftable f with ref := 1 }) →
      (s'.ftable f).type = .none → T (some f) (s'.putFile f { s'.ftable f with ref := 1 })) :
    wp Fs.filealloc T E s' := by
  refine wp_filealloc hnone fun f hf ↦ ?_
  have htype := h.1.files.unused f hf
  have hinode : (s'.ftable f).type.hasInode = false := by
    rw [htype]
    rfl
  exact hsome f (h.putFile f _ (fun hzero ↦ absurd hzero Nat.one_ne_zero) hinode hinode) htype

/-- `pipealloc`. -/
theorem pipealloc_spec (hE : Allows E) (h : Base s 0 ∅) (page : Option ℕ) :
    wp (pipealloc page) (fun _ s' ↦ MinorCall s s') E s := by
  rw [pipealloc, wp_bind]
  refine (MinorCall.refl h).filealloc (.refl h) fun f0 h₁ htype₀ ↦ ?_
  set s₁ := s.putFile f0 { s.ftable f0 with ref := 1 } with hs₁
  have hplain₀ : s₁.Plain f0 := .putFile (.inr rfl) Nat.one_ne_zero (by rw [htype₀]; rfl)
  dsimp only
  rw [wp_bind]
  refine h₁.filealloc ?_ fun f1 h₂ htype₁ ↦ ?_
  · dsimp only
    rw [wp_bind]
    exact h₁.fileclose hE f0
  · set s₂ := s₁.putFile f1 { s₁.ftable f1 with ref := 1 } with hs₂
    have hinode₁ : (s₁.ftable f1).type.hasInode = false := by
      rw [htype₁]
      rfl
    have hplain₁ : s₂.Plain f1 := .putFile (.inr rfl) Nat.one_ne_zero hinode₁
    replace hplain₀ : s₂.Plain f0 := .putFile (.inl hplain₀) Nat.one_ne_zero hinode₁
    dsimp only
    rw [wp_bind]
    cases page with
    | none => exact h₂.fileclose₂ hE f0 f1 _
    | some pi =>
      rw [kalloc, wp_bind, wp_get]
      split
      · exact hE _ (by simp)
      · have h₃ := h₂.pipes (Function.update s₂.pages pi true)
          (Function.update s₂.pipe pi { readopen := true, writeopen := true })
        have h₄ := h₃.putFile f0 { s₂.ftable f0 with
          type := .pipe, readable := true, writable := false, pipe := pi }
          (fun hzero ↦ absurd hzero hplain₀.1) rfl hplain₀.2
        have hplain₄ : (s₂.putFile f0 { s₂.ftable f0 with
            type := .pipe, readable := true, writable := false, pipe := pi }).Plain f1 :=
          .putFile (.inl hplain₁) hplain₀.1 rfl
        exact h₄.putFile f1 _ (fun hzero ↦ absurd hzero hplain₄.1) rfl hplain₄.2

/-- `sys_pipe`. -/
theorem sysPipe_spec (hE : Allows E) (h : Base s 0 ∅) (p : Fin NPROC) (page : Option ℕ)
    (copied : Bool) : wp (sysPipe p page copied) (fun _ s' ↦ MinorCall s s') E s := by
  rw [sysPipe, wp_bind]
  refine wp_post (pipealloc_spec hE h page) ?_
  rintro (_ | ⟨rf, wf⟩) s₁ h₁
  · exact h₁
  · dsimp only
    rw [wp_bind]
    refine wp_fdalloc p rf (h₁.fileclose₂ hE rf wf _) fun fd0 ↦ ?_
    set s₂ := s₁.putProc p { s₁.proc p with
      ofile := Function.update (s₁.proc p).ofile fd0 (some rf) }
    have h₂ : MinorCall s s₂ := h₁.putOfile p _
    dsimp only
    rw [wp_bind]
    refine wp_fdalloc p wf ?_ fun fd1 ↦ ?_
    · dsimp only
      rw [wp_bind, wp_setOfile]
      exact (h₂.putOfile p _).fileclose₂ hE rf wf _
    · have h₃ := h₂.putOfile p (Function.update (s₂.proc p).ofile fd1 (some wf))
      dsimp only
      split
      · exact h₃
      · rw [wp_bind, wp_setOfile, wp_bind, wp_setOfile]
        exact ((h₃.putOfile p _).putOfile p _).fileclose₂ hE rf wf _

/-! ## Runs -/

/-- The code of every call. -/
theorem code_spec (hE : Allows E) (h : Base s 0 ∅) (hsound : Sound E s) (action : Action) :
    wp action.code (fun _ s' ↦ Call s s') E s := by
  cases action with
  | «open» p path omode =>
    rw [Action.code, wp_bind]
    exact sysOpen_spec hE h hsound p path omode
  | mkdir p path =>
    rw [Action.code, wp_bind]
    exact sysCreate_spec hE h hsound p path (.inl rfl) 0 0
  | mknod p path major minor =>
    rw [Action.code, wp_bind]
    exact sysCreate_spec hE h hsound p path (.inr rfl) major minor
  | link p old new =>
    rw [Action.code, wp_bind]
    exact sysLink_spec hE h hsound p old new
  | unlink p path =>
    rw [Action.code, wp_bind]
    exact sysUnlink_spec hE h hsound p path
  | chdir p path =>
    rw [Action.code, wp_bind]
    exact wp_post (sysChdir_spec hE h hsound p path) fun _ _ ↦ MinorCall.call
  | read p fd mem addr n device =>
    rw [Action.code, wp_bind]
    exact wp_post (sysRead_spec hE h p fd mem addr n device) fun _ _ hr ↦ hr.1.call
  | write p fd mem addr n device =>
    rw [Action.code, wp_bind]
    exact wp_post (sysWrite_spec hE h p fd mem addr n device) fun _ _ ↦ MinorCall.call
  | fstat p fd => exact wp_post (sysFstat_spec hE h p fd) fun _ _ ↦ MinorCall.call
  | dup p fd =>
    rw [Action.code, wp_bind]
    exact wp_post (sysDup_spec hE h p fd) fun _ _ ↦ MinorCall.call
  | close p fd =>
    rw [Action.code, wp_bind]
    exact wp_post (sysClose_spec hE h p fd) fun _ _ ↦ MinorCall.call
  | pipe p page copied =>
    rw [Action.code, wp_bind]
    exact wp_post (sysPipe_spec hE h p page copied) fun _ _ ↦ MinorCall.call
  | exec p path mem =>
    rw [Action.code, wp_bind]
    exact wp_post (exec_spec hE h hsound p path mem) fun _ _ ↦ MinorCall.call
  | pathFault p => exact (((MinorCall.refl h).log _ _).log _ _).call
  | fork p np => exact wp_post (fork_spec hE h p np) fun _ _ ↦ MinorCall.call
  | exit p => exact wp_post (exit_spec hE h p) fun _ _ ↦ MinorCall.call

/-- What a call does, if it returns. -/
theorem step_call (h : Base s 0 ∅) {action : Action} (hstep : step s action = .ok s') :
    Call s s' := by
  have hcall := wp_of_ok (code_spec (E := fun _ ↦ True) (fun _ _ ↦ trivial) h (.inl trivial) action)
    (step_ok hstep).2
  exact hcall

/-- Why a call stops. -/
theorem step_error (hE : Allows E) (h : Base s 0 ∅) (hsound : Sound E s) {action : Action}
    {stop : Stop} (hstep : step s action = .error stop) : E stop := by
  obtain rfl | ⟨-, hcode⟩ := step_stopped hstep
  · exact hE _ (by simp)
  · exact wp_of_error (code_spec hE h hsound action) hcode

/-- A well-formed image: blocks are owned, files have no holes, directories hold i-numbers, and
there is a root directory. -/
structure WellFormed (sb : Superblock) (disk : Device) : Prop where
  layout : sb.WellFormed
  image : Image sb disk (boot sb disk).inodes
  root : ((boot sb disk).node ROOTINO).type = T_DIR

/-- The first process is the only user of the root directory. -/
theorem uses_boot (sb : Superblock) (disk : Device) (k : Fin NINODE) :
    (boot sb disk).uses k = if k.val = 0 then 1 else 0 := by
  have hfiles : (Finset.univ.filter fun f ↦ ((boot sb disk).ftable f).type.hasInode = true ∧
      ((boot sb disk).ftable f).ip = k) = ∅ := by
    refine Finset.filter_eq_empty_iff.mpr fun f _ hf ↦ ?_
    cases hf.1
  have hprocs : (Finset.univ.filter fun p ↦ ((boot sb disk).proc p).cwd = some k) =
      if k.val = 0 then {initproc} else ∅ := by
    ext p
    have hcwd : ((boot sb disk).proc p).cwd =
      if p = initproc then some ⟨0, by decide⟩ else none := rfl
    rw [Finset.mem_filter, hcwd]
    by_cases hp : p = initproc <;> by_cases hk : k.val = 0 <;>
      simp [hp, hk, Fin.ext_iff, eq_comm]
  rw [FsState.uses, hfiles, Finset.card_empty, Nat.zero_add, hprocs]
  split
  · rfl
  · rfl

/-- The invariant holds after booting. -/
theorem WellFormed.base {sb : Superblock} {disk : Device} (h : WellFormed sb disk) :
    Base (boot sb disk) 0 ∅ := by
  have hzero : ∀ k : Fin NINODE, k.val ≠ 0 → (boot sb disk).itable k =
      { dev := 0, inum := 0, ref := 0, locked := false, valid := false, copy := Dinode.zero } :=
    fun _ hk ↦ if_neg hk
  have hroot : ∀ k : Fin NINODE, k.val = 0 → (boot sb disk).itable k =
      { dev := ROOTDEV, inum := ROOTINO, ref := 1, locked := false, valid := false,
        copy := Dinode.zero } := fun _ hk ↦ if_pos hk
  have href : ∀ k, 0 < ((boot sb disk).itable k).ref → k.val = 0 := by
    intro k hk
    by_contra hne
    rw [hzero k hne] at hk
    exact Nat.lt_irrefl 0 hk
  refine ⟨h.layout, h.image, ⟨fun k l hk hl _ ↦ ?_, fun k ↦ ?_⟩, ⟨fun f _ ↦ rfl, fun f hf ↦ ?_⟩, rfl⟩
  · exact Fin.ext ((href k hk).trans (href l hl).symm)
  · rw [uses_boot, Multiset.count_zero]
    by_cases hk : k.val = 0
    · rw [hroot k hk, if_pos hk]
      refine ⟨rfl, fun _ ↦ rfl, fun _ ↦ ⟨by decide, h.layout.root⟩, by simp, by simp, by simp,
        fun _ ↦ ⟨?_, .inr rfl⟩⟩
      have htype := h.root
      rw [node_type] at htype
      rw [htype]
      decide
    · rw [hzero k hk, if_neg hk]
      exact ⟨rfl, by simp, by simp, by simp, by simp, by simp, by simp⟩
  · cases hf

/-- The invariant holds after every run. -/
theorem WellFormed.run {sb : Superblock} {disk : Device} (h : WellFormed sb disk)
    {actions : List Action} (hrun : Lib.run step (boot sb disk) actions = .ok s) : Base s 0 ∅ :=
  run_induction step (P := fun _ s ↦ Base s 0 ∅) h.base
    (fun _ _ _ _ _ hbase hstep ↦ (step_call hbase hstep).1) hrun

end Xv6.Fs
