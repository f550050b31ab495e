import Xv6.Fs.Open

/-!
# What a Call Does to the Files

A call makes a file, adds a link, removes a link, or does none of these: then it only frees files
without links and writes files that are no directories.
-/

namespace Xv6.Fs

open Lib

variable {s s' : FsState} {E : Stop → Prop} {held : Multiset (Fin NINODE)}
  {locks : Finset (Fin NINODE)} {ip : Fin NINODE}

/-- The file `i` gets the entry `k` of directory `d`. -/
structure Linked (s : FsState) (node : ℕ → Node) (d i k : ℕ) (name : List UInt8) : Prop where
  dir : (s.node d).type = T_DIR
  file : (s.node i).type ≠ 0 ∧ (s.node i).type ≠ T_DIR
  slot : (s.node d).Slot k
  fresh : ∀ j, ¬ (s.node d).Finds name j
  node : node = Function.update (Function.update s.node i
    ((s.node i).setNlink ((s.node i).nlink + 1))) d ((s.node d).setDirent k (.make name i))

/-- A directory without its entry `j`, which names a file of type `type`. -/
def Node.unlinked (n : Node) (type : Int16) (j : ℕ) : Node :=
  if type = T_DIR then (n.setDirent j .empty).setNlink (n.nlink - 1) else n.setDirent j .empty

/-- The entry `j` of directory `d`, which names `i`, can be removed. -/
structure Unlinks (s : FsState) (d i j : ℕ) (name : List UInt8) : Prop where
  dir : (s.node d).type = T_DIR
  finds : (s.node d).Finds name j
  inum : i = ((s.node d).dirent j).inum
  dots : namecmp name dot ≠ 0 ∧ namecmp name dotdot ≠ 0
  ne : i ≠ d
  nlink : 1 ≤ (s.node i).nlink
  empty : (s.node i).type = T_DIR → ∀ k, 2 ≤ k → ¬ (s.node i).Entry k

/-- The files after entry `j` of directory `d`, which names `i`, is removed. -/
def FsState.unlinked (s : FsState) (d i j : ℕ) : ℕ → Node :=
  Function.update (Function.update s.node d ((s.node d).unlinked (s.node i).type j)) i
    ((s.node i).setNlink ((s.node i).nlink - 1))

/-- Files without links are freed. -/
def Freed (node node' : ℕ → Node) : Prop :=
  ∀ i, node' i = node i ∨ (node' i = .free ∧ (node i).nlink = 0)

/-- The effects of calls. -/
inductive Effect (s s' : FsState) : Prop where
  | minor (h : Minor s s')
  | create (d i k : ℕ) (name : List UInt8) (type major minor : Int16)
      (h : Created s s'.node d i k name type major minor)
      (htype : type = T_FILE ∨ type = T_DIR ∨ type = T_DEVICE) (hcalm : s'.Calm)
  | link (d i k : ℕ) (name : List UInt8) (h : Linked s s'.node d i k name) (hcalm : s'.Calm)
  | unlink (d i j : ℕ) (name : List UInt8) (h : Unlinks s d i j name)
      (hfreed : Freed (s.unlinked d i j) s'.node)
      (hcalm : (s.unlinked d i j ROOTINO).nlink ≠ 0 → s'.Calm)

/-- What a call does. -/
def Call (s s' : FsState) : Prop := Base s' 0 ∅ ∧ (s.Calm → s.NoWrap → Effect s s')

/-- Either the panic of `ilock` is allowed, or every path leads to allocated inodes, also while a
call runs. -/
def Sound (E : Stop → Prop) (s : FsState) : Prop :=
  E (.panic .ilockNoType) ∨ (s.Calm ∧ s.NoWrap ∧ s.Closed)

theorem MinorCall.call (h : MinorCall s s') : Call s s' := ⟨h.1, fun hcalm _ ↦ .minor (h.2 hcalm)⟩

/-- Entering a file system operation. -/
theorem Sound.ready (h : Sound E s) (outstanding : ℕ) :
    Ready E { s with outstanding := outstanding } :=
  h.imp id fun ⟨hcalm, _, hclosed⟩ ↦ ⟨hcalm.congr rfl fun _ hi ↦ hi, ⟨hclosed.root, hclosed.entry⟩⟩

/-- Nothing waits to be freed, and so no file changes. -/
theorem Quiet.minor (h : Quiet s s' held) (hcalm : s.Calm) : Minor s s' :=
  .same hcalm (h.node hcalm) fun j ↦ (h.inUse_iff j).mpr

/-- A call that fails before it changes a file. -/
theorem Quiet.minorCall (h : Quiet s s' held) (hbase : Base s' 0 ∅) : MinorCall s s' :=
  ⟨hbase, h.minor⟩

/-- A call that has changed no file before. -/
theorem MinorCall.quiet {t : FsState} (h : MinorCall t s') (hq : Quiet s t held) : MinorCall s s' :=
  ⟨h.1, fun hcalm ↦ (hq.minor hcalm).trans (h.2 (hq.minor hcalm).calm)⟩

/-- The log is not part of what a call does. -/
theorem MinorCall.begin (outstanding : ℕ)
    (h : MinorCall { s with outstanding := outstanding } s') : MinorCall s s' :=
  ⟨h.1, fun hcalm ↦ by
    obtain ⟨hnode, hcalm'⟩ := h.2 (hcalm.congr rfl fun _ hi ↦ hi)
    exact ⟨hnode, hcalm'⟩⟩

/-- The log is not part of what a call does. -/
theorem Call.begin (outstanding : ℕ) (h : Call { s with outstanding := outstanding } s') :
    Call s s' := by
  refine ⟨h.1, fun hcalm hwrap ↦ ?_⟩
  cases h.2 (hcalm.congr rfl fun _ hi ↦ hi) hwrap with
  | minor h => exact .minor ⟨h.node, h.calm⟩
  | create d i k name type major minor h htype hcalm =>
    exact .create d i k name type major minor (h.congr rfl rfl) htype hcalm
  | link d i k name h hcalm => exact .link d i k name ⟨h.dir, h.file, h.slot, h.fresh, h.node⟩ hcalm
  | unlink d i j name h hfreed hcalm =>
    exact .unlink d i j name ⟨h.dir, h.finds, h.inum, h.dots, h.ne, h.nlink, h.empty⟩ hfreed hcalm

/-! ## Making and opening files -/

/-- Giving up the inode at the end of a call that has changed no file. -/
theorem fail_quiet {t : FsState} {α : Type} (hq : Quiet s t 0) (h : Base t (ip ::ₘ 0) {ip})
    (hop : 0 < t.outstanding) (a : α) :
    wp (do
      iunlockput ip
      endOp
      return a) (fun _ s' ↦ MinorCall s s') E t := by
  rw [wp_bind]
  refine wp_post (iunlockput_quiet h (by simp) hop) ?_
  rintro _ s₁ ⟨h₁, hq₁⟩
  rw [Finset.erase_singleton] at h₁
  exact ((hq.trans hq₁).minorCall h₁).log _ _

/-- `sys_mkdir` and `sys_mknod`. -/
theorem sysCreate_spec (hE : Allows E) (h : Base s 0 ∅) (hsound : Sound E s) (p : Fin NPROC)
    (path : List UInt8) {type : Int16} (htype : type = T_DIR ∨ type = T_DEVICE)
    (major minor : Int16) :
    wp (sysCreate p path type major minor) (fun _ s' ↦ Call s s') E s := by
  have hne : type ≠ 0 ∧ type ≠ T_FILE := by
    rcases htype with rfl | rfl <;> decide
  rw [sysCreate, wp_bind, wp_beginOp, wp_bind]
  refine wp_post (create_spec hE (h.log _ _) (Nat.succ_pos _) (hsound.ready _) p path hne.1 major
    minor) ?_
  rintro (_ | ip) s₁ hr
  · exact (((hr.2.minorCall hr.1).log _ _).begin _).call
  · obtain ⟨h₁, hframe, ⟨hfile, -⟩ | ⟨-, hnew⟩⟩ := hr
    · exact absurd hfile hne.2
    · have hop₁ : 0 < s₁.outstanding := by
        rw [hframe.outstanding]
        exact Nat.succ_pos _
      dsimp only
      rw [wp_bind]
      refine wp_post (iunlockput_quiet h₁ (by simp) hop₁) ?_
      rintro _ s₂ ⟨h₂, hq₂⟩
      rw [Finset.erase_singleton] at h₂
      refine Call.begin (s.outstanding + 1) ⟨h₂.log _ _, fun hcalm hwrap ↦ ?_⟩
      obtain ⟨d, k, name, hcreated⟩ := hnew hcalm hwrap
      have hcalm₁ := hcreated.calm hframe hcalm hwrap
      have hnode := hq₂.node hcalm₁
      refine .create d (s₁.inum ip) k name type major minor ?_ (htype.elim (.inr ∘ .inl)
        (.inr ∘ .inr)) ((hq₂.calm hnode hcalm₁).congr rfl fun _ hi ↦ hi)
      exact hnode ▸ hcreated

/-- Truncating a new file does nothing. -/
theorem Node.new_setContents (major minor : Int16) (i d : ℕ) :
    (Node.new T_FILE major minor i d).setContents 0 (fun _ ↦ 0) =
      Node.new T_FILE major minor i d := by
  rw [Node.new, if_neg (by decide)]
  rfl

/-- Opening a new file. -/
theorem Created.opened {t : FsState} {d i k : ℕ} {name : List UInt8} {major minor : Int16}
    (h : Created s t.node d i k name T_FILE major minor) (hopened : Opened t s' i) :
    s'.node = t.node := by
  rcases hopened.node with hsame | ⟨-, hset⟩
  · exact hsame
  · have hi : t.node i = .new T_FILE major minor i d := by
      rw [h.node, Function.update_of_ne h.ne, Function.update_self]
    rw [hset, hi, Node.new_setContents, ← hi, Function.update_eq_self]

/-- `sys_open`. -/
theorem sysOpen_spec (hE : Allows E) (h : Base s 0 ∅) (hsound : Sound E s) (p : Fin NPROC)
    (path : List UInt8) (omode : ℕ) : wp (sysOpen p path omode) (fun _ s' ↦ Call s s') E s := by
  rw [sysOpen, wp_bind, wp_beginOp]
  split
  · rw [wp_bind]
    refine wp_post (create_spec hE (h.log _ _) (Nat.succ_pos _) (hsound.ready _) p path
      (by decide) 0 0) ?_
    rintro (_ | ip) s₁ hr
    · exact (((hr.2.minorCall hr.1).log _ _).begin _).call
    · obtain ⟨h₁, hframe, hcase⟩ := hr
      have hop₁ : 0 < s₁.outstanding := by
        rw [hframe.outstanding]
        exact Nat.succ_pos _
      have hnotDir : (s₁.node (s₁.inum ip)).type ≠ T_DIR := by
        rcases hcase with ⟨-, hold, -⟩ | ⟨hnew, -⟩
        · exact hold
        · rw [hnew]
          decide
      refine wp_post (openLocked_spec h₁ hop₁ p fun hdir ↦ absurd hdir hnotDir) ?_
      rintro _ s₂ ⟨h₂, hopened⟩
      refine Call.begin (s.outstanding + 1) ⟨h₂, fun hcalm hwrap ↦ ?_⟩
      rcases hcase with ⟨-, -, hq⟩ | ⟨-, hnew⟩
      · have hminor := hq.minor hcalm
        exact .minor (hminor.trans ((hopened hminor.calm).minor hminor.calm))
      · obtain ⟨d, k, name, hcreated⟩ := hnew hcalm hwrap
        have hcalm₁ := hcreated.calm hframe hcalm hwrap
        have hnode := hcreated.opened (hopened hcalm₁)
        refine .create d (s₁.inum ip) k name T_FILE 0 0 ?_ (.inl rfl)
          (hcalm₁.congr hnode (hopened hcalm₁).keeps)
        exact hnode ▸ hcreated
  · rw [wp_bind]
    refine wp_post (namei_spec hE p path (h.log _ _) (Nat.succ_pos _) (hsound.ready _)) ?_
    rintro (_ | ip) s₁ ⟨hq₁, hr⟩
    · exact (((hq₁.minorCall hr).log _ _).begin _).call
    · obtain ⟨h₁, hlock⟩ := hr
      dsimp only
      rw [wp_bind]
      refine wp_post (ilock_spec h₁ (h₁.refs_of_mem (by simp)) (fun _ ↦ hE _ (by simp))
        hlock.allocated) ?_
      rintro _ s₂ ⟨-, h₂, hkeeps₂⟩
      rw [insert_empty_eq] at h₂
      have hq₂ := hq₁.trans (.ofKeeps (hkeeps₂.mono (Multiset.zero_le _)))
      have hop₂ : 0 < s₂.outstanding := by
        rw [hq₂.outstanding]
        exact Nat.succ_pos _
      rw [wp_bind, wp_inode, h₂.copy_type (by simp)]
      split
      · exact wp_post (fail_quiet hq₂ h₂ hop₂ _) fun _ _ hr ↦ (hr.begin _).call
      · rename_i hmode
        have hdir : (s₂.node (s₂.inum ip)).type = T_DIR → omode = O_RDONLY := by
          intro htype
          by_contra hne
          exact hmode ⟨htype, hne⟩
        refine wp_post (openLocked_spec h₂ hop₂ p hdir) ?_
        rintro _ s₃ ⟨h₃, hopened⟩
        have hcall : MinorCall s₂ s₃ := ⟨h₃, fun hcalm ↦ (hopened hcalm).minor hcalm⟩
        exact ((hcall.quiet hq₂).begin _).call

end Xv6.Fs
