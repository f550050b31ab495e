import Xv6.Fs.Files

/-!
# Making Files and Directories

What `create` does: it makes a new inode, the entries `"."` and `".."` of a new directory, and the
entry in the parent directory.
-/

namespace Xv6.Fs

open Lib

variable {s s' : FsState} {E : Stop → Prop} {held : Multiset (Fin NINODE)}
  {locks : Finset (Fin NINODE)} {dp ip : Fin NINODE}

/-- Another link count. -/
def Node.setNlink (n : Node) (nlink : Int16) : Node := n.setAttrs n.major n.minor nlink

theorem Frame.inum_of_mem (h : Frame s s' held) (hip : ip ∈ held) : s'.inum ip = s.inum ip :=
  h.inum ip (by have := Multiset.count_pos.mpr hip; omega)

/-- Two entries of the table that the call holds have different inodes. -/
theorem Base.inum_ne (h : Base s held locks) (hdp : 0 < (s.itable dp).ref)
    (hip : 0 < (s.itable ip).ref) (hne : ip ≠ dp) : s.inum ip ≠ s.inum dp :=
  fun heq ↦ hne (h.table.unique ip dp hip hdp heq)

/-- Changing the link count of the locked inode and storing it, before the code `x`. -/
theorem nlink_spec {α : Type} {x : FsM α} {R : α → FsState → Prop} (h : Base s held locks)
    (hop : 0 < s.outstanding) (hip : ip ∈ locks) {f : Dinode → Dinode} {nlink : Int16}
    (hf : f (s.itable ip).copy = { (s.itable ip).copy with nlink := nlink })
    (hx : ∀ s', Base s' held locks →
      Sets s s' held (s.inum ip) ((s.node (s.inum ip)).setNlink nlink) → wp x R E s') :
    wp (do
      modifyCopy ip f
      iupdate ip
      x) R E s := by
  refine update_spec h hop hip (s.itable ip).copy.major (s.itable ip).copy.minor nlink hf
    fun s' h' hsets ↦ hx s' h' ?_
  rw [Node.setNlink, show (s.node (s.inum ip)).major = (s.itable ip).copy.major by
    rw [h.locked_node hip], show (s.node (s.inum ip)).minor = (s.itable ip).copy.minor by
    rw [h.locked_node hip]]
  exact hsets

/-- The first part of `create`. -/
theorem createInode_spec (hE : Allows E) (h : Base s held locks) (hop : 0 < s.outstanding)
    (hdp : dp ∈ locks) {type : Int16} (htype : type ≠ 0) (major minor : Int16) :
    wp (createInode dp type major minor) (fun ip s' ↦ ip ∉ locks ∧
      Base s' (ip ::ₘ held) (insert ip locks) ∧ s.sb.IsInum (s'.inum ip) ∧
      (s.node (s'.inum ip)).type = 0 ∧
      Sets s s' held (s'.inum ip) ((Node.fresh type).setAttrs major minor 1)) E s := by
  rw [createInode, wp_bind, wp_inode, h.dev_eq hdp, wp_bind]
  refine wp_post (ialloc_spec h hop htype (hE _ (by simp)) (hE _ (by simp))) ?_
  rintro ip s₁ ⟨h₁, hinum, hfree, hsets₁⟩
  have hmem : ip ∈ ip ::ₘ held := Multiset.mem_cons_self ip held
  have hself : s₁.node (s₁.inum ip) = .fresh type := by rw [hsets₁.node, Function.update_self]
  rw [wp_bind]
  refine wp_post (ilock_spec h₁ (h₁.refs_of_mem hmem) (fun _ ↦ hE _ (by simp))
    (.inr (allocated_iff_type.mpr ?_))) ?_
  · rw [← node_type, hself]
    exact htype
  · rintro _ s₂ ⟨hnot, h₂, hkeeps₂⟩
    have hinum₂ : s₂.inum ip = s₁.inum ip := hkeeps₂.inum_of_mem hmem
    refine update_spec h₂ (by rw [hkeeps₂.outstanding, hsets₁.outstanding]; exact hop)
      (Finset.mem_insert_self ip locks) major minor 1 rfl fun s₃ h₃ hsets₃ ↦ ?_
    have hinum₃ : s₃.inum ip = s₁.inum ip := (hsets₃.inum_of_mem hmem).trans hinum₂
    rw [wp_pure, hinum₃]
    refine ⟨hnot, h₃, hinum, hfree, ?_, ?_⟩
    · exact (hsets₁.toFrame.trans (hkeeps₂.toFrame.mono (Multiset.le_cons_self _ _))).trans
        (hsets₃.toFrame.mono (Multiset.le_cons_self _ _))
    · rw [hsets₃.node, hinum₂, hkeeps₂.node, hself, hsets₁.node, Function.update_idem]

/-- The place for the first entry of an empty directory. -/
theorem slot_of_empty {n : Node} (hsize : n.size = 0) {k : ℕ} (hk : n.Slot k) : k = 0 := by
  rcases hk with heq | ⟨hlt, -⟩
  · simp only [DIRENT] at heq
    omega
  · omega

/-- The place for the second entry. -/
theorem slot_of_dot {n : Node} (hsize : n.size = 0) {name : List UInt8} {inum k : ℕ}
    (hinum : inum ≠ 0) (hrange : (Dirent.make name inum).InRange)
    (hk : (n.setDirent 0 (.make name inum)).Slot k) : k = 1 := by
  have hsize' : (n.setDirent 0 (.make name inum)).size = DIRENT := by
    rw [Node.size_setDirent, hsize]
    rfl
  rcases hk with heq | ⟨hlt, hzero⟩
  · rw [hsize'] at heq
    simp only [DIRENT] at heq
    omega
  · rw [hsize'] at hlt
    obtain rfl : k = 0 := by
      simp only [DIRENT] at hlt
      omega
    rw [Node.dirent_setDirent_self _ _ hrange] at hzero
    exact absurd hzero hinum

/-- The entries `"."` and `".."`. -/
def Node.setDots (n : Node) (self parent : ℕ) : Node :=
  (n.setDirent 0 (.make dot self)).setDirent 1 (.make dotdot parent)

/-- The part of `create` for directories. -/
theorem createDots_spec (hE : Allows E) (h : Base s held locks) (hop : 0 < s.outstanding)
    (hdp : dp ∈ locks) (hip : ip ∈ locks) (hdp' : dp ∈ held) (hip' : ip ∈ held) (hne : ip ≠ dp)
    (hsize : (s.node (s.inum ip)).size = 0) :
    wp (createDots dp ip) (fun _ s' ↦ Base s' held locks ∧ Frame s s' held ∧
      s'.node = Function.update (Function.update s.node (s.inum dp)
        ((s.node (s.inum dp)).setNlink ((s.node (s.inum dp)).nlink + 1))) (s.inum ip)
        ((s.node (s.inum ip)).setDots (s.inum ip) (s.inum dp))) E s := by
  have hinum := h.isInum (h.refs_of_lock hip)
  have hdinum := h.isInum (h.refs_of_lock hdp)
  have hdiff := h.inum_ne (h.refs_of_lock hdp) (h.refs_of_lock hip) hne
  rw [createDots]
  refine nlink_spec h hop hdp rfl fun s₁ h₁ hsets₁ ↦ ?_
  rw [show (s.itable dp).copy.nlink = (s.node (s.inum dp)).nlink from h.copy_nlink hdp] at hsets₁
  have hip₁ : s₁.inum ip = s.inum ip := hsets₁.inum_of_mem hip'
  have hnode₁ : s₁.node (s.inum ip) = s.node (s.inum ip) := by
    rw [hsets₁.node, Function.update_of_ne hdiff]
  rw [wp_bind, wp_inode, wp_bind]
  change wp (dirlink ip dot (s₁.inum ip)) _ E s₁
  rw [hip₁]
  refine wp_post (dirlink_spec h₁ hip hE (by rw [hsets₁.outstanding]; exact hop) dot
    (by rw [hsets₁.sb]; exact hinum)) ?_
  rintro r s₂ ⟨-, h₂, hr⟩
  rw [hip₁, hnode₁] at hr
  cases r with
  | false => exact hE _ (by simp)
  | true =>
    obtain ⟨k, hk, -, hsets₂⟩ := hr
    obtain rfl := slot_of_empty hsize hk
    have hframe₂ := hsets₁.toFrame.trans hsets₂.toFrame
    have hip₂ : s₂.inum ip = s.inum ip := hframe₂.inum_of_mem hip'
    have hnode₂ : s₂.node (s.inum ip) =
        (s.node (s.inum ip)).setDirent 0 (.make dot (s.inum ip)) := by
      rw [hsets₂.node, Function.update_self]
    rw [if_pos rfl, wp_bind, wp_inode, wp_bind]
    change wp (dirlink ip dotdot (s₂.inum dp)) _ E s₂
    rw [hframe₂.inum_of_mem hdp']
    refine wp_post (dirlink_spec h₂ hip hE (by rw [hframe₂.outstanding]; exact hop) dotdot
      (by rw [hframe₂.sb]; exact hdinum)) ?_
    rintro r s₃ ⟨-, h₃, hr⟩
    rw [hip₂, hnode₂] at hr
    cases r with
    | false => exact hE _ (by simp)
    | true =>
      obtain ⟨k, hk, -, hsets₃⟩ := hr
      obtain rfl := slot_of_dot hsize hinum.1.ne' (make_inRange h.sb hinum dot) hk
      refine ⟨h₃, hframe₂.trans hsets₃.toFrame, ?_⟩
      rw [hsets₃.node, hsets₂.node, hsets₁.node, Function.update_idem, Node.setDots]

/-- The new file or directory `i` in directory `d`. -/
def Node.new (type major minor : Int16) (i d : ℕ) : Node :=
  if type = T_DIR then ((Node.fresh type).setAttrs major minor 1).setDots i d
  else (Node.fresh type).setAttrs major minor 1

/-- The directory in which a file or directory is made, before its entry is. -/
def Node.parent (n : Node) (type : Int16) : Node :=
  if type = T_DIR then n.setNlink (n.nlink + 1) else n

/-- A new file or directory `i` gets the entry `k` of directory `d`. -/
structure Created (s : FsState) (node : ℕ → Node) (d i k : ℕ) (name : List UInt8)
    (type major minor : Int16) : Prop where
  dir : (s.node d).type = T_DIR
  inum : s.sb.IsInum i
  free : (s.node i).type = 0
  slot : (s.node d).Slot k
  fresh : ∀ j, ¬ (s.node d).Finds name j
  node : node = Function.update (Function.update s.node i (.new type major minor i d)) d
    (((s.node d).parent type).setDirent k (.make name i))

/-- No link count is the largest of the 16-bit numbers, so that one more link does not make it
zero. -/
def FsState.NoWrap (s : FsState) : Prop := ∀ i, (s.node i).nlink ≠ -1

theorem nlink_succ_ne_zero {x : Int16} (h : x ≠ -1) : x + 1 ≠ 0 := by
  intro heq
  have hx := Int16.add_sub_cancel x 1
  rw [heq] at hx
  exact h hx.symm

theorem Node.new_nlink (type major minor : Int16) (i d : ℕ) :
    (Node.new type major minor i d).nlink = 1 := by
  unfold Node.new
  split <;> rfl

theorem Node.new_type (type major minor : Int16) (i d : ℕ) :
    (Node.new type major minor i d).type = type := by
  unfold Node.new
  split <;> rfl

theorem Node.parent_slot (n : Node) (type : Int16) (k : ℕ) : (n.parent type).Slot k ↔ n.Slot k := by
  unfold Node.parent
  split <;> rfl

/-- The link count of a parent is zero only if it was before. -/
theorem Node.parent_nlink {n : Node} {type : Int16} (hn : n.nlink ≠ -1)
    (hzero : (n.parent type).nlink = 0) : n.nlink = 0 := by
  unfold Node.parent at hzero
  split at hzero
  · exact absurd hzero (nlink_succ_ne_zero hn)
  · exact hzero

theorem Created.ne {node : ℕ → Node} {d i k : ℕ} {name : List UInt8} {type major minor : Int16}
    (h : Created s node d i k name type major minor) : i ≠ d := by
  rintro rfl
  have hdir := h.dir
  rw [h.free] at hdir
  exact absurd hdir (by decide)

theorem Created.congr {t : FsState} {node : ℕ → Node} {d i k : ℕ} {name : List UInt8}
    {type major minor : Int16} (h : Created t node d i k name type major minor)
    (hnode : t.node = s.node) (hsb : t.sb = s.sb) : Created s node d i k name type major minor := by
  obtain ⟨hdir, hinum, hfree, hslot, hfresh, hnode'⟩ := h
  rw [hnode] at hdir hfree hslot hfresh hnode'
  exact ⟨hdir, by rwa [hsb] at hinum, hfree, hslot, hfresh, hnode'⟩

/-- Files that were linked stay linked. -/
theorem FsState.Calm.more (h : s.Calm) (huse : ∀ j, s.InUse j → s'.InUse j)
    (hnlink : ∀ j, (s'.node j).nlink = 0 → (s.node j).nlink = 0 ∧
      ((s'.node j).type ≠ 0 → (s.node j).type ≠ 0)) : s'.Calm where
  root hroot := h.root (hnlink _ hroot).1
  used j hj hzero := huse j (h.used j ((hnlink j hzero).2 hj) (hnlink j hzero).1)

/-- Making a file leaves nothing to be freed. -/
theorem Created.calm {d i k : ℕ} {name : List UInt8} {type major minor : Int16}
    (h : Created s s'.node d i k name type major minor) (hframe : Frame s s' held) (hcalm : s.Calm)
    (hwrap : s.NoWrap) : s'.Calm := by
  have hnlink : ∀ j, (s'.node j).nlink = 0 → (s.node j).nlink = 0 ∧
      ((s'.node j).type ≠ 0 → (s.node j).type ≠ 0) := by
    intro j hj
    rw [h.node] at hj ⊢
    by_cases hjd : j = d
    · subst hjd
      rw [Function.update_self] at hj
      refine ⟨Node.parent_nlink (hwrap j) hj, fun _ ↦ ?_⟩
      rw [h.dir]
      decide
    · rw [Function.update_of_ne hjd] at hj ⊢
      by_cases hji : j = i
      · subst hji
        rw [Function.update_self, Node.new_nlink] at hj
        exact absurd hj (by decide)
      · rw [Function.update_of_ne hji] at hj ⊢
        exact ⟨hj, id⟩
  exact hcalm.more (fun j ↦ (hframe.inUse_iff j).mpr) hnlink

/-- The part of `create` that makes a new file, when the parent is locked. -/
theorem createNew_spec (hE : Allows E) (h : Base s (dp ::ₘ 0) {dp}) (hop : 0 < s.outstanding)
    (hdir : (s.node (s.inum dp)).type = T_DIR) {name : List UInt8}
    (hfresh : ∀ j, ¬ (s.node (s.inum dp)).Finds name j) {type : Int16} (htype : type ≠ 0)
    (major minor : Int16) :
    wp (do
      let ip ← createInode dp type major minor
      if type = T_DIR then createDots dp ip else pure ()
      let linked ← dirlink dp name (← inode ip).inum
      if linked then
        iunlockput dp
        return some ip
      else panic .createDirlink) (fun r s' ↦ ∃ ip, r = some ip ∧ Base s' (ip ::ₘ 0) {ip} ∧
        Frame s s' 0 ∧ (s'.node (s'.inum ip)).type = type ∧ (s.Calm → s.NoWrap →
          ∃ k, Created s s'.node (s.inum dp) (s'.inum ip) k name type major minor)) E s := by
  have hmem : dp ∈ ({dp} : Finset (Fin NINODE)) := by simp
  rw [wp_bind]
  refine wp_post (createInode_spec hE h hop hmem htype major minor) ?_
  rintro ip s₁ ⟨hnot, h₁, hinum, hfree, hsets₁⟩
  have hne : ip ≠ dp := fun heq ↦ hnot (by simp [heq])
  have hip' : ip ∈ ip ::ₘ dp ::ₘ 0 := by simp
  have hdp' : dp ∈ ip ::ₘ dp ::ₘ 0 := by simp
  have hlip : ip ∈ insert ip ({dp} : Finset (Fin NINODE)) := by simp
  have hldp : dp ∈ insert ip ({dp} : Finset (Fin NINODE)) := by simp
  have hd₁ : s₁.inum dp = s.inum dp := hsets₁.inum_of_mem (by simp)
  set i := s₁.inum ip with hi
  have hdiff : i ≠ s.inum dp := by
    intro heq
    rw [heq, hdir] at hfree
    exact absurd hfree (by decide)
  -- The inode and its entries are made, and the entry in the parent is missing.
  have hrest : ∀ s₂ : FsState, Base s₂ (ip ::ₘ dp ::ₘ 0) (insert ip {dp}) →
      Frame s s₂ (dp ::ₘ 0) → s₂.inum ip = i →
      s₂.node = Function.update (Function.update s.node i (.new type major minor i (s.inum dp)))
        (s.inum dp) ((s.node (s.inum dp)).parent type) →
      wp (do
        let linked ← dirlink dp name (← inode ip).inum
        if linked then
          iunlockput dp
          return some ip
        else panic .createDirlink) (fun r s' ↦ ∃ ip, r = some ip ∧ Base s' (ip ::ₘ 0) {ip} ∧
          Frame s s' 0 ∧ (s'.node (s'.inum ip)).type = type ∧ (s.Calm → s.NoWrap →
            ∃ k, Created s s'.node (s.inum dp) (s'.inum ip) k name type major minor)) E s₂ := by
    intro s₂ h₂ hframe₂ hi₂ hnode₂
    have hd₂ : s₂.inum dp = s.inum dp := hframe₂.inum_of_mem (by simp)
    rw [wp_bind, wp_inode, wp_bind]
    change wp (dirlink dp name (s₂.inum ip)) _ E s₂
    rw [hi₂]
    refine wp_post (dirlink_spec h₂ hldp hE (by rw [hframe₂.outstanding]; exact hop) name
      (by rw [hframe₂.sb]; exact hinum)) ?_
    rintro r s₃ ⟨-, h₃, hr⟩
    cases r with
    | false => exact hE _ (by simp)
    | true =>
      obtain ⟨k, hk, -, hsets₃⟩ := hr
      have hself : s₂.node (s.inum dp) = (s.node (s.inum dp)).parent type := by
        rw [hnode₂, Function.update_self]
      rw [hd₂, hself] at hk hsets₃
      have hframe₃ : Frame s s₃ (dp ::ₘ 0) :=
        hframe₂.trans (hsets₃.toFrame.mono (Multiset.le_cons_self _ _))
      have hd₃ : s₃.inum dp = s.inum dp := hframe₃.inum_of_mem (by simp)
      have hi₃ : s₃.inum ip = i := (hsets₃.inum_of_mem hip').trans hi₂
      have hcreated : Created s s₃.node (s.inum dp) i k name type major minor := by
        refine ⟨hdir, hinum, hfree, (Node.parent_slot _ _ _).mp hk, hfresh, ?_⟩
        rw [hsets₃.node, hnode₂, Function.update_idem]
      rw [if_pos rfl, wp_bind]
      rw [Multiset.cons_swap] at h₃
      refine wp_post (iunlockput_spec h₃ hldp (by rw [hframe₃.outstanding]; exact hop)) ?_
      rintro _ s₄ ⟨h₄, hputs⟩
      have herase : (insert ip ({dp} : Finset (Fin NINODE))).erase dp = {ip} := by
        rw [Finset.erase_insert_of_ne hne, Finset.erase_singleton]
        rfl
      rw [herase] at h₄
      have hi₄ : s₄.inum ip = i := (hputs.inum_of_mem (by simp)).trans hi₃
      refine ⟨ip, rfl, h₄, (hframe₃.mono (Multiset.zero_le _)).trans
        (hputs.toFrame.mono (Multiset.zero_le _)), ?_, fun hcalm hwrap ↦ ⟨k, ?_⟩⟩
      · have hi : (s₃.node i).type = type := by
          rw [hcreated.node, Function.update_of_ne hdiff, Function.update_self, Node.new_type]
        rw [hi₄]
        by_cases hlast : s₃.Last (ip ::ₘ 0) dp
        · rw [hputs.freed hlast, hd₃, Function.update_of_ne hdiff, hi]
        · rw [hputs.kept hlast, hi]
      · have hquiet := Quiet.ofPuts h₃ hputs
        rw [hi₄, hquiet.node (hcreated.calm hframe₃ hcalm hwrap)]
        exact hcreated
  change wp (if type = T_DIR then _ else _) _ E s₁
  split
  · rename_i htdir
    rw [wp_bind]
    refine wp_post (createDots_spec hE h₁ (by rw [hsets₁.outstanding]; exact hop) hldp hlip hdp' hip'
      hne ?_) ?_
    · rw [hsets₁.node, Function.update_self]
      rfl
    · rintro _ s₂ ⟨h₂, hframe₂, hnode₂⟩
      refine hrest s₂ h₂ (hsets₁.toFrame.trans (hframe₂.mono (Multiset.le_cons_self _ _)))
        (hframe₂.inum_of_mem hip') ?_
      rw [hnode₂, hsets₁.node, hd₁, ← hi, Function.update_self, Function.update_of_ne hdiff.symm,
        Node.new, Node.parent, if_pos htdir, if_pos htdir, Function.update_comm hdiff.symm,
        Function.update_idem]
  · rename_i htdir
    refine hrest s₁ h₁ hsets₁.toFrame hi.symm ?_
    rw [hsets₁.node, Node.new, Node.parent, if_neg htdir, if_neg htdir]
    exact (Function.update_eq_self_iff.mpr (Function.update_of_ne hdiff.symm _ _).symm).symm

/-- Entries of a directory name inodes that can be locked. -/
theorem Found.lockable {name : List UInt8} {off j : ℕ}
    (h : Found s s' held locks dp name ip off j) (hready : Ready E s)
    (hdir : (s.node (s.inum dp)).type = T_DIR) : Lockable E s' ip := by
  refine hready.imp id fun ⟨_, hclosed⟩ ↦ ?_
  rw [h.keeps.node, h.inum]
  exact hclosed.entry _ hdir j h.finds.1

/-- What `create` returns: nothing, an existing file, or a new one. -/
def CreateResult (s : FsState) (type major minor : Int16) (r : Option (Fin NINODE))
    (s' : FsState) : Prop :=
  match r with
  | none => Base s' 0 ∅ ∧ Quiet s s' 0
  | some ip => Base s' (ip ::ₘ 0) {ip} ∧ Frame s s' 0 ∧
      ((type = T_FILE ∧ (s'.node (s'.inum ip)).type ≠ T_DIR ∧ Quiet s s' 0) ∨
        ((s'.node (s'.inum ip)).type = type ∧ (s.Calm → s.NoWrap →
          ∃ d k name, Created s s'.node d (s'.inum ip) k name type major minor)))

/-- `create`. -/
theorem create_spec (hE : Allows E) (h : Base s 0 ∅) (hop : 0 < s.outstanding) (hready : Ready E s)
    (p : Fin NPROC) (path : List UInt8) {type : Int16} (htype : type ≠ 0) (major minor : Int16) :
    wp (create p path type major minor) (CreateResult s type major minor) E s := by
  rw [create, wp_bind]
  refine wp_post (namex_spec hE p path true h hop hready) ?_
  rintro (_ | ⟨dp, name⟩) s₁ ⟨hq₁, hr⟩
  · exact ⟨hr, hq₁⟩
  · obtain ⟨h₁, hlock⟩ := hr
    have hop₁ : 0 < s₁.outstanding := by rw [hq₁.outstanding]; exact hop
    have hmem : dp ∈ ({dp} : Finset (Fin NINODE)) := by simp
    dsimp only
    rw [wp_bind]
    refine wp_post (ilock_spec h₁ (h₁.refs_of_mem (by simp)) (fun _ ↦ hE _ (by simp))
      hlock.allocated) ?_
    rintro _ s₂ ⟨-, h₂, hkeeps₂⟩
    rw [insert_empty_eq] at h₂
    have hq₂ : Quiet s s₂ 0 := hq₁.trans (.ofKeeps (hkeeps₂.mono (Multiset.zero_le _)))
    have hop₂ : 0 < s₂.outstanding := by rw [hq₂.outstanding]; exact hop
    rw [wp_bind]
    refine wp_post (dirlookup_spec h₂ hmem hE name) ?_
    rintro (_ | ⟨ip, off⟩) s₃ ⟨hdir, hr⟩
    · obtain ⟨rfl, hfresh⟩ := hr
      refine wp_post (createNew_spec hE h₂ hop₂ hdir hfresh htype major minor) ?_
      rintro _ s' ⟨ip, rfl, h', hframe, hip, hnew⟩
      refine ⟨h', hq₂.toFrame.trans hframe, .inr ⟨hip, fun hcalm hwrap ↦ ?_⟩⟩
      have hnode := hq₂.node hcalm
      obtain ⟨k, hcreated⟩ := hnew (hq₂.calm hnode hcalm) fun j ↦ by rw [hnode]; exact hwrap j
      exact ⟨s₃.inum dp, k, name, hcreated.congr hnode hq₂.sb⟩
    · obtain ⟨j, hfound⟩ := hr
      have h₃ := hfound.base
      rw [Multiset.cons_swap] at h₃
      have hlock₃ := hfound.lockable (hready.quiet hq₂) hdir
      have hq₃ : Quiet s s₃ 0 := hq₂.trans (.ofKeeps (hfound.keeps.mono (Multiset.zero_le _)))
      dsimp only
      rw [wp_bind]
      refine wp_post (iunlockput_quiet h₃ hmem (by rw [hq₃.outstanding]; exact hop)) ?_
      rintro _ s₄ ⟨h₄, hq₄⟩
      rw [Finset.erase_singleton] at h₄
      have hq₄' : Quiet s s₄ 0 := hq₃.trans (hq₄.mono (Multiset.zero_le _))
      rw [wp_bind]
      refine wp_post (ilock_spec h₄ (h₄.refs_of_mem (by simp)) (fun _ ↦ hE _ (by simp))
        (hlock₃.quiet (hready.quiet hq₃) hq₄ (by simp)).allocated) ?_
      rintro _ s₅ ⟨-, h₅, hkeeps₅⟩
      rw [insert_empty_eq] at h₅
      have hq₅ : Quiet s s₅ 0 := hq₄'.trans (.ofKeeps (hkeeps₅.mono (Multiset.zero_le _)))
      have hmem' : ip ∈ ({ip} : Finset (Fin NINODE)) := by simp
      rw [wp_bind, wp_inode, h₅.copy_type hmem']
      split
      · rename_i hok
        refine ⟨h₅, hq₅.toFrame, .inl ⟨hok.1, ?_, hq₅⟩⟩
        rcases hok.2 with heq | heq <;> rw [heq] <;> decide
      · rw [wp_bind]
        refine wp_post (iunlockput_quiet h₅ hmem' (by rw [hq₅.outstanding]; exact hop)) ?_
        rintro _ s₆ ⟨h₆, hq₆⟩
        rw [Finset.erase_singleton] at h₆
        exact ⟨h₆, hq₅.trans hq₆⟩

end Xv6.Fs
