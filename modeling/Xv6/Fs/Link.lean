import Xv6.Fs.Effect

/-!
# Adding and Removing Links

`sys_link` and `sys_unlink`.
-/

namespace Xv6.Fs

open Lib

variable {s s' : FsState} {E : Stop → Prop} {held : Multiset (Fin NINODE)}
  {locks : Finset (Fin NINODE)} {ip dp : Fin NINODE}

/-! ## Adding a link -/

/-- The file system with one more link counted for inode `i`. -/
def FsState.moreLinks (s : FsState) (i : ℕ) : ℕ → Node :=
  Function.update s.node i ((s.node i).setNlink ((s.node i).nlink + 1))

theorem moreLinks_eq (s : FsState) (i j : ℕ) :
    ∃ nlink, s.moreLinks i j = (s.node j).setNlink nlink := by
  by_cases hj : j = i
  · exact ⟨_, by rw [hj, FsState.moreLinks, Function.update_self]⟩
  · exact ⟨(s.node j).nlink, by rw [FsState.moreLinks, Function.update_of_ne hj]; rfl⟩

theorem moreLinks_type (s : FsState) (i j : ℕ) : (s.moreLinks i j).type = (s.node j).type := by
  obtain ⟨nlink, heq⟩ := moreLinks_eq s i j
  rw [heq]
  rfl

theorem moreLinks_nlink (hwrap : s.NoWrap) {i j : ℕ} (h : (s.moreLinks i j).nlink = 0) :
    (s.node j).nlink = 0 := by
  by_cases hj : j = i
  · rw [hj, FsState.moreLinks, Function.update_self] at h
    exact absurd h (nlink_succ_ne_zero (hwrap i))
  · rwa [FsState.moreLinks, Function.update_of_ne hj] at h

/-- Taking the link back. -/
theorem setNlink_moreLinks (s : FsState) (i : ℕ) :
    Function.update (s.moreLinks i) i ((s.moreLinks i i).setNlink ((s.moreLinks i i).nlink - 1)) =
      s.node := by
  rw [FsState.moreLinks, Function.update_self, Function.update_idem]
  have hback : (((s.node i).setNlink ((s.node i).nlink + 1)).setNlink
      (((s.node i).setNlink ((s.node i).nlink + 1)).nlink - 1)) = s.node i := by
    change (s.node i).setNlink ((s.node i).nlink + 1 - 1) = s.node i
    rw [Int16.add_sub_cancel]
    rfl
  rw [hback, Function.update_eq_self]

/-- One more link keeps what walking a path needs. -/
theorem Sound.ready_moreLinks (h : Sound E s) {i : ℕ} (hframe : Frame s s' held)
    (hnode : s.Calm → s'.node = s.moreLinks i) : Ready E s' := by
  refine h.imp id fun ⟨hcalm, hwrap, hclosed⟩ ↦ ?_
  have hnode' := hnode hcalm
  refine ⟨hcalm.more (fun j ↦ (hframe.inUse_iff j).mpr) fun j hj ↦ ?_, ?_, fun d hd k hk ↦ ?_⟩
  · rw [hnode'] at hj ⊢
    rw [moreLinks_type]
    exact ⟨moreLinks_nlink hwrap hj, id⟩
  · rw [hnode', moreLinks_type]
    exact hclosed.root
  · obtain ⟨nlink, heq⟩ := moreLinks_eq s i d
    rw [hnode', heq] at hd hk
    rw [hnode', heq, moreLinks_type]
    exact hclosed.entry d hd k hk

/-- The end of `sys_link` when the new link cannot be made, for a file whose link was counted after
the state `s`. -/
theorem linkBad_spec {t : FsState} (hE : Allows E) (h : Base t (ip ::ₘ 0) ∅) (hop : 0 < t.outstanding)
    (hlock : Lockable E t ip) (hframe : Frame s t 0)
    (hnode : s.Calm → s.NoWrap → t.node = s.moreLinks (t.inum ip)) :
    wp (linkBad ip) (fun _ s' ↦ Call s s') E t := by
  have hmem : ip ∈ ip ::ₘ (0 : Multiset (Fin NINODE)) := by simp
  rw [linkBad, wp_bind]
  refine wp_post (ilock_spec h (h.refs_of_mem hmem) (fun _ ↦ hE _ (by simp)) hlock.allocated) ?_
  rintro _ s₁ ⟨-, h₁, hkeeps₁⟩
  rw [insert_empty_eq] at h₁
  have hop₁ : 0 < s₁.outstanding := by rwa [hkeeps₁.outstanding]
  have hinum₁ : s₁.inum ip = t.inum ip := hkeeps₁.inum_of_mem hmem
  refine nlink_spec h₁ hop₁ (by simp) rfl fun s₂ h₂ hsets₂ ↦ ?_
  rw [h₁.copy_nlink (by simp), hinum₁] at hsets₂
  rw [wp_bind]
  refine wp_post (iunlockput_quiet h₂ (by simp) (by rwa [hsets₂.outstanding])) ?_
  rintro _ s₃ ⟨h₃, hq₃⟩
  rw [Finset.erase_singleton] at h₃
  have hframe₂ : Frame s s₂ 0 := hframe.trans
    ((hkeeps₁.toFrame.trans hsets₂.toFrame).mono (Multiset.zero_le _))
  refine ⟨h₃.log _ _, fun hcalm hwrap ↦ .minor ?_⟩
  have hnode₂ : s₂.node = s.node := by
    rw [hsets₂.node, hkeeps₁.node, hnode hcalm hwrap, setNlink_moreLinks]
  have hcalm₂ := hframe₂.calm hnode₂ hcalm
  exact .same hcalm ((hq₃.node hcalm₂).trans hnode₂) fun j hj ↦
    (hq₃.inUse_iff j).mpr ((hframe₂.inUse_iff j).mpr hj)

/-- A new link leaves nothing to be freed. -/
theorem Linked.calm {d i k : ℕ} {name : List UInt8} (h : Linked s s'.node d i k name)
    (hframe : Frame s s' held) (hcalm : s.Calm) (hwrap : s.NoWrap) : s'.Calm := by
  refine hcalm.more (fun j ↦ (hframe.inUse_iff j).mpr) fun j hj ↦ ?_
  rw [h.node] at hj ⊢
  by_cases hjd : j = d
  · subst hjd
    rw [Function.update_self] at hj
    refine ⟨hj, fun _ ↦ ?_⟩
    rw [h.dir]
    decide
  · rw [Function.update_of_ne hjd] at hj ⊢
    exact ⟨moreLinks_nlink hwrap hj, fun htype ↦ by rwa [← moreLinks_type s i j]⟩

/-- The end of `sys_link` after the entry is made or not. -/
theorem link_end {t : FsState} (hE : Allows E) (h : Base t (ip ::ₘ 0) ∅) (hop : 0 < t.outstanding)
    (hlock : Lockable E t ip) (hframe : Frame s t 0) {linked : Bool}
    (hbad : linked = false → s.Calm → s.NoWrap → t.node = s.moreLinks (t.inum ip))
    (hgood : linked = true → s.Calm → s.NoWrap → ∃ d k name, Linked s t.node d (t.inum ip) k name) :
    wp (if linked then do
        iput ip
        endOp
        return 0
      else linkBad ip) (fun _ s' ↦ Call s s') E t := by
  cases linked with
  | false => exact linkBad_spec hE h hop hlock hframe (hbad rfl)
  | true =>
    rw [if_pos rfl, wp_bind]
    refine wp_post (iput_spec h (by simp) hop) ?_
    rintro _ s₁ ⟨h₁, hputs⟩
    refine ⟨h₁.log _ _, fun hcalm hwrap ↦ ?_⟩
    obtain ⟨d, k, name, hlinked⟩ := hgood rfl hcalm hwrap
    have hq := Quiet.ofPuts h hputs
    have hcalm₁ := hlinked.calm hframe hcalm hwrap
    have hnode := hq.node hcalm₁
    refine .link d (t.inum ip) k name ?_ ((hq.calm hnode hcalm₁).congr rfl fun _ hi ↦ hi)
    exact hnode ▸ hlinked

/-- The part of `sys_link` that makes the new entry. -/
theorem link_entry {t : FsState} (hE : Allows E) (h : Base t (ip ::ₘ 0) ∅) (hop : 0 < t.outstanding)
    (hready : Ready E t) (hlock : Lockable E t ip) (hframe : Frame s t 0)
    (htype : (t.node (t.inum ip)).type ≠ 0 ∧ (t.node (t.inum ip)).type ≠ T_DIR)
    (hnode : s.Calm → s.NoWrap → t.node = s.moreLinks (t.inum ip) ∧ t.Calm) (p : Fin NPROC)
    (new : List UInt8) :
    wp (do
      match ← nameiparent p new with
      | none => linkBad ip
      | some (dp, name) =>
        ilock dp
        let d ← inode dp
        let i ← inode ip
        let linked ← if d.dev ≠ i.dev then pure false else dirlink dp name i.inum
        iunlockput dp
        if linked then
          iput ip
          endOp
          return 0
        else linkBad ip) (fun _ s' ↦ Call s s') E t := by
  have hmem : ip ∈ ip ::ₘ (0 : Multiset (Fin NINODE)) := by simp
  rw [wp_bind]
  refine wp_post (namex_spec hE p new true h hop hready) ?_
  rintro (_ | ⟨dp, name⟩) s₁ ⟨hq₁, hr⟩
  · refine linkBad_spec hE hr (by rwa [hq₁.outstanding]) (hlock.quiet hready hq₁ hmem)
      (hframe.trans (hq₁.toFrame.mono (Multiset.zero_le _))) fun hcalm hwrap ↦ ?_
    obtain ⟨hmore, hcalm₁⟩ := hnode hcalm hwrap
    rw [hq₁.node hcalm₁, hmore, hq₁.inum_of_mem hmem]
  · obtain ⟨h₁, hlock₁⟩ := hr
    have hmem₁ : ip ∈ dp ::ₘ ip ::ₘ (0 : Multiset (Fin NINODE)) := by simp
    dsimp only
    rw [wp_bind]
    refine wp_post (ilock_spec h₁ (h₁.refs_of_mem (by simp)) (fun _ ↦ hE _ (by simp))
      hlock₁.allocated) ?_
    rintro _ s₂ ⟨-, h₂, hkeeps₂⟩
    rw [insert_empty_eq] at h₂
    have hldp : dp ∈ ({dp} : Finset (Fin NINODE)) := by simp
    have hdev : (s₂.itable dp).dev = (s₂.itable ip).dev :=
      (h₂.dev_eq hldp).trans ((h₂.table.slot ip).dev (h₂.refs_of_mem hmem₁)).symm
    have hq₂ : Quiet t s₂ (ip ::ₘ 0) :=
      hq₁.trans (.ofKeeps (hkeeps₂.mono (Multiset.le_cons_self _ _)))
    have hop₂ : 0 < s₂.outstanding := by rwa [hq₂.outstanding]
    have hi₂ : s₂.inum ip = t.inum ip := hq₂.inum_of_mem hmem
    rw [wp_bind, wp_inode, wp_bind, wp_inode, hdev]
    rw [if_neg (not_not.mpr rfl), wp_bind]
    refine wp_post (dirlink_spec h₂ hldp hE hop₂ name (h₂.isInum (h₂.refs_of_mem hmem₁))) ?_
    rintro linked s₃ ⟨hdir, h₃, hr⟩
    have hframe₃ : Frame s₂ s₃ (dp ::ₘ ip ::ₘ 0) := by
      cases linked with
      | false => exact hr.2.1
      | true => exact hr.choose_spec.2.2.toFrame
    rw [wp_bind]
    refine wp_post (iunlockput_quiet h₃ hldp (by rwa [hframe₃.outstanding])) ?_
    rintro _ s₄ ⟨h₄, hq₄⟩
    rw [Finset.erase_singleton] at h₄
    have hi₃ : s₃.inum ip = t.inum ip := (hframe₃.inum_of_mem hmem₁).trans hi₂
    have hi₄ : s₄.inum ip = t.inum ip := (hq₄.inum_of_mem hmem).trans hi₃
    have hframe₄ : Frame t s₄ (ip ::ₘ 0) := (hq₂.toFrame.trans (hframe₃.mono
      (Multiset.le_cons_self _ _))).trans hq₄.toFrame
    -- The new entry changes neither types nor link counts.
    have hsame : t.Calm → s₄.node = s₃.node ∧ ∀ j, (s₃.node j).type = (t.node j).type := by
      intro hcalm
      have hnode₂ := hq₂.node hcalm
      have hcalm₂ := hq₂.calm hnode₂ hcalm
      have hattrs : ∀ j, (s₃.node j).nlink = (t.node j).nlink ∧
          (s₃.node j).type = (t.node j).type := by
        intro j
        rw [← hnode₂]
        cases linked with
        | false =>
          rw [hr.2.2]
          exact ⟨rfl, rfl⟩
        | true =>
          obtain ⟨k, -, -, hsets⟩ := hr
          rw [hsets.node]
          by_cases hj : j = s₂.inum dp
          · rw [hj, Function.update_self]
            exact ⟨rfl, rfl⟩
          · rw [Function.update_of_ne hj]
            exact ⟨rfl, rfl⟩
      refine ⟨hq₄.node (hcalm₂.more (fun j ↦ (hframe₃.inUse_iff j).mpr) fun j hj ↦ ?_),
        fun j ↦ (hattrs j).2⟩
      rw [(hattrs j).1, ← hnode₂] at hj
      rw [(hattrs j).2, ← hnode₂]
      exact ⟨hj, id⟩
    refine link_end hE h₄ (by rwa [hframe₄.outstanding]) ?_
      (hframe.trans (hframe₄.mono (Multiset.zero_le _))) ?_ ?_
    · refine hready.imp id fun ⟨hcalm, _⟩ ↦ ?_
      obtain ⟨hnode₄, htypes⟩ := hsame hcalm
      rw [hnode₄, hi₄, htypes]
      exact htype.1
    · rintro rfl hcalm hwrap
      obtain ⟨hmore, hcalmt⟩ := hnode hcalm hwrap
      rw [(hsame hcalmt).1, hr.2.2, hq₂.node hcalmt, hmore,
        hi₄]
    · rintro rfl hcalm hwrap
      obtain ⟨hmore, hcalmt⟩ := hnode hcalm hwrap
      obtain ⟨k, hslot, hfresh, hsets⟩ := hr
      have hnode₂ := hq₂.node hcalmt
      rw [hnode₂] at hdir hslot hfresh
      have hne : s₂.inum dp ≠ t.inum ip := by
        intro heq
        rw [heq] at hdir
        exact htype.2 hdir
      rw [hmore, moreLinks_type] at hdir htype
      have hself : s.moreLinks (t.inum ip) (s₂.inum dp) = s.node (s₂.inum dp) :=
        Function.update_of_ne hne _ _
      rw [hmore, hself] at hslot hfresh
      refine ⟨s₂.inum dp, k, name, hdir, hi₄ ▸ htype, hslot, hfresh, ?_⟩
      have hinum : (s₂.itable ip).inum = t.inum ip := hi₂
      rw [(hsame hcalmt).1, hsets.node, hnode₂, hmore, hself, hi₄, hinum]
      rfl

/-- `sys_link`. -/
theorem sysLink_spec (hE : Allows E) (h : Base s 0 ∅) (hsound : Sound E s) (p : Fin NPROC)
    (old new : List UInt8) : wp (sysLink p old new) (fun _ s' ↦ Call s s') E s := by
  rw [sysLink, wp_bind, wp_beginOp, wp_bind]
  set s₀ : FsState := { s with outstanding := s.outstanding + 1 } with hs₀
  have hready₀ : Ready E s₀ := hsound.ready _
  refine wp_post (namei_spec hE p old (h.log _ _) (Nat.succ_pos _) hready₀) ?_
  rintro (_ | ip) s₁ ⟨hq₁, hr⟩
  · exact (((hq₁.minorCall hr).log _ _).begin _).call
  · obtain ⟨h₁, hlock₁⟩ := hr
    have hmem : ip ∈ ip ::ₘ (0 : Multiset (Fin NINODE)) := by simp
    dsimp only
    rw [wp_bind]
    refine wp_post (ilock_spec h₁ (h₁.refs_of_mem hmem) (fun _ ↦ hE _ (by simp))
      hlock₁.allocated) ?_
    rintro _ s₂ ⟨-, h₂, hkeeps₂⟩
    rw [insert_empty_eq] at h₂
    have hlip : ip ∈ ({ip} : Finset (Fin NINODE)) := by simp
    have hq₂ : Quiet s₀ s₂ 0 := hq₁.trans (.ofKeeps (hkeeps₂.mono (Multiset.zero_le _)))
    have hop₂ : 0 < s₂.outstanding := by
      rw [hq₂.outstanding]
      exact Nat.succ_pos _
    rw [wp_bind, wp_inode, h₂.copy_type hlip]
    split
    · exact wp_post (fail_quiet hq₂ h₂ hop₂ _) fun _ _ hr ↦ (hr.begin _).call
    · rename_i hnotDir
      refine nlink_spec h₂ hop₂ hlip rfl fun s₃ h₃ hsets₃ ↦ ?_
      rw [h₂.copy_nlink hlip] at hsets₃
      rw [wp_bind]
      refine wp_post (iunlock_spec h₃ hlip) ?_
      rintro _ s₄ ⟨h₄, hkeeps₄⟩
      rw [Finset.erase_singleton] at h₄
      have hframe : Frame s₂ s₄ (ip ::ₘ 0) := hsets₃.toFrame.trans hkeeps₄.toFrame
      have hframe₄ : Frame s₀ s₄ 0 := hq₂.toFrame.trans (hframe.mono (Multiset.zero_le _))
      have hi₄ : s₄.inum ip = s₂.inum ip := hframe.inum_of_mem hmem
      have hnode₄ : s₀.Calm → s₄.node = s₀.moreLinks (s₄.inum ip) := by
        intro hcalm
        rw [hkeeps₄.node, hsets₃.node, hq₂.node hcalm, hi₄]
        rfl
      have hself : s₄.node (s₄.inum ip) =
          (s₂.node (s₂.inum ip)).setNlink ((s₂.node (s₂.inum ip)).nlink + 1) := by
        rw [hkeeps₄.node, hsets₃.node, hi₄, Function.update_self]
      have htype₂ : (s₂.node (s₂.inum ip)).type ≠ 0 := by
        rw [node_type]
        exact (h₂.allocated (h₂.refs_of_mem hmem) (h₂.valid_of_lock hlip)).2
      have hsound₀ : Sound E s₀ := hsound.imp id fun ⟨hcalm, hwrap, hclosed⟩ ↦
        ⟨hcalm.congr rfl fun _ hi ↦ hi, hwrap, hclosed.root, hclosed.entry⟩
      refine wp_post (link_entry (s := s₀) hE h₄ (by rwa [hframe.outstanding])
        (hsound₀.ready_moreLinks hframe₄ hnode₄) (.inr ?_) hframe₄ ?_ ?_ p new)
        fun _ _ hr ↦ hr.begin _
      · rw [hself]
        exact htype₂
      · rw [hself]
        exact ⟨htype₂, hnotDir⟩
      · intro hcalm hwrap
        refine ⟨hnode₄ hcalm, hcalm.more (fun j ↦ (hframe₄.inUse_iff j).mpr) fun j hj ↦ ?_⟩
        rw [hnode₄ hcalm] at hj ⊢
        rw [moreLinks_type]
        exact ⟨moreLinks_nlink hwrap hj, id⟩

/-! ## Removing a link -/

/-- Giving up the only reference of a call to a locked inode: it is freed, or it is linked or in
use. -/
theorem Puts.settled (h : Base s (ip ::ₘ held) locks) (hip : ip ∈ locks)
    (hputs : Puts s s' held ip) (hcount : held.count ip = 0) :
    (∀ x, x ≠ s.inum ip → s'.node x = s.node x) ∧
      ((s'.node (s.inum ip) = s.node (s.inum ip) ∧
          ((s.node (s.inum ip)).nlink = 0 → s.InUse (s.inum ip))) ∨
        (s'.node (s.inum ip) = .free ∧ (s.node (s.inum ip)).nlink = 0)) := by
  by_cases hlast : s.Last held ip
  · have hfreed := hputs.freed hlast
    exact ⟨fun x hx ↦ by rw [hfreed, Function.update_of_ne hx],
      .inr ⟨by rw [hfreed, Function.update_self], hlast.2.1⟩⟩
  · have hkept := hputs.kept hlast
    refine ⟨fun x _ ↦ by rw [hkept], .inl ⟨by rw [hkept], fun hzero ↦ ?_⟩⟩
    by_contra hnot
    refine hlast ⟨h.valid_of_lock hip, hzero, ?_, hcount⟩
    by_contra huses
    exact hnot ⟨ip, Nat.pos_of_ne_zero huses, rfl⟩

/-- The end of `sys_unlink`, after the entry is removed. -/
theorem unlink_end {t : FsState} {d i j : ℕ} {name : List UInt8}
    (h : Base t (dp ::ₘ ip ::ₘ 0) (insert ip {dp})) (hop : 0 < t.outstanding)
    (hframe : Frame s t 0) (hne : ip ≠ dp) (hd : t.inum dp = d) (hi : t.inum ip = i)
    (hunlinks : s.Calm → Unlinks s d i j name)
    (hnode : s.Calm → t.node = Function.update s.node d ((s.node d).unlinked (s.node i).type j)) :
    wp (do
      iunlockput dp
      modifyCopy ip fun d ↦ { d with nlink := d.nlink - 1 }
      iupdate ip
      iunlockput ip
      endOp
      return (0 : ℤ)) (fun _ s' ↦ Call s s') E t := by
  have hmem : ip ∈ ip ::ₘ (0 : Multiset (Fin NINODE)) := by simp
  have hldp : dp ∈ insert ip ({dp} : Finset (Fin NINODE)) := by simp
  rw [wp_bind]
  refine wp_post (iunlockput_spec h hldp hop) ?_
  rintro _ t₁ ⟨h₁, hputs₁⟩
  have herase : (insert ip ({dp} : Finset (Fin NINODE))).erase dp = {ip} := by
    rw [Finset.erase_insert_of_ne hne, Finset.erase_singleton]
    rfl
  rw [herase] at h₁
  have hlip : ip ∈ ({ip} : Finset (Fin NINODE)) := by simp
  have hi₁ : t₁.inum ip = i := (hputs₁.inum_of_mem hmem).trans hi
  refine nlink_spec h₁ (by rwa [hputs₁.outstanding]) hlip rfl fun t₂ h₂ hsets₂ ↦ ?_
  rw [h₁.copy_nlink hlip, hi₁] at hsets₂
  have hi₂ : t₂.inum ip = i := (hsets₂.inum_of_mem hmem).trans hi₁
  rw [wp_bind]
  refine wp_post (iunlockput_spec h₂ hlip (by rwa [hsets₂.outstanding, hputs₁.outstanding])) ?_
  rintro _ t₃ ⟨h₃, hputs₃⟩
  rw [Finset.erase_singleton] at h₃
  refine ⟨h₃.log _ _, fun hcalm _ ↦ ?_⟩
  have hun := hunlinks hcalm
  set nd := (s.node d).unlinked (s.node i).type j with hnd
  set ni := (s.node i).setNlink ((s.node i).nlink - 1) with hni
  have hdi : d ≠ i := hun.ne.symm
  -- The directory, then the inode, is freed or is linked or in use.
  obtain ⟨hother₁, hself₁⟩ := hputs₁.settled h hldp (by simp [hne.symm])
  obtain ⟨hother₃, hself₃⟩ := hputs₃.settled h₂ hlip (by simp)
  rw [hd] at hother₁ hself₁
  rw [hi₂] at hother₃ hself₃
  have hti : t₁.node i = s.node i := by
    rw [hother₁ i hdi.symm, hnode hcalm, Function.update_of_ne hdi.symm]
  have ht₂i : t₂.node i = ni := by rw [hsets₂.node, Function.update_self, hti]
  have ht₂ : ∀ x, x ≠ i → t₂.node x = t₁.node x := fun x hx ↦ by
    rw [hsets₂.node, Function.update_of_ne hx]
  have htd : t.node d = nd := by rw [hnode hcalm, Function.update_self]
  have ht : ∀ x, x ≠ d → t.node x = s.node x := fun x hx ↦ by
    rw [hnode hcalm, Function.update_of_ne hx]
  rw [htd] at hself₁
  rw [ht₂i] at hself₃
  have hnodei : s.unlinked d i j i = ni := Function.update_self ..
  have hnoded : s.unlinked d i j d = nd := by
    rw [FsState.unlinked, Function.update_of_ne hdi, Function.update_self]
  have hnodex : ∀ x, x ≠ d → x ≠ i → s.unlinked d i j x = s.node x := fun x hd hi ↦ by
    rw [FsState.unlinked, Function.update_of_ne hi, Function.update_of_ne hd]
  have hnode₃x : ∀ x, x ≠ d → x ≠ i → t₃.node x = s.node x := fun x hd hi ↦ by
    rw [hother₃ x hi, ht₂ x hi, hother₁ x hd, ht x hd]
  have hnode₃d : t₃.node d = t₁.node d := by rw [hother₃ d hdi, ht₂ d hdi]
  have hfreed : Freed (s.unlinked d i j) t₃.node := by
    intro x
    by_cases hxd : x = d
    · subst hxd
      rw [hnoded, hnode₃d]
      exact hself₁.imp And.left id
    · by_cases hxi : x = i
      · subst hxi
        rw [hnodei]
        exact hself₃.imp And.left id
      · exact .inl (by rw [hnode₃x x hxd hxi, hnodex x hxd hxi])
  have huse₂ : ∀ x, t₂.InUse x → t₃.InUse x := fun x ↦ (hputs₃.inUse_iff x).mpr
  have huse : ∀ x, t.InUse x → t₃.InUse x := fun x hx ↦
    huse₂ x ((hsets₂.inUse_iff x).mpr ((hputs₁.inUse_iff x).mpr hx))
  refine .unlink d i j name hun hfreed fun hroot ↦ ⟨?_, fun x hx hzero ↦ ?_⟩
  · intro hzero
    rcases hfreed ROOTINO with hsame | ⟨-, hnl⟩
    · exact hroot (by rw [← hsame]; exact hzero)
    · exact hroot hnl
  · change t₃.InUse x
    change (t₃.node x).type ≠ 0 at hx
    change (t₃.node x).nlink = 0 at hzero
    by_cases hxd : x = d
    · subst hxd
      rw [hnode₃d] at hx hzero
      rcases hself₁ with ⟨hsame, hused⟩ | ⟨hfree, -⟩
      · exact huse x (hused (hsame ▸ hzero))
      · exact absurd (by rw [hfree]; rfl) hx
    · by_cases hxi : x = i
      · subst hxi
        rcases hself₃ with ⟨hsame, hused⟩ | ⟨hfree, -⟩
        · exact huse₂ x (hused (hsame ▸ hzero))
        · exact absurd (by rw [hfree]; rfl) hx
      · rw [hnode₃x x hxd hxi] at hx hzero
        exact huse x ((hframe.inUse_iff x).mpr (hcalm.used x hx hzero))

/-- The part of `sys_unlink` after the entry and the inode are checked. -/
theorem unlink_entry {t : FsState} (hE : Allows E) {j : ℕ} {name : List UInt8}
    (h : Base t (dp ::ₘ ip ::ₘ 0) (insert ip {dp})) (hop : 0 < t.outstanding) (hq : Quiet s t 0)
    (hne : ip ≠ dp) (hdir : (t.node (t.inum dp)).type = T_DIR)
    (hfinds : (t.node (t.inum dp)).Finds name j)
    (hinum : t.inum ip = ((t.node (t.inum dp)).dirent j).inum)
    (hdots : namecmp name dot ≠ 0 ∧ namecmp name dotdot ≠ 0)
    (hnlink : 1 ≤ (t.node (t.inum ip)).nlink)
    (hempty : (t.node (t.inum ip)).type = T_DIR → ∀ k, 2 ≤ k →
      ¬ (t.node (t.inum ip)).Entry k) :
    wp (do
      let de : Dirent := { inum := 0, name := List.replicate DIRSIZ 0 }
      let r ← writei dp (kernelSource de.encode) 0 (DIRENT * j) DIRENT
      if r ≠ DIRENT then panic .unlinkWritei
      else
        if (← inode ip).copy.type = T_DIR then
          modifyCopy dp fun d ↦ { d with nlink := d.nlink - 1 }
          iupdate dp
        else pure ()
        iunlockput dp
        modifyCopy ip fun d ↦ { d with nlink := d.nlink - 1 }
        iupdate ip
        iunlockput ip
        endOp
        return (0 : ℤ)) (fun _ s' ↦ Call s s') E t := by
  have hdp : dp ∈ insert ip ({dp} : Finset (Fin NINODE)) := by simp
  have hip : ip ∈ insert ip ({dp} : Finset (Fin NINODE)) := by simp
  have hdmem : dp ∈ dp ::ₘ ip ::ₘ (0 : Multiset (Fin NINODE)) := by simp
  have himem : ip ∈ dp ::ₘ ip ::ₘ (0 : Multiset (Fin NINODE)) := by simp
  have hdi : t.inum ip ≠ t.inum dp := h.inum_ne (h.refs_of_lock hdp) (h.refs_of_lock hip) hne
  have hpos : 0 < t.sb.ninodes := lt_trans Nat.one_pos h.sb.root
  dsimp only
  rw [wp_bind]
  refine wp_post (writei_dirent h hdp hdir hop Dirent.empty_inRange hpos j
    fun _ _ ↦ hE _ (by simp)) ?_
  rintro r t₁ (⟨-, rfl, rfl⟩ | ⟨rfl, h₁, hsets₁⟩)
  · exact hE _ (by simp)
  · have hd₁ : t₁.inum dp = t.inum dp := hsets₁.inum_of_mem hdmem
    have hi₁ : t₁.inum ip = t.inum ip := hsets₁.inum_of_mem himem
    have hop₁ : 0 < t₁.outstanding := by rwa [hsets₁.outstanding]
    have htype : (t₁.node (t.inum ip)).type = (t.node (t.inum ip)).type := by
      rw [hsets₁.node, Function.update_of_ne hdi]
    -- The directory's link count is changed or not.
    have hend : ∀ t₂ : FsState, Base t₂ (dp ::ₘ ip ::ₘ 0) (insert ip {dp}) →
        Frame t t₂ (dp ::ₘ ip ::ₘ 0) →
        t₂.node = Function.update t.node (t.inum dp)
          ((t.node (t.inum dp)).unlinked (t.node (t.inum ip)).type j) →
        wp (do
          iunlockput dp
          modifyCopy ip fun d ↦ { d with nlink := d.nlink - 1 }
          iupdate ip
          iunlockput ip
          endOp
          return (0 : ℤ)) (fun _ s' ↦ Call s s') E t₂ := by
      intro t₂ h₂ hframe₂ hnode₂
      have hun : s.Calm → Unlinks s (t.inum dp) (t.inum ip) j name := by
        intro hcalm
        rw [hq.node hcalm] at hdir hfinds hinum hnlink hempty
        exact ⟨hdir, hfinds, hinum, hdots, hdi, hnlink, hempty⟩
      refine unlink_end h₂ (by rwa [hframe₂.outstanding])
        (hq.toFrame.trans (hframe₂.mono (Multiset.zero_le _))) hne (hframe₂.inum_of_mem hdmem)
        (hframe₂.inum_of_mem himem) hun fun hcalm ↦ ?_
      rw [← hq.node hcalm]
      exact hnode₂
    rw [if_neg (not_not.mpr rfl), wp_bind, wp_inode, h₁.copy_type hip, hi₁, htype]
    change wp (if _ then _ else _) _ E t₁
    split
    · rename_i htdir
      refine nlink_spec h₁ hop₁ hdp rfl fun t₂ h₂ hsets₂ ↦ hend t₂ h₂
        (hsets₁.toFrame.trans hsets₂.toFrame) ?_
      have hself : t₁.node (t.inum dp) = (t.node (t.inum dp)).setDirent j .empty := by
        rw [hsets₁.node, Function.update_self]
      rw [hsets₂.node, h₁.copy_nlink hdp, hd₁, hself, hsets₁.node, Function.update_idem,
        Node.unlinked, if_pos htdir]
      rfl
    · rename_i htdir
      refine hend t₁ h₁ hsets₁.toFrame ?_
      rw [hsets₁.node, Node.unlinked, if_neg htdir]

/-- `sys_unlink`. -/
theorem sysUnlink_spec (hE : Allows E) (h : Base s 0 ∅) (hsound : Sound E s) (p : Fin NPROC)
    (path : List UInt8) : wp (sysUnlink p path) (fun _ s' ↦ Call s s') E s := by
  rw [sysUnlink, wp_bind, wp_beginOp, wp_bind]
  set s₀ : FsState := { s with outstanding := s.outstanding + 1 } with hs₀
  have hready₀ : Ready E s₀ := hsound.ready _
  refine wp_post (namex_spec hE p path true (h.log _ _) (Nat.succ_pos _) hready₀) ?_
  rintro (_ | ⟨dp, name⟩) s₁ ⟨hq₁, hr⟩
  · exact (((hq₁.minorCall hr).log _ _).begin _).call
  · obtain ⟨h₁, hlock₁⟩ := hr
    have hldp : dp ∈ ({dp} : Finset (Fin NINODE)) := by simp
    dsimp only
    rw [wp_bind]
    refine wp_post (ilock_spec h₁ (h₁.refs_of_mem (by simp)) (fun _ ↦ hE _ (by simp))
      hlock₁.allocated) ?_
    rintro _ s₂ ⟨-, h₂, hkeeps₂⟩
    rw [insert_empty_eq] at h₂
    have hq₂ : Quiet s₀ s₂ 0 := hq₁.trans (.ofKeeps (hkeeps₂.mono (Multiset.zero_le _)))
    have hop : ∀ {t : FsState}, Quiet s₀ t 0 → 0 < t.outstanding := by
      intro t hq
      rw [hq.outstanding]
      exact Nat.succ_pos _
    have hbad : ∀ {t : FsState}, Quiet s₀ t 0 → Base t (dp ::ₘ 0) {dp} →
        wp (unlinkBad dp) (fun _ s' ↦ Call s s') E t := fun hq hbase ↦
      wp_post (fail_quiet hq hbase (hop hq) _) fun _ _ hr ↦ (hr.begin _).call
    split
    · exact hbad hq₂ h₂
    · rename_i hdots
      rw [wp_bind]
      refine wp_post (dirlookup_spec h₂ hldp hE name) ?_
      rintro (_ | ⟨ip, off⟩) s₃ ⟨hdir, hr⟩
      · obtain ⟨rfl, -⟩ := hr
        exact hbad hq₂ h₂
      · obtain ⟨j, hfound⟩ := hr
        obtain rfl := hfound.off
        have h₃ := hfound.base
        have hq₃ : Quiet s₀ s₃ 0 := hq₂.trans (.ofKeeps (hfound.keeps.mono (Multiset.zero_le _)))
        dsimp only
        rw [wp_bind]
        refine wp_post (ilock_spec h₃ (h₃.refs_of_mem (by simp)) (fun _ ↦ hE _ (by simp))
          (hfound.lockable (hready₀.quiet hq₂) hdir).allocated) ?_
        rintro _ s₄ ⟨hnot, h₄, hkeeps₄⟩
        have hne : ip ≠ dp := fun heq ↦ hnot (by simp [heq])
        have hq₄ : Quiet s₀ s₄ 0 := hq₃.trans (.ofKeeps (hkeeps₄.mono (Multiset.zero_le _)))
        have hlip : ip ∈ insert ip ({dp} : Finset (Fin NINODE)) := by simp
        have hd₄ : s₄.inum dp = s₂.inum dp :=
          (hkeeps₄.inum_of_mem (by simp)).trans (hfound.keeps.inum_of_mem (by simp))
        have hi₄ : s₄.inum ip = s₃.inum ip := hkeeps₄.inum_of_mem (by simp)
        have hnode₄ : s₄.node = s₂.node := hkeeps₄.node.trans hfound.keeps.node
        rw [wp_bind, wp_inode, h₄.copy_nlink hlip]
        split
        · exact hE _ (by simp)
        · rename_i hnlink
          -- What remains when the inode is not a directory with entries.
          have hrest := unlink_entry (s := s₀) (j := j) hE
            (Multiset.cons_swap ip dp 0 ▸ h₄) (hop hq₄) hq₄ hne
            (by rw [hnode₄, hd₄]; exact hdir) (by rw [hnode₄, hd₄]; exact hfound.finds)
            (by rw [hnode₄, hd₄, hi₄]; exact hfound.inum) (not_or.mp hdots)
            (Int16.not_lt.mp hnlink)
          rw [wp_bind, wp_inode, h₄.copy_type hlip]
          change wp (if _ then _ else _) _ E s₄
          split
          · rename_i htdir
            rw [wp_bind]
            refine wp_post (isdirempty_spec h₄ hlip htdir) ?_
            rintro r _ ⟨rfl, hempty⟩
            rw [wp_bind, wp_pure]
            cases r with
            | true => exact wp_post (hrest fun _ ↦ hempty rfl) fun _ _ hr ↦ hr.begin _
            | false =>
              rw [if_pos (by rfl), wp_bind]
              refine wp_post (iunlockput_quiet h₄ hlip (hop hq₄)) ?_
              rintro _ s₅ ⟨h₅, hq₅⟩
              have herase : (insert ip ({dp} : Finset (Fin NINODE))).erase ip = {dp} :=
                Finset.erase_insert hnot
              rw [herase] at h₅
              exact hbad (hq₄.trans (hq₅.mono (Multiset.zero_le _))) h₅
          · rename_i htdir
            exact wp_post (hrest fun htype ↦ absurd htype htdir) fun _ _ hr ↦ hr.begin _

end Xv6.Fs
