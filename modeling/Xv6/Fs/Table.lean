import Xv6.Fs.ReadWrite

/-!
# The Inode Table

What `iget`, `idup`, `ilock`, `iunlock`, `iput`, `ialloc` and `iupdate` do, in terms of the
references and locks of the running call, and of the files as users see them.
-/

namespace Xv6.Fs

open Lib

variable {s s' : FsState} {E : Stop → Prop} {held : Multiset (Fin NINODE)}
  {locks : Finset (Fin NINODE)} {ip : Fin NINODE}

/-! ## What the invariant says about one inode -/

/-- Only numbers of inodes have an allocated inode. -/
theorem isInum_of_type {i : ℕ} (h : (s.inodes i).type ≠ 0) : s.sb.IsInum i := by
  unfold FsState.inodes at h
  split at h
  · assumption
  · exact absurd rfl h

theorem allocated_iff_type {i : ℕ} : Allocated s.sb s.inodes i ↔ (s.inodes i).type ≠ 0 :=
  ⟨fun h ↦ h.2, fun h ↦ ⟨isInum_of_type h, h⟩⟩

theorem node_type (s : FsState) (i : ℕ) : (s.node i).type = (s.inodes i).type := by
  unfold FsState.node Dinode.node
  split
  · rename_i h
    rw [h, Node.free]
  · rfl

namespace Base

variable (h : Base s held locks)

include h

theorem refs_pos (hip : 0 < s.uses ip + held.count ip) : 0 < (s.itable ip).ref := by
  rw [(h.table.slot ip).refs]
  exact hip

theorem refs_of_mem (hip : ip ∈ held) : 0 < (s.itable ip).ref :=
  h.refs_pos (by have := Multiset.count_pos.mpr hip; omega)

theorem refs_of_lock (hip : ip ∈ locks) : 0 < (s.itable ip).ref :=
  ((h.table.slot ip).lockedOk hip).1

theorem valid_of_lock (hip : ip ∈ locks) : (s.itable ip).valid = true :=
  ((h.table.slot ip).lockedOk hip).2

/-- The copy in a valid entry is the inode on the disk. -/
theorem copy_eq (href : 0 < (s.itable ip).ref) (hvalid : (s.itable ip).valid = true) :
    (s.itable ip).copy = s.inodes (s.inum ip) :=
  ((h.table.slot ip).synced href hvalid).1

theorem allocated (href : 0 < (s.itable ip).ref) (hvalid : (s.itable ip).valid = true) :
    Allocated s.sb s.inodes (s.inum ip) := by
  obtain ⟨hcopy, htype⟩ := (h.table.slot ip).synced href hvalid
  exact ⟨(h.table.slot ip).inum href, by rw [← show (s.itable ip).copy = s.inodes (s.inum ip) from hcopy]; exact htype⟩

theorem isInum (href : 0 < (s.itable ip).ref) : s.sb.IsInum (s.inum ip) :=
  (h.table.slot ip).inum href

/-- The file of a valid entry, read from its copy. -/
theorem node_eq (href : 0 < (s.itable ip).ref) (hvalid : (s.itable ip).valid = true) :
    s.node (s.inum ip) = (s.itable ip).copy.node s.disk := by
  rw [FsState.node, h.copy_eq href hvalid]

theorem noHoles (href : 0 < (s.itable ip).ref) (hvalid : (s.itable ip).valid = true) :
    (s.itable ip).copy.NoHoles s.disk := by
  rw [h.copy_eq href hvalid]
  exact h.image.noHoles _ (h.allocated href hvalid)

/-- One entry of the table changes, and the disk may change with it. -/
theorem update {i : Inode} {held' : Multiset (Fin NINODE)} {locks' : Finset (Fin NINODE)}
    (hsb : s'.sb = s.sb) (hftable : s'.ftable = s.ftable) (hproc : s'.proc = s.proc)
    (hbufs : s'.bufs = s.bufs) (hitable : s'.itable = Function.update s.itable ip i)
    (himage : Image s'.sb s'.disk s'.inodes)
    (hslot : SlotOk s.sb s'.inodes i (s.uses ip) (held'.count ip) (ip ∈ locks'))
    (hunique : 0 < i.ref → ∀ l, l ≠ ip → 0 < (s.itable l).ref → s.inum l ≠ i.inum)
    (hothers : ∀ l, l ≠ ip → 0 < (s.itable l).ref → (s.inodes (s.inum l)).type ≠ 0 →
      s'.inodes (s.inum l) = s.inodes (s.inum l))
    (hheld : ∀ l, l ≠ ip → held'.count l = held.count l)
    (hlocks : ∀ l, l ≠ ip → (l ∈ locks' ↔ l ∈ locks))
    (hused : 0 < s.uses ip → i.inum = s.inum ip ∧
      (s'.inodes (s.inum ip)).type = (s.inodes (s.inum ip)).type) :
    Base s' held' locks' := by
  have huses : s'.uses = s.uses := FsState.uses_congr hftable hproc
  constructor
  case sb => rw [hsb]; exact h.sb
  case image => exact himage
  case table =>
    constructor
    · intro k l hk hl heq
      simp only [FsState.inum, hitable] at hk hl heq
      by_cases hkip : k = ip <;> by_cases hlip : l = ip
      · rw [hkip, hlip]
      · subst hkip
        rw [Function.update_self] at hk heq
        rw [Function.update_of_ne hlip] at hl heq
        exact absurd heq.symm (hunique hk l hlip hl)
      · subst hlip
        rw [Function.update_self] at hl heq
        rw [Function.update_of_ne hkip] at hk heq
        exact absurd heq (hunique hl k hkip hk)
      · rw [Function.update_of_ne hkip] at hk heq
        rw [Function.update_of_ne hlip] at hl heq
        exact h.table.unique k l hk hl heq
    · intro k
      rw [hsb, hitable, huses]
      by_cases hk : k = ip
      · subst hk
        rw [Function.update_self]
        exact hslot
      · rw [Function.update_of_ne hk, hheld k hk, hlocks k hk]
        exact (h.table.slot k).congr (hothers k hk)
  case files =>
    refine ⟨by rw [hftable]; exact h.files.unused, ?_⟩
    rw [hftable]
    intro f hf hwritable
    have hdir := h.files.notDir f hf hwritable
    rw [node_type] at hdir ⊢
    have huse : 0 < s.uses (s.ftable f).ip := FsState.uses_pos (by rw [hf]; rfl)
    have hslot := h.table.slot (s.ftable f).ip
    by_cases heq : (s.ftable f).ip = ip
    · obtain ⟨hinum, htype⟩ := hused (heq ▸ huse)
      rw [FsState.inum, hitable, heq, Function.update_self, hinum, htype]
      rwa [heq] at hdir
    · rw [FsState.inum, hitable, Function.update_of_ne heq,
        show (s.itable (s.ftable f).ip).inum = s.inum (s.ftable f).ip from rfl,
        hothers _ heq (h.refs_pos (by omega)) (hslot.used huse).1]
      exact hdir
  case bufs => rw [hbufs, h.bufs]

/-- One entry of the table changes, and nothing else. -/
theorem setSlot {i : Inode} {held' : Multiset (Fin NINODE)} {locks' : Finset (Fin NINODE)}
    (hslot : SlotOk s.sb s.inodes i (s.uses ip) (held'.count ip) (ip ∈ locks'))
    (hunique : 0 < i.ref → ∀ l, l ≠ ip → 0 < (s.itable l).ref → s.inum l ≠ i.inum)
    (hheld : ∀ l, l ≠ ip → held'.count l = held.count l)
    (hlocks : ∀ l, l ≠ ip → (l ∈ locks' ↔ l ∈ locks)) (hinum : 0 < s.uses ip → i.inum = s.inum ip) :
    Base { s with itable := Function.update s.itable ip i } held' locks' :=
  h.update rfl rfl rfl rfl rfl h.image hslot hunique (fun _ _ _ _ ↦ rfl) hheld hlocks
    fun huses ↦ ⟨hinum huses, rfl⟩

end Base

/-- Nothing on the disk changes. -/
structure Keeps (s s' : FsState) (held : Multiset (Fin NINODE)) : Prop extends
    Frame s s' held where
  disk : s'.disk = s.disk

namespace Keeps

theorem inodes (h : Keeps s s' held) : s'.inodes = s.inodes := by
  funext i
  rw [FsState.inodes, FsState.inodes, h.sb, h.disk]

theorem node (h : Keeps s s' held) : s'.node = s.node := by
  funext i
  rw [FsState.node, FsState.node, h.inodes, h.disk]

theorem trans {s'' : FsState} (h : Keeps s s' held) (h' : Keeps s' s'' held) : Keeps s s'' held where
  toFrame := h.toFrame.trans h'.toFrame
  disk := h'.disk.trans h.disk

theorem mono {held' : Multiset (Fin NINODE)} (h : Keeps s s' held') (hle : held ≤ held') :
    Keeps s s' held where
  toFrame := h.toFrame.mono hle
  disk := h.disk

/-- A change of one entry that keeps what it holds. -/
theorem setSlot {i : Inode} (hinum : 0 < s.uses ip + held.count ip → i.inum = s.inum ip)
    (hvalid : 0 < s.uses ip + held.count ip → (s.itable ip).valid = true → i.valid = true) :
    Keeps s { s with itable := Function.update s.itable ip i } held where
  sb := rfl
  ftable := rfl
  proc := rfl
  outstanding := rfl
  inum k hk := by
    by_cases heq : k = ip
    · subst heq
      simpa [FsState.inum] using hinum hk
    · simp [FsState.inum, Function.update_of_ne heq]
  valid k hk hv := by
    by_cases heq : k = ip
    · subst heq
      simpa using hvalid hk hv
    · simpa [Function.update_of_ne heq] using hv
  disk := rfl

end Keeps

/-! ## References and locks -/

/-- The reference to `ip` is the last one, and no directory entry names the inode. -/
def FsState.Last (s : FsState) (held : Multiset (Fin NINODE)) (ip : Fin NINODE) : Prop :=
  (s.itable ip).valid = true ∧ (s.node (s.inum ip)).nlink = 0 ∧ s.uses ip = 0 ∧ held.count ip = 0

/-- `iget` adds a reference to the inode.  An inode with no other reference is not read in yet. -/
theorem iget_spec (h : Base s held locks) {inum : ℕ} (hinum : s.sb.IsInum inum)
    (hE : (∀ k, (s.itable k).ref ≠ 0) → E (.panic .igetNone)) :
    wp (iget ROOTDEV inum) (fun ip s' ↦ Base s' (ip ::ₘ held) locks ∧ Keeps s s' held ∧
      s'.inum ip = inum ∧ ¬ s'.Last held ip) E s := by
  rw [iget, wp_bind, wp_get]
  dsimp only
  cases hfind : (List.finRange NINODE).find? fun ip ↦ decide (0 < (s.itable ip).ref ∧
      (s.itable ip).dev = ROOTDEV ∧ (s.itable ip).inum = inum) with
  | some ip =>
    have hsame := List.find?_some hfind
    simp only [decide_eq_true_eq] at hsame
    obtain ⟨href, hdev, heq⟩ := hsame
    have hslot := h.table.slot ip
    rw [wp_bind, wp_setInode, wp_pure]
    refine ⟨h.setSlot ⟨?_, fun _ ↦ hdev, fun _ ↦ hslot.inum href, hslot.lock, fun hl ↦ ?_,
      fun _ ↦ hslot.synced href, hslot.used⟩ ?_ ?_ (fun _ _ ↦ Iff.rfl) fun _ ↦ rfl,
      Keeps.setSlot (fun _ ↦ rfl) fun _ hv ↦ hv, by simp [FsState.inum, heq], ?_⟩
    · change (s.itable ip).ref + 1 = _
      rw [Multiset.count_cons_self, hslot.refs, Nat.add_assoc]
    · exact ⟨Nat.succ_pos _, (hslot.lockedOk hl).2⟩
    · intro _ l hl href' heq'
      exact hl (h.table.unique l ip href' href heq')
    · intro l hl
      rw [Multiset.count_cons_of_ne hl]
    · rintro ⟨-, -, huses, hheld⟩
      have hrefs := hslot.refs
      rw [show s.uses ip = 0 from huses, hheld] at hrefs
      omega
  | none =>
    have hnone := List.find?_eq_none.mp hfind
    dsimp only
    cases hfree : (List.finRange NINODE).find? fun ip ↦ decide ((s.itable ip).ref = 0) with
    | none => exact hE fun k ↦ by simpa using List.find?_eq_none.mp hfree k (List.mem_finRange k)
    | some ip =>
      have hzero : (s.itable ip).ref = 0 := by simpa using List.find?_some hfree
      have hslot := h.table.slot ip
      have huses : s.uses ip = 0 ∧ held.count ip = 0 := by
        have := hslot.refs
        omega
      rw [wp_bind, wp_setInode, wp_pure]
      refine ⟨h.setSlot ⟨?_, fun _ ↦ rfl, fun _ ↦ hinum, hslot.lock, fun hl ↦ ?_, ?_, ?_⟩
        ?_ ?_ (fun _ _ ↦ Iff.rfl) ?_, Keeps.setSlot ?_ ?_, by simp [FsState.inum],
        fun hlast ↦ by simp [FsState.Last] at hlast⟩
      · rw [Multiset.count_cons_self, huses.1, huses.2]
      · have := (hslot.lockedOk hl).1
        omega
      · simp
      · omega
      · intro _ l _ href heq
        have := hnone l (List.mem_finRange l)
        simp only [decide_eq_true_eq] at this
        exact this ⟨href, (h.table.slot l).dev href, heq⟩
      · intro l hl
        rw [Multiset.count_cons_of_ne hl]
      · omega
      · omega
      · omega

/-- `idup` adds a reference. -/
theorem idup_spec (h : Base s held locks) (href : 0 < (s.itable ip).ref) :
    wp (idup ip) (fun r s' ↦ r = ip ∧ Base s' (ip ::ₘ held) locks ∧ Keeps s s' held ∧
      s'.inum ip = s.inum ip) E s := by
  have hslot := h.table.slot ip
  rw [idup, wp_bind, wp_inode, wp_bind, wp_setInode, wp_pure]
  refine ⟨rfl, h.setSlot ⟨?_, fun _ ↦ hslot.dev href, fun _ ↦ hslot.inum href, hslot.lock,
    fun hl ↦ ⟨Nat.succ_pos _, (hslot.lockedOk hl).2⟩, fun _ ↦ hslot.synced href, hslot.used⟩
    ?_ ?_ (fun _ _ ↦ Iff.rfl) fun _ ↦ rfl, Keeps.setSlot (fun _ ↦ rfl) fun _ hv ↦ hv,
    by simp [FsState.inum]⟩
  · change (s.itable ip).ref + 1 = _
    rw [Multiset.count_cons_self, hslot.refs, Nat.add_assoc]
  · intro _ l hl href' heq
    exact hl (h.table.unique l ip href' href heq)
  · intro l hl
    rw [Multiset.count_cons_of_ne hl]

/-- `ilock` of an inode that the call does not hold locks it and reads it from the disk; it panics
if the inode is not allocated. -/
theorem ilock_spec (h : Base s held locks) (href : 0 < (s.itable ip).ref)
    (hE : ip ∈ locks → E .disabled)
    (htype : E (.panic .ilockNoType) ∨ Allocated s.sb s.inodes (s.inum ip)) :
    wp (ilock ip) (fun _ s' ↦ ip ∉ locks ∧ Base s' held (insert ip locks) ∧ Keeps s s' held) E s := by
  have hslot := h.table.slot ip
  have hrefs : ¬ (s.itable ip).ref < 1 := by omega
  simp only [ilock, wp_bind, wp_inode, if_neg hrefs, acquiresleep]
  cases hlocked : (s.itable ip).locked with
  | true => simpa using hE (hslot.lock.mp hlocked)
  | false =>
    have hnot : ip ∉ locks := by
      rw [← hslot.lock, hlocked]
      simp
    have hunique : ∀ l, l ≠ ip → 0 < (s.itable l).ref → s.inum l ≠ (s.itable ip).inum :=
      fun l hl href' heq ↦ hl (h.table.unique l ip href' href heq)
    have hlocks : ∀ l, l ≠ ip → (l ∈ insert ip locks ↔ l ∈ locks) :=
      fun l hl ↦ by simp [hl]
    simp only [Bool.false_eq_true, if_false, wp_setInode, wp_get, Function.update_self]
    split
    · rename_i hvalid
      exact ⟨hnot, h.setSlot ⟨hslot.refs, hslot.dev, hslot.inum, by simp,
        fun _ ↦ ⟨href, hvalid⟩, hslot.synced, hslot.used⟩ (fun _ ↦ hunique) (fun _ _ ↦ rfl)
        hlocks fun _ ↦ rfl, Keeps.setSlot (fun _ ↦ rfl) fun _ hv ↦ hv⟩
    · have hinum := hslot.inum href
      have hinode : (s.disk (s.sb.iblock (s.itable ip).inum)).dinode ((s.itable ip).inum % IPB) =
          s.inodes (s.itable ip).inum := by
        rw [FsState.inodes, if_pos hinum]
        rfl
      rw [wp_bind, wp_bread (by simp [h.bufs]), wp_bind, wp_brelse rfl]
      simp only [wp_bind, wp_setInode, Function.update_idem, hinode]
      split
      · rename_i hzero
        rcases htype with htype | htype
        · exact htype
        · exact absurd hzero htype.2
      · rename_i hzero
        exact ⟨hnot, h.setSlot ⟨hslot.refs, hslot.dev, hslot.inum, by simp,
          fun _ ↦ ⟨href, rfl⟩, fun _ _ ↦ ⟨rfl, hzero⟩, fun _ ↦ ⟨hzero, .inl rfl⟩⟩ (fun _ ↦ hunique)
          (fun _ _ ↦ rfl) hlocks fun _ ↦ rfl, Keeps.setSlot (fun _ ↦ rfl) fun _ _ ↦ rfl⟩

/-- `iunlock` gives up a lock. -/
theorem iunlock_spec (h : Base s held locks) (hip : ip ∈ locks) :
    wp (iunlock ip) (fun _ s' ↦ Base s' held (locks.erase ip) ∧ Keeps s s' held) E s := by
  have hslot := h.table.slot ip
  obtain ⟨href, hvalid⟩ := hslot.lockedOk hip
  have hlocked : (s.itable ip).locked = true := hslot.lock.mpr hip
  have hheld : ¬ ((s.itable ip).locked = false ∨ (s.itable ip).ref < 1) := by
    simp only [hlocked, Bool.true_eq_false, false_or]
    omega
  simp only [iunlock, wp_bind, wp_inode, if_neg hheld, releasesleep, wp_setInode]
  refine ⟨h.setSlot ⟨hslot.refs, hslot.dev, hslot.inum, by simp, by simp, hslot.synced, hslot.used⟩
    ?_ (fun _ _ ↦ rfl) ?_ fun _ ↦ rfl, Keeps.setSlot (fun _ ↦ rfl) fun _ hv ↦ hv⟩
  · exact fun _ l hl href' heq ↦ hl (h.table.unique l ip href' href heq)
  · exact fun l hl ↦ by simp [hl]

/-! ## Changes to a file -/

/-- The file of inode `i` becomes `n`. -/
structure Sets (s s' : FsState) (held : Multiset (Fin NINODE)) (i : ℕ) (n : Node) : Prop extends
    Frame s s' held where
  node : s'.node = Function.update s.node i n

theorem Frame.put (s : FsState) (held : Multiset (Fin NINODE)) (ip : Fin NINODE) (disk : Device)
    (copy : Dinode) (logged : List ℕ) : Frame s (s.put ip disk copy logged) held where
  sb := rfl
  ftable := rfl
  proc := rfl
  outstanding := rfl
  inum k _ := by
    by_cases heq : k = ip
    · subst heq
      simp [FsState.inum]
    · simp [FsState.inum, FsState.put, Function.update_of_ne heq]
  valid k _ hvalid := by
    by_cases heq : k = ip
    · subst heq
      simpa using hvalid
    · simpa [FsState.put, Function.update_of_ne heq] using hvalid

/-- One on-disk inode changes. -/
theorem inodes_of_dinode {i : ℕ} {d : Dinode} (hsb : s'.sb = s.sb) (hi : s.sb.IsInum i)
    (hdinode : ∀ j, j < s.sb.ninodes → s.sb.dinode s'.disk j =
      if j = i then d else s.sb.dinode s.disk j) :
    s'.inodes = Function.update s.inodes i d := by
  funext j
  by_cases hj : j = i
  · subst hj
    rw [Function.update_self, FsState.inodes, hsb, if_pos hi, hdinode j hi.2, if_pos rfl]
  · rw [Function.update_of_ne hj, FsState.inodes, FsState.inodes, hsb]
    split
    · rename_i hinum
      rw [hdinode j hinum.2, if_neg hj]
    · rfl

theorem node_of_change {i : ℕ} {d : Dinode} (hinodes : s'.inodes = Function.update s.inodes i d)
    (hchange : Change s.sb s.disk s.inodes s'.disk s'.inodes i) :
    s'.node = Function.update s.node i (d.node s'.disk) := by
  funext j
  by_cases hj : j = i
  · subst hj
    rw [Function.update_self, FsState.node, hinodes, Function.update_self]
  · rw [Function.update_of_ne hj, FsState.node, hchange.node hj isInum_of_type, FsState.node]

/-- The locked inode `ip` changes, in the table and on the disk. -/
theorem Base.put (h : Base s held locks) (hip : ip ∈ locks) {disk : Device} {copy : Dinode}
    (logged : List ℕ)
    (hchange : Change s.sb s.disk s.inodes disk (Function.update s.inodes (s.inum ip) copy)
      (s.inum ip))
    (hdinode : ∀ j, j < s.sb.ninodes → s.sb.dinode disk j =
      if j = s.inum ip then copy else s.sb.dinode s.disk j)
    (htype : copy.type = (s.itable ip).copy.type) (hholes : copy.NoHoles disk)
    (hdir : copy.type = T_DIR → (copy.node disk).DirOk s.sb.ninodes) :
    Base (s.put ip disk copy logged) held locks ∧
      Sets s (s.put ip disk copy logged) held (s.inum ip) (copy.node disk) := by
  have hslot := h.table.slot ip
  have href := h.refs_of_lock hip
  have hvalid := h.valid_of_lock hip
  have halloc := h.allocated href hvalid
  have hinodes : (s.put ip disk copy logged).inodes = Function.update s.inodes (s.inum ip) copy :=
    inodes_of_dinode rfl halloc.1 hdinode
  have hself : (s.put ip disk copy logged).inodes (s.inum ip) = copy := by
    rw [hinodes, Function.update_self]
  have hcopy : copy.type ≠ 0 := by
    rw [htype]
    exact (hslot.synced href hvalid).2
  rw [← hinodes] at hchange
  refine ⟨h.update rfl rfl rfl rfl rfl ?_ ⟨hslot.refs, hslot.dev, hslot.inum, hslot.lock,
    hslot.lockedOk, fun _ _ ↦ ⟨hself.symm, hcopy⟩, ?_⟩ ?_ ?_ (fun _ _ ↦ rfl) (fun _ _ ↦ Iff.rfl) ?_,
    Frame.put .., node_of_change hinodes hchange⟩
  · refine hchange.image h.image (fun _ ↦ ?_) fun _ ↦ ?_
    · rw [hself]
      exact hholes
    · rw [hself]
      exact hdir
  · intro huses
    obtain ⟨-, hroot⟩ := hslot.used huses
    exact ⟨by rw [show (s.itable ip).inum = s.inum ip from rfl, hself]; exact hcopy, hroot⟩
  · exact fun _ l hl href' heq ↦ hl (h.table.unique l ip href' href heq)
  · intro l hl href' _
    rw [hinodes, Function.update_of_ne fun heq ↦ hl (h.table.unique l ip href' href heq)]
  · intro _
    rw [hself, htype, h.copy_eq href hvalid]
    exact ⟨rfl, rfl⟩

/-- The file of an allocated inode. -/
theorem node_of_type (disk : Device) {d : Dinode} (htype : d.type ≠ 0) :
    d.node disk = { type := d.type, major := d.major, minor := d.minor, nlink := d.nlink,
                    size := d.size, byte := d.byteAt disk } := by
  rw [Dinode.node, if_neg htype]

/-- The file of a locked inode, read from its copy. -/
theorem Base.locked_node (h : Base s held locks) (hip : ip ∈ locks) :
    s.node (s.inum ip) =
      { type := (s.itable ip).copy.type, major := (s.itable ip).copy.major,
        minor := (s.itable ip).copy.minor, nlink := (s.itable ip).copy.nlink,
        size := (s.itable ip).copy.size, byte := (s.itable ip).copy.byteAt s.disk } :=
  have hvalid := h.valid_of_lock hip
  have href := h.refs_of_lock hip
  (h.node_eq href hvalid).trans
    (node_of_type s.disk ((h.table.slot ip).synced href hvalid).2)

/-- New attributes of an inode. -/
def Dinode.setAttrs (d : Dinode) (major minor nlink : Int16) : Dinode :=
  { d with major := major, minor := minor, nlink := nlink }

/-- New attributes of a file. -/
def Node.setAttrs (n : Node) (major minor nlink : Int16) : Node :=
  { n with major := major, minor := minor, nlink := nlink }

/-- New contents of a file. -/
def Node.setContents (n : Node) (size : ℕ) (byte : ℕ → UInt8) : Node :=
  { n with size := size, byte := byte }

theorem truncated_byteAt (d : Dinode) (disk : Device) (x : ℕ) : d.truncated.byteAt disk x = 0 := by
  have hblock : d.truncated.blockOf disk (x / BSIZE) = 0 := by
    unfold Dinode.blockOf
    split
    · exact truncated_at d disk _
    · rfl
  simp [Dinode.byteAt, Dinode.contents, hblock, Buffer.get, Buffer.fill]

theorem truncated_node (d : Dinode) (disk disk' : Device) (htype : d.type ≠ 0) :
    d.truncated.node disk' = (d.node disk).setContents 0 fun _ ↦ 0 := by
  rw [node_of_type disk htype, node_of_type (d := d.truncated) disk' htype,
    show d.truncated.byteAt disk' = fun _ ↦ 0 from funext (truncated_byteAt d disk')]
  rfl

theorem truncated_noHoles (d : Dinode) (disk : Device) : d.truncated.NoHoles disk :=
  ⟨Nat.zero_le _, fun _ hk ↦ absurd hk (Nat.not_lt_zero _)⟩

section Locked

variable (h : Base s held locks) (hop : 0 < s.outstanding) (hip : ip ∈ locks)

include h hop hip

/-- Changing attributes of the locked inode and storing it, before the code `x`. -/
theorem update_spec {α : Type} {x : FsM α} {R : α → FsState → Prop} {f : Dinode → Dinode}
    (major minor nlink : Int16)
    (hf : f (s.itable ip).copy = (s.itable ip).copy.setAttrs major minor nlink)
    (hx : ∀ s', Base s' held locks →
      Sets s s' held (s.inum ip) ((s.node (s.inum ip)).setAttrs major minor nlink) →
        wp x R E s') :
    wp (do
      modifyCopy ip f
      iupdate ip
      x) R E s := by
  have href := h.refs_of_lock hip
  have hvalid := h.valid_of_lock hip
  have halloc := h.allocated href hvalid
  have hcopy := h.copy_eq href hvalid
  have htype : (s.itable ip).copy.type ≠ 0 := ((h.table.slot ip).synced href hvalid).2
  have hholes := h.noHoles href hvalid
  set copy := (s.itable ip).copy.setAttrs major minor nlink with hcopy'
  have hrange : copy.InRange := by
    refine ⟨lt_of_le_of_lt hholes.size (by decide), fun slot ↦ ?_⟩
    change (s.itable ip).copy.addrs slot < 2 ^ 32
    rw [hcopy]
    exact h.image.owned.addrs_lt h.sb halloc slot
  have hstored := stored_setDinode h.sb s.disk halloc.1.2 hrange
  obtain ⟨hchange, hblockOf, hcontents⟩ := Change.stored h.sb h.image.owned halloc hstored
    (by rw [← hcopy]; rfl) htype
  rw [← hcopy] at hblockOf hcontents
  have hnode : copy.node (s.sb.setDinode s.disk (s.inum ip) copy) =
      (s.node (s.inum ip)).setAttrs major minor nlink := by
    have hbyte : copy.byteAt (s.sb.setDinode s.disk (s.inum ip) copy) =
        (s.itable ip).copy.byteAt s.disk := by
      funext x
      rw [Dinode.byteAt, hcontents, Dinode.byteAt]
    rw [h.node_eq href hvalid, node_of_type _ htype, node_of_type (d := copy) _ htype, hbyte]
    rfl
  rw [wp_bind, wp_modifyCopy, hf, wp_bind]
  refine wp_iupdate (by exact hop) (by exact h.bufs) fun logged ↦ ?_
  have hput := h.put hip logged hchange hstored.dinode rfl
    ⟨hholes.size, fun k hk ↦ by rw [hblockOf]; exact hholes.block k hk⟩ ?_
  · rw [hnode] at hput
    have heq : s.put ip (s.sb.setDinode s.disk (s.inum ip) copy) copy logged = { s with
        itable := Function.update s.itable ip { s.itable ip with copy := copy }
        disk := s.sb.setDinode s.disk (s.inum ip) copy
        logged := logged } := rfl
    rw [heq] at hput
    simpa [FsState.inum] using hx _ hput.1 hput.2
  · intro hdir
    obtain ⟨hsize, hinum⟩ := h.image.dirs _ halloc (by rw [← hcopy]; exact hdir)
    rw [hnode]
    exact ⟨hsize, hinum⟩

/-- `itrunc` of the locked inode. -/
theorem itrunc_locked :
    wp (itrunc ip) (fun _ s' ↦ Base s' held locks ∧
      Sets s s' held (s.inum ip) ((s.node (s.inum ip)).setContents 0 fun _ ↦ 0)) E s := by
  have href := h.refs_of_lock hip
  have hvalid := h.valid_of_lock hip
  have hcopy := h.copy_eq href hvalid
  have htype : (s.itable ip).copy.type ≠ 0 := ((h.table.slot ip).synced href hvalid).2
  refine wp_post (itrunc_spec h.sb hop h.bufs hcopy.symm h.image.owned (h.allocated href hvalid)) ?_
  rintro _ _ ⟨disk, logged, rfl, howned, hagree, hdinode⟩
  have hchange : Change s.sb s.disk s.inodes disk
      (Function.update s.inodes (s.inum ip) (s.itable ip).copy.truncated) (s.inum ip) :=
    .of_agree h.image.owned howned (fun j hj ↦ Function.update_of_ne hj _ _) hagree
  rw [h.node_eq href hvalid, ← truncated_node _ _ disk htype]
  refine h.put hip _ hchange hdinode rfl (truncated_noHoles _ _) fun _ ↦ ?_
  rw [truncated_node _ s.disk disk htype]
  exact ⟨rfl, fun k hk ↦ absurd hk (Nat.not_lt_zero _)⟩

/-- `writei` to the locked inode, in full. -/
theorem writei_locked_exact (mem : Source) (src off : ℕ) {n : ℕ} (hn : n < 2 ^ 32)
    (hE : (s.node (s.inum ip)).size < off + n → s.MayRunOut off n → E (.panic .ballocOut))
    (hdir : (s.node (s.inum ip)).type = T_DIR → ∀ done byte, off ≤ (s.node (s.inum ip)).size →
      Stores mem src off n done (s.node (s.inum ip)).byte byte →
      ((s.node (s.inum ip)).setContents (max (s.node (s.inum ip)).size (off + done)) byte).DirOk
        s.sb.ninodes) :
    wp (writei ip mem src off n) (fun r s' ↦
      (((s.node (s.inum ip)).size < off ∨ MAXFILE * BSIZE < off + n) ∧ r = -1 ∧ s' = s) ∨
      ∃ (done : ℕ) (byte : ℕ → UInt8), r = done ∧ off ≤ (s.node (s.inum ip)).size ∧
        off + n ≤ MAXFILE * BSIZE ∧ Stores mem src off n done (s.node (s.inum ip)).byte byte ∧
        Base s' held locks ∧ Sets s s' held (s.inum ip) ((s.node (s.inum ip)).setContents
          (max (s.node (s.inum ip)).size (off + done)) byte)) E s := by
  have href := h.refs_of_lock hip
  have hvalid := h.valid_of_lock hip
  have hcopy := h.copy_eq href hvalid
  have htype : (s.itable ip).copy.type ≠ 0 := ((h.table.slot ip).synced href hvalid).2
  have hnode := h.locked_node hip
  have hsize : (s.itable ip).copy.size = (s.node (s.inum ip)).size := by rw [hnode]
  refine wp_post (writei_exact mem src off n (by rwa [hsize]) h.sb hop h.bufs hcopy.symm h.image.owned
    (h.allocated href hvalid) (h.noHoles href hvalid) hn) ?_
  rintro r _ (hfail | ⟨done, disk, copy, logged, rfl, rfl, hwritten, hexact⟩)
  · rw [hsize] at hfail
    exact .inl hfail
  · have hsame : copy.type = (s.itable ip).copy.type := by rw [hwritten.fields]
    have hnew : copy.node disk = (s.node (s.inum ip)).setContents
        (max (s.node (s.inum ip)).size (off + done)) (copy.byteAt disk) := by
      rw [node_of_type _ (hsame ▸ htype), hnode]
      conv_lhs => rw [hwritten.fields]
      rfl
    have hstores : Stores mem src off n done (s.node (s.inum ip)).byte (copy.byteAt disk) := by
      rw [hnode]
      exact hexact.toStores
    have hoff : off ≤ (s.node (s.inum ip)).size := by
      rw [hnode]
      exact hwritten.off_le
    refine .inr ⟨done, copy.byteAt disk, rfl, hoff, hwritten.fits, hstores, ?_⟩
    rw [← hnew]
    refine h.put hip _ hwritten.change hwritten.dinode hsame hwritten.noHoles fun htdir ↦ ?_
    rw [hnew]
    exact hdir (by rw [hnode]; exact hsame ▸ htdir) done _ hoff hstores

/-- `writei` to the locked inode. -/
theorem writei_locked (mem : Source) (src off : ℕ) {n : ℕ} (hn : n < 2 ^ 32)
    (hE : (s.node (s.inum ip)).size < off + n → s.MayRunOut off n → E (.panic .ballocOut))
    (hdir : (s.node (s.inum ip)).type = T_DIR → ∀ done byte, off ≤ (s.node (s.inum ip)).size →
      (∀ x, x < off ∨ off + n ≤ x → byte x = (s.node (s.inum ip)).byte x) →
      ((∀ k, k < n → (mem (src + k)).isSome) → done = n ∧
        ∀ k, k < n → some (byte (off + k)) = mem (src + k)) →
      ((s.node (s.inum ip)).setContents (max (s.node (s.inum ip)).size (off + done)) byte).DirOk
        s.sb.ninodes) :
    wp (writei ip mem src off n) (fun r s' ↦
      (((s.node (s.inum ip)).size < off ∨ MAXFILE * BSIZE < off + n) ∧ r = -1 ∧ s' = s) ∨
      ∃ (done : ℕ) (byte : ℕ → UInt8), r = done ∧ off ≤ (s.node (s.inum ip)).size ∧
        (∀ x, x < off ∨ off + n ≤ x → byte x = (s.node (s.inum ip)).byte x) ∧
        ((∀ k, k < n → (mem (src + k)).isSome) → done = n ∧
        ∀ k, k < n → some (byte (off + k)) = mem (src + k)) ∧
        Base s' held locks ∧ Sets s s' held (s.inum ip) ((s.node (s.inum ip)).setContents
          (max (s.node (s.inum ip)).size (off + done)) byte)) E s := by
  have hout : ∀ {done byte}, Stores mem src off n done (s.node (s.inum ip)).byte byte →
      ∀ x, x < off ∨ off + n ≤ x → byte x = (s.node (s.inum ip)).byte x := by
    intro done byte hstores x hx
    have hle := length_unreported_le mem src off hstores.le
    exact hstores.outside x (by omega)
  have hall : ∀ {done byte}, Stores mem src off n done (s.node (s.inum ip)).byte byte →
      (∀ k, k < n → (mem (src + k)).isSome) →
      done = n ∧ ∀ k, k < n → some (byte (off + k)) = mem (src + k) := by
    intro done byte hstores hmem
    have hdone := done_of_mapped hstores.le hstores.short hmem
    exact ⟨hdone, fun k hk ↦ hstores.bytes k (by omega)⟩
  refine wp_post (writei_locked_exact h hop hip mem src off hn hE fun htdir done byte hoff hstores ↦
    hdir htdir done byte hoff (hout hstores) (hall hstores)) ?_
  rintro r s' (hfail | ⟨done, byte, rfl, hoff, -, hstores, hbase, hsets⟩)
  · exact .inl hfail
  · exact .inr ⟨done, byte, rfl, hoff, hout hstores, hall hstores, hbase, hsets⟩

end Locked

/-! ## Giving up references -/

/-- A reference to `ip` is given up; the file is freed if it was the last one. -/
structure Puts (s s' : FsState) (held : Multiset (Fin NINODE)) (ip : Fin NINODE) : Prop extends
    Frame s s' held where
  freed : s.Last held ip → s'.node = Function.update s.node (s.inum ip) .free
  kept : ¬ s.Last held ip → s'.node = s.node

/-- A reference is given up after steps that keep everything. -/
theorem Puts.of_keeps {t : FsState} (h : Puts t s' held ip) (hkeeps : Keeps s t (ip ::ₘ held))
    (hvalid : (s.itable ip).valid = true) : Puts s s' held ip := by
  have hpos : 0 < s.uses ip + (ip ::ₘ held).count ip := by
    rw [Multiset.count_cons_self]
    omega
  have hlast : t.Last held ip ↔ s.Last held ip := by
    rw [FsState.Last, FsState.Last, hkeeps.node, hkeeps.inum ip hpos, hkeeps.uses, hvalid,
      hkeeps.valid ip hpos hvalid]
  refine ⟨(hkeeps.toFrame.mono (Multiset.le_cons_self _ _)).trans h.toFrame, fun hl ↦ ?_, fun hl ↦ ?_⟩
  · rw [h.freed (hlast.mpr hl), hkeeps.node, hkeeps.inum ip hpos]
  · rw [h.kept fun hl' ↦ hl (hlast.mp hl'), hkeeps.node]

section Iput

variable (h : Base s (ip ::ₘ held) locks) (hip : ip ∈ locks → 0 < s.uses ip + held.count ip)

include h hip

/-- The end of `iput`, when the inode is not freed. -/
theorem iput_kept (hlast : ¬ s.Last held ip) :
    wp (do
      let i ← inode ip
      setInode ip { i with ref := i.ref - 1 }) (fun _ s' ↦ Base s' held locks ∧
        Puts s s' held ip) E s := by
  have hslot := h.table.slot ip
  have hrefs := hslot.refs
  rw [Multiset.count_cons_self] at hrefs
  have href : 0 < (s.itable ip).ref := by omega
  rw [wp_bind, wp_inode, wp_setInode]
  have hkeeps : Keeps s
      { s with
        itable := Function.update s.itable ip
          { s.itable ip with ref := (s.itable ip).ref - 1 } } held :=
    .setSlot (fun _ ↦ rfl) fun _ hv ↦ hv
  refine ⟨h.setSlot ⟨?_, fun _ ↦ hslot.dev href, fun _ ↦ hslot.inum href, hslot.lock,
    fun hl ↦ ⟨?_, (hslot.lockedOk hl).2⟩, fun _ ↦ hslot.synced href, hslot.used⟩ ?_ ?_
    (fun _ _ ↦ Iff.rfl) fun _ ↦ rfl, hkeeps.toFrame, fun hl ↦ absurd hl hlast, fun _ ↦ hkeeps.node⟩
  · change (s.itable ip).ref - 1 = _
    omega
  · have := hip hl
    change 0 < (s.itable ip).ref - 1
    omega
  · exact fun _ l hl href' heq ↦ hl (h.table.unique l ip href' href heq)
  · intro l hl
    rw [Multiset.count_cons_of_ne hl]

/-- The state after `iput` freed the inode. -/
theorem iput_freed (hlast : s.Last held ip) {disk : Device} (logged : List ℕ) {copy : Dinode}
    (htype : copy.type = 0)
    (hchange : Change s.sb s.disk s.inodes disk (Function.update s.inodes (s.inum ip) copy)
      (s.inum ip))
    (hdinode : ∀ j, j < s.sb.ninodes → s.sb.dinode disk j =
      if j = s.inum ip then copy else s.sb.dinode s.disk j) :
    let s' := { s with
      disk := disk
      itable := Function.update s.itable ip
        { s.itable ip with ref := 0, locked := false, valid := false, copy := copy }
      logged := logged }
    Base s' held locks ∧ Puts s s' held ip := by
  intro s'
  obtain ⟨-, -, huses, hcount⟩ := id hlast
  have hip : ip ∉ locks := fun hl ↦ by
    have := hip hl
    omega
  have href := h.refs_of_mem (Multiset.mem_cons_self ip held)
  have hinodes : s'.inodes = Function.update s.inodes (s.inum ip) copy :=
    inodes_of_dinode rfl (h.isInum href) hdinode
  have hzero : (s'.inodes (s.inum ip)).type = 0 := by rw [hinodes, Function.update_self, htype]
  rw [← hinodes] at hchange
  refine ⟨h.update rfl rfl rfl rfl rfl ?_ ⟨?_, ?_, ?_, ?_, ?_, ?_, ?_⟩ ?_ ?_ ?_ (fun _ _ ↦ Iff.rfl) ?_,
    ⟨rfl, rfl, rfl, rfl, ?_, ?_⟩, fun _ ↦ ?_, fun hnot ↦ absurd hlast hnot⟩
  · exact hchange.image h.image (fun halloc ↦ absurd hzero halloc.2)
      fun halloc ↦ absurd hzero halloc.2
  · rw [huses, hcount]
  · simp
  · simp
  · simp [hip]
  · exact fun hl ↦ absurd hl hip
  · simp
  · omega
  · simp
  · intro l hl href' _
    rw [hinodes, Function.update_of_ne fun heq ↦ hl (h.table.unique l ip href' href heq)]
  · intro l hl
    rw [Multiset.count_cons_of_ne hl]
  · omega
  · intro k hk
    have hne : k ≠ ip := by
      rintro rfl
      omega
    simp [s', FsState.inum, Function.update_of_ne hne]
  · intro k hk hvalid
    have hne : k ≠ ip := by
      rintro rfl
      omega
    simpa [s', Function.update_of_ne hne] using hvalid
  · rw [node_of_change hinodes hchange, Dinode.node, if_pos htype]

/-- `iput` gives up a reference and does not panic. -/
theorem iput_spec (hop : 0 < s.outstanding) :
    wp (iput ip) (fun _ s' ↦ Base s' held locks ∧ Puts s s' held ip) E s := by
  have hslot := h.table.slot ip
  have hrefs := hslot.refs
  rw [Multiset.count_cons_self] at hrefs
  have href : 0 < (s.itable ip).ref := by omega
  rw [iput, wp_bind, wp_inode]
  split
  · rename_i hfree
    obtain ⟨hone, hvalid, hnlink⟩ := hfree
    have hunlocked : (s.itable ip).locked = false := by
      rw [← Bool.not_eq_true, hslot.lock]
      intro hl
      have := hip hl
      omega
    have hcopy := h.copy_eq href hvalid
    have htype : (s.itable ip).copy.type ≠ 0 := (hslot.synced href hvalid).2
    have hlast : s.Last held ip := by
      refine ⟨hvalid, ?_, by omega, by omega⟩
      rw [h.node_eq href hvalid, node_of_type _ htype]
      exact hnlink
    simp only [wp_bind, acquiresleep, wp_inode, hunlocked, Bool.false_eq_true, if_false, wp_setInode]
    set t : FsState := { s with
      itable := Function.update s.itable ip { s.itable ip with locked := true } } with ht
    have htable : t.itable ip = { s.itable ip with locked := true } := Function.update_self ..
    have hinum : t.inum ip = s.inum ip := by rw [FsState.inum, htable]; rfl
    have hcopyt : (t.itable ip).copy = (s.itable ip).copy := by rw [htable]
    have halloc := h.allocated href hvalid
    refine wp_post (itrunc_spec (s := t) h.sb hop h.bufs
      (by rw [hinum, hcopyt, hcopy]) h.image.owned (by rw [hinum]; exact halloc)) ?_
    rintro _ _ ⟨disk, logged, rfl, howned, hagree, hdinode⟩
    rw [hinum, hcopyt] at howned hdinode
    rw [wp_modifyCopy_put]
    refine wp_iupdate (by exact hop) (by exact h.bufs) fun logged' ↦ ?_
    set copy : Dinode := { (s.itable ip).copy.truncated with type := 0 } with hcopy'
    have hrange : copy.InRange := ⟨by simp [hcopy', Dinode.truncated],
      by simp [hcopy', Dinode.truncated]⟩
    have hstored := stored_setDinode h.sb disk halloc.1.2 hrange
    have hempty : ∀ disk' place, Dinode.at disk' copy place = 0 := by
      intro disk' place
      cases place <;> simp [hcopy', Dinode.truncated, Dinode.at]
    have howned' : Owned s.sb (s.sb.setDinode disk (s.inum ip) copy)
        (Function.update s.inodes (s.inum ip) copy) := by
      refine Owned.release h.sb howned (i := s.inum ip) ?_ ?_ hstored.agree ?_ ?_
      · intro j hj
        rw [Function.update_of_ne hj, Function.update_of_ne hj]
      · intro place
        rw [Function.update_self, hempty]
      · intro x hx
        rw [hstored.bit x hx.2, Function.update_self]
        simp [truncated_at, (IsData.ne_zero h.sb hx).symm]
      · intro x hx
        have hdata := h.sb.data
        rw [hstored.bit x (by omega), howned.reserved x hx]
    have hfreed := iput_freed h hip hlast logged' rfl
      (.of_agree h.image.owned howned' (fun j hj ↦ Function.update_of_ne hj _ _)
        fun x hx ↦ (hstored.agree x hx).trans (hagree x hx))
      fun j hj ↦ by
        rw [hstored.dinode j hj]
        split
        · rfl
        · rename_i hne
          exact (hdinode j hj).trans (if_neg hne)
    have hone' : (s.itable ip).ref - 1 = 0 := by omega
    simp only [releasesleep, wp_bind, wp_inode, wp_setInode]
    convert hfreed using 2
    all_goals simp [ht, FsState.put, FsState.inum, hone', hcopy']
  · rename_i hkeep
    refine iput_kept h hip ?_
    rintro ⟨hvalid, hnlink, huses, hcount⟩
    have htype : (s.itable ip).copy.type ≠ 0 := (hslot.synced href hvalid).2
    rw [h.node_eq href hvalid, node_of_type _ htype] at hnlink
    exact hkeep ⟨by omega, hvalid, hnlink⟩

end Iput

/-- `iunlockput` gives up a lock and a reference. -/
theorem iunlockput_spec (h : Base s (ip ::ₘ held) locks) (hip : ip ∈ locks)
    (hop : 0 < s.outstanding) :
    wp (iunlockput ip) (fun _ s' ↦ Base s' held (locks.erase ip) ∧ Puts s s' held ip) E s := by
  rw [iunlockput, wp_bind]
  refine wp_post (iunlock_spec h hip) ?_
  rintro _ t ⟨hbase, hkeeps⟩
  refine wp_post (iput_spec hbase (fun hmem ↦ absurd hmem (by simp)) (by rwa [hkeeps.outstanding])) ?_
  rintro _ s' ⟨hbase', hputs⟩
  exact ⟨hbase', hputs.of_keeps hkeeps (h.valid_of_lock hip)⟩

/-- An open file or a current directory refers to the inode. -/
def FsState.InUse (s : FsState) (i : ℕ) : Prop := ∃ k, 0 < s.uses k ∧ s.inum k = i

/-- Nothing is waiting to be freed: an inode without links is in use, and the root has links. -/
structure FsState.Calm (s : FsState) : Prop where
  root : (s.node ROOTINO).nlink ≠ 0
  used : ∀ i, (s.node i).type ≠ 0 → (s.node i).nlink = 0 → s.InUse i

theorem Frame.inUse_iff (h : Frame s s' held) (i : ℕ) : s'.InUse i ↔ s.InUse i := by
  refine exists_congr fun k ↦ ?_
  rw [h.uses]
  refine and_congr_right fun huses ↦ ?_
  rw [h.inum k (by omega)]

theorem FsState.Calm.congr (h : s.Calm) (hnode : s'.node = s.node)
    (huse : ∀ i, s.InUse i → s'.InUse i) : s'.Calm where
  root := by rw [hnode]; exact h.root
  used i hi hnlink := by
    rw [hnode] at hi hnlink
    exact huse i (h.used i hi hnlink)

theorem Frame.calm (h : Frame s s' held) (hnode : s'.node = s.node) (hcalm : s.Calm) : s'.Calm :=
  hcalm.congr hnode fun i ↦ (h.inUse_iff i).mpr

/-- No file changes, unless something was waiting to be freed. -/
structure Quiet (s s' : FsState) (held : Multiset (Fin NINODE)) : Prop extends
    Frame s s' held where
  node : s.Calm → s'.node = s.node

namespace Quiet

theorem trans {s'' : FsState} (h : Quiet s s' held) (h' : Quiet s' s'' held) : Quiet s s'' held where
  toFrame := h.toFrame.trans h'.toFrame
  node hcalm := (h'.node (h.calm (h.node hcalm) hcalm)).trans (h.node hcalm)

theorem mono {held' : Multiset (Fin NINODE)} (h : Quiet s s' held') (hle : held ≤ held') :
    Quiet s s' held where
  toFrame := h.toFrame.mono hle
  node := h.node

theorem ofKeeps (h : Keeps s s' held) : Quiet s s' held where
  toFrame := h.toFrame
  node _ := h.node

/-- A call gives up a reference of its own. -/
theorem ofPuts (hbase : Base s (ip ::ₘ held) locks) (h : Puts s s' held ip) : Quiet s s' held where
  toFrame := h.toFrame
  node hcalm := by
    refine h.kept ?_
    rintro ⟨hvalid, hnlink, huses, -⟩
    have href := hbase.refs_of_mem (Multiset.mem_cons_self ip held)
    have htype := (hbase.allocated href hvalid).2
    rw [← node_type] at htype
    obtain ⟨k, hk, hinum⟩ := hcalm.used _ htype hnlink
    have hkip : k = ip := hbase.table.unique k ip (hbase.refs_pos (by omega)) href hinum
    subst hkip
    omega

end Quiet

/-! ## New inodes -/

/-- A new, empty file. -/
def Node.fresh (type : Int16) : Node := { Node.free with type := type }

theorem Sets.keeps {s'' : FsState} {i : ℕ} {n : Node} (h : Sets s s' held i n)
    (h' : Keeps s' s'' held) : Sets s s'' held i n where
  toFrame := h.toFrame.trans h'.toFrame
  node := h'.node.trans h.node

/-- An inode that is free on the disk becomes allocated. -/
theorem Base.allocate (h : Base s held locks) {i : ℕ} (hi : s.sb.IsInum i)
    (hfree : (s.inodes i).type = 0) {type : Int16} (htype : type ≠ 0) {disk : Device}
    (logged : List ℕ)
    (hstored : Stored s.sb s.disk disk i { Dinode.zero with type := type }) :
    let s' := { s with disk := disk, logged := logged }
    Base s' held locks ∧ Sets s s' held i (.fresh type) := by
  intro s'
  have hinodes : s'.inodes = Function.update s.inodes i { Dinode.zero with type := type } :=
    inodes_of_dinode rfl hi hstored.dinode
  have hempty : ∀ disk' place, Dinode.at disk' { Dinode.zero with type := type } place = 0 := by
    intro disk' place
    cases place <;> simp [Dinode.zero, Dinode.at]
  have hothers : ∀ j, (s.inodes j).type ≠ 0 → s'.inodes j = s.inodes j := by
    intro j hj
    rw [hinodes, Function.update_of_ne]
    rintro rfl
    exact hj hfree
  have howned : Owned s.sb disk s'.inodes := by
    refine Owned.release h.sb h.image.owned (i := i) ?_ ?_ hstored.agree ?_ ?_
    · intro j hj
      rw [hinodes, Function.update_of_ne hj]
    · intro place
      rw [hinodes, Function.update_self, hempty]
    · intro x hx
      rw [hstored.bit x hx.2]
      simp [Allocated, hfree]
    · intro x hx
      have hdata := h.sb.data
      rw [hstored.bit x (by omega), h.image.owned.reserved x hx]
  have hchange : Change s.sb s.disk s.inodes s'.disk s'.inodes i :=
    .of_agree h.image.owned howned (fun j hj ↦ by rw [hinodes, Function.update_of_ne hj])
      hstored.agree
  have hnode : (s'.inodes i).node s'.disk = .fresh type := by
    have hbyte : Dinode.byteAt s'.disk { Dinode.zero with type := type } = fun _ ↦ 0 :=
      funext fun x ↦ truncated_byteAt { Dinode.zero with type := type } s'.disk x
    rw [hinodes, Function.update_self, node_of_type (d := { Dinode.zero with type := type }) _ htype,
      hbyte]
    rfl
  have hsets := node_of_change hinodes hchange
  rw [show Dinode.node s'.disk { Dinode.zero with type := type } = .fresh type by
    rw [← hnode, hinodes, Function.update_self]] at hsets
  refine ⟨h.update rfl rfl rfl rfl (Function.update_eq_self (⟨0, by decide⟩ : Fin NINODE) _).symm ?_
    ((h.table.slot _).congr fun _ ↦ hothers _) ?_ (fun l _ _ ↦ hothers _) (fun _ _ ↦ rfl)
    (fun _ _ ↦ Iff.rfl) ?_, ⟨rfl, rfl, rfl, rfl, fun _ _ ↦ rfl, fun _ _ hv ↦ hv⟩, hsets⟩
  · refine hchange.image h.image (fun _ ↦ ?_) fun _ _ ↦ ?_
    · rw [hinodes, Function.update_self]
      exact truncated_noHoles { Dinode.zero with type := type } _
    · rw [hnode]
      exact ⟨rfl, fun _ hk ↦ absurd hk (Nat.not_lt_zero _)⟩
  · exact fun href l hl href' heq ↦ hl (h.table.unique l _ href' href heq)
  · intro huses
    exact ⟨rfl, congrArg Dinode.type (hothers _ ((h.table.slot _).used huses).1)⟩

/-- `ialloc` marks a free inode as allocated and adds a reference to it. -/
theorem ialloc_spec (h : Base s held locks) (hop : 0 < s.outstanding) {type : Int16}
    (htype : type ≠ 0) (hnone : E (.panic .iallocNone)) (hget : E (.panic .igetNone)) :
    wp (ialloc ROOTDEV type) (fun ip s' ↦ Base s' (ip ::ₘ held) locks ∧
      s.sb.IsInum (s'.inum ip) ∧ (s.node (s'.inum ip)).type = 0 ∧
      Sets s s' held (s'.inum ip) (.fresh type)) E s := by
  rw [ialloc, wp_bind, wp_get]
  cases hscan : scan (fun inum ↦ decide ((s.sb.dinode s.disk inum).type = 0)) 1
      (s.sb.ninodes - 1) with
  | none => simpa using hnone
  | some i =>
    obtain ⟨htest, hone, hlt⟩ := scan_some hscan
    have hi : s.sb.IsInum i := ⟨by omega, by omega⟩
    have hfree : (s.inodes i).type = 0 := by
      rw [FsState.inodes, if_pos hi]
      simpa using htest
    have hstored := stored_setDinode h.sb s.disk hi.2
      (show Dinode.InRange { Dinode.zero with type := type } from ⟨by simp [Dinode.zero], by simp [Dinode.zero]⟩)
    simp only [wp_bind]
    refine (wp_bupdate hop (by simp [h.bufs]) fun bp ↦
      bp.setDinode (i % IPB) { Dinode.zero with type := type }).mpr ?_
    obtain ⟨hbase, hsets⟩ := h.allocate hi hfree htype (if s.sb.iblock i ∈ s.logged then
      s.logged else s.logged ++ [s.sb.iblock i]) hstored
    refine wp_post (iget_spec hbase (by exact hi) fun _ ↦ hget) ?_
    rintro ip s' ⟨hbase', hkeeps, rfl, -⟩
    exact ⟨hbase', hi, by rw [node_type]; exact hfree, hsets.keeps hkeeps⟩

end Xv6.Fs
