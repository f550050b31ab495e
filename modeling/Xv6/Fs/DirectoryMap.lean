import Xv6.Fs.ByteArray

/-!
# A Directory is a Finite Map

A name is what `namecmp` sees of it: its bytes up to the first NUL, at most `DIRSIZ` of them.  The
entries in use of a directory bind such names to i-numbers, and no name is bound twice, however many
entries were added by `dirlink` and cleared by `sys_unlink`.  `dirlookup` reads this map, `dirlink`
adds a binding to it, and clearing an entry removes one.
-/

namespace Xv6.Fs

open Lib

/-! ## The map of a directory -/

namespace Node

/-- No two entries in use have the same name. -/
def Distinct (n : Node) : Prop := ∀ j k, n.Entry j → n.Entry k → n.key j = n.key k → j = k

theorem lookup_eq_some_iff {n : Node} (h : n.Distinct) {key : List UInt8} {v : ℕ × ℕ} :
    n.lookup key = some v ↔
      ∃ k, n.Entry k ∧ n.key k = key ∧ ((n.dirent k).inum, DIRENT * k) = v := by
  rw [lookup, Option.map_eq_some_iff]
  constructor
  · rintro ⟨k, hfind, hv⟩
    have hfound := List.find?_some hfind
    rw [decide_eq_true_eq] at hfound
    exact ⟨k, hfound.1, hfound.2, hv⟩
  · rintro ⟨k, hentry, hkey, hv⟩
    refine ⟨k, ?_, hv⟩
    cases hfind : (List.range (n.size / DIRENT + 1)).find?
        fun k ↦ decide (n.Entry k ∧ n.key k = key) with
    | none =>
      have hlt : k < n.size / DIRENT + 1 := by
        have := hentry.1
        simp only [DIRENT] at *
        omega
      have hnone := List.find?_eq_none.mp hfind k (List.mem_range.mpr hlt)
      exact absurd (decide_eq_true ⟨hentry, hkey⟩) hnone
    | some j =>
      have hfound := List.find?_some hfind
      rw [decide_eq_true_eq] at hfound
      rw [h j k hfound.1 hentry (hfound.2.trans hkey.symm)]

theorem lookup_finds {n : Node} (h : n.Distinct) {name : List UInt8} {k : ℕ}
    (hfinds : n.Finds name k) :
    n.lookup (cstr DIRSIZ name) = some ((n.dirent k).inum, DIRENT * k) :=
  (lookup_eq_some_iff h).mpr ⟨k, (finds_iff.mp hfinds).1, (finds_iff.mp hfinds).2, rfl⟩

section SetDirent

variable {n : Node} {k : ℕ} {de : Dirent} (hde : de.InRange) (hk : DIRENT * k ≤ n.size)

theorem key_setDirent (hde : de.InRange) (j : ℕ) :
    (n.setDirent k de).key j = if j = k then cstr DIRSIZ de.name else n.key j := by
  rw [key]
  split
  · rename_i heq
    rw [heq, dirent_setDirent_self n k hde]
  · rename_i hne
    rw [dirent_setDirent_of_ne n de hne, key]

include hde hk

/-- A new entry whose name is not there keeps the names distinct, and an empty one does. -/
theorem Distinct.setDirent (h : n.Distinct)
    (hnew : de.inum ≠ 0 → ∀ j, n.Entry j → n.key j ≠ cstr DIRSIZ de.name) :
    (n.setDirent k de).Distinct := by
  intro i j hi hj hkey
  rw [entry_setDirent hde hk] at hi hj
  rw [key_setDirent hde, key_setDirent hde] at hkey
  by_cases hik : i = k <;> by_cases hjk : j = k
  · rw [hik, hjk]
  · rw [if_pos hik] at hi hkey
    rw [if_neg hjk] at hj hkey
    exact absurd hkey.symm (hnew hi j hj)
  · rw [if_neg hik] at hi hkey
    rw [if_pos hjk] at hj hkey
    exact absurd hkey (hnew hj i hi)
  · rw [if_neg hik] at hi hkey
    rw [if_neg hjk] at hj hkey
    exact h i j hi hj hkey

/-- A new entry in a free place binds its name. -/
theorem lookup_setDirent_new (h : n.Distinct) (hslot : n.Slot k) (hinum : de.inum ≠ 0)
    (hnew : ∀ j, n.Entry j → n.key j ≠ cstr DIRSIZ de.name) :
    (n.setDirent k de).lookup =
      Function.update n.lookup (cstr DIRSIZ de.name) (some (de.inum, DIRENT * k)) := by
  have hdistinct := h.setDirent hde hk fun _ ↦ hnew
  have hfree : ¬ n.Entry k := by
    rintro ⟨hlt, hne⟩
    rcases hslot with hend | hempty
    · omega
    · exact hne hempty.2
  funext key
  apply Option.ext
  intro v
  rw [lookup_eq_some_iff hdistinct]
  by_cases hkey : key = cstr DIRSIZ de.name
  · rw [hkey, Function.update_self, Option.some.injEq]
    constructor
    · rintro ⟨j, hentry, hname, rfl⟩
      rw [entry_setDirent hde hk] at hentry
      rw [key_setDirent hde] at hname
      by_cases hjk : j = k
      · rw [hjk, dirent_setDirent_self n k hde]
      · rw [if_neg hjk] at hentry hname
        exact absurd hname (hnew j hentry)
    · rintro rfl
      refine ⟨k, ?_, ?_, ?_⟩
      · rw [entry_setDirent hde hk, if_pos rfl]
        exact hinum
      · rw [key_setDirent hde, if_pos rfl]
      · rw [dirent_setDirent_self n k hde]
  · rw [Function.update_of_ne hkey, lookup_eq_some_iff h]
    refine exists_congr fun j ↦ ?_
    rw [entry_setDirent hde hk, key_setDirent hde]
    by_cases hjk : j = k
    · rw [if_pos hjk, if_pos hjk]
      refine iff_of_false (fun hj ↦ hkey hj.2.1.symm) fun hj ↦ hfree (hjk ▸ hj.1)
    · rw [if_neg hjk, if_neg hjk, dirent_setDirent_of_ne n de hjk]

end SetDirent

/-- Clearing an entry removes the binding of its name. -/
theorem lookup_setDirent_empty {n : Node} {k : ℕ} (h : n.Distinct) (hk : n.Entry k) :
    (n.setDirent k .empty).lookup = Function.update n.lookup (n.key k) none := by
  have hle : DIRENT * k ≤ n.size := hk.1.le
  have hdistinct := h.setDirent Dirent.empty_inRange hle fun hne ↦ absurd rfl hne
  funext key
  apply Option.ext
  intro v
  rw [lookup_eq_some_iff hdistinct]
  by_cases hkey : key = n.key k
  · rw [hkey, Function.update_self]
    refine iff_of_false ?_ (by simp)
    rintro ⟨j, hentry, hname, -⟩
    rw [entry_setDirent Dirent.empty_inRange hle] at hentry
    rw [key_setDirent Dirent.empty_inRange] at hname
    by_cases hjk : j = k
    · rw [if_pos hjk] at hentry
      exact hentry rfl
    · rw [if_neg hjk] at hentry hname
      exact hjk (h j k hentry hk hname)
  · rw [Function.update_of_ne hkey, lookup_eq_some_iff h]
    refine exists_congr fun j ↦ ?_
    rw [entry_setDirent Dirent.empty_inRange hle, key_setDirent Dirent.empty_inRange]
    by_cases hjk : j = k
    · rw [if_pos hjk]
      refine iff_of_false (fun hj ↦ hj.1 rfl) fun hj ↦ hkey ?_
      rw [← hj.2.1, hjk]
    · rw [if_neg hjk, if_neg hjk, dirent_setDirent_of_ne n _ hjk]

end Node

/-! ## The operations -/

/-- What `sys_unlink` does to the directory: it looks up the name, clears the entry found, and in
the end gives up the reference to the inode. -/
def clearEntry (dp : Fin NINODE) (name : List UInt8) : FsM Unit := do
  match ← dirlookup dp name with
  | none => pure ()
  | some (ip, off) =>
    let r ← writei dp (kernelSource Dirent.empty.encode) 0 off DIRENT
    if r ≠ DIRENT then panic .unlinkWritei
    else iput ip

/-- The directory in slot `dp`. -/
def FsState.dir (s : FsState) (dp : Fin NINODE) : Node := s.node (s.inum dp)

/-- `dp` is a locked directory with distinct names, inside an operation of the log. -/
structure DirReady (s : FsState) (dp : Fin NINODE) : Prop where
  base : ∃ held locks, Base s held locks ∧ dp ∈ locks
  type : (s.dir dp).type = T_DIR
  op : 0 < s.outstanding
  distinct : (s.dir dp).Distinct

variable {s s' : FsState} {dp : Fin NINODE} {held : Multiset (Fin NINODE)}
  {locks : Finset (Fin NINODE)} {name : List UInt8} {inum : ℕ}

theorem Frame.inum_of_lock (hframe : Frame s s' held) (h : Base s held locks) (hdp : dp ∈ locks) :
    s'.inum dp = s.inum dp := by
  apply hframe.inum
  rw [← (h.table.slot dp).refs]
  exact h.refs_of_lock hdp

/-- The directory stays ready when its node is kept. -/
theorem DirReady.keep {held' : Multiset (Fin NINODE)} (h : DirReady s dp) (hbase : Base s held locks)
    (hdp : dp ∈ locks) (hframe : Frame s s' held) (hnode : s'.node = s.node)
    (hbase' : Base s' held' locks) : DirReady s' dp where
  base := ⟨held', locks, hbase', hdp⟩
  type := by
    rw [FsState.dir, hframe.inum_of_lock hbase hdp, hnode]
    exact h.type
  op := by
    rw [hframe.outstanding]
    exact h.op
  distinct := by
    rw [FsState.dir, hframe.inum_of_lock hbase hdp, hnode]
    exact h.distinct

/-- The directory after one of its entries was stored. -/
theorem Sets.dir {k : ℕ} {de : Dirent} (hbase : Base s held locks) (hdp : dp ∈ locks)
    (hsets : Sets s s' held (s.inum dp) ((s.dir dp).setDirent k de)) :
    s'.dir dp = (s.dir dp).setDirent k de := by
  rw [FsState.dir, hsets.toFrame.inum_of_lock hbase hdp, hsets.node, Function.update_self]

/-- The directory stays ready when an entry is stored. -/
theorem DirReady.set {k : ℕ} {de : Dirent} (h : DirReady s dp) (hbase : Base s held locks)
    (hdp : dp ∈ locks) (hsets : Sets s s' held (s.inum dp) ((s.dir dp).setDirent k de))
    (hbase' : Base s' held locks) (hdistinct : ((s.dir dp).setDirent k de).Distinct) :
    DirReady s' dp where
  base := ⟨held, locks, hbase', hdp⟩
  type := by
    rw [hsets.dir hbase hdp]
    exact h.type
  op := by
    rw [hsets.outstanding]
    exact h.op
  distinct := by
    rw [hsets.dir hbase hdp]
    exact hdistinct

/-- Giving up a reference leaves a directory alone that has one more. -/
theorem Puts.dir {ip : Fin NINODE} (hputs : Puts s s' held ip) (hbase : Base s (ip ::ₘ held) locks)
    (hdp : dp ∈ locks) (hpos : 0 < s.uses dp + held.count dp) : s'.dir dp = s.dir dp := by
  have hinum : s'.inum dp = s.inum dp := hputs.inum dp hpos
  rw [FsState.dir, hinum, FsState.dir]
  by_cases hlast : s.Last held ip
  · have hne : dp ≠ ip := by
      rintro rfl
      have huses := hlast.2.2
      omega
    have href : 0 < (s.itable ip).ref := hbase.refs_of_mem (Multiset.mem_cons_self _ _)
    rw [hputs.freed hlast, Function.update_of_ne fun heq ↦
      hne (hbase.table.unique dp ip (hbase.refs_of_lock hdp) href heq)]
  · rw [hputs.kept hlast]

/-- `dirlookup` reads the map. -/
theorem dirlookup_map (h : DirReady s dp) (name : List UInt8) :
    wp (dirlookup dp name) (fun r s' ↦ DirReady s' dp ∧ s'.node = s.node ∧
      r.map (fun found ↦ (s'.inum found.1, found.2)) = (s.dir dp).lookup (cstr DIRSIZ name))
      (· = .panic .igetNone) s := by
  obtain ⟨held, locks, hbase, hdp⟩ := h.base
  refine wp_post (dirlookup_dir (E := (· = .panic .igetNone)) hbase hdp h.type name fun _ _ ↦ rfl) ?_
  rintro (_ | ⟨ip, off⟩) s' hr
  · obtain ⟨rfl, hnot⟩ := hr
    exact ⟨h, rfl, (Node.lookup_eq_none hnot).symm⟩
  · obtain ⟨j, hfound⟩ := hr
    refine ⟨h.keep hbase hdp hfound.keeps.toFrame hfound.keeps.node hfound.base,
      hfound.keeps.node, ?_⟩
    rw [Node.lookup_finds h.distinct hfound.finds, Option.map_some, hfound.inum, hfound.off]
    rfl

/-- `dirlink` fails exactly if the name is bound, and else binds it.  It panics when the directory
has its maximum size. -/
theorem dirlink_map (h : DirReady s dp) (name : List UInt8) (hinum : s.sb.IsInum inum) :
    wp (dirlink dp name inum) (fun r s' ↦ DirReady s' dp ∧ s'.sb = s.sb ∧
      (r = false ↔ ((s.dir dp).lookup (cstr DIRSIZ name)).isSome) ∧ (r = false → s'.node = s.node) ∧
      (r = true → ∃ off, (s'.dir dp).lookup =
        Function.update (s.dir dp).lookup (cstr DIRSIZ name) (some (inum, off))))
      (fun stop ↦ stop = .panic .igetNone ∨ stop = .panic .ballocOut ∨
        stop = .panic .dirlinkWrite ∧ MAXFILE * BSIZE ≤ (s.dir dp).size) s := by
  obtain ⟨held, locks, hbase, hdp⟩ := h.base
  refine wp_post (dirlink_dir hbase hdp h.type h.op name hinum (fun _ _ ↦ .inl rfl)
    (fun _ ↦ .inr (.inl rfl)) fun hfull ↦ .inr (.inr ⟨rfl, hfull.1⟩)) ?_
  rintro (_ | _) s' ⟨hbase', hr⟩
  · obtain ⟨⟨j, hfinds⟩, hframe, hnode⟩ := hr
    refine ⟨h.keep hbase hdp hframe hnode hbase', hframe.sb, iff_of_true rfl ?_, fun _ ↦ hnode,
      fun hfalse ↦ absurd hfalse Bool.false_ne_true⟩
    rw [Node.lookup_finds h.distinct hfinds]
    rfl
  · obtain ⟨k, hslot, hnot, hsets⟩ := hr
    have hslot : (s.dir dp).Slot k := hslot
    have hde := make_inRange hbase.sb hinum name
    have hpos : (Dirent.make name inum).inum ≠ 0 := hinum.1.ne'
    have hcstr : cstr DIRSIZ (Dirent.make name inum).name = cstr DIRSIZ name := cstr_strncpy ..
    have hnew : ∀ j, (s.dir dp).Entry j →
        (s.dir dp).key j ≠ cstr DIRSIZ (Dirent.make name inum).name := by
      intro j hentry hkey
      exact hnot j (Node.finds_iff.mpr ⟨hentry, hkey.trans hcstr⟩)
    refine ⟨h.set hbase hdp hsets hbase' (h.distinct.setDirent hde hslot.le fun _ ↦ hnew), hsets.sb,
      iff_of_false (by simp) ?_, by simp, fun _ ↦ ⟨DIRENT * k, ?_⟩⟩
    · have hnone : (s.dir dp).lookup (cstr DIRSIZ name) = none := Node.lookup_eq_none hnot
      rw [hnone]
      simp
    · rw [hsets.dir hbase hdp, Node.lookup_setDirent_new hde hslot.le h.distinct hslot hpos hnew, hcstr]
      rfl

/-- Clearing the entry that `dirlookup` finds removes the binding. -/
theorem clearEntry_map (h : DirReady s dp) (name : List UInt8) :
    wp (clearEntry dp name) (fun _ s' ↦ DirReady s' dp ∧ s'.sb = s.sb ∧ (s'.dir dp).lookup =
      Function.update (s.dir dp).lookup (cstr DIRSIZ name) none) (· = .panic .igetNone) s := by
  obtain ⟨held, locks, hbase, hdp⟩ := h.base
  rw [clearEntry, wp_bind]
  refine wp_post (dirlookup_dir (E := (· = .panic .igetNone)) hbase hdp h.type name fun _ _ ↦ rfl) ?_
  rintro (_ | ⟨ip, off⟩) t hr
  · obtain ⟨rfl, hnot⟩ := hr
    have hnone : (t.dir dp).lookup (cstr DIRSIZ name) = none := Node.lookup_eq_none hnot
    refine ⟨h, rfl, ?_⟩
    rw [← hnone, Function.update_eq_self]
  · obtain ⟨j, hfound⟩ := hr
    have ht := h.keep hbase hdp hfound.keeps.toFrame hfound.keeps.node hfound.base
    have hdir : t.dir dp = s.dir dp := by
      rw [FsState.dir, hfound.keeps.toFrame.inum_of_lock hbase hdp, hfound.keeps.node, FsState.dir]
    have hfinds : (t.dir dp).Finds name j := by
      rw [hdir]
      exact hfound.finds
    obtain ⟨hentry, hkey⟩ := Node.finds_iff.mp hfinds
    have hwhole : DIRENT * j + DIRENT ≤ (t.dir dp).size :=
      hfound.base.entry_le hdp ht.type hentry.1
    have hmax : (t.dir dp).size ≤ MAXFILE * BSIZE := by
      have hsize := (hfound.base.noHoles (hfound.base.refs_of_lock hdp)
        (hfound.base.valid_of_lock hdp)).size
      rwa [hfound.base.copy_size hdp] at hsize
    rw [hfound.off, wp_bind]
    refine wp_post (writei_dirent hfound.base hdp ht.type ht.op Dirent.empty_inRange
      (lt_trans Nat.one_pos hfound.base.sb.root) j
      fun hlt ↦ absurd hwhole (Nat.not_le.mpr hlt)) ?_
    rintro r s' (⟨hfail, -, -⟩ | ⟨rfl, hbase', hsets⟩)
    · rcases hfail with hlt | hlt
      · exact absurd hentry.1 (Nat.not_lt.mpr hlt.le)
      · exact absurd (hwhole.trans hmax) (Nat.not_le.mpr hlt)
    · simp only [ne_eq, not_true_eq_false, if_false]
      have hset := ht.set hfound.base hdp hsets hbase' (ht.distinct.setDirent Dirent.empty_inRange
        hentry.1.le fun hne ↦ absurd rfl hne)
      have hpos : 0 < s'.uses dp + held.count dp := by
        rw [hsets.uses, hfound.keeps.uses, ← (hbase.table.slot dp).refs]
        exact hbase.refs_of_lock hdp
      refine wp_post (iput_spec hbase' (fun hip ↦ ?_) hset.op) ?_
      · rw [hsets.uses, hfound.keeps.uses, ← (hbase.table.slot ip).refs]
        exact hbase.refs_of_lock hip
      · rintro _ s'' ⟨hbase'', hputs⟩
        have hdir' := hputs.dir hbase' hdp hpos
        refine ⟨⟨⟨held, locks, hbase'', hdp⟩, ?_, ?_, ?_⟩,
          hputs.sb.trans (hsets.sb.trans hfound.keeps.sb), ?_⟩
        · rw [hdir']
          exact hset.type
        · rw [hputs.outstanding]
          exact hset.op
        · rw [hdir']
          exact hset.distinct
        · rw [hdir', hsets.dir hfound.base hdp, Node.lookup_setDirent_empty ht.distinct hentry, hkey,
            hdir]

/-- A change of a directory. -/
inductive DirOp
  | dirlink (name : List UInt8) (inum : ℕ)
  | clear (name : List UInt8)

namespace DirOp

/-- Entries are made for inodes of the file system. -/
def Enabled (s : FsState) : DirOp → Prop
  | .dirlink _ inum => s.sb.IsInum inum
  | .clear _ => True

instance (s : FsState) (op : DirOp) : Decidable (op.Enabled s) := by
  cases op <;> unfold Enabled <;> infer_instance

/-- The code of a change of the locked directory `dp`. -/
def code (dp : Fin NINODE) : DirOp → FsM Unit
  | .dirlink name inum => do
      let _ ← Fs.dirlink dp name inum
      pure ()
  | .clear name => clearEntry dp name

/-- One change of the locked directory `dp`. -/
def step (dp : Fin NINODE) (s : FsState) (op : DirOp) : Except Stop FsState :=
  if op.Enabled s then
    match op.code dp s with
    | .ok (_, s') => .ok s'
    | .error stop => .error stop
  else .error .disabled

/-- A change keeps the names distinct. -/
theorem step_ready {op : DirOp} (h : DirReady s dp) (hstep : step dp s op = .ok s') :
    DirReady s' dp := by
  rw [step] at hstep
  split at hstep
  · rename_i henabled
    cases hcode : op.code dp s with
    | error stop =>
      rw [hcode] at hstep
      cases hstep
    | ok result =>
      rw [hcode] at hstep
      cases hstep
      cases op with
      | dirlink name inum =>
        have hspec : wp (code dp (.dirlink name inum)) (fun _ s' ↦ DirReady s' dp)
            (fun stop ↦ stop = .panic .igetNone ∨ stop = .panic .ballocOut ∨
              stop = .panic .dirlinkWrite ∧ MAXFILE * BSIZE ≤ (s.dir dp).size) s := by
          rw [code, wp_bind]
          exact wp_post (dirlink_map h name henabled) fun _ _ hr ↦ hr.1
        have hready := wp_of_ok hspec hcode
        exact hready
      | clear name =>
        have hready := wp_of_ok (clearEntry_map h name) hcode
        exact hready.1
  · cases hstep

/-- Any number of changes keeps the names distinct. -/
theorem run_ready {ops : List DirOp} (h : DirReady s dp) (hrun : run (step dp) s ops = .ok s') :
    DirReady s' dp :=
  run_induction (step dp) (P := fun _ s ↦ DirReady s dp) h
    (fun _ _ _ _ _ hready hstep ↦ step_ready hready hstep) hrun

end DirOp

/-- After any changes of a directory with distinct names, the names are still distinct, `dirlookup`
reads the map from names to i-numbers, `dirlink` adds a binding to it, and clearing an entry removes
one. -/
theorem directory_refines_map {s₀ : FsState} (h₀ : DirReady s₀ dp) {ops : List DirOp}
    (hrun : run (DirOp.step dp) s₀ ops = .ok s) :
    (s.dir dp).Distinct ∧
    (∀ name, wp (dirlookup dp name) (fun r s' ↦ s'.node = s.node ∧
      r.map (fun found ↦ (s'.inum found.1, found.2)) = (s.dir dp).lookup (cstr DIRSIZ name))
      (· = .panic .igetNone) s) ∧
    (∀ name inum, s.sb.IsInum inum → wp (dirlink dp name inum) (fun r s' ↦
      (r = false ↔ ((s.dir dp).lookup (cstr DIRSIZ name)).isSome) ∧ (r = false → s'.node = s.node) ∧
      (r = true → ∃ off, (s'.dir dp).lookup =
        Function.update (s.dir dp).lookup (cstr DIRSIZ name) (some (inum, off))))
      (fun stop ↦ stop = .panic .igetNone ∨ stop = .panic .ballocOut ∨
        stop = .panic .dirlinkWrite ∧ MAXFILE * BSIZE ≤ (s.dir dp).size) s) ∧
    ∀ name, wp (clearEntry dp name) (fun _ s' ↦ (s'.dir dp).lookup =
      Function.update (s.dir dp).lookup (cstr DIRSIZ name) none) (· = .panic .igetNone) s := by
  have h := DirOp.run_ready h₀ hrun
  exact ⟨h.distinct, fun name ↦ wp_post (dirlookup_map h name) fun _ _ hr ↦ hr.2,
    fun name inum hinum ↦ wp_post (dirlink_map h name hinum) fun _ _ hr ↦ hr.2.2,
    fun name ↦ wp_post (clearEntry_map h name) fun _ _ hr ↦ hr.2.2⟩

theorem Node.Distinct.of_size {n : Node} (h : n.size = 0) : n.Distinct := by
  intro j k hj
  have hlt := hj.1
  omega

/-- A new directory on the small disk: the entries `a` and `b` are made and `a` is cleared. -/
theorem directory_refines_map_small : ∃ (t : Pool) (s : FsState),
    run InodeOp.step ⟨iinit smallSb (format smallSb 2), 0⟩
      [.beginOp, .ialloc T_DIR, .ilock ⟨0, by decide⟩] = .ok t ∧
    run (DirOp.step ⟨0, by decide⟩) t.fs
      [.dirlink [97] 1, .dirlink [98] 1, .clear [97]] = .ok s ∧
    (s.dir ⟨0, by decide⟩).Distinct ∧
    wp (clearEntry ⟨0, by decide⟩ [98]) (fun _ s' ↦ (s'.dir ⟨0, by decide⟩).lookup =
      Function.update (s.dir ⟨0, by decide⟩).lookup [98] none) (· = .panic .igetNone) s := by
  have hyields : yields (run InodeOp.step ⟨iinit smallSb (format smallSb 2), 0⟩
      [.beginOp, .ialloc T_DIR, .ilock ⟨0, by decide⟩]) (fun t ↦ 0 < t.fs.outstanding ∧
        (t.fs.itable ⟨0, by decide⟩).locked = true ∧ (t.fs.dir ⟨0, by decide⟩).type = T_DIR ∧
        (t.fs.dir ⟨0, by decide⟩).size = 0 ∧ yields (run (DirOp.step ⟨0, by decide⟩) t.fs
          [.dirlink [97] 1, .dirlink [98] 1, .clear [97]]) (fun _ ↦ True) = true) = true := by
    decide +kernel
  obtain ⟨t, hrun, hop, hlocked, htype, hsize, hdirops⟩ := exists_of_yields hyields
  obtain ⟨s, hrun', -⟩ := exists_of_yields hdirops
  obtain ⟨locks, hbase⟩ := InodeOp.run_base wellFormed_small hrun
  have hready : DirReady t.fs ⟨0, by decide⟩ :=
    ⟨⟨_, _, hbase, (hbase.table.slot _).lock.mp hlocked⟩, htype, hop, .of_size hsize⟩
  have hmap := directory_refines_map hready hrun'
  exact ⟨t, s, hrun, hrun', hmap.1, hmap.2.2.2 [98]⟩

end Xv6.Fs
