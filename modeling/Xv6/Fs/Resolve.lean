import Xv6.Fs.Format

/-!
# Path Resolution

`namex` with its name buffer, as the kernel runs it: `namei` passes an array on its stack that is
never cleared, and `nameiparent` the array of its caller.  The buffer makes no difference: both
functions return what the names of the path lead to.
-/

namespace Xv6.Fs

open Lib

/-! ## The name buffer -/

/-- The loop of `namex`, with the bytes of the buffer `name`; the buffer is returned as well. -/
def namexIntoLoop (nameiparent : Bool) :
    ℕ → List UInt8 → List UInt8 → Fin NINODE → FsM (Option (Fin NINODE) × List UInt8)
  | 0, _, name, _ => return (none, name)
  | fuel + 1, path, name, ip => do
      match skipelemInto path name with
      | none =>
        if nameiparent then
          iput ip
          return (none, name)
        else return (some ip, name)
      | some (rest, name) =>
        ilock ip
        if (← inode ip).copy.type ≠ T_DIR then
          iunlockput ip
          return (none, name)
        else if nameiparent ∧ rest = [] then
          iunlock ip
          return (some ip, name)
        else
          match ← dirlookup ip name with
          | none =>
            iunlockput ip
            return (none, name)
          | some (next, _) =>
            iunlockput ip
            namexIntoLoop nameiparent fuel rest name next

/-- `namex` with its buffer. -/
def namexInto (p : Fin NPROC) (path : List UInt8) (nameiparent : Bool) (name : List UInt8) :
    FsM (Option (Fin NINODE) × List UInt8) := do
  let ip ← if path.head? = some slash then iget ROOTDEV ROOTINO else do idup (← cwd p)
  namexIntoLoop nameiparent (path.length + 1) path name ip

/-- `namei`, where `name` is what its array happens to hold. -/
def nameiInto (p : Fin NPROC) (path name : List UInt8) : FsM (Option (Fin NINODE)) := do
  return (← namexInto p path false name).1

/-- `nameiparent` with the buffer of the caller. -/
def nameiparentInto (p : Fin NPROC) (path name : List UInt8) :
    FsM (Option (Fin NINODE) × List UInt8) :=
  namexInto p path true name

theorem cstr_cstr (n : ℕ) (name : List UInt8) : cstr n (cstr n name) = cstr n name := by
  have hle : (cstr n name).length ≤ n :=
    (List.takeWhile_prefix _).length_le.trans (List.length_take_le n name)
  conv_lhs => rw [cstr, List.take_of_length_le hle]
  exact List.takeWhile_idem

/-- `dirlookup` sees of a name what `namecmp` sees. -/
theorem dirlookup_congr {name name' : List UInt8} (h : cstr DIRSIZ name = cstr DIRSIZ name')
    (dp : Fin NINODE) : dirlookup dp name = dirlookup dp name' := by
  have hloop : ∀ fuel off, dirlookupLoop dp name fuel off = dirlookupLoop dp name' fuel off := by
    intro fuel
    induction fuel with
    | zero => exact fun _ ↦ rfl
    | succ fuel ih =>
      intro off
      simp only [dirlookupLoop, namecmp_eq_zero_iff, h, ih]
  rw [dirlookup, dirlookup]
  simp only [hloop]

/-- What the callers of `namex` use of the buffer. -/
def seen (nameiparent : Bool) (r : Option (Fin NINODE) × List UInt8) :
    Option (Fin NINODE × List UInt8) :=
  r.1.map fun ip ↦ (ip, if nameiparent then cstr DIRSIZ r.2 else [])

/-- The buffer makes no difference to the loop of `namex`. -/
theorem seen_namexIntoLoop (nameiparent : Bool) {fuel : ℕ} {path name : List UInt8}
    (hpath : 0 ∉ path) (hname : name.length = DIRSIZ) (ip : Fin NINODE) :
    seen nameiparent <$> namexIntoLoop nameiparent fuel path name ip =
      namexLoop nameiparent fuel path ip := by
  induction fuel generalizing path name ip with
  | zero => rfl
  | succ fuel ih =>
    have hspec := skipelemInto_eq path hname
    rw [namexIntoLoop, namexLoop]
    cases hinto : skipelemInto path name with
    | none =>
      rw [hinto] at hspec
      rw [hspec]
      cases nameiparent with
      | true => simp [seen]
      | false => simp [seen]
    | some result =>
      obtain ⟨rest, buffer⟩ := result
      rw [hinto] at hspec
      obtain ⟨e, hskip, hskips, hholds⟩ := hspec
      have hcstr : cstr DIRSIZ buffer = e.take DIRSIZ :=
        hholds.cstr fun hmem ↦ hpath (hskips.element_subset hmem)
      have hlookup : dirlookup ip buffer = dirlookup ip (e.take DIRSIZ) := by
        refine dirlookup_congr ?_ ip
        rw [← hcstr, cstr_cstr]
      rw [hskip]
      dsimp only
      rw [map_bind]
      refine bind_congr fun _ ↦ ?_
      rw [map_bind]
      refine bind_congr fun i ↦ ?_
      split
      · simp [seen]
      · split
        · rename_i hparent
          simp [seen, hparent.1, hcstr]
        · rw [hlookup, map_bind]
          refine bind_congr fun r ↦ ?_
          rcases r with _ | ⟨next, off⟩
          · simp [seen]
          · dsimp only
            rw [map_bind]
            exact bind_congr fun _ ↦
              ih (fun hmem ↦ hpath (hskips.rest_subset hmem)) hholds.length next

theorem seen_namexInto (p : Fin NPROC) (nameiparent : Bool) {path name : List UInt8}
    (hpath : 0 ∉ path) (hname : name.length = DIRSIZ) :
    seen nameiparent <$> namexInto p path nameiparent name = namex p path nameiparent := by
  rw [namexInto, namex]
  split
  · rw [map_bind]
    exact bind_congr fun ip ↦ seen_namexIntoLoop nameiparent hpath hname ip
  · rw [map_bind]
    refine bind_congr fun dir ↦ ?_
    rw [map_bind]
    exact bind_congr fun ip ↦ seen_namexIntoLoop nameiparent hpath hname ip

/-! ## The result -/

/-- The number of entries of the inode table that are not in use. -/
def FsState.freeInodes (s : FsState) : ℕ :=
  (Finset.univ.filter fun k ↦ (s.itable k).ref = 0).card

/-- Why a walk stops: a name is looked up in an inode that has been freed, or the inode table is
full. -/
def Stuck (s : FsState) (d : ℕ) (names : List (List UInt8)) (stop : Stop) : Prop :=
  stop = .panic .ilockNoType ∧ ¬ s.Live d names ∨ stop = .panic .igetNone ∧ s.freeInodes < 2

variable {s : FsState} {held : Multiset (Fin NINODE)} {p : Fin NPROC} {path name : List UInt8} {d : ℕ}

theorem Base.spare_eq (h : Base s held ∅) : s.spare held = s.freeInodes := by
  rw [FsState.spare, FsState.freeInodes]
  congr 2
  funext k
  rw [(h.table.slot k).refs]

/-- `namex` with its buffer returns what the names of the path lead to, or is stuck. -/
theorem namexInto_leads (nameiparent : Bool) (h : Base s held ∅) (hop : 0 < s.outstanding)
    (hcalm : s.Calm) (hstart : s.start p path = some d) (hcwd : (s.proc p).cwd ≠ none)
    (hpath : 0 ∉ path) (hname : name.length = DIRSIZ) :
    wp (namexInto p path nameiparent name) (fun r s' ↦ s.Live d (names path) ∧ s'.node = s.node ∧
      Leads s s' nameiparent d (names path) (seen nameiparent r)) (Stuck s d (names path)) s := by
  have hlive : Stuck s d (names path) (.panic .ilockNoType) ∨
      s.Calm ∧ ∀ d', s.start p path = some d' → s.Live d' (names path) := by
    by_cases hlive : s.Live d (names path)
    · refine .inr ⟨hcalm, fun d' hstart' ↦ ?_⟩
      rw [hstart] at hstart'
      rwa [← Option.some.inj hstart']
    · exact .inl (.inl ⟨rfl, hlive⟩)
  have hspec := namex_leads (E := Stuck s d (names path)) p path nameiparent
    (fun hnone ↦ absurd hnone hcwd)
    (fun hspare ↦ .inr ⟨rfl, by rwa [h.spare_eq] at hspare⟩) h hop hlive
  rw [← seen_namexInto p nameiparent hpath hname, map_eq_pure_bind, wp_bind] at hspec
  refine wp_post hspec ?_
  rintro r s' ⟨⟨hquiet, -⟩, hleads⟩
  obtain ⟨d', hstart', hleads, hlive⟩ := hleads hcalm
  rw [hstart] at hstart'
  obtain rfl := Option.some.inj hstart'
  exact ⟨hlive, hquiet.node hcalm, hleads⟩

/-- Path resolution.  The calls of `skipelem` yield the elements of the path.  `namei` returns what
their names lead to from the root or from the current directory, and `nameiparent` the directory
that all but the last lead to, with the last one in the buffer; but they do so exactly if no name is
looked up in an inode that has been freed, and otherwise the kernel panics.  With less than two free
entries the inode table may be full. -/
theorem path_resolution_iff (h : Base s held ∅) (hop : 0 < s.outstanding) (hcalm : s.Calm)
    (hcwd : (s.proc p).cwd ≠ none) (hpath : 0 ∉ path) (hname : name.length = DIRSIZ) :
    (∃ buffers, skipelems (path.length + 1) path name = some buffers ∧
      List.Forall₂ HoldsName buffers (elements path)) ∧
    ∃ d, s.start p path = some d ∧
      wp (nameiInto p path name) (fun r s' ↦ s.Live d (names path) ∧ s'.node = s.node ∧
        r.map s'.inum = s.resolve d (names path)) (Stuck s d (names path)) s ∧
      wp (nameiparentInto p path name) (fun r s' ↦ s.Live d (names path) ∧ s'.node = s.node ∧
        (r.1.map fun ip ↦ (s'.inum ip, cstr DIRSIZ r.2)) = s.resolveParent d (names path))
        (Stuck s d (names path)) s := by
  refine ⟨skipelems_elements (Nat.lt_succ_self _) hname, ?_⟩
  obtain ⟨d, hstart⟩ : ∃ d, s.start p path = some d := by
    rw [FsState.start]
    split
    · exact ⟨ROOTINO, rfl⟩
    · obtain ⟨ip, hip⟩ := Option.ne_none_iff_exists'.mp hcwd
      exact ⟨s.inum ip, by rw [hip, Option.map_some]⟩
  refine ⟨d, hstart, ?_, ?_⟩
  · rw [nameiInto, wp_bind]
    refine wp_post (namexInto_leads false h hop hcalm hstart hcwd hpath hname) ?_
    rintro ⟨r, buffer⟩ s' ⟨hlive, hnode, hleads⟩
    refine ⟨hlive, hnode, ?_⟩
    rw [← (show _ = s.resolve d (names path) from hleads), seen, Option.map_map]
    rfl
  · refine wp_post (namexInto_leads true h hop hcalm hstart hcwd hpath hname) ?_
    rintro ⟨r, buffer⟩ s' ⟨hlive, hnode, hleads⟩
    refine ⟨hlive, hnode, ?_⟩
    rw [← (show _ = s.resolveParent d (names path) from hleads), seen, Option.map_map]
    rfl

/-- `/.//a` on the empty file system: the parent is the root directory, and the name is `a`. -/
theorem path_resolution_iff_small :
    wp (nameiparentInto initproc [47, 46, 47, 47, 97] (List.replicate DIRSIZ 255)) (fun r s' ↦
      (r.1.map fun ip ↦ (s'.inum ip, cstr DIRSIZ r.2)) = some (ROOTINO, [97]))
      (Stuck { small with outstanding := 1 } ROOTINO [[46], [97]]) { small with outstanding := 1 } := by
  have hbase : Base { small with outstanding := 1 } 0 ∅ := wellFormed_small.base.log 1 []
  have hcalm : FsState.Calm { small with outstanding := 1 } :=
    (calm_format smallSb_wellFormed (by decide) (by decide)).congr rfl fun _ hi ↦ hi
  have hcwd : (FsState.proc { small with outstanding := 1 } initproc).cwd ≠ none := by decide
  have hresolve : FsState.resolveParent { small with outstanding := 1 } ROOTINO [[46], [97]] =
      some (ROOTINO, [97]) := by decide +kernel
  have hop : 0 < FsState.outstanding { small with outstanding := 1 } := Nat.one_pos
  generalize FsState.mk .. = s at *
  have hnames : names [47, 46, 47, 47, 97] = [[46], [97]] := by decide
  have hpath : (0 : UInt8) ∉ ([47, 46, 47, 47, 97] : List UInt8) := by decide
  obtain ⟨-, d, hstart, -, hparent⟩ := path_resolution_iff hbase hop hcalm hcwd hpath
    (List.length_replicate (n := DIRSIZ) (a := 255))
  obtain rfl := Option.some.inj hstart
  rw [hnames, hresolve] at hparent
  exact wp_post hparent fun _ _ hr ↦ hr.2.2

/-- A process makes `a` and `a/b`, changes to `a/b` and removes both; `a` is freed when its last
descriptor is closed. -/
def removeParent : List Action :=
  [.mkdir initproc [97], .open initproc [97] 0, .mkdir initproc [97, 47, 98],
    .chdir initproc [97, 47, 98], .unlink initproc [47, 97, 47, 98], .unlink initproc [47, 97],
    .close initproc 0]

/-- The entry `..` of the current directory names a freed inode: `../x` leads nowhere, but `namei`
panics. -/
theorem removed_parent_panics : ∃ s d, run step small removeParent = .ok s ∧
    s.start initproc [46, 46, 47, 120] = some d ∧
    s.resolve d (names [46, 46, 47, 120]) = none ∧
    (do
      beginOp
      nameiInto initproc [46, 46, 47, 120] (List.replicate DIRSIZ 0)) s =
        .error (.panic .ilockNoType) := by
  have hyields : yields (run step small removeParent) (fun s ↦
      (s.start initproc [46, 46, 47, 120]).map (s.resolve · (names [46, 46, 47, 120])) =
        some none ∧
      stops ((do
        beginOp
        nameiInto initproc [46, 46, 47, 120] (List.replicate DIRSIZ 0)) s)
        (.panic .ilockNoType) = true) = true := by
    decide +kernel
  obtain ⟨s, hrun, hstart, hwalk⟩ := exists_of_yields hyields
  obtain ⟨d, hd, hresolve⟩ := Option.map_eq_some_iff.mp hstart
  exact ⟨s, d, hrun, hd, hresolve, eq_error_of_stops hwalk⟩

end Xv6.Fs
