import Xv6.Fs.Directory
import Xv6.Fs.Elements

/-!
# Paths

`namex` walks a path; it holds one reference and at most one lock at a time, and needs at most two
entries of the inode table.  It changes no file, unless an inode was waiting to be freed, and it
locks only allocated inodes if every entry of every directory names one.  The inode it finds is the
one that the names of the path lead to, one directory after the other.
-/

namespace Xv6.Fs

open Lib

variable {s s' : FsState} {E : Stop → Prop} {held : Multiset (Fin NINODE)}
  {locks : Finset (Fin NINODE)} {ip : Fin NINODE}

/-- The root and every entry of every directory name allocated inodes. -/
structure FsState.Closed (s : FsState) : Prop where
  root : (s.node ROOTINO).type ≠ 0
  entry : ∀ d, (s.node d).type = T_DIR → ∀ k, (s.node d).Entry k →
    (s.node ((s.node d).dirent k).inum).type ≠ 0

/-- Either the panic of `ilock` is allowed, or every path leads to allocated inodes. -/
def Ready (E : Stop → Prop) (s : FsState) : Prop :=
  E (.panic .ilockNoType) ∨ (s.Calm ∧ s.Closed)

/-- Either the panic of `ilock` is allowed, or the inode is allocated. -/
def Lockable (E : Stop → Prop) (s : FsState) (ip : Fin NINODE) : Prop :=
  E (.panic .ilockNoType) ∨ (s.node (s.inum ip)).type ≠ 0

theorem FsState.Closed.congr (hnode : s'.node = s.node) (h : s.Closed) : s'.Closed where
  root := by rw [hnode]; exact h.root
  entry := by rw [hnode]; exact h.entry

theorem Ready.quiet (h : Ready E s) (hquiet : Quiet s s' held) : Ready E s' :=
  h.imp id fun ⟨hcalm, hclosed⟩ ↦
    ⟨hquiet.calm (hquiet.node hcalm) hcalm, hclosed.congr (hquiet.node hcalm)⟩

theorem Lockable.quiet (h : Lockable E s ip) (hready : Ready E s) (hquiet : Quiet s s' held)
    (hip : ip ∈ held) : Lockable E s' ip := by
  rcases h with h | h
  · exact .inl h
  · refine hready.imp id fun ⟨hcalm, _⟩ ↦ ?_
    rw [hquiet.node hcalm, hquiet.inum ip (by have := Multiset.count_pos.mpr hip; omega)]
    exact h

theorem Lockable.allocated (h : Lockable E s ip) :
    E (.panic .ilockNoType) ∨ Allocated s.sb s.inodes (s.inum ip) :=
  h.imp id fun htype ↦ allocated_iff_type.mpr (by rwa [node_type] at htype)

/-- `iunlockput` by a call whose reference nobody waits for. -/
theorem iunlockput_quiet (h : Base s (ip ::ₘ held) locks) (hip : ip ∈ locks)
    (hop : 0 < s.outstanding) :
    wp (iunlockput ip) (fun _ s' ↦ Base s' held (locks.erase ip) ∧ Quiet s s' held) E s :=
  wp_post (iunlockput_spec h hip hop) fun _ _ hr ↦ ⟨hr.1, .ofPuts h hr.2⟩

/-- What `namex` returns: nothing, or a reference to an inode. -/
def Walk (s : FsState) (held : Multiset (Fin NINODE)) (r : Option (Fin NINODE × List UInt8))
    (s' : FsState) : Prop :=
  Quiet s s' held ∧ match r with
    | none => Base s' held ∅
    | some (ip, _) => Base s' (ip ::ₘ held) ∅

theorem Walk.quiet {t : FsState} {r : Option (Fin NINODE × List UInt8)} (h : Walk t held r s')
    (hquiet : Quiet s t held) : Walk s held r s' :=
  ⟨hquiet.trans h.1, h.2⟩

/-- The same, and the inode can be locked. -/
def Walked (E : Stop → Prop) (s : FsState) (held : Multiset (Fin NINODE))
    (r : Option (Fin NINODE × List UInt8)) (s' : FsState) : Prop :=
  Quiet s s' held ∧ match r with
    | none => Base s' held ∅
    | some (ip, _) => Base s' (ip ::ₘ held) ∅ ∧ Lockable E s' ip

/-! ## What a path leads to -/

/-- The i-number that a name is bound to in directory `d`. -/
def FsState.child (s : FsState) (d : ℕ) (name : List UInt8) : Option ℕ :=
  if (s.node d).type = T_DIR then ((s.node d).lookup (cstr DIRSIZ name)).map Prod.fst else none

/-- The inode that names lead to from inode `d`. -/
def FsState.resolve (s : FsState) (d : ℕ) (names : List (List UInt8)) : Option ℕ :=
  names.foldlM s.child d

/-- The directory that all names but the last lead to, and the last name. -/
def FsState.resolveParent (s : FsState) (d : ℕ) (names : List (List UInt8)) :
    Option (ℕ × List UInt8) :=
  match names.getLast? with
  | none => none
  | some name => (s.resolve d names.dropLast).bind fun d' ↦
    if (s.node d').type = T_DIR then some (d', name) else none

theorem FsState.child_congr (hnode : s'.node = s.node) : s'.child = s.child := by
  funext d name
  rw [FsState.child, FsState.child, hnode]

theorem FsState.resolve_congr (hnode : s'.node = s.node) : s'.resolve = s.resolve := by
  funext d names
  rw [FsState.resolve, FsState.resolve, FsState.child_congr hnode]

theorem FsState.resolveParent_congr (hnode : s'.node = s.node) :
    s'.resolveParent = s.resolveParent := by
  funext d names
  rw [FsState.resolveParent, FsState.resolveParent, FsState.resolve_congr hnode, hnode]

theorem FsState.resolve_cons (s : FsState) (d : ℕ) (name : List UInt8) (names : List (List UInt8)) :
    s.resolve d (name :: names) = (s.child d name).bind (s.resolve · names) :=
  List.foldlM_cons ..

theorem FsState.resolveParent_singleton (s : FsState) (d : ℕ) (name : List UInt8) :
    s.resolveParent d [name] = if (s.node d).type = T_DIR then some (d, name) else none := rfl

theorem FsState.resolveParent_cons (s : FsState) (d : ℕ) (name : List UInt8)
    {names : List (List UInt8)} (h : names ≠ []) :
    s.resolveParent d (name :: names) = (s.child d name).bind (s.resolveParent · names) := by
  obtain ⟨init, last, rfl⟩ : ∃ init last, names = init ++ [last] :=
    ⟨_, _, (List.dropLast_append_getLast h).symm⟩
  rw [FsState.resolveParent, ← List.cons_append, List.getLast?_concat, List.dropLast_concat,
    FsState.resolve_cons]
  dsimp only
  rw [Option.bind_assoc]
  congr 1
  funext d'
  rw [FsState.resolveParent, List.getLast?_concat, List.dropLast_concat]

/-- Nothing is bound in an inode that is not a directory. -/
theorem FsState.child_of_type {d : ℕ} (h : (s.node d).type ≠ T_DIR) (name : List UInt8) :
    s.child d name = none := if_neg h

theorem FsState.resolveParent_of_type {d : ℕ} (h : (s.node d).type ≠ T_DIR) (name : List UInt8)
    (names : List (List UInt8)) : s.resolveParent d (name :: names) = none := by
  by_cases hnames : names = []
  · rw [hnames, FsState.resolveParent_singleton, if_neg h]
  · rw [FsState.resolveParent_cons s d name hnames, FsState.child_of_type h, Option.bind_none]

/-- Every inode in which one of the names is looked up, starting with `d`, is allocated. -/
def FsState.Live (s : FsState) : ℕ → List (List UInt8) → Prop
  | _, [] => True
  | d, name :: names => (s.node d).type ≠ 0 ∧ ∀ d', s.child d name = some d' → s.Live d' names

theorem FsState.live_congr (hnode : s'.node = s.node) (d : ℕ) (names : List (List UInt8)) :
    s'.Live d names ↔ s.Live d names := by
  induction names generalizing d with
  | nil => exact Iff.rfl
  | cons name names ih =>
    rw [FsState.Live, FsState.Live, hnode, FsState.child_congr hnode]
    exact and_congr_right fun _ ↦ forall₂_congr fun d' _ ↦ ih d'

/-- In a file system whose entries name allocated inodes, an allocated inode has allocated
children. -/
theorem FsState.Closed.child (h : s.Closed) {d d' : ℕ} {name : List UInt8}
    (hchild : s.child d name = some d') : (s.node d').type ≠ 0 := by
  rw [FsState.child] at hchild
  split at hchild
  · rename_i hdir
    obtain ⟨⟨i, off⟩, hlookup, rfl⟩ := Option.map_eq_some_iff.mp hchild
    obtain ⟨k, hfind, hk⟩ := Option.map_eq_some_iff.mp hlookup
    have hentry := List.find?_some hfind
    rw [decide_eq_true_eq] at hentry
    obtain ⟨rfl, -⟩ := Prod.mk.inj hk
    exact h.entry d hdir k hentry.1
  · cases hchild

theorem FsState.Closed.live (h : s.Closed) {d : ℕ} (hd : (s.node d).type ≠ 0)
    (names : List (List UInt8)) : s.Live d names := by
  induction names generalizing d with
  | nil => trivial
  | cons name names ih => exact ⟨hd, fun d' hchild ↦ ih (h.child hchild)⟩

theorem FsState.Closed.resolve (h : s.Closed) {d i : ℕ} {names : List (List UInt8)}
    (hd : (s.node d).type ≠ 0) (hi : s.resolve d names = some i) : (s.node i).type ≠ 0 := by
  induction names generalizing d with
  | nil =>
    obtain rfl := Option.some.inj hi
    exact hd
  | cons name names ih =>
    rw [FsState.resolve_cons] at hi
    obtain ⟨d', hchild, hi⟩ := Option.bind_eq_some_iff.mp hi
    exact ih (h.child hchild) hi

/-- The result of `namex` is what the names lead to from inode `d`. -/
def Leads (s s' : FsState) (nameiparent : Bool) (d : ℕ) (names : List (List UInt8))
    (r : Option (Fin NINODE × List UInt8)) : Prop :=
  if nameiparent then (r.map fun x ↦ (s'.inum x.1, x.2)) = s.resolveParent d names
  else (r.map fun x ↦ s'.inum x.1) = s.resolve d names

theorem Leads.of_type {nameiparent : Bool} {d : ℕ} (h : (s.node d).type ≠ T_DIR)
    (name : List UInt8) (names : List (List UInt8)) :
    Leads s s' nameiparent d (name :: names) none := by
  rw [Leads]
  split
  · rw [FsState.resolveParent_of_type h]
    rfl
  · rw [FsState.resolve_cons, FsState.child_of_type h]
    rfl

/-- A name that is not the last of a path to a parent leads to its inode, and on from there. -/
theorem Leads.cons {nameiparent : Bool} {d : ℕ} {name : List UInt8} {names : List (List UInt8)}
    {r : Option (Fin NINODE × List UInt8)} (hlast : nameiparent = true → names ≠ [])
    (h : match s.child d name with
      | none => r = none
      | some d' => Leads s s' nameiparent d' names r) :
    Leads s s' nameiparent d (name :: names) r := by
  rw [Leads] at *
  split
  · rename_i hparent
    rw [FsState.resolveParent_cons s d name (hlast hparent)]
    cases hchild : s.child d name with
    | none =>
      rw [hchild] at h
      rw [h]
      rfl
    | some d' =>
      rw [hchild] at h
      dsimp only at h
      rwa [Leads, if_pos hparent] at h
  · rename_i hparent
    rw [FsState.resolve_cons]
    cases hchild : s.child d name with
    | none =>
      rw [hchild] at h
      rw [h]
      rfl
    | some d' =>
      rw [hchild] at h
      dsimp only at h
      rwa [Leads, if_neg hparent] at h

theorem Leads.congr {t : FsState} {nameiparent : Bool} {d : ℕ} {names : List (List UInt8)}
    {r : Option (Fin NINODE × List UInt8)} (h : Leads t s' nameiparent d names r)
    (hnode : t.node = s.node) : Leads s s' nameiparent d names r := by
  rwa [Leads, FsState.resolveParent_congr hnode, FsState.resolve_congr hnode] at h

/-- The inode returned is allocated in a file system whose entries name allocated inodes. -/
theorem Leads.type {nameiparent : Bool} {d : ℕ} {names : List (List UInt8)} {ip : Fin NINODE}
    {name : List UInt8} (h : Leads s s' nameiparent d names (some (ip, name))) (hclosed : s.Closed)
    (hd : (s.node d).type ≠ 0) : (s.node (s'.inum ip)).type ≠ 0 := by
  rw [Leads, Option.map_some, Option.map_some] at h
  split at h
  · rw [FsState.resolveParent] at h
    split at h
    · cases h
    · obtain ⟨i, -, hi⟩ := Option.bind_eq_some_iff.mp h.symm
      split at hi
      · rename_i hdir
        obtain ⟨rfl, -⟩ := Prod.mk.inj (Option.some.inj hi)
        rw [hdir]
        decide
      · cases hi
  · exact hclosed.resolve hd h.symm

/-- What `dirlookup` finds is the child. -/
theorem Found.child {t : FsState} {dp ip : Fin NINODE} {name : List UInt8} {off j : ℕ}
    (h : Found s s' held locks dp name ip off j) (hdir : (s.node (s.inum dp)).type = T_DIR)
    (hnode : s.node = t.node) : t.child (s.inum dp) name = some (s'.inum ip) := by
  rw [← FsState.child_congr hnode, FsState.child, if_pos hdir,
    Node.lookup_first h.finds h.first, Option.map_some, h.inum]

/-! ## The walk -/

/-- The entries of the inode table without a reference, apart from those in `held`. -/
def FsState.spare (s : FsState) (held : Multiset (Fin NINODE)) : ℕ :=
  (Finset.univ.filter fun k ↦ s.uses k + held.count k = 0).card

/-- If the table is full and one reference more is held, at most one entry is spare. -/
theorem Base.spare_lt (h : Base s (ip ::ₘ held) locks) (hfull : ∀ k, (s.itable k).ref ≠ 0) :
    s.spare held < 2 := by
  refine lt_of_le_of_lt (Finset.card_le_card (t := {ip}) fun k hk ↦ ?_) (by simp)
  rw [Finset.mem_singleton]
  by_contra hne
  have hrefs := (h.table.slot k).refs
  rw [Multiset.count_cons_of_ne hne, (Finset.mem_filter.mp hk).2] at hrefs
  exact hfull k hrefs

/-- The loop of `namex`. -/
theorem namexLoop_spec (nameiparent : Bool) {fuel : ℕ} {path : List UInt8}
    (hroom : s.spare held < 2 → E (.panic .igetNone))
    (hfuel : path.length < fuel) (h : Base s (ip ::ₘ held) ∅) (hop : 0 < s.outstanding)
    (hlive : E (.panic .ilockNoType) ∨ s.Calm ∧ s.Live (s.inum ip) (names path)) :
    wp (namexLoop nameiparent fuel path ip) (fun r s' ↦ Walk s held r s' ∧ (s.Calm →
      Leads s s' nameiparent (s.inum ip) (names path) r ∧ s.Live (s.inum ip) (names path))) E s := by
  induction fuel generalizing s path ip with
  | zero => omega
  | succ fuel ih =>
    have hmem : ip ∈ ip ::ₘ held := Multiset.mem_cons_self ip held
    have hle : held ≤ ip ::ₘ held := Multiset.le_cons_self held ip
    have hcount : 0 < s.uses ip + (ip ::ₘ held).count ip := by
      rw [Multiset.count_cons_self]
      omega
    rw [namexLoop]
    split
    · rename_i hskip
      have hnames : names path = [] := by rw [names, skipelem_none hskip, List.map_nil]
      rw [hnames]
      split
      · rename_i hparent
        rw [wp_bind]
        refine wp_post (iput_spec h (by simp) hop) ?_
        rintro _ s' ⟨hbase, hputs⟩
        refine ⟨⟨.ofPuts h hputs, hbase⟩, fun _ ↦ ⟨?_, trivial⟩⟩
        rw [Leads, if_pos hparent]
        rfl
      · rename_i hparent
        refine ⟨⟨.ofKeeps ⟨.refl _ _, rfl⟩, h⟩, fun _ ↦ ⟨?_, trivial⟩⟩
        rw [Leads, if_neg hparent]
        rfl
    · rename_i rest name hskip
      obtain ⟨e, rfl, hskips⟩ := skipelem_some hskip
      have hnames : names path = e.take DIRSIZ :: names rest := by
        rw [names, hskips.first, List.map_cons, names]
      have hmore : names rest = [] → rest = [] := fun hnil ↦
        hskips.last (List.map_eq_nil_iff.mp hnil)
      rw [hnames] at hlive ⊢
      rw [wp_bind]
      refine wp_post (ilock_spec h (h.refs_of_mem hmem) (fun hip ↦ absurd hip (by simp))
        (hlive.imp id fun hlive ↦ allocated_iff_type.mpr ?_)) ?_
      · rw [← node_type]
        exact hlive.2.1
      rintro _ s₁ ⟨-, h₁, hkeeps₁⟩
      have hq₁ : Quiet s s₁ held := (Quiet.ofKeeps hkeeps₁).mono hle
      have hop₁ : 0 < s₁.outstanding := by rwa [hkeeps₁.outstanding]
      have hlocked : ip ∈ insert ip (∅ : Finset (Fin NINODE)) := by simp
      have herase : (insert ip (∅ : Finset (Fin NINODE))).erase ip = ∅ := by simp
      have hinum₁ : s₁.inum ip = s.inum ip := hkeeps₁.inum ip hcount
      have htype₁ : (s.node (s.inum ip)).type ≠ 0 := by
        rw [← hinum₁, ← hkeeps₁.node, node_type]
        exact (h₁.allocated (h₁.refs_of_lock hlocked) (h₁.valid_of_lock hlocked)).2
      have hroom₁ : (∀ k, (s₁.itable k).ref ≠ 0) → E (.panic .igetNone) := by
        intro hfull
        refine hroom ?_
        have hspare := h₁.spare_lt hfull
        rwa [FsState.spare, hkeeps₁.uses] at hspare
      -- The ways to fail give up the lock and the reference.
      have hfail : Leads s s₁ nameiparent (s.inum ip) (e.take DIRSIZ :: names rest) none →
          s.child (s.inum ip) (e.take DIRSIZ) = none →
          wp (do
            iunlockput ip
            return none) (fun r s' ↦ Walk s held r s' ∧ (s.Calm →
              Leads s s' nameiparent (s.inum ip) (e.take DIRSIZ :: names rest) r ∧
              s.Live (s.inum ip) (e.take DIRSIZ :: names rest))) E s₁ := by
        intro hleads hchild
        rw [wp_bind]
        refine wp_post (iunlockput_quiet h₁ hlocked hop₁) ?_
        rintro _ s₂ ⟨h₂, hq₂⟩
        rw [herase] at h₂
        refine ⟨⟨hq₁.trans hq₂, h₂⟩, fun _ ↦ ⟨hleads, htype₁, fun d' hd' ↦ ?_⟩⟩
        rw [hchild] at hd'
        cases hd'
      rw [wp_bind, wp_inode, h₁.copy_type hlocked, hinum₁, hkeeps₁.node]
      split
      · rename_i htype
        exact hfail (.of_type htype _ _) (FsState.child_of_type htype _)
      · rename_i htype
        rw [not_not] at htype
        have hdir : (s₁.node (s₁.inum ip)).type = T_DIR := by
          rwa [hinum₁, hkeeps₁.node]
        split
        · rename_i hparent
          rw [wp_bind]
          refine wp_post (iunlock_spec h₁ hlocked) ?_
          rintro _ s₂ ⟨h₂, hkeeps₂⟩
          rw [herase] at h₂
          have hkeeps := hkeeps₁.trans hkeeps₂
          have hnone : names rest = [] := by rw [hparent.2]; rfl
          rw [hnone]
          refine ⟨⟨.ofKeeps (hkeeps.mono hle), h₂⟩, fun _ ↦ ⟨?_, htype₁, fun _ _ ↦ trivial⟩⟩
          rw [Leads, if_pos hparent.1, FsState.resolveParent_singleton, if_pos htype,
            Option.map_some, hkeeps.inum ip hcount]
        · rename_i hgo
          have hlast : nameiparent = true → names rest ≠ [] := fun hparent hnil ↦
            hgo ⟨hparent, hmore hnil⟩
          rw [wp_bind]
          refine wp_post (dirlookup_dir h₁ hlocked hdir _ fun _ ↦ hroom₁) ?_
          rintro (_ | ⟨next, off⟩) s₂ hr
          · obtain ⟨rfl, hnot⟩ := hr
            have hchild : s.child (s.inum ip) (e.take DIRSIZ) = none := by
              rw [← hinum₁, ← FsState.child_congr hkeeps₁.node, FsState.child, if_pos hdir,
                Node.lookup_eq_none hnot, Option.map_none]
            refine hfail (.cons hlast ?_) hchild
            rw [hchild]
          · obtain ⟨j, hfound⟩ := hr
            have h₂ := hfound.base
            rw [Multiset.cons_swap] at h₂
            have hq₂ : Quiet s₁ s₂ held := .ofKeeps (hfound.keeps.mono hle)
            have hchild := hfound.child hdir hkeeps₁.node
            rw [hinum₁] at hchild
            rw [wp_bind]
            refine wp_post (iunlockput_quiet h₂ hlocked
              (by rwa [hfound.keeps.outstanding])) ?_
            rintro _ s₃ ⟨h₃, hq₃⟩
            rw [herase] at h₃
            have hle' : held ≤ next ::ₘ held := Multiset.le_cons_self held next
            have hq := (hq₁.trans hq₂).trans (hq₃.mono hle')
            have hinum₃ : s₃.inum next = s₂.inum next := hq₃.inum next (by
              rw [Multiset.count_cons_self]
              omega)
            have hshorter := length_skipelem hskip
            have hlive₃ : E (.panic .ilockNoType) ∨
                s₃.Calm ∧ s₃.Live (s₃.inum next) (names rest) := by
              refine hlive.imp id fun ⟨hcalm, hlive⟩ ↦ ⟨hq.calm (hq.node hcalm) hcalm, ?_⟩
              rw [FsState.live_congr (hq.node hcalm), hinum₃]
              exact hlive.2 _ hchild
            refine wp_post (ih (by rwa [FsState.spare, hq.uses]) (by omega) h₃
              (by rw [hq.outstanding]; exact hop) hlive₃) ?_
            rintro r s' ⟨hwalk, hleads⟩
            refine ⟨hwalk.quiet hq, fun hcalm ↦ ?_⟩
            obtain ⟨hleads, hlive⟩ := hleads (hq.calm (hq.node hcalm) hcalm)
            rw [FsState.live_congr (hq.node hcalm), hinum₃] at hlive
            have hleads := hleads.congr (hq.node hcalm)
            rw [hinum₃] at hleads
            refine ⟨.cons hlast ?_, htype₁, fun d' hd' ↦ ?_⟩
            · rw [hchild]
              exact hleads
            · rw [hchild] at hd'
              obtain rfl := Option.some.inj hd'
              exact hlive

/-- The current directory is in use. -/
theorem FsState.uses_cwd {p : Fin NPROC} (h : (s.proc p).cwd = some ip) : 0 < s.uses ip := by
  refine Nat.add_pos_right _ (Finset.card_pos.mpr ⟨p, ?_⟩)
  simpa using h

/-- An inode in use is allocated. -/
theorem Base.used_type (h : Base s held locks) (hip : 0 < s.uses ip) :
    (s.node (s.inum ip)).type ≠ 0 := by
  rw [node_type]
  exact ((h.table.slot ip).used hip).1

/-- Where `namex` starts. -/
def FsState.start (s : FsState) (p : Fin NPROC) (path : List UInt8) : Option ℕ :=
  if path.head? = some slash then some ROOTINO else (s.proc p).cwd.map s.inum

/-- `namex` returns what the names of the path lead to. -/
theorem namex_leads (p : Fin NPROC) (path : List UInt8) (nameiparent : Bool)
    (hcwd : (s.proc p).cwd = none → E .disabled)
    (hroom : s.spare held < 2 → E (.panic .igetNone))
    (h : Base s held ∅) (hop : 0 < s.outstanding)
    (hlive : E (.panic .ilockNoType) ∨
      s.Calm ∧ ∀ d, s.start p path = some d → s.Live d (names path)) :
    wp (namex p path nameiparent) (fun r s' ↦ Walk s held r s' ∧ (s.Calm → ∃ d,
      s.start p path = some d ∧ Leads s s' nameiparent d (names path) r ∧
      s.Live d (names path))) E s := by
  -- The loop starts with a reference to the inode `d`.
  have hloop : ∀ (ip : Fin NINODE) (s₁ : FsState) (d : ℕ), s.start p path = some d →
      Base s₁ (ip ::ₘ held) ∅ → Keeps s s₁ held → s₁.inum ip = d →
      wp (namexLoop nameiparent (path.length + 1) path ip) (fun r s' ↦ Walk s held r s' ∧
        (s.Calm → ∃ d, s.start p path = some d ∧ Leads s s' nameiparent d (names path) r ∧
        s.Live d (names path))) E s₁ := by
    rintro ip s₁ d hstart h₁ hkeeps rfl
    have hlive₁ : E (.panic .ilockNoType) ∨ s₁.Calm ∧ s₁.Live (s₁.inum ip) (names path) := by
      refine hlive.imp id fun ⟨hcalm, hlive⟩ ↦ ⟨hkeeps.calm hkeeps.node hcalm, ?_⟩
      rw [FsState.live_congr hkeeps.node]
      exact hlive _ hstart
    refine wp_post (namexLoop_spec nameiparent (by rwa [FsState.spare, hkeeps.uses]) (by omega) h₁
      (by rwa [hkeeps.outstanding]) hlive₁) ?_
    rintro r s' ⟨hwalk, hleads⟩
    refine ⟨hwalk.quiet (.ofKeeps hkeeps), fun hcalm ↦ ⟨_, hstart, ?_⟩⟩
    obtain ⟨hleads, hlive⟩ := hleads (hkeeps.calm hkeeps.node hcalm)
    exact ⟨hleads.congr hkeeps.node, (FsState.live_congr hkeeps.node _ _).mp hlive⟩
  rw [namex]
  split
  · rename_i hroot
    rw [wp_bind]
    refine wp_post (iget_spec h ⟨by decide, h.sb.root⟩ fun hfull ↦ hroom ?_) ?_
    · refine lt_of_le_of_lt (le_of_eq (Finset.card_eq_zero.mpr ?_)) Nat.zero_lt_two
      refine Finset.filter_eq_empty_iff.mpr fun k _ ↦ ?_
      rw [← (h.table.slot k).refs]
      exact hfull k
    · rintro ip s₁ ⟨h₁, hkeeps, hinum, -⟩
      exact hloop ip s₁ ROOTINO (if_pos hroot) h₁ hkeeps hinum
  · rename_i hroot
    rw [cwd, wp_bind, wp_bind, wp_get]
    split
    · rename_i ip hcwd
      have huses : 0 < s.uses ip := FsState.uses_cwd hcwd
      rw [wp_pure, wp_bind]
      refine wp_post (idup_spec h (h.refs_pos (by omega))) ?_
      rintro ip s₁ ⟨rfl, h₁, hkeeps, hinum⟩
      refine hloop ip s₁ (s.inum ip) ?_ h₁ hkeeps hinum
      rw [FsState.start, if_neg hroot, hcwd, Option.map_some]
    · rename_i hnone
      exact hcwd hnone

/-- Paths start at an allocated inode. -/
theorem Base.start_type (h : Base s held locks) (hclosed : s.Closed) {p : Fin NPROC}
    {path : List UInt8} {d : ℕ} (hstart : s.start p path = some d) : (s.node d).type ≠ 0 := by
  rw [FsState.start] at hstart
  split at hstart
  · obtain rfl := Option.some.inj hstart
    exact hclosed.root
  · obtain ⟨ip, hcwd, rfl⟩ := Option.map_eq_some_iff.mp hstart
    exact h.used_type (FsState.uses_cwd hcwd)

theorem namex_spec (hE : Allows E) (p : Fin NPROC) (path : List UInt8) (nameiparent : Bool)
    (h : Base s held ∅) (hop : 0 < s.outstanding) (hready : Ready E s) :
    wp (namex p path nameiparent) (Walked E s held) E s := by
  refine wp_post (namex_leads p path nameiparent (fun _ ↦ hE _ (by simp)) (fun _ ↦ hE _ (by simp))
    h hop (hready.imp id fun ⟨hcalm, hclosed⟩ ↦
      ⟨hcalm, fun d hstart ↦ hclosed.live (h.start_type hclosed hstart) _⟩)) ?_
  rintro (_ | ⟨ip, name⟩) s' ⟨⟨hquiet, hbase⟩, hleads⟩
  · exact ⟨hquiet, hbase⟩
  · refine ⟨hquiet, hbase, hready.imp id fun ⟨hcalm, hclosed⟩ ↦ ?_⟩
    obtain ⟨d, hstart, hleads, -⟩ := hleads hcalm
    rw [hquiet.node hcalm]
    exact hleads.type hclosed (h.start_type hclosed hstart)

/-- `namei` returns a reference to the inode of the path. -/
theorem namei_spec (hE : Allows E) (p : Fin NPROC) (path : List UInt8) (h : Base s held ∅)
    (hop : 0 < s.outstanding) (hready : Ready E s) :
    wp (namei p path) (fun r s' ↦ Quiet s s' held ∧ match r with
      | none => Base s' held ∅
      | some ip => Base s' (ip ::ₘ held) ∅ ∧ Lockable E s' ip) E s := by
  rw [namei, wp_bind]
  refine wp_post (namex_spec hE p path false h hop hready) ?_
  rintro (_ | ⟨ip, name⟩) s' hr
  · exact hr
  · exact hr

end Xv6.Fs
