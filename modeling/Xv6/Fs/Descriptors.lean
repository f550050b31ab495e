import Xv6.Fs.Calls
import Xv6.Fs.Layer

/-!
# Descriptors, Open Files and Pipes

The number of references in an open file is the number of descriptors that point to it, and pipes
live exactly as long as their ends.  Inside a call some references are not in a descriptor yet, or
no longer: `held` are those of the running call, which changes the descriptors of process `p` only.
-/

namespace Xv6.Fs

open Lib

variable {s s' s₀ : FsState} {held : Multiset (Fin NFILE)} {p : Fin NPROC} {f : Fin NFILE}

/-! ## What is counted -/

/-- A descriptor of a process. -/
def FsState.descriptor (s : FsState) (slot : Fin NPROC × Fin NOFILE) : Option (Fin NFILE) :=
  (s.proc slot.1).ofile slot.2

/-- The number of descriptors that point to an open file. -/
def FsState.slots (s : FsState) (f : Fin NFILE) : ℕ :=
  (Finset.univ.filter fun slot ↦ s.descriptor slot = some f).card

/-- The file is an end of the pipe in page `pi`: the write end or the read end. -/
def File.IsEnd (file : File) (pi : ℕ) (writable : Bool) : Prop :=
  file.type = .pipe ∧ file.pipe = pi ∧ file.writable = writable

/-- The flag of one end of a pipe. -/
def Pipe.isOpen (pipe : Pipe) (writable : Bool) : Bool :=
  if writable then pipe.writeopen else pipe.readopen

/-- Pages are allocated to pipes with an end, and their flags tell which ends there are. -/
structure PipesOk (s : FsState) : Prop where
  mode : ∀ f, (s.ftable f).type = .pipe → (s.ftable f).readable = !(s.ftable f).writable
  unique : ∀ pi w f g, (s.ftable f).IsEnd pi w → (s.ftable g).IsEnd pi w → f = g
  page : ∀ pi, s.pages pi = true ↔ ∃ w f, (s.ftable f).IsEnd pi w
  opened : ∀ pi w, s.pages pi = true →
    ((s.pipe pi).isOpen w = true ↔ ∃ f, (s.ftable f).IsEnd pi w)

/-- The counts are exact. -/
structure Counts (held : Multiset (Fin NFILE)) (s : FsState) : Prop where
  refs : ∀ f, (s.ftable f).ref = s.slots f + held.count f
  unused : ∀ f, (s.ftable f).ref = 0 → (s.ftable f).type = .none
  pipes : PipesOk s

/-- The counts are exact; since the call started in `s₀`, only process `p` has changed. -/
structure Exact (s₀ : FsState) (p : Fin NPROC) (held : Multiset (Fin NFILE)) (s : FsState) :
    Prop extends Counts held s where
  others : ∀ q, q ≠ p → s.proc q = s₀.proc q
  live : (s₀.proc p).cwd ≠ none → (s.proc p).cwd ≠ none

/-! ## Changes to the tables -/

/-- Only the tables matter. -/
theorem Exact.congr (h : Exact s₀ p held s) (heq : s'.tables = s.tables) :
    Exact s₀ p held s' := by
  have hftable : s'.ftable = s.ftable := congrArg Tables.ftable heq
  have hproc : s'.proc = s.proc := congrArg Tables.proc heq
  have hpages : s'.pages = s.pages := congrArg Tables.pages heq
  have hpipe : s'.pipe = s.pipe := congrArg Tables.pipe heq
  have hdescriptor : s'.descriptor = s.descriptor := by
    funext slot
    rw [FsState.descriptor, FsState.descriptor, hproc]
  have hslots : s'.slots = s.slots := by
    funext f
    rw [FsState.slots, FsState.slots, hdescriptor]
  refine ⟨⟨?_, ?_, ⟨?_, ?_, ?_, ?_⟩⟩, ?_, ?_⟩
  · simpa only [hftable, hslots] using h.refs
  · simpa only [hftable] using h.unused
  · simpa only [hftable] using h.pipes.mode
  · simpa only [hftable] using h.pipes.unique
  · simpa only [hftable, hpages] using h.pipes.page
  · simpa only [hftable, hpages, hpipe] using h.pipes.opened
  · simpa only [hproc] using h.others
  · simpa only [hproc] using h.live

/-- Code that leaves the tables alone. -/
theorem Exact.keep {α : Type} {x : FsM α} (hx : Preserves FsState.tables NotRefs x)
    (h : Exact s₀ p held s) : wp x (fun _ s' ↦ Exact s₀ p held s') NotRefs s :=
  wp_post (hx s) fun _ _ heq ↦ h.congr heq

/-- An open file changes and stays the same end of the same pipe. -/
theorem PipesOk.putFile (h : PipesOk s) {file : File}
    (hend : ∀ pi w, file.IsEnd pi w ↔ (s.ftable f).IsEnd pi w)
    (hmode : file.type = .pipe → file.readable = !file.writable) : PipesOk (s.putFile f file) := by
  have hiff : ∀ g pi w, (Function.update s.ftable f file g).IsEnd pi w ↔
      (s.ftable g).IsEnd pi w := by
    intro g pi w
    by_cases hg : g = f
    · rw [hg, Function.update_self, hend]
    · rw [Function.update_of_ne hg]
  refine ⟨fun g ↦ ?_, ?_, ?_, ?_⟩
  · change (Function.update s.ftable f file g).type = .pipe → _
    by_cases hg : g = f
    · simpa only [FsState.putFile, hg, Function.update_self] using hmode
    · simpa only [FsState.putFile, Function.update_of_ne hg] using h.mode g
  · simpa only [FsState.putFile, hiff] using h.unique
  · simpa only [FsState.putFile, hiff] using h.page
  · simpa only [FsState.putFile, hiff] using h.opened

/-- An open file changes, and with it the references of the call and the pipes. -/
theorem Exact.replace {held' : Multiset (Fin NFILE)} (h : Exact s₀ p held s) {file : File}
    (pages : ℕ → Bool) (pipe : ℕ → Pipe) (href : file.ref = s.slots f + held'.count f)
    (hcount : ∀ g, g ≠ f → held'.count g = held.count g) (hunused : file.ref = 0 → file.type = .none)
    (hpipes : PipesOk { s.putFile f file with pages := pages, pipe := pipe }) :
    Exact s₀ p held' { s.putFile f file with pages := pages, pipe := pipe } := by
  refine ⟨⟨fun g ↦ ?_, fun g ↦ ?_, hpipes⟩, h.others, h.live⟩
  · change (Function.update s.ftable f file g).ref = s.slots g + held'.count g
    by_cases hg : g = f
    · rw [hg, Function.update_self, href]
    · rw [Function.update_of_ne hg, hcount g hg, h.refs]
  · change (Function.update s.ftable f file g).ref = 0 →
      (Function.update s.ftable f file g).type = .none
    by_cases hg : g = f
    · rw [hg, Function.update_self]
      exact hunused
    · rw [Function.update_of_ne hg]
      exact h.unused g

/-- An open file changes, and with it the references of the call. -/
theorem Exact.putFile {held' : Multiset (Fin NFILE)} (h : Exact s₀ p held s) {file : File}
    (href : file.ref = s.slots f + held'.count f) (hcount : ∀ g, g ≠ f → held'.count g = held.count g)
    (hunused : file.ref = 0 → file.type = .none) (hpipes : PipesOk (s.putFile f file)) :
    Exact s₀ p held' (s.putFile f file) :=
  h.replace s.pages s.pipe href hcount hunused hpipes

/-- The number of references changes, and nothing else. -/
theorem Exact.setRef {held' : Multiset (Fin NFILE)} (h : Exact s₀ p held s) {ref : ℕ}
    (href : ref = s.slots f + held'.count f) (hcount : ∀ g, g ≠ f → held'.count g = held.count g)
    (hpos : 0 < ref) : Exact s₀ p held' (s.putFile f { s.ftable f with ref := ref }) :=
  h.putFile href hcount (fun hzero ↦ absurd hzero hpos.ne')
    (h.pipes.putFile (fun _ _ ↦ Iff.rfl) (h.pipes.mode f))

/-- One descriptor of the process changes. -/
theorem slots_putOfile (s : FsState) (p : Fin NPROC) (fd : Fin NOFILE) (new : Option (Fin NFILE))
    (f : Fin NFILE) :
    (s.putProc p { s.proc p with ofile := Function.update (s.proc p).ofile fd new }).slots f +
      (if (s.proc p).ofile fd = some f then 1 else 0) = s.slots f + if new = some f then 1 else 0 := by
  have hupdate : (s.putProc p { s.proc p with
      ofile := Function.update (s.proc p).ofile fd new }).descriptor =
      Function.update s.descriptor (p, fd) new := by
    funext ⟨q, fd'⟩
    change (Function.update s.proc p _ q).ofile fd' = _
    by_cases hq : q = p
    · subst hq
      rw [Function.update_self]
      dsimp only
      by_cases hfd : fd' = fd
      · rw [hfd, Function.update_self, Function.update_self]
      · rw [Function.update_of_ne hfd, Function.update_of_ne fun heq ↦ hfd (Prod.ext_iff.mp heq).2]
        rfl
    · rw [Function.update_of_ne hq, Function.update_of_ne fun heq ↦ hq (Prod.ext_iff.mp heq).1]
      rfl
  rw [FsState.slots, FsState.slots, hupdate]
  exact card_filter_update s.descriptor (p, fd) new (· = some f)

/-- A reference moves between a descriptor and the call. -/
theorem Exact.setOfile {held' : Multiset (Fin NFILE)} (h : Exact s₀ p held s) (fd : Fin NOFILE)
    (new : Option (Fin NFILE))
    (hcount : ∀ f, held'.count f + (if new = some f then 1 else 0) =
      held.count f + if (s.proc p).ofile fd = some f then 1 else 0) :
    Exact s₀ p held' (s.putProc p
      { s.proc p with ofile := Function.update (s.proc p).ofile fd new }) := by
  refine ⟨⟨fun f ↦ ?_, h.unused, ⟨h.pipes.mode, h.pipes.unique, h.pipes.page, h.pipes.opened⟩⟩,
    fun q hq ↦ ?_, fun hlive ↦ ?_⟩
  · have hslots := slots_putOfile s p fd new f
    have hrefs := h.refs f
    have := hcount f
    change (s.ftable f).ref = _
    omega
  · exact (Function.update_of_ne hq _ _).trans (h.others q hq)
  · change (Function.update s.proc p _ p).cwd ≠ none
    rw [Function.update_self]
    exact h.live hlive

/-- A descriptor is cleared. -/
theorem Exact.clear (h : Exact s₀ p held s) {fd : Fin NOFILE}
    (hfd : (s.proc p).ofile fd = some f) :
    Exact s₀ p (f ::ₘ held) (s.putProc p
      { s.proc p with ofile := Function.update (s.proc p).ofile fd none }) :=
  h.setOfile fd none fun g ↦ by
    rw [hfd, Multiset.count_cons]
    simp [eq_comm]

/-- A free descriptor is filled. -/
theorem Exact.fill (h : Exact s₀ p (f ::ₘ held) s) {fd : Fin NOFILE}
    (hfd : (s.proc p).ofile fd = none) :
    Exact s₀ p held (s.putProc p
      { s.proc p with ofile := Function.update (s.proc p).ofile fd (some f) }) :=
  h.setOfile fd (some f) fun g ↦ by
    rw [hfd, Multiset.count_cons]
    simp [eq_comm]

/-! ## The file table -/

/-- The references of a file that the call or a descriptor refers to. -/
theorem Exact.ref_pos (h : Exact s₀ p (f ::ₘ held) s) : 0 < (s.ftable f).ref := by
  rw [h.refs, Multiset.count_cons_self]
  omega

theorem Exact.ref_pos_of_descriptor (h : Exact s₀ p held s) {q : Fin NPROC} {fd : Fin NOFILE}
    (hfd : (s.proc q).ofile fd = some f) : 0 < (s.ftable f).ref := by
  have hslots : 0 < s.slots f := by
    rw [FsState.slots, Finset.card_pos]
    refine ⟨(q, fd), ?_⟩
    simp only [Finset.mem_filter, Finset.mem_univ, true_and]
    exact hfd
  rw [h.refs]
  omega

/-- `filealloc`: the new file is held by the call. -/
theorem Exact.filealloc (h : Exact s₀ p held s) :
    wp filealloc (fun r s' ↦ (r = none ∧ s' = s) ∨ ∃ f, r = some f ∧ (s.ftable f).ref = 0 ∧
      s' = s.putFile f { s.ftable f with ref := 1 } ∧ Exact s₀ p (f ::ₘ held) s') NotRefs s := by
  refine wp_filealloc (.inl ⟨rfl, rfl⟩) fun f hf ↦ .inr ⟨f, rfl, hf, rfl, ?_⟩
  refine h.setRef ?_ (fun g hg ↦ Multiset.count_cons_of_ne hg _) Nat.one_pos
  rw [Multiset.count_cons_self]
  have := h.refs f
  omega

/-- `filedup` of a file that a descriptor points to. -/
theorem Exact.filedup (h : Exact s₀ p held s) (hpos : 0 < (s.ftable f).ref) :
    wp (filedup f) (fun _ s' ↦ Exact s₀ p (f ::ₘ held) s' ∧ s'.proc = s.proc) NotRefs s := by
  rw [Fs.filedup, wp_bind, wp_get, if_neg (by omega)]
  refine ⟨h.setRef ?_ (fun g hg ↦ Multiset.count_cons_of_ne hg _) (Nat.succ_pos _), rfl⟩
  rw [Multiset.count_cons_self, h.refs, Nat.add_assoc]

/-- `beginOp` and `endOp` leave the tables alone. -/
theorem tables_beginOp : Preserves FsState.tables NotRefs beginOp := .modify fun _ ↦ rfl

theorem tables_endOp : Preserves FsState.tables NotRefs endOp := .modify fun _ ↦ rfl

/-- A file that was an end of a pipe is closed: the page stays allocated if the other end is there. -/
theorem PipesOk.close (h : PipesOk s) {pi : ℕ} {w : Bool} (hend : (s.ftable f).IsEnd pi w)
    {pages : ℕ → Bool} {pipe : ℕ → Pipe} (hpages : ∀ x, x ≠ pi → pages x = s.pages x)
    (hpipe : ∀ x, x ≠ pi → pipe x = s.pipe x)
    (hself : pages pi = true ↔ ∃ g, (s.ftable g).IsEnd pi (!w))
    (hopen : pages pi = true → pipe pi = (s.pipe pi).close w) :
    PipesOk { s.putFile f { s.ftable f with ref := 0, type := .none } with
      pages := pages, pipe := pipe } := by
  have hiff : ∀ g x v, (Function.update s.ftable f { s.ftable f with ref := 0, type := .none } g).IsEnd
      x v ↔ (s.ftable g).IsEnd x v ∧ ¬ (x = pi ∧ v = w) := by
    intro g x v
    by_cases hg : g = f
    · subst hg
      rw [Function.update_self]
      obtain ⟨htype, rfl, rfl⟩ := hend
      constructor
      · exact fun hno ↦ nomatch hno.1
      · rintro ⟨⟨-, rfl, rfl⟩, hne⟩
        exact absurd ⟨rfl, rfl⟩ hne
    · rw [Function.update_of_ne hg]
      refine ⟨fun hg' ↦ ⟨hg', ?_⟩, And.left⟩
      rintro ⟨rfl, rfl⟩
      exact hg (h.unique x v g f hg' hend)
  have hflag : ((s.pipe pi).close w).isOpen w = false ∧
      ((s.pipe pi).close w).isOpen (!w) = (s.pipe pi).isOpen (!w) := by
    cases w <;> exact ⟨rfl, rfl⟩
  have hpage : s.pages pi = true := (h.page pi).mpr ⟨w, f, hend⟩
  refine ⟨fun g ↦ ?_, fun x v g g' ↦ ?_, fun x ↦ ?_, fun x v ↦ ?_⟩
  · change (Function.update s.ftable f _ g).type = .pipe → _
    by_cases hg : g = f
    · simp [FsState.putFile, hg]
    · simpa only [FsState.putFile, Function.update_of_ne hg] using h.mode g
  · simp only [FsState.putFile, hiff]
    exact fun hg hg' ↦ h.unique x v g g' hg.1 hg'.1
  · simp only [FsState.putFile, hiff]
    by_cases hx : x = pi
    · subst hx
      rw [hself]
      constructor
      · rintro ⟨g, hg⟩
        exact ⟨!w, g, hg, by simp⟩
      · rintro ⟨v, g, hg, hv⟩
        obtain rfl : v = !w := by simpa [Bool.eq_not] using hv
        exact ⟨g, hg⟩
    · simp only [hpages x hx, hx, h.page, false_and, not_false_eq_true, and_true]
  · simp only [FsState.putFile, hiff]
    intro hx'
    by_cases hx : x = pi
    · subst hx
      rw [hopen hx']
      by_cases hv : v = w
      · simp [hv, hflag.1]
      · obtain rfl : v = !w := by simpa [Bool.eq_not] using hv
        rw [hflag.2, h.opened x _ hpage]
        simp
    · rw [hpipe x hx, h.opened x v (by rwa [hpages x hx] at hx')]
      simp [hx]

/-- `fileclose` gives up a reference of the call, and does not panic. -/
theorem Exact.fileclose (h : Exact s₀ p (f ::ₘ held) s) :
    wp (fileclose f) (fun _ s' ↦ Exact s₀ p held s') NotRefs s := by
  have hpos := h.ref_pos
  have hrefs := h.refs f
  rw [Multiset.count_cons_self] at hrefs
  have hcount : ∀ g, g ≠ f → held.count g = (f ::ₘ held).count g :=
    fun g hg ↦ (Multiset.count_cons_of_ne hg _).symm
  rw [Fs.fileclose, wp_bind, wp_get, if_neg (by omega)]
  split
  · rename_i hmore
    exact h.setRef (by omega) hcount hmore
  · rename_i hlast
    have hzero : 0 = s.slots f + held.count f := by omega
    rw [wp_bind, wp_setFile]
    set t := s.putFile f { s.ftable f with ref := 0, type := .none } with ht
    have hclosed : (s.ftable f).type ≠ .pipe → Exact s₀ p held t := by
      intro htype
      refine h.putFile hzero hcount (fun _ ↦ rfl) (h.pipes.putFile (fun pi w ↦ ?_) (by simp))
      exact ⟨fun hno ↦ absurd hno.1 (by simp), fun hend ↦ absurd hend.1 htype⟩
    have hinode : (s.ftable f).type ≠ .pipe → wp (do
        beginOp
        iput (s.ftable f).ip
        endOp) (fun _ s' ↦ Exact s₀ p held s') NotRefs t := fun htype ↦
      (hclosed htype).keep (tables_beginOp.bind fun _ ↦ (Below.iput _).tables.bind fun _ ↦ tables_endOp)
    cases htype : (s.ftable f).type with
    | none => exact hclosed (by simp [htype])
    | inode => exact hinode (by simp [htype])
    | device => exact hinode (by simp [htype])
    | pipe =>
      set pi := (s.ftable f).pipe with hpi
      set w := (s.ftable f).writable with hw
      have hend : (s.ftable f).IsEnd pi w := ⟨htype, rfl, rfl⟩
      have hpage : s.pages pi = true := (h.pipes.page pi).mpr ⟨w, f, hend⟩
      have hother := h.pipes.opened pi (!w) hpage
      have hboth : (((s.pipe pi).close w).readopen = false ∧ ((s.pipe pi).close w).writeopen = false)
          ↔ ¬ ∃ g, (s.ftable g).IsEnd pi (!w) := by
        rw [← hother]
        cases w <;> simp [Pipe.close, Pipe.isOpen]
      rw [pipeclose, wp_bind, wp_get, wp_bind, wp_setPipe]
      split
      · rename_i hfree
        rw [wp_kfree]
        refine h.replace _ _ hzero hcount (fun _ ↦ rfl) (h.pipes.close hend ?_ ?_ ?_ ?_)
        · exact fun x hx ↦ Function.update_of_ne hx _ _
        · intro x hx
          change Function.update (Function.update s.pipe pi _) pi _ x = s.pipe x
          rw [Function.update_of_ne hx, Function.update_of_ne hx]
        · simpa using hboth.mp hfree
        · simp
      · rename_i hfree
        refine h.replace _ _ hzero hcount (fun _ ↦ rfl) (h.pipes.close hend ?_ ?_ ?_ ?_)
        · exact fun _ _ ↦ rfl
        · exact fun x hx ↦ Function.update_of_ne hx _ _
        · exact iff_of_true hpage (not_not.mp fun hno ↦ hfree (hboth.mpr hno))
        · exact fun _ ↦ Function.update_self ..

/-! ## Descriptors -/

/-- `fdalloc`: a reference of the call goes to a free descriptor, if there is one. -/
theorem Exact.fdalloc (h : Exact s₀ p (f ::ₘ held) s) :
    wp (fdalloc p f) (fun r s' ↦ (r = none ∧ s' = s) ∨ ∃ fd, r = some fd ∧
      (s.proc p).ofile fd = none ∧ Exact s₀ p held s' ∧ s' = s.putProc p
        { s.proc p with ofile := Function.update (s.proc p).ofile fd (some f) }) NotRefs s := by
  rw [Fs.fdalloc, wp_bind, wp_get]
  split
  · rename_i fd hfind
    have hfd : (s.proc p).ofile fd = none := by simpa using List.find?_some hfind
    exact .inr ⟨fd, rfl, hfd, h.fill hfd, rfl⟩
  · exact .inl ⟨rfl, rfl⟩

/-- `argfd`: the file in a descriptor. -/
theorem wp_argfd_some {T : Option (Fin NOFILE × Fin NFILE) → FsState → Prop} {E : Stop → Prop}
    (fd : ℤ) (hnone : T none s)
    (hsome : ∀ slot f, (s.proc p).ofile slot = some f → T (some (slot, f)) s) :
    wp (argfd p fd) T E s := by
  rw [argfd]
  split
  · dsimp only
    rw [wp_bind, wp_get]
    split
    · rename_i f hf
      exact hsome _ f hf
    · exact hnone
  · exact hnone

/-- `sys_dup`. -/
theorem Exact.sysDup (h : Exact s₀ p 0 s) (fd : ℤ) :
    wp (sysDup p fd) (fun _ s' ↦ Exact s₀ p 0 s') NotRefs s := by
  rw [Fs.sysDup, wp_bind]
  refine wp_argfd_some fd h fun slot f hslot ↦ ?_
  have hpos := h.ref_pos_of_descriptor hslot
  dsimp only
  rw [wp_bind, Fs.fdalloc, wp_bind, wp_get]
  split
  · rename_i new hfind
    have hnew : (s.proc p).ofile new = none := by simpa using List.find?_some hfind
    rw [wp_bind, wp_setOfile, wp_pure, wp_bind, Fs.filedup, wp_bind, wp_get]
    have hdup : Exact s₀ p (f ::ₘ 0) (s.putFile f
        { s.ftable f with ref := (s.ftable f).ref + 1 }) := h.setRef
      (by rw [Multiset.count_cons_self, h.refs, Nat.add_assoc])
      (fun g hg ↦ Multiset.count_cons_of_ne hg _) (Nat.succ_pos _)
    change wp (if (s.ftable f).ref < 1 then _ else _) _ NotRefs _
    rw [if_neg (by omega)]
    exact hdup.fill hnew
  · exact h

/-- `sys_close`. -/
theorem Exact.sysClose (h : Exact s₀ p 0 s) (fd : ℤ) :
    wp (sysClose p fd) (fun _ s' ↦ Exact s₀ p 0 s') NotRefs s := by
  rw [Fs.sysClose, wp_bind]
  refine wp_argfd_some fd h fun slot f hslot ↦ ?_
  dsimp only
  rw [wp_bind, wp_setOfile, wp_bind]
  exact (h.clear hslot).fileclose

/-! ## Reading and writing -/

/-- Code of the inode layer. -/
theorem Exact.below {α : Type} {x : FsM α} (hx : Below x) (h : Exact s₀ p held s) :
    wp x (fun _ s' ↦ Exact s₀ p held s' ∧ s'.ftable = s.ftable) NotRefs s :=
  wp_post (hx.tables s) fun _ _ heq ↦ ⟨h.congr heq, congrArg Tables.ftable heq⟩

/-- The offset of an open file moves. -/
theorem Exact.setOff (h : Exact s₀ p held s) (f : Fin NFILE) (off : ℕ) :
    Exact s₀ p held (s.putFile f { s.ftable f with off := off }) :=
  h.putFile (h.refs f) (fun _ _ ↦ rfl) (h.unused f)
    (h.pipes.putFile (fun _ _ ↦ Iff.rfl) (h.pipes.mode f))

/-- `fileread`. -/
theorem Exact.fileread (h : Exact s₀ p held s) (f : Fin NFILE) (mem : Dest) (addr : ℕ)
    (n device : ℤ) :
    wp (fileread f mem addr n device) (fun _ s' ↦ Exact s₀ p held s') NotRefs s := by
  rw [Fs.fileread, wp_bind, wp_get]
  dsimp only
  split
  · exact h
  · split
    · exact h
    · split
      · exact h
      · exact h
    · rw [wp_bind]
      refine wp_post (h.below (.ilock _)) ?_
      rintro _ s₁ ⟨h₁, hftable₁⟩
      rw [wp_bind]
      refine wp_post (h₁.below (.readi _ _ _ _ _)) ?_
      rintro ⟨r, bytes⟩ s₂ ⟨h₂, hftable₂⟩
      dsimp only
      split
      · have h₃ := h₂.setOff f (((s.ftable f).off + r.toNat) % 2 ^ 32)
        rw [hftable₂, hftable₁] at h₃
        rw [wp_bind, wp_setFile, wp_bind]
        exact wp_post (h₃.below (.iunlock _)) fun _ _ hr ↦ hr.1
      · rw [wp_bind]
        exact wp_post (h₂.below (.iunlock _)) fun _ _ hr ↦ hr.1
    · exact ⟨by decide, by decide⟩

/-- The loop of `filewrite`. -/
theorem Exact.filewriteLoop (h : Exact s₀ p held s) (f : Fin NFILE) (mem : Source) (addr : ℕ) (n : ℤ)
    (fuel : ℕ) (i : ℤ) :
    wp (filewriteLoop f mem addr n fuel i) (fun _ s' ↦ Exact s₀ p held s') NotRefs s := by
  induction fuel generalizing s i with
  | zero => exact h
  | succ fuel ih =>
    rw [Fs.filewriteLoop]
    split
    · rw [wp_bind, wp_beginOp, wp_bind, wp_get, wp_bind]
      have h₀ : Exact s₀ p held { s with outstanding := s.outstanding + 1 } := h.congr rfl
      refine wp_post (h₀.below (.ilock _)) ?_
      rintro _ s₁ ⟨h₁, hftable₁⟩
      rw [wp_bind]
      refine wp_post (h₁.below (.writei _ _ _ _ _)) ?_
      rintro r s₂ ⟨h₂, hftable₂⟩
      -- The end of the iteration, and the iterations after it.
      have hrest : ∀ t, Exact s₀ p held t → wp (do
          iunlock (s.ftable f).ip
          endOp
          if r ≠ min (n - i) MAXCHUNK then return i
          else Fs.filewriteLoop f mem addr n fuel (i + r)) (fun _ s' ↦ Exact s₀ p held s')
          NotRefs t := by
        intro t ht
        rw [wp_bind]
        refine wp_post (ht.below (.iunlock _)) ?_
        rintro _ s₃ ⟨h₃, -⟩
        rw [wp_bind]
        refine wp_post (h₃.keep tables_endOp) fun _ s₄ h₄ ↦ ?_
        split
        · exact h₄
        · exact ih h₄ _
      change wp (if 0 < r then _ else _) _ NotRefs s₂
      split
      · have h₃ := h₂.setOff f (((s.ftable f).off + r.toNat) % 2 ^ 32)
        rw [hftable₂, hftable₁] at h₃
        rw [wp_bind, wp_setFile]
        exact hrest _ h₃
      · exact hrest _ h₂
    · exact h

/-- `filewrite`. -/
theorem Exact.filewrite (h : Exact s₀ p held s) (f : Fin NFILE) (mem : Source) (addr : ℕ)
    (n device : ℤ) :
    wp (filewrite f mem addr n device) (fun _ s' ↦ Exact s₀ p held s') NotRefs s := by
  rw [Fs.filewrite, wp_bind, wp_get]
  dsimp only
  split
  · exact h
  · split
    · exact h
    · split
      · exact h
      · exact h
    · rw [wp_bind]
      exact h.filewriteLoop f mem addr n _ _
    · exact ⟨by decide, by decide⟩

/-- `sys_read`. -/
theorem Exact.sysRead (h : Exact s₀ p 0 s) (fd : ℤ) (mem : Dest) (addr : ℕ) (n device : ℤ) :
    wp (sysRead p fd mem addr n device) (fun _ s' ↦ Exact s₀ p 0 s') NotRefs s := by
  rw [Fs.sysRead, wp_bind]
  exact wp_argfd_some fd h fun _ f _ ↦ h.fileread f mem addr n device

/-- `sys_write`. -/
theorem Exact.sysWrite (h : Exact s₀ p 0 s) (fd : ℤ) (mem : Source) (addr : ℕ) (n device : ℤ) :
    wp (sysWrite p fd mem addr n device) (fun _ s' ↦ Exact s₀ p 0 s') NotRefs s := by
  rw [Fs.sysWrite, wp_bind]
  exact wp_argfd_some fd h fun _ f _ ↦ h.filewrite f mem addr n device

/-- `sys_fstat`. -/
theorem Exact.sysFstat (h : Exact s₀ p 0 s) (fd : ℤ) :
    wp (sysFstat p fd) (fun _ s' ↦ Exact s₀ p 0 s') NotRefs s := by
  rw [Fs.sysFstat, wp_bind]
  exact wp_argfd_some fd h fun _ f _ ↦ h.keep (Below.filestat f).tables

/-! ## Opening -/

/-- An unused file gets a type. -/
theorem Exact.openFile (h : Exact s₀ p held s) (hold : (s.ftable f).type = .none)
    (hpos : 0 < (s.ftable f).ref) {file : File} (htype : file.type ≠ .pipe)
    (href : file.ref = (s.ftable f).ref) : Exact s₀ p held (s.putFile f file) := by
  refine h.putFile (href.trans (h.refs f)) (fun _ _ ↦ rfl)
    (fun hzero ↦ absurd (href ▸ hzero) hpos.ne')
    (h.pipes.putFile (fun pi w ↦ ⟨fun hend ↦ absurd hend.1 htype, fun hend ↦ ?_⟩)
      fun heq ↦ absurd heq htype)
  have hpipe := hend.1
  rw [hold] at hpipe
  cases hpipe

/-- The part of `sys_open` after the inode is found and locked. -/
theorem Exact.openLocked (h : Exact s₀ p 0 s) (ip : Fin NINODE) (omode : ℕ) :
    wp (openLocked p ip omode) (fun _ s' ↦ Exact s₀ p 0 s') NotRefs s := by
  rw [Fs.openLocked, wp_bind, wp_inode]
  dsimp only
  split
  · exact h.keep (Closes.iunlockput ip _).preserves
  · rw [wp_bind]
    refine wp_post h.filealloc ?_
    rintro r s₁ (⟨rfl, rfl⟩ | ⟨f, rfl, href, rfl, h₁⟩)
    · exact h.keep (Closes.iunlockput ip _).preserves
    · dsimp only
      rw [wp_bind]
      set s₁ := s.putFile f { s.ftable f with ref := 1 } with hs₁
      have hself : s₁.ftable f = { s.ftable f with ref := 1 } := Function.update_self ..
      refine wp_post h₁.fdalloc ?_
      rintro r s₂ (⟨rfl, rfl⟩ | ⟨fd, rfl, -, h₂, rfl⟩)
      · dsimp only
        rw [wp_bind]
        exact wp_post h₁.fileclose fun _ _ h₃ ↦ h₃.keep (Closes.iunlockput ip _).preserves
      · dsimp only
        rw [wp_bind, wp_get, wp_bind, wp_setFile]
        have hold : (s₁.ftable f).type = .none := by
          rw [hself]
          exact h.unused f href
        have hpos : 0 < (s₁.ftable f).ref := by
          rw [hself]
          exact Nat.one_pos
        refine Exact.keep ?_ (h₂.openFile hold hpos ?_ rfl)
        · refine .ite (fun _ ↦ (Below.itrunc ip).tables.bind fun _ ↦ ?_) fun _ ↦ ?_
          all_goals exact (Below.iunlock ip).tables.bind fun _ ↦ (Closes.endOp _).preserves
        · dsimp only
          split <;> decide

/-- `sys_open`. -/
theorem Exact.sysOpen (h : Exact s₀ p 0 s) (path : List UInt8) (omode : ℕ) :
    wp (sysOpen p path omode) (fun _ s' ↦ Exact s₀ p 0 s') NotRefs s := by
  rw [Fs.sysOpen, wp_bind]
  refine wp_post (h.keep tables_beginOp) fun _ s₁ h₁ ↦ ?_
  split
  · rw [wp_bind]
    refine wp_post (h₁.below (.create _ _ _ _ _)) ?_
    rintro (_ | ip) s₂ ⟨h₂, -⟩
    · exact h₂.keep (Closes.endOp _).preserves
    · exact h₂.openLocked ip omode
  · rw [wp_bind]
    refine wp_post (h₁.below (.namei _ _)) ?_
    rintro (_ | ip) s₂ ⟨h₂, -⟩
    · exact h₂.keep (Closes.endOp _).preserves
    · dsimp only
      rw [wp_bind]
      refine wp_post (h₂.below (.ilock _)) ?_
      rintro _ s₃ ⟨h₃, -⟩
      rw [wp_bind, wp_inode]
      split
      · exact h₃.keep (Closes.iunlockput ip _).preserves
      · exact h₃.openLocked ip omode

/-! ## Pipes -/

/-- A free page becomes a pipe with two ends. -/
theorem PipesOk.create (h : PipesOk s) {f0 f1 : Fin NFILE} (hne : f0 ≠ f1) {pi : ℕ}
    (hpage : s.pages pi = false) (h0 : (s.ftable f0).type = .none)
    (h1 : (s.ftable f1).type = .none) (rf wf : File) (hrf : rf.IsEnd pi false)
    (hwf : wf.IsEnd pi true) (hread : rf.readable = true) (hwrite : wf.readable = false) :
    PipesOk { (s.putFile f0 rf).putFile f1 wf with
      pages := Function.update s.pages pi true
      pipe := Function.update s.pipe pi { readopen := true, writeopen := true } } := by
  have hiff : ∀ g x v, (Function.update (Function.update s.ftable f0 rf) f1 wf g).IsEnd x v ↔
      (s.ftable g).IsEnd x v ∨ (x = pi ∧ g = if v then f1 else f0) := by
    intro g x v
    have hno : ∀ {f}, (s.ftable f).type = .none → ¬ (s.ftable f).IsEnd x v :=
      fun htype hend ↦ nomatch htype.symm.trans hend.1
    by_cases hg1 : g = f1
    · rw [hg1, Function.update_self, or_iff_right (hno h1)]
      obtain ⟨htype, rfl, hw⟩ := hwf
      simp only [File.IsEnd, htype, hw]
      cases v <;> simp [eq_comm, hne]
    · rw [Function.update_of_ne hg1]
      by_cases hg0 : g = f0
      · rw [hg0, Function.update_self, or_iff_right (hno h0)]
        obtain ⟨htype, rfl, hw⟩ := hrf
        simp only [File.IsEnd, htype, hw]
        cases v <;> simp [eq_comm, hne]
      · rw [Function.update_of_ne hg0]
        cases v <;> simp [hg0, hg1]
  have hfree : ∀ g v, ¬ (s.ftable g).IsEnd pi v := by
    intro g v hend
    rw [(h.page pi).mpr ⟨v, g, hend⟩] at hpage
    cases hpage
  refine ⟨fun g ↦ ?_, fun x v g g' ↦ ?_, fun x ↦ ?_, fun x v hx ↦ ?_⟩
  · change (Function.update (Function.update s.ftable f0 rf) f1 wf g).type = .pipe →
      (Function.update (Function.update s.ftable f0 rf) f1 wf g).readable =
        !(Function.update (Function.update s.ftable f0 rf) f1 wf g).writable
    by_cases hg1 : g = f1
    · rw [hg1, Function.update_self, hwrite, hwf.2.2]
      exact fun _ ↦ rfl
    · rw [Function.update_of_ne hg1]
      by_cases hg0 : g = f0
      · rw [hg0, Function.update_self, hread, hrf.2.2]
        exact fun _ ↦ rfl
      · rw [Function.update_of_ne hg0]
        exact h.mode g
  · simp only [FsState.putFile, hiff]
    rintro (hg | ⟨rfl, rfl⟩) (hg' | ⟨hx, rfl⟩)
    · exact h.unique x v g g' hg hg'
    · exact absurd (hx ▸ hg) (hfree g v)
    · exact absurd hg' (hfree g' v)
    · rfl
  · simp only [FsState.putFile, hiff]
    by_cases hx : x = pi
    · subst hx
      rw [Function.update_self]
      exact iff_of_true rfl ⟨true, f1, .inr ⟨rfl, rfl⟩⟩
    · simp only [Function.update_of_ne hx, h.page, hx, false_and, or_false]
  · simp only [FsState.putFile, hiff]
    by_cases hxpi : x = pi
    · subst hxpi
      rw [Function.update_self]
      refine iff_of_true ?_ ⟨_, .inr ⟨rfl, rfl⟩⟩
      cases v <;> rfl
    · rw [Function.update_of_ne hxpi, h.opened x v ((Function.update_of_ne hxpi _ _).symm.trans hx)]
      simp only [hxpi, false_and, or_false]

/-- Two files of the call become the ends of a new pipe. -/
theorem Exact.createPipe {f0 f1 : Fin NFILE} (h : Exact s₀ p (f0 ::ₘ f1 ::ₘ held) s)
    (hne : f0 ≠ f1) {pi : ℕ} (hpage : s.pages pi = false) (h0 : (s.ftable f0).type = .none)
    (h1 : (s.ftable f1).type = .none) :
    Exact s₀ p (f0 ::ₘ f1 ::ₘ held) { (s.putFile f0 { s.ftable f0 with
        type := .pipe, readable := true, writable := false, pipe := pi }).putFile f1
        { s.ftable f1 with type := .pipe, readable := false, writable := true, pipe := pi } with
      pages := Function.update s.pages pi true
      pipe := Function.update s.pipe pi { readopen := true, writeopen := true } } := by
  have hpos0 := h.ref_pos
  have hpos1 : 0 < (s.ftable f1).ref := by
    rw [Multiset.cons_swap] at h
    exact h.ref_pos
  have hpipes := h.pipes.create hne hpage h0 h1
    { s.ftable f0 with type := .pipe, readable := true, writable := false, pipe := pi }
    { s.ftable f1 with type := .pipe, readable := false, writable := true, pipe := pi }
    ⟨rfl, rfl, rfl⟩ ⟨rfl, rfl, rfl⟩ rfl rfl
  refine ⟨⟨fun g ↦ ?_, fun g ↦ ?_, hpipes⟩, h.others, h.live⟩
  · refine Eq.trans ?_ (h.refs g)
    change (Function.update (Function.update s.ftable f0 _) f1 _ g).ref = _
    by_cases hg1 : g = f1
    · rw [hg1, Function.update_self]
    · rw [Function.update_of_ne hg1]
      by_cases hg0 : g = f0
      · rw [hg0, Function.update_self]
      · rw [Function.update_of_ne hg0]
  · change (Function.update (Function.update s.ftable f0 _) f1 _ g).ref = 0 →
      (Function.update (Function.update s.ftable f0 _) f1 _ g).type = .none
    by_cases hg1 : g = f1
    · rw [hg1, Function.update_self]
      exact fun hzero ↦ absurd hzero hpos1.ne'
    · rw [Function.update_of_ne hg1]
      by_cases hg0 : g = f0
      · rw [hg0, Function.update_self]
        exact fun hzero ↦ absurd hzero hpos0.ne'
      · rw [Function.update_of_ne hg0]
        exact h.unused g

/-- `pipealloc`. -/
theorem Exact.pipealloc (h : Exact s₀ p held s) (page : Option ℕ) :
    wp (pipealloc page) (fun r s' ↦ match r with
      | none => Exact s₀ p held s'
      | some (rf, wf) => Exact s₀ p (rf ::ₘ wf ::ₘ held) s') NotRefs s := by
  rw [Fs.pipealloc, wp_bind]
  refine wp_post h.filealloc ?_
  rintro r s₁ (⟨rfl, rfl⟩ | ⟨f0, rfl, href0, rfl, h₁⟩)
  · exact h
  · dsimp only
    set s₁ := s.putFile f0 { s.ftable f0 with ref := 1 } with hs₁
    have hself₁ : s₁.ftable f0 = { s.ftable f0 with ref := 1 } := Function.update_self ..
    rw [wp_bind]
    refine wp_post h₁.filealloc ?_
    rintro r s₂ (⟨rfl, rfl⟩ | ⟨f1, rfl, href1, rfl, h₂⟩)
    · dsimp only
      rw [wp_bind]
      exact h₁.fileclose
    · dsimp only
      have hne : f0 ≠ f1 := by
        rintro rfl
        rw [hself₁] at href1
        cases href1
      rw [Multiset.cons_swap] at h₂
      set s₂ := s₁.putFile f1 { s₁.ftable f1 with ref := 1 } with hs₂
      rw [wp_bind]
      cases page with
      | none =>
        refine (wp_bind).mpr (wp_post h₂.fileclose fun _ s₃ h₃ ↦ ?_)
        rw [wp_bind]
        exact h₃.fileclose
      | some pi =>
        rw [kalloc, wp_bind, wp_get]
        split
        · exact ⟨by decide, by decide⟩
        · rename_i hpage
          have hsame : s₂.ftable f0 = s₁.ftable f0 := Function.update_of_ne hne _ _
          have hself₂ : s₂.ftable f1 = { s₁.ftable f1 with ref := 1 } := Function.update_self ..
          have htype0 : (s₂.ftable f0).type = .none := by
            rw [hsame, hself₁]
            exact h.unused f0 href0
          have htype1 : (s₂.ftable f1).type = .none := by
            rw [hself₂]
            exact h₁.unused f1 href1
          have hcreate := h₂.createPipe hne (Bool.eq_false_of_not_eq_true hpage) htype0 htype1
          have hf1 : Function.update s₂.ftable f0 { s₂.ftable f0 with
              type := .pipe, readable := true, writable := false, pipe := pi } f1 = s₂.ftable f1 :=
            Function.update_of_ne hne.symm _ _
          rw [← hf1] at hcreate
          exact hcreate

/-- Both ends of a pipe are closed. -/
theorem Exact.fileclose₂ {f g : Fin NFILE} (h : Exact s₀ p (f ::ₘ g ::ₘ held) s) {α : Type} (a : α) :
    wp (do
      Fs.fileclose f
      Fs.fileclose g
      return a) (fun _ s' ↦ Exact s₀ p held s') NotRefs s := by
  rw [wp_bind]
  refine wp_post h.fileclose fun _ s₁ h₁ ↦ ?_
  rw [wp_bind]
  exact wp_post h₁.fileclose fun _ _ h₂ ↦ h₂

/-- `sys_pipe`. -/
theorem Exact.sysPipe (h : Exact s₀ p 0 s) (page : Option ℕ) (copied : Bool) :
    wp (sysPipe p page copied) (fun _ s' ↦ Exact s₀ p 0 s') NotRefs s := by
  rw [Fs.sysPipe, wp_bind]
  refine wp_post (h.pipealloc page) ?_
  rintro (_ | ⟨rf, wf⟩) s₁ h₁
  · exact h₁
  · dsimp only
    rw [wp_bind]
    refine wp_post h₁.fdalloc ?_
    rintro r s₂ (⟨rfl, rfl⟩ | ⟨fd0, rfl, hfd0, h₂, rfl⟩)
    · exact h₁.fileclose₂ _
    · dsimp only
      rw [wp_bind]
      set s₂ := s₁.putProc p { s₁.proc p with
        ofile := Function.update (s₁.proc p).ofile fd0 (some rf) } with hs₂
      have hself₂ : (s₂.proc p).ofile = Function.update (s₁.proc p).ofile fd0 (some rf) := by
        rw [hs₂, FsState.putProc]
        simp
      have hrf : (s₂.proc p).ofile fd0 = some rf := by rw [hself₂, Function.update_self]
      refine wp_post h₂.fdalloc ?_
      rintro r s₃ (⟨rfl, rfl⟩ | ⟨fd1, rfl, hfd1, h₃, rfl⟩)
      · dsimp only
        rw [wp_bind, wp_setOfile]
        exact (h₂.clear hrf).fileclose₂ _
      · dsimp only
        split
        · exact h₃
        · rw [wp_bind, wp_setOfile, wp_bind, wp_setOfile]
          have hne : fd0 ≠ fd1 := by
            rintro rfl
            rw [hrf] at hfd1
            cases hfd1
          set s₃ := s₂.putProc p { s₂.proc p with
            ofile := Function.update (s₂.proc p).ofile fd1 (some wf) } with hs₃
          have hself₃ : (s₃.proc p).ofile = Function.update (s₂.proc p).ofile fd1 (some wf) := by
            rw [hs₃, FsState.putProc]
            simp
          have hrf₃ : (s₃.proc p).ofile fd0 = some rf := by
            rw [hself₃, Function.update_of_ne hne, hrf]
          have h₄ := h₃.clear hrf₃
          have hwf₄ : ((s₃.putProc p { s₃.proc p with
              ofile := Function.update (s₃.proc p).ofile fd0 none }).proc p).ofile fd1 =
              some wf := by
            simp [FsState.putProc, hself₃, Function.update_of_ne hne.symm]
          have h₅ := h₄.clear hwf₄
          rw [Multiset.cons_swap] at h₅
          exact h₅.fileclose₂ _

end Xv6.Fs
