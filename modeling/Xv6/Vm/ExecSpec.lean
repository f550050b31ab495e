import Xv6.Vm.Stack

/-!
# `exec` as a Whole

`exec` builds the new address space from free pages beside the old one.  When it fails, all of these
are free again and the process goes on as before; when it succeeds, the old address space is freed,
of which the new one is not a part.
-/

namespace Xv6.Vm

open Lib

open Fs (Proghdr ELFHDR PROGHDR ELF_MAGIC ELF_PROG_LOAD)

variable {kernel : ℕ → Option (ℕ × ℕ)} {pool : Pool} {s s' : Phys} {pt n : ℕ} {E : Stop → Prop}

/-- The ELF header of a file. -/
def File.elfhdr (ip : File) : Elfhdr := .decode (ip.segment 0 ELFHDR)

/-- The program headers that `exec` reads: of their offset in the file 32 bits are used. -/
def File.narrowed (ip : File) : List Proghdr :=
  ip.proghdrs ip.elfhdr.phnum (ip.elfhdr.phoff % 2 ^ 32)

/-- The image that `exec` makes of a file. -/
def File.image (ip : File) : ℕ → UInt8 := ip.narrowed.foldl ip.load fun _ ↦ 0

/-- A new image: `n` pages of the program, a guard page, and the stack with the arguments. -/
structure NewImage (ip : File) (argv : List (List UInt8)) (mem : Pages) (pt n sp : ℕ) : Prop where
  byte : ∀ va < n * PGSIZE, userByte mem pt va = some (ip.image va)
  guard : userFrame mem pt n = none
  args : ∃ ustack, ArgStack mem pt ((n + 1) * PGSIZE) sp argv ustack
  room : stackRoom argv ≤ PGSIZE
  headers : ip.elfhdr.phnum = 0 ∨
    ip.elfhdr.phoff % 2 ^ 32 + PROGHDR * ip.elfhdr.phnum ≤ ip.bytes.length
  accepted : ∀ ph ∈ ip.narrowed, ph.type = ELF_PROG_LOAD → Accepted ip (n * PGSIZE) ph

/-- The argument vectors of `sys_exec`. -/
structure IsArgv (argv : List (List UInt8)) : Prop where
  count : argv.length < MAXARG
  short : ∀ arg ∈ argv, arg.length < PGSIZE

theorem makeImage_spec (hkernel : IsKernel kernel) (hend : KERNBASE ≤ pool.kernelEnd)
    {argv : List (List UInt8)} (hargv : IsArgv argv) (ip : File) (h : Space kernel pool s pt 0 []) :
    wp (makeImage pt ip ip.elfhdr argv) (fun r s' ↦ Space kernel pool s' pt (pageCount r.2) [] ∧
      ∀ sp, r.1 = some sp → ∃ n, r.2 = (n + 2) * PGSIZE ∧ NewImage ip argv s'.page pt n sp) E s := by
  rw [makeImage, wp_bind]
  refine wp_post (loadProgram_spec hkernel hend (Nat.mod_lt _ (by decide)) h.image_zero) ?_
  rintro ⟨loaded, sz⟩ s₁ hprogram
  obtain ⟨image, h₁, himage⟩ := hprogram.loaded
  dsimp only at h₁ himage ⊢
  cases loaded with
  | false =>
    rw [if_neg Bool.false_ne_true, wp_pure]
    exact ⟨h₁.space, fun _ hnone ↦ absurd hnone (Option.some_ne_none _).symm⟩
  | true =>
    obtain rfl : image = ip.image := himage rfl
    have hround := pgroundup_eq h₁.space.fits
    have h₁' := h₁.round
    have hsz := h₁'.sz_le hend
    have hmod : (pgroundup sz + 2 * PGSIZE) % 2 ^ 64 = (pageCount sz + 2) * PGSIZE := by
      rw [Nat.mod_eq_of_lt (by simp only [PGSIZE]; omega), hround, Nat.add_mul]
    rw [if_pos rfl, hmod, wp_bind]
    generalize pgroundup sz = top at hround h₁' hsz ⊢
    refine wp_post (h₁'.wp_uvmalloc hkernel.low) fun sz₁ s₂ halloc ↦ ?_
    have hmax : max top ((pageCount sz + 2) * PGSIZE) = (pageCount sz + 2) * PGSIZE := by
      rw [hround]
      exact Nat.max_eq_right (Nat.mul_le_mul_right _ (Nat.le_add_right _ _))
    have hpos : (pageCount sz + 2) * PGSIZE ≠ 0 := Nat.mul_ne_zero (by omega) (by decide)
    rw [hmax] at halloc
    rcases halloc with ⟨rfl, h₂⟩ | ⟨rfl, h₂⟩
    · rw [if_pos rfl, wp_pure]
      exact ⟨h₂.space, fun _ hnone ↦ absurd hnone (Option.some_ne_none _).symm⟩
    · have hguard : uint64Sub ((pageCount sz + 2) * PGSIZE) (2 * PGSIZE) = pageCount sz * PGSIZE := by
        rw [uint64Sub, Nat.add_mul, ← hround]
        simp only [PGSIZE]
        omega
      rw [if_neg hpos, hguard, wp_bind]
      refine wp_post h₂.uvmclear_guard fun _ s₃ h₃ ↦ ?_
      have htable := h₃.space.userTable hkernel (h₃.space.kernelEnd ▸ hend)
      have hbase : (pageCount sz + 1) * PGSIZE / PGSIZE = pageCount sz + 1 :=
        Nat.mul_div_cancel _ (by decide)
      have hstack : userFrame s₃.page pt ((pageCount sz + 1) * PGSIZE / PGSIZE) ≠ none := by
        obtain ⟨frame, hframe⟩ := h₃.stack
        rw [hbase, hframe]
        exact Option.some_ne_none frame
      have htop : (pageCount sz + 2) * PGSIZE = (pageCount sz + 1) * PGSIZE + PGSIZE :=
        Nat.succ_mul _ _
      rw [wp_bind, htop]
      refine wp_post (pushStack_spec (Nat.mul_mod_left _ _) (Nat.le_mul_of_pos_left _ (by omega))
        ?_ htable hstack hargv.short hargv.count) ?_
      · simp only [PGSIZE, MAXVA] at hround ⊢
        omega
      rintro r s₄ ⟨hs₄, hchanged, -, hsome⟩
      have h₄ := h₃.space.changed hkernel hs₄ hchanged
      rw [← htop, wp_pure, pageCount_mul]
      refine ⟨h₄, fun sp hsp ↦ ⟨pageCount sz, rfl, ?_⟩⟩
      obtain ⟨hroom, hstackArgs⟩ := hsome sp hsp
      refine ⟨fun va hva ↦ ?_, ?_, hstackArgs, hroom, hprogram.headers rfl, fun ph hph htype ↦ ?_⟩
      · rw [hchanged.userByte htable (.inl (hva.trans_le ?_))]
        · exact h₃.byte va hva
        · exact Nat.mul_le_mul_right _ (Nat.le_succ _)
      · rw [userFrame_congr hchanged.tables]
        exact h₃.guard
      · exact (hprogram.accepted rfl ph hph htype).mono (le_pageCount sz)

/-! ## The old address space -/

/-- Two memories in which the user reads the same. -/
theorem NewImage.congr {ip : File} {argv : List (List UInt8)} {mem mem' : Pages} {sp : ℕ}
    (h : NewImage ip argv mem pt n sp) (hbyte : ∀ va, userByte mem' pt va = userByte mem pt va)
    (hframe : userFrame mem' pt n = userFrame mem pt n) : NewImage ip argv mem' pt n sp := by
  have hread {va : ℕ} {bytes : List UInt8} (hread : Read mem pt va bytes) : Read mem' pt va bytes :=
    fun i hi ↦ (hbyte _).trans (hread i hi)
  obtain ⟨ustack, hargs⟩ := h.args
  refine ⟨fun va hva ↦ (hbyte va).trans (h.byte va hva), hframe.trans h.guard, ⟨ustack, ?_⟩, h.room,
    h.headers, h.accepted⟩
  exact { hargs with
    pointer := fun i u hu ↦ hread (hargs.pointer i u hu)
    null := hread hargs.null
    string := fun i u arg hu harg ↦ hread (hargs.string i u arg hu harg) }

/-- The user does not read what the kernel has mapped. -/
theorem Space.userByte_eq_none {va : ℕ} (hkernel : IsKernel kernel) (h : Space kernel pool s pt n [])
    (hva : n ≤ va / PGSIZE) : userByte s.page pt va = none := by
  rw [userByte, place, Option.map_eq_none_iff, Option.map_eq_none_iff, Option.eq_none_iff_forall_ne_some]
  intro frame hframe
  exact absurd (h.userFrame_lt hkernel hframe).1 (Nat.not_lt.mpr hva)

/-- An address space that stays as it is. -/
theorem Space.userByte_congr {pool' : Pool} {va : ℕ} (hkernel : IsKernel kernel)
    (h : Space kernel pool s pt n []) (h' : Space kernel pool' s' pt n [])
    (hview : SameView s s' pt n) :
    userByte s'.page pt va = userByte s.page pt va := by
  by_cases hva : va / PGSIZE < n
  · exact hview.userByte hva
  · rw [h.userByte_eq_none hkernel (Nat.not_lt.mp hva), h'.userByte_eq_none hkernel (Nat.not_lt.mp hva)]

/-- A process that calls `exec`. -/
structure Caller (trampoline : ℕ) (s : Phys) (p : Proc) : Prop where
  trampoline_lt : trampoline < 2 ^ 64
  trapframe_lt : p.trapframe < 2 ^ 64
  kernelEnd : KERNBASE ≤ s.kernelEnd
  proc : ProcOk (kernelMap trampoline p.trapframe) s p

/-- What `exec` does: it fails and gives all memory back, or the process has a new image. -/
def Executed (trampoline : ℕ) (path : List UInt8) (ip : Option File) (argv : List (List UInt8))
    (s : Phys) (p : Proc) (r : ℤ × Proc) (s' : Phys) : Prop :=
  (r.1 = -1 ∧ r.2 = p ∧ Released (freePool s) s') ∨
  ∃ file n pt sp, ip = some file ∧ r.1 = argv.length ∧
    r.2 = { p with
      pagetable := pt, sz := (n + 2) * PGSIZE, epc := file.elfhdr.entry, sp := sp, a1 := sp,
      name := (lastElem path path).take 15 } ∧
    ProcOk (kernelMap trampoline p.trapframe) s' r.2 ∧ NewImage file argv s'.page pt n sp

theorem exec_spec {trampoline : ℕ} {argv : List (List UInt8)} {p : Proc}
    (hcaller : Caller trampoline s p) (hargv : IsArgv argv) (path : List UInt8) (ip : Option File) :
    wp (exec trampoline path ip argv p) (Executed trampoline path ip argv s p) E s := by
  have hp := hcaller.proc
  have hkernel := isKernel_kernelMap trampoline p.trapframe
  have hfree : FreeOk s := (AddressSpace.own hp).wf.free
  have hsame : Executed trampoline path ip argv s p (-1, p) s := .inl ⟨rfl, rfl, released_freePool hfree⟩
  cases ip with
  | none => exact (wp_pure _).mpr hsame
  | some file =>
    rw [exec]
    dsimp only
    split
    · exact (wp_pure _).mpr hsame
    rename_i hheader
    have hin : 0 + ELFHDR ≤ file.bytes.length :=
      (file.length_readi (by decide) (by decide)).mp (not_not.mp hheader)
    rw [file.readi_of_le (by decide) hin, ← File.elfhdr]
    split
    · exact (wp_pure _).mpr hsame
    rw [wp_bind]
    refine wp_post (procPagetable_spec hfree hcaller.trampoline_lt hcaller.trapframe_lt) fun r s₁ hr ↦ ?_
    cases r with
    | none => exact (wp_pure _).mpr (.inl ⟨rfl, rfl, hr⟩)
    | some pt =>
      have h₁ : Space (kernelMap trampoline p.trapframe) (freePool s) s₁ pt 0 [] := hr
      dsimp only
      rw [wp_bind]
      refine wp_post (makeImage_spec hkernel hcaller.kernelEnd hargv file h₁) ?_
      rintro ⟨r, sz⟩ s₂ ⟨h₂, himage⟩
      dsimp only at h₂ himage
      cases r with
      | none =>
        dsimp only
        rw [wp_bind]
        exact wp_post (procFreepagetable_spec h₂) fun _ s₃ hreleased ↦
          (wp_pure _).mpr (.inl ⟨rfl, rfl, hreleased⟩)
      | some sp =>
        obtain ⟨n, rfl, hnew⟩ := himage sp rfl
        have hold := ((AddressSpace.beside_freePool hp).keep (released_freePool hfree).holds
          h₂.holds).1
        have hnew₂ := (hold.isApart h₂).symm.beside ⟨_, h₂⟩
        have hold := hold.space.own
        dsimp only
        rw [wp_bind]
        refine wp_post (procFreepagetable_spec hold) fun _ s₃ hreleased ↦ ?_
        obtain ⟨hbeside, hview⟩ := hnew₂.keep hold.holds hreleased.holds
        have h₃ := hbeside.space.own
        refine (wp_pure _).mpr (.inr ⟨file, n, pt, sp, rfl, rfl, rfl, hbeside.space, ?_⟩)
        refine hnew.congr (fun va ↦ h₂.userByte_congr hkernel h₃ hview) ?_
        rw [userFrame, userFrame, (hview n (by rw [pageCount_mul]; omega)).1]

/-- `exec` succeeds if it can make the new image. -/
theorem exec_of_makeImage {trampoline : ℕ} {path : List UInt8} {file : File}
    {argv : List (List UInt8)} {p p' : Proc} {r : ℤ} {sp sz : ℕ} {s₁ s₂ : Phys}
    (hok : exec trampoline path (some file) argv p s = .ok ((r, p'), s'))
    (hheader : ELFHDR ≤ file.bytes.length) (hmagic : file.elfhdr.magic = ELF_MAGIC)
    (hpt : procPagetable trampoline p.trapframe s = .ok (some pt, s₁))
    (himage : makeImage pt file file.elfhdr argv s₁ = .ok ((some sp, sz), s₂)) :
    r = argv.length := by
  have hheader' : 0 + ELFHDR ≤ file.bytes.length := (Nat.zero_add _).trans_le hheader
  have hread : file.readi 0 ELFHDR = file.segment 0 ELFHDR := file.readi_of_le (by decide) hheader'
  have hlength := file.length_segment (.inr hheader')
  have hwp : wp (exec trampoline path (some file) argv p) (fun r _ ↦ r.1 = argv.length)
      (fun _ ↦ True) s := by
    rw [exec]
    dsimp only
    rw [hread, if_neg (not_not.mpr hlength), ← File.elfhdr, if_neg (not_not.mpr hmagic), wp_bind]
    refine wp_of_run hpt ?_
    dsimp only
    rw [wp_bind]
    refine wp_of_run himage ?_
    dsimp only
    rw [wp_bind]
    exact wp_trivial (fun _ _ ↦ rfl) fun _ ↦ trivial
  exact wp_of_ok (Q := fun r _ ↦ r.1 = (argv.length : ℤ)) hwp hok

/-! ## A small process -/

/-- Memory with 16 free pages. -/
def smallMemory : Phys := ⟨fun _ ↦ .fill 0, (List.range 16).map (0x80400 + ·), [], KERNBASE⟩

/-- A process without user memory. -/
def smallProc : Proc := ⟨0x80400 * PGSIZE, 0, 0x80300 * PGSIZE, 0, 0, 0, []⟩

/-- A program of four bytes, at the given offset of the file. -/
def smallFile (off : ℕ) : File where
  bytes := leBytes 4 ELF_MAGIC ++ List.replicate 28 0 ++ leBytes 8 ELFHDR ++ List.replicate 16 0 ++
    leBytes 2 1 ++ List.replicate 6 0 ++
    leBytes 8 ELF_PROG_LOAD ++ leBytes 8 off ++ List.replicate 16 0 ++ leBytes 8 4 ++ leBytes 8 4 ++
    List.replicate 8 0
  size_le := by
    simp only [List.length_append, length_leBytes, List.length_replicate]
    decide

theorem le_length_smallFile (off : ℕ) : ELFHDR ≤ (smallFile off).bytes.length := by
  simp only [smallFile, List.length_append, length_leBytes, List.length_replicate]
  decide

theorem magic_smallFile (off : ℕ) : (smallFile off).elfhdr.magic = ELF_MAGIC := by
  show leValue ((((smallFile off).bytes.drop 0).take ELFHDR).take 4) = ELF_MAGIC
  simp only [smallFile, List.append_assoc]
  rw [List.drop_zero, List.take_take, Nat.min_eq_left (by decide),
    List.take_left' (length_leBytes 4 _), leValue_leBytes]
  decide

/-- The part of `exec` of the small process that makes the new image. -/
def makeSmall (off : ℕ) (argv : List (List UInt8)) : VmM (Option ℕ) := do
  match ← procPagetable KERNBASE smallProc.trapframe with
  | none => return none
  | some pt => return (← makeImage pt (smallFile off) (smallFile off).elfhdr argv).1

/-- The small process is made, and can execute the small program. -/
theorem exec_smallProc (off : ℕ) (argv : List (List UInt8))
    (hmake : (match procPagetable KERNBASE smallProc.trapframe smallMemory with
      | .ok (r, s) => decide (r = some smallProc.pagetable) && (match makeSmall off argv s with
          | .ok (sp, _) => sp.isSome
          | .error _ => false)
      | .error _ => false) = true) :
    ∃ s, Caller KERNBASE s smallProc ∧
      ∀ r p' s', exec KERNBASE [] (some (smallFile off)) argv smallProc s = .ok ((r, p'), s') →
        r = argv.length := by
  have hfree : FreeOk smallMemory := ⟨by decide, by decide⟩
  have hwp : wp (procPagetable KERNBASE smallProc.trapframe) _ (fun _ ↦ False) smallMemory :=
    procPagetable_spec hfree (by decide) (by decide)
  obtain ⟨r, s, hok, hr⟩ := ok_of_wp hwp
  rw [hok] at hmake
  dsimp only at hmake
  rw [Bool.and_eq_true, decide_eq_true_iff] at hmake
  obtain ⟨hr', hmake⟩ := hmake
  rw [hr'] at hr
  have hspace : Space (kernelMap KERNBASE smallProc.trapframe) (freePool smallMemory) s
    smallProc.pagetable 0 [] := hr
  have hcaller : Caller KERNBASE s smallProc :=
    ⟨by decide, by decide, hspace.kernelEnd.ge, _, hspace⟩
  refine ⟨s, hcaller, fun r p' s' hexec ↦ ?_⟩
  have hmake : wp (makeSmall off argv) (fun sp _ ↦ sp.isSome) (fun _ ↦ False) s := by
    rw [wp]
    cases hs : makeSmall off argv s with
    | ok _ =>
      rw [hs] at hmake
      exact hmake
    | error _ =>
      rw [hs] at hmake
      cases hmake
  have hheader := le_length_smallFile off
  have hmagic := magic_smallFile off
  rw [makeSmall] at hmake
  generalize smallFile off = file at hheader hmagic hexec hmake
  rw [wp_bind] at hmake
  obtain ⟨r', s₁, hpt, hmake⟩ := ok_of_wp hmake
  cases r' with
  | none => cases hmake
  | some pt =>
    dsimp only at hmake
    rw [wp_bind] at hmake
    obtain ⟨⟨sp, sz⟩, s₂, himage, hsp⟩ := ok_of_wp hmake
    obtain ⟨sp, rfl⟩ := Option.isSome_iff_exists.mp hsp
    exact exec_of_makeImage hexec hheader hmagic hpt himage

/-! ## Failure -/

/-- Whatever the file holds and whenever memory runs out, `exec` does not panic: it succeeds, or it
returns -1, and then the process and all memory in use are as before. -/
theorem exec_fails_cleanly (trampoline : ℕ) (path : List UInt8) (ip : Option File)
    (argv : List (List UInt8)) (hargv : IsArgv argv) (s : Phys) (p : Proc)
    (hcaller : Caller trampoline s p) : ∃ r p' s', exec trampoline path ip argv p s = .ok ((r, p'), s') ∧
    ((r = argv.length ∧ ProcOk (kernelMap trampoline p.trapframe) s' p') ∨
      (r = -1 ∧ p' = p ∧ (∀ m ∉ s.free, s'.page m = s.page m) ∧ (∀ m, m ∈ s'.free ↔ m ∈ s.free) ∧
        ProcOk (kernelMap trampoline p.trapframe) s' p ∧
        SameView s s' p.pagetable (pageCount p.sz))) := by
  obtain ⟨⟨r, p'⟩, s', hok, hexec⟩ :=
    ok_of_wp (exec_spec hcaller hargv path ip)
  refine ⟨r, p', s', hok, ?_⟩
  rcases hexec with ⟨hr, hp', hreleased⟩ | ⟨file, n, pt, sp, -, hr, -, hproc, -⟩
  · have hfree := (AddressSpace.own hcaller.proc).wf.free
    obtain ⟨hbeside, hview⟩ := (AddressSpace.beside_freePool hcaller.proc).keep
      (released_freePool hfree).holds hreleased.holds
    exact .inr ⟨hr, hp', hreleased.outside, hreleased.pages, hbeside.space, hview⟩
  · exact .inl ⟨hr, hproc⟩

/-- The small process executes a file that is not a program. -/
theorem exec_fails_cleanly_empty : ∃ s s', Caller KERNBASE s smallProc ∧
    exec KERNBASE [] (some ⟨[], Nat.zero_le _⟩) [] smallProc s = .ok ((-1, smallProc), s') := by
  obtain ⟨s, hcaller, -⟩ := exec_smallProc 0 [] (by decide +kernel)
  obtain ⟨r, p', s', hok, hcases⟩ := exec_fails_cleanly KERNBASE [] (some ⟨[], Nat.zero_le _⟩) []
    ⟨by decide, by decide⟩ s smallProc hcaller
  refine ⟨s, s', hcaller, ?_⟩
  rcases hcases with ⟨rfl, -⟩ | ⟨rfl, rfl, -⟩
  · cases hok
  · exact hok

/-! ## The arguments on the stack -/

/-- A new program finds its arguments on its stack, which is one page above a page that it cannot
use.  If they do not fit, `exec` fails; what it has written is in the stack page. -/
theorem exec_argument_stack (trampoline : ℕ) (path : List UInt8) (ip : Option File)
    (argv : List (List UInt8)) (hargv : IsArgv argv) (s : Phys) (p : Proc)
    (hcaller : Caller trampoline s p) :
    (∃ r p' s', exec trampoline path ip argv p s = .ok ((r, p'), s') ∧
      (r ≠ -1 → r = argv.length ∧ p'.a1 = p'.sp ∧ p'.sz % PGSIZE = 0 ∧ 2 * PGSIZE ≤ p'.sz ∧
        userFrame s'.page p'.pagetable (p'.sz / PGSIZE - 2) = none ∧
        ∃ ustack, ArgStack s'.page p'.pagetable (p'.sz - PGSIZE) p'.sp argv ustack) ∧
      (PGSIZE < stackRoom argv → r = -1 ∧ p' = p ∧ ∀ m ∉ s.free, s'.page m = s.page m)) ∧
    ∀ s₁ pt base frame, UserTable s₁.page pt → base % PGSIZE = 0 → PGSIZE ≤ base → base < MAXVA →
      userFrame s₁.page pt (base / PGSIZE) = some frame →
      ∃ r s₂, pushStack pt (base + PGSIZE) argv s₁ = .ok (r, s₂) ∧
        (r = none ↔ PGSIZE < stackRoom argv) ∧ ∀ m ≠ frame, s₂.page m = s₁.page m := by
  refine ⟨?_, fun s₁ pt base frame htable hbase hpos hmax hframe ↦ ?_⟩
  · obtain ⟨⟨r, p'⟩, s', hok, hexec⟩ :=
      ok_of_wp (exec_spec hcaller hargv path ip)
    refine ⟨r, p', s', hok, ?_⟩
    rcases hexec with ⟨hr, hp', hreleased⟩ | ⟨file, n, pt, sp, -, hr, hp', -, hnew⟩
    · exact ⟨fun hne ↦ absurd hr hne, fun _ ↦ ⟨hr, hp', hreleased.outside⟩⟩
    · refine ⟨fun _ ↦ ⟨hr, ?_⟩, fun hroom ↦ absurd hnew.room (Nat.not_le.mpr hroom)⟩
      dsimp only at hp'
      subst hp'
      have hlast : (n + 2) * PGSIZE - PGSIZE = (n + 1) * PGSIZE := by
        rw [Nat.succ_mul (n + 1), Nat.add_sub_cancel]
      refine ⟨rfl, Nat.mul_mod_left _ _, Nat.mul_le_mul_right _ (Nat.le_add_left 2 n), ?_, ?_⟩
      · dsimp only
        rw [Nat.mul_div_cancel _ (by decide), Nat.add_sub_cancel]
        exact hnew.guard
      · dsimp only
        rw [hlast]
        exact hnew.args
  · have hmapped : userFrame s₁.page pt (base / PGSIZE) ≠ none := by
      rw [hframe]
      exact Option.some_ne_none frame
    obtain ⟨r, s₂, hok, -, hchanged, hnone, hsome⟩ :=
      ok_of_wp (pushStack_spec hbase hpos hmax htable hmapped hargv.short hargv.count)
    refine ⟨r, s₂, hok, ⟨hnone, fun hroom ↦ ?_⟩, fun m hm ↦ Buffer.ext_get fun j ↦ ?_⟩
    · cases r with
      | none => rfl
      | some sp => exact absurd (hsome sp rfl).1 (Nat.not_le.mpr hroom)
    · refine hchanged.other m j fun va hlow hhigh hplace ↦ hm ?_
      have hpage : va / PGSIZE = base / PGSIZE := by
        simp only [PGSIZE] at hbase hhigh ⊢
        omega
      rw [place, hpage, hframe, Option.map_some, Option.some.injEq, Prod.mk.injEq] at hplace
      exact hplace.1.symm

/-- The small process executes the small program with one argument. -/
theorem exec_argument_stack_small :
    ∃ s p' s', exec KERNBASE [] (some (smallFile 0)) [[97]] smallProc s = .ok ((1, p'), s') ∧
      ∃ ustack, ArgStack s'.page p'.pagetable (p'.sz - PGSIZE) p'.sp [[97]] ustack := by
  obtain ⟨s, hcaller, hexec⟩ := exec_smallProc 0 [[97]] (by decide +kernel)
  obtain ⟨⟨r, p', s', hok, hargs, -⟩, -⟩ := exec_argument_stack KERNBASE [] (some (smallFile 0))
    [[97]] ⟨by decide, by decide⟩ s smallProc hcaller
  obtain rfl : r = 1 := hexec r p' s' hok
  exact ⟨s, p', s', hok, (hargs (by decide)).2.2.2.2.2⟩

end Xv6.Vm
