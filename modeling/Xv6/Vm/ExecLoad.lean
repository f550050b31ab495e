import Xv6.Vm.ExecSpec

/-!
# What `exec` Loads

The ELF header and the program headers say with 64 bits where the parts of the file are.  `exec`
uses 32 bits of these offsets.  A file whose offsets need more is not rejected when the low bits
happen to be inside the file, and then something else is loaded than the headers say.
-/

namespace Xv6.Vm

open Lib

open Fs (Proghdr ELFHDR PROGHDR ELF_MAGIC ELF_PROG_LOAD)

/-- The program headers of a file, at the 64-bit offset that its ELF header gives. -/
def File.headers (ip : File) : List Proghdr := ip.proghdrs ip.elfhdr.phnum ip.elfhdr.phoff

/-- An address of the segment. -/
def InSegment (ph : Proghdr) (a : ℕ) : Prop :=
  ph.type = ELF_PROG_LOAD ∧ ph.vaddr ≤ a ∧ a < ph.vaddr + ph.memsz

/-- No address is in two segments. -/
def DisjointSegments (phs : List Proghdr) : Prop :=
  phs.Pairwise fun ph ph' ↦ ∀ a, ¬ (InSegment ph a ∧ InSegment ph' a)

/-- All that the headers name is inside the file. -/
structure File.Inside (ip : File) : Prop where
  headers : ip.elfhdr.phnum = 0 ∨ ip.elfhdr.phoff + PROGHDR * ip.elfhdr.phnum ≤ ip.bytes.length
  segments : ∀ ph ∈ ip.headers, ph.type = ELF_PROG_LOAD →
    ph.filesz = 0 ∨ ph.off + ph.filesz ≤ ip.bytes.length

/-- The offsets that are used fit in 32 bits. -/
structure File.OffsetsFit (ip : File) : Prop where
  phoff : ip.elfhdr.phnum = 0 ∨ ip.elfhdr.phoff < 2 ^ 32
  off : ∀ ph ∈ ip.headers, ph.type = ELF_PROG_LOAD → ph.filesz = 0 ∨ ph.off < 2 ^ 32

/-- Memory is as the headers say: the bytes of the file for each segment, and zeros elsewhere below the
guard page. -/
structure HeadersLoaded (ip : File) (mem : Pages) (p : Proc) : Prop where
  file : ∀ ph ∈ ip.headers, ph.type = ELF_PROG_LOAD → ∀ k < ph.filesz,
    userByte mem p.pagetable (ph.vaddr + k) = ip.bytes[ph.off + k]?
  zero : ∀ ph ∈ ip.headers, ph.type = ELF_PROG_LOAD → ∀ k, ph.filesz ≤ k → k < ph.memsz →
    userByte mem p.pagetable (ph.vaddr + k) = some 0
  rest : ∀ a, a + 2 * PGSIZE < p.sz → (∀ ph ∈ ip.headers, ¬ InSegment ph a) →
    userByte mem p.pagetable a = some 0
  entry : p.epc = ip.elfhdr.entry

/-- `exec` loads what the headers say, and rejects a file that does not have all of it. -/
structure ExecLoads (ip : File) (r : ℤ) (p : Proc) (s : Phys) : Prop where
  loads : r ≠ -1 → DisjointSegments ip.headers → HeadersLoaded ip s.page p
  rejects : ¬ ip.Inside → r = -1

variable {ip : File} {phs : List Proghdr} {ph : Proghdr} {image : ℕ → UInt8} {a : ℕ}

/-! ## Segments over an image -/

/-- An address that gets a byte of the file. -/
def InFile (ph : Proghdr) (a : ℕ) : Prop :=
  ph.type = ELF_PROG_LOAD ∧ ph.vaddr ≤ a ∧ a < ph.vaddr + ph.filesz

theorem load_of_not_inFile (h : ¬ InFile ph a) : ip.load image ph a = image a := by
  rw [File.load]
  split
  · rename_i htype
    have hlength : (ip.segment (ph.off % 2 ^ 32) ph.filesz).length ≤ ph.filesz := List.length_take_le _ _
    rw [overlay, if_neg]
    exact fun hin ↦ h ⟨htype, hin.1, by omega⟩
  · rfl

theorem foldl_load_of_not_inFile (h : ∀ ph ∈ phs, ¬ InFile ph a) :
    phs.foldl ip.load image a = image a := by
  induction phs generalizing image with
  | nil => rfl
  | cons ph phs ih =>
    rw [List.foldl_cons, ih fun ph' hph' ↦ h ph' (List.mem_cons_of_mem _ hph'),
      load_of_not_inFile (h ph List.mem_cons_self)]

/-- An address that gets a byte from one segment only. -/
theorem foldl_load_of_inFile (ip : File) (image : ℕ → UInt8) (hph : ph ∈ phs) (hin : InFile ph a)
    (hinside : ph.off % 2 ^ 32 + ph.filesz ≤ ip.bytes.length)
    (hunique : ∀ ph' ∈ phs, InFile ph' a → ph' = ph) :
    some (phs.foldl ip.load image a) = ip.bytes[ph.off % 2 ^ 32 + (a - ph.vaddr)]? := by
  induction phs generalizing image with
  | nil => cases hph
  | cons ph' phs ih =>
    rw [List.foldl_cons]
    by_cases hmem : ph ∈ phs
    · exact ih _ hmem fun ph'' hph'' ↦ hunique ph'' (List.mem_cons_of_mem _ hph'')
    · -- The segments after this one do not have the address.
      obtain rfl : ph = ph' := (List.mem_cons.mp hph).resolve_right hmem
      obtain ⟨htype, hlow, hhigh⟩ := hin
      have hlength := ip.length_segment (n := ph.filesz) (.inr hinside)
      rw [foldl_load_of_not_inFile fun ph'' hph'' hin'' ↦ ?_]
      · rw [File.load, if_pos htype, overlay, hlength, if_pos ⟨hlow, hhigh⟩,
          List.getD_eq_getElem?_getD, File.segment, List.getElem?_take_of_lt (by omega),
          List.getElem?_drop, List.getElem?_eq_getElem (by omega)]
        rfl
      · rw [hunique ph'' (List.mem_cons_of_mem _ hph'') hin''] at hph''
        exact hmem hph''

/-! ## The new image -/

theorem File.Inside.offsetsFit (h : ip.Inside) : ip.OffsetsFit := by
  have hfile : ip.bytes.length < 2 ^ 32 := ip.size_le.trans_lt (by decide)
  refine ⟨h.headers.imp_right fun hle ↦ by omega, fun ph hph htype ↦ ?_⟩
  exact (h.segments ph hph htype).imp_right fun hle ↦ by omega

/-- The headers that are read are those that are meant. -/
theorem File.OffsetsFit.narrowed (h : ip.OffsetsFit) : ip.narrowed = ip.headers := by
  rw [File.narrowed, File.headers]
  rcases h.phoff with hzero | hlt
  · rw [hzero]
    rfl
  · rw [Nat.mod_eq_of_lt hlt]

/-- An address is in one segment. -/
theorem DisjointSegments.unique {ph' : Proghdr} (h : DisjointSegments phs) (hph : ph ∈ phs)
    (hph' : ph' ∈ phs) (hin : InSegment ph a) (hin' : InSegment ph' a) : ph' = ph := by
  have hsymm : Std.Symm fun ph ph' : Proghdr ↦ ∀ a, ¬ (InSegment ph a ∧ InSegment ph' a) :=
    ⟨fun _ _ hnot a hin ↦ hnot a hin.symm⟩
  by_contra hne
  exact h.forall hph' hph hne a ⟨hin', hin⟩

section Loaded

variable {argv : List (List UInt8)} {mem : Pages} {pt n sp : ℕ} (h : NewImage ip argv mem pt n sp)
  (hfit : ip.OffsetsFit)

include h hfit

theorem NewImage.accepted_header (hph : ph ∈ ip.headers) (htype : ph.type = ELF_PROG_LOAD) :
    ph.filesz ≤ ph.memsz ∧ ph.vaddr + ph.memsz ≤ n * PGSIZE ∧
      (ph.filesz = 0 ∨ ph.off % 2 ^ 32 = ph.off ∧ ph.off + ph.filesz ≤ ip.bytes.length) := by
  have haccepted := h.accepted ph (hfit.narrowed ▸ hph) htype
  refine ⟨haccepted.filesz_le, haccepted.memsz_le, ?_⟩
  rcases hfit.off ph hph htype with hzero | hlt
  · exact .inl hzero
  · have hmod := Nat.mod_eq_of_lt hlt
    have hinside := haccepted.inside
    rw [hmod] at hinside
    exact hinside.imp_right fun hle ↦ ⟨hmod, hle⟩

theorem NewImage.inside : ip.Inside := by
  refine ⟨?_, fun ph hph htype ↦ ?_⟩
  · rcases hfit.phoff with hzero | hlt
    · exact .inl hzero
    · have hheaders := h.headers
      rw [Nat.mod_eq_of_lt hlt] at hheaders
      exact hheaders
  · exact (h.accepted_header hfit hph htype).2.2.imp_right And.right

theorem NewImage.inSegment {a : ℕ} (hph : ph ∈ ip.headers) (hin : InFile ph a) : InSegment ph a := by
  obtain ⟨htype, hlow, hhigh⟩ := hin
  have hle := (h.accepted_header hfit hph htype).1
  exact ⟨htype, hlow, by omega⟩

/-- Segments that do not overlap are in memory as the headers say. -/
theorem NewImage.loaded {p : Proc} (hdisjoint : DisjointSegments ip.headers) (hpt : p.pagetable = pt)
    (hsz : p.sz = (n + 2) * PGSIZE) (hentry : p.epc = ip.elfhdr.entry) : HeadersLoaded ip mem p := by
  have himage : ip.image = ip.headers.foldl ip.load fun _ ↦ 0 := by
    rw [File.image, hfit.narrowed]
  subst hpt
  refine ⟨fun ph hph htype k hk ↦ ?_, fun ph hph htype k hle hk ↦ ?_, fun a ha hout ↦ ?_, hentry⟩
  · obtain ⟨hle, hend, hfile⟩ := h.accepted_header hfit hph htype
    obtain ⟨hmod, hinside⟩ := hfile.resolve_left (by omega)
    have hin : InFile ph (ph.vaddr + k) := ⟨htype, by omega, by omega⟩
    have hbyte := foldl_load_of_inFile ip (fun _ ↦ 0) hph hin (hmod.symm ▸ hinside)
      fun ph' hph' hin' ↦ hdisjoint.unique hph hph' (h.inSegment hfit hph hin)
        (h.inSegment hfit hph' hin')
    rw [h.byte _ (by omega), himage, hbyte, hmod, Nat.add_sub_cancel_left]
  · obtain ⟨hle', hend, -⟩ := h.accepted_header hfit hph htype
    have hin : InSegment ph (ph.vaddr + k) := ⟨htype, by omega, by omega⟩
    rw [h.byte _ (by omega), himage, foldl_load_of_not_inFile fun ph' hph' hin' ↦ ?_]
    obtain rfl : ph' = ph := hdisjoint.unique hph hph' hin (h.inSegment hfit hph' hin')
    have hhigh := hin'.2.2
    omega
  · have ha : a < n * PGSIZE := by
      rw [hsz, Nat.add_mul] at ha
      omega
    rw [h.byte a ha, himage, foldl_load_of_not_inFile fun ph hph hin ↦ ?_]
    exact hout ph hph (h.inSegment hfit hph hin)

end Loaded

end Xv6.Vm
