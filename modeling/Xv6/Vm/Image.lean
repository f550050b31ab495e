import Xv6.Vm.Exec

/-!
# Loading the Image of a Program

While `exec` loads a program, the new user memory holds an image: a byte for each address, which is
zero until a segment of the file is put there.  A file is accepted if all its segments are.
-/

namespace Xv6.Vm

open Lib

open Fs (Proghdr PROGHDR ELF_PROG_LOAD)

/-- The permissions of the pages of user memory. -/
abbrev PTE_USER : ℕ := PTE_W ||| PTE_X ||| PTE_R ||| PTE_U ||| PTE_V

/-- User memory of `sz` bytes, rounded up to pages, and what it holds. -/
structure Image (kernel : ℕ → Option (ℕ × ℕ)) (pool : Pool) (s : Phys) (pt sz : ℕ)
    (image : ℕ → UInt8) : Prop where
  space : Space kernel pool s pt (pageCount sz) []
  user : ∀ vpn < pageCount sz, ∃ frame, lookup s.page pt vpn = some (frame, PTE_USER)
  byte : ∀ va < pageCount sz * PGSIZE, userByte s.page pt va = some (image va)
  zero : ∀ va, pageCount sz * PGSIZE ≤ va → image va = 0

/-- Bytes are put over an image. -/
def overlay (image : ℕ → UInt8) (va : ℕ) (bytes : List UInt8) (a : ℕ) : UInt8 :=
  if va ≤ a ∧ a < va + bytes.length then bytes.getD (a - va) 0 else image a

variable {kernel : ℕ → Option (ℕ × ℕ)} {pool : Pool} {s s' : Phys} {pt sz va n : ℕ}
  {image : ℕ → UInt8} {bytes bytes' : List UInt8} {E : Stop → Prop}

theorem overlay_nil : overlay image va [] = image := by
  funext a
  rw [overlay, if_neg]
  rw [List.length_nil]
  omega

theorem overlay_append :
    overlay (overlay image va bytes) (va + bytes.length) bytes' =
      overlay image va (bytes ++ bytes') := by
  funext a
  simp only [overlay, List.length_append, List.getD_eq_getElem?_getD]
  by_cases hlow : va ≤ a ∧ a < va + bytes.length
  · rw [if_neg (by omega), if_pos hlow, if_pos (by omega), List.getElem?_append_left (by omega)]
  · rw [if_neg hlow]
    by_cases hhigh : va + bytes.length ≤ a ∧ a < va + bytes.length + bytes'.length
    · rw [if_pos hhigh, if_pos (by omega), List.getElem?_append_right (by omega), Nat.sub_sub]
    · rw [if_neg hhigh, if_neg (by omega)]

/-! ## What a user reads -/

/-- A byte of user memory is a byte of what is seen. -/
theorem userByte_eq_view (mem : Pages) (pt va : ℕ) : userByte mem pt va =
    if va / PGSIZE < MAXVA / PGSIZE then (view mem pt (va / PGSIZE)).bind fun b ↦
      if b.2 &&& PTE_U = 0 then none else some (b.1.get (va % PGSIZE))
    else none := by
  rw [userByte, place, userFrame, view]
  split
  · cases lookup mem pt (va / PGSIZE) with
    | none => rfl
    | some b =>
      simp only [Option.bind_some, Option.map_some]
      split
      · rfl
      · rfl
  · rfl

theorem SameView.userByte (h : SameView s s' pt n) (hva : va / PGSIZE < n) :
    userByte s'.page pt va = userByte s.page pt va := by
  rw [userByte_eq_view, userByte_eq_view, (h _ hva).2]

theorem div_lt_of_lt_mul (h : va < n * PGSIZE) : va / PGSIZE < n :=
  Nat.div_lt_of_lt_mul (Nat.mul_comm n PGSIZE ▸ h)

theorem lookup_of_view {mem : Pages} {vpn flags : ℕ} {page : Buffer PGSIZE}
    (h : view mem pt vpn = some (page, flags)) : ∃ frame, lookup mem pt vpn = some (frame, flags) := by
  rw [view, Option.map_eq_some_iff] at h
  obtain ⟨⟨frame, flags'⟩, hlookup, heq⟩ := h
  obtain rfl : flags' = flags := (Prod.mk.inj heq).2
  exact ⟨frame, hlookup⟩

/-! ## Steps of loading -/

/-- A new page table has no memory. -/
theorem Space.image_zero (h : Space kernel pool s pt 0 []) : Image kernel pool s pt 0 fun _ ↦ 0 :=
  ⟨h, fun _ hvpn ↦ absurd hvpn (Nat.not_lt_zero _),
    fun va hva ↦ absurd hva (by show ¬ va < 0 * PGSIZE; omega), fun _ _ ↦ rfl⟩

namespace Image

variable (hkernel : IsKernel kernel) (hend : KERNBASE ≤ pool.kernelEnd)
  (h : Image kernel pool s pt sz image)

include h

theorem exists_userFrame (hva : va < pageCount sz * PGSIZE) :
    ∃ frame, userFrame s.page pt (va / PGSIZE) = some frame := by
  have hbyte := h.byte va hva
  rw [userByte, Option.map_eq_some_iff] at hbyte
  obtain ⟨b, hb, -⟩ := hbyte
  rw [place, Option.map_eq_some_iff] at hb
  obtain ⟨frame, hframe, -⟩ := hb
  exact ⟨frame, hframe⟩

/-- `uvmalloc` adds pages of zeros, or changes nothing. -/
theorem wp_uvmalloc {newsz : ℕ} (hlow : ∀ vpn < USERTOP, kernel vpn = none) :
    wp (uvmalloc pt sz newsz) (fun r s' ↦ (r = 0 ∧ Image kernel pool s' pt sz image) ∨
      (r = max sz newsz ∧ Image kernel pool s' pt r image)) E s := by
  by_cases hle : sz ≤ newsz
  · refine wp_post (uvmalloc_spec hlow h.space (pgroundup_div h.space.fits) hle) fun r s' halloc ↦ ?_
    rcases halloc with ⟨rfl, hspace, hview, hnew⟩ | ⟨rfl, hspace, hview⟩
    · refine .inr ⟨(Nat.max_eq_right hle).symm, hspace, fun vpn hvpn ↦ ?_, fun va hva ↦ ?_,
        fun va hva ↦ h.zero va ?_⟩
      · by_cases hold : vpn < pageCount sz
        · rw [(hview vpn hold).1]
          exact h.user vpn hold
        · exact lookup_of_view (hnew vpn (Nat.not_lt.mp hold) hvpn)
      · by_cases hold : va < pageCount sz * PGSIZE
        · rw [hview.userByte (div_lt_of_lt_mul hold)]
          exact h.byte va hold
        · have hpage : pageCount sz ≤ va / PGSIZE := by
            rw [Nat.le_div_iff_mul_le (by decide)]
            exact Nat.not_lt.mp hold
          have hsize := hspace.size_le
          have hlt := div_lt_of_lt_mul hva
          rw [userByte_eq_view, if_pos (hlt.trans_le (hsize.trans (by decide))),
            hnew _ hpage hlt, h.zero va (Nat.not_lt.mp hold), Option.bind_some,
            if_neg (by decide : ¬ PTE_USER &&& PTE_U = 0)]
          have hmod : va % PGSIZE < PGSIZE := Nat.mod_lt _ (by decide)
          rw [Buffer.get, dif_pos hmod]
          rfl
      · exact (Nat.mul_le_mul_right _ (pageCount_mono hle)).trans hva
    · refine .inl ⟨rfl, hspace, fun vpn hvpn ↦ ?_, fun va hva ↦ ?_, h.zero⟩
      · rw [(hview vpn hvpn).1]
        exact h.user vpn hvpn
      · rw [hview.userByte (div_lt_of_lt_mul hva)]
        exact h.byte va hva
  · rw [uvmalloc, if_pos (Nat.not_le.mp hle)]
    refine (wp_pure _).mpr (.inr ⟨(Nat.max_eq_left (Nat.not_le.mp hle).le).symm, h⟩)

include hend

theorem sz_le : sz ≤ 2 ^ 27 := h.space.sz_le (h.space.kernelEnd ▸ hend)

include hkernel

theorem userTable : UserTable s.page pt :=
  h.space.userTable hkernel (h.space.kernelEnd ▸ hend)

/-- Bytes are stored. -/
theorem store (hs' : s' = { s with page := s'.page }) (hstored : Stored s.page pt va bytes s'.page)
    (hva : va + bytes.length ≤ pageCount sz * PGSIZE) :
    Image kernel pool s' pt sz (overlay image va bytes) := by
  have htable := h.userTable hkernel hend
  refine ⟨h.space.stored hkernel hs' hstored, fun vpn hvpn ↦ ?_, fun a ha ↦ ?_, fun a ha ↦ ?_⟩
  · rw [lookup_congr hstored.tables]
    exact h.user vpn hvpn
  · rw [overlay]
    split
    · rename_i hin
      have hread := hstored.read (a - va) (by omega)
      rw [Nat.add_sub_cancel' hin.1] at hread
      rw [hread, List.getD_eq_getElem?_getD, List.getElem?_eq_getElem (by omega)]
      rfl
    · rename_i hout
      rw [← h.byte a ha, userByte, userByte, place_congr hstored.tables]
      refine Option.map_congr fun b hb ↦ hstored.other b.1 b.2 fun i hi hb' ↦ hout ?_
      have heq := htable.place_inj hb hb'
      omega
  · rw [overlay, if_neg (by omega)]
    exact h.zero a ha

section Page

variable (hpage : va % PGSIZE = 0)

include hpage

/-- `walkaddr` of a page of the image. -/
theorem wp_walkaddr {Q : ℕ → Phys → Prop} (hva : va < sz)
    (hQ : ∀ frame, frame ≠ 0 → userFrame s.page pt (va / PGSIZE) = some frame →
      Q (frame * PGSIZE) s) : wp (walkaddr pt (va % 2 ^ 64)) Q E s := by
  have htable := h.userTable hkernel hend
  have hsz := h.sz_le hend
  obtain ⟨frame, hframe⟩ := h.exists_userFrame (hva.trans_le (le_pageCount sz))
  have hwalk : va % 2 ^ 64 = pgrounddown va := by
    rw [pgrounddown, hpage, Nat.mod_eq_of_lt (by omega), Nat.sub_zero]
  rw [hwalk]
  refine Vm.wp_walkaddr htable.aligned (fun hnone ↦ ?_) fun frame' hframe' ↦ ?_
  · rw [hframe] at hnone
    cases hnone
  · exact hQ frame' (fun heq ↦ htable.nonzero _ (heq ▸ hframe')) hframe'

/-- Bytes are moved to a page of the image. -/
theorem wp_memmove {Q : Unit → Phys → Prop} {frame : ℕ}
    (hframe : userFrame s.page pt (va / PGSIZE) = some frame) (hle : bytes.length ≤ PGSIZE)
    (hva : va + bytes.length ≤ sz)
    (hQ : ∀ s', Image kernel pool s' pt sz (overlay image va bytes) → Q () s') :
    wp (memmove (frame * PGSIZE) bytes) Q E s := by
  have hmod : frame * PGSIZE % PGSIZE = va % PGSIZE := by
    rw [hpage, Nat.mul_mod_left]
  rw [Vm.wp_memmove, Nat.mul_div_cancel _ (by decide), hmod]
  have hstored : Stored s.page pt va bytes _ :=
    (h.userTable hkernel hend).store_chunk hframe (by omega)
  exact hQ _ (h.store hkernel hend rfl hstored (hva.trans (le_pageCount sz)))

end Page

end Image

/-! ## `loadseg` -/

/-- The whole range is read. -/
theorem File.length_readi (ip : File) {off : ℕ} (hn : n < 2 ^ 32) (hpos : 0 < n) :
    (ip.readi off n).length = n ↔ off + n ≤ ip.bytes.length := by
  have hsize : ip.bytes.length < 2 ^ 32 := ip.size_le.trans_lt (by decide)
  rw [ip.readi_eq off hn]
  split
  · rw [List.length_nil]
    omega
  · rw [List.length_take, List.length_drop]
    omega

theorem File.length_readi_le (ip : File) (off : ℕ) (hn : n < 2 ^ 32) :
    (ip.readi off n).length ≤ n := by
  rw [ip.readi_eq off hn]
  split
  · exact Nat.zero_le _
  · exact List.length_take_le _ _

/-- The bytes of a segment of the file. -/
def File.segment (ip : File) (off n : ℕ) : List UInt8 := (ip.bytes.drop off).take n

theorem File.readi_of_le (ip : File) {off : ℕ} (hn : n < 2 ^ 32) (h : off + n ≤ ip.bytes.length) :
    ip.readi off n = ip.segment off n := by
  have hsize : ip.bytes.length < 2 ^ 32 := ip.size_le.trans_lt (by decide)
  rw [ip.readi_eq off hn, if_neg (by omega), segment]

theorem File.length_segment (ip : File) {off : ℕ} (h : n = 0 ∨ off + n ≤ ip.bytes.length) :
    (ip.segment off n).length = n := by
  rw [segment, List.length_take, List.length_drop]
  omega

/-- A segment is loaded piece by piece. -/
theorem overlay_segment (ip : File) {off m : ℕ} (h : off + m ≤ ip.bytes.length) :
    overlay (overlay image va (ip.segment off m)) (va + m) (ip.segment (off + m) n) =
      overlay image va (ip.segment off (m + n)) := by
  have happend : ip.segment off (m + n) = ip.segment off m ++ ip.segment (off + m) n := by
    rw [File.segment, File.segment, File.segment, List.take_add, List.drop_drop]
  rw [happend, ← overlay_append, ip.length_segment (.inr h)]

theorem File.segment_zero (ip : File) (off : ℕ) : ip.segment off 0 = [] := List.take_zero

section Loadseg

variable (hkernel : IsKernel kernel) (hend : KERNBASE ≤ pool.kernelEnd) {ip : File} {offset size : ℕ}
  (hva : va % PGSIZE = 0) (hsize : va + size ≤ sz) (hoffset : offset < 2 ^ 32)

include hkernel hend hva hsize hoffset

/-- The segment is loaded from byte `i` on. -/
theorem loadsegLoop_spec {fuel i : ℕ} (h : Image kernel pool s pt sz image) (hi : i % PGSIZE = 0)
    (hread : i = 0 ∨ size ≤ i ∨ offset + i ≤ ip.bytes.length) (hlt : i < size + PGSIZE)
    (hfuel : size + PGSIZE ≤ i + fuel * PGSIZE) :
    wp (loadsegLoop pt va ip offset size fuel i) (fun r s' ↦
      ∃ image', Image kernel pool s' pt sz image' ∧
        (r = true → image' = overlay image (va + i) (ip.segment (offset + i) (size - i)) ∧
          (size ≤ i ∨ offset + size ≤ ip.bytes.length))) E s := by
  have hsz := h.sz_le hend
  have hfile : ip.bytes.length < 2 ^ 32 := ip.size_le.trans_lt (by decide)
  induction fuel generalizing i s image with
  | zero => omega
  | succ fuel ih =>
    rw [loadsegLoop]
    split
    · rename_i hmore
      have hpage : (va + i) % PGSIZE = 0 := by
        simp only [PGSIZE] at hva hi ⊢
        omega
      have hoff : (offset + i) % 2 ^ 32 = offset + i := Nat.mod_eq_of_lt (by omega)
      have hmin : (if size - i < PGSIZE then size - i else PGSIZE) = min (size - i) PGSIZE := by
        split <;> omega
      rw [wp_bind]
      refine h.wp_walkaddr hkernel hend hpage (by omega) fun frame hne hframe ↦ ?_
      rw [if_neg (Nat.mul_ne_zero hne (by decide)), hoff, hmin, wp_bind]
      generalize hn : min (size - i) PGSIZE = n
      have hn' : 0 < n ∧ n < 2 ^ 32 := by
        simp only [PGSIZE] at hn
        omega
      have hle := ip.length_readi_le (offset + i) hn'.2
      refine h.wp_memmove hkernel hend hpage hframe (by omega) (by omega) fun s₁ h₁ ↦ ?_
      split
      · exact (wp_pure _).mpr ⟨_, h₁, fun hfalse ↦ absurd hfalse Bool.false_ne_true⟩
      · rename_i hfull
        have hin := (ip.length_readi hn'.2 hn'.1).mp (not_not.mp hfull)
        have hnext : (i + PGSIZE) % 2 ^ 32 = i + PGSIZE := Nat.mod_eq_of_lt (by
          simp only [PGSIZE]
          omega)
        rw [ip.readi_of_le hn'.2 hin] at h₁
        rw [hnext]
        refine wp_post (ih h₁ ?_ (by omega) (by omega) ?_) ?_
        · rw [Nat.add_mod_right, hi]
        · rw [Nat.succ_mul] at hfuel
          omega
        · rintro r s' ⟨image', himage, hloaded⟩
          refine ⟨image', himage, fun hr ↦ ?_⟩
          obtain ⟨rfl, hend'⟩ := hloaded hr
          refine ⟨?_, by omega⟩
          by_cases hlast : size - i ≤ PGSIZE
          · have hzero : size - (i + PGSIZE) = 0 := by omega
            rw [hzero, ip.segment_zero, overlay_nil, ← hn, Nat.min_eq_left hlast]
          · obtain rfl : PGSIZE = n := by omega
            have hsplit : size - i = PGSIZE + (size - (i + PGSIZE)) := by omega
            rw [hsplit, ← overlay_segment ip hin, Nat.add_assoc, Nat.add_assoc]
    · rename_i hdone
      have hzero : size - i = 0 := by omega
      refine (wp_pure _).mpr ⟨image, h, fun _ ↦ ⟨?_, .inl (Nat.not_lt.mp hdone)⟩⟩
      rw [hzero, ip.segment_zero, overlay_nil]

/-- A segment that is loaded is part of the file. -/
theorem loadseg_spec (h : Image kernel pool s pt sz image) :
    wp (loadseg pt va ip offset size) (fun r s' ↦ ∃ image', Image kernel pool s' pt sz image' ∧
      (r = true → image' = overlay image va (ip.segment offset size) ∧
        (size = 0 ∨ offset + size ≤ ip.bytes.length))) E s := by
  have hsz := h.sz_le hend
  have hpos : 0 < PGSIZE := by decide
  refine wp_post (loadsegLoop_spec hkernel hend hva hsize hoffset h (Nat.zero_mod _) (.inl rfl)
    (by omega) ?_) ?_
  · simp only [PGSIZE]
    omega
  · rintro r s' ⟨image', himage, hloaded⟩
    refine ⟨image', himage, fun hr ↦ ?_⟩
    obtain ⟨rfl, hin⟩ := hloaded hr
    exact ⟨rfl, hin.imp_left Nat.le_zero.mp⟩

end Loadseg

/-! ## The program headers -/

/-- The program header at an offset of the file. -/
def File.proghdr (ip : File) (off : ℕ) : Proghdr := .decode (ip.segment off PROGHDR)

/-- The program headers from an offset of the file on. -/
def File.proghdrs (ip : File) : ℕ → ℕ → List Proghdr
  | 0, _ => []
  | count + 1, off => ip.proghdr off :: ip.proghdrs count (off + PROGHDR)

/-- The segment of a program header is loaded.  Of its offset in the file 32 bits are used. -/
def File.load (ip : File) (image : ℕ → UInt8) (ph : Proghdr) : ℕ → UInt8 :=
  if ph.type = ELF_PROG_LOAD then overlay image ph.vaddr (ip.segment (ph.off % 2 ^ 32) ph.filesz)
  else image

/-- A segment that `exec` accepts. -/
structure Accepted (ip : File) (sz : ℕ) (ph : Proghdr) : Prop where
  filesz_le : ph.filesz ≤ ph.memsz
  memsz_le : ph.vaddr + ph.memsz ≤ sz
  inside : ph.filesz = 0 ∨ ph.off % 2 ^ 32 + ph.filesz ≤ ip.bytes.length

theorem Accepted.mono {ip : File} {sz' : ℕ} {ph : Proghdr} (h : Accepted ip sz ph) (hle : sz ≤ sz') :
    Accepted ip sz' ph := ⟨h.filesz_le, h.memsz_le.trans hle, h.inside⟩

theorem leValue_take_lt (bytes : List UInt8) : leValue (bytes.take 8) < 2 ^ 64 :=
  (leValue_lt _).trans_le (Nat.pow_le_pow_right (n := 256) (by decide) (List.length_take_le 8 bytes))

/-- An address range that does not wrap around. -/
theorem File.range_lt {ip : File} {off : ℕ}
    (h : ¬ ((ip.proghdr off).vaddr + (ip.proghdr off).memsz) % 2 ^ 64 < (ip.proghdr off).vaddr) :
    (ip.proghdr off).vaddr + (ip.proghdr off).memsz < 2 ^ 64 := by
  have hvaddr : (ip.proghdr off).vaddr < 2 ^ 64 := leValue_take_lt _
  have hmemsz : (ip.proghdr off).memsz < 2 ^ 64 := leValue_take_lt _
  omega

/-- The segments of all headers are loaded, or the file is not accepted. -/
structure Program (kernel : ℕ → Option (ℕ × ℕ)) (pool : Pool) (pt : ℕ) (ip : File)
    (count off sz : ℕ) (image : ℕ → UInt8) (r : Bool × ℕ) (s : Phys) : Prop where
  loaded : ∃ image', Image kernel pool s pt r.2 image' ∧
    (r.1 = true → image' = (ip.proghdrs count off).foldl ip.load image)
  le : sz ≤ r.2
  headers : r.1 = true → count = 0 ∨ off + PROGHDR * count ≤ ip.bytes.length
  accepted : r.1 = true → ∀ ph ∈ ip.proghdrs count off, ph.type = ELF_PROG_LOAD →
    Accepted ip r.2 ph

section Program

variable {ip : File} {count off sz' : ℕ} {image' : ℕ → UInt8}

theorem Image.rejected (h : Image kernel pool s pt sz' image') (hle : sz ≤ sz') :
    Program kernel pool pt ip count off sz image (false, sz') s :=
  ⟨⟨image', h, fun hfalse ↦ absurd hfalse Bool.false_ne_true⟩, hle,
    fun hfalse ↦ absurd hfalse Bool.false_ne_true, fun hfalse ↦ absurd hfalse Bool.false_ne_true⟩

/-- The first header is loaded, and then the others. -/
theorem Program.cons {r : Bool × ℕ} (hin : off + PROGHDR ≤ ip.bytes.length) (hle : sz ≤ sz')
    (haccepted : (ip.proghdr off).type = ELF_PROG_LOAD → Accepted ip sz' (ip.proghdr off))
    (h : Program kernel pool pt ip count (off + PROGHDR) sz' (ip.load image (ip.proghdr off)) r s) :
    Program kernel pool pt ip (count + 1) off sz image r s := by
  refine ⟨h.loaded, hle.trans h.le, fun hr ↦ .inr ?_, fun hr ph hph ↦ ?_⟩
  · rw [Nat.mul_succ]
    rcases h.headers hr with rfl | hheaders
    · exact hin
    · omega
  · rcases List.mem_cons.mp hph with rfl | hph
    · exact fun htype ↦ (haccepted htype).mono h.le
    · exact h.accepted hr ph hph

theorem loadProgram_spec (hkernel : IsKernel kernel) (hend : KERNBASE ≤ pool.kernelEnd)
    (hoff : off < 2 ^ 32) (h : Image kernel pool s pt sz image) :
    wp (loadProgram pt ip count off sz) (Program kernel pool pt ip count off sz image) E s := by
  have hfile : ip.bytes.length < 2 ^ 32 := ip.size_le.trans_lt (by decide)
  induction count generalizing off sz s image with
  | zero =>
    refine (wp_pure _).mpr ⟨⟨image, h, fun _ ↦ rfl⟩, le_rfl, fun _ ↦ .inl rfl, fun _ ph hph ↦ ?_⟩
    cases hph
  | succ count ih =>
    rw [loadProgram]
    split
    · exact (wp_pure _).mpr (h.rejected le_rfl)
    rename_i hfull
    have hin : off + PROGHDR ≤ ip.bytes.length :=
      (ip.length_readi (by decide) (by decide)).mp (not_not.mp hfull)
    have hnext : (off + PROGHDR) % 2 ^ 32 = off + PROGHDR := Nat.mod_eq_of_lt (by omega)
    have hoff' : off + PROGHDR < 2 ^ 32 := by omega
    rw [ip.readi_of_le (by decide) hin, hnext, ← File.proghdr]
    dsimp only
    split
    · -- Other headers are passed over.
      rename_i htype
      have hload : ip.load image (ip.proghdr off) = image := if_neg htype
      refine wp_post (ih hoff' h) fun r s' hprogram ↦
        .cons hin le_rfl (fun htype' ↦ absurd htype' htype) ?_
      rw [hload]
      exact hprogram
    rename_i htype
    split
    · exact (wp_pure _).mpr (h.rejected le_rfl)
    rename_i hfilesz
    split
    · exact (wp_pure _).mpr (h.rejected le_rfl)
    rename_i hwrap
    have hrange := ip.range_lt hwrap
    rw [Nat.mod_eq_of_lt hrange, wp_bind]
    refine wp_post (h.wp_uvmalloc hkernel.low) fun sz₁ s₁ halloc ↦ ?_
    split
    · rename_i hzero
      rcases halloc with ⟨-, h₁⟩ | ⟨hmax, h₁⟩
      · exact (wp_pure _).mpr (h₁.rejected le_rfl)
      · obtain rfl : sz₁ = sz := by omega
        exact (wp_pure _).mpr (h₁.rejected le_rfl)
    rename_i hzero
    obtain ⟨hmax, h₁⟩ : sz₁ = max sz _ ∧ Image kernel pool s₁ pt sz₁ image :=
      halloc.resolve_left fun hnot ↦ hzero hnot.1
    have hle : sz ≤ sz₁ := by omega
    split
    · exact (wp_pure _).mpr (h₁.rejected hle)
    rename_i halign
    have hsz₁ := h₁.sz_le hend
    have hsmall : (ip.proghdr off).filesz % 2 ^ 32 = (ip.proghdr off).filesz :=
      Nat.mod_eq_of_lt (by omega)
    rw [hsmall, wp_bind]
    refine wp_post (loadseg_spec hkernel hend (not_not.mp halign) (by omega)
      (Nat.mod_lt _ (by decide)) h₁) fun r s₂ hloadseg ↦ ?_
    obtain ⟨image', h₂, hloaded⟩ := hloadseg
    cases r with
    | false => exact (wp_pure _).mpr (h₂.rejected hle)
    | true =>
      obtain ⟨rfl, hinside⟩ := hloaded rfl
      have hload : ip.load image (ip.proghdr off) = overlay image (ip.proghdr off).vaddr
          (ip.segment ((ip.proghdr off).off % 2 ^ 32) (ip.proghdr off).filesz) :=
        if_pos (not_not.mp htype)
      rw [if_pos rfl]
      refine wp_post (ih hoff' h₂) fun r s' hprogram ↦ .cons hin hle (fun _ ↦ ?_) ?_
      · exact ⟨Nat.not_lt.mp hfilesz, by omega, hinside⟩
      · rw [hload]
        exact hprogram

end Program

end Xv6.Vm
