import Xv6.Vm.Grow

/-!
# Copying between the Kernel and User Memory

`copyout` and `copyin` go through the page table, page by page.  A byte of user memory is a byte of
a physical page that is mapped for the user.  As long as distinct pages are mapped to distinct
physical pages, which are not part of the page table, a copy changes just the bytes it should.
-/

namespace Xv6.Vm

open Lib

/-- The physical page of a page of user memory. -/
def userFrame (mem : Pages) (pt vpn : ℕ) : Option ℕ :=
  if vpn < MAXVA / PGSIZE then
    (lookup mem pt vpn).bind fun b ↦ if b.2 &&& PTE_U = 0 then none else some b.1
  else none

/-- The physical page and the offset of a byte of user memory. -/
def place (mem : Pages) (pt va : ℕ) : Option (ℕ × ℕ) :=
  (userFrame mem pt (va / PGSIZE)).map fun frame ↦ (frame, va % PGSIZE)

/-- A byte of user memory. -/
def userByte (mem : Pages) (pt va : ℕ) : Option UInt8 :=
  (place mem pt va).map fun b ↦ (mem b.1).get b.2

variable {mem mem' mem'' : Pages} {s : Phys} {pt va vpn frame n k : ℕ} {bytes bytes' : List UInt8}
  {E : Stop → Prop}

theorem userFrame_congr (h : ∀ m, IsTable mem pt m → mem' m = mem m) :
    userFrame mem' pt vpn = userFrame mem pt vpn := by
  rw [userFrame, userFrame, lookup_congr h]

theorem place_congr (h : ∀ m, IsTable mem pt m → mem' m = mem m) :
    place mem' pt va = place mem pt va := by
  rw [place, place, userFrame_congr h]

/-- `translate` is the address of the physical page. -/
theorem translate_eq (va : ℕ) :
    translate mem pt (pgrounddown va) = ((userFrame mem pt (va / PGSIZE)).map (· * PGSIZE)).getD 0 := by
  have hpage : pgrounddown va / PGSIZE = va / PGSIZE := by
    rw [pgrounddown_eq, Nat.mul_div_cancel _ (by decide)]
  have hmax : pgrounddown va < MAXVA ↔ va / PGSIZE < MAXVA / PGSIZE := by
    rw [pgrounddown_eq]
    simp only [PGSIZE, MAXVA]
    omega
  rw [translate, userFrame, hpage]
  by_cases hva : pgrounddown va < MAXVA
  · rw [if_pos hva, if_pos (hmax.mp hva)]
    cases lookup mem pt (va / PGSIZE) with
    | none => rfl
    | some b =>
      rw [Option.bind_some]
      dsimp only
      split
      · rfl
      · rfl
  · rw [if_neg hva, if_neg (mt hmax.mpr hva)]
    rfl

/-- The bytes from `va` on. -/
def Read (mem : Pages) (pt va : ℕ) (bytes : List UInt8) : Prop :=
  ∀ i < bytes.length, userByte mem pt (va + i) = bytes[i]?

theorem Read.append (h : Read mem pt va bytes) (h' : Read mem pt (va + bytes.length) bytes') :
    Read mem pt va (bytes ++ bytes') := by
  intro i hi
  rw [List.length_append] at hi
  by_cases hlt : i < bytes.length
  · rw [h i hlt, List.getElem?_append_left hlt]
  · have hrest := h' (i - bytes.length) (by omega)
    rw [Nat.add_assoc, Nat.add_sub_cancel' (Nat.not_lt.mp hlt)] at hrest
    rw [hrest, List.getElem?_append_right (Nat.not_lt.mp hlt)]

theorem Read.of_append (h : Read mem pt va (bytes ++ bytes')) :
    Read mem pt va bytes ∧ Read mem pt (va + bytes.length) bytes' := by
  rw [Read, List.length_append] at h
  refine ⟨fun i hi ↦ ?_, fun i hi ↦ ?_⟩
  · rw [h i (by omega), List.getElem?_append_left hi]
  · rw [Nat.add_assoc, h _ (by omega), List.getElem?_append_right (by omega),
      Nat.add_sub_cancel_left]

theorem Read.nil : Read mem pt va [] := fun _ hi ↦ absurd hi (Nat.not_lt_zero _)

/-- What is read is determined by memory. -/
theorem Read.eq (h : Read mem pt va bytes) (h' : Read mem pt va bytes')
    (hlength : bytes.length = bytes'.length) : bytes = bytes' := by
  apply List.ext_getElem?
  intro i
  by_cases hi : i < bytes.length
  · rw [← h i hi, ← h' i (hlength ▸ hi)]
  · rw [List.getElem?_eq_none (Nat.not_lt.mp hi), List.getElem?_eq_none (hlength ▸ Nat.not_lt.mp hi)]

theorem Read.shift {va' : ℕ} (h : Read mem pt va' bytes) (hva : bytes = [] ∨ va' = va) :
    Read mem pt va bytes := by
  rcases hva with rfl | rfl
  · exact nil
  · exact h

/-! ## Inside a page -/

theorem frame_div (frame va : ℕ) : (frame * PGSIZE + va % PGSIZE) / PGSIZE = frame := by
  simp only [PGSIZE]
  omega

theorem frame_mod (frame va : ℕ) : (frame * PGSIZE + va % PGSIZE) % PGSIZE = va % PGSIZE := by
  simp only [PGSIZE]
  omega

section Chunk

variable (hframe : userFrame mem pt (va / PGSIZE) = some frame) (hn : va % PGSIZE + n ≤ PGSIZE)

include hframe hn

theorem place_chunk {i : ℕ} (hi : i < n) : place mem pt (va + i) = some (frame, va % PGSIZE + i) := by
  have hdiv : (va + i) / PGSIZE = va / PGSIZE := by
    simp only [PGSIZE] at hn ⊢
    omega
  have hmod : (va + i) % PGSIZE = va % PGSIZE + i := by
    simp only [PGSIZE] at hn ⊢
    omega
  rw [place, hdiv, hframe, hmod]
  rfl

theorem mapped_chunk (i : ℕ) (hi : i < n) : userFrame mem pt ((va + i) / PGSIZE) ≠ none := by
  intro hnone
  have hplace := place_chunk hframe hn hi
  rw [place, hnone] at hplace
  cases hplace

theorem read_chunk : Read mem pt va ((mem frame).getBytes (va % PGSIZE) n) := by
  intro i hi
  rw [Buffer.length_getBytes] at hi
  rw [userByte, place_chunk hframe hn hi, Buffer.getBytes, List.getElem?_map,
    List.getElem?_range hi]
  rfl

end Chunk

/-! ## Page by page -/

/-- The first `k` of `len` bytes are in user memory: all of them if `ok`, and otherwise those before
the first page that is not. -/
structure Reach (mem : Pages) (pt va len : ℕ) (ok : Bool) (k : ℕ) : Prop where
  le : k ≤ len
  mapped : ∀ i < k, userFrame mem pt ((va + i) / PGSIZE) ≠ none
  stop : if ok then k = len else k < len ∧ userFrame mem pt ((va + k) / PGSIZE) = none

namespace Reach

variable {len : ℕ} {ok : Bool}

theorem nil : Reach mem pt va 0 true 0 := ⟨le_rfl, fun _ hi ↦ absurd hi (Nat.not_lt_zero _), rfl⟩

/-- The first page is not in user memory. -/
theorem none (hlen : len ≠ 0) (h : userFrame mem pt (va / PGSIZE) = none) :
    Reach mem pt va len false 0 :=
  ⟨Nat.zero_le _, fun _ hi ↦ absurd hi (Nat.not_lt_zero _), Nat.pos_of_ne_zero hlen, h⟩

/-- Where nothing is copied, the address does not matter. -/
theorem shift {va' : ℕ} (h : Reach mem pt va' len ok k) (hva : len = 0 ∨ va' = va) :
    Reach mem pt va len ok k := by
  rcases hva with rfl | rfl
  · obtain rfl : k = 0 := Nat.le_zero.mp h.le
    cases ok with
    | true => exact nil
    | false => exact absurd h.stop.1 (lt_irrefl 0)
  · exact h

theorem append (hn : n ≤ len) (hmapped : ∀ i < n, userFrame mem pt ((va + i) / PGSIZE) ≠ .none)
    (h : Reach mem pt (va + n) (len - n) ok k) : Reach mem pt va len ok (n + k) := by
  have hle := h.le
  refine ⟨by omega, fun i hi ↦ ?_, ?_⟩
  · by_cases hlt : i < n
    · exact hmapped i hlt
    · have hi' := h.mapped (i - n) (by omega)
      rw [Nat.add_assoc, Nat.add_sub_cancel' (Nat.not_lt.mp hlt)] at hi'
      exact hi'
  · have hstop := h.stop
    rw [Nat.add_assoc] at hstop
    cases ok with
    | true =>
      have hk : k = len - n := hstop
      show n + k = len
      omega
    | false =>
      refine ⟨?_, hstop.2⟩
      have hk : k < len - n := hstop.1
      omega

theorem ok_iff (h : Reach mem pt va len ok k) :
    ok = true ↔ ∀ i < len, userFrame mem pt ((va + i) / PGSIZE) ≠ .none := by
  cases ok with
  | true =>
    have hk : k = len := h.stop
    exact iff_of_true rfl (hk ▸ h.mapped)
  | false => exact iff_of_false (by decide) fun hall ↦ hall k h.stop.1 h.stop.2

end Reach

/-- One round of a copy ends at the end of the page, or copies all that is left. -/
theorem next_round (len : ℕ) (hmax : va / PGSIZE < MAXVA / PGSIZE) :
    let n := min (PGSIZE - va % PGSIZE) len
    va % PGSIZE + n ≤ PGSIZE ∧ n ≤ len ∧ (len ≠ 0 → n ≠ 0) ∧
      (len - n = 0 ∨ (pgrounddown va + PGSIZE) % 2 ^ 64 = va + n) := by
  rw [pgrounddown_eq]
  simp only [PGSIZE, MAXVA] at hmax ⊢
  omega

theorem sub_pgrounddown (va : ℕ) : va - pgrounddown va = va % PGSIZE := by
  rw [pgrounddown]
  exact Nat.sub_sub_self (Nat.mod_le _ _)

theorem lt_of_userFrame (h : userFrame mem pt vpn = some frame) : vpn < MAXVA / PGSIZE := by
  by_contra hvpn
  rw [userFrame, if_neg hvpn] at h
  cases h

/-- `walkaddr` for a round of a copy. -/
theorem wp_walkaddr {Q : ℕ → Phys → Prop} (hpt : pt % PGSIZE = 0)
    (hnone : userFrame s.page pt (va / PGSIZE) = none → Q 0 s)
    (hsome : ∀ frame, userFrame s.page pt (va / PGSIZE) = some frame → Q (frame * PGSIZE) s) :
    wp (walkaddr pt (pgrounddown va)) Q E s := by
  refine wp_post (walkaddr_spec hpt) ?_
  rintro _ s ⟨rfl, rfl⟩
  rw [translate_eq]
  cases hframe : userFrame s.page pt (va / PGSIZE) with
  | none => exact hnone hframe
  | some frame => exact hsome frame hframe

/-! ## `copyin` -/

section Copyin

variable (hpt : pt % PGSIZE = 0) (hnonzero : ∀ vpn, userFrame s.page pt vpn ≠ some 0)

include hpt hnonzero

theorem copyinLoop_spec {fuel len : ℕ} (hfuel : len < fuel) :
    wp (copyinLoop pt fuel va len) (fun r s' ↦ s' = s ∧
      Reach s.page pt va len r.1 r.2.length ∧ Read s.page pt va r.2) E s := by
  induction fuel generalizing va len with
  | zero => exact absurd hfuel (Nat.not_lt_zero _)
  | succ fuel ih =>
    rw [copyinLoop]
    split
    · rename_i hlen
      subst hlen
      exact (wp_pure _).mpr ⟨rfl, .nil, .nil⟩
    · rename_i hlen
      rw [wp_bind]
      refine wp_walkaddr hpt (fun hnone ↦ ?_) fun frame hframe ↦ ?_
      · exact (wp_pure _).mpr ⟨rfl, .none hlen hnone, .nil⟩
      · have hframe' : frame ≠ 0 := fun heq ↦ hnonzero _ (heq ▸ hframe)
        obtain ⟨hin, hle, hpos, hnext⟩ := next_round len (lt_of_userFrame hframe)
        have hpos := hpos hlen
        rw [if_neg (Nat.mul_ne_zero hframe' (by decide)), sub_pgrounddown, wp_bind, wp_memmoveFrom,
          frame_div, frame_mod, wp_bind]
        refine wp_post (ih (by omega)) ?_
        rintro ⟨r, rest⟩ s ⟨rfl, hreach, hread⟩
        have hrest : rest.length ≤ _ := hreach.le
        refine (wp_pure _).mpr ⟨rfl, ?_, (read_chunk hframe hin).append ?_⟩
        · rw [List.length_append, Buffer.length_getBytes]
          exact .append hle (mapped_chunk hframe hin) (hreach.shift hnext)
        · rw [Buffer.length_getBytes]
          refine hread.shift (hnext.imp_left fun hzero ↦ List.length_eq_zero_iff.mp ?_)
          show rest.length = 0
          omega

theorem copyin_spec (va len : ℕ) :
    wp (copyin pt va len) (fun r s' ↦ s' = s ∧ Reach s.page pt va len r.1 r.2.length ∧
      Read s.page pt va r.2) E s := copyinLoop_spec hpt hnonzero (Nat.lt_succ_self _)

end Copyin

/-! ## `copyout` -/

/-- Distinct pages of user memory have distinct physical pages, which are not part of the page table.
The physical page 0 is not used for user memory, as its address stands for failure. -/
structure UserTable (mem : Pages) (pt : ℕ) : Prop where
  aligned : pt % PGSIZE = 0
  distinct : ∀ vpn vpn' frame, userFrame mem pt vpn = some frame →
    userFrame mem pt vpn' = some frame → vpn = vpn'
  notTable : ∀ vpn frame, userFrame mem pt vpn = some frame → ¬ IsTable mem pt frame
  nonzero : ∀ vpn, userFrame mem pt vpn ≠ some 0

/-- The bytes from `va` on have been stored, and no other byte of memory has changed. -/
structure Stored (mem : Pages) (pt va : ℕ) (bytes : List UInt8) (mem' : Pages) : Prop where
  read : Read mem' pt va bytes
  other : ∀ m j, (∀ i < bytes.length, place mem pt (va + i) ≠ some (m, j)) →
    (mem' m).get j = (mem m).get j
  tables : ∀ m, IsTable mem pt m → mem' m = mem m

namespace UserTable

variable (h : UserTable mem pt)

include h

theorem congr (htables : ∀ m, IsTable mem pt m → mem' m = mem m) : UserTable mem' pt := by
  have hframe (vpn : ℕ) : userFrame mem' pt vpn = userFrame mem pt vpn := userFrame_congr htables
  refine ⟨h.aligned, fun vpn vpn' frame ↦ ?_, fun vpn frame ↦ ?_, fun vpn ↦ ?_⟩
  · rw [hframe, hframe]
    exact h.distinct vpn vpn' frame
  · rw [hframe, isTable_congr htables]
    exact h.notTable vpn frame
  · rw [hframe]
    exact h.nonzero vpn

/-- Distinct addresses have distinct places. -/
theorem place_inj {va' : ℕ} {b : ℕ × ℕ} (hva : place mem pt va = some b)
    (hva' : place mem pt va' = some b) : va = va' := by
  rw [place, Option.map_eq_some_iff] at hva hva'
  obtain ⟨frame, hframe, rfl⟩ := hva
  obtain ⟨frame', hframe', heq⟩ := hva'
  rw [Prod.mk.injEq] at heq
  rw [heq.1] at hframe'
  have hpage := h.distinct _ _ _ hframe hframe'
  have hoffset := heq.2
  simp only [PGSIZE] at hpage hoffset
  omega

/-- Bytes are stored inside a page. -/
theorem store_chunk (hframe : userFrame mem pt (va / PGSIZE) = some frame)
    (hn : va % PGSIZE + bytes.length ≤ PGSIZE) :
    Stored mem pt va bytes
      (Function.update mem frame ((mem frame).setBytes (va % PGSIZE) bytes)) := by
  have htables (m : ℕ) (hm : IsTable mem pt m) :
      Function.update mem frame ((mem frame).setBytes (va % PGSIZE) bytes) m = mem m := by
    apply Function.update_of_ne
    rintro rfl
    exact h.notTable _ _ hframe hm
  refine ⟨fun i hi ↦ ?_, fun m j hother ↦ ?_, htables⟩
  · rw [userByte, place_congr htables, place_chunk hframe hn hi, Option.map_some]
    dsimp only
    rw [Function.update_self, Buffer.get_setBytes _ _ _ _ (by omega), if_pos (by omega),
      Nat.add_sub_cancel_left, List.getD_eq_getElem?_getD, List.getElem?_eq_getElem hi]
    rfl
  · by_cases hm : m = frame
    · subst hm
      rw [Function.update_self]
      by_cases hj : j < PGSIZE
      · rw [Buffer.get_setBytes _ _ _ _ hj, if_neg]
        rintro ⟨hlow, hhigh⟩
        refine hother (j - va % PGSIZE) (by omega) ?_
        rw [place_chunk hframe hn (by omega), Nat.add_sub_cancel' hlow]
      · rw [Buffer.get, Buffer.get, dif_neg hj, dif_neg hj]
    · rw [Function.update_of_ne hm]

/-- Bytes are stored one after the other. -/
theorem store_append (h₁ : Stored mem pt va bytes mem')
    (h₂ : Stored mem' pt (va + bytes.length) bytes' mem'') :
    Stored mem pt va (bytes ++ bytes') mem'' := by
  have hplace (va : ℕ) : place mem' pt va = place mem pt va := place_congr h₁.tables
  have htables (m : ℕ) (hm : IsTable mem pt m) : mem'' m = mem m := by
    rw [h₂.tables m ((isTable_congr h₁.tables).mpr hm), h₁.tables m hm]
  refine ⟨Read.append (fun i hi ↦ ?_) h₂.read, fun m j hother ↦ ?_, htables⟩
  · -- The bytes that are stored later are at other places.
    have hread := h₁.read i hi
    rw [userByte, hplace] at hread
    rw [userByte, place_congr htables, ← hread]
    refine Option.map_congr fun b hb ↦ h₂.other b.1 b.2 fun i' hi' hb' ↦ ?_
    rw [hplace] at hb'
    have heq := h.place_inj hb hb'
    omega
  · rw [List.length_append] at hother
    rw [h₂.other m j fun i hi ↦ ?_, h₁.other m j fun i hi ↦ hother i (by omega)]
    rw [hplace, Nat.add_assoc]
    exact hother _ (by omega)

end UserTable

theorem Reach.congr {len : ℕ} {ok : Bool} (h : Reach mem' pt va len ok k)
    (htables : ∀ m, IsTable mem pt m → mem' m = mem m) : Reach mem pt va len ok k := by
  have hframe (vpn : ℕ) : userFrame mem' pt vpn = userFrame mem pt vpn := userFrame_congr htables
  refine ⟨h.le, fun i hi ↦ hframe _ ▸ h.mapped i hi, ?_⟩
  rw [← hframe]
  exact h.stop

theorem Stored.shift {va' : ℕ} (h : Stored mem pt va' bytes mem') (hva : bytes = [] ∨ va' = va) :
    Stored mem pt va bytes mem' := by
  rcases hva with rfl | rfl
  · exact ⟨.nil, fun m j _ ↦ h.other m j fun _ hi ↦ absurd hi (Nat.not_lt_zero _), h.tables⟩
  · exact h

theorem Stored.nil : Stored mem pt va [] mem := ⟨.nil, fun _ _ _ ↦ rfl, fun _ _ ↦ rfl⟩

/-- Memory changed between two addresses of user memory only. -/
structure Changed (mem : Pages) (pt low high : ℕ) (mem' : Pages) : Prop where
  other : ∀ m j, (∀ va, low ≤ va → va < high → place mem pt va ≠ some (m, j)) →
    (mem' m).get j = (mem m).get j
  tables : ∀ m, IsTable mem pt m → mem' m = mem m

namespace Changed

variable {low high low' high' : ℕ}

theorem refl (mem : Pages) (pt low high : ℕ) : Changed mem pt low high mem :=
  ⟨fun _ _ _ ↦ rfl, fun _ _ ↦ rfl⟩

theorem mono (h : Changed mem pt low' high' mem') (hlow : low ≤ low') (hhigh : high' ≤ high) :
    Changed mem pt low high mem' :=
  ⟨fun m j hother ↦ h.other m j fun va hva hva' ↦
    hother va (hlow.trans hva) (hva'.trans_le hhigh), h.tables⟩

theorem trans (h : Changed mem pt low high mem') (h' : Changed mem' pt low high mem'') :
    Changed mem pt low high mem'' := by
  refine ⟨fun m j hother ↦ ?_, fun m hm ↦ ?_⟩
  · rw [h'.other m j fun va hva hva' ↦ ?_, h.other m j hother]
    rw [place_congr h.tables]
    exact hother va hva hva'
  · rw [h'.tables m ((isTable_congr h.tables).mpr hm), h.tables m hm]

theorem of_stored (h : Stored mem pt va bytes mem') (hlow : low ≤ va)
    (hhigh : va + bytes.length ≤ high) : Changed mem pt low high mem' :=
  ⟨fun m j hother ↦ h.other m j fun i hi ↦ hother (va + i) (by omega) (by omega), h.tables⟩

variable (h : Changed mem pt low high mem') (htable : UserTable mem pt)

include h htable

theorem userByte (hva : va < low ∨ high ≤ va) : userByte mem' pt va = userByte mem pt va := by
  rw [Vm.userByte, Vm.userByte, place_congr h.tables]
  refine Option.map_congr fun b hb ↦ h.other b.1 b.2 fun va' hlow hhigh hb' ↦ ?_
  have heq := htable.place_inj hb hb'
  omega

/-- What is not in the range is read again. -/
theorem read (hread : Read mem pt va bytes) (hva : va + bytes.length ≤ low ∨ high ≤ va) :
    Read mem' pt va bytes := by
  intro i hi
  rw [h.userByte htable (by omega)]
  exact hread i hi

end Changed

theorem copyoutLoop_spec {fuel : ℕ} {src : List UInt8} (h : UserTable s.page pt)
    (hfuel : src.length < fuel) :
    wp (copyoutLoop pt fuel va src) (fun r s' ↦ s' = { s with page := s'.page } ∧
      ∃ k, Reach s.page pt va src.length r k ∧ Stored s.page pt va (src.take k) s'.page) E s := by
  induction fuel generalizing va src s with
  | zero => exact absurd hfuel (Nat.not_lt_zero _)
  | succ fuel ih =>
    rw [copyoutLoop]
    split
    · rename_i hsrc
      subst hsrc
      exact (wp_pure _).mpr ⟨rfl, 0, .nil, .nil⟩
    · rename_i hsrc
      have hlen : src.length ≠ 0 := mt List.length_eq_zero_iff.mp hsrc
      rw [wp_bind]
      refine wp_walkaddr h.aligned (fun hnone ↦ ?_) fun frame hframe ↦ ?_
      · exact (wp_pure _).mpr ⟨rfl, 0, .none hlen hnone, .nil⟩
      · have hframe' : frame ≠ 0 := fun heq ↦ h.nonzero _ (heq ▸ hframe)
        obtain ⟨hin, hle, hpos, hnext⟩ := next_round src.length (lt_of_userFrame hframe)
        have hpos := hpos hlen
        have htake : (src.take (min (PGSIZE - va % PGSIZE) src.length)).length = _ :=
          List.length_take_of_le hle
        have hstored := h.store_chunk hframe (htake.symm ▸ hin)
        rw [if_neg (Nat.mul_ne_zero hframe' (by decide)), sub_pgrounddown, wp_bind, wp_memmove,
          frame_div, frame_mod]
        refine wp_post (ih (h.congr hstored.tables) ?_) ?_
        · rw [List.length_drop]
          omega
        · rintro r s' ⟨hs', k, hreach, hrest⟩
          rw [List.length_drop] at hreach
          have hk := hreach.le
          refine ⟨hs', _, .append hle (mapped_chunk hframe hin)
            ((hreach.congr hstored.tables).shift hnext), ?_⟩
          rw [List.take_add]
          refine h.store_append hstored ?_
          rw [htake]
          refine hrest.shift (hnext.imp_left fun hzero ↦ List.length_eq_zero_iff.mp ?_)
          rw [List.length_take]
          omega

theorem copyout_spec (h : UserTable s.page pt) (va : ℕ) (src : List UInt8) :
    wp (copyout pt va src) (fun r s' ↦ s' = { s with page := s'.page } ∧
      ∃ k, Reach s.page pt va src.length r k ∧ Stored s.page pt va (src.take k) s'.page) E s :=
  copyoutLoop_spec h (Nat.lt_succ_self _)

/-- `mappages` of the first page of `emptyTable`. -/
def mapFirst (frame : ℕ) : Except Stop (Bool × Phys) :=
  mappages (0x80400 * PGSIZE) (0 * PGSIZE) PGSIZE (frame * PGSIZE) (PTE_R ||| PTE_W ||| PTE_U) emptyTable

/-- The one page of user memory is mapped to the given physical page. -/
theorem userFrame_mapFirst (frame : ℕ) (hframe : frame * PGSIZE < 2 ^ 64)
    (hok : (match mapFirst frame with | .ok (r, _) => r | .error _ => false) = true) :
    ∃ s, mapFirst frame = .ok (true, s) ∧
      (∀ vpn, userFrame s.page (0x80400 * PGSIZE) vpn = if vpn = 0 then some frame else none) ∧
      (∀ m, IsTable s.page (0x80400 * PGSIZE) m → m ∈ [0x80400, 0x80401, 0x80402]) ∧
      ∀ m ∉ [0x80400, 0x80401, 0x80402], s.page m = .fill 0 := by
  have hempty : ∀ i, table emptyTable.page 0x80400 i = 0 := fun i ↦ Buffer.getLE_fill_zero _ _
  have hwp : wp (mappages (0x80400 * PGSIZE) (0 * PGSIZE) PGSIZE (frame * PGSIZE)
      (PTE_R ||| PTE_W ||| PTE_U)) _ (fun _ ↦ False) emptyTable :=
    mappages_page wellFormed_emptyTable hframe (by decide) (by decide) (lookup_empty hempty)
  obtain ⟨r, s, hr, hmaps⟩ := ok_of_wp hwp
  have hr : mapFirst frame = .ok (r, s) := hr
  rw [hr] at hok
  obtain rfl : r = true := hok
  have htable (m : ℕ) (hm : IsTable s.page (0x80400 * PGSIZE) m) : m ∈ [0x80400, 0x80401, 0x80402] := by
    obtain ⟨taken, hfree, htables⟩ := hmaps.grown.free
    rcases (htables m).mp hm with hm | hm
    · rw [isTable_empty hempty] at hm
      rw [hm]
      exact List.mem_cons_self
    · have hmem : m ∈ emptyTable.free := hfree ▸ List.mem_append_left _ hm
      exact List.mem_cons_of_mem _ hmem
  refine ⟨s, hr, fun vpn ↦ ?_, htable, fun m hm ↦ hmaps.grown.page m (mt (htable m) hm)⟩
  · rw [userFrame]
    by_cases hvpn : vpn < MAXVA / PGSIZE
    · rw [if_pos hvpn, hmaps.lookup vpn (hvpn.trans (by decide))]
      by_cases hzero : vpn = 0
      · subst hzero
        rw [if_pos ⟨le_rfl, Nat.one_pos⟩, if_pos rfl, Nat.sub_self, Nat.zero_mul, Nat.add_zero,
          Nat.mod_eq_of_lt hframe, Nat.mul_div_cancel frame (by decide), Option.bind_some]
        exact if_neg (show ¬ (PTE_R ||| PTE_W ||| PTE_U ||| PTE_V) &&& PTE_U = 0 by decide)
      · have hout : ¬ (0 ≤ vpn ∧ vpn < 0 + if true = true then 1 else 0) := by
          rw [if_pos rfl]
          omega
        rw [if_neg hout, if_neg hzero, lookup_empty hempty]
        rfl
    · rw [if_neg hvpn, if_neg]
      rintro rfl
      exact hvpn (by decide)

end Xv6.Vm
