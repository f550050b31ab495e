import Xv6.Fs.Inode

/-!
# Which Inode Holds which Block

Block numbers sit in the direct slots of an inode, in its indirect slot and in the entries of its
indirect block.  `Owned` says that every number in such a place is a data block that is marked in
the bitmap and is in no other place, and that every marked data block is in a place.  The lemmas
here are about a disk and the current inodes: which changes keep `Owned`, and that they do not
change what any file contains.
-/

namespace Xv6.Fs

open Lib

/-- The places of an inode that can hold a block number. -/
inductive Place where
  | direct (k : Fin NDIRECT)
  | indirect
  | entry (j : Fin NINDIRECT)
  deriving DecidableEq

/-- The block number at a place; 0 if there is none. -/
def Dinode.at (disk : Device) (d : Dinode) : Place → ℕ
  | .direct k => d.addrs k.castSucc
  | .indirect => d.addrs (Fin.last NDIRECT)
  | .entry j =>
    if d.addrs (Fin.last NDIRECT) = 0 then 0 else (disk (d.addrs (Fin.last NDIRECT))).word j

/-- The place of the block with index `k` in the file. -/
def placeOf (k : ℕ) : Option Place :=
  if h : k < NDIRECT then some (.direct ⟨k, h⟩)
  else if h : k - NDIRECT < NINDIRECT then some (.entry ⟨k - NDIRECT, h⟩)
  else none

/-- The number of the block with index `k` in the file; 0 if there is none. -/
def Dinode.blockOf (disk : Device) (d : Dinode) (k : ℕ) : ℕ :=
  match placeOf k with
  | some place => d.at disk place
  | none => 0

/-- The contents of the block with index `k` in the file; a block that is not there is zero. -/
def Dinode.contents (disk : Device) (d : Dinode) (k : ℕ) : Block :=
  if d.blockOf disk k = 0 then .fill 0 else disk (d.blockOf disk k)

variable {sb : Superblock} {disk disk' : Device} {live live' : ℕ → Dinode}

/-- The inode is allocated. -/
def Allocated (sb : Superblock) (live : ℕ → Dinode) (i : ℕ) : Prop :=
  sb.IsInum i ∧ (live i).type ≠ 0

/-- Every block number in a place is a marked data block in no other place, and every marked data
block is in a place. -/
structure Owned (sb : Superblock) (disk : Device) (live : ℕ → Dinode) : Prop where
  range : ∀ i place, Allocated sb live i → (live i).at disk place ≠ 0 →
    sb.IsData ((live i).at disk place)
  unique : ∀ i j place other, Allocated sb live i → Allocated sb live j →
    (live i).at disk place ≠ 0 → (live i).at disk place = (live j).at disk other →
      i = j ∧ place = other
  marked : ∀ b, sb.IsData b →
    (sb.bit disk b = true ↔ ∃ i place, Allocated sb live i ∧ (live i).at disk place = b)
  reserved : ∀ b, b < sb.dataStart → sb.bit disk b = true

/-- A data block is not block 0. -/
theorem IsData.ne_zero (hsb : sb.WellFormed) {b : ℕ} (hb : sb.IsData b) : b ≠ 0 := by
  have hinodes := hsb.inodes
  have hzero := Nat.zero_le (sb.ninodes / IPB)
  have hstart := Superblock.bmapstart_le hb
  omega

theorem at_congr {d d' : Dinode} (haddrs : d'.addrs = d.addrs)
    (hblock : d.addrs (Fin.last NDIRECT) ≠ 0 →
      disk' (d.addrs (Fin.last NDIRECT)) = disk (d.addrs (Fin.last NDIRECT))) (place : Place) :
    d'.at disk' place = d.at disk place := by
  cases place with
  | direct k => simp [Dinode.at, haddrs]
  | indirect => simp [Dinode.at, haddrs]
  | entry j =>
    simp only [Dinode.at, haddrs]
    split
    · rfl
    · rename_i hne
      rw [hblock hne]

theorem blockOf_congr {d d' : Dinode} {k : ℕ}
    (hat : ∀ place, placeOf k = some place → d'.at disk' place = d.at disk place) :
    d'.blockOf disk' k = d.blockOf disk k := by
  unfold Dinode.blockOf
  cases hplace : placeOf k with
  | none => rfl
  | some place => exact hat place hplace

theorem placeOf_ne_indirect (k : ℕ) : placeOf k ≠ some .indirect := by
  unfold placeOf
  split
  · simp
  · split <;> simp

theorem placeOf_inj {k k' : ℕ} {place : Place} (h : placeOf k = some place)
    (h' : placeOf k' = some place) : k = k' := by
  grind [placeOf]

/-- A block number that a file uses is in a place. -/
theorem blockOf_eq_at {d : Dinode} {k : ℕ} (hne : d.blockOf disk k ≠ 0) :
    ∃ place, placeOf k = some place ∧ d.blockOf disk k = d.at disk place := by
  unfold Dinode.blockOf at *
  cases hplace : placeOf k with
  | none => simp [hplace] at hne
  | some place => exact ⟨place, rfl, rfl⟩

namespace Owned

/-- A block that is not marked is in no place. -/
theorem at_ne (h : Owned sb disk live) {b : ℕ} (hb : sb.IsData b) (hfree : sb.bit disk b = false)
    {j : ℕ} (hj : Allocated sb live j) (place : Place) : (live j).at disk place ≠ b := by
  intro heq
  have := (h.marked b hb).mpr ⟨j, place, hj, heq⟩
  rw [hfree] at this
  cases this

/-- A free block is put into an empty place. -/
theorem add (hsb : sb.WellFormed) (h : Owned sb disk live) {i b : ℕ} {place : Place} (hi : Allocated sb live i)
    (hb : sb.IsData b) (hfree : sb.bit disk b = false)
    (htype : ∀ j, (live' j).type = (live j).type)
    (hbit : ∀ x, x < sb.size → sb.bit disk' x = (decide (x = b) || sb.bit disk x))
    (hempty : (live i).at disk place = 0) (hnew : (live' i).at disk' place = b)
    (hsame : ∀ j other, Allocated sb live j → ¬ (j = i ∧ other = place) →
      (live' j).at disk' other = (live j).at disk other) : Owned sb disk' live' := by
  have halloc : ∀ j, Allocated sb live' j ↔ Allocated sb live j := by
    intro j
    simp [Allocated, htype]
  constructor
  case range =>
    intro j other hj hne
    by_cases heq : j = i ∧ other = place
    · rw [heq.1, heq.2, hnew]
      exact hb
    · rw [hsame j other ((halloc j).mp hj) heq] at hne ⊢
      exact h.range j other ((halloc j).mp hj) hne
  case unique =>
    intro j k first second hj hk hne heq
    have hj := (halloc j).mp hj
    have hk := (halloc k).mp hk
    by_cases hfirst : j = i ∧ first = place <;> by_cases hsecond : k = i ∧ second = place
    · rw [hfirst.1, hfirst.2, hsecond.1, hsecond.2]
      exact ⟨rfl, rfl⟩
    · rw [hfirst.1, hfirst.2, hnew, hsame k second hk hsecond] at heq
      exact absurd heq.symm (h.at_ne hb hfree hk second)
    · rw [hsecond.1, hsecond.2, hnew, hsame j first hj hfirst] at heq
      exact absurd heq (h.at_ne hb hfree hj first)
    · rw [hsame j first hj hfirst] at hne heq
      rw [hsame k second hk hsecond] at heq
      exact h.unique j k first second hj hk hne heq
  case marked =>
    intro x hx
    rw [hbit x hx.2]
    by_cases hxb : x = b
    · subst hxb
      simp only [decide_true, Bool.true_or, true_iff]
      exact ⟨i, place, (halloc i).mpr hi, hnew⟩
    · simp only [hxb, decide_false, Bool.false_or, h.marked x hx]
      constructor
      · rintro ⟨j, other, hj, hat⟩
        refine ⟨j, other, (halloc j).mpr hj, ?_⟩
        rw [hsame j other hj, hat]
        rintro ⟨rfl, rfl⟩
        exact IsData.ne_zero hsb hx (hat.symm.trans hempty)
      · rintro ⟨j, other, hj, hat⟩
        have hj := (halloc j).mp hj
        refine ⟨j, other, hj, ?_⟩
        rw [← hsame j other hj, hat]
        rintro ⟨rfl, rfl⟩
        exact hxb (hat.symm.trans hnew)
  case reserved =>
    intro x hx
    have hdata := hsb.data
    rw [hbit x (by omega), h.reserved x hx, Bool.or_true]

end Owned

/-! ## Adding blocks to a file -/

/-- What `balloc` does to the disk. -/
structure Balloc (sb : Superblock) (disk disk' : Device) (b : ℕ) : Prop where
  data : sb.IsData b
  free : sb.bit disk b = false
  bit : ∀ x, x < sb.size → sb.bit disk' x = (decide (x = b) || sb.bit disk x)
  dinode : ∀ i, i < sb.ninodes → sb.dinode disk' i = sb.dinode disk i
  zero : disk' b = .fill 0
  agree : ∀ x, sb.IsData x → x ≠ b → disk' x = disk x

/-- The file of inode `i` may get more blocks; no file changes its contents. -/
structure Grows (sb : Superblock) (disk : Device) (live : ℕ → Dinode) (disk' : Device)
    (live' : ℕ → Dinode) (i : ℕ) : Prop where
  owned : Owned sb disk' live'
  contents : ∀ j k, Allocated sb live j → (live' j).contents disk' k = (live j).contents disk k
  keeps : ∀ j k, Allocated sb live j → (live j).blockOf disk k ≠ 0 →
    (live' j).blockOf disk' k = (live j).blockOf disk k
  others : ∀ j, j ≠ i → live' j = live j
  fields : live' i = { live i with addrs := (live' i).addrs }

theorem Grows.allocated_iff {i : ℕ} (h : Grows sb disk live disk' live' i) (j : ℕ) :
    Allocated sb live' j ↔ Allocated sb live j := by
  by_cases hj : j = i
  · subst hj
    rw [Allocated, Allocated, h.fields]
  · rw [Allocated, Allocated, h.others j hj]

theorem Grows.trans {disk'' : Device} {live'' : ℕ → Dinode} {i : ℕ}
    (h : Grows sb disk live disk' live' i) (h' : Grows sb disk' live' disk'' live'' i) :
    Grows sb disk live disk'' live'' i where
  owned := h'.owned
  contents j k hj := by
    rw [h'.contents j k ((h.allocated_iff j).mpr hj), h.contents j k hj]
  keeps j k hj hne := by
    have hkeep := h.keeps j k hj hne
    rw [h'.keeps j k ((h.allocated_iff j).mpr hj) (hkeep ▸ hne), hkeep]
  others j hj := by rw [h'.others j hj, h.others j hj]
  fields := by rw [h'.fields, h.fields]

theorem Grows.refl (h : Owned sb disk live) (i : ℕ) : Grows sb disk live disk live i where
  owned := h
  contents _ _ _ := rfl
  keeps _ _ _ _ := rfl
  others _ _ := rfl
  fields := rfl

/-- A free block, filled with zeros, is put into an empty place. -/
theorem Grows.add (hsb : sb.WellFormed) (h : Owned sb disk live) {i b : ℕ} (place : Place)
    (hi : Allocated sb live i) (hb : sb.IsData b) (hfree : sb.bit disk b = false)
    (hbit : ∀ x, x < sb.size → sb.bit disk' x = (decide (x = b) || sb.bit disk x))
    (hempty : (live i).at disk place = 0) (hnew : (live' i).at disk' place = b)
    (hsame : ∀ j other, Allocated sb live j → ¬ (j = i ∧ other = place) →
      (live' j).at disk' other = (live j).at disk other)
    (hzero : disk' b = .fill 0)
    (hagree : ∀ j other, Allocated sb live j → (live j).at disk other ≠ 0 → other ≠ .indirect →
      disk' ((live j).at disk other) = disk ((live j).at disk other))
    (hothers : ∀ j, j ≠ i → live' j = live j)
    (hfields : live' i = { live i with addrs := (live' i).addrs }) :
    Grows sb disk live disk' live' i := by
  have htype : ∀ j, (live' j).type = (live j).type := by
    intro j
    by_cases hj : j = i
    · rw [hj, hfields]
    · rw [hothers j hj]
  constructor
  case owned => exact h.add hsb hi hb hfree htype hbit hempty hnew hsame
  case contents =>
    intro j k hj
    cases hplace : placeOf k with
    | none => simp [Dinode.contents, Dinode.blockOf, hplace]
    | some other =>
      have hne : other ≠ .indirect := fun heq ↦ placeOf_ne_indirect k (heq ▸ hplace)
      simp only [Dinode.contents, Dinode.blockOf, hplace]
      by_cases heq : j = i ∧ other = place
      · rw [heq.1, heq.2, hempty, hnew, if_neg (IsData.ne_zero hsb hb), if_pos rfl, hzero]
      · rw [hsame j other hj heq]
        split
        · rfl
        · rename_i hat
          exact hagree j other hj hat hne
  case keeps =>
    intro j k hj hne
    obtain ⟨other, hplace, hat⟩ := blockOf_eq_at hne
    refine blockOf_congr fun place' hplace' ↦ ?_
    obtain rfl : other = place' := Option.some.inj (hplace.symm.trans hplace')
    refine hsame j other hj ?_
    rintro ⟨rfl, rfl⟩
    exact hne (hat.trans hempty)
  case others => exact hothers
  case fields => exact hfields

/-- Put a block number into a slot of an inode. -/
def Dinode.setAddr (d : Dinode) (slot : Fin (NDIRECT + 1)) (b : ℕ) : Dinode :=
  { d with addrs := Function.update d.addrs slot b }

/-- The place of a slot of the inode itself. -/
def slotPlace (slot : Fin (NDIRECT + 1)) : Place :=
  if h : slot.val < NDIRECT then .direct ⟨slot.val, h⟩ else .indirect

theorem slotPlace_castSucc (k : Fin NDIRECT) : slotPlace k.castSucc = .direct k := dif_pos k.isLt

theorem slotPlace_last : slotPlace (Fin.last NDIRECT) = .indirect := dif_neg (lt_irrefl _)

theorem at_slotPlace (disk : Device) (d : Dinode) (slot : Fin (NDIRECT + 1)) :
    d.at disk (slotPlace slot) = d.addrs slot := by
  rcases Fin.eq_castSucc_or_eq_last slot with ⟨k, rfl⟩ | rfl
  · rw [slotPlace_castSucc]
    rfl
  · rw [slotPlace_last]
    rfl

/-- A block that is allocated is at no place. -/
theorem Owned.agree_balloc (h : Owned sb disk live) {b j : ℕ} (hb : Balloc sb disk disk' b)
    (hj : Allocated sb live j) (place : Place) (hat : (live j).at disk place ≠ 0) :
    disk' ((live j).at disk place) = disk ((live j).at disk place) :=
  hb.agree _ (h.range j place hj hat) (h.at_ne hb.data hb.free hj place)

/-- A block that is put into an empty slot of an inode changes no other place. -/
theorem Owned.at_slot (hsb : sb.WellFormed) (h : Owned sb disk live) {i b : ℕ}
    (hb : Balloc sb disk disk' b) {slot : Fin (NDIRECT + 1)} (hempty : (live i).addrs slot = 0)
    {j : ℕ} (hj : Allocated sb live j) {other : Place} (hdiff : ¬ (j = i ∧ other = slotPlace slot)) :
    (Function.update live i ((live i).setAddr slot b) j).at disk' other =
      (live j).at disk other := by
  have hblock : (live j).addrs (Fin.last NDIRECT) ≠ 0 →
      disk' ((live j).addrs (Fin.last NDIRECT)) = disk ((live j).addrs (Fin.last NDIRECT)) :=
    fun hlast ↦ h.agree_balloc hb hj .indirect hlast
  by_cases hji : j = i
  · subst hji
    have hslot : other ≠ slotPlace slot := fun heq ↦ hdiff ⟨rfl, heq⟩
    rw [Function.update_self]
    -- The slot is one of the direct ones or the indirect one.
    rcases Fin.eq_castSucc_or_eq_last slot with ⟨k, rfl⟩ | rfl
    · have hlast : Fin.last NDIRECT ≠ k.castSucc := (Fin.castSucc_lt_last k).ne'
      rw [slotPlace_castSucc] at hslot
      cases other with
      | direct k' =>
        have hk : k'.castSucc ≠ k.castSucc := fun heq ↦
          hslot (by rw [Fin.castSucc_injective _ heq])
        simp [Dinode.at, Dinode.setAddr, Function.update_of_ne hk]
      | indirect => simp [Dinode.at, Dinode.setAddr, Function.update_of_ne hlast]
      | entry j' =>
        simp only [Dinode.at, Dinode.setAddr, Function.update_of_ne hlast]
        split
        · rfl
        · rename_i hat
          rw [hblock hat]
    · rw [slotPlace_last] at hslot
      cases other with
      | direct k' => simp [Dinode.at, Dinode.setAddr]
      | indirect => exact absurd rfl hslot
      | entry j' =>
        simp only [Dinode.at, Dinode.setAddr, Function.update_self, hempty, if_true, hb.zero,
          if_neg (IsData.ne_zero hsb hb.data), Block.word_fill_zero]
  · rw [Function.update_of_ne hji]
    exact at_congr rfl hblock other

/-- `balloc` for a slot of the inode itself. -/
theorem Grows.slot (hsb : sb.WellFormed) (h : Owned sb disk live) {i b : ℕ}
    (hi : Allocated sb live i) (hb : Balloc sb disk disk' b) {slot : Fin (NDIRECT + 1)}
    (hempty : (live i).addrs slot = 0) :
    Grows sb disk live disk' (Function.update live i ((live i).setAddr slot b)) i := by
  refine Grows.add hsb h (slotPlace slot) hi hb.data hb.free hb.bit ?_ ?_
    (fun j other hj ↦ h.at_slot hsb hb hempty hj) hb.zero
    (fun j other hj hat _ ↦ h.agree_balloc hb hj other hat)
    (fun j hj ↦ Function.update_of_ne hj _ _) ?_
  · rw [at_slotPlace, hempty]
  · rw [at_slotPlace, Function.update_self]
    simp [Dinode.setAddr]
  · simp [Dinode.setAddr]

/-- A store into the indirect block of inode `i` after `balloc` touches the blocks of no other
place. -/
theorem Owned.agree_indirect (h : Owned sb disk live) {i b : ℕ} (hi : Allocated sb live i)
    (hb : Balloc sb disk disk' b) (block : Block) {j : ℕ} (hj : Allocated sb live j) (place : Place)
    (hat : (live j).at disk place ≠ 0) (hdiff : ¬ (j = i ∧ place = .indirect)) :
    Function.update disk' ((live i).at disk .indirect) block ((live j).at disk place) =
      disk ((live j).at disk place) := by
  have hne : (live j).at disk place ≠ (live i).at disk .indirect :=
    fun heq ↦ hdiff (h.unique j i place .indirect hj hi hat heq)
  rw [Function.update_of_ne hne]
  exact h.agree_balloc hb hj place hat

/-- A block that is put into an entry of the indirect block changes no other place. -/
theorem Owned.at_entry (h : Owned sb disk live) {i b : ℕ} (hi : Allocated sb live i)
    (hb : Balloc sb disk disk' b) {k : Fin NINDIRECT}
    (hindirect : (live i).at disk .indirect ≠ 0) {j : ℕ} (hj : Allocated sb live j) {other : Place}
    (hdiff : ¬ (j = i ∧ other = .entry k)) :
    (live j).at (Function.update disk' ((live i).at disk .indirect)
        ((disk' ((live i).at disk .indirect)).setWord k b)) other = (live j).at disk other := by
  set y := (live i).at disk .indirect with hy
  by_cases hji : j = i
  · subst hji
    cases other with
    | direct _ => rfl
    | indirect => rfl
    | entry k' =>
      have hdisk' : disk' y = disk y := h.agree_balloc hb hj .indirect hindirect
      have hk : k'.val ≠ k.val := fun heq ↦ hdiff ⟨rfl, by rw [Fin.ext heq]⟩
      change (if y = 0 then 0 else _) = (if y = 0 then 0 else _)
      rw [if_neg hindirect, if_neg hindirect]
      change (Function.update disk' y _ y).word k' = (disk y).word k'
      rw [Function.update_self, Block.word_setWord_of_ne _ _ hk, hdisk']
  · refine at_congr rfl (fun hlast ↦ ?_) other
    exact h.agree_indirect hi hb _ hj .indirect hlast fun heq ↦ hji heq.1

/-- `balloc` for an entry of the indirect block. -/
theorem Grows.entry (hsb : sb.WellFormed) (h : Owned sb disk live) {i b : ℕ}
    (hi : Allocated sb live i) (hb : Balloc sb disk disk' b) {j : Fin NINDIRECT}
    (hindirect : (live i).at disk .indirect ≠ 0) (hempty : (live i).at disk (.entry j) = 0) :
    Grows sb disk live (Function.update disk' ((live i).at disk .indirect)
      ((disk' ((live i).at disk .indirect)).setWord j b)) live i := by
  set y := (live i).at disk .indirect with hy
  have hydata : sb.IsData y := h.range i .indirect hi hindirect
  have hyb : y ≠ b := h.at_ne hb.data hb.free hi .indirect
  have hbsmall : b % 2 ^ 32 = b := by
    have := hb.data.2
    have := hsb.size
    exact Nat.mod_eq_of_lt (by omega)
  refine Grows.add hsb h (.entry j) hi hb.data hb.free ?_ hempty ?_
    (fun k other hk ↦ h.at_entry hi hb hindirect hk) ?_ ?_ (fun _ _ ↦ rfl) rfl
  · intro x hx
    rw [Superblock.bit_update_data _ hx hydata, hb.bit x hx]
  · change (if y = 0 then 0 else _) = b
    rw [if_neg hindirect]
    change (Function.update disk' y _ y).word j = b
    rw [Function.update_self, Block.word_setWord_self _ _ _ j.isLt, hbsmall]
  · rw [Function.update_of_ne hyb.symm, hb.zero]
  · intro k other hk hat hne
    exact h.agree_indirect hi hb _ hk other hat fun heq ↦ hne heq.2

/-! ## Other changes -/

/-- The bitmap and the data blocks stay, and the inodes keep their block numbers. -/
theorem Owned.congr (h : Owned sb disk live) (hdata : sb.dataStart ≤ sb.size)
    (hbit : ∀ x, x < sb.size → sb.bit disk' x = sb.bit disk x)
    (hagree : ∀ x, sb.IsData x → disk' x = disk x)
    (hlive : ∀ j, Allocated sb live' j ↔ Allocated sb live j)
    (haddrs : ∀ j, Allocated sb live j → (live' j).addrs = (live j).addrs) :
    Owned sb disk' live' := by
  have hat : ∀ j place, Allocated sb live j →
      (live' j).at disk' place = (live j).at disk place := by
    intro j place hj
    exact at_congr (haddrs j hj) (fun hlast ↦ hagree _ (h.range j .indirect hj hlast)) place
  constructor
  case range =>
    intro j place hj hne
    have hj := (hlive j).mp hj
    rw [hat j place hj] at hne ⊢
    exact h.range j place hj hne
  case unique =>
    intro j k place other hj hk hne heq
    have hj := (hlive j).mp hj
    have hk := (hlive k).mp hk
    rw [hat j place hj] at hne heq
    rw [hat k other hk] at heq
    exact h.unique j k place other hj hk hne heq
  case marked =>
    intro b hb
    rw [hbit b hb.2, h.marked b hb]
    constructor
    · rintro ⟨j, place, hj, heq⟩
      exact ⟨j, place, (hlive j).mpr hj, by rw [hat j place hj, heq]⟩
    · rintro ⟨j, place, hj, heq⟩
      have hj := (hlive j).mp hj
      exact ⟨j, place, hj, by rw [← hat j place hj, heq]⟩
  case reserved =>
    intro b hb
    rw [hbit b (by omega), h.reserved b hb]

/-- Inode `i` gives up its blocks, if it had any, and has none afterwards; it may become allocated or
free. -/
theorem Owned.release (hsb : sb.WellFormed) (h : Owned sb disk live) {i : ℕ}
    (hothers : ∀ j, j ≠ i → live' j = live j)
    (hempty : ∀ place, (live' i).at disk' place = 0)
    (hagree : ∀ x, sb.IsData x → disk' x = disk x)
    (hbit : ∀ x, sb.IsData x → (sb.bit disk' x = true ↔ sb.bit disk x = true ∧
      ¬ (Allocated sb live i ∧ ∃ place, (live i).at disk place = x)))
    (hreserved : ∀ x, x < sb.dataStart → sb.bit disk' x = true) : Owned sb disk' live' := by
  have hat : ∀ j place, j ≠ i → Allocated sb live j →
      (live' j).at disk' place = (live j).at disk place := by
    intro j place hj halloc
    rw [hothers j hj]
    exact at_congr rfl (fun hlast ↦ hagree _ (h.range j .indirect halloc hlast)) place
  have halloc : ∀ j, j ≠ i → Allocated sb live' j → Allocated sb live j := by
    intro j hj hj'
    rwa [Allocated, hothers j hj] at hj'
  -- A place that holds a block is a place of another inode.
  have hne : ∀ j place, (live' j).at disk' place ≠ 0 → j ≠ i := by
    rintro j place hne rfl
    exact hne (hempty place)
  constructor
  case range =>
    intro j place hj hzero
    have hji := hne j place hzero
    rw [hat j place hji (halloc j hji hj)] at hzero ⊢
    exact h.range j place (halloc j hji hj) hzero
  case unique =>
    intro j k place other hj hk hzero heq
    have hji := hne j place hzero
    have hki := hne k other (heq ▸ hzero)
    rw [hat j place hji (halloc j hji hj)] at hzero heq
    rw [hat k other hki (halloc k hki hk)] at heq
    exact h.unique j k place other (halloc j hji hj) (halloc k hki hk) hzero heq
  case marked =>
    intro b hb
    rw [hbit b hb, h.marked b hb]
    constructor
    · rintro ⟨⟨j, place, hj, heq⟩, hfree⟩
      have hji : j ≠ i := by
        rintro rfl
        exact hfree ⟨hj, place, heq⟩
      refine ⟨j, place, ?_, by rw [hat j place hji hj, heq]⟩
      rwa [Allocated, hothers j hji]
    · rintro ⟨j, place, hj, heq⟩
      have hji := hne j place (heq ▸ IsData.ne_zero hsb hb)
      have hj := halloc j hji hj
      rw [hat j place hji hj] at heq
      refine ⟨⟨j, place, hj, heq⟩, ?_⟩
      rintro ⟨hi, other, heq'⟩
      exact hji (h.unique j i place other hj hi (heq ▸ IsData.ne_zero hsb hb)
        (heq.trans heq'.symm)).1
  case reserved => exact hreserved

/-- Storing into a block of the file of inode `i`. -/
theorem Owned.store (h : Owned sb disk live) (hdata : sb.dataStart ≤ sb.size) {i k : ℕ}
    (hi : Allocated sb live i) (hblock : (live i).blockOf disk k ≠ 0) (block : Block) :
    Owned sb (Function.update disk ((live i).blockOf disk k) block) live ∧
      (∀ j k', Allocated sb live j →
        (live j).blockOf (Function.update disk ((live i).blockOf disk k) block) k' =
          (live j).blockOf disk k') ∧
      ∀ j k', Allocated sb live j →
        (live j).contents (Function.update disk ((live i).blockOf disk k) block) k' =
          if j = i ∧ k' = k then block else (live j).contents disk k' := by
  obtain ⟨place, hplace, hat⟩ := blockOf_eq_at hblock
  have hindirect : place ≠ .indirect := fun heq ↦ placeOf_ne_indirect k (heq ▸ hplace)
  set x := (live i).blockOf disk k with hx
  have hxdata : sb.IsData x := hat ▸ h.range i place hi (hat ▸ hblock)
  -- The block is not an indirect block, so no place changes.
  have hsame : ∀ j other, Allocated sb live j →
      (live j).at (Function.update disk x block) other = (live j).at disk other := by
    intro j other hj
    refine at_congr rfl (fun hlast ↦ Function.update_of_ne ?_ _ _) other
    intro heq
    have := h.unique j i .indirect place hj hi hlast (heq.trans hat)
    exact hindirect this.2.symm
  have hblockOf : ∀ j k', Allocated sb live j →
      (live j).blockOf (Function.update disk x block) k' = (live j).blockOf disk k' :=
    fun j k' hj ↦ blockOf_congr fun other _ ↦ hsame j other hj
  refine ⟨?_, hblockOf, ?_⟩
  · constructor
    · intro j other hj hne
      rw [hsame j other hj] at hne ⊢
      exact h.range j other hj hne
    · intro j j' other other' hj hj' hne heq
      rw [hsame j other hj] at hne heq
      rw [hsame j' other' hj'] at heq
      exact h.unique j j' other other' hj hj' hne heq
    · intro b hb
      rw [Superblock.bit_update_data _ hb.2 hxdata, h.marked b hb]
      constructor
      · rintro ⟨j, other, hj, heq⟩
        exact ⟨j, other, hj, by rw [hsame j other hj, heq]⟩
      · rintro ⟨j, other, hj, heq⟩
        exact ⟨j, other, hj, by rw [← hsame j other hj, heq]⟩
    · intro b hb
      rw [Superblock.bit_update_data _ (by omega) hxdata, h.reserved b hb]
  · intro j k' hj
    rw [Dinode.contents, hblockOf j k' hj]
    by_cases heq : j = i ∧ k' = k
    · rw [if_pos heq, heq.1, heq.2, ← hx, if_neg hblock, Function.update_self]
    · rw [if_neg heq, Dinode.contents]
      split
      · rfl
      · rename_i hne
        rw [Function.update_of_ne]
        intro hsame'
        obtain ⟨other, hplace', hat'⟩ := blockOf_eq_at hne
        obtain ⟨hji, hother⟩ := h.unique j i other place hj hi (hat' ▸ hne)
          (hat'.symm.trans (hsame'.trans hat))
        subst hother
        exact heq ⟨hji, placeOf_inj hplace' hplace⟩

end Xv6.Fs
