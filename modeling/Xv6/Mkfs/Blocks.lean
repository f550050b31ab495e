import Xv6.Mkfs.Program

/-!
# Appending to a File of the Image

`mkfs` marks the blocks that it has handed out only at the end, all at once.  Until then `marked` is
the image with the bitmap as it would be written, so that taking a block is what `balloc` of the
kernel does, and the results on the kernel's `bmap` and `writei` apply to `iappend`.
-/

namespace Xv6.Mkfs

open Lib Fs

variable {m m' m'' : State} {E : Failure → Prop} {N i : ℕ} {live live' live'' : ℕ → Dinode}

/-! ## Sectors -/

/-- The superblock, if it had `ninodes` inodes. -/
abbrev sbFor (ninodes : ℕ) : Superblock := { sb with ninodes := ninodes }

/-- The blocks of inodes have room for some more than the superblock says. -/
theorem wellFormed_sbFor (hroot : ROOTINO < N) (hN : N < 208) : (sbFor N).WellFormed where
  inodes := by
    change 32 + (N / 16 + 1) ≤ 45
    omega
  data := (by decide : sb.dataStart ≤ sb.size)
  size := (by decide : sb.size ≤ 2 ^ 31)
  root := hroot
  ninodes := hN.le.trans (by decide)

theorem sector_eq {sec : ℕ} (h : sec < FSSIZE) : sector sec = sec := by
  have hlt : sec * BSIZE < 2 ^ 32 := by
    simp only [BSIZE, FSSIZE] at *
    omega
  rw [sector, Nat.mod_eq_of_lt hlt, Nat.mul_div_cancel _ (by decide)]

theorem wp_rsect {Q : Block → State → Prop} {sec : ℕ} (hlen : m.len = FSSIZE)
    (hsec : sec < FSSIZE) : wp (rsect sec) Q E m ↔ Q (m.disk sec) m := by
  rw [rsect, wp_bind, wp_get, sector_eq hsec, if_pos (hlen ▸ hsec), wp_pure]

theorem wp_rsect_end {Q : Block → State → Prop} (hlen : m.len = FSSIZE) :
    wp (rsect FSSIZE) Q E m ↔ E .die := by
  have hsame : sector FSSIZE = FSSIZE := by decide
  rw [rsect, wp_bind, wp_get, hsame, if_neg (by rw [hlen]; exact lt_irrefl _), wp_throw]

namespace State

/-- The image after a write. -/
def written (m : State) (sec : ℕ) (buf : Block) : State :=
  { m with disk := Function.update m.disk sec buf }

/-- The image after an inode was written. -/
def putInode (m : State) (i : ℕ) (d : Dinode) : State := { m with disk := sb.setDinode m.disk i d }

/-- The next block is handed out. -/
def take (m : State) : State := { m with freeblock := m.freeblock + 1 }

/-- The image, with the blocks marked that have been handed out. -/
def marked (m : State) : Device := Function.update m.disk sb.bmapstart (bitmap m.freeblock)

/-- The inodes of the image. -/
def inodes (m : State) (N i : ℕ) : Dinode :=
  if (sbFor N).IsInum i then sb.dinode m.disk i else .zero

end State

theorem wp_wsect {Q : Unit → State → Prop} {sec : ℕ} {buf : Block} (hlen : m.len = FSSIZE)
    (hsec : sec < FSSIZE) : wp (wsect sec buf) Q E m ↔ Q () (m.written sec buf) := by
  have hmax : max m.len (sec + 1) = m.len := by
    rw [hlen]
    exact Nat.max_eq_left hsec
  rw [wsect, wp_modify, sector_eq hsec, hmax]
  rfl

theorem wp_takeBlock {Q : ℕ → State → Prop} : wp takeBlock Q E m ↔ Q m.freeblock m.take := by
  rw [takeBlock, wp_bind, wp_get, wp_bind, wp_modify, wp_pure]
  rfl

theorem iblock_lt_size (hS : (sbFor N).WellFormed) (hi : i < N) : sb.iblock i < FSSIZE :=
  (Superblock.iblock_lt hS hi).trans (by decide : sb.bmapstart < FSSIZE)

theorem wp_winode {Q : Unit → State → Prop} {d : Dinode} (hS : (sbFor N).WellFormed)
    (hlen : m.len = FSSIZE) (hi : i < N) : wp (winode i d) Q E m ↔ Q () (m.putInode i d) := by
  have hsec := iblock_lt_size hS hi
  rw [winode, wp_bind, wp_rsect hlen hsec, wp_wsect hlen hsec]
  rfl

theorem wp_rinode {Q : Dinode → State → Prop} (hS : (sbFor N).WellFormed) (hlen : m.len = FSSIZE)
    (hi : (sbFor N).IsInum i) : wp (rinode i) Q E m ↔ Q (m.inodes N i) m := by
  rw [rinode, wp_bind, wp_rsect hlen (iblock_lt_size hS hi.2), wp_pure, State.inodes, if_pos hi]
  rfl

/-! ## The bitmap -/

theorem bit_bitmap {used b : ℕ} (hb : b < BPB) : (bitmap used).bit b = decide (b < used) := by
  induction used with
  | zero => simp [bitmap, Block.bit, Buffer.get, Buffer.fill]
  | succ used ih =>
    rw [bitmap, List.range_succ, List.foldl_append, ← bitmap]
    change ((bitmap used).setBit used).bit b = _
    rw [Block.bit_setBit _ hb, ih]
    grind

theorem bit_marked {b : ℕ} (hb : b < FSSIZE) :
    (sbFor N).bit m.marked b = decide (b < m.freeblock) := by
  have hlt : b < BPB := hb.trans (by decide)
  have hblock : (sbFor N).bblock b = sb.bmapstart := by
    rw [Superblock.bblock, Nat.div_eq_of_lt hlt, Nat.zero_add]
  rw [Superblock.bit, hblock, State.marked, Function.update_self, Nat.mod_eq_of_lt hlt,
    bit_bitmap hlt]

theorem marked_of_ne {b : ℕ} (hb : b ≠ sb.bmapstart) : m.marked b = m.disk b :=
  Function.update_of_ne hb _ _

theorem marked_written {b : ℕ} {buf : Block} (hb : b ≠ sb.bmapstart) :
    (m.written b buf).marked = Function.update m.marked b buf :=
  (Function.update_comm hb.symm _ _ _).symm

theorem marked_putInode (hS : (sbFor N).WellFormed) (hi : i < N) (d : Dinode) :
    (m.putInode i d).marked = (sbFor N).setDinode m.marked i d := by
  have hne : sb.iblock i ≠ sb.bmapstart := (Superblock.iblock_lt hS hi).ne
  change _ = Function.update m.marked (sb.iblock i) ((m.marked (sb.iblock i)).setDinode (i % IPB) d)
  rw [marked_of_ne hne]
  exact (Function.update_comm hne.symm _ _ _).symm

theorem ne_bmapstart {b : ℕ} (hb : (sbFor N).IsData b) : b ≠ sb.bmapstart :=
  (Nat.lt_of_lt_of_le (by decide : sb.bmapstart < sb.dataStart) hb.1).ne'

/-! ## Sound images -/

/-- The inodes `live` own the blocks that have been handed out. -/
structure Sound (N : ℕ) (m : State) (live : ℕ → Dinode) : Prop where
  layout : (sbFor N).WellFormed
  len : m.len = FSSIZE
  freeblock : nmeta ≤ m.freeblock ∧ m.freeblock ≤ FSSIZE
  owned : Owned (sbFor N) m.marked live
  zero : ∀ b, m.freeblock ≤ b → m.disk b = .fill 0

/-- The inodes on the image and the next inode number stay. -/
structure Keeps (N : ℕ) (m m' : State) : Prop where
  inodes : m'.inodes N = m.inodes N
  freeinode : m'.freeinode = m.freeinode

theorem Keeps.trans (h : Keeps N m m') (h' : Keeps N m' m'') : Keeps N m m'' :=
  ⟨h'.inodes.trans h.inodes, h'.freeinode.trans h.freeinode⟩

theorem Keeps.written (hS : (sbFor N).WellFormed) {b : ℕ} {buf : Block}
    (hb : (sbFor N).IsData b) : Keeps N m (m.written b buf) := by
  refine ⟨?_, rfl⟩
  funext j
  rw [State.inodes, State.inodes]
  split
  · rename_i hj
    exact Superblock.dinode_update_data hS buf hj.2 hb
  · rfl

namespace Sound

/-- Taking the next block is what `balloc` does. -/
theorem balloc (hs : Sound N m live) (hroom : m.freeblock < FSSIZE) :
    Balloc (sbFor N) m.marked m.take.marked m.freeblock where
  data := ⟨hs.freeblock.1, hroom⟩
  free := by rw [bit_marked hroom, decide_eq_false (lt_irrefl _)]
  bit x hx := by
    rw [bit_marked hx, bit_marked hx]
    change decide (x < m.freeblock + 1) = _
    grind
  dinode j hj := by
    have hne : sb.iblock j ≠ sb.bmapstart := (Superblock.iblock_lt hs.layout hj).ne
    change Block.dinode (m.take.marked (sb.iblock j)) _ = Block.dinode (m.marked (sb.iblock j)) _
    rw [marked_of_ne hne, marked_of_ne hne]
    rfl
  zero := by
    rw [marked_of_ne (Nat.lt_of_succ_le hs.freeblock.1).ne']
    exact hs.zero _ le_rfl
  agree x hx _ := by
    rw [marked_of_ne (ne_bmapstart hx), marked_of_ne (ne_bmapstart hx)]
    rfl

/-- The image after a step, if its inodes own the blocks. -/
theorem next (hs : Sound N m live) (howned : Owned (sbFor N) m'.marked live')
    (hlen : m'.len = m.len) (hle : m.freeblock ≤ m'.freeblock) (hsize : m'.freeblock ≤ FSSIZE)
    (hzero : ∀ b, m'.freeblock ≤ b → m'.disk b = m.disk b) : Sound N m' live' where
  layout := hs.layout
  len := hlen.trans hs.len
  freeblock := ⟨hs.freeblock.1.trans hle, hsize⟩
  owned := howned
  zero b hb := (hzero b hb).trans (hs.zero b (hle.trans hb))

/-- A block in a place has been handed out. -/
theorem handed (hs : Sound N m live) (hi : Allocated (sbFor N) live i) {place : Place}
    (hat : (live i).at m.marked place ≠ 0) :
    (sbFor N).IsData ((live i).at m.marked place) ∧ (live i).at m.marked place < m.freeblock := by
  have hdata := hs.owned.range i place hi hat
  have hbit := (hs.owned.marked _ hdata).mpr ⟨i, place, hi, rfl⟩
  rw [bit_marked hdata.2, decide_eq_true_eq] at hbit
  exact ⟨hdata, hbit⟩

end Sound

/-! ## Finding a block -/

/-- The program is about to read behind the end of the image. -/
structure Lost (m m' : State) (a : ℕ) : Prop where
  address : a = FSSIZE
  len : m'.len = FSSIZE
  freeblock : FSSIZE ≤ m.freeblock + 1

/-- The file of inode `i` may have got a block in one place. -/
structure Found (N : ℕ) (m : State) (live : ℕ → Dinode) (m' : State) (live' : ℕ → Dinode) (i : ℕ)
    (place : Place) : Prop where
  sound : Sound N m' live'
  keeps : Keeps N m m'
  grows : Grows (sbFor N) m.marked live m'.marked live' i
  only : ∀ j k, Allocated (sbFor N) live j → ¬ (j = i ∧ placeOf k = some place) →
    (live' j).blockOf m'.marked k = (live j).blockOf m.marked k

theorem Found.refl (hs : Sound N m live) (place : Place) : Found N m live m live i place :=
  ⟨hs, ⟨rfl, rfl⟩, .refl hs.owned i, fun _ _ _ _ ↦ rfl⟩

/-- The indirect block is not one of the file's blocks. -/
theorem Found.trans {place : Place} (h : Found N m live m' live' i .indirect)
    (h' : Found N m' live' m'' live'' i place) : Found N m live m'' live'' i place where
  sound := h'.sound
  keeps := h.keeps.trans h'.keeps
  grows := h.grows.trans h'.grows
  only j k hj hk := by
    rw [h'.only j k ((h.grows.allocated_iff j).mpr hj) hk,
      h.only j k hj fun heq ↦ placeOf_ne_indirect k heq.2]

/-- A slot of the inode, filled if it is empty. -/
theorem fillSlot_spec (hs : Sound N m live) (hi : Allocated (sbFor N) live i)
    (slot : Fin (NDIRECT + 1)) :
    wp (fillSlot (live i) slot) (fun din m' ↦ Lost m m' (din.addrs slot) ∨
      ∃ live', live' i = din ∧ Found N m live m' live' i (slotPlace slot) ∧ din.addrs slot ≠ 0 ∧
        m'.freeblock ≤ m.freeblock + 1) E m := by
  rw [fillSlot]
  split
  · rename_i hempty
    have hself : ((live i).setAddr slot m.freeblock).addrs slot = m.freeblock :=
      Function.update_self ..
    rw [wp_bind, wp_takeBlock, wp_pure, hself]
    by_cases hroom : m.freeblock < FSSIZE
    · have hballoc := hs.balloc hroom
      have hgrows := Grows.slot hs.layout hs.owned hi hballoc hempty
      refine .inr ⟨_, Function.update_self i ((live i).setAddr slot m.freeblock) live,
        ⟨hs.next hgrows.owned rfl (Nat.le_succ _) hroom fun _ _ ↦ rfl, ⟨rfl, rfl⟩, hgrows,
          fun j k hj hk ↦ blockOf_congr fun other hother ↦ ?_⟩,
        IsData.ne_zero hs.layout hballoc.data, le_rfl⟩
      exact hs.owned.at_slot hs.layout hballoc hempty hj fun heq ↦ hk ⟨heq.1, heq.2 ▸ hother⟩
    · have hend : m.freeblock = FSSIZE := le_antisymm hs.freeblock.2 (Nat.le_of_not_lt hroom)
      exact .inl ⟨hend, hs.len, by omega⟩
  · rename_i hfull
    exact .inr ⟨live, rfl, .refl hs _, hfull, Nat.le_succ _⟩

/-- The entry of the indirect block, filled if it is empty. -/
theorem fillEntry_spec {a : ℕ} (hs : Sound N m live) (hi : Allocated (sbFor N) live i)
    (k : Fin NINDIRECT) (ha : (live i).addrs (Fin.last NDIRECT) = a) (hne : a ≠ 0) :
    wp (fillEntry a k) (fun x m' ↦ x = FSSIZE ∧ m'.len = FSSIZE ∧ FSSIZE ≤ m.freeblock ∨
      Found N m live m' live i (.entry k) ∧ x = (live i).at m'.marked (.entry k) ∧ x ≠ 0 ∧
        m'.freeblock ≤ m.freeblock + 1) E m := by
  have hindirect : (live i).at m.marked .indirect = a := ha
  obtain ⟨hdata, hlt⟩ := hs.handed hi (hindirect.trans_ne hne)
  rw [hindirect] at hdata hlt
  have hat : ∀ m₁ : State, (live i).at m₁.marked (.entry k) = (m₁.disk a).word k := by
    intro m₁
    rw [Dinode.at, ha, if_neg hne, marked_of_ne (ne_bmapstart hdata)]
  have hlen : m.take.len = FSSIZE := hs.len
  rw [fillEntry, wp_bind, wp_rsect hs.len hdata.2]
  split
  · rename_i hempty
    have hword : ((m.disk a).setWord k m.freeblock).word k = m.freeblock := by
      rw [Block.word_setWord_self _ _ _ k.isLt]
      exact Nat.mod_eq_of_lt (hs.freeblock.2.trans_lt (by decide))
    rw [wp_bind, wp_takeBlock]
    dsimp only
    rw [wp_bind, wp_wsect hlen hdata.2, hword, wp_pure]
    by_cases hroom : m.freeblock < FSSIZE
    · have hballoc := hs.balloc hroom
      have hgrows := Grows.entry hs.layout hs.owned hi hballoc (hindirect.trans_ne hne)
        (by rw [hat, hempty])
      have hkeeps : Keeps N m m.take := ⟨rfl, rfl⟩
      have honly := fun j k' (hj : Allocated (sbFor N) live j)
          (hk : ¬ (j = i ∧ placeOf k' = some (.entry k))) ↦ blockOf_congr fun other hother ↦
        hs.owned.at_entry hi hballoc (hindirect.trans_ne hne) hj
          fun heq ↦ hk ⟨heq.1, heq.2 ▸ hother⟩
      rw [hindirect, marked_of_ne (ne_bmapstart hdata), ← marked_written (ne_bmapstart hdata)]
        at hgrows honly
      refine .inr ⟨⟨hs.next hgrows.owned rfl (Nat.le_succ _) hroom fun b hb ↦ ?_,
        hkeeps.trans (.written hs.layout hdata), hgrows, honly⟩, ?_,
        IsData.ne_zero hs.layout hballoc.data, le_rfl⟩
      · have hne' : b ≠ a := (hlt.trans_le (Nat.le_of_succ_le hb)).ne'
        exact Function.update_of_ne hne' _ _
      · rw [hat, State.written]
        change _ = (Function.update m.disk a _ a).word k
        rw [Function.update_self, hword]
    · have hend : m.freeblock = FSSIZE := le_antisymm hs.freeblock.2 (Nat.le_of_not_lt hroom)
      exact .inl ⟨hend, hs.len, hend.ge⟩
  · rename_i hfull
    exact .inr ⟨.refl hs _, (hat m).symm, hfull, Nat.le_succ _⟩

/-- The block with index `fbn` of the file. -/
theorem fileBlock_spec {fbn : ℕ} (hs : Sound N m live) (hi : Allocated (sbFor N) live i)
    (hfbn : fbn < MAXFILE) (hE : FSSIZE ≤ m.freeblock + 1 → E .die) :
    wp (fileBlock (live i) fbn) (fun r m' ↦ Lost m m' r.2 ∨ ∃ live' place,
      placeOf fbn = some place ∧ live' i = r.1 ∧ Found N m live m' live' i place ∧
      r.2 = (live' i).at m'.marked place ∧ r.2 ≠ 0 ∧ m'.freeblock ≤ m.freeblock + 2) E m := by
  rw [fileBlock]
  split
  · rename_i hdirect
    rw [wp_bind]
    refine wp_post (fillSlot_spec hs hi (Fin.castSucc ⟨fbn, hdirect⟩)) ?_
    rintro din m' (hlost | ⟨live', rfl, hfound, hne, hblock⟩)
    · exact .inl hlost
    · rw [slotPlace_castSucc] at hfound
      exact .inr ⟨live', .direct ⟨fbn, hdirect⟩, dif_pos hdirect, rfl, hfound, rfl, hne,
        hblock.trans (Nat.le_succ _)⟩
  · rename_i hindirect
    have hk : fbn - NDIRECT < NINDIRECT :=
      Nat.sub_lt_left_of_lt_add (Nat.le_of_not_lt hindirect) hfbn
    have hplace : placeOf fbn = some (.entry ⟨fbn - NDIRECT, hk⟩) := by
      rw [placeOf, dif_neg hindirect, dif_pos hk]
    rw [wp_bind]
    refine wp_post (fillSlot_spec hs hi (Fin.last NDIRECT)) ?_
    rintro din m₁ (hlost | ⟨live₁, rfl, hfound₁, hne, hblock₁⟩)
    · rw [wp_bind, fillEntry, wp_bind, hlost.address, wp_rsect_end hlost.len]
      exact hE hlost.freeblock
    · have hi₁ := (hfound₁.grows.allocated_iff i).mpr hi
      rw [slotPlace_last] at hfound₁
      rw [wp_bind]
      refine wp_post (fillEntry_spec hfound₁.sound hi₁ ⟨fbn - NDIRECT, hk⟩ rfl hne) ?_
      rintro x m' (⟨hx, hlen, hfull⟩ | ⟨hfound, hx, hx', hblock⟩)
      · exact .inl ⟨hx, hlen, hfull.trans hblock₁⟩
      · exact .inr ⟨live₁, _, hplace, rfl, hfound₁.trans hfound, hx, hx',
          hblock.trans (Nat.add_le_add_right hblock₁ 1)⟩

/-! ## Appending -/

/-- The bytes `p` are stored at `off` in the file of inode `i`, which has got the blocks for them. -/
structure Appended (N : ℕ) (m : State) (live : ℕ → Dinode) (m' : State) (live' : ℕ → Dinode)
    (i off : ℕ) (p : List UInt8) : Prop where
  sound : Sound N m' live'
  keeps : Keeps N m m'
  writes : Writes (sbFor N) m.marked live m'.marked live' i off (off + p.length)
  bytes : ∀ k, k < p.length → (live' i).byteAt m'.marked (off + k) = p.getD k 0
  blocks : ∀ j k, Allocated (sbFor N) live j → ((live' j).blockOf m'.marked k ≠ 0 ↔
    (live j).blockOf m.marked k ≠ 0 ∨
      j = i ∧ 0 < p.length ∧ off / BSIZE ≤ k ∧ k * BSIZE < off + p.length)

namespace Appended

variable {off : ℕ} {p q : List UInt8}

theorem nil (hs : Sound N m live) : Appended N m live m live i off [] :=
  ⟨hs, ⟨rfl, rfl⟩, .refl hs.owned i _ _, by simp, by simp⟩

theorem allocated (h : Appended N m live m' live' i off p) {j : ℕ}
    (hj : Allocated (sbFor N) live j) : Allocated (sbFor N) live' j := by
  by_cases hji : j = i
  · subst hji
    rw [Allocated, h.writes.fields]
    exact hj
  · exact (h.writes.allocated_iff hji).mpr hj

theorem append (h : Appended N m live m' live' i off p)
    (h' : Appended N m' live' m'' live'' i (off + p.length) q) :
    Appended N m live m'' live'' i off (p ++ q) where
  sound := h'.sound
  keeps := h.keeps.trans h'.keeps
  writes := by
    rw [List.length_append, ← Nat.add_assoc]
    exact h.writes.trans h'.writes (Nat.le_add_right _ _) (Nat.le_add_right _ _)
  bytes k hk := by
    by_cases hlt : k < p.length
    · rw [h'.writes.outside _ (.inl (Nat.add_lt_add_left hlt off)), h.bytes k hlt,
        List.getD_append _ _ _ _ hlt]
    · have hle := Nat.le_of_not_lt hlt
      have hlast := h'.bytes (k - p.length) (by rw [List.length_append] at hk; omega)
      rw [Nat.add_assoc, Nat.add_sub_of_le hle] at hlast
      rw [hlast, List.getD_append_right _ _ _ _ hle]
  blocks j k hj := by
    rw [h'.blocks j k (h.allocated hj), h.blocks j k hj, or_assoc, ← and_or_left,
      List.length_append]
    refine or_congr_right (and_congr_right fun _ ↦ ?_)
    simp only [BSIZE]
    omega

/-- The bytes of one round go into one block. -/
theorem round {x : ℕ} {place : Place} (hi : Allocated (sbFor N) live i)
    (h : Found N m live m' live' i place) (hplace : placeOf (off / BSIZE) = some place)
    (hx : x = (live' i).at m'.marked place) (hne : x ≠ 0) (hpos : 0 < p.length)
    (hend : off % BSIZE + p.length ≤ BSIZE) :
    Appended N m live (m'.written x ((m'.disk x).setBytes (off % BSIZE) p)) live' i off p := by
  have hi' := (h.grows.allocated_iff i).mpr hi
  obtain ⟨hdata, hlt⟩ := h.sound.handed hi' (hx ▸ hne)
  rw [← hx] at hdata hlt
  have hof : x = (live' i).blockOf m'.marked (off / BSIZE) := by
    rw [Dinode.blockOf, hplace, hx]
  have hblock := hof ▸ hne
  have hmarked : (m'.written x ((m'.disk x).setBytes (off % BSIZE) p)).marked =
      Function.update m'.marked x ((m'.disk x).setBytes (off % BSIZE) p) :=
    marked_written (ne_bmapstart hdata)
  obtain ⟨hwrites, hbytes⟩ := Writes.store h.sound.layout h.sound.owned hi' p hblock hend
  obtain ⟨howned, hblocks, -⟩ := h.sound.owned.store h.sound.layout.data hi' hblock
    ((m'.disk x).setBytes (off % BSIZE) p)
  rw [← hof, marked_of_ne (ne_bmapstart hdata), ← hmarked] at hwrites hbytes
  rw [← hof, ← hmarked] at howned hblocks
  constructor
  case sound =>
    refine h.sound.next howned rfl le_rfl h.sound.freeblock.2 fun b hb ↦ ?_
    exact Function.update_of_ne (hlt.trans_le hb).ne' _ _
  case keeps => exact h.keeps.trans (.written h.sound.layout hdata)
  case writes => exact (Writes.ofGrows h.grows hi off off).trans hwrites le_rfl (Nat.le_add_right _ _)
  case bytes => exact hbytes
  case blocks =>
    intro j k hj
    rw [hblocks j k ((h.grows.allocated_iff j).mpr hj)]
    by_cases heq : j = i ∧ k = off / BSIZE
    · obtain ⟨rfl, rfl⟩ := heq
      refine iff_of_true (hof ▸ hne) (.inr ⟨rfl, hpos, le_rfl, ?_⟩)
      exact (Nat.div_mul_le_self off BSIZE).trans_lt (Nat.lt_add_of_pos_right hpos)
    · rw [h.only j k hj fun hk ↦ heq ⟨hk.1, placeOf_inj hk.2 hplace⟩]
      refine (or_iff_left fun hk ↦ heq ⟨hk.1, ?_⟩).symm
      obtain ⟨-, -, hle, hlast⟩ := hk
      simp only [BSIZE] at *
      omega

end Appended

/-- The number of blocks with one of the `n` bytes at `off`. -/
def touched (off n : ℕ) : ℕ := if n = 0 then 0 else (off % BSIZE + n - 1) / BSIZE + 1

/-- The bytes of one round end with the block or with the last byte. -/
theorem touched_round {off n n₁ : ℕ} (hn : 0 < n)
    (hn₁ : n₁ = min n ((off / BSIZE + 1) * BSIZE - off)) : 0 < n₁ ∧ n₁ ≤ n ∧
      off % BSIZE + n₁ ≤ BSIZE ∧ touched off n = 1 + touched (off + n₁) (n - n₁) := by
  simp only [touched, BSIZE] at *
  split <;> split <;> omega

/-- There is room for `n` bytes at `off`, even if every block takes one of addresses too. -/
def Room (m : State) (off n : ℕ) : Prop :=
  m.freeblock + 2 * touched off n ≤ FSSIZE ∧ off + n ≤ MAXFILE * BSIZE

theorem iappendLoop_spec {fuel : ℕ} : ∀ {m : State} {live : ℕ → Dinode} {off : ℕ} {p : List UInt8},
    Sound N m live → Allocated (sbFor N) live i → off ≤ MAXFILE * BSIZE → p.length ≤ fuel →
    (¬ Room m off p.length → ∀ f, E f) →
    wp (iappendLoop fuel (live i) off p) (fun r m' ↦ r.2 = off + p.length ∧
      off + p.length ≤ MAXFILE * BSIZE ∧
      m'.freeblock ≤ m.freeblock + 2 * touched off p.length ∧
      ∃ live', live' i = r.1 ∧ Appended N m live m' live' i off p) E m := by
  induction fuel with
  | zero =>
    intro m live off p hs hi hoff hfuel hE
    obtain rfl := List.length_eq_zero_iff.mp (Nat.le_zero.mp hfuel)
    exact ⟨rfl, hoff, Nat.le_add_right _ _, live, rfl, .nil hs⟩
  | succ fuel ih =>
    intro m live off p hs hi hoff hfuel hE
    rw [iappendLoop]
    split
    · rename_i hp
      subst hp
      exact ⟨rfl, hoff, Nat.le_add_right _ _, live, rfl, .nil hs⟩
    · rename_i hp
      have hpos := List.length_pos_iff.mpr hp
      dsimp only
      generalize hn₁ : min p.length ((off / BSIZE + 1) * BSIZE - off) = n₁
      obtain ⟨hn, hle, hend, htouched⟩ := touched_round hpos hn₁.symm
      split
      · rename_i hfbn
        have hfull : FSSIZE ≤ m.freeblock + 1 → E .die := by
          intro hfull
          refine hE (fun hroom ↦ ?_) .die
          have hfit := hroom.1
          omega
        rw [wp_bind]
        refine wp_post (fileBlock_spec hs hi hfbn hfull) ?_
        rintro ⟨din₁, x⟩ m₁ (hlost | ⟨live₁, place, hplace, rfl, hfound, hx, hne, hblocks⟩)
        · obtain rfl : x = FSSIZE := hlost.address
          rw [wp_bind, wp_rsect_end hlost.len]
          exact hfull hlost.freeblock
        · dsimp only at hx hne ⊢
          have hs₁ := hfound.sound
          have hi₁ := (hfound.grows.allocated_iff i).mpr hi
          have hdata := (hs₁.handed hi₁ (hx ▸ hne)).1
          rw [← hx] at hdata
          have hlen₁ : (p.take n₁).length = n₁ := List.length_take_of_le hle
          have hround := Appended.round hi hfound hplace hx hne (hlen₁.symm ▸ hn) (hlen₁.symm ▸ hend)
          have hoff : off - off / BSIZE * BSIZE = off % BSIZE := (Nat.mod_eq_sub_div_mul).symm
          rw [wp_bind, wp_rsect hs₁.len hdata.2, wp_bind, wp_wsect hs₁.len hdata.2, hoff]
          set m₂ := m₁.written x ((m₁.disk x).setBytes (off % BSIZE) (p.take n₁))
          have hfree : m₂.freeblock ≤ m.freeblock + 2 := hblocks
          have hlen : (p.drop n₁).length = p.length - n₁ := List.length_drop
          have hend₁ : off + n₁ ≤ MAXFILE * BSIZE := by
            have hlast := Nat.mul_le_mul_right BSIZE (Nat.succ_le_of_lt hfbn)
            simp only [BSIZE] at *
            omega
          refine wp_post (ih hround.sound hi₁ hend₁ (by omega) ?_) ?_
          · rw [hlen]
            refine fun hno ↦ hE fun hroom ↦ hno ⟨?_, ?_⟩
            · have hfit := hroom.1
              omega
            · have hfit := hroom.2
              omega
          · rintro ⟨din, off'⟩ m' ⟨hoff', hsize, hfree', live', hlive, happended⟩
            rw [hlen] at hoff' hsize hfree'
            have happend := hround.append (q := p.drop n₁) (by rwa [hlen₁])
            rw [List.take_append_drop] at happend
            dsimp only at hoff' hlive
            exact ⟨by dsimp only; omega, by omega, by omega, live', hlive, happend⟩
      · rename_i hfbn
        refine hE (fun hroom ↦ hfbn ?_) .assertion
        have hfit := hroom.2
        exact (Nat.div_lt_iff_lt_mul (by decide)).mpr (by omega)

end Xv6.Mkfs
