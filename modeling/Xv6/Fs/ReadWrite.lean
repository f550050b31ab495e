import Xv6.Fs.Content
import Xv6.Fs.Logged

/-!
# Reading and Writing Files

`readi` changes nothing and returns the bytes of the file; `writei` changes bytes of one file in the
range it was asked to write, also when the copy from user memory fails, and leaves no hole.
-/

namespace Xv6.Fs

open Lib

variable {s : FsState} {E : Stop → Prop}

/-! ## Reading -/

/-- Bytes of a file. -/
def Dinode.bytes (disk : Device) (d : Dinode) (off count : ℕ) : List UInt8 :=
  (List.range count).map fun k ↦ d.byteAt disk (off + k)

theorem bytes_append (disk : Device) (d : Dinode) (off m count : ℕ) :
    d.bytes disk off m ++ d.bytes disk (off + m) count = d.bytes disk off (m + count) := by
  simp [Dinode.bytes, List.range_add, Function.comp_def, Nat.add_assoc]

/-- An offset that stays inside one block. -/
theorem offset_in_block (off k : ℕ) (h : off % BSIZE + k < BSIZE) :
    (off + k) / BSIZE = off / BSIZE ∧ (off + k) % BSIZE = off % BSIZE + k := by
  simp only [BSIZE] at *
  omega

/-- Bytes inside one block. -/
theorem getBytes_contents (disk : Device) (d : Dinode) {off m : ℕ} (hm : off % BSIZE + m ≤ BSIZE) :
    (d.contents disk (off / BSIZE)).getBytes (off % BSIZE) m = d.bytes disk off m := by
  apply List.map_congr_left
  intro k hk
  have hk : k < m := List.mem_range.mp hk
  obtain ⟨hdiv, hmod⟩ := offset_in_block off k (by omega)
  rw [Dinode.byteAt, hdiv, hmod]

/-- The block of an offset below the size is there. -/
theorem Dinode.NoHoles.present {disk : Device} {d : Dinode} (h : d.NoHoles disk) {off : ℕ}
    (hoff : off < d.size) : d.blockOf disk (off / BSIZE) ≠ 0 :=
  h.block _ (lt_of_le_of_lt (Nat.div_mul_le_self off BSIZE) hoff)

/-- A copy of two lists, one after the other. -/
theorem copyout_append (mem : Dest) (dst : ℕ) (bytes more : List UInt8) :
    copyout mem dst (bytes ++ more) =
      if (copyout mem dst bytes).length < bytes.length then copyout mem dst bytes
      else bytes ++ copyout mem (dst + bytes.length) more := by
  induction bytes generalizing dst with
  | nil => rfl
  | cons byte bytes ih =>
    rw [List.cons_append, copyout, copyout]
    split
    · rw [ih, List.length_cons, List.length_cons]
      simp only [Nat.add_lt_add_iff_right, List.cons_append]
      rw [apply_ite (List.cons byte), Nat.add_right_comm, Nat.add_assoc dst]
    · rw [if_pos (by simp)]

/-- A copy that stores all bytes. -/
theorem copyout_eq_self {mem : Dest} {dst : ℕ} {bytes : List UInt8}
    (h : ¬ (copyout mem dst bytes).length < bytes.length) : copyout mem dst bytes = bytes := by
  have happend := copyout_append mem dst bytes []
  rwa [List.append_nil, if_neg h, copyout, List.append_nil] at happend

/-- A copy to mapped memory. -/
theorem copyout_mapped {mem : Dest} {dst : ℕ} {bytes : List UInt8}
    (hmem : ∀ k, k < bytes.length → mem (dst + k) = true) : copyout mem dst bytes = bytes := by
  induction bytes generalizing dst with
  | nil => rfl
  | cons byte bytes ih =>
    have hfirst : mem dst = true := hmem 0 (Nat.succ_pos _)
    rw [copyout, if_pos hfirst, ih fun k hk ↦ ?_]
    rw [Nat.add_right_comm]
    exact hmem (k + 1) (Nat.succ_lt_succ hk)

theorem length_bytes (disk : Device) (d : Dinode) (off count : ℕ) :
    (d.bytes disk off count).length = count := by
  rw [Dinode.bytes, List.length_map, List.length_range]

/-- The loop of `readi` copies the rest of the range, up to an address that is not mapped. -/
theorem readiLoop_exact {ip : Fin NINODE} (hbufs : s.bufs = [])
    (hholes : (s.itable ip).copy.NoHoles s.disk) (mem : Dest) (n : ℕ) {fuel tot off dst : ℕ}
    {copied : List UInt8} (htot : tot ≤ n) (hfuel : n - tot ≤ fuel)
    (hend : off + (n - tot) ≤ (s.itable ip).copy.size) :
    wp (readiLoop ip mem n fuel tot off dst copied) (fun r s' ↦ s' = s ∧
      r = (if (copyout mem dst ((s.itable ip).copy.bytes s.disk off (n - tot))).length < n - tot
        then -1 else (n : ℤ),
        copied ++ copyout mem dst ((s.itable ip).copy.bytes s.disk off (n - tot)))) E s := by
  induction fuel generalizing tot off dst copied with
  | zero =>
    have : n - tot = 0 := by omega
    obtain rfl : tot = n := by omega
    simp [readiLoop, Dinode.bytes, copyout]
  | succ fuel ih =>
    rw [readiLoop]
    split
    · rename_i hlt
      have hpresent := hholes.present (show off < _ by omega)
      set m := min (n - tot) (BSIZE - off % BSIZE) with hm
      have hmod : off % BSIZE < BSIZE := Nat.mod_lt _ (by decide)
      have hpos : 0 < m := by omega
      rw [wp_bind]
      refine wp_post (bmap_present hbufs hpresent) ?_
      rintro b s' ⟨rfl, rfl⟩
      rw [wp_bind, wp_bread (by simp [hbufs])]
      have hblock : s'.disk ((s'.itable ip).copy.blockOf s'.disk (off / BSIZE)) =
          (s'.itable ip).copy.contents s'.disk (off / BSIZE) := by
        rw [Dinode.contents, if_neg hpresent]
      have hinside : off % BSIZE + m ≤ BSIZE := by omega
      dsimp only
      rw [hblock, getBytes_contents _ _ hinside]
      set first := (s'.itable ip).copy.bytes s'.disk off m with hfirst
      have hlength : first.length = m := length_bytes ..
      obtain ⟨rest, hrest⟩ :
          ∃ rest, rest = (s'.itable ip).copy.bytes s'.disk (off + m) (n - (tot + m)) := ⟨_, rfl⟩
      have hsplit : (s'.itable ip).copy.bytes s'.disk off (n - tot) = first ++ rest := by
        rw [hrest, hfirst, bytes_append, show m + (n - (tot + m)) = n - tot by omega]
      rw [hsplit, copyout_append, hlength]
      split
      · rename_i hshort
        rw [wp_bind, wp_brelse rfl]
        refine ⟨rfl, ?_⟩
        rw [if_pos (by omega)]
      · rename_i hfull
        have hself : copyout mem dst first = first := copyout_eq_self (by rwa [hlength])
        rw [wp_bind, wp_brelse rfl, hself]
        refine wp_post (ih (by omega) (by omega) (by omega)) ?_
        rw [← hrest]
        rintro r s'' ⟨hsame, rfl⟩
        have hiff : (first ++ copyout mem (dst + m) rest).length < n - tot ↔
            (copyout mem (dst + m) rest).length < n - (tot + m) := by
          rw [List.length_append, hlength]
          omega
        refine ⟨hsame, ?_⟩
        simp only [hiff, List.append_assoc]
    · have : n - tot = 0 := by omega
      obtain rfl : tot = n := by omega
      simp [Dinode.bytes, copyout]

/-- `readi` changes nothing.  It copies the bytes of the range that are below the size, or nothing if
the range starts after the end or wraps around; if an address is not mapped, it copies those before
it and returns -1. -/
theorem readi_exact {ip : Fin NINODE} (hbufs : s.bufs = [])
    (hholes : (s.itable ip).copy.NoHoles s.disk) (mem : Dest) (dst off : ℕ) {n : ℕ} (hn : n < 2 ^ 32) :
    wp (readi ip mem dst off n) (fun r s' ↦ s' = s ∧
      r = if (s.itable ip).copy.size < off ∨ 2 ^ 32 ≤ off + n then (0, [])
        else (if (copyout mem dst ((s.itable ip).copy.bytes s.disk off
            (min n ((s.itable ip).copy.size - off)))).length < min n ((s.itable ip).copy.size - off)
          then -1 else ((min n ((s.itable ip).copy.size - off) : ℕ) : ℤ),
          copyout mem dst ((s.itable ip).copy.bytes s.disk off
            (min n ((s.itable ip).copy.size - off))))) E s := by
  have hsize : (s.itable ip).copy.size < 2 ^ 32 := lt_of_le_of_lt hholes.size (by decide)
  rw [readi, wp_bind, wp_inode]
  split
  · rename_i hbad
    refine ⟨rfl, ?_⟩
    rw [if_pos]
    by_contra hgood
    rw [Nat.mod_eq_of_lt (by omega)] at hbad
    omega
  · rename_i hgood
    have hrange : ¬ ((s.itable ip).copy.size < off ∨ 2 ^ 32 ≤ off + n) := by omega
    have hmin : (if (off + n) % 2 ^ 32 > (s.itable ip).copy.size then (s.itable ip).copy.size - off
        else n) = min n ((s.itable ip).copy.size - off) := by
      rw [Nat.mod_eq_of_lt (by omega)]
      split <;> omega
    dsimp only
    rw [hmin, if_neg hrange]
    refine wp_post (readiLoop_exact hbufs hholes mem _ (Nat.zero_le _) le_rfl (by omega)) ?_
    rintro r s' ⟨rfl, hr⟩
    rw [Nat.sub_zero, List.nil_append] at hr
    exact ⟨rfl, hr⟩

/-- `readi` to memory that is mapped. -/
theorem readi_spec {ip : Fin NINODE} (hbufs : s.bufs = [])
    (hholes : (s.itable ip).copy.NoHoles s.disk) (mem : Dest) (dst off : ℕ) {n : ℕ} (hn : n < 2 ^ 32) :
    wp (readi ip mem dst off n) (fun r s' ↦ s' = s ∧
      ((∀ k, k < n → mem (dst + k) = true) →
        r = if (s.itable ip).copy.size < off ∨ 2 ^ 32 ≤ off + n then (0, [])
          else (((min n ((s.itable ip).copy.size - off) : ℕ) : ℤ),
            (s.itable ip).copy.bytes s.disk off (min n ((s.itable ip).copy.size - off))))) E s := by
  refine wp_post (readi_exact hbufs hholes mem dst off hn) ?_
  rintro r s' ⟨rfl, rfl⟩
  refine ⟨rfl, fun hmem ↦ ?_⟩
  rw [copyout_mapped fun k hk ↦ hmem k ?_, length_bytes, if_neg (Nat.lt_irrefl _)]
  rw [length_bytes] at hk
  omega

/-! ## Writing -/

/-- The bytes from `lo` to `hi` of the file of inode `i` may change and it may get blocks; all other
bytes and files are as they were. -/
structure Writes (sb : Superblock) (disk : Device) (live : ℕ → Dinode) (disk' : Device)
    (live' : ℕ → Dinode) (i lo hi : ℕ) : Prop extends Change sb disk live disk' live' i where
  fields : live' i = { live i with addrs := (live' i).addrs }
  keeps : ∀ k, (live i).blockOf disk k ≠ 0 → (live' i).blockOf disk' k ≠ 0
  outside : ∀ x, x < lo ∨ hi ≤ x → (live' i).byteAt disk' x = (live i).byteAt disk x

namespace Writes

variable {sb : Superblock} {disk disk' disk'' : Device} {live live' live'' : ℕ → Dinode}
  {i lo mid hi : ℕ}

theorem trans (h : Writes sb disk live disk' live' i lo mid)
    (h' : Writes sb disk' live' disk'' live'' i mid hi) (hlo : lo ≤ mid) (hhi : mid ≤ hi) :
    Writes sb disk live disk'' live'' i lo hi where
  toChange := h.toChange.trans h'.toChange
  fields := by rw [h'.fields, h.fields]
  keeps k hne := h'.keeps k (h.keeps k hne)
  outside x hx := (h'.outside x (by omega)).trans (h.outside x (by omega))

theorem mono {lo' hi' : ℕ} (h : Writes sb disk live disk' live' i lo hi) (hlo : lo' ≤ lo)
    (hhi : hi ≤ hi') : Writes sb disk live disk' live' i lo' hi' where
  toChange := h.toChange
  fields := h.fields
  keeps := h.keeps
  outside x hx := h.outside x (by omega)

theorem refl (h : Owned sb disk live) (i lo hi : ℕ) : Writes sb disk live disk live i lo hi where
  toChange := .of_agree h h (fun _ _ ↦ rfl) fun _ _ ↦ rfl
  fields := rfl
  keeps _ hne := hne
  outside _ _ := rfl

/-- `bmap` changes no byte. -/
theorem ofGrows (h : Grows sb disk live disk' live' i) (halloc : Allocated sb live i) (lo hi : ℕ) :
    Writes sb disk live disk' live' i lo hi where
  owned := h.owned
  others := h.others
  fields := h.fields
  contents j k _ hj := h.contents j k hj
  blocks j k _ hj hne := by rwa [h.keeps j k hj hne]
  keeps k hne := by rwa [h.keeps i k halloc hne]
  outside x _ := by rw [Dinode.byteAt, Dinode.byteAt, h.contents i _ halloc]

/-- Storing bytes into a block of the file. -/
theorem store (hsb : sb.WellFormed) (h : Owned sb disk live) (halloc : Allocated sb live i)
    {off : ℕ} (bytes : List UInt8) (hblock : (live i).blockOf disk (off / BSIZE) ≠ 0)
    (hfits : off % BSIZE + bytes.length ≤ BSIZE) :
    let block := (disk ((live i).blockOf disk (off / BSIZE))).setBytes (off % BSIZE) bytes
    let disk' := Function.update disk ((live i).blockOf disk (off / BSIZE)) block
    Writes sb disk live disk' live i off (off + bytes.length) ∧
      ∀ k, k < bytes.length → (live i).byteAt disk' (off + k) = bytes.getD k 0 := by
  intro block disk'
  obtain ⟨howned, hblocks, hcontents⟩ := h.store hsb.data halloc hblock block
  have hbyte : ∀ x, (live i).byteAt disk' x =
      if x / BSIZE = off / BSIZE then block.get (x % BSIZE) else (live i).byteAt disk x := by
    intro x
    rw [Dinode.byteAt, hcontents i _ halloc]
    by_cases heq : x / BSIZE = off / BSIZE
    · simp [heq]
    · simp [heq, Dinode.byteAt]
  have hold : ∀ x, x / BSIZE = off / BSIZE → (live i).byteAt disk x =
      (disk ((live i).blockOf disk (off / BSIZE))).get (x % BSIZE) := by
    intro x heq
    rw [Dinode.byteAt, heq, Dinode.contents, if_neg hblock]
  have hget : ∀ x, block.get (x % BSIZE) =
      if off % BSIZE ≤ x % BSIZE ∧ x % BSIZE < off % BSIZE + bytes.length then
        bytes.getD (x % BSIZE - off % BSIZE) 0
      else (disk ((live i).blockOf disk (off / BSIZE))).get (x % BSIZE) :=
    fun x ↦ Buffer.get_setBytes _ _ _ _ (Nat.mod_lt _ (by decide))
  constructor
  · refine ⟨⟨howned, fun _ _ ↦ rfl, ?_, ?_⟩, rfl, ?_, ?_⟩
    · intro j k hj hjalloc
      rw [hcontents j k hjalloc, if_neg fun heq ↦ hj heq.1]
    · intro j k _ hjalloc hne
      rwa [hblocks j k hjalloc]
    · intro k hne
      rwa [hblocks i k halloc]
    · intro x hx
      rw [hbyte]
      split
      · rename_i heq
        rw [hold x heq, hget, if_neg]
        simp only [BSIZE] at *
        omega
      · rfl
  · intro k hk
    obtain ⟨hdiv, hmod⟩ := offset_in_block off k (by omega)
    rw [hbyte, if_pos hdiv, hget, hmod, if_pos (by omega), Nat.add_sub_cancel_left]

end Writes

theorem length_copyin_le (mem : Source) (src len : ℕ) : (copyin mem src len).length ≤ len := by
  induction len generalizing src with
  | zero => simp [copyin]
  | succ len ih =>
    rw [copyin]
    split
    · simpa using ih (src + 1)
    · simp

/-- The bytes copied are those in memory. -/
theorem getD_copyin {mem : Source} {src len k : ℕ} (hk : k < (copyin mem src len).length) :
    some ((copyin mem src len).getD k 0) = mem (src + k) := by
  induction len generalizing src k with
  | zero => simp [copyin] at hk
  | succ len ih =>
    rw [copyin] at hk ⊢
    split at hk
    · rename_i byte hbyte
      cases k with
      | zero => simp [hbyte]
      | succ k =>
        rw [List.length_cons] at hk
        have hrest := ih (Nat.lt_of_succ_lt_succ hk)
        rw [show src + 1 + k = src + (k + 1) by omega] at hrest
        rw [← hrest]
        simp
    · simp at hk

/-- A copy from mapped memory copies everything. -/
theorem copyin_mapped {mem : Source} {src len : ℕ} (hmem : ∀ k, k < len → (mem (src + k)).isSome) :
    (copyin mem src len).length = len ∧
      ∀ k, k < len → some ((copyin mem src len).getD k 0) = mem (src + k) := by
  have hlength : (copyin mem src len).length = len := by
    induction len generalizing src with
    | zero => rfl
    | succ len ih =>
      obtain ⟨byte, hbyte⟩ := Option.isSome_iff_exists.mp (hmem 0 (Nat.succ_pos _))
      rw [Nat.add_zero] at hbyte
      rw [copyin, hbyte]
      refine congrArg (· + 1) (ih fun k hk ↦ ?_)
      rw [show src + 1 + k = src + (k + 1) by omega]
      exact hmem (k + 1) (by omega)
  exact ⟨hlength, fun k hk ↦ getD_copyin (by rwa [hlength])⟩

/-- The bytes that an iteration of the loop of `writei` has stored when it fails, after `done` bytes
in earlier iterations. -/
def unreported (mem : Source) (src off n done : ℕ) : List UInt8 :=
  copyin mem (src + done) (min (n - done) (BSIZE - (off + done) % BSIZE))

/-- The loop of `writei` starts again after `m` bytes. -/
theorem unreported_add (mem : Source) (src off n m done : ℕ) :
    unreported mem src off n (m + done) = unreported mem (src + m) (off + m) (n - m) done := by
  rw [unreported, unreported, Nat.sub_sub, Nat.add_assoc, Nat.add_assoc]

/-- What is stored is in the range that was asked for. -/
theorem length_unreported_le (mem : Source) (src off : ℕ) {n done : ℕ} (h : done ≤ n) :
    done + (unreported mem src off n done).length ≤ n := by
  have hlength := length_copyin_le mem (src + done) (min (n - done) (BSIZE - (off + done) % BSIZE))
  rw [unreported]
  omega

/-- If the memory is mapped, no iteration fails. -/
theorem done_of_mapped {mem : Source} {src off n done : ℕ} (hle : done ≤ n)
    (hshort : done < n →
      (unreported mem src off n done).length < min (n - done) (BSIZE - (off + done) % BSIZE))
    (hmem : ∀ k, k < n → (mem (src + k)).isSome) : done = n := by
  by_contra hne
  replace hshort := hshort (by omega)
  rw [unreported, (copyin_mapped fun k hk ↦ ?_).1] at hshort
  · exact Nat.lt_irrefl _ hshort
  · rw [Nat.add_assoc]
    exact hmem (done + k) (by omega)

/-- What `writei` has done after some iterations of its loop: `done` bytes and the bytes of an iteration
that fails are stored.  The block of that iteration may have changed without being logged, and no
other block has. -/
structure WriteExact (s : FsState) (live : ℕ → Dinode) (ip : Fin NINODE) (mem : Source)
    (src off n done : ℕ) (disk : Device) (addrs : Fin (NDIRECT + 1) → ℕ) (logged : List ℕ) :
    Prop where
  writes : Writes s.sb s.disk live disk
    (Function.update live (s.inum ip) { (s.itable ip).copy with addrs := addrs }) (s.inum ip)
    off (off + done + (unreported mem src off n done).length)
  dinode : ∀ i, i < s.sb.ninodes → s.sb.dinode disk i = s.sb.dinode s.disk i
  le : done ≤ n
  fails : done < n →
    (unreported mem src off n done).length < min (n - done) (BSIZE - (off + done) % BSIZE) ∧
      (0 < done → (off + done) % BSIZE = 0)
  present : ∀ k, k * BSIZE < off + done →
    Dinode.blockOf disk { (s.itable ip).copy with addrs := addrs } k ≠ 0
  keeps : ∀ k, (s.itable ip).copy.blockOf s.disk k ≠ 0 →
    Dinode.blockOf disk { (s.itable ip).copy with addrs := addrs } k =
      (s.itable ip).copy.blockOf s.disk k
  bytes : ∀ k, k < done + (unreported mem src off n done).length →
    some (Dinode.byteAt disk { (s.itable ip).copy with addrs := addrs } (off + k)) = mem (src + k)
  grown : s.logged ⊆ logged
  unlogged : ∀ b, b ∉ logged → disk b = s.disk b ∨ done < n ∧ b ≠ 0 ∧
    b = Dinode.blockOf disk { (s.itable ip).copy with addrs := addrs } ((off + done) / BSIZE)

/-- All bytes have been written. -/
theorem WriteExact.refl {ip : Fin NINODE} {live : ℕ → Dinode} (mem : Source) (src off : ℕ)
    (hlive : live (s.inum ip) = (s.itable ip).copy) (howned : Owned s.sb s.disk live)
    (hpresent : ∀ k, k * BSIZE < off → (s.itable ip).copy.blockOf s.disk k ≠ 0) :
    WriteExact s live ip mem src off 0 0 s.disk (s.itable ip).copy.addrs s.logged where
  writes := by
    rw [← hlive, Function.update_eq_self]
    exact .refl howned _ _ _
  dinode _ _ := rfl
  le := le_rfl
  fails h := absurd h (Nat.lt_irrefl _)
  present := hpresent
  keeps _ _ := rfl
  bytes k hk := by simp [unreported, copyin] at hk
  grown := List.Subset.refl _
  unlogged _ _ := .inl rfl

theorem writeiLoop_exact {ip : Fin NINODE} (mem : Source) (n : ℕ) {fuel tot off src : ℕ}
    {live : ℕ → Dinode}
    (hE : (∃ k, k * BSIZE < off + (n - tot) ∧ (s.itable ip).copy.blockOf s.disk k = 0) →
      s.MayRunOut off (n - tot) → E (.panic .ballocOut)) (hsb : s.sb.WellFormed) (hop : 0 < s.outstanding)
    (hbufs : s.bufs = []) (hlive : live (s.inum ip) = (s.itable ip).copy) (howned : Owned s.sb s.disk live)
    (halloc : Allocated s.sb live (s.inum ip)) (htot : tot ≤ n) (hfuel : n - tot ≤ fuel)
    (hmax : off + (n - tot) ≤ MAXFILE * BSIZE)
    (hpresent : ∀ k, k * BSIZE < off → (s.itable ip).copy.blockOf s.disk k ≠ 0) :
    wp (writeiLoop ip mem n fuel tot off src) (fun r s' ↦ ∃ done disk addrs logged,
      r = (tot + done, off + done) ∧
      s' = s.put ip disk { (s.itable ip).copy with addrs := addrs } logged ∧
      WriteExact s live ip mem src off (n - tot) done disk addrs logged) E s := by
  induction fuel generalizing s live tot off src with
  | zero =>
    have hzero : n - tot = 0 := by omega
    refine ⟨0, s.disk, (s.itable ip).copy.addrs, s.logged, rfl, by simp [FsState.put], ?_⟩
    rw [hzero]
    exact .refl mem src off hlive howned hpresent
  | succ fuel ih =>
    rw [writeiLoop]
    split
    · rename_i hlt
      have hbn : off / BSIZE < MAXFILE :=
        Nat.div_lt_of_lt_mul (by rw [Nat.mul_comm]; exact lt_of_lt_of_le (by omega) hmax)
      have hmod : off % BSIZE < BSIZE := Nat.mod_lt _ (by decide)
      rw [wp_bind]
      refine wp_post (wp_and (bmap_spec hsb hop hbufs hlive howned halloc (fun habsent hfew ↦
        hE ⟨_, lt_of_le_of_lt (Nat.div_mul_le_self _ _) (by omega), habsent⟩ (.inl hfew)) hbn)
        (Logs.bmap ip _ s)) ?_
      rintro b _ ⟨⟨disk₁, addrs₁, logged₁, rfl, hgrows, hdinode, hb, hblock⟩, hunlogged⟩
      set copy₁ : Dinode := { (s.itable ip).copy with addrs := addrs₁ } with hcopy₁
      set live₁ := Function.update live (s.inum ip) copy₁ with hlive₁
      have hself : live₁ (s.inum ip) = copy₁ := Function.update_self ..
      set m := min (n - tot) (BSIZE - off % BSIZE) with hm
      set bytes := copyin mem src m with hbytes
      have hlength : bytes.length ≤ m := length_copyin_le mem src m
      have hpos : 0 < m := by omega
      have hmn : m ≤ n - tot := by omega
      have hinside : off % BSIZE + m ≤ BSIZE := by omega
      have halloc₁ := (hgrows.allocated_iff _).mpr halloc
      have hb₁ : (live₁ (s.inum ip)).blockOf disk₁ (off / BSIZE) ≠ 0 := by
        rw [hself, hblock]
        exact hb
      obtain ⟨hstore, hbyte⟩ := Writes.store hsb hgrows.owned halloc₁ bytes hb₁ (by omega)
      obtain ⟨-, hsame, -⟩ := hgrows.owned.store hsb.data halloc₁ hb₁
        ((disk₁ b).setBytes (off % BSIZE) bytes)
      replace hsame := fun k ↦ hsame (s.inum ip) k halloc₁
      rw [hself, hblock] at hstore hbyte hsame
      set disk₂ := Function.update disk₁ b ((disk₁ b).setBytes (off % BSIZE) bytes) with hdisk₂
      have hwrites := (Writes.ofGrows hgrows halloc off off).trans hstore le_rfl (by omega)
      have hdata : s.sb.IsData b := by
        obtain ⟨place, -, hat⟩ := blockOf_eq_at (by rw [hblock]; exact hb)
        rw [hblock] at hat
        have := hgrows.owned.range _ place halloc₁ (by rw [hself, ← hat]; exact hb)
        rwa [hself, ← hat] at this
      have hdinode₂ : ∀ i, i < s.sb.ninodes → s.sb.dinode disk₂ i = s.sb.dinode s.disk i := by
        intro i hi
        rw [hdisk₂, Superblock.dinode_update_data hsb _ hi hdata, hdinode i hi]
      have hkeeps₂ : ∀ k, (s.itable ip).copy.blockOf s.disk k ≠ 0 →
          copy₁.blockOf disk₂ k = (s.itable ip).copy.blockOf s.disk k := by
        intro k hk
        have hkept := hgrows.keeps (s.inum ip) k halloc (by rw [hlive]; exact hk)
        rw [hsame k, ← hself, ← hlive]
        exact hkept
      have hpresent₂ : ∀ k, k * BSIZE < off + m → copy₁.blockOf disk₂ k ≠ 0 := by
        intro k hk
        by_cases hbelow : k * BSIZE < off
        · rw [hkeeps₂ k (hpresent k hbelow)]
          exact hpresent k hbelow
        · have heq : k = off / BSIZE := by
            simp only [BSIZE] at *
            omega
          rw [hsame, heq, hblock]
          exact hb
      have hdisk₂_of_ne : ∀ x, x ≠ b → x ∉ logged₁ → disk₂ x = s.disk x := fun x hx hlog ↦ by
        rw [hdisk₂, Function.update_of_ne hx]
        exact hunlogged.disk x hlog
      rw [wp_bind, wp_bread (by simp [FsState.put, hbufs]), wp_bind, wp_bstore]
      change wp (if bytes.length < m then _ else _) _ E
        { s.put ip disk₂ copy₁ logged₁ with bufs := b :: s.bufs }
      split
      · rename_i hshort
        rw [wp_bind, wp_brelse rfl]
        have hrest : unreported mem src off (n - tot) 0 = bytes := rfl
        refine ⟨0, disk₂, addrs₁, logged₁, rfl, rfl, ?_, hdinode₂, Nat.zero_le _,
          fun _ ↦ ⟨hshort, fun h ↦ absurd h (Nat.lt_irrefl _)⟩,
          fun k hk ↦ hpresent₂ k (by omega), hkeeps₂, fun k hk ↦ ?_, hunlogged.logged,
          fun x hx ↦ ?_⟩
        · rw [hrest]
          exact hwrites
        · rw [hrest, Nat.zero_add] at hk
          rw [← getD_copyin hk]
          exact congrArg some (hbyte k hk)
        · by_cases hxb : x = b
          · refine .inr ⟨by omega, hxb ▸ hb, ?_⟩
            rw [hxb, Nat.add_zero, hsame, hblock]
          · exact .inl (hdisk₂_of_ne x hxb hx)
      · rename_i hfull
        have hlength : bytes.length = m := by omega
        rw [wp_bind]
        refine (wp_logWrite (by exact hop) _).mpr ?_
        rw [wp_bind, wp_brelse rfl]
        -- The rest of the loop starts in the state after this iteration.
        set logged₂ := if b ∈ logged₁ then logged₁ else logged₁ ++ [b] with hlogged₂
        have hsub : logged₁ ⊆ logged₂ := by
          rw [hlogged₂]
          split
          · exact List.Subset.refl _
          · exact List.subset_append_left _ _
        have hmem : b ∈ logged₂ := by
          rw [hlogged₂]
          split
          · assumption
          · exact List.mem_append_right _ (List.mem_singleton_self _)
        set t : FsState := s.put ip disk₂ copy₁ logged₂ with ht
        have htable : t.itable ip = { s.itable ip with copy := copy₁ } := put_itable_self ..
        have hcopy : (t.itable ip).copy = copy₁ := by rw [htable]
        have hinum : t.inum ip = s.inum ip := by rw [FsState.inum, htable]; rfl
        have hput : ∀ disk copy logged, t.put ip disk copy logged = s.put ip disk copy logged := by
          intro disk copy logged
          simp [ht, FsState.put]
        have hEt : (∃ k, k * BSIZE < off + m + (n - (tot + m)) ∧
            (t.itable ip).copy.blockOf t.disk k = 0) →
            t.MayRunOut (off + m) (n - (tot + m)) → E (.panic .ballocOut) := by
          rintro ⟨k, hk, habsent⟩ -
          rw [hcopy] at habsent
          refine hE ⟨k, by omega, ?_⟩ (.inr (Nat.lt_of_not_le fun hone ↦ ?_))
          · by_contra hne
            exact hne ((hkeeps₂ k hne).symm.trans habsent)
          -- A write within one block is complete now.
          · exact hpresent₂ k (by omega) habsent
        change wp _ _ E t
        refine wp_post (ih (s := t) hEt hsb hop hbufs (by rw [hinum, hself, hcopy])
          hstore.owned (by rwa [hinum]) (by omega) (by omega) (by omega)
          (by rw [hcopy]; exact hpresent₂)) ?_
        rintro r _ ⟨done, disk₃, addrs₃, logged₃, rfl, rfl, hloop⟩
        obtain ⟨hw, hd, hle, hfails, hp, hk, hbs, hl, hu⟩ := hloop
        have hunr := unreported_add mem src off (n - tot) m done
        rw [Nat.sub_sub] at hunr
        rw [hcopy] at hw hp hk hbs hu
        rw [hinum, hlive₁, Function.update_idem] at hw
        rw [← hunr] at hw hfails hbs
        refine ⟨m + done, disk₃, addrs₃, logged₃, by rw [Nat.add_assoc, Nat.add_assoc],
          by rw [hput, hcopy], ?_⟩
        rw [hlength] at hwrites
        have hw' : Writes s.sb disk₂ live₁ disk₃ (Function.update live (s.inum ip)
            { copy₁ with addrs := addrs₃ }) (s.inum ip) (off + m)
            (off + (m + done) + (unreported mem src off (n - tot) (m + done)).length) := by
          rw [← Nat.add_assoc]
          exact hw
        refine ⟨hwrites.trans hw' (by omega) (by omega), fun i hi ↦ ?_, by omega, fun hdone ↦ ?_,
          fun k hk ↦ hp k (by omega), fun k hne ↦ ?_, fun k hk ↦ ?_, ?_, fun x hx ↦ ?_⟩
        · exact (hd i hi).trans (hdinode₂ i hi)
        · obtain ⟨hshort, halign⟩ := hfails (by omega)
          rw [Nat.add_assoc] at hshort halign
          refine ⟨by rwa [Nat.sub_add_eq] at hshort ⊢, fun _ ↦ ?_⟩
          rcases Nat.eq_zero_or_pos done with rfl | hpos'
          · simp only [BSIZE] at *
            omega
          · exact halign hpos'
        · have hkept := hkeeps₂ k hne
          exact (hk k fun hzero ↦ hne (hkept.symm.trans hzero)).trans hkept
        · by_cases hkm : k < m
          · have hout := hw'.outside (off + k) (.inl (by omega))
            rw [hself, hbyte k (by omega), Function.update_self] at hout
            have hcopied : some (bytes.getD k 0) = mem (src + k) := by
              refine getD_copyin ?_
              rw [← hbytes]
              omega
            exact (congrArg some hout).trans hcopied
          · have := hbs (k - m) (by omega)
            rw [show off + m + (k - m) = off + k by omega,
              show src + m + (k - m) = src + k by omega] at this
            exact this
        · exact List.Subset.trans hunlogged.logged (List.Subset.trans hsub hl)
        · rcases hu x hx with hsame' | ⟨hdone, hzero, hxb⟩
          · refine .inl (hsame'.trans (hdisk₂_of_ne x ?_ fun hlog ↦ hx (hl (hsub hlog))))
            rintro rfl
            exact hx (hl hmem)
          · refine .inr ⟨by omega, hzero, ?_⟩
            rw [← Nat.add_assoc]
            exact hxb
    · have hzero : n - tot = 0 := by omega
      refine ⟨0, s.disk, (s.itable ip).copy.addrs, s.logged, rfl, by simp [FsState.put], ?_⟩
      rw [hzero]
      exact .refl mem src off hlive howned hpresent

/-- The block numbers of an inode fit in 32 bits. -/
theorem Owned.addrs_lt {sb : Superblock} {disk : Device} {live : ℕ → Dinode} {i : ℕ}
    (hsb : sb.WellFormed) (h : Owned sb disk live) (hi : Allocated sb live i)
    (slot : Fin (NDIRECT + 1)) : (live i).addrs slot < 2 ^ 32 := by
  have hplace : ∃ place, (live i).at disk place = (live i).addrs slot := by
    rcases Fin.eq_castSucc_or_eq_last slot with ⟨k, rfl⟩ | rfl
    · exact ⟨.direct k, rfl⟩
    · exact ⟨.indirect, rfl⟩
  obtain ⟨place, hat⟩ := hplace
  by_cases hzero : (live i).at disk place = 0
  · omega
  · have hdata := h.range i place hi hzero
    have hsize := hsb.size
    have := hdata.2
    omega

/-- The copy of an inode with the same blocks is stored on the disk. -/
theorem Change.stored {sb : Superblock} {disk disk' : Device} {live : ℕ → Dinode} {i : ℕ}
    {copy : Dinode} (hsb : sb.WellFormed) (h : Owned sb disk live) (hi : Allocated sb live i)
    (hstored : Stored sb disk disk' i copy) (haddrs : copy.addrs = (live i).addrs)
    (htype : copy.type ≠ 0) :
    Change sb disk live disk' (Function.update live i copy) i ∧
      (∀ k, copy.blockOf disk' k = (live i).blockOf disk k) ∧
      ∀ k, copy.contents disk' k = (live i).contents disk k := by
  have hblockOf : ∀ k, copy.blockOf disk' k = (live i).blockOf disk k := by
    intro k
    exact blockOf_congr fun place _ ↦
      at_congr haddrs (fun hlast ↦ hstored.agree _ (h.range i .indirect hi hlast)) place
  refine ⟨?_, hblockOf, fun k ↦ ?_⟩
  · refine .of_agree h ?_ (fun j hj ↦ Function.update_of_ne hj _ _) hstored.agree
    refine h.congr hsb.data hstored.bit hstored.agree (fun j ↦ ?_) fun j hj ↦ ?_
    · by_cases hji : j = i
      · subst hji
        simp [Allocated, htype, hi.2]
      · rw [Allocated, Allocated, Function.update_of_ne hji]
    · by_cases hji : j = i
      · rw [hji, Function.update_self, haddrs]
      · rw [Function.update_of_ne hji]
  · rw [Dinode.contents, hblockOf, Dinode.contents]
    split
    · rfl
    · rename_i hne
      obtain ⟨place, -, hat⟩ := blockOf_eq_at hne
      exact hstored.agree _ (hat ▸ h.range i place hi (hat ▸ hne))

/-- `iupdate` stores the copy on the disk, and logs the block. -/
theorem wp_iupdate_unlogged {T : Unit → FsState → Prop} {ip : Fin NINODE} (hop : 0 < s.outstanding)
    (hbufs : s.bufs = []) (h : ∀ logged,
      Unlogged s { s with
        disk := s.sb.setDinode s.disk (s.inum ip) (s.itable ip).copy, logged := logged } →
      T () { s with
        disk := s.sb.setDinode s.disk (s.inum ip) (s.itable ip).copy, logged := logged }) :
    wp (iupdate ip) T E s := by
  refine wp_post (wp_and (wp_iupdate (T := fun _ t ↦ ∃ logged, t = { s with
    disk := s.sb.setDinode s.disk (s.inum ip) (s.itable ip).copy, logged := logged }) hop hbufs
    fun logged ↦ ⟨logged, rfl⟩) (Logs.iupdate ip s)) ?_
  rintro ⟨⟩ _ ⟨⟨logged, rfl⟩, hunlogged⟩
  exact h logged hunlogged

/-- What `writei` has done when it returns: `done` bytes are written. -/
structure Written (s : FsState) (live : ℕ → Dinode) (ip : Fin NINODE) (mem : Source)
    (src off n done : ℕ) (disk : Device) (copy : Dinode) : Prop where
  change : Change s.sb s.disk live disk (Function.update live (s.inum ip) copy) (s.inum ip)
  dinode : ∀ j, j < s.sb.ninodes → s.sb.dinode disk j =
    if j = s.inum ip then copy else s.sb.dinode s.disk j
  fields : copy = { (s.itable ip).copy with
    size := max (s.itable ip).copy.size (off + done), addrs := copy.addrs }
  noHoles : copy.NoHoles disk
  outside : ∀ x, x < off ∨ off + n ≤ x →
    copy.byteAt disk x = (s.itable ip).copy.byteAt s.disk x
  off_le : off ≤ (s.itable ip).copy.size
  fits : off + n ≤ MAXFILE * BSIZE
  all : (∀ k, k < n → (mem (src + k)).isSome) → done = n ∧ ∀ k, k < n →
    some (copy.byteAt disk (off + k)) = mem (src + k)

/-- The bytes of a file after `writei` has returned `done`: the bytes of an iteration that fails are
stored as well. -/
structure Stores (mem : Source) (src off n done : ℕ) (old new : ℕ → UInt8) : Prop where
  le : done ≤ n
  short : done < n →
    (unreported mem src off n done).length < min (n - done) (BSIZE - (off + done) % BSIZE)
  aligned : done < n → 0 < done → (off + done) % BSIZE = 0
  outside : ∀ x, x < off ∨ off + done + (unreported mem src off n done).length ≤ x → new x = old x
  bytes : ∀ k, k < done + (unreported mem src off n done).length →
    some (new (off + k)) = mem (src + k)

/-- The same in full: the block of an iteration that fails may have changed without being logged. -/
structure WrittenExact (s : FsState) (ip : Fin NINODE) (mem : Source) (src off n done : ℕ)
    (disk : Device) (copy : Dinode) (logged : List ℕ) : Prop extends
    Stores mem src off n done ((s.itable ip).copy.byteAt s.disk) (copy.byteAt disk) where
  keeps : ∀ k, (s.itable ip).copy.blockOf s.disk k ≠ 0 →
    copy.blockOf disk k = (s.itable ip).copy.blockOf s.disk k
  grown : s.logged ⊆ logged
  unlogged : ∀ b, b ∉ logged → disk b = s.disk b ∨ done < n ∧ b ≠ 0 ∧
    b = copy.blockOf disk ((off + done) / BSIZE)

/-- `writei` fails and does nothing, or stores bytes and records what it reports. -/
theorem writei_exact {ip : Fin NINODE} (mem : Source) (src off n : ℕ)
    (hE : (s.itable ip).copy.size < off + n → s.MayRunOut off n → E (.panic .ballocOut))
    {live : ℕ → Dinode}
    (hsb : s.sb.WellFormed) (hop : 0 < s.outstanding) (hbufs : s.bufs = [])
    (hlive : live (s.inum ip) = (s.itable ip).copy) (howned : Owned s.sb s.disk live)
    (halloc : Allocated s.sb live (s.inum ip)) (hholes : (s.itable ip).copy.NoHoles s.disk)
    (hn : n < 2 ^ 32) :
    wp (writei ip mem src off n) (fun r s' ↦
      (((s.itable ip).copy.size < off ∨ MAXFILE * BSIZE < off + n) ∧ r = -1 ∧ s' = s) ∨
      ∃ (done : ℕ) (disk : Device) (copy : Dinode) (logged : List ℕ), r = done ∧
        s' = s.put ip disk copy logged ∧ Written s live ip mem src off n done disk copy ∧
        WrittenExact s ip mem src off n done disk copy logged) E s := by
  have hsize : (s.itable ip).copy.size ≤ MAXFILE * BSIZE := hholes.size
  have hmaxfile : MAXFILE * BSIZE < 2 ^ 32 := by decide
  rw [writei, wp_bind, wp_inode]
  split
  · rename_i hbad
    refine .inl ⟨?_, rfl, rfl⟩
    by_contra hgood
    rw [not_or, Nat.not_lt, Nat.not_lt] at hgood
    rw [Nat.mod_eq_of_lt (lt_of_le_of_lt hgood.2 hmaxfile)] at hbad
    omega
  · rename_i hgood
    have hoff : off ≤ (s.itable ip).copy.size := by omega
    have hsum : off + n < 2 ^ 32 := by omega
    rw [Nat.mod_eq_of_lt hsum]
    split
    · rename_i hmax
      exact .inl ⟨.inr hmax, rfl, rfl⟩
    · rename_i hmax
      have habsent : (∃ k, k * BSIZE < off + (n - 0) ∧
          (s.itable ip).copy.blockOf s.disk k = 0) → s.MayRunOut off (n - 0) →
          E (.panic .ballocOut) := by
        rintro ⟨k, hk, habsent⟩
        exact hE (Nat.lt_of_not_le fun hle ↦ hholes.block k (lt_of_lt_of_le hk hle) habsent)
      rw [wp_bind]
      refine wp_post (writeiLoop_exact mem n habsent hsb hop hbufs hlive howned halloc (Nat.zero_le _)
        le_rfl (by omega) fun k hk ↦ hholes.block k (lt_of_lt_of_le hk hoff)) ?_
      rintro r _ ⟨done, disk, addrs, logged, rfl, rfl, hloop⟩
      rw [Nat.sub_zero] at hloop
      have hlength := length_unreported_le mem src off hloop.le
      have hwrites := hloop.writes.mono le_rfl (show _ ≤ off + n by omega)
      set copy : Dinode := { (s.itable ip).copy with
        size := max (s.itable ip).copy.size (off + done), addrs := addrs } with hcopy
      set live' := Function.update live (s.inum ip) { (s.itable ip).copy with addrs := addrs }
        with hlive'
      have hself : live' (s.inum ip) = { (s.itable ip).copy with addrs := addrs } :=
        Function.update_self ..
      have htype : (s.itable ip).copy.type ≠ 0 := hlive ▸ halloc.2
      have halloc' : Allocated s.sb live' (s.inum ip) := ⟨halloc.1, by rw [hself]; exact htype⟩
      have hsize' : copy.size ≤ MAXFILE * BSIZE := max_le hsize (by omega)
      have hrange : copy.InRange := by
        refine ⟨lt_of_le_of_lt hsize' hmaxfile, fun slot ↦ ?_⟩
        have := hwrites.owned.addrs_lt hsb halloc' slot
        rwa [hself] at this
      have hstored := stored_setDinode hsb disk halloc.1.2 hrange
      obtain ⟨hchange, hblockOf, hcontents⟩ := Change.stored hsb hwrites.owned halloc' hstored
        (by rw [hself]) htype
      rw [hself] at hblockOf hcontents
      have hbyte : ∀ x, copy.byteAt (s.sb.setDinode disk (s.inum ip) copy) x =
          Dinode.byteAt disk { (s.itable ip).copy with addrs := addrs } x := by
        intro x
        rw [Dinode.byteAt, hcontents, Dinode.byteAt]
      have hmaxeq : ∀ a b : ℕ, (if b > a then b else a) = max a b := by
        intro a b
        split <;> omega
      rw [wp_bind, wp_modifyCopy_put, wp_bind]
      refine wp_iupdate_unlogged (by exact hop) (by exact hbufs) fun logged' hunlogged ↦
        .inr ⟨done, s.sb.setDinode disk (s.inum ip) copy, copy, logged', by simp, ?_, ?_, ?_⟩
      · simp [FsState.put, FsState.inum, hmaxeq, hcopy]
      · constructor
        case change =>
          have := hwrites.toChange.trans hchange
          rwa [hlive', Function.update_idem] at this
        case dinode =>
          intro j hj
          rw [hstored.dinode j hj, hloop.dinode j hj]
        case fields => rfl
        case noHoles =>
          refine ⟨hsize', fun k hk ↦ ?_⟩
          rw [hblockOf]
          rcases lt_max_iff.mp hk with hk | hk
          · have := hwrites.keeps k (by rw [hlive]; exact hholes.block k hk)
            rwa [hself] at this
          · exact hloop.present k hk
        case outside =>
          intro x hx
          have := hwrites.outside x hx
          rw [hself, hlive] at this
          rw [hbyte, this]
        case off_le => exact hoff
        case fits => exact Nat.le_of_not_lt hmax
        case all =>
          intro hmem
          have hdone := done_of_mapped hloop.le (fun hlt ↦ (hloop.fails hlt).1) hmem
          refine ⟨hdone, fun k hk ↦ ?_⟩
          rw [hbyte, hloop.bytes k (by omega)]
      · have hdisk : ∀ b, b ∉ logged' → s.sb.setDinode disk (s.inum ip) copy b = disk b := by
          intro b hb
          simpa [FsState.put, FsState.inum, hmaxeq, hcopy] using hunlogged.disk b hb
        constructor
        case toStores =>
          refine ⟨hloop.le, fun hdone ↦ (hloop.fails hdone).1, fun hdone ↦ (hloop.fails hdone).2,
            fun x hx ↦ ?_, fun k hk ↦ ?_⟩
          · have := hloop.writes.outside x hx
            rw [Function.update_self, hlive] at this
            rw [hbyte, this]
          · rw [hbyte, hloop.bytes k hk]
        case keeps =>
          intro k hk
          rw [hblockOf, hloop.keeps k hk]
        case grown => exact List.Subset.trans hloop.grown hunlogged.logged
        case unlogged =>
          intro b hb
          rw [hdisk b hb, hblockOf]
          exact hloop.unlogged b fun hmem ↦ hb (hunlogged.logged hmem)

/-- `writei` fails and does nothing, or writes bytes in the range that was asked for. -/
theorem writei_spec {ip : Fin NINODE} (mem : Source) (src off n : ℕ)
    (hE : (s.itable ip).copy.size < off + n → s.MayRunOut off n → E (.panic .ballocOut))
    {live : ℕ → Dinode}
    (hsb : s.sb.WellFormed) (hop : 0 < s.outstanding) (hbufs : s.bufs = [])
    (hlive : live (s.inum ip) = (s.itable ip).copy) (howned : Owned s.sb s.disk live)
    (halloc : Allocated s.sb live (s.inum ip)) (hholes : (s.itable ip).copy.NoHoles s.disk)
    (hn : n < 2 ^ 32) :
    wp (writei ip mem src off n) (fun r s' ↦
      (((s.itable ip).copy.size < off ∨ MAXFILE * BSIZE < off + n) ∧ r = -1 ∧ s' = s) ∨
      ∃ (done : ℕ) (disk : Device) (copy : Dinode) (logged : List ℕ), r = done ∧
        s' = s.put ip disk copy logged ∧ Written s live ip mem src off n done disk copy) E s := by
  refine wp_post (writei_exact mem src off n hE hsb hop hbufs hlive howned halloc hholes hn) ?_
  rintro r s' (hbad | ⟨done, disk, copy, logged, hr, hs', hwritten, -⟩)
  · exact .inl hbad
  · exact .inr ⟨done, disk, copy, logged, hr, hs', hwritten⟩

end Xv6.Fs
