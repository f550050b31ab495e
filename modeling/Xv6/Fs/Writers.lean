import Xv6.Fs.Format
import Xv6.Lib.Count

/-!
# Writers that Share an Open File

Any number of processes write to one open file, with one offset.  `filewrite` writes a few blocks at
a time, each time in a transaction of its own and with the inode locked; in between, the other
writers may go on.  The offset is read and moved while the inode is locked, so the pieces that are
written follow each other in the file.
-/

namespace Xv6.Fs

open Lib

/-! ## The code of one writer -/

/-- A call of `filewrite`: the memory of the process, the address and the number of bytes. -/
structure WriteCall where
  mem : Source
  addr : ℕ
  n : ℕ

/-- `n1`: the number of bytes of the next piece. -/
def WriteCall.chunk (call : WriteCall) (i : ℕ) : ℕ := min (call.n - i) MAXCHUNK.toNat

theorem WriteCall.chunk_bounds (call : WriteCall) {i : ℕ} (hi : i < call.n) :
    0 < call.chunk i ∧ i + call.chunk i ≤ call.n ∧ call.chunk i < 2 ^ 32 := by
  have hmax : 0 < MAXCHUNK.toNat ∧ MAXCHUNK.toNat < 2 ^ 32 := by decide
  rw [WriteCall.chunk]
  omega

/-- Where a writer is in `filewrite`; `i` bytes have been written before, and `r` is what `writei`
has returned. -/
inductive WritePlace where
  | start
  | loop (i : ℕ)
  | begun (i : ℕ)
  | locked (i : ℕ)
  | wrote (i : ℕ) (r : ℤ)
  | moved (i : ℕ) (r : ℤ)
  | unlocked (i : ℕ) (r : ℤ)
  | ended (i : ℕ) (r : ℤ)
  | returned (ret : ℤ)

namespace WritePlace

/-- The next step of a writer, for a file that is no pipe and no device. -/
def code (f : Fin NFILE) (call : WriteCall) : WritePlace → FsM WritePlace
  | .start => do
      let file := (← get).ftable f
      if file.writable = false then return .returned (-1)
      else if file.type = .inode then return .loop 0
      else throw .disabled
  | .loop i =>
    if i < call.n then do
      beginOp
      return .begun i
    else return .returned (if i = call.n then call.n else -1)
  | .begun i => do
      ilock ((← get).ftable f).ip
      return .locked i
  | .locked i => do
      let file := (← get).ftable f
      let r ← writei file.ip call.mem (call.addr + i) file.off (call.chunk i)
      return .wrote i r
  | .wrote i r => do
      let file := (← get).ftable f
      if 0 < r then
        setFile f { file with off := (file.off + r.toNat) % 2 ^ 32 }
        return .moved i r
      else return .moved i r
  | .moved i r => do
      iunlock ((← get).ftable f).ip
      return .unlocked i r
  | .unlocked i r => do
      endOp
      return .ended i r
  | .ended i r =>
    if r ≠ call.chunk i then return .returned (if i = call.n then call.n else -1)
    else return .loop (i + r.toNat)
  | .returned _ => throw .disabled

/-- The piece that has just been written. -/
def written (call : WriteCall) : WritePlace → List (List UInt8)
  | .wrote i r => [copyin call.mem (call.addr + i) r.toNat]
  | _ => []

/-- A step writes one piece at most. -/
theorem written_single {call : WriteCall} {place : WritePlace} {piece : List UInt8}
    {rest : List (List UInt8)} (h : place.written call = piece :: rest) : rest = [] := by
  cases place <;> simp_all [written]

/-- Whether the writer holds the lock of the inode. -/
def holds : WritePlace → Bool
  | .locked _ | .wrote _ _ | .moved _ _ => true
  | _ => false

/-- Whether the writer is in a transaction. -/
def inOp : WritePlace → Bool
  | .begun _ | .locked _ | .wrote _ _ | .moved _ _ | .unlocked _ _ => true
  | _ => false

/-- The bytes that are written and not yet in the offset. -/
def pending : WritePlace → ℕ
  | .wrote _ r => r.toNat
  | _ => 0

/-- The number of bytes of the call that are written. -/
def progress (call : WriteCall) : WritePlace → ℕ
  | .start => 0
  | .loop i | .begun i | .locked i => i
  | .wrote i r | .moved i r | .unlocked i r | .ended i r => i + r.toNat
  | .returned _ => call.n

/-- What holds at a place of a call that meets no error. -/
def Fits (call : WriteCall) : WritePlace → Prop
  | .start => True
  | .loop i => i ≤ call.n
  | .begun i | .locked i => i < call.n
  | .wrote i r | .moved i r | .unlocked i r | .ended i r => i < call.n ∧ r = call.chunk i
  | .returned ret => ret = call.n

end WritePlace

/-! ## The writers -/

/-- A piece that was written: who wrote it, at which offset, and the bytes. -/
structure Piece (Writer : Type) where
  writer : Writer
  off : ℕ
  bytes : List UInt8

/-- The file system, the writers, and the pieces written so far. -/
structure Writers (Writer : Type) where
  fs : FsState
  place : Writer → WritePlace
  pieces : List (Piece Writer)

section Writers

variable {Writer : Type} [DecidableEq Writer]

namespace Writers

/-- All writers are about to call `filewrite`. -/
def start (fs : FsState) : Writers Writer := { fs := fs, place := fun _ ↦ .start, pieces := [] }

/-- Writer `t` comes to `place`. -/
def move (f : Fin NFILE) (calls : Writer → WriteCall) (s : Writers Writer) (t : Writer)
    (place : WritePlace) (fs : FsState) : Writers Writer where
  fs := fs
  place := Function.update s.place t place
  pieces := s.pieces ++ (place.written (calls t)).map fun bytes ↦ ⟨t, (s.fs.ftable f).off, bytes⟩

/-- A step of writer `t`. -/
def step (f : Fin NFILE) (calls : Writer → WriteCall) (s : Writers Writer) (t : Writer) :
    Except Stop (Writers Writer) :=
  match (s.place t).code f (calls t) s.fs with
  | .ok (place, fs) => .ok (s.move f calls t place fs)
  | .error stop => .error stop

/-- The pieces one after the other. -/
def bytes (s : Writers Writer) : List UInt8 := s.pieces.flatMap Piece.bytes

/-- The pieces of one writer. -/
def bytesOf (s : Writers Writer) (t : Writer) : List UInt8 :=
  (s.pieces.filter fun piece ↦ piece.writer = t).flatMap Piece.bytes

end Writers

/-- The pieces follow each other in the file, from `start` on. -/
def Consecutive (start : ℕ) : List (Piece Writer) → Prop
  | [] => True
  | piece :: rest => piece.off = start ∧ Consecutive (start + piece.bytes.length) rest

omit [DecidableEq Writer] in
theorem consecutive_snoc {start : ℕ} {pieces : List (Piece Writer)} {piece : Piece Writer} :
    Consecutive start (pieces ++ [piece]) ↔ Consecutive start pieces ∧
      piece.off = start + (pieces.flatMap Piece.bytes).length := by
  induction pieces generalizing start with
  | nil => simp [Consecutive]
  | cons first rest ih =>
    simp only [List.cons_append, Consecutive, ih, List.flatMap_cons, List.length_append]
    rw [and_assoc, Nat.add_assoc]

/-- A file with other bytes from `start` on. -/
def Node.overlay (node : Node) (start : ℕ) (bytes : List UInt8) : Node :=
  node.setContents (max node.size (start + bytes.length)) fun x ↦
    if start ≤ x ∧ x < start + bytes.length then bytes.getD (x - start) 0 else node.byte x

theorem Node.overlay_nil {node : Node} {start : ℕ} (h : start ≤ node.size) :
    node.overlay start [] = node := by
  have hnone : ∀ x, ¬ (start ≤ x ∧ x < start) := fun x hx ↦ by omega
  simp [Node.overlay, Node.setContents, hnone, h]

/-- More bytes are written behind those that are there. -/
theorem Node.overlay_append {node : Node} {start : ℕ} {bytes more : List UInt8} {byte : ℕ → UInt8}
    (hout : ∀ x, x < start + bytes.length ∨ start + bytes.length + more.length ≤ x →
      byte x = (node.overlay start bytes).byte x)
    (hin : ∀ k, k < more.length → byte (start + bytes.length + k) = more.getD k 0) :
    (node.overlay start bytes).setContents
      (max (node.overlay start bytes).size (start + bytes.length + more.length)) byte =
        node.overlay start (bytes ++ more) := by
  have hbyte : ∀ x, byte x = (node.overlay start (bytes ++ more)).byte x := by
    intro x
    simp only [overlay, setContents, List.length_append] at hout ⊢
    by_cases hmore : start + bytes.length ≤ x ∧ x < start + bytes.length + more.length
    · obtain ⟨k, rfl⟩ := Nat.exists_eq_add_of_le hmore.1
      rw [hin k (by omega), if_pos (by omega), List.getD_append_right _ _ _ _ (by omega)]
      congr 1
      omega
    · rw [hout x (by omega)]
      by_cases hold : start ≤ x ∧ x < start + bytes.length
      · rw [if_pos hold, if_pos (by omega), List.getD_append _ _ _ _ (by omega)]
      · rw [if_neg hold, if_neg (by omega)]
  rw [funext hbyte]
  simp only [overlay, setContents, List.length_append]
  congr 1
  omega

/-! ## The invariant -/

variable [Fintype Writer]

/-- What holds between the steps of the writers; `owner` has locked the inode. -/
structure Writers.Inv (fs₀ : FsState) (f : Fin NFILE) (calls : Writer → WriteCall)
    (owner : Option Writer) (s : Writers Writer) : Prop where
  base : Base s.fs 0 (if owner.isSome then {(fs₀.ftable f).ip} else ∅)
  holds : ∀ t, (s.place t).holds = true ↔ owner = some t
  ops : (Finset.univ.filter fun t ↦ (s.place t).inOp = true).card ≤ s.fs.outstanding
  file : s.fs.ftable f = { fs₀.ftable f with off := (s.fs.ftable f).off }
  off : (s.fs.ftable f).off + ∑ t, (s.place t).pending = (fs₀.ftable f).off + s.bytes.length
  inum : s.fs.inum (fs₀.ftable f).ip = fs₀.inum (fs₀.ftable f).ip
  node : s.fs.node (fs₀.inum (fs₀.ftable f).ip) =
    (fs₀.node (fs₀.inum (fs₀.ftable f).ip)).overlay (fs₀.ftable f).off s.bytes
  own : ∀ t, s.bytesOf t =
    copyin (calls t).mem (calls t).addr ((s.place t).progress (calls t))
  consecutive : Consecutive (fs₀.ftable f).off s.pieces
  fits : ∀ t, (s.place t).Fits (calls t)
  total : s.bytes.length = ∑ t, (s.place t).progress (calls t)

/-- The processes share a file that is open for writing, at an offset in the file; what they write
is in their memory, and the file can hold all of it. -/
structure Writers.Shares (fs₀ : FsState) (f : Fin NFILE) (calls : Writer → WriteCall) : Prop where
  base : Base fs₀ 0 ∅
  type : (fs₀.ftable f).type = .inode
  writable : (fs₀.ftable f).writable = true
  off : (fs₀.ftable f).off ≤ (fs₀.node (fs₀.inum (fs₀.ftable f).ip)).size
  mapped : ∀ t k, k < (calls t).n → ((calls t).mem ((calls t).addr + k)).isSome
  room : (fs₀.ftable f).off + ∑ t, (calls t).n ≤ MAXFILE * BSIZE

/-- A copy in two parts. -/
theorem copyin_append {mem : Source} {src len : ℕ} (hmem : ∀ k, k < len → (mem (src + k)).isSome)
    (more : ℕ) :
    copyin mem src (len + more) = copyin mem src len ++ copyin mem (src + len) more := by
  induction len generalizing src with
  | zero => simp [copyin]
  | succ len ih =>
    obtain ⟨byte, hbyte⟩ := Option.isSome_iff_exists.mp (hmem 0 (Nat.succ_pos _))
    rw [Nat.add_zero] at hbyte
    have hrest : ∀ k, k < len → (mem (src + 1 + k)).isSome := fun k hk ↦ by
      rw [show src + 1 + k = src + (k + 1) by omega]
      exact hmem (k + 1) (by omega)
    rw [Nat.succ_add, copyin, copyin, hbyte]
    simp only [ih hrest, List.cons_append]
    rw [show src + 1 + len = src + (len + 1) by omega]

namespace Writers.Inv

variable {fs₀ fs : FsState} {f : Fin NFILE} {calls : Writer → WriteCall} {owner : Option Writer}
  {s : Writers Writer} {t : Writer} {place : WritePlace}

theorem start (hshares : Shares fs₀ f calls) : Inv fs₀ f calls none (start fs₀) where
  base := hshares.base
  holds t := by simp [Writers.start, WritePlace.holds]
  ops := by simp [Writers.start, WritePlace.inOp]
  file := rfl
  off := by simp [Writers.start, WritePlace.pending, Writers.bytes]
  inum := rfl
  node := (Node.overlay_nil hshares.off).symm
  own t := by simp [Writers.bytesOf, Writers.start, WritePlace.progress, copyin]
  consecutive := trivial
  fits t := trivial
  total := by simp [Writers.bytes, Writers.start, WritePlace.progress]

/-- A step of writer `t`, which writes the bytes `more`. -/
theorem next (h : Inv fs₀ f calls owner s) {owner' : Option Writer} (more : List UInt8)
    (hwritten : (place.written (calls t)).flatten = more)
    (hprogress : place.progress (calls t) = (s.place t).progress (calls t) + more.length)
    (hown : copyin (calls t).mem (calls t).addr (place.progress (calls t)) =
      copyin (calls t).mem (calls t).addr ((s.place t).progress (calls t)) ++ more)
    (hfits : place.Fits (calls t))
    (hbase : Base fs 0 (if owner'.isSome then {(fs₀.ftable f).ip} else ∅))
    (hholds : ∀ u, (Function.update s.place t place u).holds = true ↔ owner' = some u)
    (hops : s.fs.outstanding + (if place.inOp = true then 1 else 0) ≤
      fs.outstanding + if (s.place t).inOp = true then 1 else 0)
    (hfile : fs.ftable f = { s.fs.ftable f with off := (fs.ftable f).off })
    (hoff : (fs.ftable f).off + place.pending =
      (s.fs.ftable f).off + (s.place t).pending + more.length)
    (hinum : fs.inum (fs₀.ftable f).ip = s.fs.inum (fs₀.ftable f).ip)
    (hnode : fs.node (fs₀.inum (fs₀.ftable f).ip) =
      (fs₀.node (fs₀.inum (fs₀.ftable f).ip)).overlay (fs₀.ftable f).off (s.bytes ++ more))
    (hplaced : place.written (calls t) = [] ∨
      (s.fs.ftable f).off = (fs₀.ftable f).off + s.bytes.length) :
    Inv fs₀ f calls owner' (s.move f calls t place fs) := by
  set s' := s.move f calls t place fs with hs'
  have hbytes : s'.bytes = s.bytes ++ more := by
    rw [Writers.bytes, hs', Writers.move, List.flatMap_append, ← hwritten, List.flatMap_map]
    simp [Writers.bytes, List.flatMap_id']
  have hbytesOf : ∀ u, s'.bytesOf u = s.bytesOf u ++ if t = u then more else [] := by
    intro u
    rw [Writers.bytesOf, hs', Writers.move, List.filter_append, List.flatMap_append,
      List.filter_map, ← hwritten]
    by_cases hu : t = u <;> simp [Writers.bytesOf, hu, List.flatMap_map, Function.comp_def]
  have hplace : s'.place = Function.update s.place t place := rfl
  have hsum := sum_update (Finset.mem_univ t) s.place place fun _ p ↦ p.pending
  have htotal := sum_update (Finset.mem_univ t) s.place place fun u p ↦ p.progress (calls u)
  have hcard := card_filter_update s.place t place fun p ↦ p.inOp = true
  rw [← hplace] at hholds hsum htotal hcard
  refine ⟨hbase, hholds, ?_, ?_, ?_, hinum.trans h.inum, ?_, fun u ↦ ?_, ?_, fun u ↦ ?_, ?_⟩
  · have hcount := h.ops
    show _ ≤ fs.outstanding
    omega
  · show fs.ftable f = { fs₀.ftable f with off := (fs.ftable f).off }
    rw [hfile, h.file]
  · have hbefore := h.off
    rw [hbytes, List.length_append]
    show (fs.ftable f).off + _ = _
    omega
  · rw [hbytes]
    exact hnode
  · rw [hbytesOf]
    by_cases hu : t = u
    · subst hu
      rw [if_pos rfl, h.own t, hplace, Function.update_self, hown]
    · rw [if_neg hu, List.append_nil, hplace, Function.update_of_ne (Ne.symm hu)]
      exact h.own u
  · show Consecutive _ (s.pieces ++ _)
    cases hpiece : place.written (calls t) with
    | nil =>
      rw [List.map_nil, List.append_nil]
      exact h.consecutive
    | cons piece rest =>
      rw [WritePlace.written_single hpiece]
      exact consecutive_snoc.mpr ⟨h.consecutive, hplaced.resolve_left (by simp [hpiece])⟩
  · by_cases hu : u = t
    · rw [hplace, hu, Function.update_self]
      exact hfits
    · rw [hplace, Function.update_of_ne hu]
      exact h.fits u
  · have hbefore := h.total
    rw [hbytes, List.length_append]
    omega

/-- The offset of the file while no writer is about to move it. -/
theorem off_eq (h : Inv fs₀ f calls owner s) (hpending : ∀ u, (s.place u).pending = 0) :
    (s.fs.ftable f).off = (fs₀.ftable f).off + s.bytes.length := by
  have hoff := h.off
  rwa [Finset.sum_congr rfl fun u _ ↦ hpending u, Finset.sum_const_zero, Nat.add_zero] at hoff

/-- Who holds the lock after a step of `t`. -/
theorem holds_update (h : Inv fs₀ f calls owner s) {owner' : Option Writer}
    (hself : place.holds = true ↔ owner' = some t)
    (hother : ∀ u, u ≠ t → (owner = some u ↔ owner' = some u)) (u : Writer) :
    (Function.update s.place t place u).holds = true ↔ owner' = some u := by
  by_cases hu : u = t
  · rw [hu, Function.update_self]
    exact hself
  · rw [Function.update_of_ne hu]
    exact (h.holds u).trans (hother u hu)

/-- A step that leaves the file, the inode and the lock alone. -/
theorem quiet (h : Inv fs₀ f calls owner s) (hwritten : place.written (calls t) = [])
    (hprogress : place.progress (calls t) = (s.place t).progress (calls t))
    (hfits : place.Fits (calls t)) (hholds : place.holds = (s.place t).holds)
    (hpending : place.pending = (s.place t).pending) {outstanding : ℕ} {logged : List ℕ}
    (hops : s.fs.outstanding + (if place.inOp = true then 1 else 0) ≤
      outstanding + if (s.place t).inOp = true then 1 else 0) :
    Inv fs₀ f calls owner (s.move f calls t place
      { s.fs with outstanding := outstanding, logged := logged }) :=
  h.next [] (by rw [hwritten]; rfl) hprogress (by rw [hprogress, List.append_nil]) hfits
    (h.base.log _ _) (h.holds_update (by rw [hholds]; exact h.holds t) fun _ _ ↦ Iff.rfl) hops rfl
    (by rw [hpending]; rfl) rfl
    (by rw [List.append_nil]; exact h.node) (.inl hwritten)

/-- A step that takes or gives up the lock of the inode. -/
theorem lock (h : Inv fs₀ f calls owner s) {owner' : Option Writer}
    (hwritten : place.written (calls t) = [])
    (hprogress : place.progress (calls t) = (s.place t).progress (calls t))
    (hfits : place.Fits (calls t)) (hinOp : place.inOp = (s.place t).inOp)
    (hpending : place.pending = (s.place t).pending)
    (huses : 0 < s.fs.uses (fs₀.ftable f).ip)
    (hbase : Base fs 0 (if owner'.isSome then {(fs₀.ftable f).ip} else ∅))
    (hkeeps : Keeps s.fs fs 0)
    (hholds : ∀ u, (Function.update s.place t place u).holds = true ↔ owner' = some u) :
    Inv fs₀ f calls owner' (s.move f calls t place fs) := by
  refine h.next [] (by rw [hwritten]; rfl) hprogress
    (by rw [hprogress, List.append_nil]) hfits hbase hholds ?_ ?_ ?_
    (hkeeps.inum _ (Nat.add_pos_left huses _)) ?_ (.inl hwritten)
  · rw [hkeeps.outstanding, hinOp]
  · rw [hkeeps.ftable]
  · rw [hkeeps.ftable, hpending]
    rfl
  · rw [hkeeps.node, List.append_nil]
    exact h.node

/-- The inode of the file is in use. -/
theorem uses (h : Inv fs₀ f calls owner s) (htype : (fs₀.ftable f).type = .inode) :
    0 < s.fs.uses (fs₀.ftable f).ip := by
  have hip : (s.fs.ftable f).ip = (fs₀.ftable f).ip := by rw [h.file]
  rw [← hip]
  apply FsState.uses_pos
  rw [h.file]
  show (fs₀.ftable f).type.hasInode = true
  rw [htype]
  rfl

/-- Only the writer that holds the lock has bytes that are not yet in the offset. -/
theorem pending_eq (h : Inv fs₀ f calls owner s) (howner : owner = some t)
    (hpending : (s.place t).pending = 0) (u : Writer) : (s.place u).pending = 0 := by
  by_cases hu : u = t
  · rw [hu, hpending]
  · have hnot : (s.place u).holds = false := by
      rw [Bool.eq_false_iff, Ne, h.holds u, howner]
      exact fun heq ↦ hu (Option.some.inj heq).symm
    revert hnot
    cases s.place u <;> simp [WritePlace.holds, WritePlace.pending]

/-- A writer in its transaction keeps the log open. -/
theorem outstanding_pos (h : Inv fs₀ f calls owner s) (hinOp : (s.place t).inOp = true) :
    0 < s.fs.outstanding :=
  lt_of_lt_of_le (Finset.card_pos.mpr ⟨t, by simp [hinOp]⟩) h.ops

/-- The bytes that are written and those that are still to be written by `t` fit. -/
theorem room (h : Inv fs₀ f calls owner s) (more : ℕ)
    (hmore : (s.place t).progress (calls t) + more ≤ (calls t).n) :
    s.bytes.length + more ≤ ∑ u, (calls u).n := by
  have hle : ∀ u, (s.place u).progress (calls u) ≤ (calls u).n := by
    intro u
    have hfits := h.fits u
    revert hfits
    cases s.place u <;> simp only [WritePlace.Fits, WritePlace.progress, WriteCall.chunk] <;> omega
  rw [h.total, ← Finset.sum_erase_add _ _ (Finset.mem_univ t),
    ← Finset.sum_erase_add _ (fun u ↦ (calls u).n) (Finset.mem_univ t), Nat.add_assoc]
  exact Nat.add_le_add (Finset.sum_le_sum fun u _ ↦ hle u) hmore

/-- The piece that `t` writes while it holds the lock. -/
theorem write (h : Inv fs₀ f calls owner s) (hshares : Shares fs₀ f calls) {i : ℕ}
    (hplace : s.place t = .locked i) :
    wp ((s.place t).code f (calls t)) (fun place fs ↦
      Inv fs₀ f calls owner (s.move f calls t place fs)) (· = .panic .ballocOut) s.fs := by
  have hfits := h.fits t
  rw [hplace] at hfits
  have hi : i < (calls t).n := hfits
  have howner : owner = some t := (h.holds t).mp (by rw [hplace]; rfl)
  have hip : (s.fs.ftable f).ip = (fs₀.ftable f).ip := by rw [h.file]
  have hoff := h.off_eq (h.pending_eq howner (by rw [hplace]; rfl))
  have hop := h.outstanding_pos (t := t) (by rw [hplace]; rfl)
  have hbase := h.base
  rw [howner, Option.isSome_some, if_pos rfl] at hbase
  obtain ⟨hpos, hle, hlt⟩ := (calls t).chunk_bounds hi
  have hroom := h.room (t := t) _ (by rw [hplace]; exact hle)
  have hmem : ∀ k, k < (calls t).chunk i → ((calls t).mem ((calls t).addr + i + k)).isSome := by
    intro k hk
    rw [Nat.add_assoc]
    exact hshares.mapped t _ (by omega)
  rw [hplace, WritePlace.code, wp_bind, wp_get, wp_bind, hip, hoff]
  refine wp_post (writei_locked hbase hop (by simp) (calls t).mem _ _ hlt (fun _ _ ↦ rfl) ?_) ?_
  · intro hdir
    have hnot := h.base.files.notDir f (by rw [h.file, hshares.type])
      (by rw [h.file, hshares.writable])
    rw [hip] at hnot
    exact absurd hdir hnot
  · rw [h.inum, h.node]
    rintro r fs (⟨hfail, -, -⟩ | ⟨done, byte, rfl, -, hout, hall, hbase', hsets⟩)
    · -- The offset is in the file, and the file can hold what is written.
      exfalso
      have hsize : (fs₀.ftable f).off + s.bytes.length ≤
          ((fs₀.node (fs₀.inum (fs₀.ftable f).ip)).overlay (fs₀.ftable f).off s.bytes).size :=
        le_max_right _ _
      have := hshares.room
      omega
    · obtain ⟨rfl, hbytes⟩ := hall hmem
      set more := copyin (calls t).mem ((calls t).addr + i) ((calls t).chunk i) with hmore
      have hlength : more.length = (calls t).chunk i := (copyin_mapped hmem).1
      have hlocked : ({(fs₀.ftable f).ip} : Finset _) =
          if owner.isSome then {(fs₀.ftable f).ip} else ∅ := by
        rw [howner]
        rfl
      refine h.next more ?_ ?_ ?_ ⟨hi, rfl⟩ (hlocked ▸ hbase')
        (h.holds_update ?_ fun _ _ ↦ Iff.rfl) ?_ ?_ ?_
        (hsets.inum _ (Nat.add_pos_left (h.uses hshares.type) _)) ?_ (.inr hoff)
      · rw [hmore]
        simp [WritePlace.written]
      · rw [hplace, hlength]
        rfl
      · rw [hplace, hmore]
        exact copyin_append (fun k hk ↦ hshares.mapped t k (by omega)) _
      · rw [howner]
        simp [WritePlace.holds]
      · rw [hsets.outstanding, hplace]
        rfl
      · rw [hsets.ftable]
      · rw [hsets.ftable, hplace, hlength]
        rfl
      · rw [hsets.node, Function.update_self, ← hlength]
        refine Node.overlay_append (fun x hx ↦ hout x (by rwa [← hlength])) fun k hk ↦ ?_
        rw [hlength] at hk
        have hbyte := hbytes k hk
        rw [← (copyin_mapped hmem).2 k hk] at hbyte
        exact Option.some.inj hbyte

/-- Every step of a writer keeps the invariant; a writer waits for the lock, or the disk is full. -/
theorem code_spec (h : Inv fs₀ f calls owner s) (hshares : Shares fs₀ f calls) :
    wp ((s.place t).code f (calls t)) (fun place fs ↦
      ∃ owner', Inv fs₀ f calls owner' (s.move f calls t place fs))
      (fun e ↦ e = .disabled ∨ e = .panic .ballocOut) s.fs := by
  have hfits := h.fits t
  have hip : (s.fs.ftable f).ip = (fs₀.ftable f).ip := by rw [h.file]
  have huses := h.uses hshares.type
  cases hplace : s.place t with
  | start =>
    have htype : (s.fs.ftable f).type = .inode := by rw [h.file, hshares.type]
    have hwritable : (s.fs.ftable f).writable = true := by rw [h.file, hshares.writable]
    rw [WritePlace.code, wp_bind, wp_get]
    dsimp only
    rw [hwritable, if_neg (by simp), htype, if_pos rfl]
    refine ⟨owner, h.quiet rfl ?_ (Nat.zero_le _) ?_ ?_ ?_⟩ <;> rw [hplace] <;> rfl
  | loop i =>
    rw [hplace] at hfits
    rw [WritePlace.code]
    split
    · rename_i hi
      rw [wp_bind, wp_beginOp]
      have hfits' : (WritePlace.begun i).Fits (calls t) := hi
      refine ⟨owner, h.quiet rfl ?_ hfits' ?_ ?_ ?_⟩ <;> rw [hplace] <;> rfl
    · rename_i hi
      have heq : i = (calls t).n := le_antisymm hfits (Nat.le_of_not_lt hi)
      refine ⟨owner, h.quiet rfl ?_ ?_ ?_ ?_ ?_⟩
      · rw [hplace]
        exact heq.symm
      · rw [if_pos heq]
        rfl
      all_goals rw [hplace]; rfl
  | begun i =>
    rw [hplace] at hfits
    rw [WritePlace.code, wp_bind, wp_get, wp_bind, hip]
    refine wp_post (ilock_spec h.base (h.base.refs_pos (by omega)) (fun _ ↦ .inl rfl)
      (.inr (allocated_iff_type.mpr ?_))) ?_
    · rw [← node_type]
      exact h.base.used_type huses
    · rintro _ fs ⟨hnot, hbase, hkeeps⟩
      have hnone : owner = none := by
        cases owner with
        | none => rfl
        | some u => simp at hnot
      subst hnone
      have hfits' : (WritePlace.locked i).Fits (calls t) := hfits
      refine ⟨some t, h.lock rfl ?_ hfits' ?_ ?_ huses hbase hkeeps (h.holds_update ?_ ?_)⟩
      · rw [hplace]; rfl
      · rw [hplace]; rfl
      · rw [hplace]; rfl
      · simp [WritePlace.holds]
      · exact fun u hu ↦ by simp [Ne.symm hu]
  | locked i =>
    rw [← hplace]
    refine wp_mono (h.write hshares hplace) (fun _ _ hinv ↦ ⟨owner, hinv⟩) fun _ ↦ .inr
  | wrote i r =>
    rw [hplace] at hfits
    have hpos : 0 < r := by
      rw [hfits.2]
      exact_mod_cast ((calls t).chunk_bounds hfits.1).1
    have hlt : (s.fs.ftable f).off + r.toNat < 2 ^ 32 := by
      have hmoved := h.off
      have hroom := h.room (t := t) 0 (by
        rw [hplace]
        have := hfits.2
        have := ((calls t).chunk_bounds hfits.1).2.1
        show i + r.toNat + 0 ≤ _
        omega)
      have hle : (s.place t).pending ≤ ∑ u, (s.place u).pending :=
        Finset.single_le_sum (f := fun u ↦ (s.place u).pending) (fun _ _ ↦ Nat.zero_le _)
          (Finset.mem_univ t)
      have hself : (s.place t).pending = r.toNat := by rw [hplace]; rfl
      have hsmall : MAXFILE * BSIZE < 2 ^ 32 := by decide
      have := hshares.room
      omega
    rw [WritePlace.code, wp_bind, wp_get]
    dsimp only
    rw [if_pos hpos, wp_bind, wp_setFile]
    have hfits' : (WritePlace.moved i r).Fits (calls t) := hfits
    refine ⟨owner, h.next [] rfl ?_ ?_ hfits' (h.base.putOff f _).1
      (h.holds_update ?_ fun _ _ ↦ Iff.rfl) ?_ ?_ ?_ rfl ?_ (.inl rfl)⟩
    · rw [hplace]; rfl
    · rw [hplace]
      exact (List.append_nil _).symm
    · rw [← h.holds t, hplace]
      rfl
    · rw [hplace]; rfl
    · simp [FsState.putFile]
    · simp only [FsState.putFile, Function.update_self, hplace]
      rw [Nat.mod_eq_of_lt hlt]
      rfl
    · rw [List.append_nil]
      exact h.node
  | moved i r =>
    rw [hplace] at hfits
    have howner : owner = some t := (h.holds t).mp (by rw [hplace]; rfl)
    have hbase := h.base
    rw [howner, Option.isSome_some, if_pos rfl] at hbase
    rw [WritePlace.code, wp_bind, wp_get, wp_bind, hip]
    refine wp_post (iunlock_spec hbase (by simp)) ?_
    rintro _ fs ⟨hbase', hkeeps⟩
    rw [Finset.erase_singleton] at hbase'
    have hfits' : (WritePlace.unlocked i r).Fits (calls t) := hfits
    refine ⟨none, h.lock rfl ?_ hfits' ?_ ?_ huses hbase' hkeeps (h.holds_update ?_ ?_)⟩
    · rw [hplace]; rfl
    · rw [hplace]; rfl
    · rw [hplace]; rfl
    · simp [WritePlace.holds]
    · exact fun u hu ↦ by simp [howner, Ne.symm hu]
  | unlocked i r =>
    have hop := h.outstanding_pos (t := t) (by rw [hplace]; rfl)
    rw [hplace] at hfits
    rw [WritePlace.code, wp_bind, wp_endOp]
    have hfits' : (WritePlace.ended i r).Fits (calls t) := hfits
    refine ⟨owner, h.quiet rfl ?_ hfits' ?_ ?_ ?_⟩
    · rw [hplace]; rfl
    · rw [hplace]; rfl
    · rw [hplace]; rfl
    · rw [hplace]
      show s.fs.outstanding + 0 ≤ s.fs.outstanding - 1 + 1
      omega
  | ended i r =>
    rw [hplace] at hfits
    rw [WritePlace.code, if_neg (by simpa using hfits.2)]
    refine ⟨owner, h.quiet rfl ?_ ?_ ?_ ?_ ?_⟩
    · rw [hplace]; rfl
    · rw [hfits.2]
      exact ((calls t).chunk_bounds hfits.1).2.1
    all_goals rw [hplace]; rfl
  | returned ret => exact .inl rfl

theorem step (h : Inv fs₀ f calls owner s) (hshares : Shares fs₀ f calls) {s' : Writers Writer}
    (hstep : Writers.step f calls s t = .ok s') : ∃ owner', Inv fs₀ f calls owner' s' := by
  rw [Writers.step] at hstep
  cases hcode : (s.place t).code f (calls t) s.fs with
  | error e =>
    rw [hcode] at hstep
    cases hstep
  | ok result =>
    rw [hcode] at hstep
    obtain rfl := Except.ok.inj hstep
    exact wp_of_ok (h.code_spec hshares) hcode

end Writers.Inv

/-- In every state of every run of the writers. -/
theorem Writers.inv_of_run {fs₀ : FsState} {f : Fin NFILE} {calls : Writer → WriteCall}
    (hshares : Shares fs₀ f calls) {schedule : List Writer} {s : Writers Writer}
    (hrun : run (step f calls) (start fs₀) schedule = .ok s) : ∃ owner, Inv fs₀ f calls owner s :=
  run_induction (step f calls) (P := fun _ s ↦ ∃ owner, Inv fs₀ f calls owner s)
    ⟨none, .start hshares⟩ (fun _ _ _ _ _ ⟨_, h⟩ hstep ↦ h.step hshares hstep) hrun

/-- **Writers that share an open file lose nothing.**  Whatever the schedule, the pieces follow each
other in the file from the offset at the start.  When all calls have returned, each has returned the
number of its bytes, the offset is behind all pieces, and the pieces of each call are its bytes, in
their order. -/
theorem filewrite_shared {fs₀ : FsState} {f : Fin NFILE} {calls : Writer → WriteCall}
    (hshares : Writers.Shares fs₀ f calls) {schedule : List Writer} {s : Writers Writer}
    (hrun : run (Writers.step f calls) (Writers.start fs₀) schedule = .ok s) :
    Consecutive (fs₀.ftable f).off s.pieces ∧
    s.fs.node (fs₀.inum (fs₀.ftable f).ip) =
      (fs₀.node (fs₀.inum (fs₀.ftable f).ip)).overlay (fs₀.ftable f).off s.bytes ∧
    ((∀ t, ∃ ret, s.place t = .returned ret) →
      (∀ t, s.place t = .returned (calls t).n) ∧
      (s.fs.ftable f).off = (fs₀.ftable f).off + ∑ t, (calls t).n ∧
      s.bytes.length = ∑ t, (calls t).n ∧
      ∀ t, s.bytesOf t = copyin (calls t).mem (calls t).addr (calls t).n) := by
  obtain ⟨owner, h⟩ := Writers.inv_of_run hshares hrun
  refine ⟨h.consecutive, h.node, fun hall ↦ ?_⟩
  have hreturned : ∀ t, s.place t = .returned (calls t).n := by
    intro t
    obtain ⟨ret, hret⟩ := hall t
    have hfits := h.fits t
    rw [hret] at hfits ⊢
    rw [show ret = (calls t).n from hfits]
  have hlength : s.bytes.length = ∑ t, (calls t).n := by
    rw [h.total]
    exact Finset.sum_congr rfl fun t _ ↦ by rw [hreturned t]; rfl
  refine ⟨hreturned, ?_, hlength, fun t ↦ ?_⟩
  · rw [h.off_eq fun t ↦ by rw [hreturned t]; rfl, hlength]
  · rw [h.own t, hreturned t]
    rfl

end Writers

/-- One process writes two bytes, another one three. -/
def twoCalls : Bool → WriteCall
  | false => ⟨kernelSource [4, 5], 0, 2⟩
  | true => ⟨kernelSource [1, 2, 3], 0, 3⟩

/-- Both begin, and the process with two bytes is the first to lock the inode. -/
def twoSchedule : List Bool :=
  [true, false, true, false, false, false, false, false, true, false, true, true, true, false, true,
    true, true, false]

/-- A file is made, and two processes that share it write to it. -/
theorem filewrite_shared_two : ∃ fs₀ : FsState, ∃ s : Writers Bool,
    run step small [.open initproc [97] (O_CREATE + O_RDWR)] = .ok fs₀ ∧
    run (Writers.step ⟨0, by decide⟩ twoCalls) (Writers.start fs₀) twoSchedule = .ok s ∧
    s.bytes = [4, 5, 1, 2, 3] ∧ s.place true = .returned 3 ∧ s.place false = .returned 2 ∧
    (s.fs.ftable ⟨0, by decide⟩).off = 5 ∧ s.bytesOf true = [1, 2, 3] ∧
    s.bytesOf false = [4, 5] := by
  have hyields : yields (run step small [.open initproc [97] (O_CREATE + O_RDWR)]) (fun fs₀ ↦
      (fs₀.ftable ⟨0, by decide⟩).type = .inode ∧ (fs₀.ftable ⟨0, by decide⟩).writable = true ∧
      (fs₀.ftable ⟨0, by decide⟩).off = 0 ∧
      yields (run (Writers.step ⟨0, by decide⟩ twoCalls) (Writers.start fs₀) twoSchedule) (fun s ↦
        s.bytes = [4, 5, 1, 2, 3] ∧ (match s.place true, s.place false with
          | .returned _, .returned _ => true
          | _, _ => false) = true) = true) = true := by decide +kernel
  obtain ⟨fs₀, hopen, htype, hwritable, hoff, hwrites⟩ := exists_of_yields hyields
  obtain ⟨s, hrun, hbytes, hreturned⟩ := exists_of_yields hwrites
  have hshares : Writers.Shares fs₀ ⟨0, by decide⟩ twoCalls :=
    { base := wellFormed_small.run hopen
      type := htype
      writable := hwritable
      off := by rw [hoff]; exact Nat.zero_le _
      mapped := by decide
      room := by rw [hoff]; decide }
  split at hreturned
  · rename_i ret ret' htrue hfalse
    obtain ⟨-, -, hall⟩ := filewrite_shared hshares hrun
    obtain ⟨hplace, hend, -, hown⟩ := hall fun t ↦ by
      cases t with
      | false => exact ⟨ret', hfalse⟩
      | true => exact ⟨ret, htrue⟩
    rw [hoff] at hend
    exact ⟨fs₀, s, hopen, hrun, hbytes, hplace true, hplace false, hend, hown true, hown false⟩
  · cases hreturned

end Xv6.Fs
