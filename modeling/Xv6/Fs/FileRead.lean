import Xv6.Console.Calls
import Xv6.Fs.Format
import Xv6.Pipes.Calls

/-!
# Where a Read Stores

`fileread` reads from a pipe, from the console or from an inode.  The count is an `int`.  `piperead`
and `consoleread` compare it as one, and `readi` takes it as a `uint`: a negative count is a large
one there, which is cut off at the end of the file.

A call may sleep in `piperead` and `consoleread`, and other processes run in between, so each step of
the call may find anything in the pipe and in the console.
-/

namespace Xv6.Fs

open Lib

/-- A call of `fileread`: the file, the memory of the process, the address and the count. -/
structure ReadCall where
  f : Fin NFILE
  mem : Dest
  addr : ℕ
  n : ℤ

/-- What the call finds when it takes a step. -/
structure Scene where
  fs : FsState
  pipe : Pipes.Data
  cons : Console.Cons
  killed : Bool

/-- Where the call is. -/
inductive ReadPlace where
  | start
  | pipe (loc : Pipes.Loc)
  | console (loc : Console.Loc)
  | returned (r : ℤ)

/-- In `piperead`, or behind it. -/
def ReadPlace.ofPipe : Pipes.Loc → ReadPlace
  | .user r => .returned r
  | loc => .pipe loc

/-- In `consoleread`, or behind it. -/
def ReadPlace.ofConsole : Console.Loc → ReadPlace
  | .user r => .returned r
  | loc => .console loc

/-- The call, and the bytes it has stored in user memory with their addresses. -/
structure Reading where
  place : ReadPlace
  stored : List (ℕ × UInt8)

/-- The call has not begun. -/
def Reading.start : Reading where
  place := .start
  stored := []

/-- Bytes that are stored one after the other. -/
def storesAt (addr : ℕ) (bytes : List UInt8) : List (ℕ × UInt8) :=
  bytes.zipIdx.map fun (byte, k) ↦ (addr + k, byte)

theorem mem_storesAt {bytes : List UInt8} {addr a : ℕ} {byte : UInt8} :
    (a, byte) ∈ storesAt addr bytes ↔ ∃ k, bytes[k]? = some byte ∧ a = addr + k := by
  rw [storesAt, List.mem_map]
  constructor
  · rintro ⟨⟨byte', k⟩, hmem, heq⟩
    obtain ⟨rfl, rfl⟩ := Prod.mk.inj heq
    exact ⟨k, List.mem_zipIdx_iff_getElem?.mp hmem, rfl⟩
  · rintro ⟨k, hk, rfl⟩
    exact ⟨(byte, k), List.mem_zipIdx_iff_getElem?.mpr hk, rfl⟩

/-- Where the code goes on after what it does now, unless that is a call that `fileread` does not
make. -/
def goesOn {Loc Data Lk Ch : Type} : Process.Call Loc Data Lk Ch → Option Loc
  | .acquire _ k | .release _ k | .store _ k | .sleep _ _ k | .wakeup _ k => some k
  | _ => none

namespace ReadCall

/-- `piperead` copies one byte at a time, to `addr + i`. -/
def pipeDst (call : ReadCall) : Pipes.Loc → ℕ
  | .readLoop _ i => call.addr + i
  | _ => call.addr

/-- The byte that `piperead` stores in this step. -/
def pipeStores (call : ReadCall) (d : Pipes.Data) (loc : Pipes.Loc) : List (ℕ × UInt8) :=
  haveI := Pipes.neZero_PIPESIZE
  match loc with
  | .readLoop n i =>
    if i < n ∧ d.pi.empty = false ∧ call.mem (call.pipeDst loc) = true then
      [(call.pipeDst loc, d.pi.data (Fin.ofNat Pipes.PIPESIZE d.pi.nread.toNat))]
    else []
  | _ => []

/-- `consoleread` copies one byte at a time, to `dst`, which is moved as `n` is counted down. -/
def consoleDst (call : ReadCall) : Console.Loc → ℕ
  | .readLoop target n => call.addr + (target - n).toNat
  | _ => call.addr

/-- The byte that `consoleread` stores in this step. -/
def consoleStores (call : ReadCall) (d : Console.Cons) (loc : Console.Loc) : List (ℕ × UInt8) :=
  match loc with
  | .readLoop _ n =>
    if 0 < n ∧ d.r ≠ d.w ∧ d.get d.r ≠ Console.ctrl 'D' ∧ call.mem (call.consoleDst loc) = true then
      [(call.consoleDst loc, d.get d.r)]
    else []
  | _ => []

/-- The branch of `fileread` for an inode: the result, and the bytes that are copied to `addr`. -/
def filereadInode (call : ReadCall) (file : File) : FsM (ℤ × List UInt8) := do
  ilock file.ip
  let (r, bytes) ← readi file.ip call.mem call.addr file.off (call.n % 2 ^ 32).toNat
  if 0 < r then setFile call.f { file with off := (file.off + r.toNat) % 2 ^ 32 } else pure ()
  iunlock file.ip
  return (r, bytes)

/-- A step of the call. -/
def step (call : ReadCall) (s : Reading) (scene : Scene) : Except Stop Reading :=
  match s.place with
  | .start =>
    let file := scene.fs.ftable call.f
    if file.readable = false then .ok { s with place := .returned (-1) }
    else
      match file.type with
      | .pipe => .ok { s with place := .pipe (.readWait call.n) }
      | .device =>
        if file.major = CONSOLE then .ok { s with place := .console (.readLoop call.n call.n) }
        else .ok { s with place := .returned (-1) }
      | .inode =>
        match call.filereadInode file scene.fs with
        | .ok ((r, bytes), _) =>
          .ok { place := .returned r, stored := s.stored ++ storesAt call.addr bytes }
        | .error stop => .error stop
      | .none => .error (.panic .filereadType)
  | .pipe loc =>
    let input : Pipes.Outside :=
      { request := .read call.n, copyin := none, copyout := call.mem (call.pipeDst loc) }
    match goesOn (Pipes.next scene.pipe scene.killed loc input) with
    | some loc' =>
      .ok { place := .ofPipe loc', stored := s.stored ++ call.pipeStores scene.pipe loc }
    | none => .error .disabled
  | .console loc =>
    let input : Console.Outside :=
      { request := .read call.n, copyout := call.mem (call.consoleDst loc) }
    match goesOn (Console.next scene.cons scene.killed loc input) with
    | some loc' =>
      .ok { place := .ofConsole loc', stored := s.stored ++ call.consoleStores scene.cons loc }
    | none => .error .disabled
  | .returned _ => .error .disabled

end ReadCall

/-- The call has stored bytes only in the range that it was given, and the result is at most the
count. -/
structure Reading.InBounds (call : ReadCall) (s : Reading) : Prop where
  stored : ∀ a byte, (a, byte) ∈ s.stored → call.addr ≤ a ∧ (a : ℤ) < call.addr + max call.n 0
  returned : ∀ r, s.place = .returned r → r ≤ max call.n 0

namespace ReadCall

variable {call : ReadCall}

/-! ## Pipes and the console -/

/-- What holds in `piperead`: it has copied at most as many bytes as it was asked for. -/
def PipeOk (call : ReadCall) : Pipes.Loc → Prop
  | .readWait n => n = call.n
  | .readLoop n i => n = call.n ∧ (i : ℤ) ≤ max call.n 0
  | .readBreak i | .readEnd i => (i : ℤ) ≤ max call.n 0
  | .user r => r ≤ max call.n 0
  | _ => False

/-- What holds in `consoleread`: `n` counts down from `target`, and not below 0. -/
def ConsoleOk (call : ReadCall) : Console.Loc → Prop
  | .readLoop target n | .readEnd target n => target = call.n ∧ n ≤ call.n ∧ min call.n 0 ≤ n
  | .user r => r ≤ max call.n 0
  | _ => False

/-- A step of `piperead`. -/
theorem PipeOk.next {loc loc' : Pipes.Loc} (h : call.PipeOk loc) (d : Pipes.Data) (killed : Bool)
    {input : Pipes.Outside} (hloc : ∀ r, loc ≠ .user r)
    (hnext : goesOn (Pipes.next d killed loc input) = some loc') : call.PipeOk loc' := by
  cases loc with
  | user r => exact absurd rfl (hloc r)
  | readWait n =>
    obtain rfl : n = call.n := h
    rw [Pipes.next] at hnext
    split at hnext
    · split at hnext
      · cases hnext
        show (-1 : ℤ) ≤ max call.n 0
        omega
      · cases hnext
        exact rfl
    · cases hnext
      refine ⟨rfl, ?_⟩
      exact le_max_right _ _
  | readLoop n i =>
    obtain ⟨rfl, hi⟩ := h
    rw [Pipes.next] at hnext
    split at hnext
    · rename_i hmore
      have hlt : (i : ℤ) < call.n := by
        simp only [Bool.and_eq_true, decide_eq_true_eq] at hmore
        exact hmore.1
      cases hnext
      split
      · refine ⟨rfl, ?_⟩
        push_cast
        omega
      · exact hi
    · cases hnext
      exact hi
  | readBreak i =>
    cases hnext
    exact h
  | readEnd i =>
    cases hnext
    exact h
  | _ => exact h.elim

/-- The byte that `piperead` stores is in the range. -/
theorem PipeOk.stores {loc : Pipes.Loc} (h : call.PipeOk loc) (d : Pipes.Data) {a : ℕ} {byte : UInt8}
    (hmem : (a, byte) ∈ call.pipeStores d loc) :
    call.addr ≤ a ∧ (a : ℤ) < call.addr + max call.n 0 := by
  cases loc with
  | readLoop n i =>
    obtain ⟨rfl, -⟩ := h
    rw [pipeStores] at hmem
    split at hmem
    · rename_i hmore
      obtain ⟨rfl, -⟩ := Prod.mk.inj (List.mem_singleton.mp hmem)
      rw [pipeDst]
      have := hmore.1
      push_cast
      omega
    · cases hmem
  | _ => cases hmem

/-- An iteration of `consoleread` counts one byte, or none. -/
theorem read_count (d : Console.Cons) (target n : ℤ) (copyout : Bool) :
    (d.read target n copyout).2.1 = n ∨ (d.read target n copyout).2.1 = n - 1 := by
  rw [Console.Cons.read]
  split
  · exact .inl rfl
  · split
    · exact .inr rfl
    · exact .inl rfl

/-- A step of `consoleread`. -/
theorem ConsoleOk.next {loc loc' : Console.Loc} (h : call.ConsoleOk loc) (d : Console.Cons)
    (killed : Bool) {input : Console.Outside} (hloc : ∀ r, loc ≠ .user r)
    (hnext : goesOn (Console.next d killed loc input) = some loc') : call.ConsoleOk loc' := by
  cases loc with
  | user r => exact absurd rfl (hloc r)
  | readLoop target n =>
    obtain ⟨rfl, hle, hmin⟩ := h
    rw [Console.next] at hnext
    split at hnext
    · rename_i hpos
      split at hnext
      · split at hnext
        · cases hnext
          show (-1 : ℤ) ≤ max call.n 0
          omega
        · cases hnext
          exact ⟨rfl, hle, hmin⟩
      · have hcount := read_count d call.n n input.copyout
        generalize d.read call.n n input.copyout = result at hnext hcount
        obtain ⟨d', m, done⟩ := result
        have hok : m ≤ call.n ∧ min call.n 0 ≤ m := by
          dsimp only at hcount
          omega
        cases done with
        | true =>
          cases hnext
          exact ⟨rfl, hok⟩
        | false =>
          cases hnext
          exact ⟨rfl, hok⟩
    · cases hnext
      exact ⟨rfl, hle, hmin⟩
  | readEnd target n =>
    obtain ⟨rfl, hle, hmin⟩ := h
    cases hnext
    show call.n - n ≤ max call.n 0
    omega
  | _ => exact h.elim

/-- The byte that `consoleread` stores is in the range. -/
theorem ConsoleOk.stores {loc : Console.Loc} (h : call.ConsoleOk loc) (d : Console.Cons) {a : ℕ}
    {byte : UInt8} (hmem : (a, byte) ∈ call.consoleStores d loc) :
    call.addr ≤ a ∧ (a : ℤ) < call.addr + max call.n 0 := by
  cases loc with
  | readLoop target n =>
    obtain ⟨rfl, hle, -⟩ := h
    rw [consoleStores] at hmem
    split at hmem
    · rename_i hmore
      obtain ⟨rfl, -⟩ := Prod.mk.inj (List.mem_singleton.mp hmem)
      rw [consoleDst]
      have := hmore.1
      push_cast
      omega
    · cases hmem
  | _ => cases hmem

/-- What holds of the place where a call is, once it has begun. -/
def PlaceOk (call : ReadCall) : ReadPlace → Prop
  | .start => False
  | .pipe loc => call.PipeOk loc ∧ ∀ r, loc ≠ .user r
  | .console loc => call.ConsoleOk loc ∧ ∀ r, loc ≠ .user r
  | .returned r => r ≤ max call.n 0

theorem PipeOk.place {loc : Pipes.Loc} (h : call.PipeOk loc) : call.PlaceOk (.ofPipe loc) := by
  cases loc with
  | user r => exact h
  | _ => exact ⟨h, fun _ ↦ nofun⟩

theorem ConsoleOk.place {loc : Console.Loc} (h : call.ConsoleOk loc) :
    call.PlaceOk (.ofConsole loc) := by
  cases loc with
  | user r => exact h
  | _ => exact ⟨h, fun _ ↦ nofun⟩

/-- A call that has begun keeps to its range, whatever it finds. -/
theorem step_inBounds {s s' : Reading} (h : s.InBounds call) (hplace : call.PlaceOk s.place)
    {scene : Scene} (hstep : call.step s scene = .ok s') :
    s'.InBounds call ∧ call.PlaceOk s'.place := by
  have hok : ∀ {place : ReadPlace} {more : List (ℕ × UInt8)}, call.PlaceOk place →
      (∀ a byte, (a, byte) ∈ more → call.addr ≤ a ∧ (a : ℤ) < call.addr + max call.n 0) →
      Reading.InBounds call { place := place, stored := s.stored ++ more } := by
    intro place more hplace hmore
    refine ⟨fun a byte hmem ↦ ?_, fun r hr ↦ ?_⟩
    · rcases List.mem_append.mp hmem with hold | hnew
      · exact h.stored a byte hold
      · exact hmore a byte hnew
    · obtain rfl : place = .returned r := hr
      exact hplace
  rw [step] at hstep
  cases hs : s.place with
  | start =>
    rw [hs] at hplace
    exact hplace.elim
  | pipe loc =>
    rw [hs] at hplace hstep
    dsimp only at hstep
    split at hstep
    · rename_i loc' hnext
      obtain rfl := Except.ok.inj hstep
      have hplace' := (hplace.1.next _ _ hplace.2 hnext).place
      exact ⟨hok hplace' fun a byte hmem ↦ hplace.1.stores _ hmem, hplace'⟩
    · cases hstep
  | console loc =>
    rw [hs] at hplace hstep
    dsimp only at hstep
    split at hstep
    · rename_i loc' hnext
      obtain rfl := Except.ok.inj hstep
      have hplace' := (hplace.1.next _ _ hplace.2 hnext).place
      exact ⟨hok hplace' fun a byte hmem ↦ hplace.1.stores _ hmem, hplace'⟩
    · cases hstep
  | returned r =>
    rw [hs] at hstep
    cases hstep

/-- The same for all steps that follow. -/
theorem run_inBounds {s s' : Reading} (h : s.InBounds call) (hplace : call.PlaceOk s.place)
    {scenes : List Scene} (hrun : run call.step s scenes = .ok s') : s'.InBounds call :=
  (run_induction call.step (P := fun _ s ↦ s.InBounds call ∧ call.PlaceOk s.place) ⟨h, hplace⟩
    (fun _ _ _ _ _ hs hstep ↦ step_inBounds hs.1 hs.2 hstep) hrun).1

end ReadCall

/-! ## Inodes -/

/-- What `readi` returns for a file, and the bytes it stores from `dst` on. -/
def Node.read (node : Node) (mem : Dest) (dst off n : ℕ) : ℤ × List UInt8 :=
  if node.size < off ∨ 2 ^ 32 ≤ off + n then (0, [])
  else
    let bytes := copyout mem dst (node.bytes off (min n (node.size - off)))
    (if bytes.length < min n (node.size - off) then -1 else (min n (node.size - off) : ℕ), bytes)

theorem length_copyout_le (mem : Dest) (dst : ℕ) (bytes : List UInt8) :
    (copyout mem dst bytes).length ≤ bytes.length := by
  induction bytes generalizing dst with
  | nil => exact le_refl _
  | cons byte bytes ih =>
    rw [copyout]
    split
    · exact Nat.succ_le_succ (ih _)
    · exact Nat.zero_le _

namespace Node

variable (node : Node) (mem : Dest) (dst off n : ℕ)

theorem length_bytes (count : ℕ) : (node.bytes off count).length = count := by
  rw [bytes, List.length_map, List.length_range]

/-- No more bytes are stored than the count, and no more are reported than are stored. -/
theorem read_le : (node.read mem dst off n).2.length ≤ n ∧
    (node.read mem dst off n).1 ≤ (node.read mem dst off n).2.length := by
  rw [read]
  split
  · exact ⟨Nat.zero_le _, le_refl _⟩
  · have hle := length_copyout_le mem dst (node.bytes off (min n (node.size - off)))
    rw [node.length_bytes] at hle
    dsimp only
    refine ⟨by omega, ?_⟩
    split
    · omega
    · omega

/-- Nothing is stored. -/
theorem read_eq_nil_iff : (node.read mem dst off n).2 = [] ↔
    n = 0 ∨ node.size ≤ off ∨ 2 ^ 32 ≤ off + n ∨ mem dst = false := by
  rw [read]
  split
  · exact iff_of_true rfl (by omega)
  · rename_i hrange
    dsimp only
    cases hbytes : node.bytes off (min n (node.size - off)) with
    | nil =>
      have hlength := node.length_bytes off (min n (node.size - off))
      rw [hbytes, List.length_nil] at hlength
      exact iff_of_true rfl (by omega)
    | cons byte bytes =>
      have hlength := node.length_bytes off (min n (node.size - off))
      rw [hbytes, List.length_cons] at hlength
      rw [copyout]
      split
      · rename_i hmem
        refine iff_of_false (by simp) ?_
        rintro (hzero | hend | hwrap | hfalse)
        · omega
        · omega
        · omega
        · exact absurd hmem (Bool.eq_false_iff.mp hfalse)
      · rename_i hmem
        exact iff_of_true rfl (.inr (.inr (.inr (Bool.eq_false_iff.mpr hmem))))

end Node

namespace ReadCall

variable {call : ReadCall} {s : FsState} {held : Multiset (Fin NINODE)} {locks : Finset (Fin NINODE)}

theorem filereadInode_spec (h : Base s held locks) (htype : (s.ftable call.f).type = .inode) :
    wp (call.filereadInode (s.ftable call.f)) (fun r _ ↦ r = (s.target call.f).read call.mem call.addr
      (s.ftable call.f).off (call.n % 2 ^ 32).toNat) (· = .disabled) s := by
  set ip := (s.ftable call.f).ip with hip
  rw [filereadInode, wp_bind]
  refine wp_post (ilock_open h (by rw [htype]; rfl) fun _ ↦ rfl) ?_
  rintro _ s₁ ⟨h₁, hkeeps, hnode⟩
  have hmem : ip ∈ insert ip locks := Finset.mem_insert_self _ _
  have hholes := h₁.noHoles (h₁.refs_of_lock hmem) (h₁.valid_of_lock hmem)
  have hn : (call.n % 2 ^ 32).toNat < 2 ^ 32 := by
    have := Int.emod_nonneg call.n (show (2 : ℤ) ^ 32 ≠ 0 by norm_num)
    have := Int.emod_lt_of_pos call.n (show (0 : ℤ) < 2 ^ 32 by norm_num)
    omega
  rw [wp_bind]
  refine wp_post (readi_exact h₁.bufs hholes call.mem call.addr (s.ftable call.f).off hn) ?_
  rintro ⟨r, bytes⟩ s₂ ⟨rfl, hr⟩
  have hread : (r, bytes) = (s.target call.f).read call.mem call.addr (s.ftable call.f).off
      (call.n % 2 ^ 32).toNat := by
    rw [← hnode, h₁.locked_node hmem]
    exact hr
  dsimp only
  split
  · have hoff := (h₁.putOff call.f (((s.ftable call.f).off + r.toNat) % 2 ^ 32)).1
    rw [hkeeps.ftable] at hoff
    rw [wp_bind, wp_setFile, wp_bind]
    exact wp_post (iunlock_spec hoff hmem) fun _ _ _ ↦ hread
  · rw [wp_bind]
    exact wp_post (iunlock_spec h₁ hmem) fun _ _ _ ↦ hread

/-- A negative count is taken for a large one, and the file is read to its end. -/
structure Overruns (call : ReadCall) (fs : FsState) : Prop where
  readable : (fs.ftable call.f).readable = true
  type : (fs.ftable call.f).type = .inode
  neg : call.n < 0
  nowrap : (fs.ftable call.f).off + call.n < 0
  below : (fs.ftable call.f).off < (fs.target call.f).size
  mapped : call.mem call.addr = true

/-- A read of an inode keeps to its range unless it overruns. -/
theorem read_inBounds_iff (hn : -2 ^ 31 ≤ call.n ∧ call.n < 2 ^ 31)
    (hreadable : (s.ftable call.f).readable = true) (htype : (s.ftable call.f).type = .inode)
    {r : ℤ} {bytes : List UInt8} (hread : (r, bytes) = (s.target call.f).read call.mem call.addr
      (s.ftable call.f).off (call.n % 2 ^ 32).toNat) :
    Reading.InBounds call { place := .returned r, stored := storesAt call.addr bytes } ↔
      ¬ call.Overruns s := by
  have hle := (s.target call.f).read_le call.mem call.addr (s.ftable call.f).off
    (call.n % 2 ^ 32).toNat
  have hnil := (s.target call.f).read_eq_nil_iff call.mem call.addr (s.ftable call.f).off
    (call.n % 2 ^ 32).toNat
  rw [← hread] at hle hnil
  dsimp only at hle hnil
  rcases lt_or_ge call.n 0 with hneg | hnonneg
  · -- There is no address in the range, so nothing may be stored.
    have hcount : ((call.n % 2 ^ 32).toNat : ℤ) = call.n + 2 ^ 32 := by omega
    have hempty : Reading.InBounds call
        { place := .returned r, stored := storesAt call.addr bytes } ↔ bytes = [] := by
      constructor
      · intro hbounds
        cases bytes with
        | nil => rfl
        | cons byte rest =>
          have hfirst := hbounds.stored (call.addr + 0) byte (mem_storesAt.mpr ⟨0, rfl, rfl⟩)
          omega
      · rintro rfl
        refine ⟨fun a byte hmem ↦ ?_, fun r' hr ↦ ?_⟩
        · cases hmem
        · obtain rfl := ReadPlace.returned.inj hr
          exact le_max_of_le_right hle.2
    rw [hempty, hnil]
    constructor
    · rintro (hzero | hend | hwrap | hunmapped) hover
      · omega
      · exact Nat.not_lt.mpr hend hover.below
      · have := hover.nowrap
        omega
      · exact Bool.eq_false_iff.mp hunmapped hover.mapped
    · intro hnot
      by_contra hsome
      simp only [not_or] at hsome
      obtain ⟨-, hbelow, hnowrap, hmapped⟩ := hsome
      exact hnot ⟨hreadable, htype, hneg, by omega, by omega, Bool.of_not_eq_false hmapped⟩
  · have hcount : ((call.n % 2 ^ 32).toNat : ℤ) = call.n := by omega
    refine iff_of_true ⟨fun a byte hmem ↦ ?_, fun r' hr ↦ ?_⟩ fun hover ↦ ?_
    · obtain ⟨k, hk, rfl⟩ := mem_storesAt.mp hmem
      obtain ⟨hlt, -⟩ := List.getElem?_eq_some_iff.mp hk
      push_cast
      omega
    · obtain rfl := ReadPlace.returned.inj hr
      omega
    · exact absurd hover.neg (not_lt.mpr hnonneg)

/-- The first step of a call that does not read an inode. -/
theorem start_inBounds {scene : Scene} {s' : Reading}
    (hstep : call.step .start scene = .ok s')
    (hother : (scene.fs.ftable call.f).readable = false ∨ (scene.fs.ftable call.f).type ≠ .inode) :
    s'.InBounds call ∧ call.PlaceOk s'.place := by
  have hok : ∀ {place : ReadPlace}, call.PlaceOk place →
      Reading.InBounds call { place := place, stored := [] } ∧ call.PlaceOk place := by
    intro place hplace
    refine ⟨⟨fun a byte hmem ↦ ?_, fun r hr ↦ ?_⟩, hplace⟩
    · cases hmem
    · obtain rfl : place = .returned r := hr
      exact hplace
  have hfail : call.PlaceOk (.returned (-1)) := by
    show (-1 : ℤ) ≤ max call.n 0
    omega
  rw [step] at hstep
  dsimp only [Reading.start] at hstep
  split at hstep
  · obtain rfl := Except.ok.inj hstep
    exact hok hfail
  · rename_i hreadable
    have hnot := hother.resolve_left hreadable
    split at hstep
    · obtain rfl := Except.ok.inj hstep
      exact hok ⟨rfl, fun _ ↦ nofun⟩
    · split at hstep
      · obtain rfl := Except.ok.inj hstep
        exact hok ⟨⟨rfl, le_refl _, min_le_left _ _⟩, fun _ ↦ nofun⟩
      · obtain rfl := Except.ok.inj hstep
        exact hok hfail
    · rename_i htype
      exact absurd htype hnot
    · cases hstep

/-- The first step of a call that reads an inode is its last one. -/
theorem start_inode {scene : Scene} {s' : Reading} (h : Base scene.fs held locks)
    (hstep : call.step .start scene = .ok s')
    (hreadable : (scene.fs.ftable call.f).readable = true)
    (htype : (scene.fs.ftable call.f).type = .inode) :
    ∃ r bytes, s' = { place := .returned r, stored := storesAt call.addr bytes } ∧
      (r, bytes) = (scene.fs.target call.f).read call.mem call.addr (scene.fs.ftable call.f).off
        (call.n % 2 ^ 32).toNat := by
  rw [step] at hstep
  dsimp only [Reading.start] at hstep
  rw [if_neg (by rw [hreadable]; decide), htype] at hstep
  dsimp only at hstep
  split at hstep
  · rename_i r bytes fs hread
    obtain rfl := Except.ok.inj hstep
    have hresult := wp_of_ok (filereadInode_spec h htype) hread
    exact ⟨r, bytes, rfl, hresult⟩
  · cases hstep

end ReadCall

namespace ReadCall

variable {call : ReadCall}

/-- `fileread` is these branches, less the bytes. -/
theorem fileread_eq (call : ReadCall) (device : ℤ) :
    fileread call.f call.mem call.addr call.n device = (do
      let file := (← get).ftable call.f
      if file.readable = false then return -1
      else
        match file.type with
        | .pipe => return device
        | .device => if file.major = CONSOLE then return device else return -1
        | .inode =>
          let (r, _) ← call.filereadInode file
          return r
        | .none => panic .filereadType) := by
  rw [fileread]
  refine bind_congr fun s ↦ ?_
  generalize s.ftable call.f = file
  obtain ⟨type, ref, readable, writable, pipe, ip, off, major⟩ := file
  cases type with
  | inode =>
    dsimp only
    split
    · rfl
    · rw [filereadInode]
      simp only [bind_assoc]
      refine bind_congr fun _ ↦ bind_congr fun result ↦ ?_
      obtain ⟨r, bytes⟩ := result
      dsimp only
      split
      · simp only [bind_assoc, pure_bind]
      · simp only [bind_assoc, pure_bind]
  | _ => rfl

/-- A call that has returned takes no step. -/
theorem run_of_returned {s s' : Reading} {r : ℤ} (hs : s.place = .returned r) {scenes : List Scene}
    (hrun : run call.step s scenes = .ok s') : s' = s := by
  cases scenes with
  | nil => exact (Except.ok.inj hrun).symm
  | cons scene scenes =>
    obtain ⟨s₁, hstep, -⟩ := (run_cons_ok call.step).mp hrun
    rw [step, hs] at hstep
    cases hstep

/-- The steps are those of `fileread`: it returns the result of the last step, when that is what the
pipe or the device has returned. -/
theorem returned_eq_fileread {first : Scene} {scenes : List Scene} {s : Reading} {r : ℤ}
    (hrun : run call.step .start (first :: scenes) = .ok s) (hs : s.place = .returned r) :
    ∃ fs, fileread call.f call.mem call.addr call.n r first.fs = .ok (r, fs) := by
  obtain ⟨s₁, hstep, hrest⟩ := (run_cons_ok call.step).mp hrun
  have hlast : ∀ {r' stored}, s₁ = { place := .returned r', stored := stored } → r' = r := by
    rintro r' stored rfl
    rw [run_of_returned rfl hrest] at hs
    exact ReadPlace.returned.inj hs
  rw [step] at hstep
  dsimp only [Reading.start] at hstep
  rw [fileread_eq]
  show ∃ fs, (if (first.fs.ftable call.f).readable = false then _ else _ : FsM ℤ) first.fs = _
  split at hstep
  · rename_i hreadable
    obtain rfl := hlast (Except.ok.inj hstep).symm
    rw [if_pos hreadable]
    exact ⟨first.fs, rfl⟩
  · rename_i hreadable
    rw [if_neg hreadable]
    split at hstep
    · rename_i htype
      rw [htype]
      exact ⟨first.fs, rfl⟩
    · rename_i htype
      rw [htype]
      dsimp only
      split at hstep
      · rename_i hmajor
        rw [if_pos hmajor]
        exact ⟨first.fs, rfl⟩
      · rename_i hmajor
        obtain rfl := hlast (Except.ok.inj hstep).symm
        rw [if_neg hmajor]
        exact ⟨first.fs, rfl⟩
    · rename_i htype
      rw [htype]
      split at hstep
      · rename_i r' bytes fs hread
        obtain rfl := hlast (Except.ok.inj hstep).symm
        refine ⟨fs, ?_⟩
        show (call.filereadInode (first.fs.ftable call.f) first.fs >>= fun x ↦ .ok (x.1.1, x.2)) = _
        rw [hread]
        rfl
      · cases hstep
    · cases hstep

end ReadCall

/-- **A read stores only where it was told to, and returns at most the count**, whatever kind of file
it reads and whatever other processes do to the pipe and the console, if and only if it is not a read
of an inode with a negative count that `readi` takes for a large one. -/
theorem fileread_in_bounds_iff {call : ReadCall} (hn : -2 ^ 31 ≤ call.n ∧ call.n < 2 ^ 31)
    {first : Scene} {held : Multiset (Fin NINODE)} {locks : Finset (Fin NINODE)}
    (h : Base first.fs held locks) {scenes : List Scene} {s : Reading}
    (hrun : run call.step .start (first :: scenes) = .ok s) :
    s.InBounds call ↔ ¬ call.Overruns first.fs := by
  obtain ⟨s₁, hstep, hrest⟩ := (run_cons_ok call.step).mp hrun
  by_cases hinode : (first.fs.ftable call.f).readable = true ∧ (first.fs.ftable call.f).type = .inode
  · obtain ⟨r, bytes, rfl, hread⟩ := ReadCall.start_inode h hstep hinode.1 hinode.2
    obtain rfl := ReadCall.run_of_returned rfl hrest
    exact ReadCall.read_inBounds_iff hn hinode.1 hinode.2 hread
  · have hother : (first.fs.ftable call.f).readable = false ∨
        (first.fs.ftable call.f).type ≠ .inode := by
      rw [not_and_or, Bool.not_eq_true] at hinode
      exact hinode
    obtain ⟨hbounds, hplace⟩ := ReadCall.start_inBounds hstep hother
    exact iff_of_true (ReadCall.run_inBounds hbounds hplace hrest)
      fun hover ↦ hinode ⟨hover.readable, hover.type⟩

/-- A file with three bytes is made, and opened again for reading. -/
def threeByteFile : List Action :=
  [.open initproc [97] (O_CREATE + O_RDWR), .write initproc 0 (kernelSource [1, 2, 3]) 0 3 0,
    .open initproc [97] O_RDONLY]

/-- A call reads this file, to address 100 of memory that is all mapped. -/
def readThree (n : ℤ) : ReadCall where
  f := ⟨1, by decide⟩
  mem := kernelDest
  addr := 100
  n := n

/-- An empty pipe and an empty console. -/
def sceneOf (fs : FsState) : Scene where
  fs := fs
  pipe := Pipes.pipealloc fun _ ↦ 0
  cons := { buf := fun _ ↦ 0, r := 0, w := 0, e := 0 }
  killed := false

/-- Two of the three bytes are read. -/
theorem fileread_in_bounds_iff_two : ∃ (fs : FsState) (s : Reading),
    run step small threeByteFile = .ok fs ∧
    run (readThree 2).step .start [sceneOf fs] = .ok s ∧
    s.stored = [(100, 1), (101, 2)] ∧ s.InBounds (readThree 2) := by
  have hyields : yields (run step small threeByteFile) (fun fs ↦
      yields (run (readThree 2).step .start [sceneOf fs])
        (fun s ↦ s.stored = [(100, 1), (101, 2)]) = true) = true := by decide +kernel
  obtain ⟨fs, hrun, hreads⟩ := exists_of_yields hyields
  obtain ⟨s, hread, hstored⟩ := exists_of_yields hreads
  have hbase : Base (sceneOf fs).fs 0 ∅ := wellFormed_small.run hrun
  have hiff := fileread_in_bounds_iff (by decide) hbase hread
  refine ⟨fs, s, hrun, hread, hstored, hiff.mpr fun hover ↦ ?_⟩
  exact absurd hover.neg (by decide)

/-- With a count of -1 all three bytes are stored, and the call returns 3. -/
theorem negative_count_reads_file : ∃ (fs : FsState) (s : Reading),
    run step small threeByteFile = .ok fs ∧
    run (readThree (-1)).step .start [sceneOf fs] = .ok s ∧
    s.place = .returned 3 ∧ s.stored = [(100, 1), (101, 2), (102, 3)] ∧
    ¬ s.InBounds (readThree (-1)) := by
  have hyields : yields (run step small threeByteFile) (fun fs ↦
      yields (run (readThree (-1)).step .start [sceneOf fs]) (fun s ↦
        (match s.place with
          | .returned r => decide (r = 3)
          | _ => false) = true ∧ s.stored = [(100, 1), (101, 2), (102, 3)]) = true) = true := by
    decide +kernel
  obtain ⟨fs, hrun, hreads⟩ := exists_of_yields hyields
  obtain ⟨s, hread, hreturned, hstored⟩ := exists_of_yields hreads
  split at hreturned
  · rename_i r hplace
    obtain rfl := of_decide_eq_true hreturned
    refine ⟨fs, s, hrun, hread, hplace, hstored, fun hbounds ↦ ?_⟩
    have hresult : (3 : ℤ) ≤ max (-1) 0 := hbounds.returned 3 hplace
    omega
  · cases hreturned

end Xv6.Fs
