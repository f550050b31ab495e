import Xv6.Console.Calls
import Xv6.Lib.Run
import Xv6.Lib.Window

/-!
# The Line Discipline of the Console

The input buffer of the console is a queue of committed bytes followed by the line that is being
edited.  The threads that read and the interrupts that bring bytes share it, in any number and in any
order; a thread that sleeps may go on whenever the lock is free, which includes every wakeup that it
gets.  The indices of the buffer wrap.
-/

namespace Xv6.Console

open Lib Process

/-! ## The abstract line discipline -/

/-- The committed bytes, and the line that is being edited. -/
@[ext]
structure Line where
  committed : List UInt8
  edit : List UInt8
  deriving DecidableEq

/-- What happens to the line: a byte comes in, a reader gets a committed byte, or a reader meets
control-D after the bytes `got`. -/
inductive Event where
  | key (c : UInt8)
  | deliver (b : UInt8)
  | eof (got : List UInt8)

namespace Line

def empty : Line := { committed := [], edit := [] }

/-- There is no room for another byte. -/
def full (l : Line) : Bool := INPUT_BUF ≤ l.committed.length + l.edit.length

def commit (l : Line) : Line := { committed := l.committed ++ l.edit, edit := [] }

/-- A byte is added to the line; the end of the line, the end of the file and a full buffer commit
it. -/
def append (l : Line) (b : UInt8) : Line :=
  let l := { l with edit := l.edit ++ [b] }
  if b = newline ∨ b = ctrl 'D' ∨ l.full then l.commit else l

/-- A byte comes in. -/
def key (l : Line) (c : UInt8) : Line :=
  if c = 0 ∨ c = ctrl 'P' then l
  else if c = ctrl 'U' then { l with edit := [] }
  else if c = ctrl 'H' ∨ c = 127 then { l with edit := l.edit.dropLast }
  else if l.full then l
  else l.append (if c = 13 then newline else c)

/-- The line after an event, if the event is possible: a reader gets the first committed byte, unless
it is control-D, which is used up by a reader that has got nothing. -/
def step (l : Line) : Event → Option Line
  | .key c => some (l.key c)
  | .deliver b =>
    if l.committed.head? = some b ∧ b ≠ ctrl 'D' then
      some { l with committed := l.committed.tail }
    else none
  | .eof got =>
    if l.committed.head? = some (ctrl 'D') then
      some (if got = [] then { l with committed := l.committed.tail } else l)
    else none

/-- The line after a sequence of events. -/
def replay (events : List Event) : Option Line := events.foldlM step empty

theorem replay_append (events more : List Event) :
    replay (events ++ more) = replay events >>= fun l ↦ more.foldlM step l := by
  rw [replay, List.foldlM_append, replay]

end Line

/-! ## The readers -/

/-- The last call of `consoleread` of a thread: its argument, the bytes that it has copied out so
far, whether it has met control-D, and whether it was killed. -/
structure ReadCall where
  n : ℤ
  got : List UInt8
  eof : Bool
  killed : Bool

/-- A call that has returned `result`. -/
structure ReadCall.Returned (call : ReadCall) (result : ℤ) : Prop where
  count : result = call.got.length
  eof_notMem : ctrl 'D' ∉ call.got
  newline_last : newline ∉ call.got.dropLast
  stop : call.got.length = call.n.toNat ∨ call.got.getLast? = some newline ∨ call.eof = true

/-- The event of a step of a thread. -/
def Cons.event (d : Cons) (call : ReadCall) : Loc → Option Event
  | .readLoop _ n =>
    if 0 < n ∧ d.r ≠ d.w then
      some (if d.get d.r = ctrl 'D' then .eof call.got else .deliver (d.get d.r))
    else none
  | .intr c _ => some (.key c)
  | _ => none

/-- The call after a step of a thread. -/
def Cons.after (d : Cons) (call : ReadCall) (killed : Bool) (request : Request) : Loc → ReadCall
  | .user _ =>
    match request with
    | .read n => { n := n, got := [], eof := false, killed := false }
    | .intr _ => call
  | .readLoop _ n =>
    if 0 < n then
      if d.r = d.w then { call with killed := killed }
      else if d.get d.r = ctrl 'D' then { call with eof := true }
      else { call with got := call.got ++ [d.get d.r] }
    else call
  | _ => call

/-! ## Threads -/

/-- Where a thread is.  A thread in `sleep` goes on when it gets the lock. -/
inductive Place where
  | running (loc : Loc)
  | asleep (loc : Loc)

def Place.loc : Place → Loc
  | .running loc | .asleep loc => loc

/-- The console and its threads, with the events and the calls so far. -/
structure System (Thread : Type) where
  cons : Cons
  lock : Option Thread
  place : Thread → Place
  events : List Event
  call : Thread → ReadCall

section System

variable {Thread : Type} [DecidableEq Thread]

/-- Thread `t` goes on at `place`. -/
def System.go (s : System Thread) (t : Thread) (lock : Option Thread) (place : Place) :
    System Thread :=
  { s with lock := lock, place := Function.update s.place t place }

/-- The step of thread `t` is recorded. -/
def System.record (s : System Thread) (t : Thread) (killed : Bool) (request : Request) (loc : Loc) :
    System Thread :=
  { s with events := s.events ++ (s.cons.event (s.call t) loc).toList
           call := Function.update s.call t (s.cons.after (s.call t) killed request loc) }

/-- A step of thread `t`; the copies to user memory succeed. -/
def step (s : System Thread) (action : Thread × Bool × Request) :
    Except Stop (System Thread) :=
  let (t, killed, request) := action
  match s.place t with
  | .asleep loc => if s.lock = none then .ok (s.go t (some t) (.running loc)) else .error .disabled
  | .running loc =>
    let s' := s.record t killed request loc
    match next s.cons killed loc { request := request, copyout := true } with
    | .acquire _ k =>
      if s.lock = none then .ok (s'.go t (some t) (.running k)) else .error .disabled
    | .release _ k =>
      if s.lock = some t then .ok (s'.go t none (.running k))
      else .error (.panic .releaseNotHeld)
    | .store cons k => .ok ({ s' with cons := cons }.go t s.lock (.running k))
    | .sleep _ _ k => .ok (s'.go t none (.asleep k))
    | .wakeup _ k => .ok (s'.go t s.lock (.running k))
    | _ => .error .disabled

/-- The console after `consoleinit`, with the indices at any value. -/
def start (buf : Fin INPUT_BUF → UInt8) (i : UInt32) : System Thread where
  cons := { buf := buf, r := i, w := i, e := i }
  lock := none
  place _ := .running (.user 0)
  events := []
  call _ := { n := 0, got := [], eof := false, killed := false }

end System

/-! ## The buffer as a line -/

namespace Cons

variable (d : Cons)

/-- The number of committed bytes. -/
def queued : ℕ := (d.w - d.r).toNat

/-- The length of the line that is being edited. -/
def edited : ℕ := (d.e - d.w).toNat

/-- The contents of the buffer. -/
def line : Line :=
  haveI := neZero_INPUT_BUF
  { committed := window d.buf d.r.toNat d.queued
    edit := window d.buf d.w.toNat d.edited }

/-- The invariant of the buffer: a full buffer has been committed, and the line that is being edited
has no end. -/
structure Ok : Prop where
  bound : d.queued + d.edited ≤ INPUT_BUF
  full : d.queued + d.edited = INPUT_BUF → d.edited = 0
  plain : newline ∉ d.line.edit

theorem w_toNat : d.w.toNat = (d.r.toNat + d.queued) % 2 ^ 32 := by
  have hr := d.r.toNat_lt
  have hw := d.w.toNat_lt
  rw [queued, UInt32.toNat_sub]
  omega

theorem e_toNat : d.e.toNat = (d.w.toNat + d.edited) % 2 ^ 32 := by
  have hw := d.w.toNat_lt
  have he := d.e.toNat_lt
  rw [edited, UInt32.toNat_sub]
  omega

/-- The number of bytes in the buffer. -/
theorem used_toNat (h : d.queued + d.edited ≤ INPUT_BUF) :
    (d.e - d.r).toNat = d.queued + d.edited := by
  have hr := d.r.toNat_lt
  have hw := d.w_toNat
  have he := d.e_toNat
  rw [UInt32.toNat_sub]
  simp only [INPUT_BUF] at h
  omega

@[simp]
theorem length_committed : d.line.committed.length = d.queued := length_window ..

@[simp]
theorem length_edit : d.line.edit.length = d.edited := length_window ..

theorem edited_eq_zero : d.edited = 0 ↔ d.e = d.w := by
  have hw := d.w.toNat_lt
  have he := d.e_toNat
  have hlt : d.edited < 2 ^ 32 := UInt32.toNat_lt _
  rw [← UInt32.toNat_inj]
  omega

theorem queued_eq_zero : d.queued = 0 ↔ d.r = d.w := by
  have hr := d.r.toNat_lt
  have hw := d.w_toNat
  have hlt : d.queued < 2 ^ 32 := UInt32.toNat_lt _
  rw [← UInt32.toNat_inj]
  omega

/-- Both parts of the buffer. -/
theorem window_committed_edit :
    window d.buf d.r.toNat (d.queued + d.edited) = d.line.committed ++ d.line.edit := by
  rw [window_add, line, w_toNat, window_mod _ _ _ (by decide)]

/-! ### Operations on the buffer -/

theorem edited_store (c : UInt8) (hroom : d.edited < INPUT_BUF) :
    (d.store c).edited = d.edited + 1 := by
  have hw := d.w.toNat_lt
  have he := d.e_toNat
  have hone : (1 : UInt32).toNat = 1 := rfl
  rw [edited, UInt32.toNat_sub]
  simp only [store, UInt32.toNat_add, hone]
  simp only [INPUT_BUF] at hroom
  omega

/-- A byte is stored behind the line. -/
theorem line_store (c : UInt8) (hroom : d.queued + d.edited < INPUT_BUF) :
    (d.store c).line = { d.line with edit := d.line.edit ++ [c] } := by
  have hslot : Fin.ofNat INPUT_BUF d.e.toNat = Fin.ofNat INPUT_BUF (d.w.toNat + d.edited) := by
    refine Fin.ext ?_
    simp only [Fin.ofNat, e_toNat]
    exact Nat.mod_mod_of_dvd _ (by decide)
  have hslot' : Fin.ofNat INPUT_BUF d.e.toNat =
      Fin.ofNat INPUT_BUF (d.r.toNat + (d.queued + d.edited)) := by
    rw [hslot, w_toNat, ← Nat.add_assoc]
    refine Fin.ext ?_
    simp only [Fin.ofNat]
    exact ((Nat.mod_modEq _ (2 ^ 32)).of_dvd (by decide)).add_right _
  have hcommitted : (d.store c).line.committed = d.line.committed := by
    show window (Function.update d.buf _ c) _ _ = _
    rw [hslot']
    exact window_update _ _ _ _ (Nat.le_add_right _ _) hroom
  have hedit : (d.store c).line.edit = d.line.edit ++ [c] := by
    rw [line, edited_store d c (by omega)]
    show window (Function.update d.buf _ c) _ _ = _
    rw [hslot]
    exact window_store _ _ _ _ (by omega)
  exact Line.ext hcommitted hedit

theorem edited_erase (hsome : d.e ≠ d.w) : d.edited = { d with e := d.e - 1 }.edited + 1 := by
  have hw := d.w.toNat_lt
  have he := d.e_toNat
  have hpos : d.edited ≠ 0 := fun hzero ↦ hsome (d.edited_eq_zero.mp hzero)
  have hlt : d.edited < 2 ^ 32 := UInt32.toNat_lt _
  have hone : (1 : UInt32).toNat = 1 := rfl
  rw [edited.eq_def { d with e := d.e - 1 }, UInt32.toNat_sub]
  simp only [UInt32.toNat_sub, hone]
  omega

/-- The last byte of the line. -/
theorem edit_eq_concat (hsome : d.e ≠ d.w) :
    d.line.edit = { d with e := d.e - 1 }.line.edit ++ [d.get (d.e - 1)] := by
  have hlast : d.get (d.e - 1) =
      d.buf (Fin.ofNat INPUT_BUF (d.w.toNat + { d with e := d.e - 1 }.edited)) := by
    refine congrArg d.buf (Fin.ext ?_)
    have he := { d with e := d.e - 1 }.e_toNat
    simp only at he
    simp only [Fin.ofNat, he]
    exact Nat.mod_mod_of_dvd _ (by decide)
  rw [hlast, line, edited_erase d hsome]
  exact window_snoc ..

/-- The last byte of the line is erased. -/
theorem line_erase (hsome : d.e ≠ d.w) :
    { d with e := d.e - 1 }.line = { d.line with edit := d.line.edit.dropLast } := by
  rw [edit_eq_concat d hsome, List.dropLast_concat]
  rfl

theorem queued_commit (h : d.queued + d.edited ≤ INPUT_BUF) :
    { d with w := d.e }.queued = d.queued + d.edited := d.used_toNat h

theorem edited_commit : { d with w := d.e }.edited = 0 := by
  simp [edited]

/-- The line is committed. -/
theorem line_commit (h : d.queued + d.edited ≤ INPUT_BUF) :
    { d with w := d.e }.line = d.line.commit := by
  rw [line, queued_commit d h, edited_commit]
  exact Line.ext d.window_committed_edit rfl

theorem queued_take (hsome : d.r ≠ d.w) : d.queued = { d with r := d.r + 1 }.queued + 1 := by
  have hr := d.r.toNat_lt
  have hw := d.w_toNat
  have hpos : d.queued ≠ 0 := fun hzero ↦ hsome (d.queued_eq_zero.mp hzero)
  have hlt : d.queued < 2 ^ 32 := UInt32.toNat_lt _
  have hone : (1 : UInt32).toNat = 1 := rfl
  rw [queued.eq_def { d with r := d.r + 1 }, UInt32.toNat_sub]
  simp only [UInt32.toNat_add, hone]
  omega

/-- The first committed byte. -/
theorem committed_eq_cons (hsome : d.r ≠ d.w) :
    d.line.committed = d.get d.r :: { d with r := d.r + 1 }.line.committed := by
  have hone : (1 : UInt32).toNat = 1 := rfl
  rw [line, queued_take d hsome, window_succ, line]
  simp only [UInt32.toNat_add, hone]
  rw [window_mod _ _ _ (by decide)]
  rfl

/-- The first committed byte is taken. -/
theorem line_take (hsome : d.r ≠ d.w) :
    { d with r := d.r + 1 }.line = { d.line with committed := d.line.committed.tail } := by
  rw [committed_eq_cons d hsome, List.tail_cons]
  rfl

namespace Ok

variable {d}

/-- The loop that kills a line stops at `cons.w`. -/
theorem killLine (h : newline ∉ d.line.edit) : d.killLine d.edited = { d with e := d.w } := by
  generalize hn : d.edited = n
  induction n generalizing d with
  | zero =>
    have heq : d.e = d.w := d.edited_eq_zero.mp hn
    rw [Cons.killLine]
    cases d
    cases heq
    rfl
  | succ n ih =>
    have hsome : d.e ≠ d.w := by
      intro heq
      rw [d.edited_eq_zero.mpr heq] at hn
      cases hn
    rw [edit_eq_concat d hsome, List.mem_append, not_or, List.mem_singleton] at h
    have hcount : { d with e := d.e - 1 }.edited = n := by
      have := edited_erase d hsome
      omega
    rw [Cons.killLine, if_pos ⟨hsome, fun heq ↦ h.2 heq.symm⟩, ih h.1 hcount]

theorem room_iff (h : d.Ok) :
    d.e - d.r < UInt32.ofNat INPUT_BUF ↔ d.line.full = false := by
  have hsize : (UInt32.ofNat INPUT_BUF).toNat = INPUT_BUF := rfl
  rw [UInt32.lt_iff_toNat_lt, d.used_toNat h.bound, hsize, Line.full]
  simp

/-- The test of a full buffer after a byte has been stored. -/
theorem full_store (c : UInt8) (hroom : d.queued + d.edited < INPUT_BUF) :
    (d.store c).e = (d.store c).r + UInt32.ofNat INPUT_BUF ↔ (d.store c).line.full = true := by
  have hsum : (d.store c).queued + (d.store c).edited = d.queued + d.edited + 1 := by
    rw [edited_store d c (by omega)]
    rfl
  have hused := (d.store c).used_toNat (by omega)
  have hr := (d.store c).r.toNat_lt
  have he := (d.store c).e.toNat_lt
  have hsize : (UInt32.ofNat INPUT_BUF).toNat = 128 := rfl
  rw [UInt32.toNat_sub, hsum] at hused
  rw [← UInt32.toNat_inj, UInt32.toNat_add, hsize, Line.full, decide_eq_true_iff, length_committed,
    length_edit, hsum]
  simp only [INPUT_BUF] at *
  omega

/-- A byte that is not an editing one. -/
theorem append (h : d.Ok) (c : UInt8) (hroom : d.line.full = false) :
    let d' := d.store c
    let d' := if c = newline ∨ c = ctrl 'D' ∨ d'.e = d'.r + UInt32.ofNat INPUT_BUF then
      { d' with w := d'.e } else d'
    d'.Ok ∧ d'.line = d.line.append c := by
  have hlt : d.queued + d.edited < INPUT_BUF := by simpa [Line.full] using hroom
  have hline := d.line_store c hlt
  have hedited := d.edited_store c (by omega)
  have hqueued : (d.store c).queued = d.queued := rfl
  dsimp only
  simp only [full_store c hlt]
  rw [Line.append, ← hline]
  split
  · rename_i hcommit
    have hbound : (d.store c).queued + (d.store c).edited ≤ INPUT_BUF := by omega
    refine ⟨⟨?_, fun _ ↦ edited_commit _, ?_⟩, line_commit _ hbound⟩
    · rw [queued_commit _ hbound, edited_commit]
      exact hbound
    · rw [line_commit _ hbound]
      exact List.not_mem_nil
  · rename_i hcommit
    simp only [not_or] at hcommit
    refine ⟨⟨by omega, fun hfull ↦ ?_, ?_⟩, rfl⟩
    · exact absurd (by simp [Line.full, hfull]) hcommit.2.2
    · rw [hline, List.mem_append, List.mem_singleton, not_or]
      exact ⟨h.plain, fun heq ↦ hcommit.1 heq.symm⟩

/-- The line is killed. -/
theorem kill (h : d.Ok) :
    (d.killLine d.edited).Ok ∧ (d.killLine d.edited).line = { d.line with edit := [] } := by
  have hedited : { d with e := d.w }.edited = 0 := by simp [edited]
  have hedit : { d with e := d.w }.line.edit = [] := by
    rw [← List.length_eq_zero_iff, length_edit, hedited]
  rw [killLine h.plain]
  refine ⟨⟨?_, fun _ ↦ hedited, ?_⟩, Line.ext rfl hedit⟩
  · rw [hedited]
    exact (Nat.le_add_right _ _).trans h.bound
  · rw [hedit]
    exact List.not_mem_nil

/-- The last byte of the line is erased. -/
theorem erase (h : d.Ok) (hsome : d.e ≠ d.w) : { d with e := d.e - 1 }.Ok := by
  have hedited := d.edited_erase hsome
  have hqueued : { d with e := d.e - 1 }.queued = d.queued := rfl
  have hbound := h.bound
  refine ⟨by omega, fun hfull ↦ by omega, fun hmem ↦ h.plain ?_⟩
  rw [d.edit_eq_concat hsome]
  exact List.mem_append_left _ hmem

/-- `consoleintr`. -/
theorem intr (h : d.Ok) (c : UInt8) : (d.intr c).1.Ok ∧ (d.intr c).1.line = d.line.key c := by
  rw [Cons.intr, Line.key]
  by_cases hP : c = ctrl 'P'
  · rw [if_pos hP, if_pos (.inr hP)]
    exact ⟨h, rfl⟩
  rw [if_neg hP]
  by_cases hU : c = ctrl 'U'
  · have hne : ¬ (c = 0 ∨ c = ctrl 'P') := by
      rw [hU]
      decide
    rw [if_pos hU, if_neg hne, if_pos hU]
    exact h.kill
  rw [if_neg hU]
  by_cases hH : c = ctrl 'H' ∨ c = 127
  · have hne : ¬ (c = 0 ∨ c = ctrl 'P') := by
      rintro (rfl | rfl) <;> revert hH <;> decide
    rw [if_pos hH, if_neg hne, if_neg hU, if_pos hH]
    by_cases hsome : d.e = d.w
    · have hempty : d.line.edit = [] := by
        rw [← List.length_eq_zero_iff, length_edit, d.edited_eq_zero.mpr hsome]
      rw [if_neg (not_not_intro hsome), hempty]
      exact ⟨h, Line.ext rfl hempty⟩
    · rw [if_pos hsome]
      exact ⟨h.erase hsome, d.line_erase hsome⟩
  rw [if_neg hH]
  by_cases hzero : c = 0
  · rw [if_neg (fun hand ↦ hand.1 hzero), if_pos (.inl hzero)]
    exact ⟨h, rfl⟩
  rw [if_neg (not_or.mpr ⟨hzero, hP⟩), if_neg hU, if_neg hH]
  simp only [h.room_iff]
  cases hfull : d.line.full with
  | true =>
    rw [if_neg (by simp)]
    exact ⟨h, rfl⟩
  | false =>
    rw [if_pos ⟨hzero, rfl⟩, apply_ite Prod.fst]
    exact h.append (if c = 13 then newline else c) hfull

/-- The first committed byte is taken. -/
theorem take (h : d.Ok) (hsome : d.r ≠ d.w) : { d with r := d.r + 1 }.Ok := by
  have hqueued := d.queued_take hsome
  have hedited : { d with r := d.r + 1 }.edited = d.edited := rfl
  have hbound := h.bound
  exact ⟨by omega, fun hfull ↦ by omega, h.plain⟩

/-- An iteration of `consoleread`. -/
theorem read (h : d.Ok) (hsome : d.r ≠ d.w) {call : ReadCall} {target n : ℤ}
    (hgot : call.got = [] ↔ ¬ n < target) :
    (d.read target n true).1.Ok ∧
      d.line.step (if d.get d.r = ctrl 'D' then .eof call.got else .deliver (d.get d.r)) =
        some (d.read target n true).1.line := by
  have hhead : d.line.committed.head? = some (d.get d.r) := by
    rw [d.committed_eq_cons hsome, List.head?_cons]
  rw [Cons.read]
  by_cases heof : d.get d.r = ctrl 'D'
  · rw [if_pos heof, if_pos heof, Line.step, hhead, heof, if_pos rfl]
    by_cases hempty : call.got = []
    · rw [if_pos hempty, if_neg (hgot.mp hempty)]
      exact ⟨h.take hsome, congrArg some (d.line_take hsome).symm⟩
    · rw [if_neg hempty, if_pos (by_contra fun hn ↦ hempty (hgot.mpr hn))]
      exact ⟨h, rfl⟩
  · rw [if_neg heof, if_neg heof, if_pos rfl, Line.step, hhead, if_pos ⟨rfl, heof⟩]
    exact ⟨h.take hsome, congrArg some (d.line_take hsome).symm⟩

end Ok

end Cons

/-! ## The calls -/

/-- A call of `consoleread` that is in its loop. -/
structure ReadCall.Reading (call : ReadCall) (target n : ℤ) : Prop where
  request : call.n = target
  count : (call.got.length : ℤ) = target - n
  nonneg : call.got ≠ [] → 0 ≤ n
  plain : ∀ b ∈ call.got, b ≠ newline ∧ b ≠ ctrl 'D'

/-- What holds of the last call of a thread at a location. -/
def ReadCall.Fits (call : ReadCall) : Loc → Prop
  | .readLoop target n => call.Reading target n
  | .readEnd target n => call.Returned (target - n)
  | .user result | .intr _ result | .intrWake result | .intrEnd result =>
    result = -1 ∧ call.killed = true ∨ call.Returned result

namespace ReadCall.Reading

variable {call : ReadCall} {target n : ℤ}

theorem start (n : ℤ) : Reading { n := n, got := [], eof := false, killed := false } n n :=
  ⟨rfl, by simp, fun h ↦ absurd rfl h, by simp⟩

theorem got_eq_nil_iff (h : call.Reading target n) : call.got = [] ↔ ¬ n < target := by
  have hcount := h.count
  rw [← List.length_eq_zero_iff]
  omega

/-- The bytes that are copied out before the last one are no newlines, and none is control-D. -/
theorem returned (h : call.Reading target n)
    (hstop : call.got.length = call.n.toNat ∨ call.eof = true) : call.Returned (target - n) where
  count := h.count.symm
  eof_notMem hmem := (h.plain _ hmem).2 rfl
  newline_last hmem := (h.plain _ (List.dropLast_subset _ hmem)).1 rfl
  stop := hstop.imp_right .inr

/-- All bytes have been copied out. -/
theorem done (h : call.Reading target n) (hn : ¬ 0 < n) : call.Returned (target - n) := by
  refine h.returned (.inl ?_)
  have hcount := h.count
  have htarget := h.request
  by_cases hempty : call.got = []
  · have hlength : call.got.length = 0 := by rw [hempty, List.length_nil]
    omega
  · have hnonneg := h.nonneg hempty
    omega

/-- A byte is copied out. -/
theorem deliver (h : call.Reading target n) (hn : 0 < n) {b : UInt8} (hb : b ≠ ctrl 'D') :
    if b = newline then { call with got := call.got ++ [b] }.Returned (target - (n - 1))
    else { call with got := call.got ++ [b] }.Reading target (n - 1) := by
  have hcount := h.count
  have hlength : ((call.got ++ [b]).length : ℤ) = target - (n - 1) := by
    rw [List.length_append, List.length_singleton]
    omega
  split
  · rename_i hnewline
    refine ⟨hlength.symm, ?_, ?_, .inr (.inl ?_)⟩
    · rw [List.mem_append, List.mem_singleton, not_or]
      exact ⟨fun hmem ↦ (h.plain _ hmem).2 rfl, hb.symm⟩
    · rw [List.dropLast_concat]
      exact fun hmem ↦ (h.plain _ hmem).1 rfl
    · rw [List.getLast?_concat, hnewline]
  · rename_i hnewline
    refine ⟨h.request, hlength, fun _ ↦ by omega, fun x hx ↦ ?_⟩
    rcases List.mem_append.mp hx with hx | hx
    · exact h.plain x hx
    · rw [List.mem_singleton.mp hx]
      exact ⟨hnewline, hb⟩

end ReadCall.Reading

/-! ## Runs -/

section Runs

variable {Thread : Type} {s s' : System Thread}

/-- The buffer is the line after the events so far, and the calls are as they should be. -/
structure Inv (s : System Thread) : Prop where
  ok : s.cons.Ok
  line : Line.replay s.events = some s.cons.line
  fits : ∀ t, (s.call t).Fits (s.place t).loc

namespace Inv

theorem start (buf : Fin INPUT_BUF → UInt8) (i : UInt32) : Inv (start buf i : System Thread) := by
  refine ⟨⟨?_, ?_, ?_⟩, ?_, fun t ↦ .inr ⟨rfl, ?_, ?_, .inl rfl⟩⟩ <;>
    simp [Console.start, Cons.queued, Cons.edited, Cons.line, window, Line.replay, Line.empty]

variable [DecidableEq Thread]

/-- A step that is recorded. -/
theorem record (h : Inv s) {t : Thread} {killed : Bool} {request : Request} {loc : Loc}
    {cons : Cons} (hok : cons.Ok)
    (hline : (s.cons.event (s.call t) loc).toList.foldlM Line.step s.cons.line = some cons.line)
    {place : Place} (hfits : (s.cons.after (s.call t) killed request loc).Fits place.loc)
    (lock : Option Thread) :
    Inv ({ s.record t killed request loc with cons := cons }.go t lock place) := by
  refine ⟨hok, ?_, fun u ↦ ?_⟩
  · show Line.replay (s.events ++ _) = _
    rw [Line.replay_append, h.line]
    exact hline
  · by_cases hu : u = t
    · subst hu
      simpa [System.go, System.record] using hfits
    · simpa [System.go, System.record, Function.update_of_ne hu] using h.fits u

/-- Every step keeps the invariant. -/
theorem step (h : Inv s) {action : Thread × Bool × Request}
    (hstep : Console.step s action = .ok s') : Inv s' := by
  obtain ⟨t, killed, request⟩ := action
  have hfits := h.fits t
  simp only [Console.step] at hstep
  cases hplace : s.place t with
  | asleep loc =>
    rw [hplace] at hfits hstep
    dsimp only at hstep
    split at hstep <;> cases hstep
    refine ⟨h.ok, h.line, fun u ↦ ?_⟩
    by_cases hu : u = t
    · subst hu
      simpa [System.go, Place.loc] using hfits
    · simpa [System.go, Function.update_of_ne hu] using h.fits u
  | running loc =>
    rw [hplace] at hfits hstep
    cases loc with
    | user result =>
      cases request <;> simp only [next] at hstep <;> split at hstep <;> cases hstep
      · refine h.record h.ok rfl ?_ _
        exact ReadCall.Reading.start _
      · refine h.record h.ok rfl ?_ _
        exact hfits
    | readLoop target n =>
      have hreading : (s.call t).Reading target n := hfits
      by_cases hn : 0 < n
      · by_cases hsome : s.cons.r = s.cons.w
        · simp only [next, if_pos hn, if_pos hsome] at hstep
          have hevent : s.cons.event (s.call t) (.readLoop target n) = none :=
            if_neg fun hboth ↦ hboth.2 hsome
          have hafter : s.cons.after (s.call t) killed request (.readLoop target n) =
              { s.call t with killed := killed } := by
            rw [Cons.after, if_pos hn, if_pos hsome]
          cases killed with
          | true =>
            simp only [if_true] at hstep
            split at hstep <;> cases hstep
            refine h.record h.ok (by rw [hevent]; rfl) ?_ _
            rw [hafter]
            exact .inl ⟨rfl, rfl⟩
          | false =>
            cases hstep
            refine h.record h.ok (by rw [hevent]; rfl) ?_ _
            rw [hafter]
            exact ⟨hreading.request, hreading.count, hreading.nonneg, hreading.plain⟩
        · have hevent : s.cons.event (s.call t) (.readLoop target n) = _ :=
            if_pos ⟨hn, hsome⟩
          obtain ⟨hok, hline⟩ := h.ok.read hsome hreading.got_eq_nil_iff
          simp only [next, if_pos hn, if_neg hsome] at hstep
          cases hstep
          refine h.record hok (by rw [hevent]; simpa using hline) ?_ _
          rw [Cons.after, if_pos hn, if_neg hsome, Cons.read]
          by_cases heof : s.cons.get s.cons.r = ctrl 'D'
          · rw [if_pos heof, if_pos heof]
            refine ReadCall.Reading.returned ?_ (.inr rfl)
            exact ⟨hreading.request, hreading.count, hreading.nonneg, hreading.plain⟩
          · rw [if_neg heof, if_neg heof]
            have hdeliver := hreading.deliver hn heof
            by_cases hnewline : s.cons.get s.cons.r = newline
            · rw [if_pos hnewline] at hdeliver
              simpa [hnewline, Place.loc, ReadCall.Fits] using hdeliver
            · rw [if_neg hnewline] at hdeliver
              simpa [hnewline, Place.loc, ReadCall.Fits] using hdeliver
      · simp only [next, if_neg hn] at hstep
        cases hstep
        refine h.record h.ok ?_ ?_ _
        · rw [Cons.event, if_neg fun hboth ↦ hn hboth.1]
          rfl
        · rw [Cons.after, if_neg hn]
          exact hreading.done hn
    | readEnd target n =>
      simp only [next] at hstep
      split at hstep <;> cases hstep
      refine h.record h.ok rfl ?_ _
      exact .inr hfits
    | intr c result =>
      simp only [next] at hstep
      obtain ⟨hok, hline⟩ := h.ok.intr c
      cases hstep
      refine h.record hok ?_ ?_ _
      · exact congrArg some hline.symm
      · split <;> exact hfits
    | intrWake result =>
      simp only [next] at hstep
      cases hstep
      refine h.record h.ok rfl ?_ _
      exact hfits
    | intrEnd result =>
      simp only [next] at hstep
      split at hstep <;> cases hstep
      refine h.record h.ok rfl ?_ _
      exact hfits

end Inv

/-- The indices of the buffer are in order, also when they wrap; the buffer is what the line
discipline makes of the bytes that came in and of those that were delivered; and every call of
`consoleread` returns the number of bytes that it has copied out, with none behind a newline and no
control-D, and stops for one of the reasons that there are. -/
theorem console_line_discipline [DecidableEq Thread] {buf : Fin INPUT_BUF → UInt8} {i : UInt32}
    {actions : List (Thread × Bool × Request)} (hrun : run step (start buf i) actions = .ok s) :
    s.cons.w - s.cons.r ≤ s.cons.e - s.cons.r ∧
    s.cons.e - s.cons.r ≤ UInt32.ofNat INPUT_BUF ∧
    Line.replay s.events = some s.cons.line ∧
    ∀ t result, s.place t = .running (.user result) →
      result = -1 ∧ (s.call t).killed = true ∨ (s.call t).Returned result := by
  have h : Inv s := run_induction step (P := fun _ s ↦ Inv s) (.start buf i)
    (fun _ _ _ _ _ h hstep ↦ h.step hstep) hrun
  have hused := s.cons.used_toNat h.ok.bound
  refine ⟨?_, ?_, h.line, fun t result hplace ↦ ?_⟩
  · rw [UInt32.le_iff_toNat_le, hused]
    exact Nat.le_add_right _ _
  · rw [UInt32.le_iff_toNat_le, hused]
    exact h.ok.bound
  · have hfits := h.fits t
    rw [hplace] at hfits
    exact hfits

end Runs

/-- A reader waits while the bytes `a`, backspace, `b` and newline come in, at indices that wrap, and
gets a line of two bytes. -/
theorem console_line_discipline_edited : ∃ s : System Bool,
    run step (start (fun _ ↦ 0) 4294967295)
      (List.replicate 2 (true, false, .read 5) ++ List.replicate 3 (false, false, .intr 97) ++
        List.replicate 3 (false, false, .intr 8) ++ List.replicate 3 (false, false, .intr 98) ++
        List.replicate 4 (false, false, .intr 10) ++ List.replicate 4 (true, false, .read 5)) =
      .ok s ∧
    s.place true = .running (.user 2) ∧ (s.call true).got = [98, 10] ∧ s.cons.r = 1 ∧
    Line.replay s.events = some s.cons.line ∧ (s.call true).Returned 2 := by
  obtain ⟨s, hrun, hplace, hgot, hr⟩ : ∃ s : System Bool,
      run step (start (fun _ ↦ 0) 4294967295)
        (List.replicate 2 (true, false, .read 5) ++ List.replicate 3 (false, false, .intr 97) ++
          List.replicate 3 (false, false, .intr 8) ++ List.replicate 3 (false, false, .intr 98) ++
          List.replicate 4 (false, false, .intr 10) ++ List.replicate 4 (true, false, .read 5)) =
        .ok s ∧
      s.place true = .running (.user 2) ∧ (s.call true).got = [98, 10] ∧ s.cons.r = 1 :=
    ⟨_, rfl, rfl, rfl, rfl⟩
  obtain ⟨-, -, hline, hcalls⟩ := console_line_discipline hrun
  exact ⟨s, hrun, hplace, hgot, hr, hline, (hcalls true 2 hplace).resolve_left nofun⟩

end Xv6.Console
