import Xv6.Pipes.Calls
import Xv6.Process.Wakeup

/-!
# A Pipe as a Queue of Bytes

The buffer of a pipe holds at most `PIPESIZE` bytes, also when the counters wrap.  The bytes that
`piperead` has copied out, followed by those in the buffer, are the bytes that `pipewrite` has
stored, unless `copyout` has failed: `piperead` has then moved `nread` past a byte that it neither
copies out nor counts.
-/

namespace Xv6.Pipes

open Lib Process

/-- `nwrite - nread`, in the arithmetic of `uint`. -/
def Data.count (d : Data) : ℕ := (d.pi.nwrite - d.pi.nread).toNat

/-- The bytes in the buffer, in the order in which they were stored. -/
def Data.buffer (d : Data) : List UInt8 :=
  haveI := neZero_PIPESIZE
  window d.pi.data d.pi.nread.toNat d.count

/-- The invariant of the buffer. -/
structure Data.Fifo (d : Data) : Prop where
  bound : d.count ≤ PIPESIZE
  length : d.traffic.delivered.length + d.count + d.traffic.failed = d.traffic.written.length
  order : d.traffic.failed = 0 → d.traffic.delivered ++ d.buffer = d.traffic.written

namespace Data

theorem nwrite_toNat (d : Data) :
    d.pi.nwrite.toNat = (d.pi.nread.toNat + d.count) % 2 ^ 32 := by
  have hr := d.pi.nread.toNat_lt
  have hw := d.pi.nwrite.toNat_lt
  rw [Data.count, UInt32.toNat_sub]
  omega

@[simp]
theorem length_buffer (d : Data) : d.buffer.length = d.count := length_window ..

theorem full_iff (d : Data) : d.pi.full = true ↔ d.count = PIPESIZE := by
  have hr := d.pi.nread.toNat_lt
  have hcount : d.count < 2 ^ 32 := UInt32.toNat_lt _
  have hsize : (UInt32.ofNat PIPESIZE).toNat = PIPESIZE := rfl
  rw [Pipe.full, decide_eq_true_iff, ← UInt32.toNat_inj, UInt32.toNat_add, nwrite_toNat, hsize]
  simp only [PIPESIZE]
  omega

theorem empty_iff (d : Data) : d.pi.empty = true ↔ d.count = 0 := by
  have hr := d.pi.nread.toNat_lt
  have hcount : d.count < 2 ^ 32 := UInt32.toNat_lt _
  rw [Pipe.empty, decide_eq_true_iff, ← UInt32.toNat_inj, nwrite_toNat]
  omega

theorem count_store (d : Data) (ch : UInt8) (hroom : d.count < PIPESIZE) :
    (d.store ch).count = d.count + 1 := by
  have hr := d.pi.nread.toNat_lt
  have hone : (1 : UInt32).toNat = 1 := rfl
  rw [Data.count, UInt32.toNat_sub]
  simp only [Data.store, UInt32.toNat_add, nwrite_toNat, hone]
  simp only [PIPESIZE] at hroom
  omega

theorem buffer_store (d : Data) (ch : UInt8) (hroom : d.count < PIPESIZE) :
    (d.store ch).buffer = d.buffer ++ [ch] := by
  have hslot : Fin.ofNat PIPESIZE d.pi.nwrite.toNat =
      Fin.ofNat PIPESIZE (d.pi.nread.toNat + d.count) := by
    refine Fin.ext ?_
    simp only [Fin.ofNat, nwrite_toNat]
    exact Nat.mod_mod_of_dvd _ (by decide)
  rw [Data.buffer, count_store d ch hroom]
  simp only [Data.store, hslot]
  exact window_store d.pi.data d.pi.nread.toNat d.count ch hroom

theorem count_take (d : Data) (copyout : Bool) (hsome : 0 < d.count) :
    d.count = (d.take copyout).count + 1 := by
  have hr := d.pi.nread.toNat_lt
  have hcount : d.count < 2 ^ 32 := UInt32.toNat_lt _
  have hone : (1 : UInt32).toNat = 1 := rfl
  rw [Data.count.eq_def (d.take copyout), UInt32.toNat_sub]
  simp only [Data.take, UInt32.toNat_add, nwrite_toNat, hone]
  omega

theorem buffer_take (d : Data) (copyout : Bool) (hsome : 0 < d.count) :
    d.buffer = d.pi.data (Fin.ofNat PIPESIZE d.pi.nread.toNat) :: (d.take copyout).buffer := by
  have hone : (1 : UInt32).toNat = 1 := rfl
  rw [Data.buffer, count_take d copyout hsome, window_succ, Data.buffer]
  simp only [Data.take, UInt32.toNat_add, hone]
  rw [window_mod _ _ _ (by decide)]

namespace Fifo

variable {d : Data}

theorem store (h : d.Fifo) (hroom : d.pi.full = false) (ch : UInt8) : (d.store ch).Fifo := by
  have hlt : d.count < PIPESIZE := by
    refine lt_of_le_of_ne h.bound fun heq ↦ ?_
    rw [(full_iff d).mpr heq] at hroom
    cases hroom
  have hcount := count_store d ch hlt
  refine ⟨by omega, ?_, fun hfailed ↦ ?_⟩
  · have hlength := h.length
    rw [hcount]
    simp only [Data.store, List.length_append, List.length_singleton]
    omega
  · rw [buffer_store d ch hlt]
    simp only [Data.store]
    rw [← List.append_assoc, h.order hfailed]

theorem take (h : d.Fifo) (hsome : d.pi.empty = false) (copyout : Bool) : (d.take copyout).Fifo := by
  have hpos : 0 < d.count := by
    refine Nat.pos_of_ne_zero fun heq ↦ ?_
    rw [(empty_iff d).mpr heq] at hsome
    cases hsome
  have hcount := count_take d copyout hpos
  have hbound := h.bound
  have hlength := h.length
  cases copyout with
  | true =>
    refine ⟨by omega, ?_, fun hfailed ↦ ?_⟩
    · simp only [Data.take, if_true, List.length_append, List.length_singleton] at hcount ⊢
      omega
    · have horder := h.order hfailed
      rw [buffer_take d true hpos] at horder
      simpa [Data.take] using horder
  | false =>
    refine ⟨by omega, ?_, fun hfailed ↦ ?_⟩
    · simp only [Data.take] at hcount ⊢
      simp only [Bool.false_eq_true, if_false] at hcount ⊢
      omega
    · simp [Data.take] at hfailed

theorem close (h : d.Fifo) (writable : Bool) : (d.close writable).Fifo := by
  cases writable <;> exact ⟨h.bound, h.length, h.order⟩

/-- Every store of the code of pipes keeps the invariant. -/
theorem next {d' : Data} {killed : Bool} {loc loc' : Loc} {input : Outside}
    (hnext : Pipes.next d killed loc input = .store d' loc') (h : d.Fifo) : d'.Fifo := by
  cases loc with
  | user result =>
    simp only [Pipes.next] at hnext
    (repeat' split at hnext) <;> cases hnext <;> exact h
  | writeLoop n i stored =>
    simp only [Pipes.next] at hnext
    (repeat' split at hnext) <;> cases hnext
    exact h.store (by simpa using ‹¬ d.pi.full = true›) _
  | readWait n =>
    simp only [Pipes.next] at hnext
    (repeat' split at hnext) <;> cases hnext
    exact h
  | readLoop n i =>
    simp only [Pipes.next] at hnext
    split at hnext
    · rename_i hloop
      cases hnext
      refine h.take ?_ _
      simp only [Bool.and_eq_true, Bool.not_eq_true'] at hloop
      exact hloop.2
    · cases hnext
  | close writable =>
    cases hnext
    exact h.close writable
  | closeFree =>
    cases hnext
    exact ⟨h.bound, h.length, h.order⟩
  | _ => cases hnext

theorem pipealloc (data : Fin PIPESIZE → UInt8) : (pipealloc data).Fifo :=
  ⟨by simp [Pipes.pipealloc, Data.count], by simp [Pipes.pipealloc, Data.count],
    fun _ ↦ by simp [Pipes.pipealloc, Data.buffer, Data.count, window]⟩

theorem order_iff (h : d.Fifo) :
    d.traffic.delivered ++ d.buffer = d.traffic.written ↔ d.traffic.failed = 0 := by
  refine ⟨fun horder ↦ ?_, h.order⟩
  have hlength := congrArg List.length horder
  rw [List.length_append, Data.length_buffer] at hlength
  have htotal := h.length
  omega

end Fifo

end Data

variable {Cpu : Type} [DecidableEq Cpu] {s : State kernel Cpu}

/-- The first process writes one byte, and then reads one byte with a result of `copyout`. -/
def writeRead (copyout : Bool) : List (Unit × Input kernel) :=
  let go (request : Request) : Unit × Input kernel :=
    ((), .go { request := request, copyin := some 42, copyout := copyout } false)
  -- The call does not matter while one is in progress.
  let steps (n : ℕ) := List.replicate n (go .fork)
  steps 4 ++ [go (.write 1)] ++ steps 194 ++ [go (.read 1)] ++ steps 195

end Xv6.Pipes
