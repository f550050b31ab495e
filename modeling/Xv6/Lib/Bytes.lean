import Mathlib.Data.List.Basic
import Mathlib.Tactic

/-!
# Little-Endian Byte Fields

Integers stored in byte buffers, and fixed-size buffers in which a run of bytes can be read or
replaced.  Reads past the end give zero and writes past the end are dropped, so that offsets are
plain natural numbers; the laws that need it say that the field lies inside the buffer.
-/

namespace Xv6.Lib

/-- The integer denoted by a list of bytes, least significant byte first. -/
def leValue : List UInt8 → ℕ
  | [] => 0
  | byte :: bytes => byte.toNat + 256 * leValue bytes

/-- The low `width` bytes of an integer, least significant byte first. -/
def leBytes : ℕ → ℕ → List UInt8
  | 0, _ => []
  | width + 1, value => UInt8.ofNat value :: leBytes width (value / 256)

@[simp]
theorem length_leBytes (width value : ℕ) : (leBytes width value).length = width := by
  induction width generalizing value with
  | zero => rfl
  | succ width ih => simp [leBytes, ih]

/-- Decoding an encoded integer truncates it to the width of the field. -/
theorem leValue_leBytes (width value : ℕ) :
    leValue (leBytes width value) = value % 256 ^ width := by
  induction width generalizing value with
  | zero => simp [leBytes, leValue, Nat.mod_one]
  | succ width ih =>
    have hbyte : (UInt8.ofNat value).toNat = value % 256 := by simp
    rw [leBytes, leValue, ih, hbyte, Nat.pow_succ, Nat.mul_comm (256 ^ width) 256, Nat.mod_mul]

theorem leValue_lt (bytes : List UInt8) : leValue bytes < 256 ^ bytes.length := by
  induction bytes with
  | nil => simp [leValue]
  | cons byte bytes ih =>
    have hbyte : byte.toNat < 256 := byte.toNat_lt
    rw [leValue, List.length_cons, Nat.pow_succ]
    omega

theorem leValue_replicate_zero (count : ℕ) : leValue (List.replicate count 0) = 0 := by
  induction count with
  | zero => rfl
  | succ count ih => rw [List.replicate_succ, leValue, ih]; rfl

/-- A buffer of a fixed number of bytes. -/
@[ext]
structure Buffer (size : ℕ) where
  byte : Fin size → UInt8

namespace Buffer

variable {size : ℕ}

/-- The byte at an offset. -/
def get (buffer : Buffer size) (offset : ℕ) : UInt8 :=
  if h : offset < size then buffer.byte ⟨offset, h⟩ else 0

theorem ext_get {buffer buffer' : Buffer size} (h : ∀ offset, buffer.get offset = buffer'.get offset) :
    buffer = buffer' := by
  ext index
  have hindex := h index.val
  rw [get, get, dif_pos index.isLt, dif_pos index.isLt] at hindex
  rw [hindex]

/-- All bytes the same. -/
def fill (value : UInt8) : Buffer size := ⟨fun _ ↦ value⟩

/-- A run of bytes starting at an offset. -/
def getBytes (buffer : Buffer size) (offset count : ℕ) : List UInt8 :=
  (List.range count).map fun index ↦ buffer.get (offset + index)

/-- Replace the bytes from an offset on. -/
def setBytes (buffer : Buffer size) (offset : ℕ) (bytes : List UInt8) : Buffer size where
  byte index := if offset ≤ index.val ∧ index.val < offset + bytes.length then
    bytes.getD (index.val - offset) 0 else buffer.byte index

@[simp]
theorem length_getBytes (buffer : Buffer size) (offset count : ℕ) :
    (buffer.getBytes offset count).length = count := by
  simp [getBytes]

theorem get_setBytes (buffer : Buffer size) (offset : ℕ) (bytes : List UInt8) (index : ℕ)
    (hindex : index < size) :
    (buffer.setBytes offset bytes).get index =
      if offset ≤ index ∧ index < offset + bytes.length then
        bytes.getD (index - offset) 0 else buffer.get index := by
  simp [get, setBytes, hindex]

/-- Reading back the bytes just stored. -/
theorem getBytes_setBytes_self (buffer : Buffer size) (offset : ℕ) (bytes : List UInt8)
    (hfits : offset + bytes.length ≤ size) :
    (buffer.setBytes offset bytes).getBytes offset bytes.length = bytes := by
  apply List.ext_getElem
  · simp
  · intro index hleft hright
    have hindex : offset + index < size := by
      simp only [length_getBytes] at hleft
      omega
    simp only [getBytes, List.getElem_map, List.getElem_range]
    rw [get_setBytes _ _ _ _ hindex]
    simp [hright]

/-- A field disjoint from the bytes just stored is unchanged. -/
theorem getBytes_setBytes_of_disjoint (buffer : Buffer size) (offset : ℕ) (bytes : List UInt8)
    (other count : ℕ) (hdisjoint : other + count ≤ offset ∨ offset + bytes.length ≤ other) :
    (buffer.setBytes offset bytes).getBytes other count = buffer.getBytes other count := by
  apply List.map_congr_left
  intro index hindex
  have hindex : index < count := List.mem_range.mp hindex
  by_cases hsize : other + index < size
  · rw [get_setBytes _ _ _ _ hsize, if_neg]
    omega
  · simp [get, hsize]

/-- Reading a part of the bytes just stored. -/
theorem getBytes_setBytes_inside (buffer : Buffer size) (offset : ℕ) (bytes : List UInt8)
    (start count : ℕ) (hfits : offset + bytes.length ≤ size)
    (hinside : start + count ≤ bytes.length) :
    (buffer.setBytes offset bytes).getBytes (offset + start) count =
      (bytes.drop start).take count := by
  apply List.ext_getElem
  · simp only [length_getBytes, List.length_take, List.length_drop]
    omega
  · intro index hleft hright
    simp only [length_getBytes] at hleft
    have hbyte : start + index < bytes.length := by omega
    simp only [getBytes, List.getElem_map, List.getElem_range, List.getElem_take,
      List.getElem_drop]
    rw [get_setBytes _ _ _ _ (by omega), if_pos (by omega), Nat.add_assoc, Nat.add_sub_cancel_left]
    simp [hbyte]

theorem getBytes_fill_zero (offset count : ℕ) :
    (fill 0 : Buffer size).getBytes offset count = List.replicate count 0 := by
  rw [getBytes, List.eq_replicate_iff]
  simp [get, fill]

/-- A little-endian integer field of `width` bytes. -/
def getLE (buffer : Buffer size) (width offset : ℕ) : ℕ :=
  leValue (buffer.getBytes offset width)

/-- Store an integer into a little-endian field of `width` bytes. -/
def setLE (buffer : Buffer size) (width offset value : ℕ) : Buffer size :=
  buffer.setBytes offset (leBytes width value)

theorem getLE_setLE_self (buffer : Buffer size) (width offset value : ℕ)
    (hfits : offset + width ≤ size) :
    (buffer.setLE width offset value).getLE width offset = value % 256 ^ width := by
  have hread := getBytes_setBytes_self buffer offset (leBytes width value) (by simpa using hfits)
  rw [length_leBytes] at hread
  rw [getLE, setLE, hread, leValue_leBytes]

theorem getLE_setLE_of_disjoint (buffer : Buffer size) (width offset value width' other : ℕ)
    (hdisjoint : other + width' ≤ offset ∨ offset + width ≤ other) :
    (buffer.setLE width offset value).getLE width' other = buffer.getLE width' other := by
  rw [getLE, setLE, getBytes_setBytes_of_disjoint _ _ _ _ _ (by simpa using hdisjoint), getLE]

/-- An integer field inside the bytes just stored. -/
theorem getLE_setBytes_inside (buffer : Buffer size) (offset : ℕ) (bytes : List UInt8)
    (width start : ℕ) (hfits : offset + bytes.length ≤ size)
    (hinside : start + width ≤ bytes.length) :
    (buffer.setBytes offset bytes).getLE width (offset + start) =
      leValue ((bytes.drop start).take width) := by
  rw [getLE, getBytes_setBytes_inside _ _ _ _ _ hfits hinside]

theorem getLE_setBytes_of_disjoint (buffer : Buffer size) (offset : ℕ) (bytes : List UInt8)
    (width other : ℕ) (hdisjoint : other + width ≤ offset ∨ offset + bytes.length ≤ other) :
    (buffer.setBytes offset bytes).getLE width other = buffer.getLE width other := by
  rw [getLE, getBytes_setBytes_of_disjoint _ _ _ _ _ hdisjoint, getLE]

theorem getLE_fill_zero (width offset : ℕ) : (fill 0 : Buffer size).getLE width offset = 0 := by
  rw [getLE, getBytes_fill_zero, leValue_replicate_zero]

theorem getLE_lt (buffer : Buffer size) (width offset : ℕ) :
    buffer.getLE width offset < 256 ^ width := by
  simpa [getLE] using leValue_lt (buffer.getBytes offset width)

end Buffer

end Xv6.Lib
