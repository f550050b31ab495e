import Xv6.Fs.Table

/-!
# Names and Directory Entries

The comparison of names is equality up to the terminating NUL, and a directory is a sequence of
entries: storing one leaves the others as they were.
-/

namespace Xv6.Fs

open Lib

/-! ## Names -/

/-- The characters of a name of at most `n` bytes. -/
def cstr (n : ℕ) (name : List UInt8) : List UInt8 := (name.take n).takeWhile (· ≠ 0)

theorem cstr_succ (n : ℕ) (name : List UInt8) :
    cstr (n + 1) name = if name.headD 0 = 0 then [] else name.headD 0 :: cstr n name.tail := by
  cases name with
  | nil => simp [cstr]
  | cons c name => by_cases hc : c = 0 <;> simp [cstr, hc]

/-- `strncmp` returns 0 for equal strings. -/
theorem strncmp_eq_zero_iff (n : ℕ) (p q : List UInt8) : strncmp p q n = 0 ↔ cstr n p = cstr n q := by
  induction n generalizing p q with
  | zero => simp [strncmp, cstr]
  | succ n ih =>
    rw [strncmp, cstr_succ, cstr_succ]
    generalize p.headD 0 = a, q.headD 0 = b
    have hsub : (a.toNat : ℤ) - b.toNat = 0 ↔ a = b := by
      rw [sub_eq_zero, Int.natCast_inj, UInt8.toNat_inj]
    by_cases ha : a = 0
    · rw [if_neg fun h ↦ h.1 ha, hsub, if_pos ha, ha]
      by_cases hb : b = 0
      · simp [hb]
      · rw [if_neg hb]
        exact iff_of_false (fun h ↦ hb h.symm) (by simp)
    · rw [if_neg ha]
      by_cases hab : a = b
      · rw [if_pos ⟨ha, hab⟩, ih, ← hab, if_neg ha]
        simp
      · rw [if_neg fun h ↦ hab h.2, hsub]
        refine iff_of_false hab fun h ↦ hab ?_
        split at h
        · cases h
        · exact (List.cons.inj h).1

theorem namecmp_eq_zero_iff (p q : List UInt8) :
    namecmp p q = 0 ↔ cstr DIRSIZ p = cstr DIRSIZ q :=
  strncmp_eq_zero_iff DIRSIZ p q

@[simp]
theorem length_strncpy (n : ℕ) (t : List UInt8) : (strncpy t n).length = n := by
  induction n generalizing t with
  | zero => rfl
  | succ n ih =>
    rw [strncpy]
    split
    · simp
    · simp [ih]

/-- `strncpy` copies the string. -/
@[simp]
theorem cstr_strncpy (n : ℕ) (t : List UInt8) : cstr n (strncpy t n) = cstr n t := by
  induction n generalizing t with
  | zero => simp [cstr]
  | succ n ih =>
    rw [cstr_succ, cstr_succ, strncpy]
    split
    · rfl
    · rename_i hne
      rw [List.headD_cons, if_neg hne, List.tail_cons, ih]

/-! ## Entries -/

/-- The entry fits in its 16 bytes. -/
structure Dirent.InRange (de : Dirent) : Prop where
  inum : de.inum < 2 ^ 16
  name : de.name.length = DIRSIZ

theorem length_dirent {de : Dirent} (h : de.InRange) : de.encode.length = DIRENT := by
  rw [Dirent.encode, List.length_append, length_leBytes, h.name]
  decide

theorem decode_encode {de : Dirent} (h : de.InRange) : Dirent.decode de.encode = de := by
  have htake : (leBytes 2 de.inum ++ de.name).take 2 = leBytes 2 de.inum := by
    rw [List.take_append_of_le_length (by simp), List.take_of_length_le (by simp)]
  have hdrop : ((leBytes 2 de.inum ++ de.name).drop 2).take DIRSIZ = de.name := by
    rw [List.drop_append_of_le_length (by simp), List.drop_of_length_le (by simp), List.nil_append,
      List.take_of_length_le (by rw [h.name])]
  rw [Dirent.decode, Dirent.encode, htake, hdrop, leValue_leBytes,
    Nat.mod_eq_of_lt (by exact h.inum)]

/-- An empty entry, as `sys_unlink` writes it. -/
def Dirent.empty : Dirent where
  inum := 0
  name := List.replicate DIRSIZ 0

theorem Dirent.empty_inRange : Dirent.empty.InRange := by
  refine ⟨by decide, ?_⟩
  decide

/-- The entry that `dirlink` writes. -/
def Dirent.make (name : List UInt8) (inum : ℕ) : Dirent where
  inum := inum
  name := strncpy name DIRSIZ

namespace Node

/-- Store entry `k` of a directory. -/
def setDirent (n : Node) (k : ℕ) (de : Dirent) : Node :=
  n.setContents (max n.size (DIRENT * k + DIRENT)) fun x ↦
    if DIRENT * k ≤ x ∧ x < DIRENT * k + DIRENT then de.encode.getD (x - DIRENT * k) 0 else n.byte x

theorem dirent_congr {n n' : Node} {k : ℕ} (h : ∀ x, x < DIRENT →
    n'.byte (DIRENT * k + x) = n.byte (DIRENT * k + x)) : n'.dirent k = n.dirent k := by
  rw [dirent, dirent, bytes, bytes, List.map_congr_left fun x hx ↦ h x (List.mem_range.mp hx)]

theorem dirent_setDirent_self (n : Node) (k : ℕ) {de : Dirent} (h : de.InRange) :
    (n.setDirent k de).dirent k = de := by
  have hbytes : (n.setDirent k de).bytes (DIRENT * k) DIRENT = de.encode := by
    apply List.ext_getElem
    · simp [bytes, length_dirent h]
    · intro x hx hx'
      simp only [bytes, List.getElem_map, List.getElem_range, setDirent, setContents]
      have hlt : x < DIRENT := by simpa [bytes] using hx
      rw [if_pos (by omega), Nat.add_sub_cancel_left]
      simp [hx']
  rw [dirent, hbytes, decode_encode h]

theorem dirent_setDirent_of_ne (n : Node) {k k' : ℕ} (de : Dirent) (hne : k' ≠ k) :
    (n.setDirent k de).dirent k' = n.dirent k' := by
  refine dirent_congr fun x hx ↦ ?_
  simp only [setDirent, setContents]
  rw [if_neg]
  simp only [DIRENT] at *
  omega

theorem size_setDirent (n : Node) (k : ℕ) (de : Dirent) :
    (n.setDirent k de).size = max n.size (DIRENT * k + DIRENT) := rfl

/-- The entries of a directory that are in use, by their index. -/
def Entry (n : Node) (k : ℕ) : Prop := DIRENT * k < n.size ∧ (n.dirent k).inum ≠ 0

/-- Entry `k` is in use and has the name. -/
def Finds (n : Node) (name : List UInt8) (k : ℕ) : Prop :=
  n.Entry k ∧ namecmp name (n.dirent k).name = 0

instance (n : Node) (k : ℕ) : Decidable (n.Entry k) :=
  inferInstanceAs (Decidable (DIRENT * k < n.size ∧ (n.dirent k).inum ≠ 0))

/-- The name of an entry. -/
def key (n : Node) (k : ℕ) : List UInt8 := cstr DIRSIZ (n.dirent k).name

/-- The i-number bound to a name, and the offset of the entry. -/
def lookup (n : Node) (key : List UInt8) : Option (ℕ × ℕ) :=
  ((List.range (n.size / DIRENT + 1)).find? fun k ↦ decide (n.Entry k ∧ n.key k = key)).map
    fun k ↦ ((n.dirent k).inum, DIRENT * k)

theorem finds_iff {n : Node} {name : List UInt8} {k : ℕ} :
    n.Finds name k ↔ n.Entry k ∧ n.key k = cstr DIRSIZ name := by
  rw [Finds, namecmp_eq_zero_iff, key]
  exact and_congr_right fun _ ↦ eq_comm

theorem lookup_eq_none {n : Node} {name : List UInt8} (hnot : ∀ j, ¬ n.Finds name j) :
    n.lookup (cstr DIRSIZ name) = none := by
  rw [lookup, Option.map_eq_none_iff, List.find?_eq_none]
  intro k _ hk
  exact hnot k (finds_iff.mpr (of_decide_eq_true hk))

/-- The first entry with the name is the one bound to it. -/
theorem lookup_first {n : Node} {name : List UInt8} {k : ℕ} (h : n.Finds name k)
    (hfirst : ∀ j, j < k → ¬ n.Finds name j) :
    n.lookup (cstr DIRSIZ name) = some ((n.dirent k).inum, DIRENT * k) := by
  have hlt : k < n.size / DIRENT + 1 := by
    have := h.1.1
    simp only [DIRENT] at *
    omega
  have hfind : ((List.range (n.size / DIRENT + 1)).find? fun k ↦
      decide (n.Entry k ∧ n.key k = cstr DIRSIZ name)) = some k := by
    rw [List.find?_range_eq_some]
    refine ⟨decide_eq_true (finds_iff.mp h), List.mem_range.mpr hlt, fun j hj ↦ ?_⟩
    rw [Bool.not_eq_true', decide_eq_false_iff_not, ← finds_iff]
    exact hfirst j hj
  rw [lookup, hfind, Option.map_some]

/-- Entry `k` is empty or the first one after the end. -/
def Slot (n : Node) (k : ℕ) : Prop :=
  DIRENT * k = n.size ∨ (DIRENT * k < n.size ∧ (n.dirent k).inum = 0)

/-- No entry has the name, and there is no room for another one. -/
structure Full (n : Node) (name : List UInt8) : Prop where
  size : MAXFILE * BSIZE ≤ n.size
  used : ∀ k, DIRENT * k < n.size → (n.dirent k).inum ≠ 0
  new : ∀ k, ¬ n.Finds name k

theorem Slot.le {n : Node} {k : ℕ} (h : n.Slot k) : DIRENT * k ≤ n.size :=
  h.elim Eq.le fun hlt ↦ hlt.1.le

/-- The entries in use after storing one that starts at the end or before it. -/
theorem entry_setDirent {n : Node} {k : ℕ} {de : Dirent} (hde : de.InRange)
    (hk : DIRENT * k ≤ n.size) (j : ℕ) :
    (n.setDirent k de).Entry j ↔ if j = k then de.inum ≠ 0 else n.Entry j := by
  rw [Entry, size_setDirent]
  split
  · rename_i heq
    rw [heq, dirent_setDirent_self n k hde]
    exact and_iff_right (lt_max_of_lt_right (Nat.lt_add_of_pos_right (by decide)))
  · rename_i hne
    rw [dirent_setDirent_of_ne n de hne, Entry]
    refine and_congr_left fun _ ↦ ?_
    rw [lt_max_iff]
    simp only [DIRENT] at *
    omega

end Node

end Xv6.Fs
