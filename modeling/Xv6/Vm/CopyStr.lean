import Xv6.Vm.Copy
import Xv6.Vm.Proc

/-!
# Strings in User Memory

`copyinstr` copies a string up to its NUL, or fails if the string does not end within the given
number of bytes or leaves user memory before.  `fetchstr` and `argstr` of `kernel/syscall.c` return
the length of the string.
-/

namespace Xv6.Vm

open Lib

/-- `strlen`. -/
def strlen : List UInt8 → ℕ
  | [] => 0
  | byte :: bytes => if byte = 0 then 0 else strlen bytes + 1

/-- `fetchstr`: the result, and what is in `buf`. -/
def fetchstr (p : Proc) (addr max : ℕ) : VmM (ℤ × List UInt8) := do
  let (r, buf) ← copyinstr p.pagetable addr max
  if r then return (strlen buf, buf)
  else return (-1, buf)

/-- `argstr`, of the argument registers of the trapframe. -/
def argstr (p : Proc) (a : Fin 6 → ℕ) (n : Fin 6) (max : ℕ) : VmM (ℤ × List UInt8) :=
  fetchstr p (a n) max

variable {mem : Pages} {s : Phys} {pt va k max : ℕ} {bytes : List UInt8} {ok : Bool}
  {E : Stop → Prop}

theorem strlen_append (h : 0 ∉ bytes) : strlen (bytes ++ [0]) = bytes.length := by
  induction bytes with
  | nil => rfl
  | cons byte bytes ih =>
    rw [List.mem_cons, not_or] at h
    rw [List.cons_append, strlen, if_neg (Ne.symm h.1), ih h.2, List.length_cons]

/-- The string at `va` has length `k`. -/
def StringAt (mem : Pages) (pt va k : ℕ) : Prop :=
  userByte mem pt (va + k) = some 0 ∧ ∀ i < k, ∃ byte, userByte mem pt (va + i) = some byte ∧ byte ≠ 0

/-- What the inner loop of `copyinstr` stores. -/
theorem copyString_cases (bytes : List UInt8) :
    ((copyString bytes).2 = true ∧ ∃ text rest, bytes = text ++ 0 :: rest ∧ 0 ∉ text ∧
      (copyString bytes).1 = text ++ [0]) ∨
    ((copyString bytes).2 = false ∧ 0 ∉ bytes ∧ (copyString bytes).1 = bytes) := by
  induction bytes with
  | nil => exact .inr ⟨rfl, List.not_mem_nil, rfl⟩
  | cons byte bytes ih =>
    rw [copyString]
    by_cases hbyte : byte = 0
    · rw [if_pos hbyte, hbyte]
      exact .inl ⟨rfl, [], bytes, rfl, List.not_mem_nil, rfl⟩
    · rw [if_neg hbyte]
      rcases ih with ⟨hgot, text, rest, rfl, htext, hstored⟩ | ⟨hgot, hbytes, hstored⟩
      · refine .inl ⟨hgot, byte :: text, rest, rfl, ?_, ?_⟩
        · rw [List.mem_cons, not_or]
          exact ⟨Ne.symm hbyte, htext⟩
        · rw [hstored]
          rfl
      · refine .inr ⟨hgot, ?_, ?_⟩
        · rw [List.mem_cons, not_or]
          exact ⟨Ne.symm hbyte, hbytes⟩
        · rw [hstored]

/-- What `copyinstr` does: the bytes that it has stored are those of user memory, up to the first NUL,
or up to the limit or the end of user memory if there is none. -/
structure Scanned (mem : Pages) (pt va max : ℕ) (ok : Bool) (bytes : List UInt8) : Prop where
  le : bytes.length ≤ max
  read : Read mem pt va bytes
  stop : if ok then ∃ text, bytes = text ++ [0] ∧ 0 ∉ text
    else 0 ∉ bytes ∧ (bytes.length = max ∨ userFrame mem pt ((va + bytes.length) / PGSIZE) = none)

namespace Scanned

/-- A string that ends in the first round. -/
theorem found {text rest : List UInt8} (hread : Read mem pt va (text ++ 0 :: rest))
    (htext : 0 ∉ text) (hmax : (text ++ 0 :: rest).length ≤ max) :
    Scanned mem pt va max true (text ++ [0]) := by
  have hsplit : text ++ 0 :: rest = (text ++ [0]) ++ rest := by
    rw [List.append_assoc]
    rfl
  rw [hsplit] at hread hmax
  rw [List.length_append] at hmax
  exact ⟨by omega, hread.of_append.1, text, rfl, htext⟩

/-- The rounds after the first one. -/
theorem append {n : ℕ} {first : List UInt8} (hread : Read mem pt va first) (hfirst : 0 ∉ first)
    (hlength : first.length = n) (hn : n ≤ max) (h : Scanned mem pt (va + n) (max - n) ok bytes) :
    Scanned mem pt va max ok (first ++ bytes) := by
  subst hlength
  have hle := h.le
  refine ⟨by rw [List.length_append]; omega, hread.append h.read, ?_⟩
  have hstop := h.stop
  cases ok with
  | true =>
    obtain ⟨text, rfl, htext⟩ := hstop
    refine ⟨first ++ text, (List.append_assoc ..).symm, ?_⟩
    rw [List.mem_append, not_or]
    exact ⟨hfirst, htext⟩
  | false =>
    obtain ⟨hbytes, hend⟩ := hstop
    refine ⟨?_, ?_⟩
    · rw [List.mem_append, not_or]
      exact ⟨hfirst, hbytes⟩
    · rw [List.length_append, ← Nat.add_assoc]
      exact hend.imp_left fun heq ↦ by omega

/-- Where nothing is left to copy, the address does not matter. -/
theorem shift {va' : ℕ} (h : Scanned mem pt va' max ok bytes) (hva : max = 0 ∨ va' = va) :
    Scanned mem pt va max ok bytes := by
  rcases hva with rfl | rfl
  · obtain rfl : bytes = [] := List.length_eq_zero_iff.mp (Nat.le_zero.mp h.le)
    cases ok with
    | true =>
      obtain ⟨text, htext, -⟩ := h.stop
      exact absurd htext.symm (List.append_ne_nil_of_right_ne_nil _ (by simp))
    | false => exact ⟨le_rfl, .nil, List.not_mem_nil, .inl rfl⟩
  · exact h

end Scanned

section

variable (hpt : pt % PGSIZE = 0) (hnonzero : ∀ vpn, userFrame s.page pt vpn ≠ some 0)

include hpt hnonzero

theorem copyinstrLoop_spec {fuel : ℕ} (hfuel : max < fuel) :
    wp (copyinstrLoop pt fuel va max)
      (fun r s' ↦ s' = s ∧ Scanned s.page pt va max r.1 r.2) E s := by
  induction fuel generalizing va max with
  | zero => exact absurd hfuel (Nat.not_lt_zero _)
  | succ fuel ih =>
    rw [copyinstrLoop]
    split
    · rename_i hmax
      subst hmax
      exact (wp_pure _).mpr ⟨rfl, le_rfl, .nil, List.not_mem_nil, .inl rfl⟩
    · rename_i hmax
      rw [wp_bind]
      refine wp_walkaddr hpt (fun hnone ↦ ?_) fun frame hframe ↦ ?_
      · exact (wp_pure _).mpr ⟨rfl, Nat.zero_le _, .nil, List.not_mem_nil, .inr hnone⟩
      · have hframe' : frame ≠ 0 := fun heq ↦ hnonzero _ (heq ▸ hframe)
        obtain ⟨hin, hle, hpos, hnext⟩ := next_round max (lt_of_userFrame hframe)
        have hpos := hpos hmax
        have hread := read_chunk hframe hin
        have hlength := Buffer.length_getBytes (s.page frame) (va % PGSIZE)
          (min (PGSIZE - va % PGSIZE) max)
        rw [if_neg (Nat.mul_ne_zero hframe' (by decide)), sub_pgrounddown, wp_bind, wp_memmoveFrom,
          frame_div, frame_mod]
        generalize (s.page frame).getBytes (va % PGSIZE) (min (PGSIZE - va % PGSIZE) max) = first
          at hread hlength
        rcases copyString_cases first with ⟨hgot, text, rest, rfl, htext, hstored⟩ |
          ⟨hgot, hfirst, hstored⟩
        · dsimp only
          rw [hgot, hstored, if_pos rfl]
          exact (wp_pure _).mpr ⟨rfl, .found hread htext (hlength ▸ hle)⟩
        · dsimp only
          rw [hgot, hstored, if_neg (by decide), wp_bind]
          refine wp_post (ih (by omega)) ?_
          rintro ⟨r, rest⟩ s ⟨rfl, hscanned⟩
          exact (wp_pure _).mpr ⟨rfl, .append hread hfirst hlength hle (hscanned.shift hnext)⟩

theorem copyinstr_spec (va max : ℕ) :
    wp (copyinstr pt va max) (fun r s' ↦ s' = s ∧ Scanned s.page pt va max r.1 r.2) E s :=
  copyinstrLoop_spec hpt hnonzero (Nat.lt_succ_self _)

end

/-- A string has one length. -/
theorem StringAt.unique {k' : ℕ} (h : StringAt mem pt va k) (h' : StringAt mem pt va k') : k = k' := by
  have hle {k k' : ℕ} (h : StringAt mem pt va k) (h' : StringAt mem pt va k') : k ≤ k' := by
    by_contra hlt
    obtain ⟨byte, hbyte, hne⟩ := h.2 k' (Nat.lt_of_not_le hlt)
    rw [h'.1] at hbyte
    exact hne (Option.some.inj hbyte).symm
  exact Nat.le_antisymm (hle h h') (hle h' h)

theorem userByte_eq_none (h : userFrame mem pt (va / PGSIZE) = none) : userByte mem pt va = none := by
  rw [userByte, place, h]
  rfl

/-- A string that was found. -/
theorem Scanned.stringAt (h : Scanned mem pt va max true bytes) :
    ∃ k < max, StringAt mem pt va k ∧ bytes.length = k + 1 ∧ strlen bytes = k := by
  have hle := h.le
  obtain ⟨text, rfl, htext⟩ : ∃ text, bytes = text ++ [0] ∧ 0 ∉ text := h.stop
  have hlength : (text ++ [0]).length = text.length + 1 := List.length_append
  rw [hlength] at hle
  refine ⟨text.length, hle, ⟨?_, fun i hi ↦ ⟨text[i], ?_, fun hzero ↦ ?_⟩⟩, hlength,
    strlen_append htext⟩
  · rw [h.read _ (by omega), List.getElem?_concat_length]
  · rw [h.read i (by omega), List.getElem?_append_left hi, List.getElem?_eq_getElem hi]
  · exact htext (hzero ▸ List.getElem_mem hi)

/-- No string was found. -/
theorem Scanned.not_stringAt (h : Scanned mem pt va max false bytes) (hk : k < max) :
    ¬ StringAt mem pt va k := by
  intro hstring
  obtain ⟨hbytes, hend⟩ : 0 ∉ bytes ∧
    (bytes.length = max ∨ userFrame mem pt ((va + bytes.length) / PGSIZE) = none) := h.stop
  by_cases hlt : k < bytes.length
  · have hread := h.read k hlt
    rw [hstring.1, List.getElem?_eq_getElem hlt] at hread
    exact hbytes (Option.some.inj hread ▸ List.getElem_mem hlt)
  · have hnone := userByte_eq_none (hend.resolve_left (by omega))
    rcases Nat.eq_or_lt_of_le (Nat.not_lt.mp hlt) with heq | hlt
    · rw [heq, hstring.1] at hnone
      cases hnone
    · obtain ⟨byte, hbyte, -⟩ := hstring.2 _ hlt
      rw [hbyte] at hnone
      cases hnone

/-- The first byte of a page of zeros is the end of a string. -/
theorem stringAt_zero {frame : ℕ} (hframe : userFrame mem pt 0 = some frame)
    (hzero : mem frame = .fill 0) : StringAt mem pt 0 0 := by
  refine ⟨?_, fun _ hi ↦ absurd hi (Nat.not_lt_zero _)⟩
  rw [userByte, place, Nat.zero_div, hframe, Option.map_some, Option.map_some, hzero]
  rfl

end Xv6.Vm
