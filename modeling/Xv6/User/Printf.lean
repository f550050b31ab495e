import Mathlib.Data.Nat.Digits.Lemmas
import Mathlib.Tactic

/-!
# Printed Numbers

A model of `printint`, `printptr` and `vprintf` of `user/printf.c`.  The arguments are 64-bit slots, of
which a directive for an `int` takes the lower half.  `printint` has a parameter of type `int`, so
`%l`, which passes it a `uint64`, prints the lower half as well.
-/

namespace Xv6.User

/-- A character of the source. -/
def char (c : Char) : UInt8 := UInt8.ofNat c.toNat

/-- `digits[k]`. -/
def digit (k : ℕ) : UInt8 := ("0123456789ABCDEF".toList.map char).getD k 0

/-- The size of `buf` in `printint`. -/
abbrev PRINTBUF : ℕ := 16

/-- `buf[i++] = c`, in a buffer that holds the bytes stored so far. -/
def put (buf : List UInt8) (c : UInt8) : Option (List UInt8) :=
  if buf.length < PRINTBUF then some (buf ++ [c]) else none

/-- The loop of `printint`; `room` bytes of the buffer are left. -/
def printintLoop (base : UInt32) : ℕ → UInt32 → List UInt8 → Option (List UInt8)
  | 0, _, _ => none
  | room + 1, x, buf =>
    let buf := buf ++ [digit (x % base).toNat]
    if x / base ≠ 0 then printintLoop base room (x / base) buf else some buf

/-- `printint`: the characters it prints, or nothing if it stores past its buffer. -/
def printint (xx : Int32) (base : UInt32) (sgn : Bool) : Option (List UInt8) := do
  let neg := sgn && xx < 0
  let x := if neg then (-xx).toUInt32 else xx.toUInt32
  let buf ← printintLoop base PRINTBUF x []
  let buf ← if neg then put buf (char '-') else some buf
  return buf.reverse

/-- The loop of `printptr`. -/
def printptrLoop : ℕ → UInt64 → List UInt8
  | 0, _ => []
  | n + 1, x => digit (x >>> 60).toNat :: printptrLoop n (x <<< 4)

/-- `printptr`. -/
def printptr (x : UInt64) : List UInt8 := char '0' :: char 'x' :: printptrLoop 16 x

/-- The arguments that are left. -/
abbrev VaList := ℕ → UInt64

/-- The arguments behind the first one. -/
def VaList.rest (ap : VaList) : VaList := fun k ↦ ap (k + 1)

/-- `va_arg(ap, int)`, and `va_arg(ap, uint64)` passed as an `int`. -/
def VaList.int (ap : VaList) : Int32 := (ap 0).toUInt32.toInt32

/-- The characters for the directive `%c`, and the arguments that are left; `str` gives the string
at an address. -/
def directive (str : UInt64 → List UInt8) (c : UInt8) (ap : VaList) :
    Option (List UInt8 × VaList) :=
  if c = char 'd' then (printint ap.int 10 true).map (·, ap.rest)
  else if c = char 'l' then (printint ap.int 10 false).map (·, ap.rest)
  else if c = char 'x' then (printint ap.int 16 false).map (·, ap.rest)
  else if c = char 'p' then some (printptr (ap 0), ap.rest)
  else if c = char 's' then
    some (if ap 0 = 0 then "(null)".toList.map char else str (ap 0), ap.rest)
  else if c = char 'c' then some ([(ap 0).toUInt8], ap.rest)
  else if c = char '%' then some ([c], ap)
  else some ([char '%', c], ap)

/-- `vprintf`; `percent` says that `state` is `'%'`. -/
def vprintf (str : UInt64 → List UInt8) : List UInt8 → Bool → VaList → Option (List UInt8)
  | [], _, _ => some []
  | c :: fmt, false, ap =>
    if c = char '%' then vprintf str fmt true ap
    else (vprintf str fmt false ap).map (c :: ·)
  | c :: fmt, true, ap => do
      let (text, ap) ← directive str c ap
      let rest ← vprintf str fmt false ap
      return text ++ rest

/-! ## Reading back -/

/-- The digit that a character stands for. -/
def digitValue (base : ℕ) (c : UInt8) : Option ℕ := (List.range base).find? fun k ↦ digit k = c

/-- The number that a numeral stands for. -/
def readNat (base : ℕ) (text : List UInt8) : Option ℕ :=
  if text = [] then none
  else (text.mapM (digitValue base)).map fun ds ↦ Nat.ofDigits base ds.reverse

/-- A numeral with an optional minus sign. -/
def readInt (base : ℕ) (text : List UInt8) : Option ℤ :=
  match text with
  | [] => none
  | c :: rest =>
    if c = char '-' then (readNat base rest).map fun k : ℕ ↦ -(k : ℤ)
    else (readNat base text).map fun k : ℕ ↦ (k : ℤ)

/-- A hexadecimal numeral with `0x` before it. -/
def readPtr : List UInt8 → Option ℤ
  | c :: c' :: text => if c = char '0' ∧ c' = char 'x' then readInt 16 text else none
  | _ => none

/-- The directives for numbers. -/
inductive Directive where
  | d
  | x
  | p
  | l
  deriving DecidableEq

namespace Directive

/-- The character behind `%`. -/
def char : Directive → UInt8
  | d => User.char 'd'
  | x => User.char 'x'
  | p => User.char 'p'
  | l => User.char 'l'

/-- The argument that is passed: an `int`, a `uint` or a `uint64`. -/
def argument (slot : UInt64) : Directive → ℤ
  | d => slot.toUInt32.toInt32.toInt
  | x => slot.toUInt32.toNat
  | p | l => slot.toNat

/-- How the characters are read back. -/
def read (text : List UInt8) : Directive → Option ℤ
  | d | l => readInt 10 text
  | x => readInt 16 text
  | p => readPtr text

end Directive

/-! ## Numerals -/

/-- A base that `vprintf` uses. -/
structure IsBase (base : ℕ) : Prop where
  one_lt : 1 < base
  le : base ≤ 16

theorem digitValue_digit {base k : ℕ} (hbase : IsBase base) (hk : k < base) :
    digitValue base (digit k) = some k := by
  have hall : ∀ b, b ≤ 16 → ∀ k, k < b → digitValue b (digit k) = some k := by decide
  exact hall base hbase.le k hk

theorem digit_ne_minus {k : ℕ} (hk : k < 16) : digit k ≠ char '-' := by
  have hall : ∀ k, k < 16 → digit k ≠ char '-' := by decide
  exact hall k hk

/-- Digits are read back, the last one first. -/
theorem readNat_digits {base : ℕ} (hbase : IsBase base) {ds : List ℕ} (hne : ds ≠ [])
    (hds : ∀ d ∈ ds, d < base) :
    readNat base (ds.map digit).reverse = some (Nat.ofDigits base ds) := by
  have hmap : ∀ ds : List ℕ, (∀ d ∈ ds, d < base) →
      (ds.map digit).mapM (digitValue base) = some ds := by
    intro ds
    induction ds with
    | nil => exact fun _ ↦ rfl
    | cons d ds ih =>
      intro hds
      rw [List.map_cons, List.mapM_cons, digitValue_digit hbase (hds d (by simp)),
        ih fun d' hd' ↦ hds d' (by simp [hd'])]
      rfl
  rw [readNat, if_neg (by simpa using hne), ← List.map_reverse,
    hmap _ fun d hd ↦ hds d (List.mem_reverse.mp hd), Option.map_some, List.reverse_reverse]

/-- A numeral without a sign. -/
theorem readInt_digits {base : ℕ} (hbase : IsBase base) {ds : List ℕ} (hne : ds ≠ [])
    (hds : ∀ d ∈ ds, d < base) :
    readInt base (ds.map digit).reverse = some ((Nat.ofDigits base ds : ℕ) : ℤ) := by
  have hread := readNat_digits hbase hne hds
  cases htext : (ds.map digit).reverse with
  | nil =>
    rw [htext] at hread
    cases hread
  | cons c text =>
    obtain ⟨d, hd, rfl⟩ : ∃ d ∈ ds, digit d = c := by
      have hc : c ∈ (ds.map digit).reverse := by simp [htext]
      simpa using hc
    have hc : digit d ≠ char '-' := digit_ne_minus (lt_of_lt_of_le (hds d hd) hbase.le)
    rw [htext] at hread
    rw [readInt, if_neg hc, hread, Option.map_some]

/-- The digits that the loop of `printint` stores, the last one first. -/
def numeral (base n : ℕ) : List ℕ := n % base :: Nat.digits base (n / base)

section Numeral

variable {base : ℕ} (n : ℕ)

theorem ofDigits_numeral (base n : ℕ) : Nat.ofDigits base (numeral base n) = n := by
  rw [numeral, Nat.ofDigits_cons, Nat.ofDigits_digits]
  exact Nat.mod_add_div n base

variable (hbase : IsBase base)

include hbase

theorem numeral_lt : ∀ d ∈ numeral base n, d < base := by
  intro d hd
  rcases List.mem_cons.mp hd with rfl | hd
  · exact Nat.mod_lt _ (by have := hbase.one_lt; omega)
  · exact Nat.digits_lt_base hbase.one_lt hd

theorem length_numeral_le {k : ℕ} (hn : n < base ^ (k + 1)) : (numeral base n).length ≤ k + 1 := by
  have hdiv : n / base < base ^ k := by
    rw [Nat.div_lt_iff_lt_mul (by have := hbase.one_lt; omega), ← pow_succ]
    exact hn
  rw [numeral, List.length_cons]
  exact Nat.succ_le_succ ((Nat.digits_length_le_iff hbase.one_lt _).mpr hdiv)

end Numeral

/-- The loop of `printint` stores the digits, if there is room for them. -/
theorem printintLoop_eq {base : UInt32} (hbase : IsBase base.toNat) {room : ℕ} {x : UInt32}
    (hx : x.toNat < base.toNat ^ (room + 1)) (buf : List UInt8) :
    printintLoop base (room + 1) x buf = some (buf ++ (numeral base.toNat x.toNat).map digit) := by
  induction room generalizing x buf with
  | zero =>
    have hdiv : x / base = 0 := by
      rw [← UInt32.toNat_inj, UInt32.toNat_div]
      exact Nat.div_eq_of_lt (by simpa using hx)
    rw [printintLoop, if_neg (by simpa using hdiv), numeral, ← UInt32.toNat_div, hdiv]
    simp
  | succ room ih =>
    rw [printintLoop]
    split
    · rename_i hmore
      have hrest : (x / base).toNat < base.toNat ^ (room + 1) := by
        rw [UInt32.toNat_div, Nat.div_lt_iff_lt_mul (by have := hbase.one_lt; omega), ← pow_succ]
        exact hx
      have hpos : 0 < x.toNat / base.toNat := by
        rw [← UInt32.toNat_div]
        exact Nat.pos_of_ne_zero fun hzero ↦ hmore (UInt32.toNat_inj.mp hzero)
      rw [ih hrest, List.append_assoc, numeral, numeral, Nat.digits_def' hbase.one_lt hpos,
        UInt32.toNat_div, UInt32.toNat_mod]
      rfl
    · rename_i hlast
      have hdiv : x / base = 0 := not_not.mp hlast
      rw [numeral, ← UInt32.toNat_div, hdiv]
      simp

/-- A number that is not negative, or is taken as unsigned. -/
theorem printint_unsigned {base : UInt32} (hbase : IsBase base.toNat)
    (hroom : 2 ^ 32 ≤ base.toNat ^ 10) {xx : Int32} {sgn : Bool} (hsgn : (sgn && xx < 0) = false) :
    printint xx base sgn =
      some ((numeral base.toNat xx.toUInt32.toNat).map digit).reverse := by
  have hx : xx.toUInt32.toNat < base.toNat ^ (15 + 1) :=
    calc
      xx.toUInt32.toNat < 2 ^ 32 := xx.toUInt32.toNat_lt
      _ ≤ base.toNat ^ 10 := hroom
      _ ≤ base.toNat ^ (15 + 1) :=
        Nat.pow_le_pow_right (by have := hbase.one_lt; omega) (by decide)
  rw [printint]
  simp only [hsgn, Bool.false_eq_true, if_false]
  rw [printintLoop_eq hbase hx]
  rfl

/-- A negative number. -/
theorem printint_signed {xx : Int32} (hneg : xx < 0) :
    printint xx 10 true =
      some (char '-' :: ((numeral 10 (-xx).toUInt32.toNat).map digit).reverse) := by
  have hbase : IsBase (10 : UInt32).toNat := ⟨by decide, by decide⟩
  have hx : (-xx).toUInt32.toNat < (10 : UInt32).toNat ^ (9 + 1) :=
    lt_of_lt_of_le (-xx).toUInt32.toNat_lt (by decide)
  have hlength := length_numeral_le _ hbase hx
  have hx' : (-xx).toUInt32.toNat < (10 : UInt32).toNat ^ (15 + 1) := lt_of_lt_of_le hx (by decide)
  have hroom : ((numeral (10 : UInt32).toNat (-xx).toUInt32.toNat).map digit).length < PRINTBUF := by
    rw [List.length_map, PRINTBUF]
    omega
  rw [printint]
  simp only [hneg, decide_true, Bool.and_self, if_true]
  rw [printintLoop_eq hbase hx', List.nil_append, Option.bind_eq_bind, Option.bind_some, put,
    if_pos hroom, Option.bind_some, List.reverse_append]
  rfl

/-! ## Pointers -/

/-- The first `n` hexadecimal digits of a 64-bit number, the last one first. -/
def nibbles : ℕ → ℕ → List ℕ
  | 0, _ => []
  | n + 1, v => nibbles n (v * 16 % 2 ^ 64) ++ [v / 2 ^ 60]

theorem length_nibbles (n v : ℕ) : (nibbles n v).length = n := by
  induction n generalizing v with
  | zero => rfl
  | succ n ih => rw [nibbles, List.length_append, ih, List.length_singleton]

theorem nibbles_lt (n : ℕ) {v : ℕ} (hv : v < 2 ^ 64) : ∀ d ∈ nibbles n v, d < 16 := by
  induction n generalizing v with
  | zero => simp [nibbles]
  | succ n ih =>
    intro d hd
    rcases List.mem_append.mp hd with hd | hd
    · exact ih (Nat.mod_lt _ (by decide)) d hd
    · rw [List.mem_singleton.mp hd]
      omega

/-- The first digits are what is left when the others are cut off. -/
theorem ofDigits_nibbles {n v : ℕ} (hn : n ≤ 16) (hv : v < 2 ^ 64) :
    Nat.ofDigits 16 (nibbles n v) = v / 16 ^ (16 - n) := by
  induction n generalizing v with
  | zero =>
    rw [nibbles, Nat.ofDigits_nil]
    exact (Nat.div_eq_of_lt hv).symm
  | succ n ih =>
    obtain ⟨k, hk⟩ : ∃ k, 16 - n = k + 1 := ⟨15 - n, by omega⟩
    have hpow : 16 ^ n * 16 ^ k = 2 ^ 60 := by
      rw [← pow_add, show n + k = 15 by omega]
      rfl
    have hpos : 0 < 16 ^ k := by positivity
    set top := v / 2 ^ 60 with htop
    set low := v % 2 ^ 60 with hlow
    have hsplit : v = low + 16 ^ k * (16 ^ n * top) := by
      rw [← Nat.mul_assoc, Nat.mul_comm (16 ^ k), hpow]
      omega
    have hshift : v * 16 % 2 ^ 64 = 16 * low := by omega
    rw [nibbles, Nat.ofDigits_append, length_nibbles, ih (by omega) (Nat.mod_lt _ (by decide)),
      Nat.ofDigits_singleton, hk, show 16 - (n + 1) = k by omega, hshift, pow_succ,
      Nat.mul_comm (16 ^ k), Nat.mul_div_mul_left _ _ (by decide), ← htop]
    conv_rhs => rw [hsplit, Nat.add_mul_div_left _ _ hpos]

theorem printptrLoop_eq (n : ℕ) (x : UInt64) :
    printptrLoop n x = ((nibbles n x.toNat).map digit).reverse := by
  induction n generalizing x with
  | zero => rfl
  | succ n ih =>
    have hshift : (x <<< 4).toNat = x.toNat * 16 % 2 ^ 64 := by
      rw [UInt64.toNat_shiftLeft, Nat.shiftLeft_eq]
      rfl
    have htop : (x >>> 60).toNat = x.toNat / 2 ^ 60 := by
      rw [UInt64.toNat_shiftRight, Nat.shiftRight_eq_div_pow]
      rfl
    rw [printptrLoop, ih, hshift, htop, nibbles, List.map_append, List.reverse_append]
    rfl

/-- A pointer reads back. -/
theorem readPtr_printptr (x : UInt64) : readPtr (printptr x) = some (x.toNat : ℤ) := by
  have hne : nibbles 16 x.toNat ≠ [] := by
    intro hnil
    have hlength := length_nibbles 16 x.toNat
    rw [hnil] at hlength
    cases hlength
  rw [printptr, readPtr, if_pos ⟨rfl, rfl⟩, printptrLoop_eq,
    readInt_digits ⟨by decide, by decide⟩ hne (nibbles_lt 16 x.toNat_lt),
    ofDigits_nibbles (le_refl 16) x.toNat_lt, Nat.sub_self, pow_zero, Nat.div_one]

/-! ## Directives -/

/-- An unsigned number reads back. -/
theorem readInt_numeral {base : ℕ} (hbase : IsBase base) (n : ℕ) :
    readInt base ((numeral base n).map digit).reverse = some (n : ℤ) := by
  rw [readInt_digits hbase (by simp [numeral]) (numeral_lt n hbase), ofDigits_numeral]

theorem toNat_toUInt32_of_nonneg {xx : Int32} (h : ¬ xx < 0) : (xx.toUInt32.toNat : ℤ) = xx.toInt := by
  have hnonneg : ¬ xx.toBitVec.toInt < 0 := fun hlt ↦ h (Int32.lt_iff_toInt_lt.mpr hlt)
  show (xx.toBitVec.toNat : ℤ) = xx.toBitVec.toInt
  rw [BitVec.toInt_eq_toNat_cond] at hnonneg ⊢
  have hlt := xx.toBitVec.isLt
  split at hnonneg
  · rename_i hsmall
    rw [if_pos hsmall]
  · omega

theorem toNat_toUInt32_neg {xx : Int32} (h : xx < 0) : ((-xx).toUInt32.toNat : ℤ) = -xx.toInt := by
  have hneg : xx.toBitVec.toInt < 0 := Int32.lt_iff_toInt_lt.mp h
  show ((-xx.toBitVec).toNat : ℤ) = -xx.toBitVec.toInt
  rw [BitVec.toInt_eq_toNat_cond] at hneg ⊢
  have hlt := xx.toBitVec.isLt
  rw [BitVec.toNat_neg]
  split at hneg
  · omega
  · rename_i hsmall
    rw [if_neg hsmall]
    omega

/-- An `int` reads back, also the most negative one. -/
theorem readInt_printint (xx : Int32) :
    ∃ text, printint xx 10 true = some text ∧ readInt 10 text = some xx.toInt := by
  have hbase : IsBase 10 := ⟨by decide, by decide⟩
  by_cases hneg : xx < 0
  · refine ⟨_, printint_signed hneg, ?_⟩
    rw [readInt, if_pos rfl, readNat_digits hbase (by simp [numeral]) (numeral_lt _ hbase),
      ofDigits_numeral, Option.map_some, toNat_toUInt32_neg hneg, neg_neg]
  · have hsgn : (true && decide (xx < 0)) = false := by simpa using hneg
    have hbase' : IsBase (10 : UInt32).toNat := hbase
    refine ⟨_, printint_unsigned hbase' (by decide) hsgn, ?_⟩
    show readInt 10 ((numeral 10 xx.toUInt32.toNat).map digit).reverse = _
    rw [readInt_numeral hbase, toNat_toUInt32_of_nonneg hneg]

/-- A 32-bit number without a sign reads back, in both bases. -/
theorem readInt_printint_unsigned {base : UInt32} (hbase : base = 10 ∨ base = 16) (xx : Int32) :
    ∃ text, printint xx base false = some text ∧
      readInt base.toNat text = some (xx.toUInt32.toNat : ℤ) := by
  have hbase' : IsBase base.toNat ∧ 2 ^ 32 ≤ base.toNat ^ 10 := by
    rcases hbase with rfl | rfl
    · exact ⟨⟨by decide, by decide⟩, by decide⟩
    · exact ⟨⟨by decide, by decide⟩, by decide⟩
  exact ⟨_, printint_unsigned hbase'.1 hbase'.2 rfl, readInt_numeral hbase'.1 _⟩

/-- The characters for a directive, and what they read back as. -/
theorem directive_reads (str : UInt64 → List UInt8) (dir : Directive) (ap : VaList) :
    ∃ text, directive str dir.char ap = some (text, ap.rest) ∧
      dir.read text = some (if dir = .l then ((ap 0).toUInt32.toNat : ℤ) else dir.argument (ap 0)) := by
  cases dir with
  | d =>
    obtain ⟨text, hprint, hread⟩ := readInt_printint ap.int
    refine ⟨text, ?_, hread⟩
    rw [directive, if_pos (by decide), hprint]
    rfl
  | x =>
    obtain ⟨text, hprint, hread⟩ := readInt_printint_unsigned (.inr rfl) ap.int
    refine ⟨text, ?_, hread⟩
    rw [directive, if_neg (by decide), if_neg (by decide), if_pos (by decide), hprint]
    rfl
  | p =>
    refine ⟨printptr (ap 0), ?_, readPtr_printptr (ap 0)⟩
    rw [directive, if_neg (by decide), if_neg (by decide), if_neg (by decide),
      if_pos (by decide)]
  | l =>
    obtain ⟨text, hprint, hread⟩ := readInt_printint_unsigned (.inl rfl) ap.int
    refine ⟨text, ?_, hread⟩
    rw [directive, if_neg (by decide), if_pos (by decide), hprint]
    rfl

/-- **Printed numbers read back**, wherever in a format a directive stands, if and only if it is not
`%l` with a number of more than 32 bits.  The buffer of `printint` is never left. -/
theorem printed_number_reads_back_iff (str : UInt64 → List UInt8) (dir : Directive)
    (fmt : List UInt8) (ap : VaList) :
    (∃ text, vprintf str (char '%' :: dir.char :: fmt) false ap =
        (vprintf str fmt false ap.rest).map (text ++ ·) ∧
      (dir.read text = some (dir.argument (ap 0)) ↔ (dir = .l → (ap 0).toNat < 2 ^ 32))) ∧
    ∀ xx sgn, (printint xx 10 sgn).isSome ∧ (printint xx 16 false).isSome := by
  refine ⟨?_, fun xx sgn ↦ ⟨?_, ?_⟩⟩
  · obtain ⟨text, hdirective, hread⟩ := directive_reads str dir ap
    refine ⟨text, ?_, ?_⟩
    · rw [vprintf, if_pos rfl, vprintf, hdirective]
      show (vprintf str fmt false ap.rest >>= fun rest ↦ pure (text ++ rest)) = _
      cases vprintf str fmt false ap.rest with
      | none => rfl
      | some rest => rfl
    · rw [hread, Option.some_inj]
      split
      · rename_i hl
        subst hl
        have hlow : (ap 0).toUInt32.toNat = (ap 0).toNat % 2 ^ 32 := UInt64.toNat_toUInt32 _
        have hlt := (ap 0).toNat_lt
        show ((ap 0).toUInt32.toNat : ℤ) = ((ap 0).toNat : ℤ) ↔ _
        rw [hlow]
        refine ⟨fun hsame _ ↦ ?_, fun hsmall ↦ ?_⟩
        · omega
        · rw [Nat.mod_eq_of_lt (hsmall rfl)]
      · rename_i hl
        exact iff_of_true rfl fun heq ↦ absurd heq hl
  · cases sgn with
    | true =>
      obtain ⟨text, hprint, -⟩ := readInt_printint xx
      rw [hprint]
      rfl
    | false =>
      obtain ⟨text, hprint, -⟩ := readInt_printint_unsigned (.inl rfl) xx
      rw [hprint]
      rfl
  · obtain ⟨text, hprint, -⟩ := readInt_printint_unsigned (.inr rfl) xx
    rw [hprint]
    rfl

/-- The size of a large file, as `ls` prints it, is printed as 0. -/
theorem percent_l_prints_low_half :
    vprintf (fun _ ↦ []) [char '%', char 'l'] false (fun _ ↦ 4294967296) = some [char '0'] ∧
    Directive.l.read [char '0'] = some 0 ∧ Directive.l.argument 4294967296 = 4294967296 := by
  decide +kernel

end Xv6.User
