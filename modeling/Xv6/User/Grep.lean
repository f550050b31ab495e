import Xv6.User.Match

/-!
# The Lines that grep Prints

A model of the function `grep` of `user/grep.c`, which reads its input in pieces into a buffer of 1024
bytes and keeps the start of an unfinished line at the front of the buffer.  Every line that fits
into the buffer is seen whole, however `read` cuts the input.  A line that fills the buffer leaves
no room for the next `read`, which returns 0 as at the end of the input.
-/

namespace Xv6.User

/-- `sizeof(buf)`. -/
abbrev GREPBUF : ℕ := 1024

abbrev newline : UInt8 := '\n'.toUInt8

/-- `strchr`: how far behind the start of the string the character is. -/
def strchr (c : UInt8) : List UInt8 → Option ℕ
  | [] => none
  | b :: s => if b = 0 then none else if b = c then some 0 else (strchr c s).map (· + 1)

theorem strchr_lt {c : UInt8} {s : List UInt8} {k : ℕ} (h : strchr c s = some k) :
    k < s.length := by
  induction s generalizing k with
  | nil => simp [strchr] at h
  | cons b s ih =>
    rw [strchr] at h
    split at h
    · simp at h
    · split at h
      · obtain rfl := Option.some.inj h
        exact Nat.succ_pos _
      · obtain ⟨j, hj, rfl⟩ := Option.map_eq_some_iff.1 h
        simpa using ih hj

/-- Bytes stored at an index of the buffer. -/
def store (buf : List UInt8) (i : ℕ) (bytes : List UInt8) : List UInt8 :=
  buf.take i ++ bytes ++ buf.drop (i + bytes.length)

/-- What `grep` has in its variables and has written to descriptor 1. -/
structure GrepState where
  buf : List UInt8
  p : ℕ
  out : List UInt8

/-- The inner loop of `grep`: it looks at every line that ends in the buffer. -/
def grepLines (pattern : List UInt8) (s : GrepState) : GrepState :=
  match h : strchr newline (s.buf.drop s.p) with
  | none => s
  | some k =>
    let q := s.p + k
    let cut := s.buf.set q 0
    if matchText pattern (cut.drop s.p) then
      let buf := cut.set q newline
      grepLines pattern ⟨buf, q + 1, s.out ++ (buf.drop s.p).take (q + 1 - s.p)⟩
    else grepLines pattern ⟨cut, q + 1, s.out⟩
termination_by s.buf.length - s.p
decreasing_by
  all_goals
    have hlt := strchr_lt h
    rw [List.length_drop] at hlt
    simp only [List.length_set]
    omega

/-- The body of the outer loop, for the bytes that `read` has returned: the buffer, the number of
bytes at its front that start an unfinished line, and what has been written. -/
def grepPiece (pattern buf : List UInt8) (m : ℕ) (piece out : List UInt8) :
    List UInt8 × ℕ × List UInt8 :=
  let buf := store buf m piece
  let m := m + piece.length
  let buf := buf.set m 0
  let s := grepLines pattern ⟨buf, 0, out⟩
  if 0 < m then
    let m := m - s.p
    (store s.buf 0 ((s.buf.drop s.p).take m), m, s.out)
  else (s.buf, m, s.out)

/-- A `read` of at most `size` bytes that has `want + 1` bytes at hand.  It returns nothing if nothing
is asked for or nothing is left. -/
def readCount (size want : ℕ) (input : List UInt8) : ℕ := min (want + 1) (min size input.length)

theorem readCount_le (size want : ℕ) (input : List UInt8) :
    readCount size want input ≤ input.length := by
  unfold readCount
  omega

/-- The outer loop of `grep`: what it writes, and the input it has not read.  While `l` bytes of the
input are left, `read` has `split l + 1` of them at hand. -/
def grepLoop (pattern : List UInt8) (split : ℕ → ℕ) (buf : List UInt8) (m : ℕ)
    (input out : List UInt8) : List UInt8 × List UInt8 :=
  -- `sizeof(buf)-m-1` does not wrap: `m` is at most 1023.
  let n := readCount (GREPBUF - m - 1) (split input.length) input
  if 0 < n then
    let r := grepPiece pattern buf m (input.take n) out
    grepLoop pattern split r.1 r.2.1 (input.drop n) r.2.2
  else (out, input)
termination_by input.length
decreasing_by
  have hle := readCount_le (GREPBUF - m - 1) (split input.length) input
  rw [List.length_drop]
  omega

/-- `grep`, in a buffer of the program's data. -/
def grep (pattern : List UInt8) (split : ℕ → ℕ) (input : List UInt8) : List UInt8 × List UInt8 :=
  grepLoop pattern split (List.replicate GREPBUF 0) 0 input []

/-! ## Lines -/

/-- Lines as they stand in a file. -/
def unlines (lines : List (List UInt8)) : List UInt8 := lines.flatMap (· ++ [newline])

/-- A line of text. -/
structure IsLine (line : List UInt8) : Prop where
  newline : newline ∉ line
  nul : 0 ∉ line

/-- The lines that match a pattern, as `grep` prints them. -/
def matching (pattern : List UInt8) (lines : List (List UInt8)) : List UInt8 :=
  unlines (lines.filter (matchText pattern))

@[simp]
theorem unlines_nil : unlines [] = [] := rfl

@[simp]
theorem unlines_cons (line : List UInt8) (lines : List (List UInt8)) :
    unlines (line :: lines) = line ++ newline :: unlines lines := by
  simp [unlines]

theorem matching_append (pattern : List UInt8) (lines more : List (List UInt8)) :
    matching pattern (lines ++ more) = matching pattern lines ++ matching pattern more := by
  simp [matching, unlines]

/-- The start of a file is some lines of it and the start of the next one. -/
theorem exists_cut {lines : List (List UInt8)} {front back : List UInt8}
    (h : front ++ back = unlines lines) (hlines : ∀ line ∈ lines, newline ∉ line) :
    ∃ done todo rest, lines = done ++ todo ∧ front = unlines done ++ rest ∧ newline ∉ rest ∧
      rest ++ back = unlines todo := by
  induction lines generalizing front with
  | nil =>
    obtain ⟨rfl, rfl⟩ := List.append_eq_nil_iff.1 h
    exact ⟨[], [], [], rfl, rfl, by simp, rfl⟩
  | cons line lines ih =>
    have hline : newline ∉ line := hlines line (by simp)
    rw [unlines_cons] at h
    obtain ⟨more, rfl, hback⟩ | ⟨more, rfl, hmore⟩ := List.append_eq_append_iff.1 h
    · refine ⟨[], (front ++ more) :: lines, front, rfl, rfl, fun hmem ↦ hline (by simp [hmem]), ?_⟩
      rw [hback, unlines_cons, List.append_assoc]
    · cases more with
      | nil =>
        refine ⟨[], line :: lines, line, rfl, by simp, hline, ?_⟩
        rw [unlines_cons, hmore, List.nil_append]
      | cons b more =>
        obtain ⟨rfl, hlater⟩ := List.cons.inj hmore
        obtain ⟨done, todo, rest, rfl, rfl, hrest, htodo⟩ :=
          ih hlater.symm fun other hother ↦ hlines other (by simp [hother])
        exact ⟨line :: done, todo, rest, rfl, by simp, hrest, htodo⟩

theorem IsLine.tail {b : UInt8} {line : List UInt8} (h : IsLine (b :: line)) : IsLine line where
  newline hmem := h.newline (List.mem_cons_of_mem b hmem)
  nul hmem := h.nul (List.mem_cons_of_mem b hmem)

theorem strchr_cons {b : UInt8} {line : List UInt8} (h : IsLine (b :: line)) (rest : List UInt8) :
    strchr newline (b :: line ++ rest) = (strchr newline (line ++ rest)).map (· + 1) := by
  rw [List.cons_append, strchr, if_neg (List.ne_of_not_mem_cons h.nul).symm,
    if_neg (List.ne_of_not_mem_cons h.newline).symm]

theorem strchr_append {line : List UInt8} (hline : IsLine line) (rest : List UInt8) :
    strchr newline (line ++ newline :: rest) = some line.length := by
  induction line with
  | nil => rfl
  | cons b line ih => rw [strchr_cons hline, ih hline.tail, Option.map_some, List.length_cons]

theorem strchr_of_isLine {line : List UInt8} (hline : IsLine line) (rest : List UInt8) :
    strchr newline (line ++ 0 :: rest) = none := by
  induction line with
  | nil => rfl
  | cons b line ih => rw [strchr_cons hline, ih hline.tail, Option.map_none]

theorem cstr_append {line : List UInt8} (hnul : 0 ∉ line) (rest : List UInt8) :
    cstr (line ++ 0 :: rest) = line := by
  have hne : ∀ b ∈ line, decide (b ≠ 0) = true := by
    intro b hb
    simpa using ne_of_mem_of_not_mem hb hnul
  rw [cstr, List.takeWhile_append_of_pos hne, List.takeWhile_cons_of_neg (by simp),
    List.append_nil]

/-! ## The Inner Loop -/

theorem drop_set_of_drop {buf line rest : List UInt8} {p : ℕ} {b : UInt8}
    (h : buf.drop p = line ++ b :: rest) (c : UInt8) :
    (buf.set (p + line.length) c).drop p = line ++ c :: rest := by
  rw [List.drop_set, if_neg (by omega), h, Nat.add_sub_cancel_left, List.set_append_right _ _ le_rfl]
  simp

theorem drop_succ_of_drop {buf line rest : List UInt8} {p : ℕ} {b : UInt8}
    (h : buf.drop p = line ++ b :: rest) : buf.drop (p + line.length + 1) = rest := by
  rw [Nat.add_assoc, ← List.drop_drop, h]
  simp

/-- A round of the inner loop looks at one line. -/
theorem grepLines_line {pattern : List UInt8} (hpattern : 0 ∉ pattern) {line : List UInt8}
    (hline : IsLine line) {s : GrepState} {rest : List UInt8}
    (hbuf : s.buf.drop s.p = line ++ newline :: rest) :
    ∃ buf, buf.length = s.buf.length ∧ buf.drop (s.p + line.length + 1) = rest ∧
      grepLines pattern s =
        grepLines pattern ⟨buf, s.p + line.length + 1, s.out ++ matching pattern [line]⟩ := by
  have hcut := drop_set_of_drop hbuf 0
  have hmatch : matchText pattern (line ++ 0 :: rest) = matchText pattern line :=
    matchText_congr hpattern (by rw [cstr_append hline.nul, cstr_of_not_mem hline.nul])
  have hback := drop_set_of_drop hcut newline
  rw [grepLines]
  split
  next h => 
    rw [hbuf, strchr_append hline] at h
    simp at h
  next k h =>
    rw [hbuf, strchr_append hline] at h
    obtain rfl := Option.some.inj h
    simp only [hcut, hback, hmatch]
    split
    next hyes =>
      refine ⟨_, ?_, drop_succ_of_drop hback, ?_⟩
      · simp
      · have hout : (line ++ newline :: rest).take (s.p + line.length + 1 - s.p) =
            matching pattern [line] := by
          rw [show s.p + line.length + 1 - s.p = line.length + 1 by omega]
          simp [matching, hyes, List.take_append]
        rw [hout]
    next hno =>
      refine ⟨_, ?_, drop_succ_of_drop hcut, ?_⟩
      · simp
      · simp [matching, hno]

/-- The inner loop prints the lines in the buffer that match and stops behind the last newline. -/
theorem grepLines_spec {pattern : List UInt8} (hpattern : 0 ∉ pattern) {lines : List (List UInt8)}
    (hlines : ∀ line ∈ lines, IsLine line) {rest : List UInt8} (hrest : IsLine rest)
    {s : GrepState} {tail : List UInt8} (hbuf : s.buf.drop s.p = unlines lines ++ rest ++ 0 :: tail) :
    ∃ buf, buf.length = s.buf.length ∧
      buf.drop (s.p + (unlines lines).length) = rest ++ 0 :: tail ∧
      grepLines pattern s =
        ⟨buf, s.p + (unlines lines).length, s.out ++ matching pattern lines⟩ := by
  induction lines generalizing s with
  | nil =>
    have hnone : strchr newline (s.buf.drop s.p) = none := by
      rw [hbuf]
      exact strchr_of_isLine hrest tail
    refine ⟨s.buf, rfl, by simpa using hbuf, ?_⟩
    rw [grepLines]
    split
    next => simp [matching]
    next k h => exact absurd (hnone.symm.trans h) (by simp)
  | cons line lines ih =>
    have hline := hlines line (by simp)
    have hmore : ∀ other ∈ lines, IsLine other := fun other hother ↦ hlines other (by simp [hother])
    have hfirst : s.buf.drop s.p = line ++ newline :: (unlines lines ++ rest ++ 0 :: tail) := by
      simpa using hbuf
    obtain ⟨buf, hlength, hdrop, hround⟩ := grepLines_line hpattern hline hfirst
    obtain ⟨buf', hlength', hdrop', hrounds⟩ := ih hmore (s := ⟨buf, _, _⟩) hdrop
    have hp : s.p + line.length + 1 + (unlines lines).length =
        s.p + (unlines (line :: lines)).length := by
      simp
      omega
    have hout : matching pattern [line] ++ matching pattern lines =
        matching pattern (line :: lines) := (matching_append pattern [line] lines).symm
    refine ⟨buf', hlength'.trans hlength, hp ▸ hdrop', ?_⟩
    rw [hround, hrounds, List.append_assoc, hout, hp]

/-! ## The Outer Loop -/

/-- A piece of the input completes some lines, which are printed if they match; what follows the last
newline moves to the front of the buffer. -/
theorem grepPiece_spec {pattern : List UInt8} (hpattern : 0 ∉ pattern) {lines : List (List UInt8)}
    (hlines : ∀ line ∈ lines, IsLine line) {rest : List UInt8} (hrest : IsLine rest)
    {buf start piece : List UInt8} (hbuf : start <+: buf) (hlength : buf.length = GREPBUF)
    (hroom : start.length + piece.length < GREPBUF) (hpiece : start ++ piece = unlines lines ++ rest)
    (out : List UInt8) :
    ∃ buf', rest <+: buf' ∧ buf'.length = GREPBUF ∧
      grepPiece pattern buf start.length piece out =
        (buf', rest.length, out ++ matching pattern lines) := by
  obtain ⟨junk, rfl⟩ := hbuf
  obtain ⟨b, tail, hjunk⟩ : ∃ b tail, junk.drop piece.length = b :: tail := by
    apply List.exists_cons_of_length_pos
    rw [List.length_append] at hlength
    rw [List.length_drop]
    omega
  have hstore : (store (start ++ junk) start.length piece).set (start.length + piece.length) 0 =
      unlines lines ++ rest ++ 0 :: tail := by
    have hdrop : (start ++ junk).drop (start.length + piece.length) = b :: tail := by
      rw [← hjunk, List.drop_append]
      simp
    rw [store, hdrop, List.take_left', ← hpiece, ← List.length_append,
      List.set_append_right _ _ le_rfl]
    · simp
    · rfl
  have hfull : (unlines lines ++ rest ++ 0 :: tail).length = GREPBUF := by
    rw [← hstore, List.length_set, store, ← hlength]
    simp only [List.length_append, List.length_take, List.length_drop] at hlength ⊢
    omega
  obtain ⟨cut, hcut, hdrop, hlines'⟩ := grepLines_spec hpattern hlines hrest
    (s := ⟨unlines lines ++ rest ++ 0 :: tail, 0, out⟩) rfl
  have hm : start.length + piece.length - (unlines lines).length = rest.length := by
    rw [← List.length_append, hpiece, List.length_append, Nat.add_sub_cancel_left]
  unfold grepPiece
  simp only [hstore, hlines', Nat.zero_add] at hdrop ⊢
  split
  next =>
    have hmoved : (rest ++ 0 :: tail).take rest.length = rest := List.take_left
    rw [hm, hdrop, hmoved]
    refine ⟨store cut 0 rest, List.prefix_append .., ?_, rfl⟩
    simp only [store, List.take_zero, List.nil_append, List.length_append, List.length_drop] at *
    omega
  next hempty =>
    have hnil : rest = [] := List.eq_nil_of_length_eq_zero (by omega)
    subst hnil
    refine ⟨cut, List.nil_prefix, hcut.trans hfull, ?_⟩
    rw [show start.length + piece.length = 0 by omega, List.length_nil]

theorem length_le_of_newline_notMem {start input line : List UInt8} {lines : List (List UInt8)}
    (h : start ++ input = unlines (line :: lines)) (hstart : newline ∉ start) :
    start.length ≤ line.length := by
  rw [unlines_cons] at h
  obtain ⟨more, rfl, -⟩ | ⟨more, rfl, hmore⟩ := List.append_eq_append_iff.1 h
  · simp
  · cases more with
    | nil => simp
    | cons b more =>
      obtain ⟨rfl, -⟩ := List.cons.inj hmore
      exact absurd (by simp) hstart

theorem length_lt_unlines {line : List UInt8} {lines : List (List UInt8)} (h : line ∈ lines) :
    line.length + 1 ≤ (unlines lines).length := by
  obtain ⟨before, behind, rfl⟩ := List.append_of_mem h
  simp [unlines]
  omega

theorem nul_notMem_unlines {lines : List (List UInt8)} (hlines : ∀ line ∈ lines, IsLine line) :
    0 ∉ unlines lines := by
  intro hmem
  obtain ⟨line, hline, hmem⟩ := List.mem_flatMap.1 hmem
  rcases List.mem_append.1 hmem with h | h
  · exact (hlines line hline).nul h
  · exact absurd (List.mem_singleton.1 h) (by decide)

/-- From a buffer that starts with an unfinished line, `grep` reads and prints all that is left if and
only if every line fits into the buffer. -/
theorem grepLoop_spec {pattern : List UInt8} (hpattern : 0 ∉ pattern) (split : ℕ → ℕ)
    {buf start input : List UInt8} (hbuf : start <+: buf) (hlength : buf.length = GREPBUF)
    (hroom : start.length < GREPBUF) (hstart : newline ∉ start) {lines : List (List UInt8)}
    (hlines : ∀ line ∈ lines, IsLine line) (hinput : start ++ input = unlines lines)
    (out : List UInt8) :
    grepLoop pattern split buf start.length input out = (out ++ matching pattern lines, []) ↔
      ∀ line ∈ lines, line.length + 1 < GREPBUF := by
  induction hn : input.length using Nat.strong_induction_on generalizing
    buf start input lines out with
  | _ size ih =>
  subst hn
  rw [grepLoop]
  generalize hcount : readCount (GREPBUF - start.length - 1) (split input.length) input = n
  unfold readCount at hcount
  split
  next hpos =>
    have htake : (input.take n).length = n := by
      rw [List.length_take]
      omega
    have hcat : (start ++ input.take n) ++ input.drop n = unlines lines := by
      rw [List.append_assoc, List.take_append_drop, hinput]
    obtain ⟨done, todo, rest, rfl, hfront, hrest, hback⟩ :=
      exists_cut hcat fun line hline ↦ (hlines line hline).newline
    have hdone : ∀ line ∈ done, IsLine line := fun line hline ↦ hlines line (by simp [hline])
    have htodo : ∀ line ∈ todo, IsLine line := fun line hline ↦ hlines line (by simp [hline])
    have hline : IsLine rest :=
      ⟨hrest, fun hmem ↦ nul_notMem_unlines htodo (hback ▸ List.mem_append_left _ hmem)⟩
    have hlengths := congrArg List.length hfront
    rw [List.length_append, List.length_append, htake] at hlengths
    obtain ⟨buf', hprefix, hlength', hpiece⟩ := grepPiece_spec hpattern hdone hline hbuf hlength
      (by omega) hfront out
    have hrec := ih (input.drop n).length (by rw [List.length_drop]; omega) hprefix hlength'
      (by omega) hrest htodo hback (out ++ matching pattern done) rfl
    have hshort : ∀ line ∈ done, line.length + 1 < GREPBUF := by
      intro line hmem
      have hle := length_lt_unlines hmem
      omega
    simp only [hpiece]
    rw [matching_append, ← List.append_assoc, hrec, List.forall_mem_append]
    exact ⟨fun h ↦ ⟨hshort, h⟩, fun h ↦ h.2⟩
  next hzero =>
    cases lines with
    | nil =>
      obtain ⟨rfl, rfl⟩ := List.append_eq_nil_iff.1 hinput
      simp [matching]
    | cons line lines =>
      have hle := length_le_of_newline_notMem hinput hstart
      have hmem : newline ∈ start ++ input := by simp [hinput]
      have hleft : newline ∈ input := (List.mem_append.1 hmem).resolve_left hstart
      have hpos := List.length_pos_of_mem hleft
      constructor
      · intro h
        rw [(Prod.mk.inj h).2] at hpos
        exact absurd hpos (by simp)
      · intro h
        have hshort := h line (by simp)
        simp only [GREPBUF] at *
        omega

/-- `grep` prints exactly the lines that match, whole and in their order, and reads all of its input
if and only if every line with its newline takes up less than the 1024 bytes of the buffer.  This
does not depend on how `read` cuts the input. -/
theorem grep_sees_every_line_iff {pattern : List UInt8} (hpattern : 0 ∉ pattern)
    {lines : List (List UInt8)} (hlines : ∀ line ∈ lines, IsLine line) (split : ℕ → ℕ) :
    grep pattern split (unlines lines) = (matching pattern lines, []) ↔
      ∀ line ∈ lines, line.length + 1 < GREPBUF := by
  have hspec : grepLoop pattern split (List.replicate GREPBUF 0) ([] : List UInt8).length
      (unlines lines) [] = ([] ++ matching pattern lines, []) ↔ _ :=
    grepLoop_spec hpattern split List.nil_prefix List.length_replicate (by decide) (by simp) hlines
      rfl []
  exact hspec

theorem grep_sees_every_line_iff_two :
    (∀ line ∈ ([[97], [98]] : List (List UInt8)), IsLine line) ∧
      (grep [97] (fun _ ↦ 0) (unlines [[97], [98]]) = (matching [97] [[97], [98]], []) ↔
        ∀ line ∈ ([[97], [98]] : List (List UInt8)), line.length + 1 < GREPBUF) := by
  have hlines : ∀ line ∈ ([[97], [98]] : List (List UInt8)), IsLine line := by
    intro line hline
    rcases List.mem_pair.1 hline with rfl | rfl
    · exact ⟨by decide, by decide⟩
    · exact ⟨by decide, by decide⟩
  have hpattern : (0 : UInt8) ∉ [97] := by decide
  exact ⟨hlines, grep_sees_every_line_iff hpattern hlines fun _ ↦ 0⟩

/-- A line of 1023 characters fills the buffer: with an empty pattern, which matches every line, `grep`
prints nothing and leaves the newline unread. -/
theorem long_line_is_skipped :
    matching [] [List.replicate 1023 97] = List.replicate 1023 97 ++ [newline] ∧
      grep [] (fun _ ↦ 1023) (unlines [List.replicate 1023 97]) = ([], [newline]) := by
  generalize hline : List.replicate 1023 (97 : UInt8) = line
  have hlength : line.length = 1023 := by rw [← hline, List.length_replicate]
  have hplain : IsLine line := by
    subst hline
    exact ⟨fun h ↦ absurd (List.eq_of_mem_replicate h) (by decide),
      fun h ↦ absurd (List.eq_of_mem_replicate h) (by decide)⟩
  have hall : matchText [] line = true := by simp [matchText, matchLoop, matchhere_nil, charAt]
  refine ⟨by simp [matching, hall], ?_⟩
  -- The first `read` fills the buffer, and nothing is asked of the second one.
  have hnolines : ∀ other ∈ ([] : List (List UInt8)), IsLine other := by simp
  obtain ⟨buf, -, -, hpiece⟩ : ∃ buf, line <+: buf ∧ buf.length = GREPBUF ∧
      grepPiece [] (List.replicate GREPBUF 0) ([] : List UInt8).length line [] =
        (buf, line.length, [] ++ matching [] []) :=
    grepPiece_spec (by simp) hnolines hplain List.nil_prefix List.length_replicate
      (by simp [hlength]) rfl []
  have hfirst : readCount (GREPBUF - 0 - 1) 1023 (line ++ [newline]) = 1023 := by
    simp [readCount, hlength]
  have hsecond : readCount (GREPBUF - 1023 - 1) 1023 [newline] = 0 := by decide
  have htake : (line ++ [newline]).take 1023 = line := List.take_left' hlength
  have hdrop : (line ++ [newline]).drop 1023 = [newline] := List.drop_left' hlength
  have hend : grepLoop [] (fun _ ↦ 1023) buf 1023 [newline] [] = ([], [newline]) := by
    rw [grepLoop, hsecond]
    rfl
  rw [List.length_nil, hlength] at hpiece
  rw [unlines_cons, unlines_nil, grep, grepLoop, hfirst, htake, hdrop, hpiece]
  exact hend

end Xv6.User
