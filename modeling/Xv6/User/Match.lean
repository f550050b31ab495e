import Mathlib.Computability.Language
import Mathlib.Data.List.TakeWhile
import Mathlib.Tactic

/-!
# The Matcher of grep

A model of `match`, `matchhere` and `matchstar` of `user/grep.c`.  A pattern is read as a list of
items, each a character that may be starred, with an anchor at either end; such a list denotes a
regular language, and the matcher finds a part of the text in that language whenever there is one.
-/

namespace Xv6.User

open Computability

/-- `s[i]` in a string: a NUL behind its last character. -/
def charAt (s : List UInt8) (i : ℕ) : UInt8 := s.getD i 0

/-! ## The Matcher -/

theorem length_pos_of_charAt {s : List UInt8} (h : charAt s 0 ≠ 0) : 0 < s.length := by
  cases s with
  | nil => exact absurd rfl h
  | cons c s => exact Nat.succ_pos _

mutual

/-- `matchhere`. -/
def matchhere (re text : List UInt8) : Bool :=
  if charAt re 0 = 0 then true
  else if charAt re 1 = '*'.toUInt8 then matchstar (charAt re 0) (re.drop 2) text
  else if charAt re 0 = '$'.toUInt8 ∧ charAt re 1 = 0 then charAt text 0 = 0
  else if charAt text 0 ≠ 0 ∧ (charAt re 0 = '.'.toUInt8 ∨ charAt re 0 = charAt text 0) then
    matchhere (re.drop 1) (text.drop 1)
  else false
termination_by (re.length, text.length, 0)
decreasing_by
  all_goals
    have hpos := length_pos_of_charAt ‹¬ charAt re 0 = 0›
    apply Prod.Lex.left
    rw [List.length_drop]
    omega

/-- `matchstar`. -/
def matchstar (c : UInt8) (re text : List UInt8) : Bool :=
  if matchhere re text then true
  else if charAt text 0 ≠ 0 ∧ (charAt text 0 = c ∨ c = '.'.toUInt8) then
    matchstar c re (text.drop 1)
  else false
termination_by (re.length, text.length, 1)
decreasing_by
  · exact Prod.Lex.right _ (Prod.Lex.right _ Nat.zero_lt_one)
  · have hpos := length_pos_of_charAt (And.left ‹charAt text 0 ≠ 0 ∧ _›)
    apply Prod.Lex.right
    apply Prod.Lex.left
    rw [List.length_drop]
    omega

end

/-- The loop of `match`. -/
def matchLoop (re text : List UInt8) : Bool :=
  if matchhere re text then true
  else if charAt text 0 ≠ 0 then matchLoop re (text.drop 1)
  else false
termination_by text.length
decreasing_by
  have hpos := length_pos_of_charAt ‹charAt text 0 ≠ 0›
  rw [List.length_drop]
  omega

/-- `match`. -/
def matchText (re text : List UInt8) : Bool :=
  if charAt re 0 = '^'.toUInt8 then matchhere (re.drop 1) text else matchLoop re text

/-! ## What a Pattern Denotes -/

/-- A character of a pattern, and whether a `*` follows it. -/
structure Item where
  char : UInt8
  star : Bool

/-- A character of the text that a character of the pattern stands for. -/
def Accepts (c b : UInt8) : Prop := c = '.'.toUInt8 ∨ b = c

/-- The strings of an item. -/
def Item.language (item : Item) : Language UInt8 :=
  let once : Language UInt8 := {word | ∃ b, Accepts item.char b ∧ word = [b]}
  if item.star then once∗ else once

/-- How an item is written. -/
def Item.written (item : Item) : List UInt8 :=
  item.char :: if item.star then ['*'.toUInt8] else []

/-- A pattern as it is read: items, and whether it starts with `^` and ends with `$`. -/
structure Pattern where
  anchored : Bool
  items : List Item
  toEnd : Bool

namespace Pattern

/-- The strings of a pattern. -/
def language (pattern : Pattern) : Language UInt8 := (pattern.items.map Item.language).prod

/-- How a pattern is written. -/
def written (pattern : Pattern) : List UInt8 :=
  (if pattern.anchored then ['^'.toUInt8] else []) ++ pattern.items.flatMap Item.written ++
    if pattern.toEnd then ['$'.toUInt8] else []

/-- The reading of a pattern behind `^`.  A `*` belongs to the character before it, and only a `$`
that is the last character stands for the end of the text. -/
def readItems : List UInt8 → List Item × Bool
  | [] => ([], false)
  | [c] => if c = '$'.toUInt8 then ([], true) else ([⟨c, false⟩], false)
  | c :: d :: re =>
    if d = '*'.toUInt8 then
      let rest := readItems re
      (⟨c, true⟩ :: rest.1, rest.2)
    else
      let rest := readItems (d :: re)
      (⟨c, false⟩ :: rest.1, rest.2)

/-- The reading of a pattern. -/
def read (re : List UInt8) : Pattern :=
  if charAt re 0 = '^'.toUInt8 then
    { anchored := true, items := (readItems (re.drop 1)).1, toEnd := (readItems (re.drop 1)).2 }
  else
    { anchored := false, items := (readItems re).1, toEnd := (readItems re).2 }

end Pattern

/-! ## Matching at the Front of the Text -/

/-- The string at the front of a buffer. -/
def cstr (text : List UInt8) : List UInt8 := text.takeWhile (· ≠ 0)

theorem cstr_of_charAt_ne {text : List UInt8} (h : charAt text 0 ≠ 0) :
    cstr text = charAt text 0 :: cstr (text.drop 1) := by
  cases text with
  | nil => exact absurd rfl h
  | cons b text =>
    have hb : b ≠ 0 := h
    simp [cstr, charAt, hb]

theorem cstr_of_charAt_eq {text : List UInt8} (h : charAt text 0 = 0) : cstr text = [] := by
  cases text with
  | nil => rfl
  | cons b text =>
    have hb : b = 0 := h
    simp [cstr, hb]

theorem mem_once_iff (c : UInt8) (word : List UInt8) :
    word ∈ Item.language ⟨c, false⟩ ↔ ∃ b, Accepts c b ∧ word = [b] := Iff.rfl

theorem mem_star_iff (c : UInt8) (word : List UInt8) :
    word ∈ Item.language ⟨c, true⟩ ↔ ∀ b ∈ word, Accepts c b := by
  have hstar : Item.language ⟨c, true⟩ = (Item.language ⟨c, false⟩)∗ := rfl
  rw [hstar, Language.mem_kstar]
  constructor
  · rintro ⟨words, rfl, hwords⟩ b hb
    obtain ⟨word, hword, hb⟩ := List.mem_flatten.1 hb
    obtain ⟨b', hb', rfl⟩ := (mem_once_iff c word).1 (hwords word hword)
    rwa [List.mem_singleton.1 hb]
  · intro hall
    refine ⟨word.map fun b ↦ [b], (List.flatMap_singleton' word).symm, ?_⟩
    intro piece hpiece
    obtain ⟨b, hb, rfl⟩ := List.mem_map.1 hpiece
    exact (mem_once_iff c [b]).2 ⟨b, hall b hb, rfl⟩

/-- A string with a word of the items at its front; with `toEnd`, nothing is behind that word. -/
def Front (items : List Item) (toEnd : Bool) (s : List UInt8) : Prop :=
  ∃ word rest, s = word ++ rest ∧ word ∈ (items.map Item.language).prod ∧
    (toEnd = true → rest = [])

theorem front_nil (toEnd : Bool) (s : List UInt8) : Front [] toEnd s ↔ (toEnd = true → s = []) := by
  constructor
  · rintro ⟨word, rest, rfl, hword, hrest⟩
    have hnil : word = [] := hword
    simpa [hnil] using hrest
  · intro h
    exact ⟨[], s, rfl, Language.nil_mem_one, h⟩

theorem front_cons (item : Item) (items : List Item) (toEnd : Bool) (s : List UInt8) :
    Front (item :: items) toEnd s ↔
      ∃ word rest, s = word ++ rest ∧ word ∈ item.language ∧ Front items toEnd rest := by
  constructor
  · rintro ⟨word, rest, rfl, hword, hrest⟩
    rw [List.map_cons, List.prod_cons, Language.mem_mul] at hword
    obtain ⟨first, hfirst, more, hmore, rfl⟩ := hword
    exact ⟨first, more ++ rest, List.append_assoc .., hfirst, more, rest, rfl, hmore, hrest⟩
  · rintro ⟨first, _, rfl, hfirst, more, rest, rfl, hmore, hrest⟩
    refine ⟨first ++ more, rest, (List.append_assoc ..).symm, ?_, hrest⟩
    rw [List.map_cons, List.prod_cons]
    exact Language.append_mem_mul hfirst hmore

/-- A part of `s` that satisfies `P` comes behind a run of characters that `c` stands for. -/
def Behind (c : UInt8) (P : List UInt8 → Prop) (s : List UInt8) : Prop :=
  ∃ run rest, s = run ++ rest ∧ (∀ b ∈ run, Accepts c b) ∧ P rest

theorem behind_nil (c : UInt8) (P : List UInt8 → Prop) : Behind c P [] ↔ P [] := by
  constructor
  · rintro ⟨run, rest, hnil, -, hrest⟩
    obtain ⟨rfl, rfl⟩ := List.append_eq_nil_iff.1 hnil.symm
    exact hrest
  · intro h
    exact ⟨[], [], rfl, by simp, h⟩

theorem behind_cons (c : UInt8) (P : List UInt8 → Prop) (b : UInt8) (s : List UInt8) :
    Behind c P (b :: s) ↔ P (b :: s) ∨ Accepts c b ∧ Behind c P s := by
  constructor
  · rintro ⟨run, rest, hs, hrun, hrest⟩
    cases run with
    | nil =>
      left
      rwa [hs]
    | cons d run =>
      obtain ⟨rfl, rfl⟩ := List.cons.inj hs
      exact .inr ⟨hrun b (by simp), run, rest, rfl, fun x hx ↦ hrun x (by simp [hx]), hrest⟩
  · rintro (h | ⟨hb, run, rest, rfl, hrun, hrest⟩)
    · exact ⟨[], b :: s, rfl, by simp, h⟩
    · exact ⟨b :: run, rest, rfl, by simpa using ⟨hb, hrun⟩, hrest⟩

theorem front_once (c : UInt8) (items : List Item) (toEnd : Bool) (s : List UInt8) :
    Front (⟨c, false⟩ :: items) toEnd s ↔
      ∃ b rest, s = b :: rest ∧ Accepts c b ∧ Front items toEnd rest := by
  rw [front_cons]
  constructor
  · rintro ⟨_, rest, rfl, ⟨b, hb, rfl⟩, hrest⟩
    exact ⟨b, rest, rfl, hb, hrest⟩
  · rintro ⟨b, rest, rfl, hb, hrest⟩
    exact ⟨[b], rest, rfl, ⟨b, hb, rfl⟩, hrest⟩

theorem front_star (c : UInt8) (items : List Item) (toEnd : Bool) (s : List UInt8) :
    Front (⟨c, true⟩ :: items) toEnd s ↔ Behind c (Front items toEnd) s := by
  simp only [front_cons, Behind, mem_star_iff]

section Here

variable {P : List UInt8 → Prop} {re : List UInt8}
variable (hhere : ∀ text, matchhere re text = true ↔ P (cstr text))
include hhere

/-- The loop of `matchstar` tries `matchhere` behind every run of characters that `c` stands for. -/
theorem matchstar_iff (c : UInt8) (text : List UInt8) :
    matchstar c re text = true ↔ Behind c P (cstr text) := by
  induction text with
  | nil =>
    have hnil := hhere []
    rw [matchstar]
    simpa [charAt, cstr, behind_nil] using hnil
  | cons b text ih =>
    rw [matchstar]
    by_cases hb : b = 0
    · have hend : cstr (b :: text) = [] := cstr_of_charAt_eq hb
      rw [hend, behind_nil, ← hend, ← hhere]
      simp [charAt, hb]
    · have hmore : cstr (b :: text) = b :: cstr text := cstr_of_charAt_ne hb
      rw [hmore, behind_cons, ← hmore, ← hhere, ← ih]
      have hb0 : charAt (b :: text) 0 = b := rfl
      rw [hb0]
      simp [hb, Accepts, or_comm]

/-- `match` without an anchor is `.*` in front of the pattern. -/
theorem matchLoop_iff (text : List UInt8) :
    matchLoop re text = true ↔ ∃ before rest, cstr text = before ++ rest ∧ P rest := by
  have hstar : matchLoop re text = matchstar '.'.toUInt8 re text := by
    fun_induction matchLoop re text with
    | case1 text h =>
      rw [matchstar, if_pos h]
    | case2 text h htext ih =>
      rw [matchstar, if_neg h, if_pos ⟨htext, .inr rfl⟩]
      exact ih
    | case3 text h htext =>
      rw [matchstar, if_neg h, if_neg fun hand ↦ htext hand.1]
  rw [hstar, matchstar_iff hhere]
  simp [Behind, Accepts]

/-- A character without a star stands for the first character of the text. -/
theorem matchhere_once {c : UInt8} (hc : c ≠ 0) (hstar : charAt re 0 ≠ '*'.toUInt8)
    (hend : c = '$'.toUInt8 → charAt re 0 ≠ 0) (text : List UInt8) :
    matchhere (c :: re) text = true ↔ ∃ b s, cstr text = b :: s ∧ Accepts c b ∧ P s := by
  have hc0 : charAt (c :: re) 0 = c := rfl
  have hc1 : charAt (c :: re) 1 = charAt re 0 := by simp [charAt]
  rw [matchhere, hc0, hc1, if_neg hc, if_neg hstar, if_neg fun h ↦ hend h.1 h.2]
  by_cases htext : charAt text 0 = 0
  · simp [htext, cstr_of_charAt_eq htext]
  · have hthere := hhere (text.drop 1)
    have hsame : (c = '.'.toUInt8 ∨ c = charAt text 0) ↔ Accepts c (charAt text 0) :=
      or_congr_right eq_comm
    rw [cstr_of_charAt_ne htext, List.drop_one, List.tail_cons]
    by_cases haccepts : Accepts c (charAt text 0)
    · rw [if_pos ⟨htext, hsame.2 haccepts⟩, hthere]
      simp [haccepts]
    · rw [if_neg fun h ↦ haccepts (hsame.1 h.2)]
      simp [haccepts]

end Here

theorem matchhere_nil (text : List UInt8) : matchhere [] text = true := by
  rw [matchhere]
  rfl

/-- What `matchhere` looks for is what the pattern is read as. -/
theorem matchhere_iff {re : List UInt8} (hre : 0 ∉ re) (text : List UInt8) :
    matchhere re text = true ↔
      Front (Pattern.readItems re).1 (Pattern.readItems re).2 (cstr text) := by
  -- The cases are those of the reading: the end, a final character, a starred one, a plain one.
  induction re using Pattern.readItems.induct generalizing text with
  | case1 => simp [matchhere_nil, Pattern.readItems, front_nil]
  | case2 =>
    have hread : Pattern.readItems ['$'.toUInt8] = ([], true) := rfl
    rw [hread, front_nil, matchhere, if_neg (by decide), if_neg (by decide), if_pos (by decide)]
    by_cases htext : charAt text 0 = 0
    · simp [htext, cstr_of_charAt_eq htext]
    · simp [htext, cstr_of_charAt_ne htext]
  | case3 c hc =>
    have hnil : ∀ text, matchhere [] text = true ↔ Front [] false (cstr text) := by
      intro text
      simp [matchhere_nil, front_nil]
    have hread : Pattern.readItems [c] = ([⟨c, false⟩], false) := if_neg hc
    have hpos : c ≠ 0 := (List.ne_of_not_mem_cons hre).symm
    rw [matchhere_once hnil hpos (by decide) fun h ↦ absurd h hc, hread, front_once]
  | case4 c re ih =>
    have hmore : 0 ∉ re := fun h ↦ hre (by simp [h])
    have hc0 : charAt (c :: '*'.toUInt8 :: re) 0 = c := rfl
    have hc1 : charAt (c :: '*'.toUInt8 :: re) 1 = '*'.toUInt8 := rfl
    have hpos : c ≠ 0 := (List.ne_of_not_mem_cons hre).symm
    rw [matchhere, hc0, hc1, if_neg hpos, if_pos rfl, List.drop_succ_cons, List.drop_succ_cons,
      List.drop_zero, matchstar_iff (ih hmore), ← front_star]
    simp [Pattern.readItems]
  | case5 c d re hd ih =>
    have hmore : 0 ∉ d :: re := fun h ↦ hre (List.mem_cons_of_mem c h)
    have hpos : c ≠ 0 := (List.ne_of_not_mem_cons hre).symm
    have hnext : d ≠ 0 := (List.ne_of_not_mem_cons hmore).symm
    rw [matchhere_once (ih hmore) hpos hd fun _ ↦ hnext, ← front_once]
    simp [Pattern.readItems, hd]

/-! ## The Matcher and the Language of its Pattern -/

theorem Pattern.written_readItems (re : List UInt8) :
    (readItems re).1.flatMap Item.written ++
      (if (readItems re).2 then ['$'.toUInt8] else []) = re := by
  fun_induction readItems re with
  | case1 => rfl
  | case2 => rfl
  | case3 c hc => rfl
  | case4 c re rest ih => simpa [Item.written] using ih
  | case5 c d re hd rest ih => simpa [Item.written] using ih

theorem cstr_of_not_mem {text : List UInt8} (h : 0 ∉ text) : cstr text = text := by
  rw [cstr, List.takeWhile_eq_self_iff]
  intro b hb
  simpa using ne_of_mem_of_not_mem hb h

theorem Pattern.written_read (re : List UInt8) : (read re).written = re := by
  unfold read
  split
  next hanchor =>
    cases re with
    | nil => exact absurd hanchor (by decide)
    | cons c re =>
      have hc : c = '^'.toUInt8 := hanchor
      subst hc
      exact congrArg ('^'.toUInt8 :: ·) (written_readItems re)
  next => exact written_readItems re

theorem matchText_iff {re : List UInt8} (hre : 0 ∉ re) (text : List UInt8) :
    matchText re text = true ↔ ∃ before rest, cstr text = before ++ rest ∧
      ((Pattern.read re).anchored = true → before = []) ∧
      Front (Pattern.read re).items (Pattern.read re).toEnd rest := by
  unfold matchText Pattern.read
  split
  next hanchor =>
    have hmore : 0 ∉ re.drop 1 := fun h ↦ hre (List.mem_of_mem_drop h)
    simpa using matchhere_iff hmore text
  next => simp [matchLoop_iff (matchhere_iff hre)]

/-- `match` reads its text up to the first NUL. -/
theorem matchText_congr {re text text' : List UInt8} (hre : 0 ∉ re) (h : cstr text = cstr text') :
    matchText re text = matchText re text' := by
  rw [Bool.eq_iff_iff, matchText_iff hre, matchText_iff hre, h]

/-- `read` takes every pattern apart as it is written, and `match` finds a part of the text that is
in the language of the pattern whenever there is one: at the front of the text if the pattern starts
with `^`, at its end if it ends with `$`. -/
theorem match_finds_language {re text : List UInt8} (hre : 0 ∉ re) (htext : 0 ∉ text) :
    (Pattern.read re).written = re ∧
      (matchText re text = true ↔ ∃ before word behind,
        text = before ++ word ++ behind ∧ word ∈ (Pattern.read re).language ∧
          ((Pattern.read re).anchored = true → before = []) ∧
          ((Pattern.read re).toEnd = true → behind = [])) := by
  refine ⟨Pattern.written_read re, ?_⟩
  rw [matchText_iff hre, cstr_of_not_mem htext]
  constructor
  · rintro ⟨before, _, rfl, hbefore, word, behind, rfl, hword, hbehind⟩
    exact ⟨before, word, behind, (List.append_assoc ..).symm, hword, hbefore, hbehind⟩
  · rintro ⟨before, word, behind, rfl, hword, hbefore, hbehind⟩
    exact ⟨before, word ++ behind, List.append_assoc .., hbefore, word, behind, rfl, hword,
      hbehind⟩

/-- `match("a*$", "ba")`. -/
theorem match_finds_language_star :
    matchText [97, 42, 36] [98, 97] = true ↔ ∃ before word behind,
      [98, 97] = before ++ word ++ behind ∧ word ∈ (Pattern.read [97, 42, 36]).language ∧
        ((Pattern.read [97, 42, 36]).anchored = true → before = []) ∧
        ((Pattern.read [97, 42, 36]).toEnd = true → behind = []) :=
  (match_finds_language (by decide) (by decide)).2

end Xv6.User
