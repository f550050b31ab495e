import Mathlib.Data.List.DropRight
import Mathlib.Data.List.GetD
import Xv6.Shell.Grammar

/-!
# The Tokens of a Line

`lex` cuts a line into tokens: words are maximal runs of bytes that are neither whitespace nor
symbols, and `>>` is one token.  The cursor of the parser stands for the tokens behind it; `peek`
looks at the first of them, and `gettoken` takes it away.
-/

namespace Xv6.Shell

open Lib

/-- The token at the front of `c :: cs`, where `c` is no whitespace, and the bytes behind it. -/
def lexToken (c : UInt8) (cs : List UInt8) : Token (List UInt8) × List UInt8 :=
  if c = ch '|' then (.bar, cs)
  else if c = ch '(' then (.lpar, cs)
  else if c = ch ')' then (.rpar, cs)
  else if c = ch ';' then (.semi, cs)
  else if c = ch '&' then (.amp, cs)
  else if c = ch '<' then (.redir .input, cs)
  else if c = ch '>' then
    if cs.head? = some (ch '>') then (.redir .append, cs.tail) else (.redir .output, cs)
  else (.word (c :: cs.takeWhile isPlain), cs.dropWhile isPlain)

theorem lexToken_suffix (c : UInt8) (cs : List UInt8) : (lexToken c cs).2 <:+ cs := by
  have hdrop := List.dropWhile_suffix (l := cs) isPlain
  have htail := List.tail_suffix cs
  unfold lexToken
  split_ifs <;> first | exact List.suffix_rfl | exact htail | exact hdrop

/-- The tokens of a line. -/
def lex (l : List UInt8) : List (Token (List UInt8)) :=
  match _h : l.dropWhile isSpace with
  | [] => []
  | c :: cs => (lexToken c cs).1 :: lex (lexToken c cs).2
termination_by l.length
decreasing_by
  have hle := (lexToken_suffix c cs).length_le
  have hdrop := (List.dropWhile_suffix (l := l) isSpace).length_le
  rw [_h, List.length_cons] at hdrop
  omega

theorem lex_of_nil {l : List UInt8} (h : l.dropWhile isSpace = []) : lex l = [] := by
  rw [lex]
  split
  · rfl
  · rename_i c cs heq
    rw [h] at heq
    cases heq

theorem lex_of_cons {l cs : List UInt8} {c : UInt8} (h : l.dropWhile isSpace = c :: cs) :
    lex l = (lexToken c cs).1 :: lex (lexToken c cs).2 := by
  rw [lex]
  split
  · rename_i heq
    rw [h] at heq
    cases heq
  · rename_i c' cs' heq
    rw [h] at heq
    cases heq
    rfl

/-- Whitespace in front of the tokens does not matter. -/
theorem lex_dropWhile (l : List UInt8) : lex (l.dropWhile isSpace) = lex l := by
  have hidem : (l.dropWhile isSpace).dropWhile isSpace = l.dropWhile isSpace :=
    List.dropWhile_idempotent _ _
  cases h : l.dropWhile isSpace with
  | nil => rw [lex_of_nil h, lex_of_nil rfl]
  | cons c cs => rw [lex_of_cons h, lex_of_cons (by rw [← h, hidem])]

/-! ## The cursor -/

variable {line : List UInt8}

theorem drop_eq_deref {s : ℕ} (hs : s < line.length) :
    line.drop s = deref line s :: line.drop (s + 1) := by
  rw [deref, List.getD_eq_getElem _ _ hs, List.drop_eq_getElem_cons hs]

theorem skipLoop_spec (p : UInt8 → Bool) {n s : ℕ} (hs : s + n = line.length) :
    line.drop (skipLoop line p n s) = (line.drop s).dropWhile p ∧ s ≤ skipLoop line p n s ∧
      skipLoop line p n s ≤ line.length ∧
      ∀ k, s ≤ k → k < skipLoop line p n s → p (deref line k) = true := by
  induction n generalizing s with
  | zero =>
    rw [skipLoop, List.drop_of_length_le (by omega)]
    exact ⟨rfl, le_rfl, by omega, fun k hk hlt ↦ by omega⟩
  | succ n ih =>
    have hlt : s < line.length := by omega
    rw [skipLoop, drop_eq_deref hlt]
    split
    · rename_i hp
      obtain ⟨hrest, hle, hle', hrun⟩ := ih (s := s + 1) (by omega)
      refine ⟨?_, by omega, hle', fun k hk hlt ↦ ?_⟩
      · rw [List.dropWhile_cons_of_pos hp, hrest]
      · rcases Nat.eq_or_lt_of_le hk with rfl | hgt
        · exact hp
        · exact hrun k hgt hlt
    · rename_i hp
      refine ⟨?_, le_rfl, hlt.le, fun k hk hlt ↦ by omega⟩
      rw [List.dropWhile_cons_of_neg hp, drop_eq_deref hlt]

theorem skipWhile_spec (p : UInt8 → Bool) {s : ℕ} (hs : s ≤ line.length) :
    line.drop (skipWhile line line.length p s) = (line.drop s).dropWhile p ∧
      s ≤ skipWhile line line.length p s ∧ skipWhile line line.length p s ≤ line.length ∧
      ∀ k, s ≤ k → k < skipWhile line line.length p s → p (deref line k) = true :=
  skipLoop_spec p (Nat.add_sub_of_le hs)

/-- The tokens behind the cursor. -/
def tokens (line : List UInt8) (s : ℕ) : List (Token (List UInt8)) := lex (line.drop s)

theorem tokens_skip {s : ℕ} (hs : s ≤ line.length) :
    tokens line (skipWhile line line.length isSpace s) = tokens line s := by
  rw [tokens, (skipWhile_spec isSpace hs).1, lex_dropWhile, tokens]

/-- The byte that a token begins with, for tokens other than words. -/
def Token.first {W : Type} : Token W → Option UInt8
  | .word _ => none
  | .redir .input => some (ch '<')
  | .redir _ => some (ch '>')
  | .bar => some (ch '|')
  | .amp => some (ch '&')
  | .semi => some (ch ';')
  | .lpar => some (ch '(')
  | .rpar => some (ch ')')

/-- What `gettoken` returns for a token. -/
def Token.code {W : Type} : Token W → UInt8
  | .word _ => ch 'a'
  | .redir .input => ch '<'
  | .redir .output => ch '>'
  | .redir .append => ch '+'
  | .bar => ch '|'
  | .amp => ch '&'
  | .semi => ch ';'
  | .lpar => ch '('
  | .rpar => ch ')'

/-- A symbol is a token, and every other byte belongs to a word. -/
theorem first_lexToken (c : UInt8) (cs : List UInt8) :
    (lexToken c cs).1.first = if c ∈ symbols then some c else none := by
  unfold lexToken
  split_ifs <;> simp_all [Token.first, symbols]

/-- Where the cursor stands after the whitespace: at the end, or in front of a token. -/
theorem tokens_cases {s : ℕ} (hnul : 0 ∉ line) (hs : s ≤ line.length) :
    (skipWhile line line.length isSpace s = line.length ∧ tokens line s = [] ∧
        deref line (skipWhile line line.length isSpace s) = 0) ∨
      ∃ c cs, line.drop (skipWhile line line.length isSpace s) = c :: cs ∧
        deref line (skipWhile line line.length isSpace s) = c ∧ c ≠ 0 ∧ isSpace c = false ∧
        tokens line s = (lexToken c cs).1 :: lex (lexToken c cs).2 := by
  obtain ⟨hdrop, -, hle, -⟩ := skipWhile_spec isSpace hs
  set q := skipWhile line line.length isSpace s
  cases hrest : (line.drop s).dropWhile isSpace with
  | nil =>
    rw [hrest] at hdrop
    have hq : q = line.length := le_antisymm hle (List.drop_eq_nil_iff.mp hdrop)
    refine .inl ⟨hq, lex_of_nil hrest, ?_⟩
    rw [deref, hq, List.getD_eq_default _ _ le_rfl]
  | cons c cs =>
    have hq : q < line.length := by
      rcases Nat.lt_or_ge q line.length with hlt | hge
      · exact hlt
      · rw [hrest, List.drop_of_length_le hge] at hdrop
        cases hdrop
    rw [hrest] at hdrop
    have hderef : deref line q = c := by
      rw [drop_eq_deref hq] at hdrop
      exact (List.cons.inj hdrop).1
    have hspace : isSpace c = false := by
      have := List.head_dropWhile_not isSpace (l := line.drop s) (by rw [hrest]; simp)
      simpa [hrest] using this
    refine .inr ⟨c, cs, hdrop, hderef, ?_, hspace, lex_of_cons hrest⟩
    rintro rfl
    exact hnul (List.mem_of_mem_drop (hdrop ▸ List.mem_cons_self))

/-- `peek` looks at the next token. -/
theorem peek_spec {toks : List UInt8} (htoks : toks ⊆ symbols) {E : Stop → Prop} {s : ℕ}
    (hnul : 0 ∉ line) (hs : s ≤ line.length) :
    wp (peek line line.length toks) (fun found s' ↦ s' ≤ line.length ∧
      tokens line s' = tokens line s ∧
      (found = true ↔ ∃ t ts, tokens line s = t :: ts ∧ ∃ c ∈ toks, t.first = some c)) E s := by
  rw [peek, wp_bind, wp_get, wp_bind, wp_set, wp_pure]
  refine ⟨(skipWhile_spec isSpace hs).2.2.1, tokens_skip hs, ?_⟩
  rcases tokens_cases hnul hs with ⟨-, htokens, hderef⟩ | ⟨c, cs, -, hderef, hne, -, htokens⟩
  · simp [htokens, hderef]
  · rw [htokens, hderef]
    simp only [decide_eq_true_eq, hne, ne_eq, not_false_eq_true, true_and, List.cons.injEq]
    constructor
    · intro hmem
      refine ⟨_, _, ⟨rfl, rfl⟩, c, hmem, ?_⟩
      rw [first_lexToken, if_pos (htoks hmem)]
    · rintro ⟨t, ts, ⟨rfl, rfl⟩, c', hmem, hfirst⟩
      rw [first_lexToken] at hfirst
      split at hfirst
      · exact (Option.some.inj hfirst) ▸ hmem
      · cases hfirst

theorem first_eq_iff {W : Type} (t : Token W) :
    (t.first = some (ch '&') ↔ t = .amp) ∧ (t.first = some (ch ';') ↔ t = .semi) ∧
      (t.first = some (ch '|') ↔ t = .bar) ∧ (t.first = some (ch '(') ↔ t = .lpar) ∧
      (t.first = some (ch ')') ↔ t = .rpar) := by
  cases t with
  | redir kind => cases kind <;> simp +decide [Token.first]
  | _ => simp +decide [Token.first]

/-- `peek` for one symbol. -/
theorem peek_token {c : UInt8} {t : Token (List UInt8)} (hc : c ∈ symbols)
    (ht : ∀ t' : Token (List UInt8), t'.first = some c ↔ t' = t) {E : Stop → Prop} {s : ℕ}
    (hnul : 0 ∉ line) (hs : s ≤ line.length) :
    wp (peek line line.length [c]) (fun found s' ↦ s' ≤ line.length ∧
      tokens line s' = tokens line s ∧ (found = true ↔ ∃ ts, tokens line s = t :: ts)) E s := by
  refine wp_post (peek_spec (fun c' hmem ↦ List.mem_singleton.mp hmem ▸ hc) hnul hs) ?_
  rintro found s' ⟨hs', htokens, hfound⟩
  refine ⟨hs', htokens, hfound.trans ⟨?_, ?_⟩⟩
  · rintro ⟨t', ts, heq, c', hmem, hfirst⟩
    rw [List.mem_singleton.mp hmem, ht] at hfirst
    exact ⟨ts, hfirst ▸ heq⟩
  · rintro ⟨ts, heq⟩
    exact ⟨t, ts, heq, c, List.mem_singleton_self c, (ht t).mpr rfl⟩

/-- `peek` for the redirections. -/
theorem peek_redir {E : Stop → Prop} {s : ℕ} (hnul : 0 ∉ line) (hs : s ≤ line.length) :
    wp (peek line line.length [ch '<', ch '>']) (fun found s' ↦ s' ≤ line.length ∧
      tokens line s' = tokens line s ∧
      (found = true ↔ ∃ kind ts, tokens line s = .redir kind :: ts)) E s := by
  refine wp_post (peek_spec (by decide) hnul hs) ?_
  rintro found s' ⟨hs', htokens, hfound⟩
  refine ⟨hs', htokens, hfound.trans ⟨?_, ?_⟩⟩
  · rintro ⟨t, ts, heq, c, hmem, hfirst⟩
    cases t with
    | redir kind => exact ⟨kind, ts, heq⟩
    | word w => cases hfirst
    | _ =>
      cases hfirst
      exact absurd hmem (by decide)
  · rintro ⟨kind, ts, heq⟩
    refine ⟨_, ts, heq, ?_⟩
    cases kind <;> simp [Token.first]

/-- `peek` for what may stand behind a command. -/
theorem peek_follows {E : Stop → Prop} {s : ℕ} (hnul : 0 ∉ line) (hs : s ≤ line.length) :
    wp (peek line line.length [ch '|', ch ')', ch '&', ch ';']) (fun found s' ↦ s' ≤ line.length ∧
      tokens line s' = tokens line s ∧
      (found = true ↔ ∃ t ts, tokens line s = t :: ts ∧ t.follows .exec = true)) E s := by
  refine wp_post (peek_spec (by decide) hnul hs) ?_
  rintro found s' ⟨hs', htokens, hfound⟩
  refine ⟨hs', htokens, hfound.trans (exists_congr fun t ↦ exists_congr fun ts ↦
    and_congr_right fun _ ↦ ?_)⟩
  cases t with
  | word w => simp [Token.first, Token.follows]
  | redir kind => cases kind <;> decide
  | _ => decide

/-- A word of the line: a maximal run of plain bytes. -/
structure Span.IsWord (line : List UInt8) (span : Span) : Prop where
  le : span.q ≤ span.eq
  le_length : span.eq ≤ line.length
  plain : ∀ k, span.q ≤ k → k < span.eq → isPlain (deref line k) = true
  maximal : span.eq < line.length → isPlain (deref line span.eq) = false

/-- The bytes of a span. -/
def slice (line : List UInt8) (span : Span) : List UInt8 :=
  (line.drop span.q).take (span.eq - span.q)

/-- The word at the cursor. -/
theorem isWord_skipWhile {q : ℕ} (hq : q ≤ line.length) :
    Span.IsWord line ⟨q, skipWhile line line.length isPlain q⟩ ∧
      slice line ⟨q, skipWhile line line.length isPlain q⟩ = (line.drop q).takeWhile isPlain := by
  obtain ⟨hdrop, hge, hle, hrun⟩ := skipWhile_spec isPlain hq
  refine ⟨⟨hge, hle, hrun, fun hlt ↦ ?_⟩, ?_⟩
  · rw [drop_eq_deref hlt] at hdrop
    have hhead := List.head_dropWhile_not isPlain (l := line.drop q) (by rw [← hdrop]; simp)
    simpa [← hdrop] using hhead
  · have happend := List.takeWhile_append_dropWhile (p := isPlain) (l := line.drop q)
    have hlength : ((line.drop q).takeWhile isPlain).length =
        skipWhile line line.length isPlain q - q := by
      have hsum := congrArg List.length happend
      rw [← hdrop, List.length_append, List.length_drop, List.length_drop] at hsum
      omega
    conv_lhs => rw [slice, ← happend, ← hlength]
    exact List.take_left

/-- A token at the cursor. -/
theorem tokenAt_spec {q : ℕ} {c : UInt8} {cs : List UInt8} (hdrop : line.drop q = c :: cs)
    (hne : c ≠ 0) (hspace : isSpace c = false) :
    (tokenAt line line.length q).2 ≤ line.length ∧
      line.drop (tokenAt line line.length q).2 = (lexToken c cs).2 ∧
      (tokenAt line line.length q).1 = (lexToken c cs).1.code ∧
      ∀ w, (lexToken c cs).1 = .word w →
        Span.IsWord line ⟨q, (tokenAt line line.length q).2⟩ ∧
          slice line ⟨q, (tokenAt line line.length q).2⟩ = w := by
  have hq : q < line.length := by
    rcases Nat.lt_or_ge q line.length with hlt | hge
    · exact hlt
    · rw [List.drop_of_length_le hge] at hdrop
      cases hdrop
  have hcons := drop_eq_deref hq
  rw [hdrop, List.cons.injEq] at hcons
  obtain ⟨hc, hcs⟩ := hcons
  rw [tokenAt, ← hc]
  by_cases hsymbol : c ∈ [ch '|', ch '(', ch ')', ch ';', ch '&', ch '<']
  · rw [if_neg hne, if_pos hsymbol]
    refine ⟨hq, ?_⟩
    simp only [List.mem_cons, List.not_mem_nil, or_false] at hsymbol
    rcases hsymbol with rfl | rfl | rfl | rfl | rfl | rfl
    all_goals exact ⟨hcs.symm, rfl, fun w hw ↦ by cases hw⟩
  · rw [if_neg hne, if_neg hsymbol]
    simp only [List.mem_cons, List.not_mem_nil, or_false, not_or] at hsymbol
    obtain ⟨hbar, hlpar, hrpar, hsemi, hamp, hless⟩ := hsymbol
    rw [lexToken, if_neg hbar, if_neg hlpar, if_neg hrpar, if_neg hsemi, if_neg hamp, if_neg hless]
    by_cases hmore : c = ch '>'
    · rw [if_pos hmore, if_pos hmore]
      have hnext : cs.head? = some (ch '>') ↔ deref line (q + 1) = ch '>' := by
        rw [hcs, List.head?_drop, deref, List.getD_eq_getElem?_getD]
        cases (line)[q + 1]? with
        | none => decide
        | some c' => exact Option.some_inj
      by_cases happend : deref line (q + 1) = ch '>'
      · rw [if_pos happend, if_pos (hnext.mpr happend)]
        have hlt : q + 1 < line.length := by
          by_contra hge
          rw [deref, List.getD_eq_default _ _ (by omega)] at happend
          exact absurd happend (by decide)
        refine ⟨hlt, ?_, rfl, fun w hw ↦ by cases hw⟩
        rw [hcs, List.tail_drop]
      · rw [if_neg happend, if_neg (hnext.not.mpr happend)]
        exact ⟨hq, hcs.symm, by rw [hmore]; rfl, fun w hw ↦ by cases hw⟩
    · rw [if_neg hmore, if_neg hmore]
      have hplain : isPlain c = true := by
        simp [isPlain, symbols, hbar, hlpar, hrpar, hsemi, hamp, hless, hmore]
        simpa [isSpace] using hspace
      obtain ⟨hword, hslice⟩ := isWord_skipWhile hq.le
      refine ⟨hword.le_length, ?_, rfl, fun w hw ↦ ⟨hword, ?_⟩⟩
      · rw [(skipWhile_spec isPlain hq.le).1, hdrop, List.dropWhile_cons_of_pos hplain]
      · cases hw
        rw [hslice, hdrop, List.takeWhile_cons_of_pos hplain]

/-- `gettoken` takes the next token away. -/
theorem gettoken_spec {E : Stop → Prop} {s : ℕ} (hnul : 0 ∉ line) (hs : s ≤ line.length) :
    wp (gettoken line line.length) (fun r s' ↦ s' ≤ line.length ∧
      ((tokens line s = [] ∧ tokens line s' = [] ∧ r.1 = 0) ∨
        ∃ t ts, tokens line s = t :: ts ∧ tokens line s' = ts ∧ r.1 = t.code ∧
          ∀ w, t = .word w → r.2.IsWord line ∧ slice line r.2 = w)) E s := by
  rw [gettoken, wp_bind, wp_get]
  dsimp only
  set q := skipWhile line line.length isSpace s with hq
  rcases tokens_cases hnul hs with ⟨hend, htokens, hderef⟩ | ⟨c, cs, hdrop, -, hne, hspace, htokens⟩
  · have htoken : tokenAt line line.length q = (0, q) := by rw [tokenAt, hderef, if_pos rfl]
    rw [htoken]
    dsimp only
    rw [wp_bind, wp_set, wp_pure]
    refine ⟨(skipWhile_spec isSpace hend.le).2.2.1, .inl ⟨htokens, ?_, rfl⟩⟩
    rw [tokens_skip hend.le, tokens_skip hs, htokens]
  · have hspec := tokenAt_spec hdrop hne hspace
    cases htoken : tokenAt line line.length q with
    | mk ret eq =>
      rw [← hq, htoken] at hspec
      obtain ⟨hle, hrest, hcode, hword⟩ := hspec
      dsimp only
      rw [wp_bind, wp_set, wp_pure]
      refine ⟨(skipWhile_spec isSpace hle).2.2.1, .inr ⟨_, _, htokens, ?_, hcode, hword⟩⟩
      rw [tokens_skip hle, tokens, hrest]

theorem gettoken_cons {E : Stop → Prop} {s : ℕ} (hnul : 0 ∉ line) (hs : s ≤ line.length)
    {t : Token (List UInt8)} {ts : List (Token (List UInt8))} (htokens : tokens line s = t :: ts) :
    wp (gettoken line line.length) (fun r s' ↦ s' ≤ line.length ∧ tokens line s' = ts ∧
      r.1 = t.code ∧ ∀ w, t = .word w → r.2.IsWord line ∧ slice line r.2 = w) E s := by
  refine wp_post (gettoken_spec hnul hs) ?_
  rintro r s' ⟨hs', ⟨hnil, -⟩ | ⟨t', ts', hcons, hrest, hcode, hword⟩⟩
  · rw [hnil] at htokens
    cases htokens
  · rw [hcons] at htokens
    cases htokens
    exact ⟨hs', hrest, hcode, hword⟩

end Xv6.Shell
