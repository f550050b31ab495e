import Xv6.Shell.Printing
import Xv6.Shell.Simulation

/-!
# The Shell Accepts its Grammar

`parsecmd` returns a command for the lines that the grammar derives, and it is the command of the
derivation.  `nulterminate` writes a NUL behind each string of the command; what it overwrites is
whitespace or a symbol, so the strings are the words of the line.
-/

namespace Xv6.Shell

open Lib

variable {line cur : List UInt8}

/-! ## Cutting off the strings -/

/-- `cur` is `line` with NULs in place of some bytes between the words. -/
structure Cut (line cur : List UInt8) : Prop where
  length : cur.length = line.length
  bytes : ∀ k, deref cur k = deref line k ∨
    deref cur k = 0 ∧ (k < line.length → isPlain (deref line k) = false)

theorem deref_set (cur : List UInt8) (i k : ℕ) :
    deref (cur.set i 0) k = if k = i then 0 else deref cur k := by
  simp only [deref, List.getD_eq_getElem?_getD, List.getElem?_set]
  by_cases hk : k = i
  · subst hk
    by_cases hlt : k < cur.length <;> simp [hlt]
  · simp [hk, Ne.symm hk]

/-- NULs are written behind words, from `cur` to `cur'`. -/
structure Cuts (line cur cur' : List UInt8) : Prop where
  cut : Cut line cur → Cut line cur'
  kept : ∀ k, deref cur k = 0 → deref cur' k = 0

theorem Cuts.trans {cur₁ cur₂ : List UInt8} (h : Cuts line cur cur₁) (h' : Cuts line cur₁ cur₂) :
    Cuts line cur cur₂ :=
  ⟨fun hcut ↦ h'.cut (h.cut hcut), fun k hk ↦ h'.kept k (h.kept k hk)⟩

/-- A NUL behind a word. -/
theorem Cuts.set {span : Span} (hword : span.IsWord line) : Cuts line cur (cur.set span.eq 0) := by
  refine ⟨fun h ↦ ⟨by rw [List.length_set, h.length], fun k ↦ ?_⟩, fun k hk ↦ ?_⟩
  · rw [deref_set]
    split
    · rename_i hk
      exact .inr ⟨rfl, hk ▸ hword.maximal⟩
    · exact h.bytes k
  · rw [deref_set]
    split
    · rfl
    · exact hk

theorem Cmd.All.mono {S : Type} {P Q : S → Prop} {cmd : Cmd S} (h : cmd.All P)
    (himp : ∀ s, P s → Q s) : cmd.All Q := by
  induction cmd with
  | exec argv => exact fun arg harg ↦ himp arg (h arg harg)
  | redir cmd file mode fd ih => exact ⟨ih h.1, himp file h.2⟩
  | pipe left right ihleft ihright => exact ⟨ihleft h.1, ihright h.2⟩
  | list left right ihleft ihright => exact ⟨ihleft h.1, ihright h.2⟩
  | back cmd ih => exact ih h

/-- A word with a NUL behind it. -/
def Ended (line cur : List UInt8) (span : Span) : Prop :=
  span.IsWord line ∧ deref cur span.eq = 0

theorem Cuts.ended {cur' : List UInt8} (h : Cuts line cur cur') {cmd : Cmd Span}
    (hended : cmd.All (Ended line cur)) : cmd.All (Ended line cur') :=
  hended.mono fun _ hspan ↦ ⟨hspan.1, h.kept _ hspan.2⟩

theorem ended_set {span : Span} (hword : span.IsWord line) : Ended line (cur.set span.eq 0) span :=
  ⟨hword, by rw [deref_set, if_pos rfl]⟩

/-- `nulterminate` writes a NUL behind each string. -/
theorem nulterminate_spec {cmd : Cmd Span} (hwords : cmd.All (Span.IsWord line))
    (cur : List UInt8) :
    Cuts line cur (nulterminate cmd cur) ∧ cmd.All (Ended line (nulterminate cmd cur)) := by
  induction cmd generalizing cur with
  | exec argv =>
    show Cuts line cur (argv.foldl (fun line arg ↦ line.set arg.eq 0) cur) ∧ ∀ arg ∈ argv,
      Ended line (argv.foldl (fun line arg ↦ line.set arg.eq 0) cur) arg
    induction argv generalizing cur with
    | nil => exact ⟨⟨id, fun _ ↦ id⟩, fun _ hmem ↦ by cases hmem⟩
    | cons arg argv ih =>
      have harg : arg.IsWord line := hwords arg List.mem_cons_self
      obtain ⟨hcuts, hended⟩ := ih (fun arg' hmem ↦
        hwords arg' (List.mem_cons_of_mem _ hmem)) (cur.set arg.eq 0)
      refine ⟨(Cuts.set harg).trans hcuts, fun arg' hmem ↦ ?_⟩
      rcases List.mem_cons.mp hmem with rfl | hmem
      · exact ⟨harg, hcuts.kept _ (ended_set harg).2⟩
      · exact hended arg' hmem
  | redir cmd file mode fd ih =>
    obtain ⟨hcuts, hended⟩ := ih hwords.1 cur
    have hset : Cuts line (nulterminate cmd cur) _ := Cuts.set hwords.2
    exact ⟨hcuts.trans hset, hset.ended hended, ended_set hwords.2⟩
  | pipe left right ihleft ihright =>
    obtain ⟨hcuts, hended⟩ := ihleft hwords.1 cur
    obtain ⟨hcuts', hended'⟩ := ihright hwords.2 (nulterminate left cur)
    exact ⟨hcuts.trans hcuts', hcuts'.ended hended, hended'⟩
  | list left right ihleft ihright =>
    obtain ⟨hcuts, hended⟩ := ihleft hwords.1 cur
    obtain ⟨hcuts', hended'⟩ := ihright hwords.2 (nulterminate left cur)
    exact ⟨hcuts.trans hcuts', hcuts'.ended hended, hended'⟩
  | back cmd ih => exact ih hwords cur

/-- The bytes up to a NUL. -/
theorem takeWhile_drop_eq {n q : ℕ} (hlength : q + n ≤ line.length)
    (hcur : cur.length = line.length)
    (hsame : ∀ k, q ≤ k → k < q + n → deref cur k = deref line k ∧ deref line k ≠ 0)
    (hend : deref cur (q + n) = 0) : (cur.drop q).takeWhile (· ≠ 0) = (line.drop q).take n := by
  induction n generalizing q with
  | zero =>
    rw [List.take_zero]
    rcases Nat.lt_or_ge q cur.length with hlt | hge
    · rw [drop_eq_deref hlt, List.takeWhile_cons_of_neg (by simpa using hend)]
    · rw [List.drop_of_length_le hge, List.takeWhile_nil]
  | succ n ih =>
    obtain ⟨heq, hne⟩ := hsame q le_rfl (by omega)
    have hq : q < line.length := by omega
    have hrest : deref cur (q + 1 + n) = 0 := by
      rw [show q + 1 + n = q + (n + 1) by omega]
      exact hend
    rw [drop_eq_deref hq, drop_eq_deref (hcur ▸ hq), heq,
      List.takeWhile_cons_of_pos (by simpa using hne), List.take_succ_cons,
      ih (by omega) (fun k hk hlt ↦ hsame k (by omega) (by omega)) hrest]

/-- Behind `nulterminate`, a string is the word in the line. -/
theorem Ended.cstring (hnul : 0 ∉ line) (hcut : Cut line cur) {span : Span}
    (h : Ended line cur span) : cstring cur span = slice line span := by
  obtain ⟨hword, hend⟩ := h
  have hle := hword.le
  refine takeWhile_drop_eq (by have := hword.le_length; omega) hcut.length (fun k hk hlt ↦ ?_)
    (by rw [Nat.add_sub_of_le hle]; exact hend)
  have hklt : k < line.length := by have := hword.le_length; omega
  have hplain := hword.plain k hk (by omega)
  constructor
  · rcases hcut.bytes k with heq | ⟨-, hnot⟩
    · exact heq
    · rw [hnot hklt] at hplain
      cases hplain
  · rw [deref, List.getD_eq_getElem _ _ hklt]
    exact fun hzero ↦ hnul (hzero ▸ List.getElem_mem hklt)

theorem Cmd.map_congr {S T : Type} {f g : S → T} {cmd : Cmd S} (h : cmd.All fun s ↦ f s = g s) :
    cmd.map f = cmd.map g := by
  induction cmd with
  | exec argv => exact congrArg Cmd.exec (List.map_congr_left h)
  | redir cmd file mode fd ih => rw [Cmd.map, Cmd.map, ih h.1, h.2]
  | pipe left right ihleft ihright => rw [Cmd.map, Cmd.map, ihleft h.1, ihright h.2]
  | list left right ihleft ihright => rw [Cmd.map, Cmd.map, ihleft h.1, ihright h.2]
  | back cmd ih => rw [Cmd.map, Cmd.map, ih h]

/-- The strings of a command are the words of the line. -/
theorem Shows.map_cstring (hnul : 0 ∉ line) {cmd : Cmd Span} {tree : Cmd (List UInt8)}
    (h : Shows line cmd tree) : cmd.map (cstring (nulterminate cmd line)) = tree := by
  obtain ⟨hcuts, hended⟩ := nulterminate_spec h.words line
  have hcut := hcuts.cut ⟨rfl, fun _ ↦ .inl rfl⟩
  rw [Cmd.map_congr (hended.mono fun _ hspan ↦ hspan.cstring hnul hcut), h.tree]

/-! ## Lines and derivations -/

theorem strlen_eq (hnul : 0 ∉ line) : strlen line = line.length := by
  rw [strlen, List.takeWhile_eq_self_iff.mpr fun c hmem ↦ ?_]
  simp only [ne_eq, decide_eq_true_eq]
  exact fun hzero ↦ hnul (hzero ▸ hmem)

/-- The command of a derivation of the whole line. -/
def readWhole (ts : List (Token (List UInt8))) (fuel : ℕ) : Except Stop (Cmd (List UInt8)) :=
  match read .line fuel ts with
  | .ok (d, []) => .ok d.cmd
  | .ok (_, _ :: _) => .error .leftovers
  | .error stop => .error stop

theorem parsewhole_spec (hnul : 0 ∉ line) :
    wp (parsewhole line line.length) (fun cmd _ ↦ ∃ tree,
      readWhole (lex line) (depth line.length) = .ok tree ∧ Shows line cmd tree)
      (fun e ↦ readWhole (lex line) (depth line.length) = .error e) 0 := by
  have hstart : tokens line 0 = lex line := by rw [tokens, List.drop_zero]
  have hsim := (parse_sim hnul (depth line.length)).1 0 (Nat.zero_le _)
  rw [Sim, hstart] at hsim
  rw [parsewhole, wp_bind]
  refine wp_mono hsim ?_ fun e herror ↦ by rw [readWhole, herror]
  rintro cmd s₁ ⟨hs₁, d, hread, hshows⟩
  rw [wp_bind, peek, wp_bind, wp_get, wp_bind, wp_set, wp_pure, wp_bind, wp_get]
  rcases tokens_cases hnul hs₁ with ⟨hend, htokens, -⟩ | ⟨c, cs, hdrop, -, -, -, htokens⟩
  · rw [if_neg (by simpa using hend), wp_pure]
    rw [htokens] at hread
    exact ⟨d.cmd, by rw [readWhole, hread], hshows⟩
  · have hlt : skipWhile line line.length isSpace s₁ ≠ line.length := by
      intro heq
      rw [heq, List.drop_length] at hdrop
      cases hdrop
    rw [if_pos hlt, wp_throw, readWhole, hread, htokens]

/-- `parsecmd` returns the command of the derivation of the line. -/
theorem command_eq (hnul : 0 ∉ line) : command line = readWhole (lex line) (depth line.length) := by
  have hspec := parsewhole_spec hnul
  rw [command, parsecmd, strlen_eq hnul]
  cases hparse : parsewhole line line.length 0 with
  | ok result =>
    obtain ⟨tree, hread, hshows⟩ := wp_of_ok hspec hparse
    rw [hread]
    exact congrArg Except.ok (hshows.map_cstring hnul)
  | error stop =>
    rw [wp_of_error hspec hparse]
    rfl

/-- The number of tokens of a line. -/
theorem length_lex_le (l : List UInt8) : (lex l).length ≤ l.length := by
  induction l using lex.induct with
  | case1 l h =>
    rw [lex_of_nil h]
    exact Nat.zero_le _
  | case2 l c cs h ih =>
    have hle := (lexToken_suffix c cs).length_le
    have hdrop := (List.dropWhile_suffix (l := l) isSpace).length_le
    rw [h, List.length_cons] at hdrop
    rw [lex_of_cons h, List.length_cons]
    omega

/-- A derivation of the tokens of a line is found. -/
theorem command_iff (hnul : 0 ∉ line) (tree : Cmd (List UInt8)) :
    command line = .ok tree ↔
      ∃ d : Deriv (List UInt8) .line, d.yield = lex line ∧ d.cmd = tree := by
  rw [command_eq hnul]
  constructor
  · intro h
    rw [readWhole] at h
    split at h
    · rename_i d hread
      obtain rfl := Except.ok.inj h
      exact ⟨d, by rw [read_sound hread, List.append_nil], rfl⟩
    · cases h
    · cases h
  · rintro ⟨d, hyield, rfl⟩
    have hle := length_lex_le line
    have hfollow : Follow .line ([] : List (Token (List UInt8))) := fun t ts heq ↦ by cases heq
    have hread : read .line (depth line.length) (d.yield ++ []) = .ok (d, []) :=
      read_complete d (by rw [hyield, depth, NonTerminal.weight]; omega) hfollow
    rw [List.append_nil, hyield] at hread
    rw [readWhole, hread]

theorem command_terminates (hnul : 0 ∉ line) : command line ≠ .error .diverges := by
  have hle := length_lex_le line
  have hread : read .line (depth line.length) (lex line) ≠ .error .diverges :=
    read_terminates (by rw [depth, NonTerminal.weight]; omega)
  rw [command_eq hnul, readWhole]
  split
  · exact fun h ↦ by cases h
  · exact fun h ↦ by cases h
  · rename_i stop hstop
    intro h
    cases h
    exact hread hstop

/-- **The shell accepts its grammar.**  For every line without a NUL, `parsecmd` returns a command
exactly if the tokens of the line have a derivation, which is unique, and returns the command of the
derivation; otherwise it panics.  It terminates, and parsing the text of the command that it returns
gives the command back. -/
theorem parsecmd_accepts_grammar (hnul : 0 ∉ line) :
    (∀ tree, command line = .ok tree ↔
      ∃ d : Deriv (List UInt8) .line, d.yield = lex line ∧ d.cmd = tree) ∧
    (∀ d d' : Deriv (List UInt8) .line, d.yield = lex line → d'.yield = lex line → d = d') ∧
    command line ≠ .error .diverges ∧
    ∀ tree, command line = .ok tree → 0 ∉ tree.print ∧ command tree.print = .ok tree := by
  refine ⟨command_iff hnul, fun d d' hd hd' ↦ Deriv.eq_of_yield (hd.trans hd'.symm),
    command_terminates hnul, fun tree htree ↦ ?_⟩
  obtain ⟨d, hyield, rfl⟩ := (command_iff hnul tree).mp htree
  have hvalid : d.cmd.Valid IsText := d.valid fun w hw ↦ texts_lex hnul w (hyield ▸ hw)
  have htexts : Texts (d.cmd.tokens .line) := fun w hw ↦ hvalid.word_tokens hw
  have hprint : 0 ∉ d.cmd.print := noNul_render htexts
  obtain ⟨d', hyield', hcmd⟩ := hvalid.derived.line
  refine ⟨hprint, (command_iff hprint _).mpr ⟨d', ?_, hcmd⟩⟩
  rw [hyield', Cmd.print, lex_render htexts]

/-- The line `(a;b)>c|d&`. -/
def sampleLine : List UInt8 :=
  [ch '(', ch 'a', ch ';', ch 'b', ch ')', ch '>', ch 'c', ch '|', ch 'd', ch '&']

def sampleTree : Cmd (List UInt8) :=
  .back (.pipe (.redir (.list (.exec [[ch 'a']]) (.exec [[ch 'b']])) [ch 'c']
    (O_WRONLY + O_CREATE + O_TRUNC) 1) (.exec [[ch 'd']]))

/-- The line is parsed, and so is the text of its command. -/
theorem parsecmd_accepts_grammar_sample :
    command sampleLine = .ok sampleTree ∧ command sampleTree.print = .ok sampleTree := by
  have hok : command sampleLine = .ok sampleTree := by rfl
  exact ⟨hok, ((parsecmd_accepts_grammar (by decide)).2.2.2 _ hok).2⟩

/-! ## The strings in the line -/

/-- The pointers and the line that `parsecmd` returns. -/
theorem parsecmd_shows (hnul : 0 ∉ line) {cmd : Cmd Span} (h : parsecmd line = .ok (cmd, cur)) :
    cur = nulterminate cmd line ∧ ∃ tree, Shows line cmd tree := by
  have hspec := parsewhole_spec hnul
  rw [parsecmd, strlen_eq hnul] at h
  cases hparse : parsewhole line line.length 0 with
  | ok result =>
    obtain ⟨tree, -, hshows⟩ := wp_of_ok hspec hparse
    rw [hparse] at h
    obtain ⟨rfl, rfl⟩ := Prod.mk.inj (Except.ok.inj h)
    exact ⟨rfl, tree, hshows⟩
  | error stop =>
    rw [hparse] at h
    cases h

/-- A NUL that was not in the line stands at no byte of a word. -/
theorem Cut.outside (hnul : 0 ∉ line) (hcut : Cut line cur) {span : Span}
    (hword : span.IsWord line) {k : ℕ} (hk : deref cur k = 0) : k < span.q ∨ span.eq ≤ k := by
  by_contra hinside
  have hlt : k < line.length := by
    have := hword.le_length
    omega
  have hplain := hword.plain k (by omega) (by omega)
  rcases hcut.bytes k with heq | ⟨-, hnot⟩
  · rw [hk, deref, List.getD_eq_getElem _ _ hlt] at heq
    exact hnul (heq ▸ List.getElem_mem hlt)
  · rw [hnot hlt] at hplain
    cases hplain

/-- **`nulterminate` cuts off the words.**  In the line that `parsecmd` returns, every string of the
command is the word of the line that its pointer stands for, with a NUL behind its last byte; no NUL
stands inside a word.  These words are the ones that the grammar has at the string's place. -/
theorem nulterminate_cuts_words (hnul : 0 ∉ line) {cmd : Cmd Span}
    (h : parsecmd line = .ok (cmd, cur)) :
    cmd.All (fun span ↦ span.IsWord line ∧ deref cur span.eq = 0 ∧
      cstring cur span = slice line span) ∧
    (∀ k, deref cur k = 0 → cmd.All fun span ↦ k < span.q ∨ span.eq ≤ k) ∧
    ∃ d : Deriv (List UInt8) .line, d.yield = lex line ∧ d.cmd = cmd.map (slice line) := by
  obtain ⟨rfl, tree, hshows⟩ := parsecmd_shows hnul h
  obtain ⟨hcuts, hended⟩ := nulterminate_spec hshows.words line
  have hcut := hcuts.cut ⟨rfl, fun _ ↦ .inl rfl⟩
  refine ⟨hended.mono fun span hspan ↦ ⟨hspan.1, hspan.2, hspan.cstring hnul hcut⟩,
    fun k hk ↦ hshows.words.mono fun span hword ↦ hcut.outside hnul hword hk, ?_⟩
  have hcommand : command line = .ok tree := by
    rw [command, h]
    exact congrArg Except.ok (hshows.map_cstring hnul)
  obtain ⟨d, hyield, hcmd⟩ := (command_iff hnul tree).mp hcommand
  exact ⟨d, hyield, hcmd.trans hshows.tree.symm⟩

/-- The pointers into `(a;b)>c|d&`. -/
def sampleCmd : Cmd Span :=
  .back (.pipe (.redir (.list (.exec [⟨1, 2⟩]) (.exec [⟨3, 4⟩])) ⟨6, 7⟩
    (O_WRONLY + O_CREATE + O_TRUNC) 1) (.exec [⟨8, 9⟩]))

/-- The line `(a;b)>c|d&` with its strings cut off. -/
def sampleCut : List UInt8 :=
  [ch '(', ch 'a', 0, ch 'b', 0, ch '>', ch 'c', 0, ch 'd', 0]

theorem nulterminate_cuts_words_sample :
    parsecmd sampleLine = .ok (sampleCmd, sampleCut) ∧
      sampleCmd.All fun span ↦ span.IsWord sampleLine ∧ deref sampleCut span.eq = 0 ∧
        cstring sampleCut span = slice sampleLine span := by
  have hok : parsecmd sampleLine = .ok (sampleCmd, sampleCut) := by rfl
  exact ⟨hok, (nulterminate_cuts_words (by decide) hok).1⟩

end Xv6.Shell
