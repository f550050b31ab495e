import Xv6.Shell.Lexer

/-!
# The Parser Reads Derivations

Each function of the parser does on the line what `read` does on the tokens behind the cursor: it
returns the command of the derivation that `read` finds, or panics as `read` does.
-/

namespace Xv6.Shell

open Lib

/-- A predicate on the strings of a command. -/
def Cmd.All {S : Type} (P : S → Prop) : Cmd S → Prop
  | .exec argv => ∀ arg ∈ argv, P arg
  | .redir cmd file _ _ => cmd.All P ∧ P file
  | .pipe left right => left.All P ∧ right.All P
  | .list left right => left.All P ∧ right.All P
  | .back cmd => cmd.All P

variable {line : List UInt8}

/-- The pointers of `cmd` stand for the words of `tree`. -/
structure Shows (line : List UInt8) (cmd : Cmd Span) (tree : Cmd (List UInt8)) : Prop where
  words : cmd.All (Span.IsWord line)
  tree : cmd.map (slice line) = tree

namespace Shows

variable {cmd cmd' : Cmd Span} {tree tree' : Cmd (List UInt8)} {span : Span} {w : List UInt8}

theorem pushArg (h : Shows line cmd tree) (hword : span.IsWord line)
    (hslice : slice line span = w) :
    Shows line (cmd.pushArg span) (tree.pushArg w) := by
  obtain ⟨hwords, rfl⟩ := h
  rw [← hslice]
  clear hslice
  induction cmd with
  | exec argv =>
    refine ⟨fun arg harg ↦ ?_, by simp [Cmd.map, Cmd.pushArg]⟩
    rcases List.mem_append.mp harg with hold | hnew
    · exact hwords arg hold
    · exact List.mem_singleton.mp hnew ▸ hword
  | redir cmd file mode fd ih =>
    obtain ⟨hwords', htree⟩ := ih hwords.1
    exact ⟨⟨hwords', hwords.2⟩, by rw [Cmd.pushArg, Cmd.map, htree]; rfl⟩
  | pipe => exact ⟨hwords, rfl⟩
  | list => exact ⟨hwords, rfl⟩
  | back => exact ⟨hwords, rfl⟩

theorem redir (h : Shows line cmd tree) (hword : span.IsWord line) (hslice : slice line span = w)
    (kind : RedirKind) :
    Shows line (.redir cmd span kind.mode kind.fd) (Redir.wrap tree ⟨kind, w⟩) :=
  ⟨⟨h.words, hword⟩, by rw [Cmd.map, h.tree, hslice]; rfl⟩

end Shows

/-- `parseredirs` wraps the command. -/
theorem parseredirs_sim (hnul : 0 ∉ line) {fuel s : ℕ} (hs : s ≤ line.length) {cmd : Cmd Span}
    {tree : Cmd (List UInt8)} (h : Shows line cmd tree) :
    wp (parseredirs line line.length fuel cmd) (fun cmd' s' ↦ s' ≤ line.length ∧ ∃ redirs,
      readRedirs fuel (tokens line s) = .ok (redirs, tokens line s') ∧
        Shows line cmd' (redirs.foldl Redir.wrap tree))
      (fun e ↦ readRedirs fuel (tokens line s) = .error e) s := by
  induction fuel generalizing s cmd tree with
  | zero => exact rfl
  | succ fuel ih =>
    rw [parseredirs, wp_bind]
    refine wp_post (peek_redir hnul hs) ?_
    rintro found s₁ ⟨hs₁, htokens₁, hfound⟩
    cases found with
    | false =>
      have hnot : ∀ kind ts, tokens line s ≠ .redir kind :: ts := fun kind ts heq ↦ by
        cases hfound.mpr ⟨kind, ts, heq⟩
      refine ⟨hs₁, [], ?_, h⟩
      rw [readRedirs_of_not hnot, htokens₁]
    | true =>
      obtain ⟨kind, ts, hredir⟩ := hfound.mp rfl
      rw [if_pos rfl, wp_bind]
      refine wp_post (gettoken_cons hnul hs₁ (htokens₁.trans hredir)) ?_
      rintro ⟨tok, span⟩ s₂ ⟨hs₂, htokens₂, rfl, -⟩
      dsimp only
      rw [wp_bind]
      refine wp_post (gettoken_spec hnul hs₂) ?_
      rintro ⟨ret, file⟩ s₃ ⟨hs₃, hcases⟩
      rw [htokens₂] at hcases
      rw [hredir]
      dsimp only at hcases ⊢
      rcases hcases with ⟨rfl, -, rfl⟩ | ⟨t, ts', rfl, htokens₃, rfl, hword⟩
      · rw [if_pos (by decide)]
        exact rfl
      · cases t with
        | word w =>
          obtain ⟨hisWord, hslice⟩ := hword w rfl
          have hnext := ih hs₃ (h.redir hisWord hslice kind)
          rw [htokens₃] at hnext
          rw [if_neg (by simp [Token.code])]
          have hswitch : redirTo (Token.redir kind : Token (List UInt8)).code cmd file =
              .redir cmd file kind.mode kind.fd := by
            cases kind <;> rfl
          rw [hswitch]
          refine wp_mono hnext ?_ ?_
          · rintro cmd' s' ⟨hs', redirs, hread, hshows⟩
            refine ⟨hs', ⟨kind, w⟩ :: redirs, ?_, hshows⟩
            rw [readRedirs, hread]
            rfl
          · intro e hread
            rw [readRedirs, hread]
            rfl
        | redir kind' =>
          rw [if_pos (by cases kind' <;> decide)]
          exact rfl
        | _ =>
          rw [if_pos (by decide)]
          exact rfl

/-- The words of a command. -/
theorem parseargs_sim (hnul : 0 ∉ line) {fuel argc s : ℕ} (hs : s ≤ line.length) {cmd : Cmd Span}
    {tree : Cmd (List UInt8)} (h : Shows line cmd tree) :
    wp (parseargs line line.length fuel argc cmd) (fun cmd' s' ↦ s' ≤ line.length ∧ ∃ args,
      readArgs fuel argc (tokens line s) = .ok (args, tokens line s') ∧
        Shows line cmd' (args.foldl Arg.push tree))
      (fun e ↦ readArgs fuel argc (tokens line s) = .error e) s := by
  induction fuel generalizing argc s cmd tree with
  | zero => exact rfl
  | succ fuel ih =>
    rw [parseargs, wp_bind]
    refine wp_post (peek_follows hnul hs) ?_
    rintro found s₁ ⟨hs₁, htokens₁, hfound⟩
    cases found with
    | true =>
      obtain ⟨t, ts, htokens, hfollows⟩ := hfound.mp rfl
      refine ⟨hs₁, [], ?_, h⟩
      rw [htokens₁, htokens]
      cases t <;> first | rfl | cases hfollows
    | false =>
      rw [if_neg (by simp), wp_bind]
      refine wp_post (gettoken_spec hnul hs₁) ?_
      rintro ⟨tok, arg⟩ s₂ ⟨hs₂, hcases⟩
      rw [htokens₁] at hcases
      dsimp only at hcases ⊢
      rcases hcases with ⟨hnil, hnil₂, rfl⟩ | ⟨t, ts, htokens, htokens₂, rfl, hword⟩
      · rw [if_pos rfl, hnil]
        exact ⟨hs₂, [], by rw [hnil₂]; rfl, h⟩
      · rw [htokens]
        cases t with
        | word w =>
          obtain ⟨hisWord, hslice⟩ := hword w rfl
          rw [if_neg (by simp +decide [Token.code]), if_neg (by simp [Token.code]), readArgs]
          split
          · exact rfl
          · rw [wp_bind]
            rw [← htokens₂]
            refine wp_mono (parseredirs_sim hnul hs₂ (h.pushArg hisWord hslice)) ?_
              fun e herror ↦ by rw [herror]; rfl
            rintro cmd₁ s₃ ⟨hs₃, redirs, hread, hshows⟩
            rw [hread]
            refine wp_mono (ih hs₃ hshows) ?_ fun e herror ↦ ?_
            · rintro cmd₂ s₄ ⟨hs₄, args, hread', hshows'⟩
              refine ⟨hs₄, ⟨w, redirs⟩ :: args, ?_, hshows'⟩
              show (readArgs fuel (argc + 1) (tokens line s₃) >>= _) = _
              rw [hread']
              rfl
            · show (readArgs fuel (argc + 1) (tokens line s₃) >>= _) = _
              rw [herror]
              rfl
        | redir kind =>
          rw [if_neg (by cases kind <;> decide), if_pos (by cases kind <;> decide)]
          exact rfl
        | lpar => exact rfl
        | _ => cases hfound.mpr ⟨_, ts, htokens, rfl⟩

/-- The ampersands behind a pipe. -/
theorem parseback_sim (hnul : 0 ∉ line) {fuel s : ℕ} (hs : s ≤ line.length) {cmd : Cmd Span}
    {tree : Cmd (List UInt8)} (h : Shows line cmd tree) :
    wp (parseback line line.length fuel cmd) (fun cmd' s' ↦ s' ≤ line.length ∧ ∃ amps,
      readAmps fuel (tokens line s) = .ok (amps, tokens line s') ∧
        Shows line cmd' (Cmd.back^[amps] tree))
      (fun e ↦ readAmps fuel (tokens line s) = .error e) s := by
  induction fuel generalizing s cmd tree with
  | zero => exact rfl
  | succ fuel ih =>
    rw [parseback, wp_bind]
    refine wp_post (peek_token (by decide) (fun t ↦ (first_eq_iff t).1) hnul hs) ?_
    rintro found s₁ ⟨hs₁, htokens₁, hfound⟩
    cases found with
    | false =>
      have hnot : ∀ ts, tokens line s ≠ .amp :: ts := fun ts heq ↦ by
        cases hfound.mpr ⟨ts, heq⟩
      refine ⟨hs₁, 0, ?_, h⟩
      rw [readAmps, htokens₁]
      exact hnot
    | true =>
      obtain ⟨ts, hamp⟩ := hfound.mp rfl
      rw [if_pos rfl, wp_bind]
      refine wp_post (gettoken_cons hnul hs₁ (htokens₁.trans hamp)) ?_
      rintro ⟨tok, span⟩ s₂ ⟨hs₂, htokens₂, -⟩
      have hback : Shows line (.back cmd) (.back tree) :=
        ⟨h.words, by rw [Cmd.map, h.tree]⟩
      have hnext := ih hs₂ hback
      rw [htokens₂] at hnext
      rw [hamp, readAmps]
      refine wp_mono hnext ?_ fun e herror ↦ by rw [herror]; rfl
      rintro cmd' s' ⟨hs', amps, hread, hshows⟩
      exact ⟨hs', amps + 1, by rw [hread]; rfl, hshows⟩

/-- The code does what `read` does for a nonterminal. -/
def Sim (line : List UInt8) (nt : NonTerminal) (fuel : ℕ) (code : ShM (Cmd Span)) (s : ℕ) : Prop :=
  wp code (fun cmd s' ↦ s' ≤ line.length ∧ ∃ d : Deriv (List UInt8) nt,
      read nt fuel (tokens line s) = .ok (d, tokens line s') ∧ Shows line cmd d.cmd)
    (fun e ↦ read nt fuel (tokens line s) = .error e) s

section Step

variable {fuel s : ℕ}

theorem parseline_step (hnul : 0 ∉ line) (hs : s ≤ line.length)
    (hpipe : ∀ s, s ≤ line.length → Sim line .pipe fuel (parsepipe line line.length fuel) s)
    (hline : ∀ s, s ≤ line.length → Sim line .line fuel (parseline line line.length fuel) s) :
    Sim line .line (fuel + 1) (parseline line line.length (fuel + 1)) s := by
  rw [Sim, parseline, wp_bind]
  refine wp_mono (hpipe s hs) ?_ fun e herror ↦ by rw [read, herror]; rfl
  rintro cmd s₁ ⟨hs₁, p, hread, hshows⟩
  rw [wp_bind]
  refine wp_mono (parseback_sim hnul hs₁ hshows) ?_ fun e herror ↦ ?_
  · rintro cmd₁ s₂ ⟨hs₂, amps, hread₁, hshows₁⟩
    rw [wp_bind]
    refine wp_post (peek_token (by decide) (fun t ↦ (first_eq_iff t).2.1) hnul hs₂) ?_
    rintro found s₃ ⟨hs₃, htokens₃, hfound⟩
    cases found with
    | false =>
      have hend : ∀ ts, tokens line s₂ ≠ .semi :: ts := fun ts heq ↦ by
        cases hfound.mpr ⟨ts, heq⟩
      exact ⟨hs₃, .line p amps, by rw [htokens₃]; exact read_line_end hread hread₁ hend,
        hshows₁⟩
    | true =>
      obtain ⟨ts, hsemi⟩ := hfound.mp rfl
      rw [hsemi] at hread₁
      rw [if_pos rfl, wp_bind]
      refine wp_post (gettoken_cons hnul hs₃ (htokens₃.trans hsemi)) ?_
      rintro ⟨tok, span⟩ s₄ ⟨hs₄, rfl, -⟩
      rw [wp_bind, read_line_list hread hread₁]
      refine wp_mono (hline s₄ hs₄) ?_ fun e herror ↦ by rw [herror]; rfl
      rintro cmd₂ s₅ ⟨hs₅, rest, hread₂, hshows₂⟩
      refine ⟨hs₅, .list p amps rest, by rw [hread₂]; rfl, ?_⟩
      exact ⟨⟨hshows₁.words, hshows₂.words⟩,
        by rw [Cmd.map, hshows₁.tree, hshows₂.tree]; rfl⟩
  · rw [read, hread]
    show (readAmps fuel (tokens line s₁) >>= _) = _
    rw [herror]
    rfl

theorem parsepipe_step (hnul : 0 ∉ line) (hs : s ≤ line.length)
    (hexec : ∀ s, s ≤ line.length → Sim line .exec fuel (parseexec line line.length fuel) s)
    (hpipe : ∀ s, s ≤ line.length → Sim line .pipe fuel (parsepipe line line.length fuel) s) :
    Sim line .pipe (fuel + 1) (parsepipe line line.length (fuel + 1)) s := by
  rw [Sim, parsepipe, wp_bind]
  refine wp_mono (hexec s hs) ?_ fun e herror ↦ by rw [read, herror]; rfl
  rintro cmd s₁ ⟨hs₁, e, hread, hshows⟩
  rw [wp_bind]
  refine wp_post (peek_token (by decide) (fun t ↦ (first_eq_iff t).2.2.1) hnul hs₁) ?_
  rintro found s₂ ⟨hs₂, htokens₂, hfound⟩
  cases found with
  | false =>
    have hend : ∀ ts, tokens line s₁ ≠ .bar :: ts := fun ts heq ↦ by
      cases hfound.mpr ⟨ts, heq⟩
    exact ⟨hs₂, .single e, by rw [htokens₂]; exact read_pipe_end hread hend, hshows⟩
  | true =>
    obtain ⟨ts, hbar⟩ := hfound.mp rfl
    rw [hbar] at hread
    rw [if_pos rfl, wp_bind]
    refine wp_post (gettoken_cons hnul hs₂ (htokens₂.trans hbar)) ?_
    rintro ⟨tok, span⟩ s₃ ⟨hs₃, rfl, -⟩
    rw [wp_bind, read_pipe_bar hread]
    refine wp_mono (hpipe s₃ hs₃) ?_ fun e herror ↦ by rw [herror]; rfl
    rintro cmd₂ s₄ ⟨hs₄, rest, hread₂, hshows₂⟩
    refine ⟨hs₄, .pipe e rest, by rw [hread₂]; rfl, ?_⟩
    exact ⟨⟨hshows.words, hshows₂.words⟩, by rw [Cmd.map, hshows.tree, hshows₂.tree]; rfl⟩

theorem parseexec_step (hnul : 0 ∉ line) (hs : s ≤ line.length)
    (hblock : ∀ s ts, s ≤ line.length → tokens line s = .lpar :: ts →
      Sim line .exec (fuel + 1) (parseblock line line.length fuel) s) :
    Sim line .exec (fuel + 1) (parseexec line line.length (fuel + 1)) s := by
  rw [Sim, parseexec, wp_bind]
  refine wp_post (peek_token (by decide) (fun t ↦ (first_eq_iff t).2.2.2.1) hnul hs) ?_
  rintro found s₁ ⟨hs₁, htokens₁, hfound⟩
  cases found with
  | true =>
    obtain ⟨ts, hlpar⟩ := hfound.mp rfl
    have hsim := hblock s₁ ts hs₁ (htokens₁.trans hlpar)
    rw [Sim, htokens₁] at hsim
    exact hsim
  | false =>
    have hlpar : ∀ ts, tokens line s ≠ .lpar :: ts := fun ts heq ↦ by
      cases hfound.mpr ⟨ts, heq⟩
    have hempty : Shows line (.exec []) (.exec []) := ⟨by simp [Cmd.All], rfl⟩
    rw [← htokens₁] at hlpar ⊢
    rw [if_neg (by simp), wp_bind, read_exec_simple hlpar]
    refine wp_mono (parseredirs_sim hnul hs₁ hempty) ?_ fun e herror ↦ by rw [herror]; rfl
    rintro cmd s₂ ⟨hs₂, redirs, hread, hshows⟩
    rw [hread]
    refine wp_mono (parseargs_sim hnul hs₂ hshows) ?_ fun e herror ↦ ?_
    · rintro cmd₁ s₃ ⟨hs₃, args, hread₁, hshows₁⟩
      have few : args.length < MAXARGS := by
        simpa using readArgs_few hread₁ (by decide)
      refine ⟨hs₃, .simple redirs args few, ?_, hshows₁⟩
      show (readArgs fuel 0 (tokens line s₂) >>= _) = _
      rw [hread₁]
      exact dif_pos few
    · show (readArgs fuel 0 (tokens line s₂) >>= _) = _
      rw [herror]
      rfl

theorem parseblock_step (hnul : 0 ∉ line) (hs : s ≤ line.length)
    {ts : List (Token (List UInt8))} (htokens : tokens line s = .lpar :: ts)
    (hline : ∀ s, s ≤ line.length → Sim line .line fuel (parseline line line.length fuel) s) :
    Sim line .exec (fuel + 2) (parseblock line line.length (fuel + 1)) s := by
  rw [Sim, parseblock, wp_bind]
  refine wp_post (peek_token (by decide) (fun t ↦ (first_eq_iff t).2.2.2.1) hnul hs) ?_
  rintro found s₁ ⟨hs₁, htokens₁, hfound⟩
  obtain rfl : found = true := hfound.mpr ⟨ts, htokens⟩
  rw [if_neg (by simp), wp_bind]
  refine wp_post (gettoken_cons hnul hs₁ (htokens₁.trans htokens)) ?_
  rintro ⟨tok, span⟩ s₂ ⟨hs₂, htokens₂, -⟩
  rw [wp_bind, htokens, read_exec_block, ← htokens₂]
  refine wp_mono (hline s₂ hs₂) ?_ fun e herror ↦ by rw [herror]; rfl
  rintro cmd s₃ ⟨hs₃, l, hread, hshows⟩
  rw [hread, wp_bind]
  refine wp_post (peek_token (by decide) (fun t ↦ (first_eq_iff t).2.2.2.2) hnul hs₃) ?_
  rintro found s₄ ⟨hs₄, htokens₄, hfound⟩
  cases found with
  | false =>
    rw [if_pos (by simp), wp_throw]
    cases htokens₃ : tokens line s₃ with
    | nil => rfl
    | cons t ts₁ =>
      cases t with
      | rpar => cases hfound.mpr ⟨ts₁, htokens₃⟩
      | _ => rfl
  | true =>
    obtain ⟨ts', hrpar⟩ := hfound.mp rfl
    rw [if_neg (by simp), wp_bind, hrpar]
    refine wp_post (gettoken_cons hnul hs₄ (htokens₄.trans hrpar)) ?_
    rintro ⟨tok, span⟩ s₅ ⟨hs₅, rfl, -⟩
    refine wp_mono (parseredirs_sim hnul hs₅ hshows) ?_ fun e herror ↦ ?_
    · rintro cmd' s' ⟨hs', redirs, hread', hshows'⟩
      refine ⟨hs', .block l redirs, ?_, hshows'⟩
      show (readRedirs fuel (tokens line s₅) >>= _) = _
      rw [hread']
      rfl
    · show (readRedirs fuel (tokens line s₅) >>= _) = _
      rw [herror]
      rfl

end Step

/-- The parser does what `read` does, with the same fuel. -/
theorem parse_sim (hnul : 0 ∉ line) (fuel : ℕ) :
    (∀ s, s ≤ line.length → Sim line .line fuel (parseline line line.length fuel) s) ∧
      (∀ s, s ≤ line.length → Sim line .pipe fuel (parsepipe line line.length fuel) s) ∧
      (∀ s, s ≤ line.length → Sim line .exec fuel (parseexec line line.length fuel) s) ∧
      ∀ s ts, s ≤ line.length → tokens line s = .lpar :: ts →
        Sim line .exec (fuel + 1) (parseblock line line.length fuel) s := by
  induction fuel with
  | zero =>
    refine ⟨fun _ _ ↦ ?_, fun _ _ ↦ ?_, fun _ _ ↦ ?_, fun s ts _ htokens ↦ ?_⟩
    · exact rfl
    · exact rfl
    · exact rfl
    · show read .exec 1 (tokens line s) = _
      rw [htokens]
      rfl
  | succ fuel ih =>
    obtain ⟨hline, hpipe, hexec, hblock⟩ := ih
    exact ⟨fun s hs ↦ parseline_step hnul hs hpipe hline,
      fun s hs ↦ parsepipe_step hnul hs hexec hpipe, fun s hs ↦ parseexec_step hnul hs hblock,
      fun s ts hs htokens ↦ parseblock_step hnul hs htokens hline⟩

end Xv6.Shell
