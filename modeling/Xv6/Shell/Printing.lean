import Xv6.Shell.Lexer

/-!
# Printing Commands

The canonical text of a command: its words and symbols with a space behind each, and parentheses
where the grammar needs them.  `lex` gives the tokens back, and they are derived with the command
they came from.
-/

namespace Xv6.Shell

/-! ## Text and tokens -/

def Token.text : Token (List UInt8) → List UInt8
  | .word w => w
  | .redir .input => [ch '<']
  | .redir .output => [ch '>']
  | .redir .append => [ch '>', ch '>']
  | .bar => [ch '|']
  | .amp => [ch '&']
  | .semi => [ch ';']
  | .lpar => [ch '(']
  | .rpar => [ch ')']

/-- The text of tokens, with a space behind each. -/
def render (ts : List (Token (List UInt8))) : List UInt8 := ts.flatMap fun t ↦ t.text ++ [ch ' ']

/-- The bytes of a word. -/
structure IsText (w : List UInt8) : Prop where
  ne_nil : w ≠ []
  plain : ∀ c ∈ w, isPlain c = true
  noNul : 0 ∉ w

/-- The words of the tokens are words. -/
def Texts (ts : List (Token (List UInt8))) : Prop := ∀ w, .word w ∈ ts → IsText w

/-- A word is cut off where it ends. -/
theorem lexToken_word {c : UInt8} {cs rest : List UInt8}
    (hplain : ∀ c' ∈ c :: cs, isPlain c' = true)
    (hrest : ∀ c' rest', rest = c' :: rest' → isPlain c' = false) :
    lexToken c (cs ++ rest) = (.word (c :: cs), rest) := by
  have hc : ∀ symbol ∈ symbols, c ≠ symbol := by
    rintro symbol hmem rfl
    have := hplain c List.mem_cons_self
    simp [isPlain, hmem] at this
  simp only [symbols, List.mem_cons, List.not_mem_nil, or_false, forall_eq_or_imp, forall_eq] at hc
  obtain ⟨hless, hbar, hmore, hamp, hsemi, hlpar, hrpar⟩ := hc
  rw [lexToken, if_neg hbar, if_neg hlpar, if_neg hrpar, if_neg hsemi, if_neg hamp, if_neg hless,
    if_neg hmore]
  have hall : ∀ c' ∈ cs, isPlain c' = true := fun c' hmem ↦ hplain c' (List.mem_cons_of_mem _ hmem)
  have htake : rest.takeWhile isPlain = [] ∧ rest.dropWhile isPlain = rest := by
    cases rest with
    | nil => exact ⟨rfl, rfl⟩
    | cons c' rest' =>
      have hnot := hrest c' rest' rfl
      exact ⟨List.takeWhile_cons_of_neg (by simp [hnot]),
        List.dropWhile_cons_of_neg (by simp [hnot])⟩
  rw [List.takeWhile_append_of_pos hall, List.dropWhile_append_of_pos hall, htake.1, htake.2,
    List.append_nil]

/-- One token in front of others. -/
theorem lex_text {t : Token (List UInt8)} (ht : ∀ w, t = .word w → IsText w) (rest : List UInt8) :
    lex (t.text ++ ch ' ' :: rest) = t :: lex rest := by
  have hspace : lex (ch ' ' :: rest) = lex rest := by
    rw [← lex_dropWhile, ← lex_dropWhile rest]
    rfl
  have hfirst : ∃ c cs, t.text = c :: cs ∧ isSpace c = false ∧
      lexToken c (cs ++ ch ' ' :: rest) = (t, ch ' ' :: rest) := by
    cases t with
    | word w =>
      obtain ⟨hne, hplain, -⟩ := ht w rfl
      cases w with
      | nil => exact absurd rfl hne
      | cons c cs =>
        refine ⟨c, cs, rfl, ?_, lexToken_word hplain fun c' rest' heq ↦ ?_⟩
        · have := hplain c List.mem_cons_self
          rw [isPlain, Bool.and_eq_true, Bool.not_eq_true'] at this
          exact this.1
        · cases heq
          decide
    | redir kind => cases kind <;> exact ⟨_, _, rfl, by decide, rfl⟩
    | _ => exact ⟨_, _, rfl, by decide, rfl⟩
  obtain ⟨c, cs, htext, hc, htoken⟩ := hfirst
  have hdrop : (t.text ++ ch ' ' :: rest).dropWhile isSpace = c :: (cs ++ ch ' ' :: rest) := by
    rw [htext, List.cons_append, List.dropWhile_cons_of_neg (by simp [hc])]
  rw [lex_of_cons hdrop, htoken, hspace]

theorem lex_render {ts : List (Token (List UInt8))} (h : Texts ts) : lex (render ts) = ts := by
  induction ts with
  | nil => exact lex_of_nil rfl
  | cons t ts ih =>
    have hrest : Texts ts := fun w hmem ↦ h w (List.mem_cons_of_mem _ hmem)
    have ht : ∀ w, t = .word w → IsText w := fun w heq ↦ h w (heq ▸ List.mem_cons_self)
    rw [render, List.flatMap_cons, List.append_assoc]
    show lex (t.text ++ ch ' ' :: render ts) = _
    rw [lex_text ht, ih hrest]

/-- A token that is a word is a run of plain bytes. -/
theorem isText_of_lexToken {c : UInt8} {cs w : List UInt8} (hspace : isSpace c = false)
    (hnul : 0 ∉ c :: cs) (h : (lexToken c cs).1 = .word w) : IsText w := by
  unfold lexToken at h
  split_ifs at h with hbar hlpar hrpar hsemi hamp hless hmore happend
  obtain rfl := Token.word.inj h
  refine ⟨by simp, fun c' hmem ↦ ?_, fun hzero ↦ hnul ?_⟩
  · rcases List.mem_cons.mp hmem with rfl | hmem
    · have hsymbol : c' ∉ symbols := by
        simp [symbols, hbar, hlpar, hrpar, hsemi, hamp, hless, hmore]
      rw [isPlain, Bool.and_eq_true, Bool.not_eq_true', Bool.not_eq_true']
      exact ⟨hspace, by simpa using hsymbol⟩
    · exact List.mem_takeWhile_imp hmem
  · rcases List.mem_cons.mp hzero with rfl | hmem
    · exact List.mem_cons_self
    · exact List.mem_cons_of_mem _ ((List.takeWhile_sublist _).subset hmem)

/-- The tokens of a line have words. -/
theorem texts_lex {l : List UInt8} (hnul : 0 ∉ l) : Texts (lex l) := by
  induction l using lex.induct with
  | case1 l h =>
    rw [lex_of_nil h]
    exact fun w hmem ↦ by cases hmem
  | case2 l c cs h ih =>
    have hsuffix : c :: cs <:+ l := h ▸ List.dropWhile_suffix isSpace
    have hnul' : 0 ∉ c :: cs := fun hmem ↦ hnul (hsuffix.subset hmem)
    have hspace : isSpace c = false := by
      have := List.head_dropWhile_not isSpace (l := l) (by rw [h]; simp)
      simpa [h] using this
    rw [lex_of_cons h]
    intro w hmem
    rcases List.mem_cons.mp hmem with heq | hmem
    · exact isText_of_lexToken hspace hnul' heq.symm
    · refine ih (fun hzero ↦ hnul' ?_) w hmem
      exact List.mem_cons_of_mem _ ((lexToken_suffix c cs).subset hzero)

/-- The text of the tokens has no NUL. -/
theorem noNul_render {ts : List (Token (List UInt8))} (h : Texts ts) : 0 ∉ render ts := by
  intro hmem
  obtain ⟨t, ht, hzero⟩ := List.mem_flatMap.mp hmem
  rcases List.mem_append.mp hzero with hzero | hzero
  · cases t with
    | word w => exact (h w ht).noNul hzero
    | redir kind => cases kind <;> exact absurd hzero (by decide)
    | _ => exact absurd hzero (by decide)
  · exact absurd hzero (by decide)

/-! ## The tokens of a command -/

/-- Where a command stands in a line: `back` is a line without a list. -/
inductive Level where
  | line
  | back
  | pipe
  | exec
  deriving DecidableEq

variable {W : Type}

/-- Parentheses, where they are needed. -/
def paren (needed : Bool) (ts : List (Token W)) : List (Token W) :=
  if needed then .lpar :: ts ++ [.rpar] else ts

/-- The redirection of a `redircmd`. -/
def kindOf (mode fd : ℕ) : RedirKind :=
  if fd = 0 then .input else if mode = O_WRONLY + O_CREATE + O_TRUNC then .output else .append

/-- The tokens of a command. -/
def Cmd.tokens : Level → Cmd W → List (Token W)
  | _, .exec argv => argv.map .word
  | _, .redir cmd file mode fd => cmd.tokens .exec ++ [.redir (kindOf mode fd), .word file]
  | level, .pipe left right =>
    paren (level = .exec) (left.tokens .exec ++ .bar :: right.tokens .pipe)
  | level, .back cmd => paren (level = .pipe ∨ level = .exec) (cmd.tokens .back ++ [.amp])
  | level, .list left right =>
    paren (level ≠ .line) (left.tokens .back ++ .semi :: right.tokens .line)

/-- The canonical text of a command. -/
def Cmd.print (cmd : Cmd (List UInt8)) : List UInt8 := render (cmd.tokens .line)

/-- The commands that the grammar knows: few arguments, and redirections of the three kinds. -/
def Cmd.Valid (P : W → Prop) : Cmd W → Prop
  | .exec argv => argv.length < MAXARGS ∧ ∀ arg ∈ argv, P arg
  | .redir cmd file mode fd =>
    cmd.Valid P ∧ P file ∧ ∃ kind : RedirKind, kind.mode = mode ∧ kind.fd = fd
  | .pipe left right => left.Valid P ∧ right.Valid P
  | .list left right => left.Valid P ∧ right.Valid P
  | .back cmd => cmd.Valid P

theorem kindOf_eq (kind : RedirKind) : kindOf kind.mode kind.fd = kind := by
  cases kind <;> decide

/-- Another redirection behind a command. -/
theorem Deriv.exists_redir (d : Deriv W .exec) (r : Redir W) :
    ∃ d' : Deriv W .exec, d'.yield = d.yield ++ r.yield ∧ d'.cmd = Redir.wrap d.cmd r := by
  cases d with
  | block l redirs =>
    exact ⟨.block l (redirs ++ [r]), by simp [Deriv.yield], by simp [Deriv.cmd]⟩
  | simple redirs args few =>
    rcases List.eq_nil_or_concat args with rfl | ⟨args', arg, rfl⟩
    · exact ⟨.simple (redirs ++ [r]) [] few, by simp [Deriv.yield], by simp [Deriv.cmd]⟩
    · refine ⟨.simple redirs (args' ++ [⟨arg.word, arg.redirs ++ [r]⟩]) (by simpa using few),
        ?_, ?_⟩
      · simp [Deriv.yield, Arg.yield]
      · simp [Deriv.cmd, Arg.push]

/-- The tokens of a command are derived at every level. -/
structure Cmd.Derived (cmd : Cmd W) : Prop where
  line : ∃ d : Deriv W .line, d.yield = cmd.tokens .line ∧ d.cmd = cmd
  back : ∃ (p : Deriv W .pipe) (amps : ℕ),
    p.yield ++ List.replicate amps .amp = cmd.tokens .back ∧ Cmd.back^[amps] p.cmd = cmd
  pipe : ∃ d : Deriv W .pipe, d.yield = cmd.tokens .pipe ∧ d.cmd = cmd
  exec : ∃ d : Deriv W .exec, d.yield = cmd.tokens .exec ∧ d.cmd = cmd

namespace Cmd.Derived

variable {cmd : Cmd W}

/-- A command that needs no parentheses. -/
theorem ofExec {d : Deriv W .exec} (hcmd : d.cmd = cmd) (h : ∀ level, cmd.tokens level = d.yield) :
    cmd.Derived where
  line := ⟨.line (.single d) 0, by rw [h]; simp [Deriv.yield], hcmd⟩
  back := ⟨.single d, 0, by rw [h]; simp [Deriv.yield], hcmd⟩
  pipe := ⟨.single d, by rw [h]; rfl, hcmd⟩
  exec := ⟨d, (h _).symm, hcmd⟩

end Cmd.Derived

/-- A command of words only. -/
theorem Deriv.exists_words {argv : List W} (few : argv.length < MAXARGS) :
    ∃ d : Deriv W .exec, d.yield = argv.map .word ∧ d.cmd = .exec argv := by
  have hpush : ∀ before : List W,
      (argv.map fun w ↦ (⟨w, []⟩ : Arg W)).foldl Arg.push (.exec before) =
        .exec (before ++ argv) := by
    clear few
    induction argv with
    | nil => simp
    | cons w argv ih =>
      intro before
      rw [List.map_cons, List.foldl_cons, Arg.push, List.foldl_nil, Cmd.pushArg, ih]
      simp
  have hyield : (argv.map fun w ↦ (⟨w, []⟩ : Arg W)).flatMap Arg.yield = argv.map .word := by
    clear few hpush
    induction argv with
    | nil => rfl
    | cons w argv ih => rw [List.map_cons, List.flatMap_cons, ih]; rfl
  refine ⟨.simple [] (argv.map fun w ↦ ⟨w, []⟩) (by simpa using few), ?_, ?_⟩
  · rw [Deriv.yield, hyield]
    rfl
  · rw [Deriv.cmd]
    exact hpush []

/-- Every command that the grammar knows is derived from its tokens. -/
theorem Cmd.Valid.derived {P : W → Prop} {cmd : Cmd W} (h : cmd.Valid P) : cmd.Derived := by
  induction cmd with
  | exec argv =>
    obtain ⟨d, hyield, hd⟩ := Deriv.exists_words h.1
    exact .ofExec hd fun level ↦ by rw [hyield, Cmd.tokens]
  | redir cmd file mode fd ih =>
    obtain ⟨hcmd, -, kind, rfl, rfl⟩ := h
    obtain ⟨d, hyield, hd⟩ := (ih hcmd).exec
    obtain ⟨d', hyield', hd'⟩ := d.exists_redir ⟨kind, file⟩
    refine .ofExec (d := d') (by rw [hd', hd]; rfl) fun level ↦ ?_
    rw [hyield', hyield, Cmd.tokens, kindOf_eq]
    rfl
  | pipe left right ihleft ihright =>
    obtain ⟨e, hyield, he⟩ := (ihleft h.1).exec
    obtain ⟨p, hyield', hp⟩ := (ihright h.2).pipe
    have hcmd : (Deriv.pipe e p).cmd = .pipe left right := by rw [Deriv.cmd, he, hp]
    have htokens : (Deriv.pipe e p).yield = left.tokens .exec ++ .bar :: right.tokens .pipe := by
      rw [Deriv.yield, hyield, hyield']
    have hline : (Deriv.line (.pipe e p) 0).yield =
        left.tokens .exec ++ .bar :: right.tokens .pipe := by
      rw [Deriv.yield, htokens, List.replicate_zero, List.append_nil]
    exact ⟨⟨.line (.pipe e p) 0, hline, hcmd⟩, ⟨.pipe e p, 0, hline, hcmd⟩,
      ⟨.pipe e p, htokens, hcmd⟩, ⟨.block (.line (.pipe e p) 0) [],
        by rw [Deriv.yield, hline]; rfl, hcmd⟩⟩
  | back cmd ih =>
    obtain ⟨p, amps, hyield, hp⟩ := (ih h).back
    have hcmd : (Deriv.line p (amps + 1)).cmd = .back cmd := by
      rw [Deriv.cmd, Function.iterate_succ_apply', hp]
    have hline : (Deriv.line p (amps + 1)).yield = cmd.tokens .back ++ [.amp] := by
      rw [Deriv.yield, List.replicate_succ', ← List.append_assoc, hyield]
    have hexec : (Deriv.block (.line p (amps + 1)) []).yield = (Cmd.back cmd).tokens .exec := by
      rw [Deriv.yield, hline]
      rfl
    have hcmd' : (Deriv.block (.line p (amps + 1)) []).cmd = .back cmd := by
      rw [Deriv.cmd, hcmd, List.foldl_nil]
    exact ⟨⟨.line p (amps + 1), hline, hcmd⟩, ⟨p, amps + 1, hline, hcmd⟩,
      ⟨.single (.block (.line p (amps + 1)) []), by rw [Deriv.yield, hexec]; rfl,
        by rw [Deriv.cmd, hcmd']⟩,
      ⟨.block (.line p (amps + 1)) [], hexec, hcmd'⟩⟩
  | list left right ihleft ihright =>
    obtain ⟨p, amps, hyield, hp⟩ := (ihleft h.1).back
    obtain ⟨l, hyield', hl⟩ := (ihright h.2).line
    have hcmd : (Deriv.list p amps l).cmd = .list left right := by rw [Deriv.cmd, hp, hl]
    have hline : (Deriv.list p amps l).yield =
        left.tokens .back ++ .semi :: right.tokens .line := by
      rw [Deriv.yield, hyield, hyield']
    have hexec : (Deriv.block (.list p amps l) []).yield =
        (Cmd.list left right).tokens .exec := by
      rw [Deriv.yield, hline]
      rfl
    exact ⟨⟨.list p amps l, hline, hcmd⟩, ⟨.single (.block (.list p amps l) []), 0,
      by rw [List.replicate_zero, List.append_nil, Deriv.yield, hexec]; rfl, hcmd⟩,
      ⟨.single (.block (.list p amps l) []), by rw [Deriv.yield, hexec]; rfl, hcmd⟩,
      ⟨.block (.list p amps l) [], hexec, hcmd⟩⟩

/-! ## The commands of derivations -/

/-- The number of arguments of the command below the redirections. -/
def Cmd.argc : Cmd W → ℕ
  | .exec argv => argv.length
  | .redir cmd _ _ _ => cmd.argc
  | _ => 0

section Valid

variable {P : W → Prop}

theorem Cmd.Valid.pushArg {cmd : Cmd W} (h : cmd.Valid P) {w : W} (hw : P w)
    (hargc : cmd.argc + 1 < MAXARGS) :
    (cmd.pushArg w).Valid P ∧ (cmd.pushArg w).argc ≤ cmd.argc + 1 := by
  induction cmd with
  | exec argv =>
    refine ⟨⟨by simpa [Cmd.argc] using hargc, fun arg harg ↦ ?_⟩, by simp [Cmd.pushArg, Cmd.argc]⟩
    rcases List.mem_append.mp harg with hold | hnew
    · exact h.2 arg hold
    · exact List.mem_singleton.mp hnew ▸ hw
  | redir cmd file mode fd ih =>
    obtain ⟨hvalid, hle⟩ := ih h.1 hargc
    exact ⟨⟨hvalid, h.2⟩, hle⟩
  | pipe => exact ⟨h, Nat.zero_le _⟩
  | list => exact ⟨h, Nat.zero_le _⟩
  | back => exact ⟨h, Nat.zero_le _⟩

theorem Cmd.Valid.redirs {cmd : Cmd W} (h : cmd.Valid P) {redirs : List (Redir W)}
    (hfiles : ∀ w, .word w ∈ redirs.flatMap Redir.yield → P w) :
    (redirs.foldl Redir.wrap cmd).Valid P ∧ (redirs.foldl Redir.wrap cmd).argc = cmd.argc := by
  induction redirs generalizing cmd with
  | nil => exact ⟨h, rfl⟩
  | cons redir redirs ih =>
    have hwrap : (Redir.wrap cmd redir).Valid P :=
      ⟨h, hfiles _ (by simp [Redir.yield]), redir.kind, rfl, rfl⟩
    exact ih hwrap fun w hmem ↦ hfiles w (List.mem_append_right _ hmem)

theorem Cmd.Valid.args {cmd : Cmd W} (h : cmd.Valid P) {args : List (Arg W)}
    (hwords : ∀ w, .word w ∈ args.flatMap Arg.yield → P w)
    (hargc : cmd.argc + args.length < MAXARGS) : (args.foldl Arg.push cmd).Valid P := by
  induction args generalizing cmd with
  | nil => exact h
  | cons arg args ih =>
    rw [List.length_cons] at hargc
    obtain ⟨hpush, hle⟩ := h.pushArg (hwords arg.word (by simp [Arg.yield])) (by omega)
    obtain ⟨hwrap, heq⟩ := hpush.redirs fun w (hmem : _ ∈ arg.redirs.flatMap _) ↦ hwords w (by
      simp only [List.flatMap_cons, Arg.yield, List.cons_append, List.mem_cons, List.mem_append]
      exact .inr (.inl hmem))
    refine ih hwrap (fun w hmem ↦ hwords w (List.mem_append_right _ hmem)) ?_
    rw [Arg.push, heq]
    omega

/-- The command of a derivation is one that the grammar knows. -/
theorem Deriv.valid {nt : NonTerminal} (d : Deriv W nt) (h : ∀ w, .word w ∈ d.yield → P w) :
    d.cmd.Valid P := by
  have hbacks : ∀ (amps : ℕ) {cmd : Cmd W}, cmd.Valid P → (Cmd.back^[amps] cmd).Valid P := by
    intro amps cmd hcmd
    induction amps with
    | zero => exact hcmd
    | succ amps ih =>
      rw [Function.iterate_succ_apply']
      exact ih
  induction d with
  | line p amps ih => exact hbacks amps (ih fun w hmem ↦ h w (List.mem_append_left _ hmem))
  | list p amps rest ihpipe ihline =>
    simp only [Deriv.yield, List.mem_append, List.mem_cons] at h
    exact ⟨hbacks amps (ihpipe fun w hmem ↦ h w (.inl (.inl hmem))),
      ihline fun w hmem ↦ h w (.inr (.inr hmem))⟩
  | single e ih => exact ih h
  | pipe e rest ihexec ihpipe =>
    simp only [Deriv.yield, List.mem_append, List.mem_cons] at h
    exact ⟨ihexec fun w hmem ↦ h w (.inl hmem), ihpipe fun w hmem ↦ h w (.inr (.inr hmem))⟩
  | block l redirs ih =>
    simp only [Deriv.yield, List.mem_append, List.mem_cons] at h
    have hline : l.cmd.Valid P := ih fun w hmem ↦ h w (.inl (.inr hmem))
    exact (hline.redirs fun w hmem ↦ h w (.inr (.inr hmem))).1
  | simple redirs args few =>
    simp only [Deriv.yield, List.mem_append] at h
    have hempty : (Cmd.exec [] : Cmd W).Valid P := ⟨by simp, fun _ hmem ↦ by cases hmem⟩
    obtain ⟨hvalid, hargc⟩ := hempty.redirs fun w hmem ↦ h w (.inl hmem)
    exact hvalid.args (fun w hmem ↦ h w (.inr hmem)) (by rw [hargc]; simpa [Cmd.argc] using few)

/-- The words of the tokens are those of the command. -/
theorem Cmd.Valid.word_tokens {cmd : Cmd W} (h : cmd.Valid P) {level : Level} {w : W}
    (hw : .word w ∈ cmd.tokens level) : P w := by
  have hparen : ∀ {needed : Bool} {ts : List (Token W)}, .word w ∈ paren needed ts →
      .word w ∈ ts := by
    intro needed ts hmem
    cases needed with
    | false => exact hmem
    | true => simpa [paren] using hmem
  induction cmd generalizing level with
  | exec argv =>
    obtain ⟨arg, harg, heq⟩ := List.mem_map.mp hw
    exact Token.word.inj heq ▸ h.2 arg harg
  | redir cmd file mode fd ih =>
    rcases List.mem_append.mp hw with hmem | hmem
    · exact ih h.1 hmem
    · simp only [List.mem_cons, Token.word.injEq, List.not_mem_nil, or_false] at hmem
      obtain hcase | rfl := hmem
      · cases hcase
      · exact h.2.1
  | pipe left right ihleft ihright =>
    have hmem := hparen hw
    simp only [List.mem_append, List.mem_cons] at hmem
    obtain hmem | hmem | hmem := hmem
    · exact ihleft h.1 hmem
    · cases hmem
    · exact ihright h.2 hmem
  | list left right ihleft ihright =>
    have hmem := hparen hw
    simp only [List.mem_append, List.mem_cons] at hmem
    obtain hmem | hmem | hmem := hmem
    · exact ihleft h.1 hmem
    · cases hmem
    · exact ihright h.2 hmem
  | back cmd ih =>
    have hmem := hparen hw
    simp only [List.mem_append, List.mem_singleton] at hmem
    obtain hmem | hmem := hmem
    · exact ih h hmem
    · cases hmem

end Valid

end Xv6.Shell
