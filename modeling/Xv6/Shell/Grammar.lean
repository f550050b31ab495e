import Mathlib.Data.List.TakeWhile
import Mathlib.Logic.Function.Iterate
import Xv6.Lib.Run
import Xv6.Shell.Parser

/-!
# The Grammar of the Shell

The commands that the shell understands, as a grammar over tokens:

* `line ::= pipe '&'* [';' line]`
* `pipe ::= exec ['|' pipe]`
* `exec ::= '(' line ')' redir* | redir* (word redir*)*`, with fewer than `MAXARGS` words
* `redir ::= ('<' | '>' | '>>') word`

`read` finds derivations: it reads a derivation from the front of a list of tokens.
-/

namespace Xv6.Shell

open Lib

/-- `<`, `>` and `>>`. -/
inductive RedirKind where
  | input
  | output
  | append
  deriving DecidableEq

namespace RedirKind

def mode : RedirKind → ℕ
  | .input => O_RDONLY
  | .output => O_WRONLY + O_CREATE + O_TRUNC
  | .append => O_WRONLY + O_CREATE

def fd : RedirKind → ℕ
  | .input => 0
  | .output => 1
  | .append => 1

end RedirKind

/-- A token; `W` is the type of words. -/
inductive Token (W : Type) where
  | word (w : W)
  | redir (kind : RedirKind)
  | bar
  | amp
  | semi
  | lpar
  | rpar
  deriving DecidableEq

variable {W : Type}

/-! ## Derivations -/

/-- `redir`. -/
structure Redir (W : Type) where
  kind : RedirKind
  file : W

namespace Redir

def yield (r : Redir W) : List (Token W) := [.redir r.kind, .word r.file]

/-- The redirection of a command. -/
def wrap (cmd : Cmd W) (r : Redir W) : Cmd W := .redir cmd r.file r.kind.mode r.kind.fd

end Redir

/-- A word of a command and the redirections behind it. -/
structure Arg (W : Type) where
  word : W
  redirs : List (Redir W)

namespace Arg

def yield (arg : Arg W) : List (Token W) := .word arg.word :: arg.redirs.flatMap Redir.yield

/-- The word becomes an argument of the command built so far, and the redirections wrap it. -/
def push (cmd : Cmd W) (arg : Arg W) : Cmd W := arg.redirs.foldl Redir.wrap (cmd.pushArg arg.word)

end Arg

inductive NonTerminal where
  | line
  | pipe
  | exec

/-- The derivations of a nonterminal. -/
inductive Deriv (W : Type) : NonTerminal → Type where
  | line (pipe : Deriv W .pipe) (amps : ℕ) : Deriv W .line
  | list (pipe : Deriv W .pipe) (amps : ℕ) (rest : Deriv W .line) : Deriv W .line
  | single (exec : Deriv W .exec) : Deriv W .pipe
  | pipe (exec : Deriv W .exec) (rest : Deriv W .pipe) : Deriv W .pipe
  | block (line : Deriv W .line) (redirs : List (Redir W)) : Deriv W .exec
  | simple (redirs : List (Redir W)) (args : List (Arg W)) (few : args.length < MAXARGS) :
      Deriv W .exec

namespace Deriv

/-- The tokens that are derived. -/
def yield : {nt : NonTerminal} → Deriv W nt → List (Token W)
  | _, .line p amps => p.yield ++ List.replicate amps .amp
  | _, .list p amps rest => p.yield ++ List.replicate amps .amp ++ .semi :: rest.yield
  | _, .single e => e.yield
  | _, .pipe e rest => e.yield ++ .bar :: rest.yield
  | _, .block l redirs => .lpar :: l.yield ++ .rpar :: redirs.flatMap Redir.yield
  | _, .simple redirs args _ => redirs.flatMap Redir.yield ++ args.flatMap Arg.yield

/-- The command of a derivation. -/
def cmd : {nt : NonTerminal} → Deriv W nt → Cmd W
  | _, .line p amps => Cmd.back^[amps] p.cmd
  | _, .list p amps rest => .list (Cmd.back^[amps] p.cmd) rest.cmd
  | _, .single e => e.cmd
  | _, .pipe e rest => .pipe e.cmd rest.cmd
  | _, .block l redirs => redirs.foldl Redir.wrap l.cmd
  | _, .simple redirs args _ => args.foldl Arg.push (redirs.foldl Redir.wrap (.exec []))

end Deriv

/-! ## Reading derivations -/

def readRedirs : ℕ → List (Token W) → Except Stop (List (Redir W) × List (Token W))
  | 0, _ => .error .diverges
  | fuel + 1, .redir kind :: .word file :: ts => do
      let (redirs, ts) ← readRedirs fuel ts
      return (⟨kind, file⟩ :: redirs, ts)
  | _ + 1, .redir _ :: _ => .error .missingFile
  | _ + 1, ts => .ok ([], ts)

/-- The words of a command that has `argc` words already. -/
def readArgs : ℕ → ℕ → List (Token W) → Except Stop (List (Arg W) × List (Token W))
  | 0, _, _ => .error .diverges
  | fuel + 1, argc, .word w :: ts => do
      if MAXARGS ≤ argc + 1 then throw .tooManyArgs
      else
        let (redirs, ts) ← readRedirs fuel ts
        let (args, ts) ← readArgs fuel (argc + 1) ts
        return (⟨w, redirs⟩ :: args, ts)
  | _ + 1, _, .redir _ :: _ => .error .syntaxError
  | _ + 1, _, .lpar :: _ => .error .syntaxError
  | _ + 1, _, ts => .ok ([], ts)

def readAmps : ℕ → List (Token W) → Except Stop (ℕ × List (Token W))
  | 0, _ => .error .diverges
  | fuel + 1, .amp :: ts => do
      let (amps, ts) ← readAmps fuel ts
      return (amps + 1, ts)
  | _ + 1, ts => .ok (0, ts)

def read : (nt : NonTerminal) → ℕ → List (Token W) → Except Stop (Deriv W nt × List (Token W))
  | _, 0, _ => .error .diverges
  | .line, fuel + 1, ts => do
      let (pipe, ts) ← read .pipe fuel ts
      let (amps, ts) ← readAmps fuel ts
      match ts with
      | .semi :: ts =>
        let (rest, ts) ← read .line fuel ts
        return (.list pipe amps rest, ts)
      | ts => return (.line pipe amps, ts)
  | .pipe, fuel + 1, ts => do
      let (exec, ts) ← read .exec fuel ts
      match ts with
      | .bar :: ts =>
        let (rest, ts) ← read .pipe fuel ts
        return (.pipe exec rest, ts)
      | ts => return (.single exec, ts)
  | .exec, 1, .lpar :: _ => .error .diverges
  | .exec, fuel + 2, .lpar :: ts => do
      let (line, ts) ← read .line fuel ts
      match ts with
      | .rpar :: ts =>
        let (redirs, ts) ← readRedirs fuel ts
        return (.block line redirs, ts)
      | _ => throw .missingParen
  | .exec, fuel + 1, ts => do
      let (redirs, ts) ← readRedirs fuel ts
      let (args, ts) ← readArgs fuel 0 ts
      if few : args.length < MAXARGS then return (.simple redirs args few, ts)
      else throw .tooManyArgs

section Equations

variable {fuel amps : ℕ} {ts ts₁ ts₂ : List (Token W)} {p : Deriv W .pipe} {e : Deriv W .exec}

/-- A line that ends behind its ampersands. -/
theorem read_line_end (hpipe : read .pipe fuel ts = .ok (p, ts₁))
    (hamps : readAmps fuel ts₁ = .ok (amps, ts₂)) (hend : ∀ ts, ts₂ ≠ .semi :: ts) :
    read .line (fuel + 1) ts = .ok (.line p amps, ts₂) := by
  rw [read, hpipe]
  show (readAmps fuel ts₁ >>= _) = _
  rw [hamps]
  cases ts₂ with
  | nil => rfl
  | cons t ts₂ =>
    cases t with
    | semi => exact absurd rfl (hend ts₂)
    | _ => rfl

/-- A line that goes on behind a semicolon. -/
theorem read_line_list (hpipe : read .pipe fuel ts = .ok (p, ts₁))
    (hamps : readAmps fuel ts₁ = .ok (amps, .semi :: ts₂)) :
    read .line (fuel + 1) ts =
      read .line fuel ts₂ >>= fun rest ↦ .ok (.list p amps rest.1, rest.2) := by
  rw [read, hpipe]
  show (readAmps fuel ts₁ >>= _) = _
  rw [hamps]
  rfl

/-- A pipe with one command. -/
theorem read_pipe_end (hexec : read .exec fuel ts = .ok (e, ts₁)) (hend : ∀ ts, ts₁ ≠ .bar :: ts) :
    read .pipe (fuel + 1) ts = .ok (.single e, ts₁) := by
  rw [read, hexec]
  cases ts₁ with
  | nil => rfl
  | cons t ts₁ =>
    cases t with
    | bar => exact absurd rfl (hend ts₁)
    | _ => rfl

/-- A pipe that goes on behind a bar. -/
theorem read_pipe_bar (hexec : read .exec fuel ts = .ok (e, .bar :: ts₁)) :
    read .pipe (fuel + 1) ts =
      read .pipe fuel ts₁ >>= fun rest ↦ .ok (.pipe e rest.1, rest.2) := by
  rw [read, hexec]
  rfl

/-- A command in parentheses. -/
theorem read_exec_block :
    read .exec (fuel + 2) (.lpar :: ts) = (read .line fuel ts >>= fun l ↦
      match l.2 with
      | .rpar :: ts₁ => readRedirs fuel ts₁ >>= fun redirs ↦ .ok (.block l.1 redirs.1, redirs.2)
      | _ => .error .missingParen) := by
  rw [read]
  rfl

/-- A command without parentheses. -/
theorem read_exec_simple (hlpar : ∀ ts', ts ≠ .lpar :: ts') :
    read .exec (fuel + 1) ts = (readRedirs fuel ts >>= fun redirs ↦
      readArgs fuel 0 redirs.2 >>= fun args ↦
        if few : args.1.length < MAXARGS then .ok (.simple redirs.1 args.1 few, args.2)
        else .error .tooManyArgs) := by
  rw [read]
  · rfl
  · exact fun ts' heq _ ↦ hlpar ts' heq
  · exact fun _ ts' heq _ ↦ hlpar ts' heq

end Equations

/-! ## What is read is derived -/

theorem readRedirs_sound {fuel : ℕ} {ts rest : List (Token W)} {redirs : List (Redir W)}
    (h : readRedirs fuel ts = .ok (redirs, rest)) :
    ts = redirs.flatMap Redir.yield ++ rest := by
  fun_induction readRedirs fuel ts generalizing redirs with
  | case1 => cases h
  | case2 fuel kind file ts ih =>
    obtain ⟨⟨redirs', rest'⟩, hrest, hpure⟩ := bind_ok h
    cases hpure
    rw [ih hrest]
    rfl
  | case3 => cases h
  | case4 =>
    cases h
    rfl

theorem readArgs_sound {fuel argc : ℕ} {ts rest : List (Token W)} {args : List (Arg W)}
    (h : readArgs fuel argc ts = .ok (args, rest)) :
    ts = args.flatMap Arg.yield ++ rest := by
  fun_induction readArgs fuel argc ts generalizing args with
  | case1 => cases h
  | case2 => cases h
  | case3 fuel argc w ts hfew ih =>
    obtain ⟨⟨redirs, ts₁⟩, hredirs, hnext⟩ := bind_ok h
    obtain ⟨⟨args', ts₂⟩, hargs, hpure⟩ := bind_ok hnext
    cases hpure
    rw [readRedirs_sound hredirs, ih _ hargs]
    simp [Arg.yield]
  | case4 => cases h
  | case5 => cases h
  | case6 =>
    cases h
    rfl

theorem readArgs_few {fuel argc : ℕ} {ts rest : List (Token W)} {args : List (Arg W)}
    (h : readArgs fuel argc ts = .ok (args, rest)) (hargc : argc < MAXARGS) :
    argc + args.length < MAXARGS := by
  fun_induction readArgs fuel argc ts generalizing args with
  | case1 => cases h
  | case2 => cases h
  | case3 fuel argc w ts hfew ih =>
    obtain ⟨⟨redirs, ts₁⟩, hredirs, hnext⟩ := bind_ok h
    obtain ⟨⟨args', ts₂⟩, hargs, hpure⟩ := bind_ok hnext
    cases hpure
    have := ih _ hargs (by omega)
    rw [List.length_cons]
    omega
  | case4 => cases h
  | case5 => cases h
  | case6 =>
    cases h
    exact hargc

theorem readAmps_sound {fuel amps : ℕ} {ts rest : List (Token W)}
    (h : readAmps fuel ts = .ok (amps, rest)) : ts = List.replicate amps .amp ++ rest := by
  fun_induction readAmps fuel ts generalizing amps with
  | case1 => cases h
  | case2 fuel ts ih =>
    obtain ⟨⟨amps', ts₁⟩, hamps, hpure⟩ := bind_ok h
    cases hpure
    rw [ih hamps]
    rfl
  | case3 =>
    cases h
    rfl

/-- The tokens that `read` takes are those of the derivation. -/
theorem read_sound {nt : NonTerminal} {fuel : ℕ} {ts rest : List (Token W)} {d : Deriv W nt}
    (h : read nt fuel ts = .ok (d, rest)) : ts = d.yield ++ rest := by
  fun_induction read nt fuel ts generalizing rest with
  | case1 => cases h
  | case2 fuel ts ihpipe ihline =>
    obtain ⟨⟨pipe, ts₁⟩, hpipe, hnext⟩ := bind_ok h
    obtain ⟨⟨amps, ts₂⟩, hamps, hlast⟩ := bind_ok hnext
    rw [ihpipe hpipe, readAmps_sound hamps]
    dsimp only at hlast
    split at hlast
    · obtain ⟨⟨rest', ts₃⟩, hline, hpure⟩ := bind_ok hlast
      cases hpure
      rw [ihline _ hline]
      simp [Deriv.yield]
    · cases hlast
      simp [Deriv.yield]
  | case3 fuel ts ihexec ihpipe =>
    obtain ⟨⟨exec, ts₁⟩, hexec, hnext⟩ := bind_ok h
    rw [ihexec hexec]
    dsimp only at hnext
    split at hnext
    · obtain ⟨⟨rest', ts₃⟩, hpipe, hpure⟩ := bind_ok hnext
      cases hpure
      rw [ihpipe _ hpipe]
      simp [Deriv.yield]
    · cases hnext
      simp [Deriv.yield]
  | case4 => cases h
  | case5 fuel ts ihline =>
    obtain ⟨⟨line, ts₁⟩, hline, hnext⟩ := bind_ok h
    rw [ihline hline]
    dsimp only at hnext
    split at hnext
    · obtain ⟨⟨redirs, ts₂⟩, hredirs, hpure⟩ := bind_ok hnext
      cases hpure
      rw [readRedirs_sound hredirs]
      simp [Deriv.yield]
    · cases hnext
  | case6 fuel ts =>
    obtain ⟨⟨redirs, ts₁⟩, hredirs, hnext⟩ := bind_ok h
    obtain ⟨⟨args, ts₂⟩, hargs, hlast⟩ := bind_ok hnext
    dsimp only at hlast
    split at hlast
    · cases hlast
      rw [readRedirs_sound hredirs, readArgs_sound hargs]
      simp [Deriv.yield]
    · cases hlast

/-! ## What is derived is read -/

/-- Whether a token may stand behind a nonterminal. -/
def Token.follows : NonTerminal → Token W → Bool
  | _, .rpar => true
  | .pipe, .amp | .pipe, .semi => true
  | .exec, .amp | .exec, .semi | .exec, .bar => true
  | _, _ => false

/-- What stands behind a nonterminal. -/
def Follow (nt : NonTerminal) (rest : List (Token W)) : Prop :=
  ∀ t ts, rest = t :: ts → t.follows nt = true

theorem length_redirs (redirs : List (Redir W)) :
    (redirs.flatMap Redir.yield).length = 2 * redirs.length := by
  induction redirs with
  | nil => rfl
  | cons redir redirs ih =>
    rw [List.flatMap_cons, List.length_append, ih, List.length_cons, Redir.yield]
    simp only [List.length_cons, List.length_nil]
    omega

theorem readRedirs_of_not {fuel : ℕ} {ts : List (Token W)}
    (h : ∀ kind ts', ts ≠ .redir kind :: ts') : readRedirs (fuel + 1) ts = .ok ([], ts) := by
  rw [readRedirs]
  · exact fun kind file ts' heq ↦ h kind _ heq
  · exact h

theorem readRedirs_complete {redirs : List (Redir W)} {fuel : ℕ} {rest : List (Token W)}
    (hfuel : redirs.length < fuel) (hrest : ∀ kind ts, rest ≠ .redir kind :: ts) :
    readRedirs fuel (redirs.flatMap Redir.yield ++ rest) = .ok (redirs, rest) := by
  induction redirs generalizing fuel with
  | nil =>
    obtain _ | fuel := fuel
    · exact absurd hfuel (Nat.not_lt_zero _)
    rw [List.flatMap_nil, List.nil_append, readRedirs_of_not hrest]
  | cons redir redirs ih =>
    obtain _ | fuel := fuel
    · exact absurd hfuel (Nat.not_lt_zero _)
    rw [List.length_cons, Nat.add_lt_add_iff_right] at hfuel
    show (readRedirs fuel (redirs.flatMap Redir.yield ++ rest) >>= _) = _
    rw [ih hfuel]
    rfl

theorem readAmps_complete {amps fuel : ℕ} {rest : List (Token W)} (hfuel : amps < fuel)
    (hrest : ∀ ts, rest ≠ .amp :: ts) :
    readAmps fuel (List.replicate amps .amp ++ rest) = .ok (amps, rest) := by
  induction amps generalizing fuel with
  | zero =>
    obtain _ | fuel := fuel
    · exact absurd hfuel (Nat.not_lt_zero _)
    rw [List.replicate_zero, List.nil_append, readAmps]
    exact hrest
  | succ amps ih =>
    obtain _ | fuel := fuel
    · exact absurd hfuel (Nat.not_lt_zero _)
    rw [Nat.add_lt_add_iff_right] at hfuel
    show (readAmps fuel (List.replicate amps .amp ++ rest) >>= _) = _
    rw [ih hfuel]
    rfl

theorem Follow.not_redir {nt : NonTerminal} {rest : List (Token W)} (h : Follow nt rest)
    (kind : RedirKind) (ts : List (Token W)) : rest ≠ .redir kind :: ts := by
  intro heq
  have := h _ _ heq
  cases nt <;> cases this

/-- Neither words nor what stands behind a command begin with a redirection. -/
theorem Follow.args {rest : List (Token W)} (h : Follow .exec rest) (args : List (Arg W))
    (kind : RedirKind) (ts : List (Token W)) :
    args.flatMap Arg.yield ++ rest ≠ .redir kind :: ts := by
  cases args with
  | nil => exact h.not_redir kind ts
  | cons arg args => exact fun heq ↦ by cases heq

/-- The words of a command take fuel for each of their tokens. -/
theorem readArgs_complete {args : List (Arg W)} {argc fuel : ℕ} {rest : List (Token W)}
    (hfuel : (args.flatMap Arg.yield).length < fuel) (hfew : argc + args.length < MAXARGS)
    (hrest : Follow .exec rest) :
    readArgs fuel argc (args.flatMap Arg.yield ++ rest) = .ok (args, rest) := by
  induction args generalizing argc fuel with
  | nil =>
    obtain _ | fuel := fuel
    · exact absurd hfuel (Nat.not_lt_zero _)
    rw [List.flatMap_nil, List.nil_append, readArgs]
    · exact fun w ts heq ↦ by cases hrest _ _ heq
    · exact hrest.not_redir
    · exact fun ts heq ↦ by cases hrest _ _ heq
  | cons arg args ih =>
    obtain _ | fuel := fuel
    · exact absurd hfuel (Nat.not_lt_zero _)
    simp only [List.flatMap_cons, Arg.yield, List.length_append, List.length_cons,
      length_redirs] at hfuel hfew
    rw [List.flatMap_cons, Arg.yield, List.cons_append, List.cons_append, List.append_assoc,
      readArgs, if_neg (by omega),
      readRedirs_complete (by omega) (hrest.args args)]
    show (readArgs fuel (argc + 1) (args.flatMap Arg.yield ++ rest) >>= _) = _
    rw [ih (by omega) (by omega)]
    rfl

/-- The fuel for a nonterminal before its first token. -/
def NonTerminal.weight : NonTerminal → ℕ
  | .line => 4
  | .pipe => 3
  | .exec => 2

theorem Follow.pipe {rest : List (Token W)} (h : Follow .line rest) : Follow .pipe rest := by
  intro t ts heq
  have hfollows := h t ts heq
  cases t <;> first | rfl | cases hfollows

theorem Follow.exec {rest : List (Token W)} (h : Follow .pipe rest) : Follow .exec rest := by
  intro t ts heq
  have hfollows := h t ts heq
  cases t <;> first | rfl | cases hfollows

theorem Follow.amps {rest : List (Token W)} (h : Follow .pipe rest) (amps : ℕ) :
    Follow .pipe (List.replicate amps .amp ++ rest) := by
  cases amps with
  | zero => exact h
  | succ amps =>
    intro t ts heq
    cases heq
    rfl

/-- `read` finds the derivation of the tokens. -/
theorem read_complete {nt : NonTerminal} (d : Deriv W nt) {fuel : ℕ} {rest : List (Token W)}
    (hfuel : 4 * d.yield.length + nt.weight ≤ fuel) (hrest : Follow nt rest) :
    read nt fuel (d.yield ++ rest) = .ok (d, rest) := by
  induction d generalizing fuel rest with
  | line p amps ih =>
    obtain _ | fuel := fuel
    · cases hfuel
    simp only [Deriv.yield, NonTerminal.weight, List.length_append, List.length_replicate] at *
    rw [List.append_assoc]
    refine read_line_end (ih (by omega) (hrest.pipe.amps amps))
      (readAmps_complete (by omega) ?_) ?_
    · exact fun ts heq ↦ by cases hrest _ _ heq
    · exact fun ts heq ↦ by cases hrest _ _ heq
  | list p amps rest' ihpipe ihline =>
    obtain _ | fuel := fuel
    · cases hfuel
    simp only [Deriv.yield, NonTerminal.weight, List.length_append, List.length_replicate,
      List.length_cons] at *
    have hsemi : Follow .pipe (.semi :: (rest'.yield ++ rest)) := fun t ts heq ↦ by
      cases heq
      rfl
    rw [List.append_assoc, List.append_assoc, List.cons_append,
      read_line_list (ihpipe (by omega) (hsemi.amps amps))
        (readAmps_complete (by omega) fun ts heq ↦ by cases heq),
      ihline (by omega) hrest]
    rfl
  | single e ih =>
    obtain _ | fuel := fuel
    · cases hfuel
    simp only [Deriv.yield, NonTerminal.weight] at *
    exact read_pipe_end (ih (by omega) hrest.exec) fun ts heq ↦ by cases hrest _ _ heq
  | pipe e rest' ihexec ihpipe =>
    obtain _ | fuel := fuel
    · cases hfuel
    simp only [Deriv.yield, NonTerminal.weight, List.length_append, List.length_cons] at *
    have hbar : Follow .exec (.bar :: (rest'.yield ++ rest)) := fun t ts heq ↦ by
      cases heq
      rfl
    rw [List.append_assoc, List.cons_append, read_pipe_bar (ihexec (by omega) hbar),
      ihpipe (by omega) hrest]
    rfl
  | block l redirs ih =>
    simp only [Deriv.yield, NonTerminal.weight, List.length_append, List.length_cons,
      length_redirs] at *
    obtain _ | _ | fuel := fuel
    · omega
    · omega
    have hrpar : Follow .line (.rpar :: (redirs.flatMap Redir.yield ++ rest)) := fun t ts heq ↦ by
      cases heq
      rfl
    rw [List.cons_append, List.cons_append, List.append_assoc, List.cons_append, read_exec_block,
      ih (by omega) hrpar]
    show (readRedirs fuel (redirs.flatMap Redir.yield ++ rest) >>= _) = _
    rw [readRedirs_complete (by omega) hrest.not_redir]
    rfl
  | simple redirs args few =>
    simp only [Deriv.yield, NonTerminal.weight, List.length_append, length_redirs] at *
    obtain _ | fuel := fuel
    · omega
    have hlpar : ∀ ts, redirs.flatMap Redir.yield ++ (args.flatMap Arg.yield ++ rest) ≠
        .lpar :: ts := by
      intro ts heq
      cases redirs with
      | cons redir redirs => cases heq
      | nil =>
        cases args with
        | cons arg args => cases heq
        | nil => cases hrest _ _ heq
    rw [List.append_assoc, read_exec_simple hlpar,
      readRedirs_complete (by omega) (hrest.args args)]
    show (readArgs fuel 0 (args.flatMap Arg.yield ++ rest) >>= _) = _
    rw [readArgs_complete (by omega) (by omega) hrest]
    exact dif_pos few

/-- The tokens have one derivation at most. -/
theorem Deriv.eq_of_yield {nt : NonTerminal} {d d' : Deriv W nt} (h : d.yield = d'.yield) :
    d = d' := by
  have hfollow : Follow (W := W) nt [] := fun t ts heq ↦ by cases heq
  have hread := read_complete d le_rfl hfollow
  rw [h, read_complete d' le_rfl hfollow] at hread
  cases hread
  rfl

/-! ## Termination -/

theorem readRedirs_terminates {fuel : ℕ} {ts : List (Token W)} (hfuel : ts.length < fuel) :
    readRedirs fuel ts ≠ .error .diverges := by
  fun_induction readRedirs fuel ts with
  | case1 => exact absurd hfuel (Nat.not_lt_zero _)
  | case2 fuel kind file ts ih =>
    simp only [List.length_cons] at hfuel
    exact bind_ne_error (ih (by omega)) fun _ _ h ↦ by cases h
  | case3 => exact fun h ↦ by cases h
  | case4 => exact fun h ↦ by cases h

theorem readArgs_terminates {fuel argc : ℕ} {ts : List (Token W)} (hfuel : ts.length < fuel) :
    readArgs fuel argc ts ≠ .error .diverges := by
  fun_induction readArgs fuel argc ts with
  | case1 => exact absurd hfuel (Nat.not_lt_zero _)
  | case2 => exact fun h ↦ by cases h
  | case3 fuel argc w ts hfew ih =>
    simp only [List.length_cons] at hfuel
    refine bind_ne_error (readRedirs_terminates (by omega)) fun ⟨redirs, ts₁⟩ hredirs ↦ ?_
    have hlength := congrArg List.length (readRedirs_sound hredirs)
    rw [List.length_append] at hlength
    exact bind_ne_error (ih ts₁ (by omega)) fun _ _ h ↦ by cases h
  | case4 => exact fun h ↦ by cases h
  | case5 => exact fun h ↦ by cases h
  | case6 => exact fun h ↦ by cases h

theorem readAmps_terminates {fuel : ℕ} {ts : List (Token W)} (hfuel : ts.length < fuel) :
    readAmps fuel ts ≠ .error .diverges := by
  fun_induction readAmps fuel ts with
  | case1 => exact absurd hfuel (Nat.not_lt_zero _)
  | case2 fuel ts ih =>
    simp only [List.length_cons] at hfuel
    exact bind_ne_error (ih (by omega)) fun _ _ h ↦ by cases h
  | case3 => exact fun h ↦ by cases h

/-- Each nonterminal that is entered again has a token less in front of it. -/
theorem read_terminates {nt : NonTerminal} {fuel : ℕ} {ts : List (Token W)}
    (hfuel : 4 * ts.length + nt.weight ≤ fuel) : read nt fuel ts ≠ .error .diverges := by
  fun_induction read nt fuel ts with
  | case1 nt ts => cases nt <;> cases hfuel
  | case2 fuel ts ihpipe ihline =>
    simp only [NonTerminal.weight] at *
    refine bind_ne_error (ihpipe (by omega)) fun ⟨p, ts₁⟩ hpipe ↦ ?_
    have hlength := congrArg List.length (read_sound hpipe)
    rw [List.length_append] at hlength
    dsimp only
    refine bind_ne_error (readAmps_terminates (by omega)) fun ⟨amps, ts₂⟩ hamps ↦ ?_
    have hlength' := congrArg List.length (readAmps_sound hamps)
    rw [List.length_append] at hlength'
    dsimp only
    split
    · rw [List.length_cons] at hlength'
      exact bind_ne_error (ihline _ (by omega)) fun _ _ h ↦ by cases h
    · exact fun h ↦ by cases h
  | case3 fuel ts ihexec ihpipe =>
    simp only [NonTerminal.weight] at *
    refine bind_ne_error (ihexec (by omega)) fun ⟨e, ts₁⟩ hexec ↦ ?_
    have hlength := congrArg List.length (read_sound hexec)
    rw [List.length_append] at hlength
    dsimp only
    split
    · rw [List.length_cons] at hlength
      exact bind_ne_error (ihpipe _ (by omega)) fun _ _ h ↦ by cases h
    · exact fun h ↦ by cases h
  | case4 ts =>
    simp only [NonTerminal.weight, List.length_cons] at hfuel
    omega
  | case5 fuel ts ihline =>
    simp only [NonTerminal.weight, List.length_cons] at *
    refine bind_ne_error (ihline (by omega)) fun ⟨l, ts₁⟩ hline ↦ ?_
    have hlength := congrArg List.length (read_sound hline)
    rw [List.length_append] at hlength
    dsimp only
    split
    · rw [List.length_cons] at hlength
      exact bind_ne_error (readRedirs_terminates (by omega)) fun _ _ h ↦ by cases h
    · exact fun h ↦ by cases h
  | case6 fuel ts =>
    simp only [NonTerminal.weight] at *
    refine bind_ne_error (readRedirs_terminates (by omega)) fun ⟨redirs, ts₁⟩ hredirs ↦ ?_
    have hlength := congrArg List.length (readRedirs_sound hredirs)
    rw [List.length_append] at hlength
    dsimp only
    refine bind_ne_error (readArgs_terminates (by omega)) fun ⟨args, ts₂⟩ hargs ↦ ?_
    dsimp only
    split
    · exact fun h ↦ by cases h
    · exact fun h ↦ by cases h

end Xv6.Shell
