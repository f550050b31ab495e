import Xv6.Lib.Wp

/-!
# The Parser of the Shell

`parsecmd` cuts a line into tokens and builds a command from them.  The strings of the command are
pointers into the line; `nulterminate` cuts them off in the line once it has been parsed.
-/

namespace Xv6.Shell

/-- A byte of the line. -/
abbrev ch (c : Char) : UInt8 := c.toUInt8

/-- `whitespace`; the last one is a vertical tab. -/
def whitespace : List UInt8 := [ch ' ', ch '\t', ch '\r', ch '\n', 11]

/-- `symbols`. -/
def symbols : List UInt8 := [ch '<', ch '|', ch '>', ch '&', ch ';', ch '(', ch ')']

abbrev MAXARGS : ℕ := 10

abbrev O_RDONLY : ℕ := 0x000
abbrev O_WRONLY : ℕ := 0x001
abbrev O_CREATE : ℕ := 0x200
abbrev O_TRUNC : ℕ := 0x400

/-- A command; `S` is the type of its strings. -/
inductive Cmd (S : Type) where
  | exec (argv : List S)
  | redir (cmd : Cmd S) (file : S) (mode fd : ℕ)
  | pipe (left right : Cmd S)
  | list (left right : Cmd S)
  | back (cmd : Cmd S)
  deriving DecidableEq

namespace Cmd

variable {S T : Type}

/-- Another argument for the `execcmd` below the redirections. -/
def pushArg (arg : S) : Cmd S → Cmd S
  | .exec argv => .exec (argv ++ [arg])
  | .redir cmd file mode fd => .redir (cmd.pushArg arg) file mode fd
  | cmd => cmd

/-- The same command with other strings. -/
def map (f : S → T) : Cmd S → Cmd T
  | .exec argv => .exec (argv.map f)
  | .redir cmd file mode fd => .redir (cmd.map f) (f file) mode fd
  | .pipe left right => .pipe (left.map f) (right.map f)
  | .list left right => .list (left.map f) (right.map f)
  | .back cmd => .back (cmd.map f)

end Cmd

/-- A string in the line: its first byte `q`, and the byte `eq` behind it. -/
structure Span where
  q : ℕ
  eq : ℕ
  deriving DecidableEq

/-- What ends the shell: one of its panics, or (for the fuel of the model) running forever. -/
inductive Stop where
  | missingFile
  | parseblock
  | missingParen
  | syntaxError
  | tooManyArgs
  | leftovers
  | diverges
  deriving DecidableEq

/-- The state of the parser is the cursor `*ps`. -/
abbrev ShM := StateT ℕ (Except Stop)

/-! ## Tokens -/

/-- The length of the string that starts a buffer. -/
def strlen (line : List UInt8) : ℕ := (line.takeWhile (· ≠ 0)).length

section Parser

variable (line : List UInt8) (es : ℕ)

/-- `*s`; behind the bytes of the line there is a NUL. -/
def deref (s : ℕ) : UInt8 := line.getD s 0

/-- `while(s < es && p(*s)) s++`, where `n` is `es - s`. -/
def skipLoop (p : UInt8 → Bool) : ℕ → ℕ → ℕ
  | 0, s => s
  | n + 1, s => if p (deref line s) then skipLoop p n (s + 1) else s

def skipWhile (p : UInt8 → Bool) (s : ℕ) : ℕ := skipLoop line p (es - s) s

def isSpace (c : UInt8) : Bool := whitespace.contains c

/-- Neither whitespace nor a symbol. -/
def isPlain (c : UInt8) : Bool := !whitespace.contains c && !symbols.contains c

/-- The `switch` of `gettoken`: the kind of the token at `s`, and the end of the token. -/
def tokenAt (s : ℕ) : UInt8 × ℕ :=
  let c := deref line s
  if c = 0 then (c, s)
  else if c ∈ [ch '|', ch '(', ch ')', ch ';', ch '&', ch '<'] then (c, s + 1)
  else if c = ch '>' then
    if deref line (s + 1) = ch '>' then (ch '+', s + 2) else (c, s + 1)
  else (ch 'a', skipWhile line es isPlain s)

/-- `gettoken`: the kind of the token, and where it stands. -/
def gettoken : ShM (UInt8 × Span) := do
  let q := skipWhile line es isSpace (← get)
  let (ret, eq) := tokenAt line es q
  set (skipWhile line es isSpace eq)
  return (ret, ⟨q, eq⟩)

/-- `peek`: whether the next token begins with one of the bytes. -/
def peek (toks : List UInt8) : ShM Bool := do
  let s := skipWhile line es isSpace (← get)
  set s
  return deref line s ≠ 0 ∧ deref line s ∈ toks

/-! ## Commands -/

/-- The `switch` of `parseredirs`. -/
def redirTo (tok : UInt8) (cmd : Cmd Span) (file : Span) : Cmd Span :=
  if tok = ch '<' then .redir cmd file O_RDONLY 0
  else if tok = ch '>' then .redir cmd file (O_WRONLY + O_CREATE + O_TRUNC) 1
  else if tok = ch '+' then .redir cmd file (O_WRONLY + O_CREATE) 1
  else cmd

/-- The loop of `parseredirs`. -/
def parseredirs : ℕ → Cmd Span → ShM (Cmd Span)
  | 0, _ => throw .diverges
  | fuel + 1, cmd => do
      if ← peek line es [ch '<', ch '>'] then
        let (tok, _) ← gettoken line es
        let (ret, file) ← gettoken line es
        if ret ≠ ch 'a' then throw .missingFile
        else parseredirs fuel (redirTo tok cmd file)
      else return cmd

/-- The loop of `parseexec` over the arguments. -/
def parseargs : ℕ → ℕ → Cmd Span → ShM (Cmd Span)
  | 0, _, _ => throw .diverges
  | fuel + 1, argc, ret => do
      if ← peek line es [ch '|', ch ')', ch '&', ch ';'] then return ret
      else
        let (tok, arg) ← gettoken line es
        if tok = 0 then return ret
        else if tok ≠ ch 'a' then throw .syntaxError
        else if MAXARGS ≤ argc + 1 then throw .tooManyArgs
        else parseargs fuel (argc + 1) (← parseredirs line es fuel (ret.pushArg arg))

/-- The loop of `parseline` over the ampersands. -/
def parseback : ℕ → Cmd Span → ShM (Cmd Span)
  | 0, _ => throw .diverges
  | fuel + 1, cmd => do
      if ← peek line es [ch '&'] then
        let _ ← gettoken line es
        parseback fuel (.back cmd)
      else return cmd

mutual

def parseline : ℕ → ShM (Cmd Span)
  | 0 => throw .diverges
  | fuel + 1 => do
      let cmd ← parseback line es fuel (← parsepipe fuel)
      if ← peek line es [ch ';'] then
        let _ ← gettoken line es
        return .list cmd (← parseline fuel)
      else return cmd

def parsepipe : ℕ → ShM (Cmd Span)
  | 0 => throw .diverges
  | fuel + 1 => do
      let cmd ← parseexec fuel
      if ← peek line es [ch '|'] then
        let _ ← gettoken line es
        return .pipe cmd (← parsepipe fuel)
      else return cmd

def parseexec : ℕ → ShM (Cmd Span)
  | 0 => throw .diverges
  | fuel + 1 => do
      if ← peek line es [ch '('] then parseblock fuel
      else parseargs line es fuel 0 (← parseredirs line es fuel (.exec []))

def parseblock : ℕ → ShM (Cmd Span)
  | 0 => throw .diverges
  | fuel + 1 => do
      if !(← peek line es [ch '(']) then throw .parseblock
      else
        let _ ← gettoken line es
        let cmd ← parseline fuel
        if !(← peek line es [ch ')']) then throw .missingParen
        else
          let _ ← gettoken line es
          parseredirs line es fuel cmd

end

end Parser

/-- `nulterminate`: a NUL behind each string of a command. -/
def nulterminate : Cmd Span → List UInt8 → List UInt8
  | .exec argv, line => argv.foldl (fun line arg ↦ line.set arg.eq 0) line
  | .redir cmd file _ _, line => (nulterminate cmd line).set file.eq 0
  | .pipe left right, line => nulterminate right (nulterminate left line)
  | .list left right, line => nulterminate right (nulterminate left line)
  | .back cmd, line => nulterminate cmd line

/-- The number of calls that may be nested, or rounds that a loop may take, in a line of `n`
bytes. -/
def depth (n : ℕ) : ℕ := 4 * n + 4

/-- `parsecmd` before `nulterminate`. -/
def parsewhole (line : List UInt8) (es : ℕ) : ShM (Cmd Span) := do
  let cmd ← parseline line es (depth es)
  let _ ← peek line es []
  if (← get) ≠ es then throw .leftovers
  else return cmd

/-- `parsecmd`: the command, and the line with its strings cut off. -/
def parsecmd (line : List UInt8) : Except Stop (Cmd Span × List UInt8) :=
  match parsewhole line (strlen line) 0 with
  | .ok (cmd, _) => .ok (cmd, nulterminate cmd line)
  | .error stop => .error stop

/-- The string at a pointer. -/
def cstring (line : List UInt8) (span : Span) : List UInt8 := (line.drop span.q).takeWhile (· ≠ 0)

/-- The command that `parsecmd` returns, with its strings. -/
def command (line : List UInt8) : Except Stop (Cmd (List UInt8)) :=
  (parsecmd line).map fun result ↦ result.1.map (cstring result.2)

end Xv6.Shell
