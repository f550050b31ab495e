import Xv6.Shell.Parsecmd

/-!
# The Order of Redirections

A model of `runcmd` and of the loop of `main` that opens the console, with the descriptors of each
process.  `parseredirs` puts a later redirection around the earlier ones, and `runcmd` works from
the outside, so the redirections of a command are carried out from right to left, and the leftmost
one for a descriptor is the one that lasts.
-/

namespace Xv6.Shell

open Function

/-! ## Descriptors -/

abbrev NOFILE : ℕ := 16

/-- What a descriptor refers to; pipes are numbered from the shell on. -/
inductive Source where
  | inherited (fd : ℕ)
  | console
  | file (name : List UInt8) (mode : ℕ)
  | pipe (n : ℕ) (write : Bool)
  deriving DecidableEq

/-- The open files of a process. -/
abbrev Table := ℕ → Option Source

namespace Table

/-- `close`. -/
def close (t : Table) (fd : ℕ) : Table := update t fd none

/-- `fdalloc`: the lowest free descriptor, and the table with a file at it. -/
def fdalloc (t : Table) (f : Source) : Option (ℕ × Table) :=
  ((List.range NOFILE).find? fun fd ↦ t fd = none).map fun fd ↦ (fd, update t fd (some f))

/-- The loop of `main`, for `n` rounds: `open("console", O_RDWR)` until the descriptor is 3. -/
def openConsole : ℕ → Table → Table
  | 0, t => t
  | n + 1, t =>
    match t.fdalloc .console with
    | none => t
    | some (fd, t) => if 3 ≤ fd then t.close fd else openConsole n t

/-- Descriptors 0 and 1 are open. -/
structure Standard (t : Table) : Prop where
  stdin : t 0 ≠ none
  stdout : t 1 ≠ none

end Table

/-- A process of the shell: its open files, the files it has opened for redirections, and the number of
pipes made on the way to it. -/
structure Proc where
  table : Table
  opened : List (List UInt8 × ℕ)
  pipes : ℕ

/-! ## `runcmd` -/

section Run

-- Whether `open` succeeds for a name and a mode, in a process that has opened some files before.
variable (opens : List (List UInt8 × ℕ) → List UInt8 → ℕ → Bool)

/-- The case `REDIR` of `runcmd`, up to the recursive call; nothing if the process exits. -/
def redirect (file : List UInt8) (mode fd : ℕ) (s : Proc) : Option Proc :=
  let table := s.table.close fd
  if opens s.opened file mode then
    (table.fdalloc (.file file mode)).map fun r ↦
      { s with table := r.2, opened := s.opened ++ [(file, mode)] }
  else none

/-- The case `PIPE` of `runcmd`: the processes of the left and of the right command; nothing if the
shell panics. -/
def pipeTo (s : Proc) : Option (Proc × Proc) := do
  let (p₀, t) ← s.table.fdalloc (.pipe s.pipes false)
  let (p₁, t) ← t.fdalloc (.pipe s.pipes true)
  let (_, left) ← (t.close 1).fdalloc (.pipe s.pipes true)
  let (_, right) ← (t.close 0).fdalloc (.pipe s.pipes false)
  let child (t : Table) : Proc :=
    { s with table := (t.close p₀).close p₁, pipes := s.pipes + 1 }
  return (child left, child right)

/-- The calls of `runcmd` that `runcmd` makes for a command, in its own process or in a child. -/
def calls : Cmd (List UInt8) → Proc → List (Cmd (List UInt8) × Proc)
  | .exec _, _ => []
  | .redir cmd file mode fd, s => (redirect opens file mode fd s).toList.map (cmd, ·)
  | .list left right, s => [(left, s), (right, s)]
  | .pipe left right, s =>
    match pipeTo s with
    | some (l, r) => [(left, l), (right, r)]
    | none => []
  | .back cmd, s => [(cmd, s)]

/-- `runcmd` is called with a command in a process of the shell, which was started with the open files
`t` and has read a line. -/
inductive Runs (t : Table) (line : List UInt8) : Cmd (List UInt8) → Proc → Prop
  | main {tree : Cmd (List UInt8)} (h : command line = .ok tree) :
      Runs t line tree ⟨t.openConsole NOFILE, [], 0⟩
  | call {cmd cmd' : Cmd (List UInt8)} {s s' : Proc} (h : Runs t line cmd s)
      (hcall : (cmd', s') ∈ calls opens cmd s) : Runs t line cmd' s'

/-- The call of `runcmd` that follows `n` redirections. -/
def unwrap : ℕ → Cmd (List UInt8) → Proc → Option (Cmd (List UInt8) × Proc)
  | 0, cmd, s => some (cmd, s)
  | n + 1, .redir cmd file mode fd, s => (redirect opens file mode fd s).bind (unwrap n cmd)
  | _ + 1, _, _ => none

end Run

namespace Table

/-- `fdalloc` puts the file at a free descriptor below which there is no other. -/
theorem fdalloc_iff {t t' : Table} {f : Source} {fd : ℕ} :
    t.fdalloc f = some (fd, t') ↔
      fd < NOFILE ∧ t fd = none ∧ (∀ k < fd, t k ≠ none) ∧ t' = update t fd (some f) := by
  rw [fdalloc, Option.map_eq_some_iff]
  constructor
  · rintro ⟨n, hfind, hn⟩
    obtain ⟨rfl, rfl⟩ := Prod.mk.inj hn
    obtain ⟨hfree, hmem, hlow⟩ := List.find?_range_eq_some.1 hfind
    exact ⟨List.mem_range.1 hmem, by simpa using hfree, fun k hk ↦ by simpa using hlow k hk, rfl⟩
  · rintro ⟨hfd, hfree, hlow, rfl⟩
    refine ⟨fd, List.find?_range_eq_some.2 ⟨by simpa using hfree, List.mem_range.2 hfd, ?_⟩, rfl⟩
    intro k hk
    simpa using hlow k hk

theorem fdalloc_eq_none {t : Table} {f : Source} (h : t.fdalloc f = none) {k : ℕ}
    (hk : k < NOFILE) : t k ≠ none := by
  rw [fdalloc, Option.map_eq_none_iff, List.find?_range_eq_none] at h
  simpa using h k hk

theorem Standard.update {t : Table} (h : t.Standard) (fd : ℕ) (f : Source) :
    Standard (update t fd (some f)) := by
  constructor
  · by_cases hfd : 0 = fd
    · simp [← hfd]
    · rw [update_of_ne hfd]
      exact h.stdin
  · by_cases hfd : 1 = fd
    · simp [← hfd]
    · rw [update_of_ne hfd]
      exact h.stdout

theorem Standard.close {t : Table} (h : t.Standard) {fd : ℕ} (hfd : 2 ≤ fd) :
    (t.close fd).Standard := by
  constructor
  · rw [Table.close, update_of_ne (by omega)]
    exact h.stdin
  · rw [Table.close, update_of_ne (by omega)]
    exact h.stdout

theorem Standard.le_of_free {t : Table} (h : t.Standard) {fd : ℕ} (hfd : t fd = none) :
    2 ≤ fd := by
  by_contra hlt
  have hcases : fd = 0 ∨ fd = 1 := by omega
  rcases hcases with rfl | rfl
  · exact h.stdin hfd
  · exact h.stdout hfd

/-- The loop of `main` goes on until the first descriptors are open. -/
theorem openConsole_spec {n j : ℕ} (hn : 3 < n + j) {t : Table} (ht : ∀ k < j, t k ≠ none) :
    (t.openConsole n).Standard := by
  induction n generalizing t j with
  | zero => exact ⟨ht 0 (by omega), ht 1 (by omega)⟩
  | succ n ih =>
    rw [openConsole]
    split
    next hfull => exact ⟨fdalloc_eq_none hfull (by decide), fdalloc_eq_none hfull (by decide)⟩
    next fd t' halloc =>
      obtain ⟨-, hfree, hlow, rfl⟩ := fdalloc_iff.1 halloc
      have hj : j ≤ fd := by
        by_contra hlt
        exact ht fd (by omega) hfree
      split
      next hthree =>
        have hstandard : t.Standard := ⟨hlow 0 (by omega), hlow 1 (by omega)⟩
        exact (hstandard.update fd .console).close (by omega)
      next hlt =>
        refine ih (j := j + 1) (by omega) fun k hk ↦ ?_
        by_cases hkfd : k = fd
        · simp [hkfd]
        · rw [update_of_ne hkfd]
          exact hlow k (by omega)

theorem standard_openConsole (t : Table) : (t.openConsole NOFILE).Standard :=
  openConsole_spec (j := 0) (by decide) fun k hk ↦ absurd hk (by omega)

/-- Closing descriptor 0 or 1 and opening a file puts the file there. -/
theorem Standard.reopen {t : Table} (h : t.Standard) {fd : ℕ} (hfd : fd < 2) (f : Source) :
    (t.close fd).fdalloc f = some (fd, Function.update t fd (some f)) := by
  refine fdalloc_iff.2 ⟨by simp only [NOFILE]; omega, by simp [Table.close], fun k hk ↦ ?_, ?_⟩
  · have hk0 : k = 0 := by omega
    rw [Table.close, update_of_ne (by omega), hk0]
    exact h.stdin
  · simp [Table.close]

theorem Standard.fdalloc {t t' : Table} (h : t.Standard) {f : Source} {fd : ℕ}
    (halloc : t.fdalloc f = some (fd, t')) : 2 ≤ fd ∧ t'.Standard := by
  obtain ⟨-, hfree, -, rfl⟩ := fdalloc_iff.1 halloc
  exact ⟨h.le_of_free hfree, h.update fd f⟩

end Table

/-! ## The Processes of a Run -/

section Run

variable {opens : List (List UInt8 × ℕ) → List UInt8 → ℕ → Bool}

theorem redirect_standard {file : List UInt8} {mode fd : ℕ} {s s' : Proc}
    (h : redirect opens file mode fd s = some s') (hs : s.table.Standard) : s'.table.Standard := by
  rw [redirect] at h
  split at h
  next =>
    obtain ⟨⟨n, t⟩, halloc, rfl⟩ := Option.map_eq_some_iff.1 h
    rcases Nat.lt_or_ge fd 2 with hfd | hfd
    · rw [hs.reopen hfd] at halloc
      obtain ⟨-, rfl⟩ := Prod.mk.inj (Option.some.inj halloc)
      exact hs.update fd _
    · exact ((hs.close hfd).fdalloc halloc).2
  next => cases h

theorem pipeTo_standard {s l r : Proc} (h : pipeTo s = some (l, r)) (hs : s.table.Standard) :
    l.table.Standard ∧ r.table.Standard := by
  simp only [pipeTo, Option.bind_eq_bind, Option.bind_eq_some_iff] at h
  obtain ⟨⟨p₀, t₀⟩, halloc₀, ⟨p₁, t₁⟩, halloc₁, ⟨_, left⟩, hleft, ⟨_, right⟩, hright, hpair⟩ := h
  obtain ⟨hp₀, ht₀⟩ := hs.fdalloc halloc₀
  obtain ⟨hp₁, ht₁⟩ := ht₀.fdalloc halloc₁
  rw [ht₁.reopen (by omega)] at hleft hright
  obtain ⟨-, rfl⟩ := Prod.mk.inj (Option.some.inj hleft)
  obtain ⟨-, rfl⟩ := Prod.mk.inj (Option.some.inj hright)
  obtain ⟨rfl, rfl⟩ := Prod.mk.inj (Option.some.inj hpair)
  exact ⟨((ht₁.update 1 _).close hp₀).close hp₁, ((ht₁.update 0 _).close hp₀).close hp₁⟩

theorem calls_standard {cmd cmd' : Cmd (List UInt8)} {s s' : Proc}
    (h : (cmd', s') ∈ calls opens cmd s) (hs : s.table.Standard) : s'.table.Standard := by
  cases cmd with
  | exec argv => cases h
  | redir cmd file mode fd =>
    obtain ⟨s₁, hs₁, heq⟩ := List.mem_map.1 h
    obtain ⟨-, rfl⟩ := Prod.mk.inj heq
    exact redirect_standard (Option.mem_toList.1 hs₁) hs
  | list left right =>
    rcases List.mem_pair.1 h with heq | heq
    · exact (Prod.mk.inj heq).2 ▸ hs
    · exact (Prod.mk.inj heq).2 ▸ hs
  | pipe left right =>
    rw [calls] at h
    split at h
    next l r hpipe =>
      obtain ⟨hl, hr⟩ := pipeTo_standard hpipe hs
      rcases List.mem_pair.1 h with heq | heq
      · exact (Prod.mk.inj heq).2 ▸ hl
      · exact (Prod.mk.inj heq).2 ▸ hr
    next => cases h
  | back cmd => exact (Prod.mk.inj (List.mem_singleton.1 h)).2 ▸ hs

/-- Descriptors 0 and 1 are open in every process that runs a command. -/
theorem Runs.standard {t : Table} {line : List UInt8} {cmd : Cmd (List UInt8)} {s : Proc}
    (h : Runs opens t line cmd s) : s.table.Standard := by
  induction h with
  | main h => exact t.standard_openConsole
  | call h hcall ih => exact calls_standard hcall ih

end Run

/-! ## Redirections -/

namespace Redir

/-- What a redirection opens. -/
def target (r : Redir (List UInt8)) : List UInt8 × ℕ := (r.file, r.kind.mode)

def source (r : Redir (List UInt8)) : Source := .file r.file r.kind.mode

/-- The redirections of a descriptor. -/
def onFd (fd : ℕ) (redirs : List (Redir (List UInt8))) : List (Redir (List UInt8)) :=
  redirs.filter (·.kind.fd = fd)

end Redir

namespace Deriv

variable {W : Type}

/-- The redirections of a simple command or a block, as they are written. -/
def redirs : Deriv W .exec → List (Redir W)
  | .block _ redirs => redirs
  | .simple redirs args _ => redirs ++ args.flatMap Arg.redirs

/-- What is redirected: the command itself, or the commands in the block. -/
def body : Deriv W .exec → Cmd W
  | .block l _ => l.cmd
  | .simple _ args _ => .exec (args.map Arg.word)

end Deriv

theorem pushArg_foldl_wrap {W : Type} (redirs : List (Redir W)) (cmd : Cmd W) (arg : W) :
    (redirs.foldl Redir.wrap cmd).pushArg arg = redirs.foldl Redir.wrap (cmd.pushArg arg) := by
  induction redirs generalizing cmd with
  | nil => rfl
  | cons r redirs ih => exact ih (Redir.wrap cmd r)

theorem foldl_push {W : Type} (args : List (Arg W)) (redirs : List (Redir W)) (argv : List W) :
    args.foldl Arg.push (redirs.foldl Redir.wrap (.exec argv)) =
      (redirs ++ args.flatMap Arg.redirs).foldl Redir.wrap (.exec (argv ++ args.map Arg.word)) := by
  induction args generalizing redirs argv with
  | nil => simp
  | cons arg args ih =>
    rw [List.foldl_cons, Arg.push, pushArg_foldl_wrap, ← List.foldl_append, Cmd.pushArg, ih]
    simp

/-- The redirections are around what is redirected, the last one outermost. -/
theorem Deriv.cmd_eq {W : Type} (d : Deriv W .exec) : d.cmd = d.redirs.foldl Redir.wrap d.body := by
  cases d with
  | block l redirs => rw [Deriv.cmd, Deriv.redirs, Deriv.body]
  | simple redirs args few =>
    rw [Deriv.cmd, Deriv.redirs, Deriv.body, foldl_push args redirs [], List.nil_append]

theorem RedirKind.fd_lt (kind : RedirKind) : kind.fd < 2 := by
  cases kind with
  | input => decide
  | output => decide
  | append => decide

/-- A process after a redirection. -/
def Proc.redirected (s : Proc) (r : Redir (List UInt8)) : Proc :=
  { s with table := update s.table r.kind.fd (some r.source), opened := s.opened ++ [r.target] }

section Unwrap

variable {opens : List (List UInt8 × ℕ) → List UInt8 → ℕ → Bool}

theorem redirect_eq {r : Redir (List UInt8)} {s : Proc} (hs : s.table.Standard)
    (hopens : opens s.opened r.file r.kind.mode = true) :
    redirect opens r.file r.kind.mode r.kind.fd s = some (s.redirected r) := by
  rw [redirect, if_pos hopens, hs.reopen r.kind.fd_lt]
  rfl

/-- `runcmd` carries out the redirections of a command from the last one to the first, so that a
descriptor refers to the file of its first redirection. -/
theorem unwrap_eq {redirs : List (Redir (List UInt8))} {s : Proc} (hs : s.table.Standard)
    (hopens : ∀ r ∈ redirs, ∀ before, opens before r.file r.kind.mode = true)
    (body : Cmd (List UInt8)) :
    ∃ s', unwrap opens redirs.length (redirs.foldl Redir.wrap body) s = some (body, s') ∧
      s'.opened = s.opened ++ redirs.reverse.map Redir.target ∧
      ∀ fd, s'.table fd = ((Redir.onFd fd redirs).head?.map Redir.source).or (s.table fd) := by
  induction redirs using List.reverseRecOn generalizing s with
  | nil => exact ⟨s, rfl, by simp, fun fd ↦ rfl⟩
  | append_singleton redirs r ih =>
    have hr := redirect_eq hs (hopens r (by simp) s.opened)
    obtain ⟨s', hunwrap, hopened, htable⟩ := ih (s := s.redirected r)
      (hs.update r.kind.fd r.source) fun r' hr' ↦ hopens r' (by simp [hr'])
    refine ⟨s', ?_, ?_, fun fd ↦ ?_⟩
    · rw [List.foldl_append, List.length_append, List.foldl_cons, List.foldl_nil]
      show (redirect opens r.file r.kind.mode r.kind.fd s).bind _ = _
      rw [hr]
      exact hunwrap
    · simp [hopened, Proc.redirected]
    · rw [htable, Redir.onFd, Redir.onFd, List.filter_append]
      by_cases hfd : r.kind.fd = fd
      · simp [Proc.redirected, hfd]
      · simp [Proc.redirected, hfd, Ne.symm hfd]

/-- The call that follows the redirections is a call of the run. -/
theorem Runs.unwrap {t : Table} {line : List UInt8} {cmd cmd' : Cmd (List UInt8)} {s s' : Proc}
    (h : Runs opens t line cmd s) {n : ℕ} (hunwrap : unwrap opens n cmd s = some (cmd', s')) :
    Runs opens t line cmd' s' := by
  induction n generalizing cmd s with
  | zero =>
    obtain ⟨rfl, rfl⟩ := Prod.mk.inj (Option.some.inj hunwrap)
    exact h
  | succ n ih =>
    cases cmd with
    | redir cmd file mode fd =>
      obtain ⟨s₁, hs₁, hrest⟩ := Option.bind_eq_some_iff.1 hunwrap
      exact ih (h.call (List.mem_map.2 ⟨s₁, Option.mem_toList.2 hs₁, rfl⟩)) hrest
    | exec argv => cases hunwrap
    | list left right => cases hunwrap
    | pipe left right => cases hunwrap
    | back cmd => cases hunwrap

end Unwrap

/-! ## From Left to Right -/

theorem RedirKind.mode_injective : Injective RedirKind.mode := by
  intro kind kind'
  cases kind <;> cases kind' <;> decide

theorem Redir.target_injective : Injective Redir.target := by
  rintro ⟨kind, file⟩ ⟨kind', file'⟩ h
  obtain ⟨hfile, hmode⟩ := Prod.mk.inj h
  have hkind : kind = kind' := RedirKind.mode_injective hmode
  have hname : file = file' := hfile
  rw [hkind, hname]

/-- **Redirections take effect from right to left.**  If every `open` succeeds, `runcmd` opens the files
of the redirections of a simple command or a block in the order in which they are written, and
runs the command with descriptors 0 and 1 at the files of the last redirections for them, if and only
if the redirections read the same from right to left. -/
theorem redirections_left_to_right_iff
    (opens : List (List UInt8 × ℕ) → List UInt8 → ℕ → Bool) {t : Table} {line : List UInt8}
    {d : Deriv (List UInt8) .exec} {s : Proc} (hruns : Runs opens t line d.cmd s)
    (hopens : ∀ r ∈ d.redirs, ∀ before, opens before r.file r.kind.mode = true) :
    ∃ s', unwrap opens d.redirs.length d.cmd s = some (d.body, s') ∧ Runs opens t line d.body s' ∧
      ((s'.opened = s.opened ++ d.redirs.map Redir.target ∧
        ∀ fd < 2, s'.table fd =
          ((Redir.onFd fd d.redirs).getLast?.map Redir.source).or (s.table fd)) ↔
        d.redirs.reverse = d.redirs) := by
  obtain ⟨s', hunwrap, hopened, htable⟩ := unwrap_eq hruns.standard hopens d.body
  rw [← d.cmd_eq] at hunwrap
  refine ⟨s', hunwrap, hruns.unwrap hunwrap, ?_⟩
  rw [hopened, List.append_cancel_left_eq, (List.map_injective_iff.2 Redir.target_injective).eq_iff]
  refine ⟨fun h ↦ h.1, fun hsame ↦ ⟨hsame, fun fd _ ↦ ?_⟩⟩
  rw [htable, ← List.head?_reverse, Redir.onFd, ← List.filter_reverse, hsame]

/-- `a` with its input from some files, one after the other. -/
def readFrom (files : List (List UInt8)) : Deriv (List UInt8) .exec :=
  .simple [] [⟨[ch 'a'], files.map fun file ↦ ⟨.input, file⟩⟩] (Nat.lt_of_sub_eq_succ rfl)

/-- The shell, started without open files, has read a line. -/
def started : Proc := ⟨Table.openConsole NOFILE fun _ ↦ none, [], 0⟩

/-- In `a<x`, descriptor 0 is `x`. -/
theorem redirections_left_to_right_iff_one :
    ∃ s', unwrap (fun _ _ _ ↦ true) 1 (readFrom [[ch 'x']]).cmd started =
        some (.exec [[ch 'a']], s') ∧ s'.opened = [([ch 'x'], O_RDONLY)] ∧
      s'.table 0 = some (.file [ch 'x'] O_RDONLY) := by
  have hruns : Runs (fun _ _ _ ↦ true) (fun _ ↦ none) [ch 'a', ch '<', ch 'x']
      (readFrom [[ch 'x']]).cmd started := .main rfl
  obtain ⟨s', hunwrap, -, hiff⟩ := redirections_left_to_right_iff _ hruns fun _ _ _ ↦ rfl
  obtain ⟨hopened, htable⟩ := hiff.2 rfl
  exact ⟨s', hunwrap, hopened, htable 0 (by decide)⟩

/-- In `a<x<y`, `y` is opened first and `a` reads from `x`. -/
theorem first_redirection_lasts :
    command [ch 'a', ch '<', ch 'x', ch '<', ch 'y'] = .ok (readFrom [[ch 'x'], [ch 'y']]).cmd ∧
      (unwrap (fun _ _ _ ↦ true) 2 (readFrom [[ch 'x'], [ch 'y']]).cmd started).map
          (fun r ↦ (r.1, r.2.opened, r.2.table 0)) =
        some (.exec [[ch 'a']], [([ch 'y'], O_RDONLY), ([ch 'x'], O_RDONLY)],
          some (.file [ch 'x'] O_RDONLY)) := by
  exact ⟨rfl, rfl⟩

end Xv6.Shell
