import Mathlib.Data.List.GetD
import Mathlib.Tactic.Common

/-!
# The shell

`readline` of `lib/readline.c`, and `runcmd` with its lexer of `user/sh.c`. The line is a piece of
memory that ends with a zero; a pointer into it is a position. The lexer works in it: it
overwrites white space and symbols with zeros, one token ahead of the token it delivers.

A command is run up to the call of `execv`, or to where it exits or panics (`Outcome`). Of the file
system the model takes whether the `open` of each redirection succeeds. A store outside of `argv` or
of `argv0buf` ends the model's run (`Outcome.fault`).
-/

namespace Determinator.Sh

/-! ## `readline` -/

/-- `BUFLEN`. -/
def buflen : ℕ := 1024

/-- `readline`, with the characters `getchar` gives before the end of the file: nothing for `NULL`.
`buf` is what has been stored. -/
def readline (buf : List Char) : List Char → Option (List Char)
  | [] => none
  | c :: input =>
    if (c = '\x08' ∨ c = '\x7f') ∧ 0 < buf.length then readline buf.dropLast input
    else if ' ' ≤ c ∧ buf.length < buflen - 1 then readline (buf ++ [c]) input
    else if c = '\n' ∨ c = '\r' then some buf
    else readline buf input

/-! ## The lexer -/

/-- `WHITESPACE`. -/
def whitespace : List Char := " \t\r\n".toList

/-- `SYMBOLS`. -/
def symbols : List Char := "<|>&;()".toList

/-- The memory of a line. -/
abbrev Mem := List Char

/-- The character at a position. -/
def Mem.at (m : Mem) (s : ℕ) : Char := m.getD s '\x00'

theorem Mem.lt_length {m : Mem} {s : ℕ} (h : m.at s ≠ '\x00') : s < m.length := by
  rcases Nat.lt_or_ge s m.length with hlt | hge
  · exact hlt
  · exact absurd (List.getD_eq_default _ _ hge) h

/-- The string at a position. -/
def Mem.str (m : Mem) (s : ℕ) : List Char := (m.drop s).takeWhile (· ≠ '\x00')

/-- The loop over white space. -/
def skip (m : Mem) (s : ℕ) : Mem × ℕ :=
  if _h : m.at s ≠ '\x00' ∧ m.at s ∈ whitespace then skip (m.set s '\x00') (s + 1) else (m, s)
termination_by m.length - s
decreasing_by
  have := Mem.lt_length _h.1
  rw [List.length_set]
  omega

/-- The loop over a word. -/
def scan (m : Mem) (s : ℕ) : ℕ :=
  if _h : m.at s ≠ '\x00' ∧ m.at s ∉ whitespace ++ symbols then scan m (s + 1) else s
termination_by m.length - s
decreasing_by
  have := Mem.lt_length _h.1
  omega

/-- What `_gettoken` gives: the token ID, the beginning and the end of the token, and the line. -/
structure Lexed where
  t : Char
  p1 : Option ℕ
  p2 : Option ℕ
  mem : Mem

/-- `_gettoken`, where `p1` and `p2` are what `*p1` and `*p2` hold. -/
def _gettoken (m : Mem) (s p1 p2 : Option ℕ) : Lexed :=
  match s with
  | none => ⟨'\x00', p1, p2, m⟩
  | some s =>
    let (m, s) := skip m s
    if m.at s = '\x00' then ⟨'\x00', none, none, m⟩
    else if m.at s ∈ symbols then ⟨m.at s, some s, some (s + 1), m.set s '\x00'⟩
    else ⟨'w', some s, some (scan m s), m⟩

/-- `gettoken` on a new line: its static variables are the token after the next one. -/
def gettokenStart (line : List Char) : Lexed := _gettoken (line ++ ['\x00']) (some 0) none none

/-- `gettoken` on the line it knows: the token, its beginning, and the static variables. -/
def gettoken (n : Lexed) : Char × Option ℕ × Lexed :=
  (n.t, n.p1, _gettoken n.mem n.p2 n.p1 n.p2)

/-! ## `runcmd` -/

/-- `MAXARGS`. -/
def maxargs : ℕ := 256

/-- `BUFSIZ`. -/
def bufsiz : ℕ := 1024

/-- A redirection: of the input, or with `write` of the output, from or to a file. -/
structure Redirect where
  write : Bool
  name : List Char
  deriving DecidableEq

/-- How a command ends. -/
inductive Outcome
  /-- `exit`. -/
  | exit (success : Bool)
  | panic
  /-- A store that is out of bounds. -/
  | fault
  /-- `execv`, after the redirections. -/
  | execv (reds : List Redirect) (argv : List (List Char))
  deriving DecidableEq

/-- What follows the label `runit`. -/
def runit (m : Mem) (reds : List Redirect) (argv : List (Option ℕ)) : Outcome :=
  -- a pointer to the argument's string, or `NULL`
  let str (p : Option ℕ) := (p.map m.str).getD []
  match argv with
  | [] => .exit true
  | p :: ps =>
    let argc := ps.length + 1
    let argv0 := if (str p).head? = some '/' then some (str p)
      -- `strcpy(argv0buf + 1, argv[0])`, with its zero
      else if (str p).length + 2 ≤ bufsiz then some ('/' :: str p) else none
    match argv0 with
    | none => .fault
    | some argv0 =>
      -- `argv[argc] = 0`
      if argc < maxargs then .execv reds (argv0 :: ps.map str) else .fault

variable (opens : List Redirect → Bool)

/-- The loop over the tokens, for some number of turns. Whether an `open` succeeds depends on those
before it. -/
def loop : ℕ → Lexed → List Redirect → List (Option ℕ) → Option Outcome
  | 0, _, _, _ => none
  | turns + 1, n, reds, argv =>
    let (c, t, n) := gettoken n
    if c = 'w' then
      if argv.length = maxargs then some (.exit false)
      -- `argv[argc++] = t`
      else if argv.length < maxargs then loop turns n reds (argv ++ [t]) else some .fault
    else if c = '<' ∨ c = '>' then
      let (c', t, n) := gettoken n
      if c' ≠ 'w' then some (.exit false)
      else
        let reds := reds ++ [⟨c = '>', (t.map n.mem.str).getD []⟩]
        if opens reds then loop turns n reds argv else some (.exit false)
    else if c = '\x00' then some (runit n.mem reds argv)
    else some .panic

/-- `runcmd`, for some number of turns of its loop. -/
def runcmd (turns : ℕ) (line : List Char) : Option Outcome :=
  loop opens turns (gettokenStart line) [] []

end Determinator.Sh
