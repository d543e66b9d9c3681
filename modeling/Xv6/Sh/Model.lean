import Mathlib.Data.List.Basic
import Xv6.Lib.Wp

/-!
# The parser of the shell

`sh.c`: `parsecmd` and the functions below it. The line is a list of bytes, none of them zero, in a
buffer in which a zero byte follows; a `char *` into it is an index, and the parser passes one
such index along. Commands hold the indices at which their words begin and end, and `nulterminate`
writes a zero byte at each end. `malloc` succeeds.

The functions recurse without a bound of their own. The model gives them a number of rounds, and
running out of it is told apart from a panic.
-/

namespace Xv6.Sh

open Lib

/-- `whitespace` and `symbols`. -/
def whitespace : List UInt8 := [32, 9, 13, 10, 11]
def symbols : List UInt8 := [60, 124, 62, 38, 59, 40, 41]

/-- `MAXARGS`. -/
def MAXARGS : ℕ := 10

/-- Open modes. -/
def O_RDONLY : ℕ := 0
def O_WRONLY : ℕ := 0x001
def O_CREATE : ℕ := 0x200

/-- The panics of the parser. -/
inductive Panic
  | syntaxError
  | parseblock
  | missingParen
  | tooManyArgs
  | missingFile
  deriving DecidableEq

/-- Why the parser stops: a panic, or no rounds are left. -/
inductive Stop
  | panic (p : Panic)
  | rounds
  deriving DecidableEq

/-- Programs that move along the line. -/
abbrev Parser := Prog Stop ℕ

/-- A parsed command; words are given by the indices of their first byte and of the byte after the
last. -/
inductive Cmd
  | exec (argv : List (ℕ × ℕ))
  | redir (cmd : Cmd) (file efile mode fd : ℕ)
  | pipe (left right : Cmd)
  | list (left right : Cmd)
  | back (cmd : Cmd)
  deriving DecidableEq

/-- Store the next argument of the `execcmd` under some redirections. -/
def Cmd.addArg : Cmd → ℕ × ℕ → Cmd
  | .exec argv, a => .exec (argv ++ [a])
  | .redir cmd file efile mode fd, a => .redir (cmd.addArg a) file efile mode fd
  | cmd, _ => cmd

section Scanner

variable (l : List UInt8)

/-- `*s`. -/
def ch (s : ℕ) : UInt8 := l.getD s 0

/-- `while(s < es && f(*s)) s++;` -/
def skip (f : UInt8 → Bool) (s : ℕ) : ℕ := s + ((l.drop s).takeWhile f).length

/-- The byte is in `whitespace`. -/
def isSpace (c : UInt8) : Bool := c ∈ whitespace

/-- The byte belongs to a word. -/
def isWord (c : UInt8) : Bool := !isSpace c && !decide (c ∈ symbols)

/-- The `switch` of `gettoken`: what it returns, and the index after the token. -/
def scan (s : ℕ) : UInt8 × ℕ :=
  if ch l s = 0 then (0, s)
  else if ch l s ∈ [124, 40, 41, 59, 38, 60] then (ch l s, s + 1)
  else if ch l s = 62 then if ch l (s + 1) = 62 then (43, s + 2) else (62, s + 1)
  else (97, skip l isWord s)

/-- The next token, with the indices of its first byte and of the byte after the last. -/
def gettoken : Parser (UInt8 × ℕ × ℕ) := do
  let q := skip l isSpace (← get)
  let (ret, eq) := scan l q
  set (skip l isSpace eq)
  return (ret, q, eq)

/-- Whether the next token begins with one of these bytes. -/
def peek (toks : List UInt8) : Parser Bool := do
  let s := skip l isSpace (← get)
  set s
  return ch l s ≠ 0 ∧ ch l s ∈ toks

/-- `panic`. -/
def panic {α : Type} (p : Panic) : Parser α := throw (.panic p)

/-- Redirections of a command. -/
def parseredirs : ℕ → Cmd → Parser Cmd
  | 0, _ => throw .rounds
  | n + 1, cmd => do
    if ← peek l [60, 62] then do
      let (tok, _, _) ← gettoken l
      let (tok', q, eq) ← gettoken l
      if tok' ≠ 97 then panic .missingFile
      else if tok = 60 then parseredirs n (.redir cmd q eq O_RDONLY 0)
      else if tok = 62 then parseredirs n (.redir cmd q eq (O_WRONLY ||| O_CREATE) 1)
      else if tok = 43 then parseredirs n (.redir cmd q eq (O_WRONLY ||| O_CREATE) 1)
      else parseredirs n cmd
    else return cmd

/-- The loop of `parseexec` over the arguments. -/
def parseargs : ℕ → Cmd → ℕ → Parser Cmd
  | 0, _, _ => throw .rounds
  | n + 1, ret, argc => do
    if ← peek l [124, 41, 38, 59] then return ret
    else do
      let (tok, q, eq) ← gettoken l
      if tok = 0 then return ret
      else if tok ≠ 97 then panic .syntaxError
      else if argc + 1 ≥ MAXARGS then panic .tooManyArgs
      else do
        let ret ← parseredirs l n (ret.addArg (q, eq))
        parseargs n ret (argc + 1)

/-- The loop of `parseline` over `&`. -/
def parseback : ℕ → Cmd → Parser Cmd
  | 0, _ => throw .rounds
  | n + 1, cmd => do
    if ← peek l [38] then do
      let _ ← gettoken l
      parseback n (.back cmd)
    else return cmd

mutual

/-- A list of pipelines. -/
def parseline : ℕ → Parser Cmd
  | 0 => throw .rounds
  | n + 1 => do
    let cmd ← parsepipe n
    let cmd ← parseback l n cmd
    if ← peek l [59] then do
      let _ ← gettoken l
      let right ← parseline n
      return .list cmd right
    else return cmd

/-- A pipeline. -/
def parsepipe : ℕ → Parser Cmd
  | 0 => throw .rounds
  | n + 1 => do
    let cmd ← parseexec n
    if ← peek l [124] then do
      let _ ← gettoken l
      let right ← parsepipe n
      return .pipe cmd right
    else return cmd

/-- A simple command, or a block. -/
def parseexec : ℕ → Parser Cmd
  | 0 => throw .rounds
  | n + 1 => do
    if ← peek l [40] then parseblock n
    else do
      let ret ← parseredirs l n (.exec [])
      parseargs l n ret 0

/-- A list in parentheses. -/
def parseblock : ℕ → Parser Cmd
  | 0 => throw .rounds
  | n + 1 => do
    if ← peek l [40] then do
      let _ ← gettoken l
      let cmd ← parseline n
      if ← peek l [41] then do
        let _ ← gettoken l
        parseredirs l n cmd
      else panic .missingParen
    else panic .parseblock

end

/-- The part of `parsecmd` before `nulterminate`. -/
def parse (n : ℕ) : Parser Cmd := do
  let cmd ← parseline l n
  let _ ← peek l []
  if (← get) ≠ l.length then panic .syntaxError else return cmd

end Scanner

/-! ### The ends of the words -/

/-- Write a zero byte. -/
def putNul (mem : List UInt8) (i : ℕ) : List UInt8 := mem.set i 0

/-- Write a zero byte at the end of each word. -/
def nulterminate : Cmd → List UInt8 → List UInt8
  | .exec argv, mem => argv.foldl (fun mem a => putNul mem a.2) mem
  | .redir cmd _ efile _ _, mem => putNul (nulterminate cmd mem) efile
  | .pipe left right, mem => nulterminate right (nulterminate left mem)
  | .list left right, mem => nulterminate right (nulterminate left mem)
  | .back cmd, mem => nulterminate cmd mem

/-- Parse a line: the command, and the buffer with the words ended. -/
def parsecmd (n : ℕ) (l : List UInt8) : Except Stop (Cmd × List UInt8) :=
  match parse l n 0 with
  | .ok (cmd, _) => .ok (cmd, nulterminate cmd (l ++ [0]))
  | .error e => .error e

/-- A command with the text of its words. -/
inductive Tree
  | exec (argv : List (List UInt8))
  | redir (cmd : Tree) (file : List UInt8) (mode fd : ℕ)
  | pipe (left right : Tree)
  | list (left right : Tree)
  | back (cmd : Tree)
  deriving DecidableEq

/-- The C string at an index. -/
def cstring (mem : List UInt8) (s : ℕ) : List UInt8 := (mem.drop s).takeWhile (· ≠ 0)

/-- The command as its strings read in the buffer. -/
def Cmd.read (mem : List UInt8) : Cmd → Tree
  | .exec argv => .exec (argv.map fun a => cstring mem a.1)
  | .redir cmd file _ mode fd => .redir (cmd.read mem) (cstring mem file) mode fd
  | .pipe left right => .pipe (left.read mem) (right.read mem)
  | .list left right => .list (left.read mem) (right.read mem)
  | .back cmd => .back (cmd.read mem)

end Xv6.Sh
