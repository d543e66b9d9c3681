import Mathlib.Logic.Function.Iterate
import Xv6.Sh.Model

/-!
# The grammar of the shell

The tokens of a line, and the derivations of

    line  ::= pipe '&'* [';' line]
    pipe  ::= exec ['|' pipe]
    exec  ::= '(' line ')' redir* | redir* (word redir*)*
    redir ::= ('<' | '>' | '>>') word

with at most `MAXARGS - 1` words in a simple command. A derivation has the tokens that it derives,
and the command that it stands for.
-/

namespace Xv6.Sh

/-- The tokens of the shell. -/
inductive Token
  | word (text : List UInt8)
  | bar
  | amp
  | semi
  | lparen
  | rparen
  | lt
  | gt
  | gtgt
  deriving DecidableEq

/-- The symbol that a byte stands for. -/
def Token.ofSymbol (c : UInt8) : Token :=
  if c = 124 then .bar
  else if c = 38 then .amp
  else if c = 59 then .semi
  else if c = 40 then .lparen
  else if c = 41 then .rparen
  else if c = 60 then .lt
  else .gt

/-- The tokens of a line: symbols, `>>`, and maximal runs of other bytes than symbols and
whitespace. -/
def tokens (l : List UInt8) : List Token :=
  match _h : l.dropWhile isSpace with
  | [] => []
  | c :: rest =>
    if c = 62 ∧ rest.head? = some 62 then .gtgt :: tokens rest.tail
    else if c ∈ symbols then .ofSymbol c :: tokens rest
    else .word (c :: rest.takeWhile isWord) :: tokens (rest.dropWhile isWord)
termination_by l.length
decreasing_by
  all_goals
    have hlen := congrArg List.length _h
    have hle := (List.dropWhile_sublist isSpace (l := l)).length_le
    have hle' := (List.dropWhile_sublist isWord (l := rest)).length_le
    simp only [List.length_cons, List.length_tail] at *
    omega

/-- The operator of a redirection. -/
inductive Op
  | lt
  | gt
  | gtgt
  deriving DecidableEq

/-- `redir`. -/
structure Redir where
  op : Op
  file : List UInt8

mutual

/-- `line`, with the number of `&`. -/
inductive Line
  | one (p : Pipe) (amps : ℕ)
  | seq (p : Pipe) (amps : ℕ) (rest : Line)

/-- `pipe`. -/
inductive Pipe
  | one (e : Exec)
  | pipe (e : Exec) (rest : Pipe)

/-- `exec`. -/
inductive Exec
  | block (line : Line) (redirs : List Redir)
  | simple (redirs : List Redir) (args : List (List UInt8 × List Redir))

end

def Op.token : Op → Token
  | .lt => .lt
  | .gt => .gt
  | .gtgt => .gtgt

/-- The tokens of redirections. -/
def redirTokens (rs : List Redir) : List Token := rs.flatMap fun r => [r.op.token, .word r.file]

@[simp] theorem redirTokens_cons (r : Redir) (rs : List Redir) :
    redirTokens (r :: rs) = r.op.token :: .word r.file :: redirTokens rs := rfl

/-- The tokens of arguments, each with redirections. -/
def argTokens (args : List (List UInt8 × List Redir)) : List Token :=
  args.flatMap fun a => .word a.1 :: redirTokens a.2

@[simp] theorem argTokens_cons (a : List UInt8 × List Redir)
    (args : List (List UInt8 × List Redir)) :
    argTokens (a :: args) = .word a.1 :: redirTokens a.2 ++ argTokens args := rfl

mutual

/-- The tokens that a derivation derives. -/
def Line.tokens : Line → List Token
  | .one p amps => p.tokens ++ List.replicate amps .amp
  | .seq p amps rest => p.tokens ++ List.replicate amps .amp ++ .semi :: rest.tokens

def Pipe.tokens : Pipe → List Token
  | .one e => e.tokens
  | .pipe e rest => e.tokens ++ .bar :: rest.tokens

def Exec.tokens : Exec → List Token
  | .block line redirs => .lparen :: line.tokens ++ .rparen :: redirTokens redirs
  | .simple redirs args => redirTokens redirs ++ argTokens args

end

mutual

/-- No simple command has too many words. -/
def Line.Fits : Line → Prop
  | .one p _ => p.Fits
  | .seq p _ rest => p.Fits ∧ rest.Fits

def Pipe.Fits : Pipe → Prop
  | .one e => e.Fits
  | .pipe e rest => e.Fits ∧ rest.Fits

def Exec.Fits : Exec → Prop
  | .block line _ => line.Fits
  | .simple _ args => args.length ≤ MAXARGS - 1

end

/-- The mode and the descriptor of a redirection. -/
def Op.mode : Op → ℕ
  | .lt => O_RDONLY
  | .gt | .gtgt => O_WRONLY ||| O_CREATE

def Op.fd : Op → ℕ
  | .lt => 0
  | .gt | .gtgt => 1

/-- A command under redirections, the first one innermost. -/
def Tree.redirs (t : Tree) (rs : List Redir) : Tree :=
  rs.foldl (fun t r => .redir t r.file r.op.mode r.op.fd) t

mutual

/-- The command that a derivation stands for. -/
def Line.tree : Line → Tree
  | .one p amps => Tree.back^[amps] p.tree
  | .seq p amps rest => .list (Tree.back^[amps] p.tree) rest.tree

def Pipe.tree : Pipe → Tree
  | .one e => e.tree
  | .pipe e rest => .pipe e.tree rest.tree

def Exec.tree : Exec → Tree
  | .block line redirs => line.tree.redirs redirs
  | .simple redirs args =>
    (Tree.exec (args.map Prod.fst)).redirs (redirs ++ args.flatMap Prod.snd)

end

end Xv6.Sh
