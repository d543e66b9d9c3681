import Mathlib.Data.List.Basic

/-!
# grep

`grep.c`: the matcher of Kernighan and Pike, and the loop that reads lines into a buffer. A C string
is the list of its bytes up to the NUL. What `read` returns is up to the caller of `grep`: the
`i`-th call returns at most `short i + 1` of the bytes that are left. -/

namespace Xv6.Grep

/-- The characters with a meaning in a pattern, and the end of a line. -/
def caret : UInt8 := 94
def dollar : UInt8 := 36
def dot : UInt8 := 46
def star : UInt8 := 42
def newline : UInt8 := 10

/-! ### The matcher -/

/-- The loop of `matchstar`; `here` is what `matchhere` answers for the rest of the pattern. -/
def matchstar (c : UInt8) (here : List UInt8 → Bool) : List UInt8 → Bool
  | [] => here []
  | x :: text => here (x :: text) || (x = c || c = dot) && matchstar c here text

/-- Search for a pattern at the beginning of the text. -/
def matchhere : List UInt8 → List UInt8 → Bool
  | [], _ => true
  | [c], text =>
    if c = dollar then text = []
    else match text with
      | [] => false
      | x :: text => (c = dot || c = x) && matchhere [] text
  | c :: d :: re, text =>
    if d = star then matchstar c (matchhere re) text
    else match text with
      | [] => false
      | x :: text => (c = dot || c = x) && matchhere (d :: re) text

/-- The loop of `match`. -/
def matchLoop (re : List UInt8) : List UInt8 → Bool
  | [] => matchhere re []
  | x :: text => matchhere re (x :: text) || matchLoop re text

/-- Search for a pattern anywhere in the text. -/
def «match» (re text : List UInt8) : Bool :=
  if re.head? = some caret then matchhere re.tail text else matchLoop re text

/-! ### The loop over the input -/

/-- `sizeof(buf)`. -/
def BUFSIZE : ℕ := 1024

/-- The place of the first `c` in a string, which a NUL ends. -/
def strchr (s : List UInt8) (c : UInt8) : Option ℕ := (s.takeWhile (· ≠ 0)).findIdx? (· = c)

/-- The inner loop, for the bytes from `p` on: what it writes, and the bytes from the last `p` on.
There are at most as many rounds as bytes. -/
def lineLoop (re : List UInt8) : ℕ → List UInt8 → List UInt8 × List UInt8
  | 0, p => ([], p)
  | n + 1, p =>
    match strchr p newline with
    | none => ([], p)
    | some q =>
      let rest := lineLoop re n (p.drop (q + 1))
      (if «match» re (p.take q) then p.take (q + 1) ++ rest.1 else rest.1, rest.2)

/-- The outer loop, before the `i`-th call of `read`, with the bytes `buf` in the buffer: what the
calls of `read` return, and what is written. -/
def grepLoop (re : List UInt8) (short : ℕ → ℕ) :
    ℕ → ℕ → List UInt8 → List UInt8 → Option (List (List UInt8) × List UInt8)
  | 0, _, _, _ => none
  | fuel + 1, i, buf, input =>
    let n := min (short i + 1) (BUFSIZE - buf.length - 1)
    let bytes := input.take n
    if bytes = [] then some ([], [])
    else
      let buf := buf ++ bytes
      let lines := lineLoop re buf.length buf
      -- without a newline `p` is still `buf`, and `m` becomes 0
      let left := if lines.2.length = buf.length then [] else lines.2
      (grepLoop re short fuel (i + 1) left (input.drop n)).map fun r =>
        (bytes :: r.1, lines.1 ++ r.2)

/-- The results of `read` and the output of `grep`. Each call of `read` but the last one returns at
least one byte. -/
def grep (re : List UInt8) (short : ℕ → ℕ) (input : List UInt8) :
    Option (List (List UInt8) × List UInt8) :=
  grepLoop re short (input.length + 1) 0 [] input

end Xv6.Grep
