import Xv6.Lib.Ring
import Xv6.Lib.Transition

/-!
# Console input

`console.c`: `consoleintr`, which edits and commits lines of input, and `consoleread`, by any
number of processes. Both run under `cons.lock`, which `consoleread` gives up only when it sleeps,
so a step of the system is all that happens from one acquisition of the lock to its release. No
process is killed. What is echoed on the screen is left out.

Beside the kernel's own state the system keeps a history: the bytes committed, the bytes taken
from the buffer, each with the number of the call that took it, and the calls that returned.
-/

namespace Xv6.Console

open Lib

/-- `INPUT_BUF`. -/
def INPUT_BUF : ℕ := 128

/-- `C(x)`, the character of control and a letter. -/
def ctrl (x : Char) : UInt8 := x.toUInt8 - '@'.toUInt8

/-- `'\n'` and `'\r'`. -/
def newline : UInt8 := 10
def carriageReturn : UInt8 := 13

/-- `input`: the buffer with the indices at which to read, to write and to edit. -/
structure Input where
  buf : Fin INPUT_BUF → UInt8
  r : UInt32
  w : UInt32
  e : UInt32

namespace Input

variable (b : Input)

/-- The place in the buffer that an index points to. -/
def place (k : UInt32) : Fin INPUT_BUF := ⟨k.toNat % INPUT_BUF, Nat.mod_lt _ (by decide)⟩

theorem place_val (k : UInt32) : (place k : ℕ) = k.toNat % INPUT_BUF := rfl

/-- Go back by one character. -/
@[simps -fullyApplied]
def erase : Input := { b with e := b.e - 1 }

/-- The loop that kills a line; it makes at most `e - w` rounds. -/
def killLine : ℕ → Input → Input
  | 0, b => b
  | n + 1, b =>
    if b.e ≠ b.w ∧ b.buf (place (b.e - 1)) ≠ newline then killLine n b.erase else b

/-- Store a character. -/
@[simps -fullyApplied]
def put (c : UInt8) : Input :=
  { b with buf := Function.update b.buf (place b.e) c, e := b.e + 1 }

/-- Make all that was typed available to readers. -/
@[simps -fullyApplied]
def commit : Input := { b with w := b.e }

/-- The default case of `consoleintr`. -/
def insert (c : UInt8) : Input :=
  if c ≠ 0 ∧ b.e - b.r < INPUT_BUF.toUInt32 then
    let c := if c = carriageReturn then newline else c
    let b := b.put c
    if c = newline ∨ c = ctrl 'D' ∨ b.e = b.r + INPUT_BUF.toUInt32 then b.commit else b
  else b

/-- What `consoleintr` does with a character. -/
def intr (c : UInt8) : Input :=
  if c = ctrl 'P' then b
  else if c = ctrl 'U' then killLine (b.e - b.w).toNat b
  else if c = ctrl 'H' ∨ c = 0x7f then if b.e ≠ b.w then b.erase else b
  else b.insert c

/-- The bytes from index `k` up to the write index. -/
def since (k : UInt32) : List UInt8 :=
  (List.range (b.w - k).toNat).map fun i => b.buf (place (k + UInt32.ofNat i))

/-- `input.buf[input.r % INPUT_BUF]`. -/
def front : UInt8 := b.buf (place b.r)

/-- `input.r++` and `input.r--`. -/
@[simps -fullyApplied]
def advance : Input := { b with r := b.r + 1 }

@[simps -fullyApplied]
def retreat : Input := { b with r := b.r - 1 }

end Input

/-- A call of `consoleread`: its number, its argument `n`, and the bytes that it has delivered. -/
structure Call where
  id : ℕ
  n : ℤ
  got : List UInt8

/-- The number of bytes that were asked for, as `target` holds it. -/
def Call.target (c : Call) : ℕ := c.n.toNat

/-- The state of the console and of the processes `P` that read from it. -/
structure Sys (P : Type) where
  input : Input
  /-- The call that a process is in. -/
  call : P → Option Call
  /-- How many calls have begun. -/
  begun : ℕ
  /-- The bytes committed, oldest first. -/
  committed : List UInt8
  /-- The bytes taken from the buffer, oldest first, each with the number of its call. -/
  taken : List (ℕ × UInt8)
  /-- The calls that have returned, oldest first. -/
  returned : List Call

/-- What happens next: an interrupt with the characters that `getc` delivers, a call of
`consoleread`, or a process in such a call gets the lock. -/
inductive Action (P : Type)
  | intr (cs : List UInt8)
  | read (p : P) (n : ℤ)
  | run (p : P)

namespace Sys

variable {P : Type} (s : Sys P)

/-- `consoleintr` for one character. -/
@[simps -fullyApplied]
def intr (c : UInt8) : Sys P :=
  { s with
    input := s.input.intr c
    committed := s.committed ++ (s.input.intr c).since s.input.w }

/-- Take a byte from the buffer. -/
@[simps -fullyApplied]
def take (c : Call) (x : UInt8) : Sys P :=
  { s with input := s.input.advance, taken := s.taken ++ [(c.id, x)] }

variable [DecidableEq P]

/-- The process sleeps in a call. -/
@[simps -fullyApplied]
def sleep (p : P) (c : Call) : Sys P := { s with call := Function.update s.call p (some c) }

/-- The process returns from a call. -/
@[simps -fullyApplied]
def ret (p : P) (c : Call) : Sys P :=
  { s with call := Function.update s.call p none, returned := s.returned ++ [c] }

/-- The loop of `consoleread` for the remaining `n` bytes, up to its end or to a `sleep`. -/
def readLoop (p : P) : ℕ → Sys P → Call → Sys P
  | 0, s, c => s.ret p c
  | n + 1, s, c =>
    if s.input.r = s.input.w then s.sleep p c
    else if s.input.front = ctrl 'D' then
      if n + 1 < c.target then { s with input := s.input.advance.retreat }.ret p c
      else (s.take c s.input.front).ret p c
    else
      let c' := { c with got := c.got ++ [s.input.front] }
      if s.input.front = newline then (s.take c s.input.front).ret p c'
      else readLoop p n (s.take c s.input.front) c'

/-- The steps of the system. -/
def next (s : Sys P) : Action P → Option (Sys P)
  | .intr cs => some (cs.foldl intr s)
  | .read p n =>
    match s.call p with
    | none => some { s.sleep p ⟨s.begun, n, []⟩ with begun := s.begun + 1 }
    | some _ => none
  | .run p =>
    match s.call p with
    | none => none
    | some c => some (readLoop p (c.target - c.got.length) s c)

/-- One step of the system. -/
def Step (s : Sys P) (a : Action P) (t : Sys P) : Prop := s.next a = some t

omit [DecidableEq P] in
/-- The state after boot. -/
def init : Sys P := ⟨⟨fun _ => 0, 0, 0, 0⟩, fun _ => none, 0, [], [], []⟩

end Sys

end Xv6.Console
