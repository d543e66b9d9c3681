import Xv6.Lib.Ring
import Xv6.Lib.Transition

/-!
# Pipes

`pipe.c`: `pipewrite`, `piperead` and `pipeclose` on one pipe by any number of processes,
one statement at a time, with kills that may fall between any two of them. A process that
holds `p->lock` keeps the others out until it releases the lock or sleeps; `sleep` gives up
the lock and sleeps in one step, and a process that was woken takes the lock again before it
goes on.

Beside the kernel's own state the system keeps a history: the bytes stored, each with the
number of the call that stored it, the bytes delivered, the writes begun and what they
returned.
-/

namespace Xv6.Pipes

open Lib

/-- `PIPESIZE`. -/
def PIPESIZE : ℕ := 512

/-- `struct pipe`, apart from the lock. -/
structure Pipe where
  data : Fin PIPESIZE → UInt8
  nread : UInt32
  nwrite : UInt32
  readopen : Bool
  writeopen : Bool

namespace Pipe

variable (b : Pipe)

/-- `p->nread == p->nwrite`. -/
def Empty : Prop := b.nread = b.nwrite

/-- `p->nwrite == p->nread + PIPESIZE`. -/
def Full : Prop := b.nwrite = b.nread + PIPESIZE.toUInt32

instance : Decidable b.Empty := inferInstanceAs (Decidable (_ = _))

instance : Decidable b.Full := inferInstanceAs (Decidable (_ = _))

/-- The place in the buffer that a counter points to. -/
def place (k : UInt32) : Fin PIPESIZE := ⟨k.toNat % PIPESIZE, Nat.mod_lt _ (by decide)⟩

/-- `p->data[p->nwrite++ % PIPESIZE] = x`. -/
@[simps -fullyApplied]
def put (x : UInt8) : Pipe :=
  { b with data := Function.update b.data (place b.nwrite) x, nwrite := b.nwrite + 1 }

/-- The byte that `p->data[p->nread++ % PIPESIZE]` reads. -/
def front : UInt8 := b.data (place b.nread)

/-- The pipe after `p->nread++`. -/
@[simps -fullyApplied]
def advance : Pipe := { b with nread := b.nread + 1 }

end Pipe

/-- What processes sleep on: `&p->nread` or `&p->nwrite`. -/
inductive Chan
  | nread
  | nwrite
  deriving DecidableEq

/-- A call of `pipewrite`, with its number. -/
structure Write where
  id : ℕ
  addr : ℕ → UInt8
  n : ℤ

/-- The next statement of a process. -/
inductive Pc
  /-- Not in a call on this pipe. -/
  | out
  /-- `pipewrite`: the tests of the two loops, and the store. -/
  | writeLoop (w : Write) (i : ℕ)
  /-- `if(p->readopen == 0 || myproc()->killed)`, and the return of -1. -/
  | writeFull (w : Write) (i : ℕ)
  /-- `wakeup(&p->nread)`. -/
  | writeWake (w : Write) (i : ℕ)
  /-- `sleep(&p->nwrite, &p->lock)`. -/
  | writeSleep (w : Write) (i : ℕ)
  /-- In `sleep`, without the lock. -/
  | writeAsleep (w : Write) (i : ℕ)
  /-- `wakeup(&p->nread)` after the loop. -/
  | writeDone (w : Write)
  /-- `release(&p->lock); return n`. -/
  | writeReturn (w : Write)
  /-- `piperead`: the test of the first loop. -/
  | readLoop (n : ℤ)
  /-- `if(myproc()->killed)`, and the return of -1. -/
  | readEmpty (n : ℤ)
  /-- `sleep(&p->nread, &p->lock)`. -/
  | readSleep (n : ℤ)
  /-- In `sleep`, without the lock. -/
  | readAsleep (n : ℤ)
  /-- The second loop. -/
  | readCopy (n : ℤ) (i : ℕ)
  /-- `wakeup(&p->nwrite)`. -/
  | readWake (n : ℤ) (i : ℕ)
  /-- `release(&p->lock); return i`. -/
  | readReturn (n : ℤ) (i : ℕ)
  /-- `pipeclose`: the end is marked as closed. -/
  | closeSet (writable : Bool)
  /-- The `wakeup`. -/
  | closeWake (writable : Bool)
  /-- The release, and `kfree` if both ends are closed. -/
  | closeReturn

/-- The state of the pipe and of the processes `P` that use it. -/
structure Sys (P : Type) where
  lock : Option P
  pipe : Pipe
  freed : Bool
  asleep : P → Option Chan
  killed : P → Bool
  pc : P → Pc
  /-- The bytes stored, oldest first, each with the number of its call. -/
  stored : List (ℕ × UInt8)
  /-- The bytes delivered, oldest first. -/
  delivered : List UInt8
  /-- The writes begun. -/
  begun : List Write
  /-- What each write that has returned returned. -/
  returned : List (Write × ℤ)

/-- What a process does next: a call, its next statement, or a kill. -/
inductive Action (P : Type)
  | write (addr : ℕ → UInt8) (n : ℤ)
  | read (n : ℤ)
  | close (writable : Bool)
  | go
  | kill (q : P)

namespace Sys

variable {P : Type} [DecidableEq P] (s : Sys P)

/-- Process `p` goes on at `pc`. -/
@[simps -fullyApplied]
def goto (p : P) (pc : Pc) : Sys P := { s with pc := Function.update s.pc p pc }

/-- Process `p` takes the lock and goes on at `pc`. -/
@[simps! -fullyApplied]
def lockAt (p : P) (pc : Pc) : Sys P := { s.goto p pc with lock := some p }

/-- Process `p` releases the lock and goes on at `pc`. -/
@[simps! -fullyApplied]
def unlockAt (p : P) (pc : Pc) : Sys P := { s.goto p pc with lock := none }

/-- `wakeup`. -/
@[simps -fullyApplied]
def wakeup (k : Chan) : Sys P :=
  { s with asleep := fun q => if s.asleep q = some k then none else s.asleep q }

/-- `sleep(k, &p->lock)` by process `p`, which goes on at `pc` when it is woken. -/
@[simps! -fullyApplied]
def sleep (p : P) (k : Chan) (pc : Pc) : Sys P :=
  { s.unlockAt p pc with asleep := Function.update s.asleep p (some k) }

/-- The write `w` returns `r`. -/
@[simps -fullyApplied]
def ret (w : Write) (r : ℤ) : Sys P := { s with returned := s.returned ++ [(w, r)] }

/-- A call begins with the lock. -/
def call (p : P) (a : Action P) : Option (Sys P) :=
  if s.lock.isNone ∧ s.freed = false then
    match a with
    | .write addr n =>
      let w : Write := ⟨s.begun.length, addr, n⟩
      some ({ s with begun := s.begun ++ [w] }.lockAt p (.writeLoop w 0))
    | .read n => some (s.lockAt p (.readLoop n))
    | .close writable => some (s.lockAt p (.closeSet writable))
    | _ => none
  else none

/-- A process that was woken goes on at `pc` when it gets the lock. -/
def relock (p : P) (pc : Pc) : Option (Sys P) :=
  if s.asleep p = none ∧ s.lock.isNone ∧ s.freed = false then some (s.lockAt p pc) else none

/-- The next statement of process `p`. -/
def go (p : P) : Option (Sys P) :=
  match s.pc p with
  | .out => none
  | .writeLoop w i =>
    if (i : ℤ) < w.n then
      if s.pipe.Full then some (s.goto p (.writeFull w i))
      else
        some ({ s with
          pipe := s.pipe.put (w.addr i)
          stored := s.stored ++ [(w.id, w.addr i)] }.goto p (.writeLoop w (i + 1)))
    else some (s.goto p (.writeDone w))
  | .writeFull w i =>
    if s.pipe.readopen = false ∨ s.killed p = true then some ((s.unlockAt p .out).ret w (-1))
    else some (s.goto p (.writeWake w i))
  | .writeWake w i => some ((s.wakeup .nread).goto p (.writeSleep w i))
  | .writeSleep w i => some (s.sleep p .nwrite (.writeAsleep w i))
  | .writeAsleep w i => s.relock p (.writeLoop w i)
  | .writeDone w => some ((s.wakeup .nread).goto p (.writeReturn w))
  | .writeReturn w => some ((s.unlockAt p .out).ret w w.n)
  | .readLoop n =>
    if s.pipe.Empty ∧ s.pipe.writeopen = true then some (s.goto p (.readEmpty n))
    else some (s.goto p (.readCopy n 0))
  | .readEmpty n =>
    if s.killed p = true then some (s.unlockAt p .out) else some (s.goto p (.readSleep n))
  | .readSleep n => some (s.sleep p .nread (.readAsleep n))
  | .readAsleep n => s.relock p (.readLoop n)
  | .readCopy n i =>
    if (i : ℤ) < n ∧ ¬ s.pipe.Empty then
      some ({ s with
        pipe := s.pipe.advance
        delivered := s.delivered ++ [s.pipe.front] }.goto p (.readCopy n (i + 1)))
    else some (s.goto p (.readWake n i))
  | .readWake n i => some ((s.wakeup .nwrite).goto p (.readReturn n i))
  | .readReturn _ _ => some (s.unlockAt p .out)
  | .closeSet true =>
    some ({ s with pipe := { s.pipe with writeopen := false } }.goto p (.closeWake true))
  | .closeSet false =>
    some ({ s with pipe := { s.pipe with readopen := false } }.goto p (.closeWake false))
  | .closeWake true => some ((s.wakeup .nread).goto p .closeReturn)
  | .closeWake false => some ((s.wakeup .nwrite).goto p .closeReturn)
  | .closeReturn =>
    if s.pipe.readopen = false ∧ s.pipe.writeopen = false then
      some { s.unlockAt p .out with freed := true }
    else some (s.unlockAt p .out)

/-- The steps of the system: process `p` does `a`. -/
def next (l : P × Action P) : Option (Sys P) :=
  let p := l.1
  match l.2, s.pc p with
  | .kill q, _ =>
    some { s with
      killed := Function.update s.killed q true
      asleep := Function.update s.asleep q none }
  | .go, _ => s.go p
  | a, .out => s.call p a
  | _, _ => none

/-- One step of the system. -/
def Step (s : Sys P) (l : P × Action P) (t : Sys P) : Prop := s.next l = some t

omit [DecidableEq P] in
/-- The pipe as `pipealloc` makes it; the contents of the buffer are whatever was there. -/
def init (data : Fin PIPESIZE → UInt8) : Sys P where
  lock := none
  pipe := ⟨data, 0, 0, true, true⟩
  freed := false
  asleep _ := none
  killed _ := false
  pc _ := .out
  stored := []
  delivered := []
  begun := []
  returned := []

/-! ### What a step does -/

/-- The ways in which process `p` can make a step. -/
inductive Trans (s : Sys P) (p : P) : Action P → Sys P → Prop
  | kill (q : P) :
      Trans s p (.kill q) { s with
        killed := Function.update s.killed q true
        asleep := Function.update s.asleep q none }
  | write (addr : ℕ → UInt8) (n : ℤ) (hpc : s.pc p = .out) (hl : s.lock = none) :
      Trans s p (.write addr n) (lockAt { s with
        begun := s.begun ++ [⟨s.begun.length, addr, n⟩] } p
          (.writeLoop ⟨s.begun.length, addr, n⟩ 0))
  | read (n : ℤ) (hpc : s.pc p = .out) (hl : s.lock = none) :
      Trans s p (.read n) (s.lockAt p (.readLoop n))
  | close (writable : Bool) (hpc : s.pc p = .out) (hl : s.lock = none) :
      Trans s p (.close writable) (s.lockAt p (.closeSet writable))
  | full {w : Write} {i : ℕ} (hpc : s.pc p = .writeLoop w i) (hi : (i : ℤ) < w.n)
      (hfull : s.pipe.Full) : Trans s p .go (s.goto p (.writeFull w i))
  | store {w : Write} {i : ℕ} (hpc : s.pc p = .writeLoop w i) (hi : (i : ℤ) < w.n)
      (hfull : ¬ s.pipe.Full) :
      Trans s p .go ({ s with
        pipe := s.pipe.put (w.addr i)
        stored := s.stored ++ [(w.id, w.addr i)] }.goto p (.writeLoop w (i + 1)))
  | finish {w : Write} {i : ℕ} (hpc : s.pc p = .writeLoop w i) (hi : ¬ (i : ℤ) < w.n) :
      Trans s p .go (s.goto p (.writeDone w))
  | giveUp {w : Write} {i : ℕ} (hpc : s.pc p = .writeFull w i)
      (hc : s.pipe.readopen = false ∨ s.killed p = true) :
      Trans s p .go ((s.unlockAt p .out).ret w (-1))
  | stay {w : Write} {i : ℕ} (hpc : s.pc p = .writeFull w i) (hc : s.pipe.readopen = true) :
      Trans s p .go (s.goto p (.writeWake w i))
  | writeWake {w : Write} {i : ℕ} (hpc : s.pc p = .writeWake w i) :
      Trans s p .go ((s.wakeup .nread).goto p (.writeSleep w i))
  | writeSleep {w : Write} {i : ℕ} (hpc : s.pc p = .writeSleep w i) :
      Trans s p .go (s.sleep p .nwrite (.writeAsleep w i))
  | writeRelock {w : Write} {i : ℕ} (hpc : s.pc p = .writeAsleep w i) (hl : s.lock = none) :
      Trans s p .go (s.lockAt p (.writeLoop w i))
  | writeDone {w : Write} (hpc : s.pc p = .writeDone w) :
      Trans s p .go ((s.wakeup .nread).goto p (.writeReturn w))
  | writeReturn {w : Write} (hpc : s.pc p = .writeReturn w) :
      Trans s p .go ((s.unlockAt p .out).ret w w.n)
  | empty {n : ℤ} (hpc : s.pc p = .readLoop n) (hc : s.pipe.Empty ∧ s.pipe.writeopen = true) :
      Trans s p .go (s.goto p (.readEmpty n))
  | copy {n : ℤ} (hpc : s.pc p = .readLoop n) (hc : ¬ (s.pipe.Empty ∧ s.pipe.writeopen = true)) :
      Trans s p .go (s.goto p (.readCopy n 0))
  | readKilled {n : ℤ} (hpc : s.pc p = .readEmpty n) : Trans s p .go (s.unlockAt p .out)
  | readStay {n : ℤ} (hpc : s.pc p = .readEmpty n) : Trans s p .go (s.goto p (.readSleep n))
  | readSleep {n : ℤ} (hpc : s.pc p = .readSleep n) :
      Trans s p .go (s.sleep p .nread (.readAsleep n))
  | readRelock {n : ℤ} (hpc : s.pc p = .readAsleep n) (hl : s.lock = none) :
      Trans s p .go (s.lockAt p (.readLoop n))
  | deliver {n : ℤ} {i : ℕ} (hpc : s.pc p = .readCopy n i) (hc : ¬ s.pipe.Empty) :
      Trans s p .go ({ s with
        pipe := s.pipe.advance
        delivered := s.delivered ++ [s.pipe.front] }.goto p (.readCopy n (i + 1)))
  | copied {n : ℤ} {i : ℕ} (hpc : s.pc p = .readCopy n i) (hc : (i : ℤ) < n → s.pipe.Empty) :
      Trans s p .go (s.goto p (.readWake n i))
  | readWake {n : ℤ} {i : ℕ} (hpc : s.pc p = .readWake n i) :
      Trans s p .go ((s.wakeup .nwrite).goto p (.readReturn n i))
  | readReturn {n : ℤ} {i : ℕ} (hpc : s.pc p = .readReturn n i) : Trans s p .go (s.unlockAt p .out)
  | closeWrite (hpc : s.pc p = .closeSet true) :
      Trans s p .go ({ s with pipe := { s.pipe with writeopen := false } }.goto p (.closeWake true))
  | closeRead (hpc : s.pc p = .closeSet false) :
      Trans s p .go ({ s with pipe := { s.pipe with readopen := false } }.goto p (.closeWake false))
  | wakeReaders (hpc : s.pc p = .closeWake true) :
      Trans s p .go ((s.wakeup .nread).goto p .closeReturn)
  | wakeWriters (hpc : s.pc p = .closeWake false) :
      Trans s p .go ((s.wakeup .nwrite).goto p .closeReturn)
  | free (hpc : s.pc p = .closeReturn) : Trans s p .go { s.unlockAt p .out with freed := true }
  | closed (hpc : s.pc p = .closeReturn) : Trans s p .go (s.unlockAt p .out)

theorem trans_of_go {s t : Sys P} {p : P} (h : s.go p = some t) : Trans s p .go t := by
  unfold go at h
  split at h
  case h_1 => cases h
  case h_2 w i hpc =>
    split_ifs at h with hi hfull
    · exact Option.some.inj h ▸ .full hpc hi hfull
    · exact Option.some.inj h ▸ .store hpc hi hfull
    · exact Option.some.inj h ▸ .finish hpc hi
  case h_3 w i hpc =>
    split_ifs at h with hc
    · exact Option.some.inj h ▸ .giveUp hpc hc
    · exact Option.some.inj h ▸ .stay hpc (by simpa using fun ho => hc (.inl ho))
  case h_4 w i hpc => exact Option.some.inj h ▸ .writeWake hpc
  case h_5 w i hpc => exact Option.some.inj h ▸ .writeSleep hpc
  case h_6 w i hpc =>
    unfold relock at h
    split_ifs at h with hl
    exact Option.some.inj h ▸ .writeRelock hpc (by simpa using hl.2.1)
  case h_7 w hpc => exact Option.some.inj h ▸ .writeDone hpc
  case h_8 w hpc => exact Option.some.inj h ▸ .writeReturn hpc
  case h_9 n hpc =>
    split_ifs at h with hc
    · exact Option.some.inj h ▸ .empty hpc hc
    · exact Option.some.inj h ▸ .copy hpc hc
  case h_10 n hpc =>
    split_ifs at h with hc
    · exact Option.some.inj h ▸ .readKilled hpc
    · exact Option.some.inj h ▸ .readStay hpc
  case h_11 n hpc => exact Option.some.inj h ▸ .readSleep hpc
  case h_12 n hpc =>
    unfold relock at h
    split_ifs at h with hl
    exact Option.some.inj h ▸ .readRelock hpc (by simpa using hl.2.1)
  case h_13 n i hpc =>
    split_ifs at h with hc
    · exact Option.some.inj h ▸ .deliver hpc hc.2
    · exact Option.some.inj h ▸ .copied hpc fun hi => by_contra fun hne => hc ⟨hi, hne⟩
  case h_14 n i hpc => exact Option.some.inj h ▸ .readWake hpc
  case h_15 n i hpc => exact Option.some.inj h ▸ .readReturn hpc
  case h_16 hpc => exact Option.some.inj h ▸ .closeWrite hpc
  case h_17 hpc => exact Option.some.inj h ▸ .closeRead hpc
  case h_18 hpc => exact Option.some.inj h ▸ .wakeReaders hpc
  case h_19 hpc => exact Option.some.inj h ▸ .wakeWriters hpc
  case h_20 hpc =>
    split_ifs at h
    · exact Option.some.inj h ▸ .free hpc
    · exact Option.some.inj h ▸ .closed hpc

/-- Every step is one of these. -/
theorem trans_of_next {s t : Sys P} {p : P} {a : Action P} (h : s.next (p, a) = some t) :
    Trans s p a t := by
  unfold next at h
  dsimp only at h
  split at h
  case h_1 q => exact Option.some.inj h ▸ .kill q
  case h_2 => exact trans_of_go h
  case h_3 hpc =>
    unfold call at h
    split_ifs at h with hl
    have hfree : s.lock = none := by simpa using hl.1
    split at h
    · exact Option.some.inj h ▸ .write _ _ hpc hfree
    · exact Option.some.inj h ▸ .read _ hpc hfree
    · exact Option.some.inj h ▸ .close _ hpc hfree
    · cases h
  case h_4 => cases h

end Sys

/-! ### What the holder of the lock knows -/

namespace Pc

/-- A process at this statement holds the lock. -/
def holds : Pc → Bool
  | .out | .writeAsleep _ _ | .readAsleep _ => false
  | _ => true

/-- What a process at this statement has found out about the pipe. -/
def Fits (b : Pipe) : Pc → Prop
  | .writeFull _ _ => b.Full
  | .writeWake _ _ | .writeSleep _ _ => b.Full ∧ b.readopen = true
  | .readEmpty _ | .readSleep _ => b.Empty ∧ b.writeopen = true
  | .readCopy _ 0 => b.Empty → b.writeopen = false
  | .readWake n 0 | .readReturn n 0 => 0 < n → b.Empty ∧ b.writeopen = false
  | _ => True

theorem Fits.of_not_holds {b : Pipe} {pc : Pc} (h : pc.holds = false) : pc.Fits b := by
  cases pc <;> simp_all [holds, Fits]

end Pc

/-- One process holds the lock, and what it has found out is true. -/
structure HoldInv {P : Type} (s : Sys P) : Prop where
  lock : ∀ p, (s.pc p).holds = true → s.lock = some p
  fits : ∀ p, (s.pc p).Fits s.pipe

namespace HoldInv

variable {P : Type} [DecidableEq P] {s s' : Sys P} {p q : P} {pc : Pc}

omit [DecidableEq P] in
theorem lock_eq (h : HoldInv s) {pc : Pc} (hpc : s.pc p = pc) (hh : pc.holds = true) :
    s.lock = some p :=
  h.lock p (hpc ▸ hh)

/-- Process `p` makes a step with the lock, or takes it, or gives it up. -/
theorem move (h : HoldInv s) (hold : s.lock = none ∨ s.lock = some p)
    (hpc : s'.pc = Function.update s.pc p pc) (hlock : pc.holds = true → s'.lock = some p)
    (hfits : pc.Fits s'.pipe) : HoldInv s' := by
  -- the others do not have the lock
  have hother : ∀ q, q ≠ p → (s.pc q).holds = false := by
    intro q hq
    by_contra hne
    have hl := h.lock q (by simpa using hne)
    rcases hold with hold | hold
    · simp [hl] at hold
    · simp [hl, hq] at hold
  refine ⟨fun q hq => ?_, fun q => ?_⟩
  · by_cases hqp : q = p
    · subst hqp
      rw [hpc, Function.update_self] at hq
      exact hlock hq
    · rw [hpc, Function.update_of_ne hqp, hother q hqp] at hq
      cases hq
  · by_cases hqp : q = p
    · subst hqp
      rwa [hpc, Function.update_self]
    · rw [hpc, Function.update_of_ne hqp]
      exact .of_not_holds (hother q hqp)

/-- Every step keeps this. -/
theorem trans {a : Action P} (h : HoldInv s) (hst : Sys.Trans s p a s') : HoldInv s' := by
  have hfits := h.fits p
  cases hst with
  | kill => exact ⟨h.lock, h.fits⟩
  | write _ _ _ hl | read _ _ hl | close _ _ hl | writeRelock _ hl | readRelock _ hl =>
    exact h.move (.inl hl) rfl (fun _ => rfl) trivial
  | full hpc _ hfull =>
    exact h.move (.inr (h.lock_eq hpc rfl)) rfl (fun _ => h.lock_eq hpc rfl) hfull
  | store hpc | finish hpc | writeDone hpc | closeWrite hpc | closeRead hpc | wakeReaders hpc
  | wakeWriters hpc =>
    exact h.move (.inr (h.lock_eq hpc rfl)) rfl (fun _ => h.lock_eq hpc rfl) trivial
  | giveUp hpc | writeReturn hpc | readKilled hpc | readReturn hpc | free hpc | closed hpc
  | writeSleep hpc | readSleep hpc =>
    exact h.move (.inr (h.lock_eq hpc rfl)) rfl (fun hh => by cases hh) trivial
  | stay hpc hc =>
    rw [hpc] at hfits
    exact h.move (.inr (h.lock_eq hpc rfl)) rfl (fun _ => h.lock_eq hpc rfl) ⟨hfits, hc⟩
  | writeWake hpc =>
    rw [hpc] at hfits
    exact h.move (.inr (h.lock_eq hpc rfl)) rfl (fun _ => h.lock_eq hpc rfl) hfits
  | empty hpc hc =>
    exact h.move (.inr (h.lock_eq hpc rfl)) rfl (fun _ => h.lock_eq hpc rfl) hc
  | copy hpc hc =>
    refine h.move (.inr (h.lock_eq hpc rfl)) rfl (fun _ => h.lock_eq hpc rfl) fun he => ?_
    simpa using fun hw => hc ⟨he, hw⟩
  | readStay hpc =>
    rw [hpc] at hfits
    exact h.move (.inr (h.lock_eq hpc rfl)) rfl (fun _ => h.lock_eq hpc rfl) hfits
  | deliver hpc =>
    exact h.move (.inr (h.lock_eq hpc rfl)) rfl (fun _ => h.lock_eq hpc rfl) trivial
  | @copied n i hpc hc =>
    refine h.move (.inr (h.lock_eq hpc rfl)) rfl (fun _ => h.lock_eq hpc rfl) ?_
    cases i with
    | zero =>
      rw [hpc] at hfits
      exact fun hn => ⟨hc hn, hfits (hc hn)⟩
    | succ i => trivial
  | @readWake n i hpc =>
    refine h.move (.inr (h.lock_eq hpc rfl)) rfl (fun _ => h.lock_eq hpc rfl) ?_
    cases i with
    | zero =>
      rw [hpc] at hfits
      exact hfits
    | succ i => trivial

omit [DecidableEq P] in
theorem init (data : Fin PIPESIZE → UInt8) : HoldInv (Sys.init data : Sys P) :=
  ⟨fun _ hp => (by cases hp), fun _ => trivial⟩

end HoldInv

end Xv6.Pipes
