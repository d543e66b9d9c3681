import Mathlib.Data.Int.Notation
import Mathlib.Data.Nat.Notation
import Mathlib.Logic.Function.Basic
import Xv6.Lib.Transition

/-!
# Spin locks and the interrupt flag

`spinlock.c`, with `sched`, `scheduler` and `forkret` of `proc.c`: any number of CPUs, each of which
runs a process in the kernel or its own scheduler. `pushcli` and `popcli` count their levels in the
CPU, and `sched` carries the flag that the outermost `pushcli` has saved over to the CPU on which
the process goes on.

A process makes its calls in any order. `pushcli` is two steps, since an interrupt may come between
its reading of `%eflags` and its `cli`; a lock is taken by as many tries as it takes. An interrupt
puts a trap frame on the stack of the thread that it meets, and the handler is code of that thread;
it returns when it has undone its own `pushcli`s. The scheduler has its own loop between interrupts:
it enables interrupts, acquires `ptable.lock`, switches to processes, and releases the lock. A
system call leaves the flag as it is and makes no frame here.

Beside the kernel's own state the system keeps a history: how many levels each thread has, and the
interrupt flag at its outermost `pushcli`.
-/

namespace Xv6.Spinlock

open Lib

/-- The panics of `spinlock.c`, and those of `sched` and `mycpu`. -/
inductive Panic
  /-- "acquire" -/
  | acquire
  /-- "release" -/
  | release
  /-- "popcli - interruptible" -/
  | popcliInterruptible
  /-- "popcli" -/
  | popcli
  /-- "sched ptable.lock" -/
  | schedPtable
  /-- "mycpu called with interrupts enabled" -/
  | mycpu
  /-- "sched locks" -/
  | schedLocks
  deriving DecidableEq

/-- A kernel thread: a process in the kernel, or the scheduler of a CPU. -/
inductive Thread (C P : Type)
  | proc (p : P)
  | scheduler (c : C)
  deriving DecidableEq

/-- The fields of `struct cpu` for interrupts, the flag itself, and the process that runs; there is
none while the scheduler runs. -/
structure Cpu (P : Type) where
  ncli : ℤ
  intena : Bool
  /-- `FL_IF` of `%eflags` -/
  flIf : Bool
  proc : Option P

/-- The end of `pushcli`, from `cli` on. -/
def Cpu.pushcli {P : Type} (x : Cpu P) (eflags : Bool) : Cpu P :=
  { x with
    flIf := false
    intena := if x.ncli = 0 then eflags else x.intena
    ncli := x.ncli + 1 }

/-- `popcli` -/
def Cpu.popcli {P : Type} (x : Cpu P) : Except Panic (Cpu P) :=
  if x.flIf then .error .popcliInterruptible
  else if x.ncli - 1 < 0 then .error .popcli
  else .ok { x with
    ncli := x.ncli - 1
    flIf := decide (x.ncli - 1 = 0) && x.intena }

/-- `struct spinlock`. -/
structure Lock (C : Type) where
  locked : Bool
  cpu : Option C

/-- Where a thread is. -/
inductive Pc (L : Type)
  /-- Code of a process or of a handler, between calls. -/
  | run
  /-- The scheduler, before `sti`. -/
  | top
  /-- The scheduler, before `acquire(&ptable.lock)`. -/
  | ready
  /-- The scheduler, in its loop over the table. -/
  | scan
  /-- In `pushcli`, which has read `%eflags`, or in that of `acquire(lk)`. -/
  | pushing (eflags : Bool) (lk : Option L) (loop : Bool)
  /-- In the loop of `acquire(lk)`; `loop` says that the scheduler's own loop has called it. -/
  | spin (lk : L) (loop : Bool)

/-- A trap frame: the flag and the code to return to. -/
structure Frame (L : Type) where
  eflags : Bool
  pc : Pc L

/-- A thread, with its history. -/
structure Kthread (L : Type) where
  pc : Pc L
  frames : List (Frame L)
  /-- How many levels of `pushcli` the thread has. -/
  level : ℕ
  /-- The interrupt flag at its outermost `pushcli`. There is none for the level with which a new
  process starts, which the scheduler has pushed. -/
  outer : Option Bool

/-- The history of a thread that executes `cli` in `pushcli`. -/
def Kthread.push {L : Type} (k : Kthread L) (flag : Bool) : Kthread L :=
  { k with
    level := k.level + 1
    outer := if k.level = 0 then some flag else k.outer }

/-- The history of a thread that executes `popcli`. -/
def Kthread.pop {L : Type} (k : Kthread L) : Kthread L := { k with level := k.level - 1 }

/-- Where a process goes on: in `forkret`, in `sched` with its variable `intena`, or it runs. -/
inductive Context (C : Type)
  | forkret
  | sched (intena : Bool)
  | on (c : C)

/-- The whole state. -/
structure Sys (C P L : Type) where
  cpus : C → Cpu P
  locks : L → Lock C
  threads : Thread C P → Kthread L
  context : P → Context C

/-- What a CPU does next. -/
inductive Act (P L : Type)
  | pushcli
  | acquire (lk : L)
  /-- The end of `pushcli`. -/
  | cli
  /-- A round of the loop of `acquire`. -/
  | xchg
  | popcli
  | release (lk : L)
  | sched
  /-- The scheduler switches to a process. -/
  | swtch (p : P)
  | sti
  | interrupt
  | iret
  /-- The slot of a process that has exited is given to a new one. -/
  | allocproc (p : P)

section Steps

variable {C P L : Type} [DecidableEq C] [DecidableEq P] [DecidableEq L]

/-- The thread that runs on a CPU. -/
def Sys.thread (s : Sys C P L) (c : C) : Thread C P :=
  match (s.cpus c).proc with
  | some p => .proc p
  | none => .scheduler c

/-- What `holding` returns on a CPU. Its `pushcli` and `popcli` cancel out. -/
def Sys.holding (s : Sys C P L) (c : C) (lk : L) : Bool :=
  (s.locks lk).locked && decide ((s.locks lk).cpu = some c)

/-- A step of the thread on CPU `c`. -/
def Sys.put (s : Sys C P L) (c : C) (x : Cpu P) (k : Kthread L) : Sys C P L :=
  { s with
    cpus := Function.update s.cpus c x
    threads := Function.update s.threads (s.thread c) k }

/-- `popcli` of the thread `k` on CPU `c`, after which it is at `pc`. -/
def Sys.popcli (s : Sys C P L) (c : C) (k : Kthread L) (pc : Pc L) : Outcome Panic (Sys C P L) :=
  match (s.cpus c).popcli with
  | .error e => .panic e
  | .ok x => .ok (s.put c x { k.pop with pc := pc })

/-- `release` of the thread `k` on CPU `c`. -/
def Sys.release (s : Sys C P L) (c : C) (k : Kthread L) (lk : L) (pc : Pc L) :
    Outcome Panic (Sys C P L) :=
  if s.holding c lk then
    Sys.popcli { s with locks := Function.update s.locks lk ⟨false, none⟩ } c k pc
  else .panic .release

/-- `sched` of process `p` on CPU `c`, up to the switch to the scheduler. The caller has changed the
state of the process. -/
def Sys.sched (ptable : L) (s : Sys C P L) (c : C) (p : P) : Outcome Panic (Sys C P L) :=
  let x := s.cpus c
  if ¬ s.holding c ptable then .panic .schedPtable
  else if x.flIf then .panic .mycpu
  else if x.ncli ≠ 1 then .panic .schedLocks
  else .ok
    { s with
      cpus := Function.update s.cpus c { x with proc := none }
      context := Function.update s.context p (.sched x.intena) }

/-- The switch from the scheduler of CPU `c` to process `p`, with the end of `sched` if that is
where the process goes on. A new process starts in `forkret`, on a stack with the frame of its
return to user space, and with the level of the scheduler. -/
def Sys.swtch (s : Sys C P L) (c : C) (p : P) : Outcome Panic (Sys C P L) :=
  let x := s.cpus c
  match s.context p with
  | .on _ => .blocked
  | .sched intena => .ok
    { s with
      cpus := Function.update s.cpus c { x with proc := some p, intena := intena }
      context := Function.update s.context p (.on c) }
  | .forkret => .ok
    { s with
      cpus := Function.update s.cpus c { x with proc := some p }
      threads := Function.update s.threads (.proc p)
        { pc := .run, frames := [⟨true, .run⟩], level := (s.threads (.scheduler c)).level,
          outer := none }
      context := Function.update s.context p (.on c) }

/-- The step of CPU `c` that `a` names. -/
def Sys.next (ptable : L) (s : Sys C P L) (c : C) (a : Act P L) : Outcome Panic (Sys C P L) :=
  let x := s.cpus c
  let k := s.threads (s.thread c)
  match a, k.pc with
  | .pushcli, .run => .ok (s.put c x { k with pc := .pushing x.flIf none false })
  | .acquire lk, .run => .ok (s.put c x { k with pc := .pushing x.flIf (some lk) false })
  | .acquire lk, .ready =>
    if lk = ptable then .ok (s.put c x { k with pc := .pushing x.flIf (some lk) true })
    else .blocked
  | .cli, .pushing eflags none _ =>
    .ok (s.put c (x.pushcli eflags) { k.push x.flIf with pc := .run })
  | .cli, .pushing eflags (some lk) loop =>
    if s.holding c lk then .panic .acquire
    else .ok (s.put c (x.pushcli eflags) { k.push x.flIf with pc := .spin lk loop })
  | .xchg, .spin lk loop =>
    if (s.locks lk).locked then .ok s
    else .ok
      { s.put c x { k with pc := if loop then .scan else .run } with
        locks := Function.update s.locks lk ⟨true, some c⟩ }
  | .popcli, .run => s.popcli c k .run
  | .release lk, .run => s.release c k lk .run
  | .release lk, .scan => if lk = ptable then s.release c k lk .top else .blocked
  | .sched, .run =>
    match x.proc with
    | some p => s.sched ptable c p
    | none => .blocked
  | .swtch p, .scan =>
    match x.proc with
    | some _ => .blocked
    | none => s.swtch c p
  | .sti, .top => .ok (s.put c { x with flIf := true } { k with pc := .ready })
  | .interrupt, pc =>
    if x.flIf then
      .ok (s.put c { x with flIf := false } { k with pc := .run, frames := ⟨true, pc⟩ :: k.frames })
    else .blocked
  | .iret, .run =>
    match k.frames with
    | [] => .blocked
    | f :: frames =>
      if k.level = 0 then
        .ok (s.put c { x with flIf := f.eflags } { k with pc := f.pc, frames := frames })
      else .blocked
  | .allocproc p, .run =>
    match s.context p with
    | .sched _ => .ok { s with context := Function.update s.context p .forkret }
    | _ => .blocked
  | _, _ => .blocked

/-- The steps of the system. -/
def Sys.Step (ptable : L) (s : Sys C P L) (l : C × Act P L) (t : Sys C P L) : Prop :=
  s.next ptable l.1 l.2 = .ok t

/-- Every CPU enters its scheduler with interrupts off, the locks are free, and no process has
run. -/
def Sys.boot : Sys C P L where
  cpus _ := { ncli := 0, intena := false, flIf := false, proc := none }
  locks _ := ⟨false, none⟩
  threads
    | .proc _ => { pc := .run, frames := [], level := 0, outer := none }
    | .scheduler _ => { pc := .top, frames := [], level := 0, outer := none }
  context _ := .forkret

end Steps

end Xv6.Spinlock
