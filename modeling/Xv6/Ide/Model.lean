import Xv6.Bio.Cache
import Xv6.Lib.Slist

/-!
# The disk drivers

`ide.c`, which queues requests for the drive and lets the interrupt handler complete them, and
`memide.c`, which keeps the disk in memory. The steps of `ide.c` are the critical sections of
`idelock`: `iderw` up to the first test of its loop, one more test by a process that was woken, and
`ideintr`. Between them the drive finishes its command, `kill` wakes a process, and the rest of the
kernel does with the buffers that are in no request what it likes.

For specification the state keeps the requests that were queued and those that were completed, in
order; each call of `iderw` knows the number of its request.
-/

namespace Xv6.Bio

variable {P : Type*}

/-- `(b->flags & (B_VALID|B_DIRTY)) == B_VALID`: the buffer and the disk agree. -/
def Buf.Synced (b : Buf P) : Prop := b.valid = true ∧ b.dirty = false

instance (b : Buf P) : Decidable b.Synced := inferInstanceAs (Decidable (_ ∧ _))

/-- What `ideintr` does to the buffer of the command that ended: a buffer that is not dirty gets the
data of the drive, unless `idewait` reports an error; whatever the status, the flags become those of
a valid buffer. -/
def Buf.complete (b : Buf P) (got : Option Block) : Buf P :=
  { b with
    data := if b.dirty then b.data else got.getD b.data
    valid := true
    dirty := false }

end Xv6.Bio

namespace Xv6.Ide

open Lib Bio

/-- The panics of the drivers. -/
inductive Panic
  | incorrectBlockno
  | notLocked
  | nothingToDo
  | noDisk1
  | notDisk1
  | outOfRange
  deriving DecidableEq

/-! ### The drive -/

/-- `SECTOR_SIZE`. -/
def SECTOR_SIZE : ℕ := 512

/-- A command: which disk, which sector, and for a write the data. -/
structure Command where
  drive : ℕ
  sector : ℕ
  write : Option Block

/-- What the command does to the disk. -/
def Command.perform (c : Command) (disk : Disk) : Disk :=
  match c.write with
  | some data => Function.update disk c.sector data
  | none => disk

/-- The two disks, the command given last, whether the drive has finished it, and the data that can
be read from the drive then. -/
structure Drive where
  disk : ℕ → Disk
  cmd : Option Command
  done : Bool
  data : Block

/-- The drive finishes its command. -/
def Drive.finish (d : Drive) : Option Drive :=
  match d.cmd, d.done with
  | some c, false => some { d with
      disk := Function.update d.disk c.drive (c.perform (d.disk c.drive))
      done := true
      data := match c.write with
        | some _ => d.data
        | none => d.disk c.drive c.sector }
  | _, _ => none

/-- The sector number in the registers 0x1f3 to 0x1f6: a byte each, and four bits in the last. -/
def lba (sector : ℕ) : ℕ :=
  sector % 256 + 256 * (sector / 256 % 256) + 65536 * (sector / 65536 % 256) +
    16777216 * (sector / 16777216 % 16)

theorem lba_of_lt {sector : ℕ} (h : sector < 2 ^ 28) : lba sector = sector := by
  unfold lba
  omega

variable {P : Type*}

/-- The command that `idestart` gives for a buffer. -/
def command (b : Buf P) : Command where
  drive := b.dev % 2
  sector := lba (b.blockno * (BSIZE / SECTOR_SIZE))
  write := if b.dirty then some b.data else none

/-! ### The interrupt-driven driver -/

/-- A call of `iderw` that has queued its request: the buffer, whether the process sleeps, and the
number of the request. -/
structure Call where
  buf : Fin NBUF
  asleep : Bool
  ticket : ℕ

/-- `wakeup` on a buffer. -/
def Call.wakeup (i : Fin NBUF) (c : Call) : Call :=
    if c.buf = i then { c with asleep := false } else c

/-- The driver, the drive, the buffers, and the processes `P` in `iderw`. -/
structure Sys (P : Type*) where
  buf : Fin NBUF → Buf P
  idequeue : Option (Fin NBUF)
  qnext : Fin NBUF → Option (Fin NBUF)
  havedisk1 : Bool
  drive : Drive
  call : P → Option Call
  queued : List (Fin NBUF)
  completed : List (Fin NBUF)

/-- What happens. In `prepare` the rest of the kernel changes a buffer, its lock included; `kill`
wakes a process whatever it sleeps on; `run` is a process that goes on in the loop of `iderw`. -/
inductive Act (P : Type*)
  | prepare (i : Fin NBUF) (b : Buf P)
  | iderw (p : P) (i : Fin NBUF)
  | finish
  | ideintr
  | kill (p : P)
  | run (p : P)

namespace Sys

/-- The state after `ideinit` found disk 1, with any buffers and disks. -/
def init (buf : Fin NBUF → Buf P) (disk : ℕ → Disk) : Sys P where
  buf := buf
  idequeue := none
  qnext _ := none
  havedisk1 := true
  drive := ⟨disk, none, false, Bytes.zero BSIZE⟩
  call _ := none
  queued := []
  completed := []

/-- Start the request for a buffer; `idewait` does not end while the drive is busy. -/
def idestart (s : Sys P) (i : Fin NBUF) : Outcome Panic (Sys P) :=
  if FSSIZE ≤ (s.buf i).blockno then .panic .incorrectBlockno
  else if s.drive.cmd.isSome ∧ s.drive.done = false then .blocked
  else .ok { s with drive := { s.drive with cmd := some (command (s.buf i)), done := false } }

/-- The interrupt handler, after a command that ended without error. -/
def ideintr (s : Sys P) : Outcome Panic (Sys P) :=
  match s.idequeue with
  | none => .ok s
  | some i =>
    let s := { s with
      idequeue := s.qnext i
      buf := Function.update s.buf i ((s.buf i).complete (some s.drive.data))
      drive := { s.drive with cmd := none, done := false }
      call := fun p => (s.call p).map (Call.wakeup i)
      completed := s.completed ++ [i] }
    match s.idequeue with
    | none => .ok s
    | some j => s.idestart j

variable [DecidableEq P]

/-- A test of the loop in `iderw`: return, or sleep. -/
def wait (s : Sys P) (p : P) (c : Call) : Sys P :=
  let c := if (s.buf c.buf).Synced then none else some { c with asleep := true }
  { s with call := Function.update s.call p c }

/-- `iderw` up to the first test of its loop. -/
def iderw (s : Sys P) (p : P) (i : Fin NBUF) : Outcome Panic (Sys P) :=
  if (s.call p).isSome then .blocked
  else if (s.buf i).lock ≠ some p then .panic .notLocked
  else if (s.buf i).Synced then .panic .nothingToDo
  else if (s.buf i).dev ≠ 0 ∧ s.havedisk1 = false then .panic .noDisk1
  else
    match enqueue s.qnext s.idequeue NBUF i with
    | none => .blocked
    | some (head, qnext) =>
      let c : Call := ⟨i, false, s.queued.length⟩
      let s := { s with idequeue := head, qnext := qnext, queued := s.queued ++ [i] }
      if s.idequeue = some i then
        (s.idestart i).bindMap id fun s => .ok (s.wait p c)
      else .ok (s.wait p c)

/-- The steps. -/
def next (s : Sys P) : Act P → Outcome Panic (Sys P)
  | .prepare i b => .ok { s with buf := Function.update s.buf i b }
  | .iderw p i => s.iderw p i
  | .finish => .ofOption (s.drive.finish.map fun d => { s with drive := d })
  | .ideintr => if s.drive.done then s.ideintr else .blocked
  | .kill p =>
    .ofOption ((s.call p).map fun c =>
      { s with call := Function.update s.call p (some { c with asleep := false }) })
  | .run p =>
    match s.call p with
    | some c => if c.asleep then .blocked else .ok (s.wait p c)
    | none => .blocked

/-- The kernel leaves the buffers of requests alone, and requests are for blocks of disk 1. -/
def Guard (s : Sys P) : Act P → Prop
  | .prepare i _ => ∀ p, ∀ c ∈ s.call p, c.buf ≠ i
  | .iderw _ i => (s.buf i).dev = 1 ∧ (s.buf i).blockno < FSSIZE
  | _ => True

/-- Steps that are possible, do not panic and keep to the interface. -/
def Step : Sys P → Act P → Sys P → Prop := Guarded (fun s a t => s.next a = .ok t) Guard

end Sys

/-! ### The in-memory driver -/

/-- The disk in memory, its size in blocks, and the buffers. -/
structure Mem (P : Type*) where
  memdisk : Disk
  disksize : ℕ
  buf : Fin NBUF → Buf P

namespace Mem

/-- What happens: the rest of the kernel changes a buffer, or a process calls `iderw`. -/
inductive Act (P : Type*)
  | prepare (i : Fin NBUF) (b : Buf P)
  | iderw (p : P) (i : Fin NBUF)

variable [DecidableEq P]

/-- `iderw` of `memide.c`. -/
def iderw (m : Mem P) (p : P) (i : Fin NBUF) : Outcome Panic (Mem P) :=
  let b := m.buf i
  if b.lock ≠ some p then .panic .notLocked
  else if b.Synced then .panic .nothingToDo
  else if b.dev ≠ 1 then .panic .notDisk1
  else if m.disksize ≤ b.blockno then .panic .outOfRange
  else if b.dirty then
    .ok { m with
      memdisk := Function.update m.memdisk b.blockno b.data
      buf := Function.update m.buf i { b with dirty := false, valid := true } }
  else
    .ok { m with
      buf := Function.update m.buf i { b with data := m.memdisk b.blockno, valid := true } }

/-- The steps. -/
def next (m : Mem P) : Act P → Outcome Panic (Mem P)
  | .prepare i b => .ok { m with buf := Function.update m.buf i b }
  | .iderw p i => m.iderw p i

/-- Steps that do not panic. -/
def Step (m : Mem P) (a : Act P) (m' : Mem P) : Prop := m.next a = .ok m'

/-- The requests among the steps. -/
def requests (acts : List (Act P)) : List (Fin NBUF) :=
  acts.filterMap fun
    | .prepare _ _ => none
    | .iderw _ i => some i

end Mem

end Xv6.Ide
