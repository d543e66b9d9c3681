import Xv6.Proc.Table

/-!
# Sleep and wakeup

`sleep(chan, lk)` and `wakeup(chan)` statement by statement: each acquire, release,
assignment and switch is a step of its own, on any number of CPUs whose schedulers pass
`ptable.lock` to the processes they run. A condition is kept under the lock `lk`, which may
be `ptable.lock` itself. Processes enter critical sections of `lk`, change the data, sleep on
any channel and wake any channel; beside them processes are killed and yield.
-/

namespace Xv6.Sleep

open Lib
open Ptable (ProcState)

/-- What a call of `sched` returns to. -/
inductive Resume
  | sleep
  | yield
  deriving DecidableEq

/-- The next statement of a process. -/
inductive Pc (n : ℕ) (K : Type)
  /-- Outside the critical sections of `lk`. -/
  | out
  /-- In a critical section of `lk`. -/
  | crit
  /-- `sleep(k, lk)`: `acquire(&ptable.lock)`. -/
  | sleepLock (k : K)
  /-- `release(lk)`. -/
  | sleepUnlock (k : K)
  /-- `p->chan = k`. -/
  | setChan (k : K)
  /-- `p->state = SLEEPING`. -/
  | setState (k : K)
  /-- `sched()`, called by `sleep` or `yield`. -/
  | sched (r : Resume)
  /-- Switched away from in `sched`. -/
  | parked (r : Resume)
  /-- Back in `sleep`: `p->chan = 0`. -/
  | clearChan
  /-- `release(&ptable.lock)`. -/
  | sleepRelease
  /-- `acquire(lk)`. -/
  | relock
  /-- `wakeup(k)`, called in a critical section of `lk` or not: `acquire(&ptable.lock)`. -/
  | wakeLock (k : K) (crit : Bool)
  /-- The loop of `wakeup1(k)`. -/
  | scan (k : K) (i : ℕ) (crit : Bool)
  /-- `release(&ptable.lock)`. -/
  | wakeRelease (crit : Bool)
  /-- `kill(pid)`: `acquire(&ptable.lock)`. -/
  | killLock (pid : Int32)
  /-- The loop of `kill`. -/
  | killScan (pid : Int32) (i : ℕ)
  /-- The slot found: `if(p->state == SLEEPING) p->state = RUNNABLE`. -/
  | killWake (q : Fin n)
  /-- `release(&ptable.lock)`. -/
  | killRelease
  /-- `yield()`: `acquire(&ptable.lock)`. -/
  | yieldLock
  /-- `myproc()->state = RUNNABLE`. -/
  | yieldSet
  /-- Back in `yield`, or a process that runs for the first time: `release(&ptable.lock)`. -/
  | yieldRelease
  deriving DecidableEq

/-- A process: its fields, its next statement, and what it has done in the critical section
it is in: whether it made the condition true, and whether it woke the channel. -/
structure Thread (n : ℕ) (K : Type) where
  state : ProcState
  chan : Option K
  pid : Int32
  killed : Bool
  pc : Pc n K
  made : Bool
  woke : Bool

/-- Who holds a lock: a process, or the scheduler of a CPU. -/
inductive Holder (n : ℕ) (C : Type)
  | proc (p : Fin n)
  | cpu (c : C)
  deriving DecidableEq

/-- The locks and the data that `lk` guards. The field `lk` is for a lock other than
`ptable.lock`. -/
structure Shared (n : ℕ) (C D : Type) where
  ptable : Option (Holder n C)
  lk : Option (Fin n)
  data : D

/-- Which lock guards the condition, the condition, and the channel on which it is awaited. -/
structure Setup (K D : Type) where
  /-- Whether `lk` is `ptable.lock`. -/
  ptable : Bool
  cond : D → Bool
  chan : K

/-- What a CPU is doing: in its scheduler without or with `ptable.lock`, or running a
process. -/
inductive Mode (n : ℕ)
  | idle
  | loop (i : ℕ)
  | run (p : Fin n)
  deriving DecidableEq

/-- The whole state. -/
structure Sys (n : ℕ) (C K D : Type) where
  shared : Shared n C D
  thread : Fin n → Thread n K
  cpu : C → Mode n

/-- What a CPU does next. With `go` it takes the next step of the code it is in; the others
are what a process may choose to call. -/
inductive Action (K D : Type)
  | go
  | enter
  | leave
  | modify (d : D)
  | sleep (k : K)
  | wakeup (k : K)
  | kill (pid : Int32)
  | yield

section Model

variable {n : ℕ} {C K D : Type} (e : Setup K D)

/-- Who holds `lk`. -/
def Setup.holder (sh : Shared n C D) : Option (Holder n C) :=
  if e.ptable then sh.ptable else sh.lk.map .proc

/-- `acquire(&ptable.lock)` by process `p`, which goes on at `pc`. -/
def acquirePtable (p : Fin n) (sh : Shared n C D) (t : Thread n K) (pc : Pc n K) :
    Option (Shared n C D × Thread n K) :=
  if sh.ptable.isNone then some ({ sh with ptable := some (.proc p) }, { t with pc := pc })
  else none

/-- `acquire(lk)` by process `p`. -/
def acquireLk (p : Fin n) (sh : Shared n C D) (t : Thread n K) :
    Option (Shared n C D × Thread n K) :=
  if e.ptable then acquirePtable p sh t .crit
  else if sh.lk.isNone then some ({ sh with lk := some p }, { t with pc := .crit })
  else none

/-- `release(lk)`. -/
def releaseLk (sh : Shared n C D) : Shared n C D :=
  if e.ptable then { sh with ptable := none } else { sh with lk := none }

/-- The statements of process `p` that only write its own fields, the locks and the data. -/
def Thread.next (p : Fin n) (sh : Shared n C D) (t : Thread n K) (a : Action K D) :
    Option (Shared n C D × Thread n K) :=
  match t.pc, a with
  | .out, .enter => acquireLk e p sh t
  | .out, .wakeup k => some (sh, { t with pc := .wakeLock k false })
  | .out, .kill pid => some (sh, { t with pc := .killLock pid })
  | .out, .yield => some (sh, { t with pc := .yieldLock })
  | .crit, .modify d =>
    some ({ sh with data := d }, { t with made := t.made || (!e.cond sh.data && e.cond d) })
  | .crit, .sleep k =>
    some (sh, { t with
      pc := if e.ptable then .setChan k else .sleepLock k, made := false, woke := false })
  -- with `ptable.lock` held it is `wakeup1` that is called
  | .crit, .wakeup k =>
    some (sh, { t with pc := if e.ptable then .scan k 0 true else .wakeLock k true })
  | .crit, .leave => some (releaseLk e sh, { t with pc := .out, made := false, woke := false })
  | .sleepLock k, .go => acquirePtable p sh t (.sleepUnlock k)
  | .sleepUnlock k, .go => some ({ sh with lk := none }, { t with pc := .setChan k })
  | .setChan k, .go => some (sh, { t with chan := some k, pc := .setState k })
  | .setState _, .go => some (sh, { t with state := .sleeping, pc := .sched .sleep })
  | .clearChan, .go =>
    some (sh, { t with chan := none, pc := if e.ptable then .crit else .sleepRelease })
  | .sleepRelease, .go => some ({ sh with ptable := none }, { t with pc := .relock })
  | .relock, .go => acquireLk e p sh t
  | .wakeLock k b, .go => acquirePtable p sh t (.scan k 0 b)
  | .wakeRelease b, .go =>
    some ({ sh with ptable := none }, { t with pc := if b then .crit else .out })
  | .killLock pid, .go => acquirePtable p sh t (.killScan pid 0)
  | .killRelease, .go => some ({ sh with ptable := none }, { t with pc := .out })
  | .yieldLock, .go => acquirePtable p sh t .yieldSet
  | .yieldSet, .go => some (sh, { t with state := .runnable, pc := .sched .yield })
  | .yieldRelease, .go => some ({ sh with ptable := none }, { t with pc := .out })
  | _, _ => none

namespace Sys

variable (s : Sys n C K D)

/-- Assign to a process. -/
@[simps -fullyApplied]
def setThread (p : Fin n) (t : Thread n K) : Sys n C K D :=
  { s with thread := Function.update s.thread p t }

/-- Continue process `p` at `pc`. -/
@[simps! -fullyApplied]
def setPc (p : Fin n) (pc : Pc n K) : Sys n C K D := s.setThread p { s.thread p with pc := pc }

variable [DecidableEq K]

/-- One pass of the loop of `wakeup1(k)` by process `p`, or its end. -/
def scan (p : Fin n) (k : K) (i : ℕ) (b : Bool) : Sys n C K D :=
  if h : i < n then
    let q : Fin n := ⟨i, h⟩
    if (s.thread q).state = .sleeping ∧ (s.thread q).chan = some k then
      (s.setThread q { s.thread q with state := .runnable }).setPc p (.scan k (i + 1) b)
    else s.setPc p (.scan k (i + 1) b)
  else
    s.setThread p { s.thread p with
      pc := if b ∧ e.ptable then .crit else .wakeRelease b
      woke := (s.thread p).woke || (b && k = e.chan) }

/-- One pass of the loop of `kill(pid)` by process `p`, or its end. -/
def killScan (p : Fin n) (pid : Int32) (i : ℕ) : Sys n C K D :=
  if h : i < n then
    let q : Fin n := ⟨i, h⟩
    if (s.thread q).pid = pid then
      (s.setThread q { s.thread q with killed := true }).setPc p (.killWake q)
    else s.setPc p (.killScan pid (i + 1))
  else s.setPc p .killRelease

/-- The process that `kill` found is woken if it sleeps. -/
def killWake (p q : Fin n) : Sys n C K D :=
  if (s.thread q).state = .sleeping then
    (s.setThread q { s.thread q with state := .runnable }).setPc p .killRelease
  else s.setPc p .killRelease

variable [DecidableEq C]

/-- `sched()`: process `p` on CPU `c` switches to the scheduler, which gets the lock. -/
def sched (c : C) (p : Fin n) (r : Resume) : Sys n C K D :=
  { s.setPc p (.parked r) with
    shared := { s.shared with ptable := some (.cpu c) }
    cpu := Function.update s.cpu c (.loop (p + 1)) }

/-- One pass of the loop of the scheduler of CPU `c`, or its end. A process that is picked
goes on where it was parked, with the lock. -/
def look (c : C) (i : ℕ) : Option (Sys n C K D) :=
  if h : i < n then
    let p : Fin n := ⟨i, h⟩
    if (s.thread p).state = .runnable then
      match (s.thread p).pc with
      | .parked r =>
        some { s.setThread p { s.thread p with
            state := .running
            pc := match r with
              | .sleep => .clearChan
              | .yield => .yieldRelease } with
          shared := { s.shared with ptable := some (.proc p) }
          cpu := Function.update s.cpu c (.run p) }
      | _ => none
    else some { s with cpu := Function.update s.cpu c (.loop (i + 1)) }
  else
    some { s with
      shared := { s.shared with ptable := none }
      cpu := Function.update s.cpu c .idle }

/-- The steps of the system: CPU `c` does `a`. -/
def next (l : C × Action K D) : Option (Sys n C K D) :=
  let c := l.1
  match s.cpu c with
  | .idle =>
    if s.shared.ptable.isNone then
      some { s with
        shared := { s.shared with ptable := some (.cpu c) }
        cpu := Function.update s.cpu c (.loop 0) }
    else none
  | .loop i => s.look c i
  | .run p =>
    match (s.thread p).pc with
    | .scan k i b => some (s.scan e p k i b)
    | .killScan pid i => some (s.killScan p pid i)
    | .killWake q => some (s.killWake p q)
    | .sched r => some (s.sched c p r)
    | _ => ((s.thread p).next e p s.shared l.2).map fun r =>
        { s.setThread p r.2 with shared := r.1 }

/-- One step of the system. -/
def Step (s : Sys n C K D) (l : C × Action K D) (t : Sys n C K D) : Prop := s.next e l = some t

end Sys

/-- What is asked of the callers: a process that sleeps on the channel of the condition has
found the condition false, and one that has made the condition true in a critical section
wakes the channel before it leaves the section or sleeps on another channel in it. -/
def Disciplined [DecidableEq K] (s : Sys n C K D) (l : C × Action K D) : Prop :=
  ∀ p, s.cpu l.1 = .run p → (s.thread p).pc = .crit →
    match l.2 with
    | .sleep k =>
      if k = e.chan then e.cond s.shared.data = false
      else (s.thread p).made = true → (s.thread p).woke = true
    | .leave => (s.thread p).made = true → (s.thread p).woke = true
    | _ => True

instance [DecidableEq K] (s : Sys n C K D) (l : C × Action K D) :
    Decidable (Disciplined e s l) := by
  unfold Disciplined
  have (p : Fin n) : Decidable (match l.2 with
      | .sleep k =>
        if k = e.chan then e.cond s.shared.data = false
        else (s.thread p).made = true → (s.thread p).woke = true
      | .leave => (s.thread p).made = true → (s.thread p).woke = true
      | _ => True) := by
    split <;> infer_instance
  infer_instance

/-- The state in which the system starts: any processes wait to run for the first time. -/
def start (live : Fin n → Bool) (pid : Fin n → Int32) (d : D) : Sys n C K D where
  shared := ⟨none, none, d⟩
  thread p := ⟨if live p then .runnable else .unused, none, pid p, false,
    .parked .yield, false, false⟩
  cpu _ := .idle

end Model

/-! ### The loops over the table -/

section Loops

variable {n : ℕ} {C K D : Type} {e : Setup K D} {s s' : Sys n C K D} {p q : Fin n}

/-- What a pass of a loop over the table by process `p` leaves as it was: it may wake
processes, but moves only `p`. -/
structure Pass (p : Fin n) (s s' : Sys n C K D) : Prop where
  cpu : s'.cpu = s.cpu
  shared : s'.shared = s.shared
  pc : ∀ q, q ≠ p → (s'.thread q).pc = (s.thread q).pc
  chan : ∀ q, (s'.thread q).chan = (s.thread q).chan
  state : ∀ q, (s.thread q).state.Wakes (s'.thread q).state
  made : ∀ q, (s'.thread q).made = (s.thread q).made
  woke : ∀ q, q ≠ p → (s'.thread q).woke = (s.thread q).woke

theorem Pass.trans {s₁ s₂ s₃ : Sys n C K D} (h : Pass p s₁ s₂) (h' : Pass p s₂ s₃) :
    Pass p s₁ s₃ where
  cpu := h'.cpu.trans h.cpu
  shared := h'.shared.trans h.shared
  pc q hq := (h'.pc q hq).trans (h.pc q hq)
  chan q := (h'.chan q).trans (h.chan q)
  state q := (h.state q).trans (h'.state q)
  made q := (h'.made q).trans (h.made q)
  woke q hq := (h'.woke q hq).trans (h.woke q hq)

/-- One process is written, and goes on elsewhere only if it is `p`. -/
theorem Pass.write {t : Thread n K} (hpc : q ≠ p → t.pc = (s.thread q).pc)
    (hchan : t.chan = (s.thread q).chan) (hstate : (s.thread q).state.Wakes t.state)
    (hmade : t.made = (s.thread q).made) (hwoke : q ≠ p → t.woke = (s.thread q).woke) :
    Pass p s (s.setThread q t) := by
  refine ⟨rfl, rfl, ?_, ?_, ?_, ?_, ?_⟩
  · exact (Function.forall_update_iff s.thread fun r x => r ≠ p → x.pc = (s.thread r).pc).mpr
      ⟨hpc, fun _ _ _ => rfl⟩
  · exact (Function.forall_update_iff s.thread fun r x => x.chan = (s.thread r).chan).mpr
      ⟨hchan, fun _ _ => rfl⟩
  · exact (Function.forall_update_iff s.thread fun r x => (s.thread r).state.Wakes x.state).mpr
      ⟨hstate, fun _ _ => .inl rfl⟩
  · exact (Function.forall_update_iff s.thread fun r x => x.made = (s.thread r).made).mpr
      ⟨hmade, fun _ _ => rfl⟩
  · exact (Function.forall_update_iff s.thread fun r x => r ≠ p → x.woke = (s.thread r).woke).mpr
      ⟨hwoke, fun _ _ _ => rfl⟩

theorem Pass.setPc (pc : Pc n K) : Pass p s (s.setPc p pc) :=
  .write (absurd rfl) rfl (.inl rfl) rfl fun _ => rfl

/-- Process `p` wakes `q`, which sleeps, and goes on. -/
theorem Pass.wake (hq : (s.thread q).state = .sleeping) (pc : Pc n K) :
    Pass p s ((s.setThread q { s.thread q with state := .runnable }).setPc p pc) := by
  refine Pass.trans ?_ (.setPc pc)
  exact .write (fun _ => rfl) rfl (.inr ⟨hq, rfl⟩) rfl fun _ => rfl

theorem pass_scan [DecidableEq K] (k : K) (i : ℕ) (b : Bool) : Pass p s (s.scan e p k i b) := by
  unfold Sys.scan
  split
  case isTrue hi =>
    dsimp only
    split_ifs with hq
    · exact .wake hq.1 _
    · exact .setPc _
  case isFalse hi => exact .write (absurd rfl) rfl (.inl rfl) rfl (absurd rfl)

theorem pass_killScan (pid : Int32) (i : ℕ) : Pass p s (s.killScan p pid i) := by
  unfold Sys.killScan
  split
  case isTrue hi =>
    dsimp only
    split_ifs with hq
    · refine Pass.trans ?_ (.setPc _)
      exact .write (fun _ => rfl) rfl (.inl rfl) rfl fun _ => rfl
    · exact .setPc _
  case isFalse hi => exact .setPc _

theorem pass_killWake (q : Fin n) : Pass p s (s.killWake p q) := by
  unfold Sys.killWake
  split_ifs with hq
  · exact .wake hq _
  · exact .setPc _

/-- Where a pass of the loop of `wakeup1` leaves process `p`. -/
theorem scan_pc [DecidableEq K] (k : K) (i : ℕ) (b : Bool) :
    ((s.scan e p k i b).thread p).pc =
      if i < n then .scan k (i + 1) b else if b ∧ e.ptable then .crit else .wakeRelease b := by
  unfold Sys.scan
  split
  case isTrue hi =>
    dsimp only
    split_ifs <;> simp
  case isFalse hi =>
    simp

theorem scan_woke [DecidableEq K] (k : K) (i : ℕ) (b : Bool) :
    ((s.scan e p k i b).thread p).woke =
      ((s.thread p).woke || (decide (n ≤ i) && (b && k = e.chan))) := by
  unfold Sys.scan
  split
  case isTrue hi =>
    have hi' : ¬ n ≤ i := by omega
    dsimp only
    split_ifs
    · by_cases hq : p = ⟨i, hi⟩ <;> simp [hi', hq]
    · simp [hi']
  case isFalse hi =>
    have hi' : n ≤ i := by omega
    simp [hi']

/-- The process that the loop of `wakeup1(k)` has passed does not sleep on `k`. -/
theorem scan_awake [DecidableEq K] (k : K) (q : Fin n) (b : Bool) :
    ¬ (((s.scan e p k q b).thread q).state = .sleeping ∧
      ((s.scan e p k q b).thread q).chan = some k) := by
  unfold Sys.scan
  rw [dif_pos q.isLt]
  dsimp only
  split_ifs with hq
  · by_cases hqp : q = p
    · simp [hqp]
    · simp [hqp]
  · by_cases hqp : q = p
    · subst hqp
      simpa using hq
    · simpa [hqp] using hq

/-- Where a pass of the loop of `kill` leaves process `p`. -/
theorem killScan_pc (pid : Int32) (i : ℕ) :
    ((s.killScan p pid i).thread p).pc = .killScan pid (i + 1) ∨
      (∃ q, ((s.killScan p pid i).thread p).pc = .killWake q) ∨
      ((s.killScan p pid i).thread p).pc = .killRelease := by
  unfold Sys.killScan
  split
  case isTrue hi =>
    dsimp only
    split_ifs with hq
    · exact .inr (.inl ⟨⟨i, hi⟩, by simp⟩)
    · exact .inl (by simp)
  case isFalse hi => exact .inr (.inr (by simp))

theorem killScan_woke (pid : Int32) (i : ℕ) :
    ((s.killScan p pid i).thread p).woke = (s.thread p).woke := by
  unfold Sys.killScan
  split
  case isTrue hi =>
    dsimp only
    split_ifs
    · by_cases hq : p = ⟨i, hi⟩ <;> simp [hq]
    · simp
  case isFalse hi => simp

theorem killWake_woke (q : Fin n) : ((s.killWake p q).thread p).woke = (s.thread p).woke := by
  unfold Sys.killWake
  split_ifs
  · by_cases hq : p = q <;> simp [hq]
  · simp

theorem killWake_pc (q : Fin n) : ((s.killWake p q).thread p).pc = .killRelease := by
  unfold Sys.killWake
  split_ifs <;> simp

end Loops

/-! ### Who holds which lock -/

namespace Pc

variable {n : ℕ} {K : Type}

/-- A process at this statement holds `ptable.lock`; `same` says whether that is `lk`. -/
def holdsPtable (same : Bool) : Pc n K → Bool
  | .crit => same
  | .sleepUnlock _ | .setChan _ | .setState _ | .sched _ | .clearChan | .sleepRelease | .scan _ _ _
  | .wakeRelease _ | .killScan _ _ | .killWake _ | .killRelease | .yieldSet | .yieldRelease => true
  | _ => false

/-- A process at this statement is in a critical section of `lk` that it has not begun to
leave. -/
def inCrit : Pc n K → Bool
  | .crit => true
  | .wakeLock _ b | .scan _ _ b | .wakeRelease b => b
  | _ => false

/-- A process at this statement holds `lk`, where that is not `ptable.lock`. -/
def holdsLk : Pc n K → Bool
  | .crit | .sleepLock _ | .sleepUnlock _ => true
  | .wakeLock _ b | .scan _ _ b | .wakeRelease b => b
  | _ => false

/-- The statements that are there when `lk` is, or is not, `ptable.lock`. -/
def legal (same : Bool) : Pc n K → Bool
  | .sleepLock _ | .sleepUnlock _ | .sleepRelease | .relock => !same
  | .wakeLock _ b | .wakeRelease b => !(b && same)
  | _ => true

theorem holdsLk_of_inCrit {pc : Pc n K} (h : pc.inCrit = true) : pc.holdsLk = true := by
  unfold inCrit at h
  split at h <;> simp_all [holdsLk]

theorem holdsPtable_of_inCrit {pc : Pc n K} (hl : pc.legal true = true) (h : pc.inCrit = true) :
    pc.holdsPtable true = true := by
  unfold inCrit at h
  split at h <;> simp_all [holdsPtable, legal]

end Pc

section Locks

variable {n : ℕ} {C K D : Type} {e : Setup K D}

/-- The locks are with those whose statements say so. -/
structure LockInv (e : Setup K D) (s : Sys n C K D) : Prop where
  legal : ∀ p, (s.thread p).pc.legal e.ptable = true
  ptable : ∀ p, (s.thread p).pc.holdsPtable e.ptable = true → s.shared.ptable = some (.proc p)
  lk : e.ptable = false → ∀ p, (s.thread p).pc.holdsLk = true → s.shared.lk = some p
  loop : ∀ c i, s.cpu c = .loop i → s.shared.ptable = some (.cpu c)

/-- What a statement of process `p` does to the locks. -/
structure LockStep (e : Setup K D) (p : Fin n) (sh sh' : Shared n C D)
    (t' : Thread n K) : Prop where
  legal : t'.pc.legal e.ptable = true
  ptable : t'.pc.holdsPtable e.ptable = true → sh'.ptable = some (.proc p)
  lk : e.ptable = false → t'.pc.holdsLk = true → sh'.lk = some p
  ptable_eq : sh'.ptable = sh.ptable ∨ sh.ptable = none ∨ sh.ptable = some (.proc p)
  lk_eq : e.ptable = true ∨ sh'.lk = sh.lk ∨ sh.lk = none ∨ sh.lk = some p

theorem lockStep_acquirePtable {p : Fin n} {sh : Shared n C D} {t : Thread n K} {pc : Pc n K}
    {r : Shared n C D × Thread n K} (h : acquirePtable p sh t pc = some r)
    (hlegal : pc.legal e.ptable = true)
    (hlk : e.ptable = false → pc.holdsLk = true → sh.lk = some p) : LockStep e p sh r.1 r.2 := by
  unfold acquirePtable at h
  split_ifs at h with hfree
  obtain rfl := Option.some.inj h
  exact ⟨hlegal, fun _ => rfl, hlk, .inr (.inl (by simpa using hfree)), .inr (.inl rfl)⟩

theorem lockStep_acquireLk {p : Fin n} {sh : Shared n C D} {t : Thread n K}
    {r : Shared n C D × Thread n K} (h : acquireLk e p sh t = some r) :
      LockStep e p sh r.1 r.2 := by
  unfold acquireLk at h
  split_ifs at h with hsame hfree
  · exact lockStep_acquirePtable h rfl (by simp [hsame])
  · obtain rfl := Option.some.inj h
    refine ⟨rfl, fun hp => ?_, fun _ _ => rfl, .inl rfl, .inr (.inr (.inl (by simpa using hfree)))⟩
    simp [Pc.holdsPtable, hsame] at hp

/-- The statements of a process keep the locks in order. -/
theorem Thread.next_locks {p : Fin n} {sh : Shared n C D} {t : Thread n K} {a : Action K D}
    {r : Shared n C D × Thread n K} (h : t.next e p sh a = some r)
    (hlegal : t.pc.legal e.ptable = true)
    (hpt : t.pc.holdsPtable e.ptable = true → sh.ptable = some (.proc p))
    (hlk : e.ptable = false → t.pc.holdsLk = true → sh.lk = some p) : LockStep e p sh r.1 r.2 := by
  unfold Thread.next at h
  split at h
  case h_1 => exact lockStep_acquireLk h
  case h_15 => exact lockStep_acquireLk h
  case h_9 | h_16 | h_18 | h_20 =>
    exact lockStep_acquirePtable h (by simp_all [Pc.legal]) (by simp_all [Pc.holdsLk])
  all_goals cases h
  case h_17.refl b hpc =>
    constructor <;> cases b <;> simp_all [Pc.legal, Pc.holdsPtable, Pc.holdsLk]
  all_goals constructor
  all_goals
    cases hsame : e.ptable <;> simp_all [Pc.legal, Pc.holdsPtable, Pc.holdsLk, releaseLk]

namespace LockInv

variable {s s' : Sys n C K D} {p q : Fin n} {c : C}

/-- Process `p` makes a step, and the other processes stay where they are. -/
theorem move (h : LockInv e s) (hcpu : s'.cpu = s.cpu)
    (hstep : LockStep e p s.shared s'.shared (s'.thread p))
    (hother : ∀ q, q ≠ p → (s'.thread q).pc = (s.thread q).pc) : LockInv e s' := by
  refine ⟨fun q => ?_, fun q hq => ?_, fun hsame q hq => ?_, fun c i hc => ?_⟩
  · by_cases hqp : q = p
    · exact hqp ▸ hstep.legal
    · rw [hother q hqp]
      exact h.legal q
  · by_cases hqp : q = p
    · subst hqp
      exact hstep.ptable hq
    · rw [hother q hqp] at hq
      have hpt := h.ptable q hq
      rcases hstep.ptable_eq with heq | heq | heq
      · exact heq.trans hpt
      · simp [hpt] at heq
      · simp [hpt, hqp] at heq
  · by_cases hqp : q = p
    · subst hqp
      exact hstep.lk hsame hq
    · rw [hother q hqp] at hq
      have hlk := h.lk hsame q hq
      rcases hstep.lk_eq with heq | heq | heq | heq
      · simp [hsame] at heq
      · exact heq.trans hlk
      · simp [hlk] at heq
      · simp [hlk, hqp] at heq
  · rw [hcpu] at hc
    have hpt := h.loop c i hc
    rcases hstep.ptable_eq with heq | heq | heq
    · exact heq.trans hpt
    · simp [hpt] at heq
    · simp [hpt] at heq

theorem holder_of_inCrit (h : LockInv e s) (hp : (s.thread p).pc.inCrit = true) :
    e.holder s.shared = some (.proc p) := by
  unfold Setup.holder
  split_ifs with hsame
  · have hl := h.legal p
    rw [hsame] at hl
    exact h.ptable p (hsame ▸ Pc.holdsPtable_of_inCrit hl hp)
  · rw [h.lk (by simpa using hsame) p (Pc.holdsLk_of_inCrit hp), Option.map_some]

theorem eq_of_inCrit (h : LockInv e s) (hp : (s.thread p).pc.inCrit = true)
    (hq : (s.thread q).pc.inCrit = true) : p = q := by
  have hpq := (h.holder_of_inCrit hp).symm.trans (h.holder_of_inCrit hq)
  simpa using hpq

/-- While somebody is in a critical section, nobody is about to leave one to sleep. -/
theorem not_sleepLock (h : LockInv e s) (hp : (s.thread p).pc = .crit) {k : K} :
    ¬ ((s.thread q).pc = .sleepLock k ∨ (s.thread q).pc = .sleepUnlock k) := by
  intro hq
  cases hsame : e.ptable with
  | true =>
    have hl := h.legal q
    rcases hq with hq | hq <;> simp [hq, hsame, Pc.legal] at hl
  | false =>
    have hlp := h.lk hsame p (by rw [hp, Pc.holdsLk])
    have hlq := h.lk hsame q (by rcases hq with hq | hq <;> rw [hq, Pc.holdsLk])
    obtain rfl : p = q := by simpa using hlp.symm.trans hlq
    simp [hp] at hq

theorem eq_of_holdsPtable (h : LockInv e s) (hp : (s.thread p).pc.holdsPtable e.ptable = true)
    (hq : (s.thread q).pc.holdsPtable e.ptable = true) : p = q := by
  have hpq := (h.ptable p hp).symm.trans (h.ptable q hq)
  simpa using hpq

/-- The process that runs a loop over the table goes on in it. -/
theorem pass (h : LockInv e s) (hpass : Pass p s s')
    (hp : (s.thread p).pc.holdsPtable e.ptable = true)
    (hlegal : (s'.thread p).pc.legal e.ptable = true)
    (hlk : (s'.thread p).pc.holdsLk = true → (s.thread p).pc.holdsLk = true) : LockInv e s' := by
  refine h.move hpass.cpu ⟨hlegal, fun _ => ?_, fun hsame hl => ?_, .inl (by rw [hpass.shared]),
    .inr (.inl (by rw [hpass.shared]))⟩ hpass.pc
  · rw [hpass.shared]
    exact h.ptable p hp
  · rw [hpass.shared]
    exact h.lk hsame p (hlk hl)

theorem scan [DecidableEq K] (h : LockInv e s) {k : K} {i : ℕ} {b : Bool}
    (hpc : (s.thread p).pc = .scan k i b) : LockInv e (s.scan e p k i b) := by
  refine h.pass (pass_scan k i b) (by rw [hpc, Pc.holdsPtable]) ?_ ?_
  · rw [scan_pc]
    cases b <;> cases hsame : e.ptable <;> split_ifs <;> simp_all [Pc.legal]
  · rw [scan_pc, hpc]
    cases b <;> split_ifs <;> simp_all [Pc.holdsLk]

theorem killScan (h : LockInv e s) {pid : Int32} {i : ℕ} (hpc : (s.thread p).pc = .killScan pid i) :
    LockInv e (s.killScan p pid i) := by
  refine h.pass (pass_killScan pid i) (by rw [hpc, Pc.holdsPtable]) ?_ ?_
  all_goals
    rcases killScan_pc (s := s) (p := p) pid i with hpc' | ⟨q, hpc'⟩ | hpc' <;>
      simp [hpc', Pc.legal, Pc.holdsLk]

theorem killWake (h : LockInv e s) (hpc : (s.thread p).pc = .killWake q) :
    LockInv e (s.killWake p q) := by
  refine h.pass (pass_killWake q) (by rw [hpc, Pc.holdsPtable]) ?_ ?_
  all_goals simp [killWake_pc, Pc.legal, Pc.holdsLk]

variable [DecidableEq C]

/-- `ptable.lock` changes hands: nobody but its holder of before, `old`, knew of it. -/
theorem pass_ptable (h : LockInv e s) {old : Option (Holder n C)} (hold : s.shared.ptable = old)
    {th : Fin n → Thread n K} {m : Mode n} {new : Option (Holder n C)}
    (hpc : ∀ q, (th q).pc = (s.thread q).pc ∨
      (th q).pc.legal e.ptable = true ∧ (th q).pc.holdsLk = false ∧
        ((th q).pc.holdsPtable e.ptable = true → new = some (.proc q)))
    (hother : ∀ q, (th q).pc = (s.thread q).pc → (th q).pc.holdsPtable e.ptable = true →
      old ≠ some (.proc q))
    (hcpu : ∀ c', c' ≠ c → old ≠ some (.cpu c')) (hm : ∀ i, m = .loop i → new = some (.cpu c)) :
    LockInv e ⟨{ s.shared with ptable := new }, th, Function.update s.cpu c m⟩ := by
  refine ⟨fun q => ?_, fun q hq => ?_, fun hsame q hq => ?_, fun c' i hc => ?_⟩
  · rcases hpc q with heq | ⟨hl, -, -⟩
    · rw [heq]
      exact h.legal q
    · exact hl
  · rcases hpc q with heq | ⟨-, -, hnew⟩
    · exact absurd (hold.symm.trans (h.ptable q (heq ▸ hq))) (hother q heq hq)
    · exact hnew hq
  · rcases hpc q with heq | ⟨-, hlk, -⟩
    · exact h.lk hsame q (heq ▸ hq)
    · simp [hlk] at hq
  · by_cases hcc : c' = c
    · subst hcc
      exact hm i (by simpa using hc)
    · dsimp only at hc
      rw [Function.update_of_ne hcc] at hc
      exact absurd (hold.symm.trans (h.loop c' i hc)) (hcpu c' hcc)

/-- `ptable.lock` passes from process `p` to the scheduler of its CPU. -/
theorem sched (h : LockInv e s) {r : Resume} (hpc : (s.thread p).pc = .sched r) :
    LockInv e (s.sched c p r) := by
  have hpt := h.ptable p (by rw [hpc, Pc.holdsPtable])
  refine h.pass_ptable hpt (fun q => ?_) (fun q heq hq => ?_) (by simp) fun i _ => rfl
  · by_cases hqp : q = p
    · exact .inr (by simp [hqp, Pc.legal, Pc.holdsLk, Pc.holdsPtable])
    · exact .inl (by simp [hqp])
  · rintro hpq
    obtain rfl : p = q := by simpa using hpq
    simp [Pc.holdsPtable] at hq

/-- The scheduler goes on in its loop, passes `ptable.lock` to the process it picks, or gives
the lock back. -/
theorem look (h : LockInv e s) {i : ℕ} (hc : s.cpu c = .loop i) (hlook : s.look c i = some s') :
    LockInv e s' := by
  have hpt := h.loop c i hc
  have hcpu : ∀ c', c' ≠ c → some (Holder.cpu c : Holder n C) ≠ some (.cpu c') :=
    fun c' hc' => by simpa using Ne.symm hc'
  unfold Sys.look at hlook
  split at hlook
  case isTrue hi =>
    dsimp only at hlook
    split_ifs at hlook with hst
    · split at hlook
      case h_1 r hpc =>
        obtain rfl := Option.some.inj hlook
        refine h.pass_ptable hpt (fun q => ?_) (by simp) hcpu (by simp)
        by_cases hqp : q = ⟨i, hi⟩
        · refine .inr ?_
          cases r <;> simp [hqp, Pc.legal, Pc.holdsLk]
        · exact .inl (by simp [hqp])
      case h_2 => cases hlook
    · obtain rfl := Option.some.inj hlook
      refine ⟨h.legal, h.ptable, h.lk, fun c' j hc' => ?_⟩
      by_cases hcc : c' = c
      · exact hcc ▸ hpt
      · exact h.loop c' j (by simpa [hcc] using hc')
  case isFalse hi =>
    obtain rfl := Option.some.inj hlook
    exact h.pass_ptable hpt (fun q => .inl rfl) (by simp) hcpu (by simp)

/-- Every step keeps the locks in order. -/
theorem next [DecidableEq K] (h : LockInv e s) {l : C × Action K D} (hst : s.next e l = some s') :
    LockInv e s' := by
  obtain ⟨c, a⟩ := l
  unfold Sys.next at hst
  dsimp only at hst
  split at hst
  case h_1 hc =>
    split_ifs at hst with hfree
    obtain rfl := Option.some.inj hst
    exact h.pass_ptable (by simpa using hfree) (fun q => .inl rfl) (by simp)
      (by simp) fun _ _ => rfl
  case h_2 i hc => exact h.look hc hst
  case h_3 p hc =>
    split at hst
    case h_1 k i b hpc => exact Option.some.inj hst ▸ h.scan hpc
    case h_2 pid i hpc => exact Option.some.inj hst ▸ h.killScan hpc
    case h_3 q hpc => exact Option.some.inj hst ▸ h.killWake hpc
    case h_4 r hpc => exact Option.some.inj hst ▸ h.sched hpc
    case h_5 =>
      obtain ⟨r, hr, rfl⟩ := Option.map_eq_some_iff.mp hst
      have hlocks := Thread.next_locks hr (h.legal p) (h.ptable p) fun hs => h.lk hs p
      exact h.move (p := p) rfl (by simpa using hlocks) fun q hq => by simp [hq]

omit [DecidableEq C] in
theorem start (live : Fin n → Bool) (pid : Fin n → Int32) (d : D) :
    LockInv e (start live pid d : Sys n C K D) := by
  refine ⟨fun p => rfl, fun p hp => ?_, fun _ p hp => ?_, fun c i hc => ?_⟩
  · simp [Sleep.start, Pc.holdsPtable] at hp
  · simp [Sleep.start, Pc.holdsLk] at hp
  · simp [Sleep.start] at hc

end LockInv

end Locks

end Xv6.Sleep
