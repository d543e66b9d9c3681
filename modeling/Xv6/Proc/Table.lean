import Mathlib.Order.Fin.Basic
import Xv6.Lib.Transition
import Xv6.Param

/-!
# The process table

`proc.c`: the table of processes, the schedulers of any number of CPUs, and the calls that
change the state of a process. A CPU runs its scheduler or a process; `ptable.lock` is held
by a CPU and passes with it from the process that gives up the CPU to the scheduler and on
to the process that the scheduler picks. A critical section of `ptable.lock` in which no
such switch happens is one step. What `fork` writes without the lock is one step for each
statement that another CPU could tell apart, and its two allocations succeed or fail as the
label says.

Beside the kernel's own state the system keeps a history: pages are named by the number of
their allocation with a count of how often each was freed, every occupant of a slot has a
serial number, and forks, exits, waits and kills are logged.
-/

namespace Xv6.Ptable

open Lib

/-- `enum procstate`. -/
inductive ProcState
  | unused
  | embryo
  | sleeping
  | runnable
  | running
  | zombie
  deriving DecidableEq

/-- A slot of the process table, as a `struct proc *` refers to it. -/
abbrev Slot := Fin NPROC

/-- The slot of the first process. -/
def initproc : Slot := ⟨0, by decide⟩

/-- What processes sleep on: the address of a process, or another address in the kernel. -/
inductive Chan (K : Type)
  | proc (p : Slot)
  | other (k : K)
  deriving DecidableEq

/-- The fields of `struct proc` that the table operations use. -/
structure Proc (K : Type) where
  state : ProcState
  pid : Int32
  parent : Option Slot
  chan : Option (Chan K)
  killed : Bool
  kstack : Option ℕ
  pgdir : Option ℕ

/-- `ptable.proc`. -/
abbrev Table (K : Type) := Slot → Proc K

section Table

variable {K : Type} [DecidableEq K]

/-- Make every process that sleeps on `chan` runnable. -/
def wakeup1 (t : Table K) (chan : Option (Chan K)) : Table K := fun p =>
  if (t p).state = .sleeping ∧ (t p).chan = chan then { t p with state := .runnable } else t p

/-- The loop of `kill` over the table: the first slot with this pid, and the table after. -/
def killProc (t : Table K) (pid : Int32) : Option Slot × Table K :=
  match (List.finRange NPROC).find? fun p => (t p).pid = pid with
  | none => (none, t)
  | some p =>
    (some p, Function.update t p { t p with
      killed := true
      state := if (t p).state = .sleeping then .runnable else (t p).state })

/-- One pass of the loop of `exit` that gives the children of `p` to `initproc`. -/
def adopt (p : Slot) (t : Table K) (q : Slot) : Table K :=
  if (t q).parent = some p then
    let t := Function.update t q { t q with parent := some initproc }
    if (t q).state = .zombie then wakeup1 t (some (.proc initproc)) else t
  else t

/-- The loop of `exit` over the table. -/
def reparent (p : Slot) (t : Table K) : Table K := (List.finRange NPROC).foldl (adopt p) t

/-- What the critical section of `exit` does to the table. -/
def exitProc (p : Slot) (t : Table K) : Table K :=
  let t := wakeup1 t ((t p).parent.map .proc)
  let t := reparent p t
  Function.update t p { t p with state := .zombie }

/-- The scan of `wait`: a child to reap, or whether there are children at all. -/
def waitFor (p : Slot) (t : Table K) : Option Slot × Bool :=
  ((List.finRange NPROC).find? fun q => (t q).parent = some p ∧ (t q).state = .zombie,
    (List.finRange NPROC).any fun q => (t q).parent = some p)

/-- What `wait` does to the slot of the child it reaps. -/
def reap (x : Proc K) : Proc K :=
  { x with kstack := none, pid := 0, parent := none, killed := false, state := .unused }

/-- The scan of `allocproc`. -/
def findUnused (t : Table K) : Option Slot :=
  (List.finRange NPROC).find? fun p => (t p).state = .unused

section Lemmas

variable {t : Table K} {p q : Slot} {chan : Option (Chan K)} {pid : Int32}

theorem wakeup1_apply (t : Table K) (chan : Option (Chan K)) (p : Slot) :
    wakeup1 t chan p = { t p with
      state := if (t p).state = .sleeping ∧
        (t p).chan = chan then .runnable else (t p).state } := by
  unfold wakeup1
  split_ifs <;> rfl

omit [DecidableEq K] in
theorem killProc_eq_none (h : (killProc t pid).1 = none) :
    (∀ p, (t p).pid ≠ pid) ∧ (killProc t pid).2 = t := by
  unfold killProc at h ⊢
  split
  case h_1 hnone => exact ⟨fun p => by simpa using List.find?_eq_none.mp hnone p, rfl⟩
  case h_2 p hsome => simp [hsome] at h

omit [DecidableEq K] in
theorem killProc_eq_some (h : (killProc t pid).1 = some p) :
    (t p).pid = pid ∧ (killProc t pid).2 = Function.update t p { t p with
      killed := true
      state := if (t p).state = .sleeping then .runnable else (t p).state } := by
  unfold killProc at h ⊢
  split
  case h_1 hnone => simp [hnone] at h
  case h_2 q hsome =>
    simp only [hsome, Option.some.injEq] at h
    subst h
    exact ⟨by simpa using List.find?_some hsome, rfl⟩

omit [DecidableEq K] in
theorem killProc_apply (t : Table K) (pid : Int32) (p : Slot) :
    (killProc t pid).2 p = { t p with
      killed := if (killProc t pid).1 = some p then true else (t p).killed
      state := if (killProc t pid).1 = some p ∧ (t p).state = .sleeping then .runnable
        else (t p).state } := by
  cases hk : (killProc t pid).1 with
  | none => simp [(killProc_eq_none hk).2]
  | some q =>
    rw [(killProc_eq_some hk).2]
    by_cases hq : p = q
    · subst hq
      simp
    · simp [hq, Ne.symm hq]

/-- What a pass of the loop of `exit` does to each slot. -/
theorem adopt_apply (p : Slot) (t : Table K) (r q : Slot) :
    adopt p t r q = { t q with
      parent := if q = r ∧ (t q).parent = some p then some initproc else (t q).parent
      state :=
        if ((t r).parent = some p ∧ (t r).state = .zombie) ∧ (t q).state = .sleeping ∧
          (t q).chan = some (.proc initproc) then .runnable else (t q).state } := by
  unfold adopt
  by_cases hr : (t r).parent = some p
  · rw [if_pos hr]
    by_cases hqr : q = r
    · subst hqr
      by_cases hz : (t q).state = .zombie
      · simp [hr, hz, wakeup1_apply]
      · simp [hr, hz]
    · by_cases hz : (t r).state = .zombie
      · simp [hr, hz, wakeup1_apply, hqr]
      · simp [hr, hz, hqr]
  · have hq : ¬ (q = r ∧ (t q).parent = some p) := by
      rintro ⟨rfl, hq⟩
      exact hr hq
    simp [hr, hq]

omit [DecidableEq K] in
/-- Two wakeups of the same sleeper, for one reason or another. -/
theorem wake_twice {A B W : Prop} [Decidable A] [Decidable B] [Decidable W] (st : ProcState) :
    (if B ∧ (if A ∧ st = .sleeping ∧ W then .runnable else st) = ProcState.sleeping ∧
      W then .runnable
      else if A ∧ st = .sleeping ∧ W then .runnable else st) =
    if (A ∨ B) ∧ st = .sleeping ∧ W then ProcState.runnable else st := by
  by_cases hS : st = .sleeping ∧ W
  · obtain ⟨rfl, hW⟩ := hS
    by_cases hA : A <;> simp [hA, hW]
  · have hA : (if A ∧ st = .sleeping ∧ W then .runnable else st) = st := if_neg fun h => hS h.2
    rw [hA, if_neg fun h => hS h.2, if_neg fun h => hS h.2]

/-- The loop of `exit` over any list of slots. -/
theorem foldl_adopt_apply (p : Slot) {l : List Slot} (hl : l.Nodup) (t : Table K) (q : Slot) :
    l.foldl (adopt p) t q = { t q with
      parent := if q ∈ l ∧ (t q).parent = some p then some initproc else (t q).parent
      state :=
        if (∃ r ∈ l, (t r).parent = some p ∧ (t r).state = .zombie) ∧ (t q).state = .sleeping ∧
          (t q).chan = some (.proc initproc) then .runnable else (t q).state } := by
  induction l generalizing t with
  | nil => simp
  | cons r l ih =>
    obtain ⟨hr, hl⟩ := List.nodup_cons.mp hl
    rw [List.foldl_cons, ih hl, adopt_apply]
    -- the first pass leaves alone what the later passes look at
    have hlater : (∃ x ∈ l, (adopt p t r x).parent = some p ∧ (adopt p t r x).state = .zombie) ↔
        ∃ x ∈ l, (t x).parent = some p ∧ (t x).state = .zombie := by
      refine exists_congr fun x => and_congr_right fun hx => ?_
      have hxr : x ≠ r := fun h => hr (h ▸ hx)
      rw [adopt_apply]
      simp only [hxr, false_and, if_false]
      refine and_congr_right fun _ => ?_
      split_ifs with h
      · simp [h.2.1]
      · rfl
    simp only [hlater, List.mem_cons, exists_eq_or_imp, wake_twice]
    by_cases hqr : q = r
    · subst hqr
      simp [hr]
    · simp [hqr]

/-- What `exit` of `p` wakes: sleepers on its parent, and `initproc` if it gets a zombie. -/
def ExitWakes (p : Slot) (t : Table K) (q : Slot) : Prop :=
  (t q).state = .sleeping ∧ ((t q).chan = (t p).parent.map .proc ∨
    (t q).chan = some (.proc initproc) ∧ ∃ r, (t r).parent = some p ∧ (t r).state = .zombie)

instance (p : Slot) (t : Table K) (q : Slot) : Decidable (ExitWakes p t q) :=
  inferInstanceAs (Decidable (_ ∧ _))

theorem exitProc_apply (p : Slot) (t : Table K) (q : Slot) :
    exitProc p t q = { t q with
      parent := if (t q).parent = some p then some initproc else (t q).parent
      state := if q = p then .zombie else if ExitWakes p t q then .runnable else (t q).state } := by
  have hall : ∀ q, reparent p (wakeup1 t ((t p).parent.map .proc)) q = { t q with
      parent := if (t q).parent = some p then some initproc else (t q).parent
      state := if ExitWakes p t q then .runnable else (t q).state } := by
    intro q
    have hz : (∃ r, (t r).parent = some p ∧
      (wakeup1 t ((t p).parent.map .proc) r).state = .zombie) ↔
        ∃ r, (t r).parent = some p ∧ (t r).state = .zombie := by
      refine exists_congr fun r => and_congr_right fun _ => ?_
      rw [wakeup1_apply]
      split_ifs with h
      · simp [h.1]
      · rfl
    rw [reparent, foldl_adopt_apply p (List.nodup_finRange _)]
    simp only [List.mem_finRange, true_and, wakeup1_apply] at hz ⊢
    simp only [hz, ExitWakes]
    by_cases hs : (t q).state = .sleeping
    · by_cases hc : (t q).chan = (t p).parent.map .proc
      · simp [hs, hc]
      · simp [hs, hc, and_comm]
    · simp [hs]
  unfold exitProc
  by_cases hq : q = p
  · subst hq
    simp [hall]
  · simp [hq, hall]

/-- A process is as it was, or it has been woken. -/
def ProcState.Wakes (st st' : ProcState) : Prop := st' = st ∨ st = .sleeping ∧ st' = .runnable

theorem ProcState.wakes_ite {W : Prop} [Decidable W] {st : ProcState} (hW : W → st = .sleeping) :
    st.Wakes (if W then .runnable else st) := by
  split_ifs with hw
  · exact .inr ⟨hW hw, rfl⟩
  · exact .inl rfl

theorem ProcState.Wakes.trans {st st' st'' : ProcState} (h : st.Wakes st') (h' : st'.Wakes st'') :
    st.Wakes st'' := by
  rcases h with rfl | ⟨rfl, rfl⟩
  · exact h'
  · rcases h' with rfl | ⟨h', -⟩
    · exact .inr ⟨rfl, rfl⟩
    · cases h'

theorem wakeup1_wakes (t : Table K) (chan : Option (Chan K)) (p : Slot) :
    (t p).state.Wakes (wakeup1 t chan p).state := by
  rw [wakeup1_apply]
  exact ProcState.wakes_ite fun h => h.1

omit [DecidableEq K] in
theorem killProc_wakes (t : Table K) (pid : Int32) (p : Slot) :
    (t p).state.Wakes ((killProc t pid).2 p).state := by
  rw [killProc_apply]
  exact ProcState.wakes_ite fun h => h.2

theorem exitProc_wakes (t : Table K) (hq : q ≠ p) : (t q).state.Wakes (exitProc p t q).state := by
  rw [exitProc_apply]
  simp only [if_neg hq]
  exact ProcState.wakes_ite fun h => h.1

omit [DecidableEq K] in
theorem waitFor_eq_some (h : (waitFor p t).1 = some q) :
    (t q).parent = some p ∧ (t q).state = .zombie := by
  simpa [waitFor] using List.find?_some h

omit [DecidableEq K] in
theorem waitFor_eq_none (h : (waitFor p t).1 = none) (hq : (t q).parent = some p) :
    (t q).state ≠ .zombie := by
  have := List.find?_eq_none.mp h q (List.mem_finRange q)
  simp only [decide_eq_true_eq] at this
  exact fun hz => this ⟨hq, hz⟩

omit [DecidableEq K] in
theorem findUnused_eq_some (h : findUnused t = some p) : (t p).state = .unused := by
  simpa using List.find?_some h

end Lemmas

end Table

/-! ### The system -/

/-- How far a process has got in `fork`; `np` is the slot that `allocproc` found. -/
inductive Op
  /-- Not in `fork`. -/
  | none
  /-- Next, `p->kstack = kalloc()`. -/
  | stack (np : Slot)
  /-- There was no page: next, `p->state = UNUSED` and return. -/
  | noStack (np : Slot)
  /-- Next, `np->pgdir = copyuvm(curproc->pgdir, curproc->sz)`. -/
  | copy (np : Slot)
  /-- That failed: next, `kfree(np->kstack); np->kstack = 0`. -/
  | noCopy (np : Slot)
  /-- Next, `np->state = UNUSED` and return. -/
  | undo (np : Slot)
  /-- Next, `np->parent = curproc` and the other fields. -/
  | fill (np : Slot)
  /-- Next, `np->state = RUNNABLE` under the lock. -/
  | ready (np : Slot)
  deriving DecidableEq

/-- Where a process that is not on a CPU continues when it is switched to. -/
inductive Resume
  | forkret
  | yield
  | sleep
  | wait
  | exit
  deriving DecidableEq

/-- What a CPU is doing. -/
inductive Mode
  /-- In its scheduler, about to acquire `ptable.lock`. -/
  | idle
  /-- In the loop of the scheduler over the table, with the lock. -/
  | scan (i : ℕ)
  /-- Back in the scheduler from process `p`, with the lock. -/
  | back (p : Slot)
  /-- Switched to process `p`, which has the lock and has not run on yet. -/
  | enter (p : Slot)
  /-- Running process `p` in the loop of `wait`, with the lock. -/
  | locked (p : Slot)
  /-- Running process `p`, without the lock. -/
  | run (p : Slot)
  deriving DecidableEq

/-- A CPU: `c->proc`, and what it is doing. -/
structure Cpu where
  proc : Option Slot
  mode : Mode
  deriving DecidableEq

/-- What the history records, by serial numbers of processes. -/
inductive Event
  | alloc (child : ℕ)
  | fork (parent child kstack pgdir : ℕ)
  | exit (p : ℕ)
  | wait (parent child : ℕ)
  | kill (pid : Int32)
  deriving DecidableEq

/-- The state of the system with CPUs `C` and kernel addresses `K`. -/
structure Sys (C K : Type) where
  lock : Option C
  proc : Table K
  nextpid : Int32
  cpu : C → Cpu
  op : Slot → Op
  resume : Slot → Resume
  /-- How many pages have been allocated, and how often each of them was freed. -/
  pages : ℕ
  frees : ℕ → ℕ
  /-- The serial number of the occupant of each slot, and the next one. -/
  id : Slot → ℕ
  serial : ℕ
  /-- The history, oldest event first. -/
  log : List Event

/-- The panics of `switchuvm` and `exit`. -/
inductive Panic
  | noKstack
  | noPgdir
  | initExiting
  | zombieExit
  deriving DecidableEq

/-- What a CPU may do next. -/
inductive Action (K : Type)
  | acquire
  | look
  | clear
  | resume
  | yield
  | sleep (k : K)
  | wakeup (k : K)
  | kill (pid : Int32)
  | fork
  | forkStep (ok : Bool)
  | exit
  | wait
  | waitScan
  deriving DecidableEq

namespace Sys

variable {C K : Type} [DecidableEq C] (s : Sys C K)

/-- Assign to a slot of the table. -/
@[simps -fullyApplied]
def setProc (p : Slot) (x : Proc K) : Sys C K := { s with proc := Function.update s.proc p x }

/-- Assign to a CPU. -/
@[simps -fullyApplied]
def setCpu (c : C) (v : Cpu) : Sys C K := { s with cpu := Function.update s.cpu c v }

/-- Continue elsewhere on a CPU. -/
@[simps! -fullyApplied]
def setMode (c : C) (m : Mode) : Sys C K := s.setCpu c { s.cpu c with mode := m }

/-- Continue elsewhere in `fork`. -/
@[simps -fullyApplied]
def setOp (p : Slot) (o : Op) : Sys C K := { s with op := Function.update s.op p o }

/-- Take `ptable.lock`. -/
@[simps -fullyApplied]
def acquire (c : C) : Sys C K := { s with lock := some c }

/-- Give back `ptable.lock`. -/
@[simps -fullyApplied]
def release : Sys C K := { s with lock := none }

/-- Add to the history. -/
@[simps -fullyApplied]
def record (ev : Event) : Sys C K := { s with log := s.log ++ [ev] }

/-- Free a page. -/
@[simps -fullyApplied]
def kfree (k : Option ℕ) : Sys C K :=
  { s with frees := fun j => if k = some j then s.frees j + 1 else s.frees j }

/-- `sched`: process `p` on CPU `c` switches to the scheduler with the lock, to continue at
`r`. -/
@[simps! -fullyApplied]
def sched (c : C) (p : Slot) (r : Resume) : Sys C K :=
  ({ s with resume := Function.update s.resume p r }).acquire c |>.setMode c (.back p)

/-- One pass of the loop of the scheduler, or its end. -/
def look (c : C) (i : ℕ) : Outcome Panic (Sys C K) :=
  if h : i < NPROC then
    let p : Slot := ⟨i, h⟩
    if (s.proc p).state = .runnable then
      if (s.proc p).kstack = none then .panic .noKstack
      else if (s.proc p).pgdir = none then .panic .noPgdir
      else .ok ((s.setProc p { s.proc p with state := .running }).setCpu c ⟨some p, .enter p⟩)
    else .ok (s.setMode c (.scan (i + 1)))
  else .ok (s.release.setMode c .idle)

/-- Process `p` runs on after a switch to it. -/
def runOn (c : C) (p : Slot) : Outcome Panic (Sys C K) :=
  match s.resume p with
  | .forkret | .yield => .ok (s.release.setMode c (.run p))
  | .sleep => .ok ((s.setProc p { s.proc p with chan := none }).release.setMode c (.run p))
  | .wait => .ok ((s.setProc p { s.proc p with chan := none }).setMode c (.locked p))
  | .exit => .panic .zombieExit

/-- The critical section of `allocproc`, called by process `p`. -/
def allocproc (p : Slot) : Sys C K :=
  match findUnused s.proc with
  | none => s
  | some np =>
    { ((s.setProc np { s.proc np with state := .embryo, pid := s.nextpid }).setOp p
      (.stack np)).record
        (.alloc s.serial) with
      nextpid := s.nextpid + 1
      id := Function.update s.id np s.serial
      serial := s.serial + 1 }

/-- The next statement of process `p` in `fork`; `ok` says whether an allocation succeeds. -/
def forkStep (p : Slot) (ok : Bool) : Outcome Panic (Sys C K) :=
  match s.op p with
  | .none => .blocked
  | .stack np =>
    if ok then
      .ok ({ s.setProc np { s.proc np with kstack := some s.pages } with
        pages := s.pages + 1
        resume := Function.update s.resume np .forkret }.setOp p (.copy np))
    else .ok ((s.setProc np { s.proc np with kstack := none }).setOp p (.noStack np))
  | .noStack np => .ok ((s.setProc np { s.proc np with state := .unused }).setOp p .none)
  | .copy np =>
    if ok then
      .ok ({ s.setProc np { s.proc np with pgdir := some s.pages } with
        pages := s.pages + 1 }.setOp p (.fill np))
    else .ok ((s.setProc np { s.proc np with pgdir := none }).setOp p (.noCopy np))
  | .noCopy np =>
    .ok (((s.kfree (s.proc np).kstack).setProc np { s.proc np with kstack := none }).setOp p
      (.undo np))
  | .undo np => .ok ((s.setProc np { s.proc np with state := .unused }).setOp p .none)
  | .fill np => .ok ((s.setProc np { s.proc np with parent := some p }).setOp p (.ready np))
  | .ready np =>
    if s.lock = none then
      .ok (((s.setProc np { s.proc np with state := .runnable }).setOp p .none).record
        (.fork (s.id p) (s.id np) ((s.proc np).kstack.getD 0) ((s.proc np).pgdir.getD 0)))
    else .blocked

variable [DecidableEq K]

/-- One pass of the loop of `wait` by process `p`, with the lock. -/
def waitScan (c : C) (p : Slot) : Sys C K :=
  match (waitFor p s.proc).1 with
  | some q =>
    ((((s.kfree (s.proc q).kstack).kfree (s.proc q).pgdir).setProc q (reap (s.proc q))).record
      (.wait (s.id p) (s.id q))).release.setMode c (.run p)
  | none =>
    if (waitFor p s.proc).2 = false ∨ (s.proc p).killed = true then s.release.setMode c (.run p)
    else (s.setProc p { s.proc p with chan := some (.proc p), state := .sleeping }).sched c p .wait

/-- A call that process `p` on CPU `c` makes, with the lock free and outside `fork`. -/
def call (c : C) (p : Slot) : Action K → Outcome Panic (Sys C K)
  | .sleep k =>
    .ok ((s.setProc p { s.proc p with chan := some (.other k), state := .sleeping }).sched c p
      .sleep)
  | .kill pid => .ok ({ s with proc := (killProc s.proc pid).2 }.record (.kill pid))
  | .fork => .ok (s.allocproc p)
  | .exit =>
    if p = initproc then .panic .initExiting
    else .ok (({ s with proc := exitProc p s.proc }.record (.exit (s.id p))).sched c p .exit)
  | .wait => .ok ((s.acquire c).setMode c (.locked p))
  | _ => .blocked

/-- The steps of the system: CPU `c` does `a`. -/
def next (s : Sys C K) (l : C × Action K) : Outcome Panic (Sys C K) :=
  let c := l.1
  match l.2, (s.cpu c).mode with
  | .acquire, .idle =>
    if s.lock = none then .ok ((s.acquire c).setMode c (.scan 0)) else .blocked
  | .look, .scan i => s.look c i
  | .clear, .back p => .ok (s.setCpu c ⟨none, .scan (p + 1)⟩)
  | .resume, .enter p => s.runOn c p
  | .waitScan, .locked p => .ok (s.waitScan c p)
  -- an interrupt handler may call `wakeup` on a CPU that runs no process
  | .wakeup k, .idle | .wakeup k, .run _ =>
    if s.lock = none then .ok { s with proc := wakeup1 s.proc (some (.other k)) } else .blocked
  -- a timer interrupt may make a process yield anywhere outside the lock
  | .yield, .run p =>
    if s.lock = none then
      .ok ((s.setProc p { s.proc p with state := .runnable }).sched c p .yield)
    else .blocked
  | .forkStep ok, .run p => s.forkStep p ok
  | a, .run p => if s.lock = none ∧ s.op p = .none then s.call c p a else .blocked
  | _, _ => .blocked

/-- One step of the system. -/
def Step (s : Sys C K) (l : C × Action K) (t : Sys C K) : Prop := s.next l = .ok t

omit [DecidableEq C] [DecidableEq K] in
/-- The state after `userinit`, with the first process ready to run. -/
def boot : Sys C K where
  lock := none
  proc p :=
    if p = initproc then ⟨.runnable, 1, none, none, false, some 0, some 1⟩
    else ⟨.unused, 0, none, none, false, none, none⟩
  nextpid := 2
  cpu _ := ⟨none, .idle⟩
  op _ := .none
  resume _ := .forkret
  pages := 2
  frees _ := 0
  id _ := 0
  serial := 1
  log := []

/-! ### What a step does -/

/-- The ways in which CPU `c` can make a step. -/
inductive Trans (s : Sys C K) (c : C) : Action K → Sys C K → Prop
  | acquire (hm : (s.cpu c).mode = .idle) (hl : s.lock = none) :
      Trans s c .acquire ((s.acquire c).setMode c (.scan 0))
  | select {p : Slot} (hm : (s.cpu c).mode = .scan p) (hst : (s.proc p).state = .runnable) :
      Trans s c .look
        ((s.setProc p { s.proc p with state := .running }).setCpu c ⟨some p, .enter p⟩)
  | skip {p : Slot} (hm : (s.cpu c).mode = .scan p) (hst : (s.proc p).state ≠ .runnable) :
      Trans s c .look (s.setMode c (.scan (p + 1)))
  | done {i : ℕ} (hm : (s.cpu c).mode = .scan i) (hi : NPROC ≤ i) :
      Trans s c .look (s.release.setMode c .idle)
  | clear {p : Slot} (hm : (s.cpu c).mode = .back p) :
      Trans s c .clear (s.setCpu c ⟨none, .scan (p + 1)⟩)
  | runOn {p : Slot} (hm : (s.cpu c).mode = .enter p)
      (hr : s.resume p = .forkret ∨ s.resume p = .yield) :
      Trans s c .resume (s.release.setMode c (.run p))
  | wake {p : Slot} (hm : (s.cpu c).mode = .enter p) (hr : s.resume p = .sleep) :
      Trans s c .resume ((s.setProc p { s.proc p with chan := none }).release.setMode c (.run p))
  | waitOn {p : Slot} (hm : (s.cpu c).mode = .enter p) (hr : s.resume p = .wait) :
      Trans s c .resume ((s.setProc p { s.proc p with chan := none }).setMode c (.locked p))
  | yield {p : Slot} (hm : (s.cpu c).mode = .run p) (hl : s.lock = none) :
      Trans s c .yield ((s.setProc p { s.proc p with state := .runnable }).sched c p .yield)
  | sleep {p : Slot} (k : K) (hm : (s.cpu c).mode = .run p) (hl : s.lock = none)
      (ho : s.op p = .none) :
      Trans s c (.sleep k) ((s.setProc p
        { s.proc p with chan := some (.other k), state := .sleeping }).sched c p .sleep)
  | wakeup (k : K) (hl : s.lock = none) :
      Trans s c (.wakeup k) { s with proc := wakeup1 s.proc (some (.other k)) }
  | kill {p : Slot} (pid : Int32) (hm : (s.cpu c).mode = .run p) (hl : s.lock = none) :
      Trans s c (.kill pid) ({ s with proc := (killProc s.proc pid).2 }.record (.kill pid))
  | noSlot (hf : findUnused s.proc = none) : Trans s c .fork s
  | alloc {p np : Slot} (hm : (s.cpu c).mode = .run p) (hl : s.lock = none) (ho : s.op p = .none)
      (hf : findUnused s.proc = some np) :
      Trans s c .fork
        { ((s.setProc np { s.proc np with state := .embryo, pid := s.nextpid }).setOp p
            (.stack np)).record (.alloc s.serial) with
          nextpid := s.nextpid + 1
          id := Function.update s.id np s.serial
          serial := s.serial + 1 }
  | stack {p np : Slot} (hm : (s.cpu c).mode = .run p) (ho : s.op p = .stack np) :
      Trans s c (.forkStep true)
        ({ s.setProc np { s.proc np with kstack := some s.pages } with
          pages := s.pages + 1
          resume := Function.update s.resume np .forkret }.setOp p (.copy np))
  | stackFail {p np : Slot} (hm : (s.cpu c).mode = .run p) (ho : s.op p = .stack np) :
      Trans s c (.forkStep false)
        ((s.setProc np { s.proc np with kstack := none }).setOp p (.noStack np))
  | giveUp {p np : Slot} {ok : Bool} (hm : (s.cpu c).mode = .run p)
      (ho : s.op p = .noStack np ∨ s.op p = .undo np) :
      Trans s c (.forkStep ok)
        ((s.setProc np { s.proc np with state := .unused }).setOp p .none)
  | copy {p np : Slot} (hm : (s.cpu c).mode = .run p) (ho : s.op p = .copy np) :
      Trans s c (.forkStep true)
        ({ s.setProc np { s.proc np with pgdir := some s.pages } with
          pages := s.pages + 1 }.setOp p (.fill np))
  | copyFail {p np : Slot} (hm : (s.cpu c).mode = .run p) (ho : s.op p = .copy np) :
      Trans s c (.forkStep false)
        ((s.setProc np { s.proc np with pgdir := none }).setOp p (.noCopy np))
  | noCopy {p np : Slot} {ok : Bool} (hm : (s.cpu c).mode = .run p) (ho : s.op p = .noCopy np) :
      Trans s c (.forkStep ok)
        (((s.kfree (s.proc np).kstack).setProc np { s.proc np with kstack := none }).setOp p
          (.undo np))
  | fill {p np : Slot} {ok : Bool} (hm : (s.cpu c).mode = .run p) (ho : s.op p = .fill np) :
      Trans s c (.forkStep ok)
        ((s.setProc np { s.proc np with parent := some p }).setOp p (.ready np))
  | ready {p np : Slot} {ok : Bool} (hm : (s.cpu c).mode = .run p) (ho : s.op p = .ready np)
      (hl : s.lock = none) :
      Trans s c (.forkStep ok)
        (((s.setProc np { s.proc np with state := .runnable }).setOp p .none).record
          (.fork (s.id p) (s.id np) ((s.proc np).kstack.getD 0) ((s.proc np).pgdir.getD 0)))
  | exit {p : Slot} (hm : (s.cpu c).mode = .run p) (hl : s.lock = none) (ho : s.op p = .none)
      (hp : p ≠ initproc) :
      Trans s c .exit
        (({ s with proc := exitProc p s.proc }.record (.exit (s.id p))).sched c p .exit)
  | wait {p : Slot} (hm : (s.cpu c).mode = .run p) (hl : s.lock = none) (ho : s.op p = .none) :
      Trans s c .wait ((s.acquire c).setMode c (.locked p))
  | reap {p q : Slot} (hm : (s.cpu c).mode = .locked p) (hq : (waitFor p s.proc).1 = some q) :
      Trans s c .waitScan
        (((((s.kfree (s.proc q).kstack).kfree (s.proc q).pgdir).setProc q (reap (s.proc q))).record
          (.wait (s.id p) (s.id q))).release.setMode c (.run p))
  | waitFail {p : Slot} (hm : (s.cpu c).mode = .locked p) :
      Trans s c .waitScan (s.release.setMode c (.run p))
  | waitSleep {p : Slot} (hm : (s.cpu c).mode = .locked p) (hq : (waitFor p s.proc).1 = none) :
      Trans s c .waitScan ((s.setProc p
        { s.proc p with chan := some (.proc p), state := .sleeping }).sched c p .wait)

theorem trans_of_look {s t : Sys C K} {c : C} {i : ℕ} (hm : (s.cpu c).mode = .scan i)
    (h : s.look c i = .ok t) : Trans s c .look t := by
  unfold look at h
  split at h
  case isTrue hi =>
    obtain ⟨p, rfl⟩ : ∃ p : Slot, i = p := ⟨⟨i, hi⟩, rfl⟩
    dsimp only at h
    split_ifs at h with hst
    · cases h
      exact .select hm hst
    · cases h
      exact .skip hm hst
  case isFalse hi =>
    cases h
    exact .done hm (Nat.le_of_not_lt hi)

theorem trans_of_runOn {s t : Sys C K} {c : C} {p : Slot} (hm : (s.cpu c).mode = .enter p)
    (h : s.runOn c p = .ok t) : Trans s c .resume t := by
  unfold runOn at h
  split at h <;> cases h
  case h_1 hr => exact .runOn hm (.inl hr)
  case h_2 hr => exact .runOn hm (.inr hr)
  case h_3 hr => exact .wake hm hr
  case h_4 hr => exact .waitOn hm hr

theorem trans_of_forkStep {s t : Sys C K} {c : C} {p : Slot} {ok : Bool}
    (hm : (s.cpu c).mode = .run p) (h : s.forkStep p ok = .ok t) : Trans s c (.forkStep ok) t := by
  unfold forkStep at h
  split at h
  case h_1 => cases h
  case h_2 np ho =>
    cases ok <;> cases h
    · exact .stackFail hm ho
    · exact .stack hm ho
  case h_3 np ho =>
    cases h
    exact .giveUp hm (.inl ho)
  case h_4 np ho =>
    cases ok <;> cases h
    · exact .copyFail hm ho
    · exact .copy hm ho
  case h_5 np ho =>
    cases h
    exact .noCopy hm ho
  case h_6 np ho =>
    cases h
    exact .giveUp hm (.inr ho)
  case h_7 np ho =>
    cases h
    exact .fill hm ho
  case h_8 np ho =>
    split_ifs at h with hl
    cases h
    exact .ready hm ho hl

theorem trans_of_waitScan {s : Sys C K} {c : C} {p : Slot} (hm : (s.cpu c).mode = .locked p) :
    Trans s c .waitScan (s.waitScan c p) := by
  unfold waitScan
  split
  case h_1 q hq => exact .reap hm hq
  case h_2 hq =>
    split_ifs
    · exact .waitFail hm
    · exact .waitSleep hm hq

theorem trans_of_call {s t : Sys C K} {c : C} {p : Slot} {a : Action K}
    (hm : (s.cpu c).mode = .run p) (hl : s.lock = none) (ho : s.op p = .none)
    (h : s.call c p a = .ok t) : Trans s c a t := by
  unfold call at h
  split at h
  case h_1 k =>
    cases h
    exact .sleep k hm hl ho
  case h_2 pid =>
    cases h
    exact .kill pid hm hl
  case h_3 =>
    cases h
    unfold allocproc
    split
    case h_1 hf => exact .noSlot hf
    case h_2 np hf => exact .alloc hm hl ho hf
  case h_4 =>
    split_ifs at h with hp
    cases h
    exact .exit hm hl ho hp
  case h_5 =>
    cases h
    exact .wait hm hl ho
  case h_6 => cases h

/-- Every step is one of these. -/
theorem trans_of_next {s t : Sys C K} {c : C} {a : Action K} (h : s.next (c, a) = .ok t) :
    Trans s c a t := by
  unfold next at h
  dsimp only at h
  split at h
  case h_1 hm =>
    split_ifs at h with hl
    cases h
    exact .acquire hm hl
  case h_2 i hm => exact trans_of_look hm h
  case h_3 p hm =>
    cases h
    exact .clear hm
  case h_4 p hm => exact trans_of_runOn hm h
  case h_5 p hm =>
    cases h
    exact trans_of_waitScan hm
  case h_6 k hm =>
    split_ifs at h with hl
    cases h
    exact .wakeup k hl
  case h_7 k p hm =>
    split_ifs at h with hl
    cases h
    exact .wakeup k hl
  case h_8 p hm =>
    split_ifs at h with hl
    cases h
    exact .yield hm hl
  case h_9 ok p hm => exact trans_of_forkStep hm h
  case h_10 p _ _ _ hm =>
    split_ifs at h with hl
    exact trans_of_call hm hl.1 hl.2 h
  case h_11 => cases h

end Sys

end Xv6.Ptable
