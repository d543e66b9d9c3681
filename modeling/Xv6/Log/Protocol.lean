import Mathlib.Algebra.Order.BigOperators.Group.Finset
import Mathlib.Data.Fintype.BigOperators
import Xv6.Lib.Transition
import Xv6.Param

/-!
# The group-commit protocol

File system calls bracket their updates with `begin_op` and `end_op`; the last call to
end commits the updates of the whole group. The protocol state is `struct log`; one step
of the system is one critical section of `log.lock`, the tests that `log_write` makes before
it takes the lock, or one step of `commit`, by any of any number of processes.

The system keeps a history beside the kernel's own state, so that the protocol can be
specified: the blocks each running operation has logged, the blocks logged since the
last commit, and for each commit the operations it covers.
-/

namespace Xv6.Log

open Lib

/-- The panics of `log.c`. -/
inductive Panic
  | tooBigTransaction
  | outsideTransaction
  | committing
  deriving DecidableEq

/-- The fields of `struct log` that the protocol uses; `lh` lists the `n` used entries
of the in-memory header. -/
structure LogState where
  size : ℕ
  outstanding : ℤ
  committing : Bool
  lh : List ℕ

namespace LogState

/-- The in-memory log after `initlog` on a clean disk. -/
def init (size : ℕ) : LogState := ⟨size, 0, false, []⟩

/-- The admission test of `begin_op`. -/
def Admits (log : LogState) : Prop :=
  log.committing = false ∧
    (log.lh.length : ℤ) + (log.outstanding + 1) * MAXOPBLOCKS ≤ LOGSIZE

instance (log : LogState) : Decidable log.Admits := inferInstanceAs (Decidable (_ ∧ _))

/-- One pass of the loop of `begin_op`; `none` means that the caller goes to sleep. -/
def beginOp (log : LogState) : Option LogState :=
  if log.committing then none
  else if (log.lh.length : ℤ) + (log.outstanding + 1) * MAXOPBLOCKS > LOGSIZE then none
  else some { log with outstanding := log.outstanding + 1 }

/-- Record `b` in the header entries, absorbing it into an entry that already names it. -/
def absorb : List ℕ → ℕ → List ℕ
  | [], b => [b]
  | c :: cs, b => if c = b then b :: cs else c :: absorb cs b

/-- The tests of `log_write`, which does not hold the lock yet. -/
def logTest (log : LogState) : Except Panic Unit :=
  if (log.lh.length : ℤ) ≥ LOGSIZE ∨ (log.lh.length : ℤ) ≥ log.size - 1 then
    .error .tooBigTransaction
  else if log.outstanding < 1 then .error .outsideTransaction
  else .ok ()

/-- The critical section of `log_write` for block `b`. Since the tests come before it, other calls
may have filled the log in the meantime: entry `LOGSIZE` and those after it lie behind the array. -/
def logAppend (log : LogState) (b : ℕ) : LogState := { log with lh := absorb log.lh b }

/-- `log_write` of block `b` with no other call between its tests and its critical section. -/
def logWrite (log : LogState) (b : ℕ) : Except Panic LogState :=
  match log.logTest with
  | .error msg => .error msg
  | .ok _ => .ok (log.logAppend b)

/-- The first critical section of `end_op`; the flag is `do_commit`. -/
def endOp (log : LogState) : Except Panic (Bool × LogState) :=
  let log := { log with outstanding := log.outstanding - 1 }
  if log.committing then .error .committing
  else if log.outstanding = 0 then .ok (true, { log with committing := true })
  else .ok (false, log)

theorem beginOp_eq_some_iff {log log' : LogState} :
    log.beginOp = some log' ↔
      log.Admits ∧ log' = { log with outstanding := log.outstanding + 1 } := by
  cases hc : log.committing <;> simp [beginOp, Admits, hc, eq_comm]

theorem beginOp_eq_none_iff {log : LogState} : log.beginOp = none ↔ ¬ log.Admits := by
  cases hc : log.committing <;> simp [beginOp, Admits, hc]

theorem mem_absorb {lh : List ℕ} {b c : ℕ} : c ∈ absorb lh b ↔ c = b ∨ c ∈ lh := by
  induction lh with
  | nil => simp [absorb]
  | cons d lh ih =>
    by_cases hd : d = b
    · subst hd; simp [absorb]
    · simp only [absorb, hd, if_false, List.mem_cons, ih]
      tauto

theorem nodup_absorb {lh : List ℕ} (b : ℕ) (h : lh.Nodup) : (absorb lh b).Nodup := by
  induction lh with
  | nil => simp [absorb]
  | cons d lh ih =>
    rw [List.nodup_cons] at h
    by_cases hd : d = b
    · subst hd; simpa [absorb] using h
    · simp only [absorb, hd, if_false, List.nodup_cons, mem_absorb]
      exact ⟨by tauto, ih h.2⟩

theorem length_absorb (lh : List ℕ) (b : ℕ) :
    (absorb lh b).length = if b ∈ lh then lh.length else lh.length + 1 := by
  induction lh with
  | nil => simp [absorb]
  | cons d lh ih =>
    by_cases hd : d = b
    · subst hd; simp [absorb]
    · have hd' : b ≠ d := fun h => hd h.symm
      simp only [absorb, hd, if_false, List.length_cons, ih, List.mem_cons, hd', false_or]
      split <;> rfl

theorem logWrite_eq_ok {log log' : LogState} {b : ℕ} (h : log.logWrite b = .ok log') :
    log.lh.length < LOGSIZE ∧ (log.lh.length : ℤ) < log.size - 1 ∧ 1 ≤ log.outstanding ∧
      log' = { log with lh := absorb log.lh b } := by
  unfold logWrite logTest at h
  split_ifs at h with hbig hout
  simp only [Except.ok.injEq] at h
  push Not at hbig
  exact ⟨by omega, hbig.2, by omega, h.symm⟩

theorem endOp_eq_ok {log log' : LogState} {last : Bool} (h : log.endOp = .ok (last, log')) :
    log.committing = false ∧ (last = true ↔ log.outstanding = 1) ∧
      log' = { log with outstanding := log.outstanding - 1, committing := last } := by
  simp only [endOp] at h
  split_ifs at h with hc hz
  · simp only [Except.ok.injEq, Prod.mk.injEq] at h
    obtain ⟨rfl, rfl⟩ := h
    simp only [Bool.not_eq_true] at hc
    exact ⟨hc, by simp; omega, rfl⟩
  · simp only [Except.ok.injEq, Prod.mk.injEq] at h
    obtain ⟨rfl, rfl⟩ := h
    simp only [Bool.not_eq_true] at hc
    exact ⟨hc, by simp; omega, by simp [hc]⟩

end LogState

/-! ### The system of processes -/

/-- How far a running `commit` has come: each stage is the next step to take. -/
inductive Stage
  | start
  | writeLog (tail : ℕ)
  | head
  | install (tail : ℕ)
  | clear
  | erase
  | finish
  deriving DecidableEq

/-- The stages from the header write on. -/
def Stage.Settled : Stage → Prop
  | .install _ | .clear | .erase | .finish => True
  | _ => False

/-- The stages at which the in-memory header is empty. -/
def Stage.Cleared : Stage → Prop
  | .erase | .finish => True
  | _ => False

/-- Where a process is in the protocol. `asleep` is asleep in `begin_op`, `woken` is on
its way back to the loop of `begin_op`, `inOp` is between `begin_op` and `end_op`. -/
inductive Pc
  | idle
  | asleep
  | woken
  | inOp
  | commit (stage : Stage)
  deriving DecidableEq

/-- A commit that wrote its header: the blocks of the header and the operations whose
updates it covers, each with the blocks it logged. -/
structure Commit where
  blocks : List ℕ
  ops : List (List ℕ)

/-- The protocol state of all processes `P`, with its history. -/
structure Sys (P : Type*) where
  log : LogState
  pc : P → Pc
  /-- The block of the `log_write` that has made its tests and waits for the lock. -/
  tested : P → Option ℕ
  /-- Blocks the operation of each process has logged. -/
  mine : P → List ℕ
  /-- Blocks passed to `log_write` since the last commit. -/
  written : List ℕ
  /-- Operations that ended and are not committed yet. -/
  ended : List (List ℕ)
  commits : List Commit

/-- The atomic steps: a pass of `begin_op`'s loop, a wakeup by `kill`, the tests of a `log_write`
and its critical section, the first critical section of `end_op`, and a step of `commit` or of what
follows it. -/
inductive Act (P : Type*)
  | begin (p : P)
  | kill (p : P)
  | logTest (p : P) (b : ℕ)
  | logWrite (p : P)
  | endOp (p : P)
  | commitStep (p : P)

namespace Sys

variable {P : Type*} [DecidableEq P]

/-- The system before any file system call. -/
def init (P : Type*) (size : ℕ) : Sys P :=
  ⟨LogState.init size, fun _ => .idle, fun _ => none, fun _ => [], [], [], []⟩

/-- `wakeup(&log)`: every process asleep in `begin_op` becomes runnable. -/
def wakeup (pc : P → Pc) : P → Pc := fun p => if pc p = .asleep then .woken else pc p

/-- The step of a commit at a given stage. -/
def commitNext (s : Sys P) (p : P) : Stage → Sys P
  | .start =>
    if 0 < s.log.lh.length then { s with pc := Function.update s.pc p (.commit (.writeLog 0)) }
    else
      { s with
        pc := Function.update s.pc p (.commit .finish)
        commits := s.commits ++ [⟨[], s.ended⟩]
        ended := [] }
  | .writeLog tail =>
    if tail + 1 < s.log.lh.length then
      { s with pc := Function.update s.pc p (.commit (.writeLog (tail + 1))) }
    else { s with pc := Function.update s.pc p (.commit .head) }
  | .head =>
    { s with
      pc := Function.update s.pc p (.commit (.install 0))
      commits := s.commits ++ [⟨s.log.lh, s.ended⟩]
      ended := [] }
  | .install tail =>
    if tail + 1 < s.log.lh.length then
      { s with pc := Function.update s.pc p (.commit (.install (tail + 1))) }
    else { s with pc := Function.update s.pc p (.commit .clear) }
  | .clear =>
    { s with
      log := { s.log with lh := [] }
      pc := Function.update s.pc p (.commit .erase) }
  | .erase => { s with pc := Function.update s.pc p (.commit .finish) }
  | .finish =>
    { s with
      log := { s.log with committing := false }
      pc := wakeup (Function.update s.pc p .idle)
      written := [] }

/-- Try one step. -/
def next (s : Sys P) : Act P → Outcome Panic (Sys P)
  | .begin p =>
    if s.pc p = .idle ∨ s.pc p = .woken then
      match s.log.beginOp with
      | none => .ok { s with pc := Function.update s.pc p .asleep }
      | some log =>
        .ok { s with
          log := log
          pc := Function.update s.pc p .inOp
          mine := Function.update s.mine p [] }
    else .blocked
  | .kill p =>
    if s.pc p = .asleep then .ok { s with pc := Function.update s.pc p .woken } else .blocked
  | .logTest p b =>
    if s.pc p = .inOp ∧ s.tested p = none then
      match s.log.logTest with
      | .error msg => .panic msg
      | .ok _ => .ok { s with tested := Function.update s.tested p (some b) }
    else .blocked
  | .logWrite p =>
    if s.pc p = .inOp then
      match s.tested p with
      | none => .blocked
      | some b =>
        .ok { s with
          log := s.log.logAppend b
          tested := Function.update s.tested p none
          mine := Function.update s.mine p (b :: s.mine p)
          written := b :: s.written }
    else .blocked
  | .endOp p =>
    if s.pc p = .inOp ∧ s.tested p = none then
      match s.log.endOp with
      | .error msg => .panic msg
      | .ok (true, log) =>
        .ok { s with
          log := log
          pc := Function.update s.pc p (.commit .start)
          ended := s.mine p :: s.ended }
      | .ok (false, log) =>
        .ok { s with
          log := log
          pc := wakeup (Function.update s.pc p .idle)
          ended := s.mine p :: s.ended }
    else .blocked
  | .commitStep p =>
    match s.pc p with
    | .commit stage => .ok (s.commitNext p stage)
    | _ => .blocked

/-- The step relation of the system. -/
def Step (s : Sys P) (a : Act P) (t : Sys P) : Prop := s.next a = .ok t

theorem step_of_toOption (s : Sys P) (a : Act P) (t : Sys P)
    (h : (s.next a).toOption = some t) : Step s a t :=
  Outcome.eq_ok_of_toOption h

/-- Process `p` is inside `commit` or about to clear the `committing` flag after it. -/
def InCommit (s : Sys P) (p : P) : Prop := ∃ stage, s.pc p = .commit stage

/-! ### What each step can do -/

variable {s t : Sys P} {p q : P}

theorem begin_cases (h : Step s (.begin p) t) :
    (s.pc p = .idle ∨ s.pc p = .woken) ∧
      ((¬ s.log.Admits ∧ t = { s with pc := Function.update s.pc p .asleep }) ∨
        (s.log.Admits ∧ t = { s with
          log := { s.log with outstanding := s.log.outstanding + 1 }
          pc := Function.update s.pc p .inOp
          mine := Function.update s.mine p [] })) := by
  unfold Step at h
  simp only [next] at h
  split_ifs at h with hpc
  refine ⟨hpc, ?_⟩
  split at h
  · rename_i hnone
    simp only [Outcome.ok.injEq] at h
    exact .inl ⟨LogState.beginOp_eq_none_iff.mp hnone, h.symm⟩
  · rename_i log hsome
    obtain ⟨hadm, rfl⟩ := LogState.beginOp_eq_some_iff.mp hsome
    simp only [Outcome.ok.injEq] at h
    exact .inr ⟨hadm, h.symm⟩

theorem kill_cases (h : Step s (.kill p) t) :
    s.pc p = .asleep ∧ t = { s with pc := Function.update s.pc p .woken } := by
  unfold Step at h
  simp only [next] at h
  split_ifs at h with hpc
  simp only [Outcome.ok.injEq] at h
  exact ⟨hpc, h.symm⟩

theorem logTest_cases {b : ℕ} (h : Step s (.logTest p b) t) :
    s.pc p = .inOp ∧ t = { s with tested := Function.update s.tested p (some b) } := by
  unfold Step at h
  simp only [next] at h
  split_ifs at h with hpc
  split at h
  · cases h
  · simp only [Outcome.ok.injEq] at h
    exact ⟨hpc.1, h.symm⟩

theorem logWrite_cases (h : Step s (.logWrite p) t) :
    s.pc p = .inOp ∧ ∃ b, s.tested p = some b ∧ t = { s with
        log := s.log.logAppend b
        tested := Function.update s.tested p none
        mine := Function.update s.mine p (b :: s.mine p)
        written := b :: s.written } := by
  unfold Step at h
  simp only [next] at h
  split_ifs at h with hpc
  split at h
  · cases h
  · rename_i b hb
    simp only [Outcome.ok.injEq] at h
    exact ⟨hpc, b, hb, h.symm⟩

theorem endOp_cases (h : Step s (.endOp p) t) :
    s.pc p = .inOp ∧ s.log.committing = false ∧
      ((s.log.outstanding = 1 ∧ t = { s with
          log := { s.log with outstanding := s.log.outstanding - 1, committing := true }
          pc := Function.update s.pc p (.commit .start)
          ended := s.mine p :: s.ended }) ∨
        (s.log.outstanding ≠ 1 ∧ t = { s with
          log := { s.log with outstanding := s.log.outstanding - 1 }
          pc := wakeup (Function.update s.pc p .idle)
          ended := s.mine p :: s.ended })) := by
  unfold Step at h
  simp only [next] at h
  split_ifs at h with hpc
  split at h
  · cases h
  · rename_i log hok
    obtain ⟨hcom, hlast, rfl⟩ := LogState.endOp_eq_ok hok
    simp only [Outcome.ok.injEq] at h
    exact ⟨hpc.1, hcom, .inl ⟨hlast.mp rfl, h.symm⟩⟩
  · rename_i log hok
    obtain ⟨hcom, hlast, rfl⟩ := LogState.endOp_eq_ok hok
    simp only [Outcome.ok.injEq] at h
    refine ⟨hpc.1, hcom, .inr ⟨fun h1 => ?_, ?_⟩⟩
    · simpa using hlast.mpr h1
    · rw [← h, ← hcom]

theorem commitStep_cases (h : Step s (.commitStep p) t) :
    ∃ stage, s.pc p = .commit stage ∧ t = s.commitNext p stage := by
  unfold Step at h
  simp only [next] at h
  split at h
  · rename_i stage hpc
    simp only [Outcome.ok.injEq] at h
    exact ⟨stage, hpc, h.symm⟩
  · cases h

/-! ### The invariant -/

omit [DecidableEq P] in
@[simp] theorem wakeup_eq_inOp (pc : P → Pc) : wakeup pc q = .inOp ↔ pc q = .inOp := by
  unfold wakeup
  split_ifs with h <;> simp [h]

omit [DecidableEq P] in
@[simp] theorem wakeup_eq_commit (pc : P → Pc) (stage : Stage) :
    wakeup pc q = .commit stage ↔ pc q = .commit stage := by
  unfold wakeup
  split_ifs with h <;> simp [h]

omit [DecidableEq P] in
@[simp] theorem wakeup_ne_asleep (pc : P → Pc) : wakeup pc q ≠ .asleep := by
  unfold wakeup
  split_ifs with h <;> simp [h]

/-- Moving process `p` to a place other than `x` leaves the other processes at `x`. -/
theorem update_eq_iff {pc : P → Pc} {v x : Pc} (hv : v ≠ x) :
    Function.update pc p v q = x ↔ q ≠ p ∧ pc q = x := by
  by_cases hq : q = p
  · subst hq; simp [hv]
  · simp [hq]

variable [Fintype P]

/-- The processes between `begin_op` and `end_op`. -/
def ops (s : Sys P) : Finset P := Finset.univ.filter fun p => s.pc p = .inOp

omit [DecidableEq P] in
@[simp] theorem mem_ops : p ∈ s.ops ↔ s.pc p = .inOp := by simp [ops]

/-- What the protocol maintains. -/
structure Inv (s : Sys P) : Prop where
  outstanding : s.log.outstanding = s.ops.card
  committing_iff : s.log.committing = true ↔ ∃ p, s.InCommit p
  unique : ∀ p q, s.InCommit p → s.InCommit q → p = q
  quiet : s.log.committing = true → ∀ p, s.pc p ≠ .inOp
  empty : (∀ p, s.pc p ≠ .inOp) → s.log.committing = false → s.log.lh = []
  nodup : s.log.lh.Nodup
  written : s.log.committing = false → ∀ b, b ∈ s.log.lh ↔ b ∈ s.written
  mine : ∀ p, s.pc p = .inOp → ∀ b ∈ s.mine p, b ∈ s.log.lh
  ended : ∀ op ∈ s.ended, ∀ b ∈ op, b ∈ s.log.lh
  settled : ∀ p stage, s.pc p = .commit stage → stage.Settled → s.ended = []
  cleared : ∀ p stage, s.pc p = .commit stage → stage.Cleared → s.log.lh = []
  commits : ∀ c ∈ s.commits, ∀ op ∈ c.ops, ∀ b ∈ op, b ∈ c.blocks
  asleep : ∀ p, s.pc p = .asleep → ¬ s.log.Admits

omit [DecidableEq P] in
theorem inv_init (size : ℕ) : (init P size).Inv := by
  constructor <;> simp [init, LogState.init, ops, InCommit]

omit [DecidableEq P] in
theorem Inv.committing_of_inCommit (h : s.Inv) {stage : Stage} (hp : s.pc p = .commit stage) :
    s.log.committing = true :=
  h.committing_iff.mpr ⟨p, stage, hp⟩

omit [DecidableEq P] in
theorem Inv.not_committing_of_inOp (h : s.Inv) (hp : s.pc p = .inOp) :
    s.log.committing = false := by
  by_contra hc
  exact h.quiet (by simpa using hc) p hp

omit [DecidableEq P] in
/-- Only operations, commits and sleepers matter to the invariant. -/
theorem Inv.congr_pc (h : s.Inv) {pc : P → Pc} (hop : ∀ q, pc q = .inOp ↔ s.pc q = .inOp)
    (hcommit : ∀ q stage, pc q = .commit stage ↔ s.pc q = .commit stage)
    (hsleep : ∀ q, pc q = .asleep → ¬ s.log.Admits) : { s with pc := pc }.Inv where
  outstanding := by
    have : { s with pc := pc }.ops = s.ops := by ext q; simp [hop]
    rw [this]; exact h.outstanding
  committing_iff := by
    rw [h.committing_iff]
    simp [InCommit, hcommit]
  unique a b := by simpa [InCommit, hcommit] using h.unique a b
  quiet hc q := by simpa [hop] using h.quiet hc q
  empty hq := h.empty (by simpa [hop] using hq)
  nodup := h.nodup
  written := h.written
  mine q hq := h.mine q ((hop q).mp hq)
  ended := h.ended
  settled q stage hq := h.settled q stage ((hcommit q stage).mp hq)
  cleared q stage hq := h.cleared q stage ((hcommit q stage).mp hq)
  commits := h.commits
  asleep := hsleep

/-- A commit moves to its next stage. -/
theorem Inv.stage (h : s.Inv) {old : Stage} (new : Stage) (hp : s.pc p = .commit old)
    (hsettled : new.Settled → s.ended = []) (hcleared : new.Cleared → s.log.lh = []) :
    { s with pc := Function.update s.pc p (.commit new) }.Inv := by
  have hop : ∀ q, Function.update s.pc p (.commit new) q = .inOp ↔ s.pc q = .inOp := by
    intro q
    rw [update_eq_iff (by simp)]
    exact ⟨fun h => h.2, fun h => ⟨by rintro rfl; simp [hp] at h, h⟩⟩
  have hother : ∀ q stage, Function.update s.pc p (.commit new) q = .commit stage →
      (q = p ∧ stage = new) ∨ s.pc q = .commit stage := by
    intro q stage hq
    by_cases hqp : q = p
    · subst hqp
      rw [Function.update_self, Pc.commit.injEq] at hq
      exact .inl ⟨rfl, hq.symm⟩
    · rw [Function.update_of_ne hqp] at hq
      exact .inr hq
  have hin : ∀ q, { s with pc := Function.update s.pc p (.commit new) }.InCommit q →
      s.InCommit q := by
    rintro q ⟨stage, hq⟩
    rcases hother q stage hq with ⟨rfl, -⟩ | hq
    · exact ⟨old, hp⟩
    · exact ⟨stage, hq⟩
  have hself : ∃ q, { s with pc := Function.update s.pc p (.commit new) }.InCommit q :=
    ⟨p, new, Function.update_self ..⟩
  refine
    { h with
      outstanding := ?_
      committing_iff := iff_of_true (h.committing_of_inCommit hp) hself
      unique := fun a b ha hb => h.unique a b (hin a ha) (hin b hb)
      quiet := fun hc q hq => h.quiet hc q ((hop q).mp hq)
      empty := fun hq hc => h.empty (fun q hq' => hq q ((hop q).mpr hq')) hc
      mine := fun q hq => h.mine q ((hop q).mp hq)
      settled := fun q stage hq hs => ?_
      cleared := fun q stage hq hs => ?_
      asleep := fun q hq => h.asleep q ((update_eq_iff (by simp)).mp hq).2 }
  · have : { s with pc := Function.update s.pc p (.commit new) }.ops = s.ops := by
      ext q; simp [hop]
    rw [this]; exact h.outstanding
  · rcases hother q stage hq with ⟨-, rfl⟩ | hq
    · exact hsettled hs
    · exact h.settled q stage hq hs
  · rcases hother q stage hq with ⟨-, rfl⟩ | hq
    · exact hcleared hs
    · exact h.cleared q stage hq hs

omit [DecidableEq P] in
/-- A commit covers the operations that ended: all their blocks are in the header. -/
theorem Inv.record (h : s.Inv) :
    { s with commits := s.commits ++ [Commit.mk s.log.lh s.ended], ended := [] }.Inv where
  __ := h
  ended := by simp
  settled := by simp
  commits c hc := by
    rcases List.mem_append.mp hc with hc | hc
    · exact h.commits c hc
    · obtain rfl := List.mem_singleton.mp hc
      exact h.ended

omit [DecidableEq P] in
/-- Emptying the in-memory header after the commit has been recorded. -/
theorem Inv.clear (h : s.Inv) (hp : s.pc p = .commit .clear) :
    { s with log := { s.log with lh := [] } }.Inv := by
  have hc := h.committing_of_inCommit hp
  refine
    { h with
      empty := fun _ _ => rfl
      nodup := List.nodup_nil
      written := fun hc' => ?_
      mine := fun q hq => absurd hq (h.quiet hc q)
      ended := ?_
      cleared := fun _ _ _ _ => rfl
      asleep := fun _ _ hadm => ?_ }
  · rw [hc] at hc'; cases hc'
  · have hnil : s.ended = [] := h.settled p .clear hp trivial
    simp [hnil]
  · have := hadm.1
    rw [hc] at this; cases this

/-- The last critical section of `end_op` after a commit. -/
theorem Inv.finish (h : s.Inv) (hp : s.pc p = .commit .finish) :
    { s with
      log := { s.log with committing := false }
      pc := wakeup (Function.update s.pc p .idle)
      written := [] }.Inv := by
  have hc := h.committing_of_inCommit hp
  have hlh : s.log.lh = [] := h.cleared p .finish hp trivial
  have hnone : ∀ q stage, wakeup (Function.update s.pc p .idle) q ≠ .commit stage := by
    intro q stage hq
    rw [wakeup_eq_commit, update_eq_iff (by simp)] at hq
    exact hq.1 (h.unique q p ⟨stage, hq.2⟩ ⟨_, hp⟩)
  have hop : ∀ q, wakeup (Function.update s.pc p .idle) q ≠ .inOp := by
    intro q hq
    rw [wakeup_eq_inOp, update_eq_iff (by simp)] at hq
    exact h.quiet hc q hq.2
  constructor
  · have h0 : s.ops = ∅ := by
      ext q; simp [h.quiet hc q]
    have h1 : ({ s with
        log := { s.log with committing := false }
        pc := wakeup (Function.update s.pc p .idle)
        written := [] } : Sys P).ops = ∅ := by
      ext q; simpa using hop q
    have := h.outstanding
    rw [h0] at this
    rw [h1]; exact this
  · simp only [Bool.false_eq_true, InCommit, false_iff]
    rintro ⟨q, stage, hq⟩
    exact hnone q stage hq
  · rintro a b ⟨stage, ha⟩
    exact absurd ha (hnone a stage)
  · simp
  · exact fun _ _ => hlh
  · exact h.nodup
  · intro _ b; simp [hlh]
  · exact fun q hq => absurd hq (hop q)
  · exact h.ended
  · exact fun q stage hq => absurd hq (hnone q stage)
  · exact fun q stage hq => absurd hq (hnone q stage)
  · exact h.commits
  · exact fun q hq => absurd hq (wakeup_ne_asleep _)

theorem Inv.commitNext (h : s.Inv) {stage : Stage} (hp : s.pc p = .commit stage) :
    (s.commitNext p stage).Inv := by
  cases stage with
  | start =>
    simp only [Sys.commitNext]
    split_ifs with hlen
    · exact h.stage _ hp (by simp [Stage.Settled]) (by simp [Stage.Cleared])
    · have hlh : s.log.lh = [] := List.length_eq_zero_iff.mp (by omega)
      have := h.record.stage .finish hp (fun _ => rfl) (fun _ => hlh)
      simpa [hlh] using this
  | writeLog tail =>
    simp only [Sys.commitNext]
    split_ifs <;> exact h.stage _ hp (by simp [Stage.Settled]) (by simp [Stage.Cleared])
  | head => exact h.record.stage (.install 0) hp (fun _ => rfl) (by simp [Stage.Cleared])
  | install tail =>
    have hended := h.settled p _ hp trivial
    simp only [Sys.commitNext]
    split_ifs <;> exact h.stage _ hp (fun _ => hended) (by simp [Stage.Cleared])
  | clear => exact (h.clear hp).stage _ hp (fun _ => h.settled p _ hp trivial) (fun _ => rfl)
  | erase =>
    exact h.stage _ hp (fun _ => h.settled p _ hp trivial) (fun _ => h.cleared p _ hp trivial)
  | finish => exact h.finish hp

/-- A process admitted by `begin_op` starts an operation. -/
theorem Inv.admit (h : s.Inv) (hp : s.pc p = .idle ∨ s.pc p = .woken) (hadm : s.log.Admits) :
    { s with
      log := { s.log with outstanding := s.log.outstanding + 1 }
      pc := Function.update s.pc p .inOp
      mine := Function.update s.mine p [] }.Inv := by
  have hnot : s.pc p ≠ .inOp := by rcases hp with hp | hp <;> simp [hp]
  have hcommit : ∀ q stage, Function.update s.pc p .inOp q = .commit stage →
      s.pc q = .commit stage := fun q stage hq => ((update_eq_iff (by simp)).mp hq).2
  have hnone : ¬ ∃ q, s.InCommit q := by
    rw [← h.committing_iff, hadm.1]; simp
  constructor
  · have hops : ({ s with
        log := { s.log with outstanding := s.log.outstanding + 1 }
        pc := Function.update s.pc p .inOp
        mine := Function.update s.mine p [] } : Sys P).ops = insert p s.ops := by
      ext q
      by_cases hq : q = p
      · subst hq; simp
      · simp [hq]
    rw [hops, Finset.card_insert_of_notMem (by simpa using hnot)]
    simp [h.outstanding]
  · simp only [hadm.1, Bool.false_eq_true, InCommit, false_iff]
    rintro ⟨q, stage, hq⟩
    exact hnone ⟨q, stage, hcommit q stage hq⟩
  · rintro a b ⟨stage, ha⟩
    exact absurd ⟨a, stage, hcommit a stage ha⟩ hnone
  · intro hc
    simp only [hadm.1] at hc
    cases hc
  · exact fun hq => absurd (Function.update_self (f := s.pc) p Pc.inOp) (hq p)
  · exact h.nodup
  · exact h.written
  · intro q hq b hb
    by_cases hqp : q = p
    · subst hqp; simp at hb
    · simp only [Function.update_of_ne hqp] at hq hb
      exact h.mine q hq b hb
  · exact h.ended
  · exact fun q stage hq => h.settled q stage (hcommit q stage hq)
  · exact fun q stage hq => h.cleared q stage (hcommit q stage hq)
  · exact h.commits
  · -- no one sleeps while the admission test holds
    exact fun q hq => absurd hadm (h.asleep q ((update_eq_iff (by simp)).mp hq).2)

omit [DecidableEq P] in
/-- The invariant does not speak of tests. -/
theorem Inv.setTested (h : s.Inv) (tested : P → Option ℕ) : { s with tested := tested }.Inv where
  __ := h

theorem Inv.logWrite (h : s.Inv) (hp : s.pc p = .inOp) (b : ℕ) :
    { s with
      log := { s.log with lh := LogState.absorb s.log.lh b }
      mine := Function.update s.mine p (b :: s.mine p)
      written := b :: s.written }.Inv := by
  have hc := h.not_committing_of_inOp hp
  have hnone : ∀ q stage, s.pc q ≠ .commit stage := fun q stage hq => by
    have := h.committing_of_inCommit hq
    rw [hc] at this; cases this
  refine
    { h with
      empty := fun hq _ => absurd hp (hq p)
      nodup := LogState.nodup_absorb b h.nodup
      written := fun hc c => ?_
      mine := fun q hq c hmem => ?_
      ended := fun op hop c hmem => LogState.mem_absorb.mpr (.inr (h.ended op hop c hmem))
      cleared := fun q stage hq => absurd hq (hnone q stage)
      asleep := fun q hq hadm => h.asleep q hq ⟨hadm.1, ?_⟩ }
  · simp only [LogState.mem_absorb, List.mem_cons]
    rw [h.written hc]
  · rw [LogState.mem_absorb]
    by_cases hqp : q = p
    · subst hqp
      simp only [Function.update_self, List.mem_cons] at hmem
      exact hmem.imp id (h.mine q hq c)
    · simp only [Function.update_of_ne hqp] at hmem
      exact .inr (h.mine q hq c hmem)
  · have hlen : s.log.lh.length ≤ (LogState.absorb s.log.lh b).length := by
      rw [LogState.length_absorb]; split <;> omega
    have := hadm.2
    simp only at this
    omega

/-- Ending an operation: the process leaves `inOp` for `v`, which is idle or, for the last
operation, the start of the commit. -/
theorem Inv.endOp_last (h : s.Inv) (hp : s.pc p = .inOp) (hone : s.log.outstanding = 1) :
    { s with
      log := { s.log with outstanding := s.log.outstanding - 1, committing := true }
      pc := Function.update s.pc p (.commit .start)
      ended := s.mine p :: s.ended }.Inv := by
  have hc := h.not_committing_of_inOp hp
  have hnone : ∀ q stage, s.pc q ≠ .commit stage := fun q stage hq => by
    have := h.committing_of_inCommit hq
    rw [hc] at this; cases this
  have honly : s.ops = {p} := by
    have hcard : s.ops.card = 1 := by
      have := h.outstanding
      omega
    obtain ⟨q, hq⟩ := Finset.card_eq_one.mp hcard
    have hmem : p ∈ s.ops := mem_ops.mpr hp
    rw [hq, Finset.mem_singleton] at hmem
    rw [hq, hmem]
  have hop : ∀ q, Function.update s.pc p (.commit .start) q ≠ .inOp := by
    intro q hq
    rw [update_eq_iff (by simp)] at hq
    have : q ∈ s.ops := mem_ops.mpr hq.2
    rw [honly, Finset.mem_singleton] at this
    exact hq.1 this
  have hstage : ∀ q stage, Function.update s.pc p (.commit .start) q = .commit stage →
      q = p ∧ stage = .start := by
    intro q stage hq
    by_cases hqp : q = p
    · subst hqp
      rw [Function.update_self, Pc.commit.injEq] at hq
      exact ⟨rfl, hq.symm⟩
    · rw [Function.update_of_ne hqp] at hq
      exact absurd hq (hnone q stage)
  -- the last operation has ended, so that nobody is in one and `p` alone commits
  constructor
  · have hops : ({ s with
        log := { s.log with outstanding := s.log.outstanding - 1, committing := true }
        pc := Function.update s.pc p (.commit .start)
        ended := s.mine p :: s.ended } : Sys P).ops = ∅ := by
      ext q; simpa using hop q
    rw [hops]; simp [hone]
  · exact ⟨fun _ => ⟨p, .start, by simp⟩, fun _ => rfl⟩
  · rintro a b ⟨sa, ha⟩ ⟨sb, hb⟩
    rw [(hstage a sa ha).1, (hstage b sb hb).1]
  · exact fun _ => hop
  · intro _ hc; cases hc
  · exact h.nodup
  · intro hc; cases hc
  · exact fun q hq => absurd hq (hop q)
  · intro op hmem
    rcases List.mem_cons.mp hmem with rfl | hmem
    · exact h.mine p hp
    · exact h.ended op hmem
  · intro q stage hq hs
    rw [(hstage q stage hq).2] at hs
    exact hs.elim
  · intro q stage hq hs
    rw [(hstage q stage hq).2] at hs
    exact hs.elim
  · exact h.commits
  · intro q _ hadm
    cases hadm.1

theorem Inv.endOp_more (h : s.Inv) (hp : s.pc p = .inOp) (hmore : s.log.outstanding ≠ 1) :
    { s with
      log := { s.log with outstanding := s.log.outstanding - 1 }
      pc := wakeup (Function.update s.pc p .idle)
      ended := s.mine p :: s.ended }.Inv := by
  have hc := h.not_committing_of_inOp hp
  have hnone : ∀ q stage, s.pc q ≠ .commit stage := fun q stage hq => by
    have := h.committing_of_inCommit hq
    rw [hc] at this; cases this
  have hop : ∀ q, wakeup (Function.update s.pc p .idle) q = .inOp ↔ q ≠ p ∧ s.pc q = .inOp := by
    intro q
    rw [wakeup_eq_inOp, update_eq_iff (by simp)]
  have hstage : ∀ q stage, wakeup (Function.update s.pc p .idle) q ≠ .commit stage := by
    intro q stage hq
    rw [wakeup_eq_commit, update_eq_iff (by simp)] at hq
    exact hnone q stage hq.2
  have hops : ({ s with
      log := { s.log with outstanding := s.log.outstanding - 1 }
      pc := wakeup (Function.update s.pc p .idle)
      ended := s.mine p :: s.ended } : Sys P).ops = s.ops.erase p := by
    ext q; simp [hop]
  have hcard : (s.ops.erase p).card + 1 = s.ops.card :=
    Finset.card_erase_add_one (mem_ops.mpr hp)
  constructor
  · have := h.outstanding
    rw [hops]
    simp only
    omega
  · simp only [hc, Bool.false_eq_true, InCommit, false_iff]
    rintro ⟨q, stage, hq⟩
    exact hstage q stage hq
  · rintro a b ⟨stage, ha⟩
    exact absurd ha (hstage a stage)
  · intro hc'
    simp only [hc] at hc'
    cases hc'
  · -- another operation is still running
    intro hq _
    have hempty : s.ops.erase p = ∅ := by
      rw [← hops]; ext q; simpa using hq q
    rw [hempty] at hcard
    have := h.outstanding
    simp only [Finset.card_empty] at hcard
    omega
  · exact h.nodup
  · exact h.written
  · exact fun q hq => h.mine q ((hop q).mp hq).2
  · intro op hmem
    rcases List.mem_cons.mp hmem with rfl | hmem
    · exact h.mine p hp
    · exact h.ended op hmem
  · exact fun q stage hq => absurd hq (hstage q stage)
  · exact fun q stage hq => absurd hq (hstage q stage)
  · exact h.commits
  · exact fun q hq => absurd hq (wakeup_ne_asleep _)

/-- Every step keeps the invariant. -/
theorem inv_next {a : Act P} (h : s.Inv) (hstep : Step s a t) : t.Inv := by
  cases a with
  | begin p =>
    obtain ⟨hp, ⟨hnot, rfl⟩ | ⟨hadm, rfl⟩⟩ := begin_cases hstep
    · have hother : ∀ q x, x = .inOp ∨ (∃ stage, x = .commit stage) →
          (Function.update s.pc p .asleep q = x ↔ s.pc q = x) := by
        intro q x hx
        by_cases hq : q = p
        · subst hq
          rcases hx with rfl | ⟨stage, rfl⟩ <;> rcases hp with hp | hp <;> simp [hp]
        · rw [Function.update_of_ne hq]
      exact h.congr_pc (fun q => hother q _ (.inl rfl))
        (fun q stage => hother q _ (.inr ⟨stage, rfl⟩))
        (fun _ _ => hnot)
    · exact h.admit hp hadm
  | kill p =>
    obtain ⟨hp, rfl⟩ := kill_cases hstep
    have hother : ∀ q x, x = .inOp ∨ (∃ stage, x = .commit stage) →
        (Function.update s.pc p .woken q = x ↔ s.pc q = x) := by
      intro q x hx
      by_cases hq : q = p
      · subst hq
        rcases hx with rfl | ⟨stage, rfl⟩ <;> simp [hp]
      · rw [Function.update_of_ne hq]
    exact h.congr_pc (fun q => hother q _ (.inl rfl))
      (fun q stage => hother q _ (.inr ⟨stage, rfl⟩))
      (fun q hq => h.asleep q ((update_eq_iff (by simp)).mp hq).2)
  | logTest p b =>
    obtain ⟨-, rfl⟩ := logTest_cases hstep
    exact h.setTested _
  | logWrite p =>
    obtain ⟨hp, b, -, rfl⟩ := logWrite_cases hstep
    exact (h.logWrite hp b).setTested _
  | endOp p =>
    obtain ⟨hp, -, ⟨hone, rfl⟩ | ⟨hmore, rfl⟩⟩ := endOp_cases hstep
    · exact h.endOp_last hp hone
    · exact h.endOp_more hp hmore
  | commitStep p =>
    obtain ⟨stage, hp, rfl⟩ := commitStep_cases hstep
    exact h.commitNext hp

/-- The log size that `mkfs` writes to the superblock. -/
def nlog : ℕ := LOGSIZE

/-- An operation logs at most `MAXOPBLOCKS` distinct blocks. -/
def Bounded (s : Sys P) : Act P → Prop
  | .logTest p b => (b :: s.mine p).toFinset.card ≤ MAXOPBLOCKS
  | _ => True

instance (s : Sys P) (a : Act P) : Decidable (s.Bounded a) := by
  cases a <;> unfold Bounded <;> infer_instance

/-- How many further blocks the running operations may add to the log. -/
def reserve (s : Sys P) : ℕ := ∑ p ∈ s.ops, (MAXOPBLOCKS - (s.mine p).toFinset.card)

/-- An admitted operation leaves room: with its `MAXOPBLOCKS` blocks and those the running
operations may still add, the log stays below the size at which `log_write` panics. -/
def Fits (s : Sys P) : Act P → Prop
  | .begin _ => s.log.Admits → s.log.lh.length + s.reserve + MAXOPBLOCKS + 2 ≤ s.log.size
  | _ => True

instance (s : Sys P) (a : Act P) : Decidable (s.Fits a) := by
  cases a <;> unfold Fits <;> infer_instance

/-- The log never fills beyond what the running operations may still add. -/
structure Room (s : Sys P) : Prop where
  inv : s.Inv
  size : s.log.size = nlog
  room : s.log.lh.length + s.reserve + 2 ≤ nlog
  bounded : ∀ p b, s.tested p = some b → (b :: s.mine p).toFinset.card ≤ MAXOPBLOCKS

omit [DecidableEq P] in
theorem room_init : (init P nlog).Room where
  inv := inv_init nlog
  size := rfl
  room := by
    have hops : (init P nlog).ops = ∅ := by ext; simp [init]
    rw [reserve, hops, Finset.sum_empty]
    simp [init, LogState.init, nlog, LOGSIZE, MAXOPBLOCKS]
  bounded := nofun

omit [DecidableEq P] in
theorem reserve_congr {s t : Sys P} (hops : t.ops = s.ops)
    (hmine : ∀ p ∈ s.ops, t.mine p = s.mine p) : t.reserve = s.reserve := by
  unfold reserve
  rw [hops]
  exact Finset.sum_congr rfl fun p hp => by rw [hmine p hp]

omit [DecidableEq P] in
theorem reserve_le_of_subset {s t : Sys P} (hops : t.ops ⊆ s.ops)
    (hmine : ∀ p ∈ t.ops, t.mine p = s.mine p) : t.reserve ≤ s.reserve := by
  unfold reserve
  calc ∑ p ∈ t.ops, (MAXOPBLOCKS - (t.mine p).toFinset.card)
      = ∑ p ∈ t.ops, (MAXOPBLOCKS - (s.mine p).toFinset.card) :=
        Finset.sum_congr rfl fun p hp => by rw [hmine p hp]
    _ ≤ ∑ p ∈ s.ops, (MAXOPBLOCKS - (s.mine p).toFinset.card) :=
        Finset.sum_le_sum_of_subset hops

/-- Logging a block moves at most one block from the reservation of its operation to the
log. -/
theorem Room.logWrite (h : s.Room) (hp : s.pc p = .inOp) {b : ℕ}
    (hb : (b :: s.mine p).toFinset.card ≤ MAXOPBLOCKS) :
    (LogState.absorb s.log.lh b).length +
        ∑ q ∈ s.ops, (MAXOPBLOCKS - (Function.update s.mine p (b :: s.mine p) q).toFinset.card) ≤
      s.log.lh.length + s.reserve := by
  have hmem : p ∈ s.ops := mem_ops.mpr hp
  have hrest : ∑ q ∈ s.ops.erase p,
      (MAXOPBLOCKS - (Function.update s.mine p (b :: s.mine p) q).toFinset.card) =
      ∑ q ∈ s.ops.erase p, (MAXOPBLOCKS - (s.mine q).toFinset.card) :=
    Finset.sum_congr rfl fun q hq => by rw [Function.update_of_ne (Finset.ne_of_mem_erase hq)]
  have hold : s.reserve = (MAXOPBLOCKS - (s.mine p).toFinset.card) +
      ∑ q ∈ s.ops.erase p, (MAXOPBLOCKS - (s.mine q).toFinset.card) :=
    (Finset.add_sum_erase _ _ hmem).symm
  rw [hold, ← Finset.add_sum_erase _ _ hmem, hrest, Function.update_self,
    LogState.length_absorb]
  by_cases hown : b ∈ s.mine p
  · -- the operation has logged this block before, so it is in the header
    have hlh : b ∈ s.log.lh := h.inv.mine p hp b hown
    have hcard : (b :: s.mine p).toFinset = (s.mine p).toFinset := by simp [hown]
    rw [hcard, if_pos hlh]
  · have hcard : (b :: s.mine p).toFinset.card = (s.mine p).toFinset.card + 1 := by
      rw [List.toFinset_cons, Finset.card_insert_of_notMem (by simpa using hown)]
    rw [hcard] at hb ⊢
    split <;> omega

theorem Room.next {a : Act P} (h : s.Room) (hbounded : s.Bounded a) (hfits : s.Fits a)
    (hstep : Step s a t) : t.Room := by
  refine ⟨inv_next h.inv hstep, ?_, ?_, ?_⟩
  · -- no step changes the size of the log
    have hsize := h.size
    cases a with
    | begin p => obtain ⟨-, ⟨-, rfl⟩ | ⟨-, rfl⟩⟩ := begin_cases hstep <;> exact hsize
    | kill p => obtain ⟨-, rfl⟩ := kill_cases hstep; exact hsize
    | logTest p b => obtain ⟨-, rfl⟩ := logTest_cases hstep; exact hsize
    | logWrite p => obtain ⟨-, b, -, rfl⟩ := logWrite_cases hstep; exact hsize
    | endOp p => obtain ⟨-, -, ⟨-, rfl⟩ | ⟨-, rfl⟩⟩ := endOp_cases hstep <;> exact hsize
    | commitStep p =>
      obtain ⟨stage, -, rfl⟩ := commitStep_cases hstep
      cases stage <;> simp only [commitNext] <;> (try split_ifs) <;> exact hsize
  · have hroom := h.room
    cases a with
    | begin p =>
      obtain ⟨hp, ⟨-, rfl⟩ | ⟨hadm, rfl⟩⟩ := begin_cases hstep
      · have := reserve_congr (s := s) (t := { s with pc := Function.update s.pc p .asleep })
          (by ext q; by_cases hq : q = p
              · subst hq; rcases hp with hp | hp <;> simp [hp]
              · simp [hq]) (fun _ _ => rfl)
        rw [this]; exact hroom
      · have hnew := hfits hadm
        rw [h.size] at hnew
        have hnot : p ∉ s.ops := by rcases hp with hp | hp <;> simp [hp]
        have hops : ({ s with
            log := { s.log with outstanding := s.log.outstanding + 1 }
            pc := Function.update s.pc p .inOp
            mine := Function.update s.mine p [] } : Sys P).ops = insert p s.ops := by
          ext q
          by_cases hq : q = p
          · subst hq; simp
          · simp [hq]
        have hsum : ∑ q ∈ s.ops, (MAXOPBLOCKS - (Function.update s.mine p [] q).toFinset.card) =
            s.reserve := Finset.sum_congr rfl fun q hq => by
          rw [Function.update_of_ne (by rintro rfl; exact hnot hq)]
        rw [reserve, hops, Finset.sum_insert hnot]
        simp only [Function.update_self, List.toFinset_nil, Finset.card_empty, Nat.sub_zero, hsum]
        omega
    | kill p =>
      obtain ⟨hp, rfl⟩ := kill_cases hstep
      have := reserve_congr (s := s) (t := { s with pc := Function.update s.pc p .woken })
        (by ext q; by_cases hq : q = p
            · subst hq; simp [hp]
            · simp [hq]) (fun _ _ => rfl)
      rw [this]; exact hroom
    | logTest p b =>
      obtain ⟨-, rfl⟩ := logTest_cases hstep
      exact hroom
    | logWrite p =>
      obtain ⟨hp, b, hb, rfl⟩ := logWrite_cases hstep
      have := h.logWrite hp (h.bounded p b hb)
      simp only [reserve, ops, LogState.logAppend] at this hroom ⊢
      omega
    | endOp p =>
      obtain ⟨hp, -, ⟨-, rfl⟩ | ⟨-, rfl⟩⟩ := endOp_cases hstep
      · have := reserve_le_of_subset (s := s) (t := { s with
            log := { s.log with outstanding := s.log.outstanding - 1, committing := true }
            pc := Function.update s.pc p (.commit .start)
            ended := s.mine p :: s.ended })
          (fun q => by simp only [mem_ops]; rw [update_eq_iff (by simp)]; exact fun h => h.2)
          (fun _ _ => rfl)
        simp only at this ⊢
        omega
      · have := reserve_le_of_subset (s := s) (t := { s with
            log := { s.log with outstanding := s.log.outstanding - 1 }
            pc := wakeup (Function.update s.pc p .idle)
            ended := s.mine p :: s.ended })
          (fun q => by
            simp only [mem_ops, wakeup_eq_inOp]; rw [update_eq_iff (by simp)]; exact fun h => h.2)
          (fun _ _ => rfl)
        simp only at this ⊢
        omega
    | commitStep p =>
      obtain ⟨stage, hp, rfl⟩ := commitStep_cases hstep
      -- no operation runs during a commit, and the header only shrinks
      have hinv := inv_next h.inv hstep
      have hnone : ∀ q, s.pc q ≠ .inOp := h.inv.quiet (h.inv.committing_of_inCommit hp)
      have hops : (s.commitNext p stage).ops = ∅ := by
        ext q
        simp only [mem_ops, Finset.notMem_empty, iff_false]
        cases stage <;> simp only [commitNext] <;> (try split_ifs) <;>
          (try rw [wakeup_eq_inOp]) <;> rw [update_eq_iff (by simp)] <;>
          exact fun h => hnone q h.2
      have hlh : (s.commitNext p stage).log.lh.length ≤ s.log.lh.length := by
        cases stage <;> simp only [commitNext] <;> (try split_ifs) <;> simp
      simp only [reserve, hops, Finset.sum_empty]
      omega
  · intro q c hq
    have hold := h.bounded q
    cases a with
    | begin p =>
      obtain ⟨-, ⟨-, rfl⟩ | ⟨-, rfl⟩⟩ := begin_cases hstep
      · exact hold c hq
      · -- a new operation has logged nothing
        by_cases hqp : q = p
        · subst hqp
          simp [MAXOPBLOCKS]
        · simpa [hqp] using hold c hq
    | kill p => obtain ⟨-, rfl⟩ := kill_cases hstep; exact hold c hq
    | logTest p b =>
      obtain ⟨-, rfl⟩ := logTest_cases hstep
      by_cases hqp : q = p
      · subst hqp
        obtain rfl : b = c := by simpa using hq
        exact hbounded
      · exact hold c (by simpa [hqp] using hq)
    | logWrite p =>
      obtain ⟨-, b, -, rfl⟩ := logWrite_cases hstep
      by_cases hqp : q = p
      · subst hqp
        simp at hq
      · simpa [hqp] using hold c (by simpa [hqp] using hq)
    | endOp p =>
      obtain ⟨-, -, ⟨-, rfl⟩ | ⟨-, rfl⟩⟩ := endOp_cases hstep <;> exact hold c hq
    | commitStep p =>
      obtain ⟨stage, -, rfl⟩ := commitStep_cases hstep
      cases stage <;> simp only [commitNext] at hq ⊢ <;> (try split_ifs at hq ⊢) <;> exact hold c hq

/-- **Log space.** With the log size that `mkfs` writes, in every run in which operations
log at most `MAXOPBLOCKS` distinct blocks and every admission leaves room for what the
running operations may still add, no `log_write` finds the log full. -/
theorem logWrite_fits {labels : List (Act P)} {s : Sys P}
    (hrun : Run (Guarded Step fun s a => s.Bounded a ∧ s.Fits a) (init P nlog) labels s)
    (p : P) (b : ℕ) : s.next (.logTest p b) ≠ .panic .tooBigTransaction := by
  have h : s.Room := hrun.invariant_of_guard room_init fun _ _ _ hu hg hstep =>
    hu.next hg.1 hg.2 hstep
  have hroom := h.room
  have hsize := h.size
  have hnlog : nlog = LOGSIZE := rfl
  have hfree : ¬ ((s.log.lh.length : ℤ) ≥ LOGSIZE ∨
      (s.log.lh.length : ℤ) ≥ s.log.size - 1) := by omega
  simp only [Sys.next, LogState.logTest, if_neg hfree]
  by_cases hp : s.pc p = .inOp ∧ s.tested p = none
  · rw [if_pos hp]
    split_ifs <;> simp
  · rw [if_neg hp]; simp

/-- Two operations that log eleven blocks between them never find the log full. -/
theorem logWrite_fits_two_operations :
    ∃ (labels : List (Act (Fin 2))) (s : Sys (Fin 2)),
      Run (Guarded Step fun s a => s.Bounded a ∧ s.Fits a) (init (Fin 2) nlog) labels s ∧
        s.log.lh.length = 11 ∧ s.next (.logTest 1 5) ≠ .panic .tooBigTransaction := by
  obtain ⟨s, hrun, htest⟩ := exists_run_of_runList
    (guardedNext (fun s a => s.Bounded a ∧ s.Fits a) fun s a => (s.next a).toOption)
    (guarded_of_guardedNext step_of_toOption)
    (init (Fin 2) nlog)
    ([.begin 0, .begin 1] ++ (List.range 11).flatMap fun i =>
      [.logTest (Fin.ofNat 2 (i / 10)) i, .logWrite (Fin.ofNat 2 (i / 10))])
    (fun s => s.log.lh.length = 11) (by decide +kernel)
  exact ⟨_, s, hrun, by simpa using htest, logWrite_fits hrun 1 5⟩

/-- Three operations that each may log `MAXOPBLOCKS` blocks are admitted together, and the
thirtieth distinct block finds the log of `mkfs` full. -/
theorem logWrite_overflows :
    ∃ (labels : List (Act (Fin 3))) (s : Sys (Fin 3)),
      Run (Guarded Step Bounded) (init (Fin 3) nlog) labels s ∧
        s.Bounded (.logTest 2 29) ∧
        s.next (.logTest 2 29) = .panic .tooBigTransaction := by
  obtain ⟨s, hrun, htest⟩ := exists_run_of_runList
    (guardedNext Bounded fun s a => (s.next a).toOption)
    (guarded_of_guardedNext step_of_toOption) (init (Fin 3) nlog)
    ([.begin 0, .begin 1, .begin 2] ++ (List.range 29).flatMap fun i =>
      [.logTest (Fin.ofNat 3 (i / 10)) i, .logWrite (Fin.ofNat 3 (i / 10))])
    (fun s => s.Bounded (.logTest 2 29) ∧ s.pc 2 = .inOp ∧ s.tested 2 = none ∧
      s.log.lh.length = 29 ∧ s.log.size = 30)
    (by decide +kernel)
  simp only [decide_eq_true_eq] at htest
  obtain ⟨hbounded, hpc, hnone, hlen, hsize⟩ := htest
  refine ⟨_, s, hrun, hbounded, ?_⟩
  simp [next, LogState.logTest, hpc, hnone, hlen, hsize]

end Sys

end Xv6.Log
