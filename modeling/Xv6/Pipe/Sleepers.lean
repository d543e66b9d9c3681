import Mathlib.Data.Fintype.Basic
import Xv6.Pipe.Model

/-!
# Sleepers on a pipe

A reader sleeps while the pipe is empty, a writer while it is full. Whoever changes that, or
closes the other end, has a `wakeup` to call before it lets go of the lock, so that once the
lock is free every sleeper still has its reason to sleep.

One exit has no `wakeup`: a `pipewrite` that finds the pipe full and its process killed, or
the read end closed, returns -1 at once. A reader that slept while this call filled the pipe
is then left behind.
-/

namespace Xv6.Pipes

open Lib

namespace Pc

/-- A process at this statement is still to wake up the readers. -/
def wakesReaders : Pc → Bool
  | .writeLoop _ _ | .writeFull _ _ | .writeWake _ _ | .writeDone _ => true
  | .closeWake writable => writable
  | _ => false

/-- A process at this statement is still to wake up the writers. -/
def wakesWriters : Pc → Bool
  | .readCopy _ _ | .readWake _ _ => true
  | .closeWake writable => !writable
  | _ => false

end Pc

/-- The condition on which processes sleep on a channel. -/
def Pipe.Waits (b : Pipe) : Chan → Prop
  | .nread => b.Empty ∧ b.writeopen = true
  | .nwrite => b.Full ∧ b.readopen = true

/-- A process at this statement is still to wake up the sleepers of a channel. -/
def Pc.wakes (pc : Pc) : Chan → Bool
  | .nread => pc.wakesReaders
  | .nwrite => pc.wakesWriters

/-- The test that may return -1 from `pipewrite`. -/
def Pc.isWriteFull : Pc → Bool
  | .writeFull _ _ => true
  | _ => false

/-- The process goes on with its call. -/
def Action.isGo {P : Type} : Action P → Bool
  | .go => true
  | _ => false

/-- In this step a `pipewrite` returns -1: the pipe is full, and the read end closed or the
process killed. -/
def Sys.GivesUp {P : Type} (s : Sys P) (l : P × Action P) : Prop :=
  l.2.isGo = true ∧ (s.pc l.1).isWriteFull = true ∧
    (s.pipe.readopen = false ∨ s.killed l.1 = true)

/-- A `pipewrite` that gives up leaves no reader asleep. -/
def GiveUpGuard {P : Type} (s : Sys P) (l : P × Action P) : Prop :=
  s.GivesUp l → ∀ q, s.asleep q ≠ some .nread

instance {P : Type} (s : Sys P) (l : P × Action P) : Decidable (s.GivesUp l) :=
  inferInstanceAs (Decidable (_ ∧ _ ∧ _))

instance {P : Type} [Fintype P] (s : Sys P) (l : P × Action P) : Decidable (GiveUpGuard s l) :=
  inferInstanceAs (Decidable (_ → ∀ _, _))

/-- Each sleeper has its reason to sleep, or the holder of the lock will wake it up. -/
structure SleepInv {P : Type} (s : Sys P) : Prop extends HoldInv s where
  asleep : ∀ q k, s.asleep q = some k →
    s.pipe.Waits k ∨ ∃ p, s.lock = some p ∧ (s.pc p).wakes k = true

namespace SleepInv

variable {P : Type} [DecidableEq P] {s s' : Sys P} {p q : P} {k : Chan} {pc : Pc}

omit [DecidableEq P] in
theorem waits (h : SleepInv s) (hl : s.lock = none) (hq : s.asleep q = some k) :
    s.pipe.Waits k := by
  rcases h.asleep q k hq with hw | ⟨p, hp, -⟩
  · exact hw
  · rw [hl] at hp
    cases hp

omit [DecidableEq P] in
/-- While `p` holds the lock, it is up to `p` to wake the sleepers. -/
theorem waits_or (h : SleepInv s) (hpc : s.pc p = pc) (hh : pc.holds = true)
    (hq : s.asleep q = some k) : s.pipe.Waits k ∨ pc.wakes k = true := by
  rcases h.asleep q k hq with hw | ⟨p', hp', hwakes⟩
  · exact .inl hw
  · rw [h.lock_eq hpc hh] at hp'
    obtain rfl := Option.some.inj hp'
    exact .inr (hpc ▸ hwakes)

/-- `p` goes on with the lock: what was waited for is still so, or `p` will call `wakeup`. -/
theorem hold (h' : HoldInv s') (hlock : s'.lock = some p)
    (hpc : s'.pc = Function.update s.pc p pc)
    (hwaits : ∀ q k, s'.asleep q = some k → s'.pipe.Waits k ∨ pc.wakes k = true) :
    SleepInv s' := by
  refine ⟨h', fun q k hq => ?_⟩
  rcases hwaits q k hq with hw | hw
  · exact .inl hw
  · refine .inr ⟨p, hlock, ?_⟩
    rwa [hpc, Function.update_self]

omit [DecidableEq P] in
/-- The lock is released: the sleepers have their reasons. -/
theorem leave (h' : HoldInv s') (hwaits : ∀ q k, s'.asleep q = some k → s'.pipe.Waits k) :
    SleepInv s' :=
  ⟨h', fun q k hq => .inl (hwaits q k hq)⟩

omit [DecidableEq P] in
/-- A statement of `p` that leaves the pipe as it is, and its duties to the next one. -/
theorem keep {pc' : Pc} (h : SleepInv s) (hpc : s.pc p = pc) (hh : pc.holds = true)
    (hpipe : s'.pipe = s.pipe)
    (hsub : ∀ q k, s'.asleep q = some k →
      s.asleep q = some k ∧ (pc.wakes k = true → pc'.wakes k = true)) :
    ∀ q k, s'.asleep q = some k → s'.pipe.Waits k ∨ pc'.wakes k = true := by
  intro q k hq
  obtain ⟨hq, hwakes⟩ := hsub q k hq
  rw [hpipe]
  exact (h.waits_or hpc hh hq).imp_right hwakes

omit [DecidableEq P] in
/-- A statement of `p` with no duty. -/
theorem waits_of_not_wakes (h : SleepInv s) (hpc : s.pc p = pc) (hh : pc.holds = true)
    (hnot : pc.wakes k = false) (hq : s.asleep q = some k) : s.pipe.Waits k :=
  (h.waits_or hpc hh hq).resolve_right (by simp [hnot])

omit [DecidableEq P] in
/-- After `wakeup(k)` the sleepers are those on the other channel. -/
theorem asleep_wakeup {k' : Chan} (hq : (s.wakeup k).asleep q = some k') :
    s.asleep q = some k' ∧ k' ≠ k := by
  simp only [Sys.wakeup_asleep] at hq
  split_ifs at hq with hk
  exact ⟨hq, fun h => hk (h ▸ hq)⟩

/-- A process goes to sleep for a reason. -/
theorem sleep {pc' : Pc} (h : SleepInv s) (hpc : s.pc p = pc) (hh : pc.holds = true)
    (hnot : ∀ k, pc.wakes k = false) (hw : s.pipe.Waits k)
    (h' : HoldInv (s.sleep p k pc')) : SleepInv (s.sleep p k pc') := by
  refine leave h' fun q k' hq => ?_
  simp only [Sys.sleep_asleep] at hq
  by_cases hqp : q = p
  · subst hqp
    rw [Function.update_self] at hq
    exact Option.some.inj hq ▸ hw
  · rw [Function.update_of_ne hqp] at hq
    exact h.waits_of_not_wakes hpc hh (hnot k') hq

/-- Every step keeps this, if a `pipewrite` that gives up leaves no reader asleep. -/
theorem trans {a : Action P} (h : SleepInv s) (hg : GiveUpGuard s (p, a))
    (hst : Sys.Trans s p a s') : SleepInv s' := by
  have h' : HoldInv s' := h.toHoldInv.trans hst
  have hfits := h.fits p
  cases hst with
  | kill q₀ =>
    refine ⟨h', fun q k hq => ?_⟩
    by_cases hqq : q = q₀
    · subst hqq
      simp at hq
    · exact h.asleep q k (by simpa [hqq] using hq)
  | write _ _ _ hl | read _ _ hl | close _ _ hl | writeRelock _ hl | readRelock _ hl =>
    exact hold h' rfl rfl fun q k hq => .inl (h.waits hl hq)
  | full hpc | finish hpc | stay hpc | empty hpc | readStay hpc | copied hpc =>
    exact hold h' (h.lock_eq hpc rfl) rfl (h.keep hpc rfl rfl fun q k hq => ⟨hq, id⟩)
  | copy hpc =>
    exact hold h' (h.lock_eq hpc rfl) rfl
      (h.keep hpc rfl rfl fun q k hq => ⟨hq, by cases k <;> simp [Pc.wakes, Pc.wakesReaders,
        Pc.wakesWriters]⟩)
  | store hpc _ hfull =>
    -- no writer was asleep, and the readers are woken up later
    refine hold h' (h.lock_eq hpc rfl) rfl fun q k hq => ?_
    cases k with
    | nread => exact .inr rfl
    | nwrite => exact absurd (h.waits_of_not_wakes hpc rfl rfl hq).1 hfull
  | giveUp hpc hc =>
    refine leave h' fun q k hq => ?_
    cases k with
    | nread => exact absurd hq (hg ⟨rfl, by rw [hpc]; rfl, hc⟩ q)
    | nwrite => exact h.waits_of_not_wakes hpc rfl rfl hq
  | writeWake hpc | writeDone hpc | readWake hpc | wakeReaders hpc | wakeWriters hpc =>
    refine hold h' (h.lock_eq hpc rfl) rfl (h.keep hpc rfl rfl fun q k hq => ?_)
    obtain ⟨hq, hne⟩ := asleep_wakeup hq
    exact ⟨hq, by cases k <;> simp_all [Pc.wakes, Pc.wakesReaders, Pc.wakesWriters]⟩
  | writeSleep hpc =>
    rw [hpc] at hfits
    exact h.sleep hpc rfl (fun k => by cases k <;> rfl) hfits h'
  | readSleep hpc =>
    rw [hpc] at hfits
    exact h.sleep hpc rfl (fun k => by cases k <;> rfl) hfits h'
  | writeReturn hpc | readKilled hpc | readReturn hpc | free hpc | closed hpc =>
    exact leave h' fun q k hq => h.waits_of_not_wakes hpc rfl (by cases k <;> rfl) hq
  | deliver hpc hne =>
    -- no reader was asleep, and the writers are woken up later
    refine hold h' (h.lock_eq hpc rfl) rfl fun q k hq => ?_
    cases k with
    | nread => exact absurd (h.waits_of_not_wakes hpc rfl rfl hq).1 hne
    | nwrite => exact .inr rfl
  | closeWrite hpc =>
    refine hold h' (h.lock_eq hpc rfl) rfl fun q k hq => ?_
    cases k with
    | nread => exact .inr rfl
    | nwrite => exact .inl (h.waits_of_not_wakes (k := .nwrite) hpc rfl rfl hq)
  | closeRead hpc =>
    refine hold h' (h.lock_eq hpc rfl) rfl fun q k hq => ?_
    cases k with
    | nread => exact .inl (h.waits_of_not_wakes (k := .nread) hpc rfl rfl hq)
    | nwrite => exact .inr rfl

omit [DecidableEq P] in
theorem init (data : Fin PIPESIZE → UInt8) : SleepInv (Sys.init data : Sys P) :=
  ⟨HoldInv.init data, fun q k hq => by cases hq⟩

end SleepInv

/-- In every run, at any interleaving, whoever is asleep while the lock is free has its reason
to be: the pipe is empty and can still be written, or it is full and can still be read. The
exception is the `pipewrite` that gives up with a reader asleep. -/
theorem sleepers_have_reason {P : Type} [DecidableEq P] (data : Fin PIPESIZE → UInt8)
    {labels : List (P × Action P)} {s : Sys P}
    (hrun : Run (Guarded Sys.Step GiveUpGuard) (Sys.init data) labels s) (hlock : s.lock = none)
    (q : P) :
    (s.asleep q = some .nread → s.pipe.nread = s.pipe.nwrite ∧ s.pipe.writeopen = true) ∧
      (s.asleep q = some .nwrite →
        s.pipe.nwrite = s.pipe.nread + PIPESIZE.toUInt32 ∧ s.pipe.readopen = true) := by
  have hinv : SleepInv s := hrun.invariant_of_guard (SleepInv.init data)
    fun _ _ _ hu hg h => hu.trans hg (Sys.trans_of_next h)
  exact ⟨fun hq => hinv.waits hlock hq, fun hq => hinv.waits hlock hq⟩

/-- A reader that found the pipe empty is asleep for a reason. -/
theorem sleepers_have_reason_reader :
    ∃ (labels : List (Fin 2 × Action (Fin 2))) (s : Sys (Fin 2)),
      Run (Guarded Sys.Step GiveUpGuard) (Sys.init fun _ => 0) labels s ∧ s.lock = none ∧
        s.asleep 0 = some .nread ∧ s.pipe.nread = s.pipe.nwrite ∧ s.pipe.writeopen = true := by
  obtain ⟨s, hrun, htest⟩ := exists_run_of_runList (guardedNext GiveUpGuard Sys.next)
    (guarded_of_guardedNext fun _ _ _ h => h) (Sys.init fun _ => 0 : Sys (Fin 2))
    [(0, .read 1), (0, .go), (0, .go), (0, .go)]
    (fun s => s.lock.isNone ∧ s.asleep 0 = some .nread) (by decide +kernel)
  obtain ⟨hlock, hasleep⟩ : s.lock.isNone = true ∧ s.asleep 0 = some .nread := by
    simpa using htest
  have hfree : s.lock = none := Option.isNone_iff_eq_none.mp hlock
  exact ⟨_, s, hrun, hfree, hasleep, (sleepers_have_reason _ hrun hfree 0).1 hasleep⟩

/-- One process sleeps in `piperead`. Another one writes 513 bytes and is killed by a third
after 100 of them: 512 fill the pipe, then the call returns -1 and the reader sleeps on. -/
theorem reader_left_asleep :
    ∃ (labels : List (Fin 3 × Action (Fin 3))) (s : Sys (Fin 3)),
      Run Sys.Step (Sys.init fun _ => 0) labels s ∧ s.lock = none ∧
        s.asleep 0 = some .nread ∧ s.pipe.nread ≠ s.pipe.nwrite := by
  obtain ⟨s, hrun, htest⟩ := exists_run_of_runList Sys.next
    (fun _ _ _ h => h) (Sys.init fun _ => 0 : Sys (Fin 3))
    ([(0, .read 1), (0, .go), (0, .go), (0, .go), (1, .write (fun _ => 7) 513)] ++
      List.replicate 100 (1, .go) ++ [(2, .kill 1)] ++ List.replicate 414 (1, .go))
    (fun s => s.lock.isNone ∧ s.asleep 0 = some .nread ∧ s.pipe.nread ≠ s.pipe.nwrite)
    (by decide +kernel)
  obtain ⟨hlock, hasleep, hne⟩ : s.lock.isNone = true ∧ s.asleep 0 = some .nread ∧
      s.pipe.nread ≠ s.pipe.nwrite := by simpa using htest
  exact ⟨_, s, hrun, Option.isNone_iff_eq_none.mp hlock, hasleep, hne⟩

end Xv6.Pipes
