import Mathlib.Tactic.Common
import Xv6.Spinlock.Model

/-!
# The interrupt state follows the thread

The counter `ncli` and the saved flag `intena` belong to the CPU, but they describe the thread on
it: the counter is the number of levels of that thread, and while a process has a level the saved
flag is the one of its own outermost `pushcli`. A thread that is not on a CPU has left both behind
in a known state: a process in `sched` has one level and its flag in a variable, a scheduler has one
level. One lemma says what a step of the running thread has to keep; the switches are the only other
steps. -/

namespace Xv6.Spinlock

open Lib

variable {C P L : Type}

/-- How many levels the scheduler's own loop has at this point. -/
def Pc.own : Pc L → Option ℕ
  | .top => some 0
  | .ready => some 0
  | .scan => some 1
  | .pushing _ _ true => some 0
  | .spin _ true => some 1
  | _ => none

/-- The variable `eflags` of a `pushcli` in progress, if there is one, is `flag`. -/
def Pc.Reads (pc : Pc L) (flag : Bool) : Prop := ∀ e lk loop, pc = .pushing e lk loop → e = flag

/-- A CPU and the thread on it. -/
structure Fits (x : Cpu P) (k : Kthread L) : Prop where
  off : x.flIf = true → x.ncli = 0
  level : x.ncli = k.level
  intena : x.proc ≠ none → 0 < k.level → ∀ b, k.outer = some b → x.intena = b
  reads : k.pc.Reads x.flIf

/-- A thread by itself: the scheduler's loop has its levels where it should, and the code that an
interrupt has met had none. -/
structure Kthread.Ok (k : Kthread L) : Prop where
  own : ∀ n, k.pc.own = some n → k.level = n
  frame_reads : ∀ f ∈ k.frames, f.pc.Reads f.eflags
  frame_own : ∀ f ∈ k.frames, ∀ n, f.pc.own = some n → n = 0

section Threads

variable {x x' : Cpu P} {k : Kthread L}

/-- The end of `pushcli`. -/
theorem Fits.pushcli (h : Fits x k) (pc : Pc L) {e : Bool} (he : e = x.flIf)
    (hpc : ∀ flag, pc.Reads flag) :
    Fits (x.pushcli e) { k.push x.flIf with pc := pc } := by
  have hlevel := h.level
  refine ⟨fun hflag => ?_, ?_, fun hproc _ b hb => ?_, hpc _⟩
  · cases hflag
  · simp only [Cpu.pushcli, Kthread.push]
    omega
  · simp only [Kthread.push] at hb
    simp only [Cpu.pushcli]
    split_ifs at hb with hzero
    · rw [if_pos (by omega), he]
      exact Option.some.inj hb
    · rw [if_neg (by omega)]
      exact h.intena hproc (by omega) b hb

theorem Cpu.popcli_eq_ok (h : x.popcli = .ok x') :
    x.flIf = false ∧ 1 ≤ x.ncli ∧ x' = { x with
      ncli := x.ncli - 1
      flIf := decide (x.ncli - 1 = 0) && x.intena } := by
  unfold Cpu.popcli at h
  split_ifs at h with hflag hneg
  exact ⟨by simpa using hflag, by omega, (Except.ok.inj h).symm⟩

/-- A `popcli` right after a `pushcli`, as in `holding`, leaves the flag and the levels as they
were, and the saved flag too if there is a level. -/
theorem Fits.popcli_pushcli (h : Fits x k) :
    (x.pushcli x.flIf).popcli =
      .ok { x with intena := if x.ncli = 0 then x.flIf else x.intena } := by
  have hlevel := h.level
  have hback : x.ncli + 1 - 1 = x.ncli := by omega
  have hflag : (decide (x.ncli = 0) && if x.ncli = 0 then x.flIf else x.intena) = x.flIf := by
    by_cases hzero : x.ncli = 0
    · simp only [hzero, decide_true, if_true, Bool.true_and]
    · have hoff : x.flIf = false := by
        rw [← Bool.not_eq_true]
        exact fun hon => hzero (h.off hon)
      simp only [hzero, decide_false, Bool.false_and, hoff]
  unfold Cpu.pushcli Cpu.popcli
  simp only [hback, hflag, Bool.false_eq_true, if_false]
  rw [if_neg (by omega)]

/-- `popcli` -/
theorem Fits.popcli (h : Fits x k) (pc : Pc L) (hpop : x.popcli = .ok x')
    (hpc : ∀ flag, pc.Reads flag) :
    x'.proc = x.proc ∧ Fits x' { k.pop with pc := pc } := by
  obtain ⟨-, hpos, rfl⟩ := Cpu.popcli_eq_ok hpop
  have hlevel := h.level
  refine ⟨rfl, ?_, ?_, fun hproc hlt b hb => ?_, hpc _⟩
  · intro hflag
    simp only [Bool.and_eq_true, decide_eq_true_eq] at hflag
    exact hflag.1
  · simp only [Kthread.pop]
    omega
  · simp only [Kthread.pop] at hlt
    exact h.intena hproc (by omega) b hb

/-- `popcli` of the outermost level restores the flag. -/
theorem Fits.popcli_outermost (h : Fits x k) (hpop : x.popcli = .ok x') (hproc : x.proc ≠ none)
    (hone : k.level = 1) {b : Bool} (hb : k.outer = some b) : x'.flIf = b := by
  obtain ⟨-, -, rfl⟩ := Cpu.popcli_eq_ok hpop
  have hlevel := h.level
  have hzero : x.ncli - 1 = 0 := by omega
  simp only [hzero, decide_true, Bool.true_and]
  exact h.intena hproc (by omega) b hb

/-- A thread whose code moves on, with no change of levels or frames. -/
theorem Kthread.Ok.goto (h : k.Ok) (pc : Pc L) (hpc : ∀ n, pc.own = some n → k.level = n) :
    Kthread.Ok { k with pc := pc } :=
  ⟨hpc, h.frame_reads, h.frame_own⟩

theorem Kthread.Ok.push (h : k.Ok) (pc : Pc L) (flag : Bool)
    (hpc : ∀ n, pc.own = some n → k.level + 1 = n) :
    Kthread.Ok { k.push flag with pc := pc } :=
  ⟨hpc, h.frame_reads, h.frame_own⟩

theorem Kthread.Ok.pop (h : k.Ok) (pc : Pc L) (hpc : ∀ n, pc.own = some n → k.level - 1 = n) :
    Kthread.Ok { k.pop with pc := pc } :=
  ⟨hpc, h.frame_reads, h.frame_own⟩

end Threads

section Invariant

/-- The invariant of the system. -/
structure Sys.Inv (s : Sys C P L) : Prop where
  fits : ∀ c, Fits (s.cpus c) (s.threads (s.thread c))
  ok : ∀ t, (s.threads t).Ok
  /-- A process in `sched` has one level, and its flag in a variable. -/
  saved : ∀ p i, s.context p = .sched i → (s.threads (.proc p)).level = 1 ∧
    (s.threads (.proc p)).pc = .run ∧ ∀ b, (s.threads (.proc p)).outer = some b → i = b
  on : ∀ c p, (s.cpus c).proc = some p → s.context p = .on c
  /-- A scheduler that has switched to a process is in its loop over the table. -/
  away : ∀ c p, (s.cpus c).proc = some p → (s.threads (.scheduler c)).pc = .scan

variable {s t : Sys C P L} {c : C} {p : P}

theorem Sys.thread_proc (h : (s.cpus c).proc = some p) : s.thread c = .proc p := by
  rw [Sys.thread, h]

theorem Sys.thread_scheduler (h : (s.cpus c).proc = none) : s.thread c = .scheduler c := by
  rw [Sys.thread, h]

namespace Sys.Inv

/-- A thread runs on one CPU only. -/
theorem thread_inj (h : s.Inv) {c' : C} (heq : s.thread c' = s.thread c) : c' = c := by
  cases hp : (s.cpus c).proc with
  | none =>
    rw [thread_scheduler hp] at heq
    cases hp' : (s.cpus c').proc with
    | none =>
      rw [thread_scheduler hp'] at heq
      exact Thread.scheduler.inj heq
    | some p' =>
      rw [thread_proc hp'] at heq
      cases heq
  | some p =>
    rw [thread_proc hp] at heq
    cases hp' : (s.cpus c').proc with
    | none =>
      rw [thread_scheduler hp'] at heq
      cases heq
    | some p' =>
      rw [thread_proc hp'] at heq
      obtain rfl := Thread.proc.inj heq
      have hon := h.on c p' hp
      rw [h.on c' p' hp'] at hon
      exact Context.on.inj hon

/-- A process in `sched` is on no CPU. -/
theorem thread_ne_of_saved (h : s.Inv) {i : Bool} (hp : s.context p = .sched i) :
    Thread.proc p ≠ s.thread c := by
  intro heq
  cases hproc : (s.cpus c).proc with
  | none =>
    rw [thread_scheduler hproc] at heq
    cases heq
  | some p' =>
    rw [thread_proc hproc] at heq
    obtain rfl := Thread.proc.inj heq
    rw [h.on c p hproc] at hp
    cases hp

/-- The slot of a process that has exited. -/
theorem allocproc [DecidableEq P] (h : s.Inv) {i : Bool} (hp : s.context p = .sched i) :
    Sys.Inv { s with context := Function.update s.context p .forkret } := by
  refine ⟨h.fits, h.ok, fun q j hq => ?_, fun c q hq => ?_, h.away⟩
  · by_cases hqp : q = p
    · subst hqp
      simp only [Function.update_self] at hq
      cases hq
    · simp only [Function.update_of_ne hqp] at hq
      exact h.saved q j hq
  · have hqp : q ≠ p := by
      rintro rfl
      rw [h.on c q hq] at hp
      cases hp
    simpa only [Function.update_of_ne hqp] using h.on c q hq

variable [DecidableEq C] [DecidableEq P]

/-- A step of the running thread, which may also change locks. -/
theorem put (h : s.Inv) {x : Cpu P} {k : Kthread L} (hcpus : t.cpus = Function.update s.cpus c x)
    (hthreads : t.threads = Function.update s.threads (s.thread c) k)
    (hcontext : t.context = s.context) (hproc : x.proc = (s.cpus c).proc) (hfits : Fits x k)
    (hok : k.Ok) : t.Inv := by
  have hsame : ∀ c', (t.cpus c').proc = (s.cpus c').proc := by
    intro c'
    rw [hcpus]
    by_cases hc : c' = c
    · subst hc
      rw [Function.update_self, hproc]
    · rw [Function.update_of_ne hc]
  have hthread : ∀ c', t.thread c' = s.thread c' := fun c' => by rw [Sys.thread, hsame, Sys.thread]
  refine ⟨fun c' => ?_, fun t' => ?_, fun p i hp => ?_, fun c' p hp => ?_, fun c' p hp => ?_⟩
  · rw [hthread, hcpus, hthreads]
    by_cases hc : c' = c
    · subst hc
      rwa [Function.update_self, Function.update_self]
    · rw [Function.update_of_ne hc, Function.update_of_ne fun heq => hc (h.thread_inj heq)]
      exact h.fits c'
  · rw [hthreads]
    by_cases ht : t' = s.thread c
    · subst ht
      rwa [Function.update_self]
    · rw [Function.update_of_ne ht]
      exact h.ok t'
  · rw [hcontext] at hp
    rw [hthreads, Function.update_of_ne (h.thread_ne_of_saved hp)]
    exact h.saved p i hp
  · rw [hcontext]
    exact h.on c' p ((hsame c').symm.trans hp)
  · have hp' : (s.cpus c').proc = some p := (hsame c').symm.trans hp
    have hne : Thread.scheduler c' ≠ s.thread c := by
      intro heq
      cases hproc' : (s.cpus c).proc with
      | none =>
        rw [thread_scheduler hproc'] at heq
        obtain rfl := Thread.scheduler.inj heq
        rw [hproc'] at hp'
        cases hp'
      | some q =>
        rw [thread_proc hproc'] at heq
        cases heq
    rw [hthreads, Function.update_of_ne hne]
    exact h.away c' p hp'

/-- A step of the running thread that leaves the CPU and the history as they are. -/
theorem goto (h : s.Inv) (pc : Pc L) (hcpus : t.cpus = Function.update s.cpus c (s.cpus c))
    (hthreads : t.threads = Function.update s.threads (s.thread c)
      { s.threads (s.thread c) with pc := pc }) (hcontext : t.context = s.context)
    (hreads : pc.Reads (s.cpus c).flIf)
    (hown : ∀ n, pc.own = some n → (s.threads (s.thread c)).level = n) : t.Inv :=
  have hfits := h.fits c
  h.put hcpus hthreads hcontext rfl ⟨hfits.off, hfits.level, hfits.intena, hreads⟩
    ((h.ok _).goto pc hown)

/-- `popcli`, or the end of `release`. -/
theorem popcli (h : s.Inv) (pc : Pc L) (locks : L → Lock C) (hpc : ∀ flag, pc.Reads flag)
    (hown : ∀ n, pc.own = some n → (s.threads (s.thread c)).level - 1 = n)
    (hpop : Sys.popcli { s with locks := locks } c (s.threads (s.thread c)) pc = .ok t) :
    t.Inv := by
  unfold Sys.popcli at hpop
  split at hpop
  case h_1 => cases hpop
  case h_2 x hx =>
    obtain rfl := Outcome.ok.inj hpop
    obtain ⟨hproc, hfits⟩ := (h.fits c).popcli pc hx hpc
    exact h.put rfl rfl rfl hproc hfits ((h.ok _).pop pc hown)

/-- The switch from a process to the scheduler. -/
theorem sched [DecidableEq L] (h : s.Inv) {ptable : L} (hp : (s.cpus c).proc = some p)
    (hpc : (s.threads (.proc p)).pc = .run) (hsched : s.sched ptable c p = .ok t) : t.Inv := by
  unfold Sys.sched at hsched
  dsimp only at hsched
  split_ifs at hsched with _ hflag hone
  obtain rfl := Outcome.ok.inj hsched
  rw [not_not] at hone
  have hfits := h.fits c
  rw [thread_proc hp] at hfits
  have hlevel : (s.threads (.proc p)).level = 1 := by
    have := hfits.level
    omega
  have haway := h.away c p hp
  refine ⟨fun c' => ?_, h.ok, fun q i hq => ?_, fun c' q hq => ?_, fun c' q hq => ?_⟩
  · by_cases hc : c' = c
    · subst hc
      simp only [Sys.thread, Function.update_self]
      -- the scheduler has the level that the process leaves on the CPU
      refine ⟨fun hon => absurd hon hflag, ?_, fun hno => absurd rfl hno, ?_⟩
      · rw [(h.ok _).own 1 (by rw [haway]; rfl)]
        exact hone
      · rw [haway]
        exact nofun
    · simpa only [Sys.thread, Function.update_of_ne hc] using h.fits c'
  · by_cases hqp : q = p
    · subst hqp
      simp only [Function.update_self] at hq
      obtain rfl := Context.sched.inj hq
      exact ⟨hlevel, hpc, hfits.intena (by rw [hp]; exact Option.some_ne_none _) (by omega)⟩
    · simp only [Function.update_of_ne hqp] at hq
      exact h.saved q i hq
  · by_cases hc : c' = c
    · subst hc
      simp only [Function.update_self] at hq
      cases hq
    · simp only [Function.update_of_ne hc] at hq
      have hqp : q ≠ p := by
        rintro rfl
        have hon := h.on c' q hq
        rw [h.on c q hp] at hon
        exact hc (Context.on.inj hon).symm
      simpa only [Function.update_of_ne hqp] using h.on c' q hq
  · by_cases hc : c' = c
    · subst hc
      simp only [Function.update_self] at hq
      cases hq
    · simp only [Function.update_of_ne hc] at hq
      exact h.away c' q hq

/-- The switch from the scheduler to a process, whose thread is `k`. -/
theorem resume (h : s.Inv) (hnone : (s.cpus c).proc = none)
    (hscan : (s.threads (.scheduler c)).pc = .scan) (hp : ∀ c, s.context p ≠ .on c)
    {k : Kthread L} {i : Bool} (hok : k.Ok) (hlevel : k.level = 1) (hpc : k.pc = .run)
    (hi : ∀ b, k.outer = some b → i = b) :
    Sys.Inv { s with
      cpus := Function.update s.cpus c { s.cpus c with proc := some p, intena := i }
      threads := Function.update s.threads (.proc p) k
      context := Function.update s.context p (.on c) } := by
  have hfits := h.fits c
  rw [thread_scheduler hnone] at hfits
  have hone : (s.cpus c).ncli = 1 := by
    have hown := (h.ok (.scheduler c)).own 1 (by rw [hscan]; rfl)
    have := hfits.level
    omega
  refine ⟨fun c' => ?_, fun t' => ?_, fun q j hq => ?_, fun c' q hq => ?_, fun c' q hq => ?_⟩
  · by_cases hc : c' = c
    · subst hc
      simp only [Sys.thread, Function.update_self]
      refine ⟨hfits.off, by rw [hone, hlevel]; rfl, fun _ _ => hi, ?_⟩
      rw [hpc]
      exact nofun
    · have hne : s.thread c' ≠ .proc p := by
        intro heq
        cases hproc : (s.cpus c').proc with
        | none =>
          rw [thread_scheduler hproc] at heq
          cases heq
        | some q =>
          rw [thread_proc hproc] at heq
          obtain rfl := Thread.proc.inj heq
          exact hp c' (h.on c' q hproc)
      have hthread : Sys.thread { s with
          cpus := Function.update s.cpus c { s.cpus c with proc := some p, intena := i }
          threads := Function.update s.threads (.proc p) k
          context := Function.update s.context p (.on c) } c' = s.thread c' := by
        simp only [Sys.thread, Function.update_of_ne hc]
      rw [hthread]
      simpa only [Function.update_of_ne hc, Function.update_of_ne hne] using h.fits c'
  · by_cases ht : t' = .proc p
    · subst ht
      simpa only [Function.update_self] using hok
    · simpa only [Function.update_of_ne ht] using h.ok t'
  · by_cases hqp : q = p
    · subst hqp
      simp only [Function.update_self] at hq
      cases hq
    · simp only [Function.update_of_ne hqp] at hq
      have hne : Thread.proc q ≠ (.proc p : Thread C P) := fun heq => hqp (Thread.proc.inj heq)
      simpa only [Function.update_of_ne hne] using h.saved q j hq
  · by_cases hc : c' = c
    · subst hc
      simp only [Function.update_self] at hq
      obtain rfl := Option.some.inj hq
      exact Function.update_self ..
    · simp only [Function.update_of_ne hc] at hq
      have hqp : q ≠ p := by
        rintro rfl
        exact hp c' (h.on c' q hq)
      simpa only [Function.update_of_ne hqp] using h.on c' q hq
  · have hne : Thread.scheduler c' ≠ (.proc p : Thread C P) := nofun
    by_cases hc : c' = c
    · subst hc
      simpa only [Function.update_of_ne hne] using hscan
    · simp only [Function.update_of_ne hc] at hq
      simpa only [Function.update_of_ne hne] using h.away c' q hq

theorem swtch [DecidableEq L] (h : s.Inv) (hnone : (s.cpus c).proc = none)
    (hscan : (s.threads (.scheduler c)).pc = .scan) (hswtch : s.swtch c p = .ok t) : t.Inv := by
  unfold Sys.swtch at hswtch
  dsimp only at hswtch
  split at hswtch
  case h_1 => cases hswtch
  case h_2 i hp =>
    obtain rfl := Outcome.ok.inj hswtch
    obtain ⟨hlevel, hpc, hi⟩ := h.saved p i hp
    have hinv := h.resume hnone hscan (by rw [hp]; exact nofun) (h.ok (.proc p)) hlevel hpc hi
    rwa [Function.update_eq_self] at hinv
  case h_3 hp =>
    obtain rfl := Outcome.ok.inj hswtch
    refine h.resume hnone hscan (by rw [hp]; exact nofun) (i := (s.cpus c).intena) ?_ ?_ rfl nofun
    · refine ⟨nofun, fun f hf => ?_, fun f hf => ?_⟩
      · rw [List.mem_singleton.mp hf]
        exact nofun
      · rw [List.mem_singleton.mp hf]
        exact nofun
    · exact (h.ok (.scheduler c)).own 1 (by rw [hscan]; rfl)

/-- Every step keeps the invariant. -/
theorem step [DecidableEq L] {ptable : L} {a : Act P L} (h : s.Inv)
    (hstep : s.next ptable c a = .ok t) : t.Inv := by
  have hfits := h.fits c
  have hok := h.ok (s.thread c)
  unfold Sys.next at hstep
  dsimp only at hstep
  split at hstep
  case h_1 hpc =>
    obtain rfl := Outcome.ok.inj hstep
    refine h.goto (.pushing (s.cpus c).flIf none false) rfl rfl rfl ?_ nofun
    rintro e lk loop ⟨⟩
    rfl
  case h_2 lk hpc =>
    obtain rfl := Outcome.ok.inj hstep
    refine h.goto (.pushing (s.cpus c).flIf (some lk) false) rfl rfl rfl ?_ nofun
    rintro e lk loop ⟨⟩
    rfl
  case h_3 lk hpc =>
    split_ifs at hstep
    obtain rfl := Outcome.ok.inj hstep
    refine h.goto (.pushing (s.cpus c).flIf (some lk) true) rfl rfl rfl ?_ ?_
    · rintro e lk loop ⟨⟩
      rfl
    · rintro n ⟨⟩
      exact hok.own 0 (by rw [hpc]; rfl)
  case h_4 eflags loop hpc =>
    obtain rfl := Outcome.ok.inj hstep
    exact h.put rfl rfl rfl rfl (hfits.pushcli .run (hfits.reads _ _ _ hpc) fun _ => nofun)
      (hok.push .run _ nofun)
  case h_5 eflags lk loop hpc =>
    split_ifs at hstep
    obtain rfl := Outcome.ok.inj hstep
    refine h.put rfl rfl rfl rfl
      (hfits.pushcli (.spin lk loop) (hfits.reads _ _ _ hpc) fun _ => nofun)
      (hok.push (.spin lk loop) _ ?_)
    intro n hn
    cases loop with
    | false => cases hn
    | true =>
      rw [hok.own 0 (by rw [hpc]; rfl)]
      exact Option.some.inj hn
  case h_6 lk loop hpc =>
    by_cases hlocked : (s.locks lk).locked = true
    · rw [if_pos hlocked] at hstep
      obtain rfl := Outcome.ok.inj hstep
      exact h
    · rw [if_neg hlocked] at hstep
      obtain rfl := Outcome.ok.inj hstep
      cases loop with
      | false => exact h.goto .run rfl rfl rfl nofun nofun
      | true =>
        refine h.goto .scan rfl rfl rfl nofun ?_
        rintro n ⟨⟩
        exact hok.own 1 (by rw [hpc]; rfl)
  case h_7 hpc => exact h.popcli .run s.locks (fun _ => nofun) nofun hstep
  case h_8 lk hpc =>
    unfold Sys.release at hstep
    split_ifs at hstep
    exact h.popcli .run _ (fun _ => nofun) nofun hstep
  case h_9 lk hpc =>
    unfold Sys.release at hstep
    split_ifs at hstep
    refine h.popcli .top _ (fun _ => nofun) ?_ hstep
    rintro n ⟨⟩
    rw [hok.own 1 (by rw [hpc]; rfl)]
  case h_10 hpc =>
    split at hstep
    case h_1 p hp =>
      rw [thread_proc hp] at hpc
      exact h.sched hp hpc hstep
    case h_2 => cases hstep
  case h_11 p hpc =>
    split at hstep
    case h_1 => cases hstep
    case h_2 hnone =>
      rw [thread_scheduler hnone] at hpc
      exact h.swtch hnone hpc hstep
  case h_12 hpc =>
    obtain rfl := Outcome.ok.inj hstep
    have hzero := hok.own 0 (by rw [hpc]; rfl)
    refine h.put rfl rfl rfl rfl ⟨fun _ => ?_, hfits.level, hfits.intena, nofun⟩
      (hok.goto .ready ?_)
    · rw [hfits.level, hzero]
      rfl
    · rintro n ⟨⟩
      exact hzero
  case h_13 =>
    split_ifs at hstep with hflag
    obtain rfl := Outcome.ok.inj hstep
    -- the code that the interrupt meets has no level
    have hzero : (s.threads (s.thread c)).level = 0 := by
      have := hfits.off hflag
      have := hfits.level
      omega
    refine h.put rfl rfl rfl rfl ⟨nofun, hfits.level, hfits.intena, nofun⟩ ⟨nofun, ?_, ?_⟩
    · intro f hf
      rcases List.mem_cons.mp hf with rfl | hf
      · rw [← hflag]
        exact hfits.reads
      · exact hok.frame_reads f hf
    · intro f hf n hn
      rcases List.mem_cons.mp hf with rfl | hf
      · rw [← hok.own n hn, hzero]
      · exact hok.frame_own f hf n hn
  case h_14 hpc =>
    split at hstep
    case h_1 => cases hstep
    case h_2 f frames hframes =>
      split_ifs at hstep with hzero
      obtain rfl := Outcome.ok.inj hstep
      have hf : f ∈ (s.threads (s.thread c)).frames := by
        rw [hframes]
        exact List.mem_cons_self ..
      have hrest : ∀ g ∈ frames, g ∈ (s.threads (s.thread c)).frames := by
        intro g hg
        rw [hframes]
        exact List.mem_cons_of_mem _ hg
      refine h.put rfl rfl rfl rfl ⟨fun _ => ?_, hfits.level, hfits.intena, hok.frame_reads f hf⟩
        ⟨fun n hn => ?_, fun g hg => hok.frame_reads g (hrest g hg),
          fun g hg => hok.frame_own g (hrest g hg)⟩
      · rw [hfits.level, hzero]
        rfl
      · rw [hok.frame_own f hf n hn]
        exact hzero
  case h_15 p hpc =>
    split at hstep
    case h_1 i hp =>
      obtain rfl := Outcome.ok.inj hstep
      exact h.allocproc hp
    case h_2 => cases hstep
  case h_16 => cases hstep

end Sys.Inv

theorem Sys.boot_inv : (Sys.boot : Sys C P L).Inv where
  fits _ := ⟨nofun, rfl, fun hno => absurd rfl hno, nofun⟩
  ok
    | .proc _ => ⟨nofun, nofun, nofun⟩
    | .scheduler _ => ⟨by rintro n ⟨⟩; rfl, nofun, nofun⟩
  saved := nofun
  on := nofun
  away := nofun

variable [DecidableEq C] [DecidableEq P]

theorem Sys.put_cpus {x : Cpu P} {k : Kthread L} : (s.put c x k).cpus c = x :=
  Function.update_self ..

theorem Sys.le_level_put {x : Cpu P} {k : Kthread L} {n : ℕ} (h : n ≤ k.level) :
    n ≤ ((s.put c x k).threads (s.thread c)).level := by
  have hself : (s.put c x k).threads (s.thread c) = k := Function.update_self ..
  rwa [hself]

/-- `popcli` of a CPU is what the step does to it. -/
theorem Sys.popcli_eq_ok {k : Kthread L} {pc : Pc L} (h : s.popcli c k pc = .ok t) :
    (s.cpus c).popcli = .ok (t.cpus c) := by
  unfold Sys.popcli at h
  split at h
  case h_1 => cases h
  case h_2 x hx =>
    obtain rfl := Outcome.ok.inj h
    rw [hx, Sys.put_cpus]

variable [DecidableEq L]

/-- The invariant holds after every run. -/
theorem Sys.Inv.run {ptable : L} {labels : List (C × Act P L)}
    (hrun : Run (Sys.Step ptable) Sys.boot labels s) : s.Inv :=
  hrun.invariant Sys.boot_inv fun _ _ _ hu hstep => hu.step hstep

/-- Only a `popcli` takes a level from a thread. -/
theorem Sys.level_le_or_popcli {ptable : L} {a : Act P L} (hstep : s.next ptable c a = .ok t) :
    (s.threads (s.thread c)).level ≤ (t.threads (s.thread c)).level ∨
      (s.cpus c).popcli = .ok (t.cpus c) := by
  -- only `popcli` and `release` lower the level; a switch keeps it with its thread
  unfold Sys.next at hstep
  dsimp only at hstep
  split at hstep
  case h_1 | h_2 | h_12 =>
    obtain rfl := Outcome.ok.inj hstep
    exact .inl (Sys.le_level_put (Nat.le_refl _))
  case h_3 | h_13 =>
    split_ifs at hstep
    obtain rfl := Outcome.ok.inj hstep
    exact .inl (Sys.le_level_put (Nat.le_refl _))
  case h_4 =>
    obtain rfl := Outcome.ok.inj hstep
    exact .inl (Sys.le_level_put (Nat.le_succ _))
  case h_5 =>
    split_ifs at hstep
    obtain rfl := Outcome.ok.inj hstep
    exact .inl (Sys.le_level_put (Nat.le_succ _))
  case h_6 lk loop hpc =>
    by_cases hlocked : (s.locks lk).locked = true
    · rw [if_pos hlocked] at hstep
      obtain rfl := Outcome.ok.inj hstep
      exact .inl (Nat.le_refl _)
    · rw [if_neg hlocked] at hstep
      obtain rfl := Outcome.ok.inj hstep
      exact .inl (Sys.le_level_put (x := s.cpus c) (Nat.le_refl _))
  case h_7 => exact .inr (Sys.popcli_eq_ok hstep)
  case h_8 | h_9 =>
    unfold Sys.release at hstep
    split_ifs at hstep
    have hpop := Sys.popcli_eq_ok hstep
    exact .inr hpop
  case h_10 =>
    split at hstep
    case h_1 =>
      unfold Sys.sched at hstep
      dsimp only at hstep
      split_ifs at hstep
      obtain rfl := Outcome.ok.inj hstep
      exact .inl (Nat.le_refl _)
    case h_2 => cases hstep
  case h_11 p _ =>
    split at hstep
    case h_1 => cases hstep
    case h_2 hnone =>
      unfold Sys.swtch at hstep
      dsimp only at hstep
      split at hstep
      case h_1 => cases hstep
      case h_2 =>
        obtain rfl := Outcome.ok.inj hstep
        exact .inl (Nat.le_refl _)
      case h_3 =>
        obtain rfl := Outcome.ok.inj hstep
        have hne : Thread.scheduler c ≠ (.proc p : Thread C P) := nofun
        rw [Sys.thread_scheduler hnone]
        dsimp only
        rw [Function.update_of_ne hne]
        exact .inl (Nat.le_refl _)
  case h_14 =>
    split at hstep
    case h_1 => cases hstep
    case h_2 =>
      split_ifs at hstep
      obtain rfl := Outcome.ok.inj hstep
      exact .inl (Sys.le_level_put (Nat.le_refl _))
  case h_15 =>
    split at hstep
    case h_1 =>
      obtain rfl := Outcome.ok.inj hstep
      exact .inl (Nat.le_refl _)
    case h_2 => cases hstep
  case h_16 => cases hstep

/-- The step by which a process has no level any more sets the flag to that of its outermost
`pushcli`. -/
theorem Sys.Inv.outermost {ptable : L} {a : Act P L} (h : s.Inv)
    (hstep : s.next ptable c a = .ok t) (hp : (s.cpus c).proc = some p)
    (hone : (s.threads (.proc p)).level = 1) (hzero : (t.threads (.proc p)).level = 0) {b : Bool}
    (hb : (s.threads (.proc p)).outer = some b) : (t.cpus c).flIf = b := by
  have hfits := h.fits c
  have hstep' := Sys.level_le_or_popcli hstep
  rw [thread_proc hp] at hfits hstep'
  rcases hstep' with hle | hpop
  · omega
  · exact hfits.popcli_outermost hpop (by rw [hp]; exact Option.some_ne_none p) hone hb

end Invariant

/-- For any number of CPUs and processes, after every run: interrupts are off on a CPU that has
levels, the levels of a CPU are those of the thread on it, and when a process pops its outermost
level, on whichever CPU, the interrupt flag becomes what it was when the process executed its
outermost `pushcli`. -/
theorem interrupt_state_follows_thread {C P L : Type} [DecidableEq C] [DecidableEq P]
    [DecidableEq L] (ptable : L) (labels : List (C × Act P L)) (s : Sys C P L)
    (hrun : Run (Sys.Step ptable) Sys.boot labels s) :
    (∀ c, 0 < (s.cpus c).ncli → (s.cpus c).flIf = false) ∧
    (∀ c, (s.cpus c).ncli = (s.threads (s.thread c)).level) ∧
    ∀ c a t p b, s.Step ptable (c, a) t → (s.cpus c).proc = some p →
      (s.threads (.proc p)).level = 1 → (t.threads (.proc p)).level = 0 →
      (s.threads (.proc p)).outer = some b → (t.cpus c).flIf = b := by
  have hinv := Sys.Inv.run hrun
  refine ⟨fun c hpos => ?_, fun c => (hinv.fits c).level,
    fun c a t p b hstep hp hone hzero hb => hinv.outermost hstep hp hone hzero hb⟩
  rw [← Bool.not_eq_true]
  intro hflag
  rw [(hinv.fits c).off hflag] at hpos
  exact absurd hpos (Int.lt_irrefl 0)

/-- Process 0 starts on CPU 0 and returns to user space. An interrupt comes, and its handler gives
up the CPU; the process goes on on CPU 1. -/
def migration : List (Bool × Act Unit Unit) :=
  [(false, .sti), (false, .acquire ()), (false, .cli), (false, .xchg), (false, .swtch ()),
    (false, .release ()), (false, .iret), (false, .interrupt), (false, .acquire ()), (false, .cli),
    (false, .xchg), (false, .sched), (false, .release ()),
    (true, .sti), (true, .acquire ()), (true, .cli), (true, .xchg), (true, .swtch ())]

/-- On CPU 1, whose scheduler had interrupts on, the handler releases the lock with interrupts off,
as they were when it acquired it. -/
theorem interrupt_state_follows_thread_migration :
    ∃ s t : Sys Bool Unit Unit, Run (Sys.Step ()) Sys.boot migration s ∧
      s.Step () (true, .release ()) t ∧ (s.threads (.proc ())).outer = some false ∧
      (t.cpus true).flIf = false := by
  obtain ⟨s, hrun, htest⟩ := exists_run_of_runList (fun s l => (s.next () l.1 l.2).toOption)
    (fun s l t h => Outcome.eq_ok_of_toOption h) (Sys.boot : Sys Bool Unit Unit) migration
    (fun s => (s.cpus true).proc = some () ∧ (s.threads (.proc ())).level = 1 ∧
      (s.threads (.proc ())).outer = some false ∧
      (s.next () true (.release ())).toOption.any fun t => (t.threads (.proc ())).level = 0)
    (by decide +kernel)
  simp only [decide_eq_true_eq] at htest
  obtain ⟨hp, hone, houter, hrelease⟩ := htest
  cases ht : (s.next () true (.release ())).toOption with
  | none =>
    rw [ht] at hrelease
    cases hrelease
  | some t =>
    rw [ht, Option.any_some, decide_eq_true_eq] at hrelease
    have hstep : s.Step () (true, .release ()) t := Outcome.eq_ok_of_toOption ht
    exact ⟨s, t, hrun, hstep, houter, (interrupt_state_follows_thread () migration s hrun).2.2 true
      _ t () false hstep hp hone hrelease houter⟩

end Xv6.Spinlock
