import Xv6.Proc.Schedule

/-!
# Kill

`kill` looks for a slot by its pid without looking at its state, and the paths on which
`fork` gives up leave the pid and the `killed` flag in the slot they free. A kill that
finds a free slot, or one that hits a slot whose fork then fails, is passed on to the next
process in that slot. Apart from these two, a kill affects live processes only and a new
process is killed only if it was named.
-/

namespace Xv6.Ptable

open Lib

variable {C K : Type}

/-- `kill`: the value returned, and the table after. -/
def kill (t : Table K) (pid : Int32) : ℤ × Table K :=
  match killProc t pid with
  | (some _, t) => (0, t)
  | (none, t) => (-1, t)

theorem kill_snd (t : Table K) (pid : Int32) : (kill t pid).2 = (killProc t pid).2 := by
  unfold kill
  split <;> simp_all

theorem kill_fst (t : Table K) (pid : Int32) :
    (kill t pid).1 = if (killProc t pid).1 = none then -1 else 0 := by
  unfold kill
  split <;> simp_all

/-- The first slot of the table with this pid. -/
def FirstWith (t : Table K) (pid : Int32) (p : Slot) : Prop :=
  (t p).pid = pid ∧ ∀ q < p, (t q).pid ≠ pid

instance (t : Table K) (pid : Int32) (p : Slot) : Decidable (FirstWith t pid p) :=
  inferInstanceAs (Decidable (_ ∧ _))

theorem firstWith_of_killProc {t : Table K} {pid : Int32} {p : Slot}
    (h : (killProc t pid).1 = some p) : FirstWith t pid p := by
  refine ⟨(killProc_eq_some h).1, fun q hq hpid => ?_⟩
  unfold killProc at h
  split at h
  case h_1 => cases h
  case h_2 r hr =>
    obtain rfl : r = p := by simpa using h
    obtain ⟨-, before, after, heq, hbefore⟩ := List.find?_eq_some_iff_append.mp hr
    have hsorted := heq ▸ List.pairwise_lt_finRange NPROC
    have hmem : q ∈ before ++ r :: after := heq ▸ List.mem_finRange q
    rcases List.mem_append.mp hmem with hmem | hmem
    · simpa [hpid] using hbefore q hmem
    · rcases List.mem_cons.mp hmem with rfl | hmem
      · exact Fin.lt_irrefl q hq
      · exact Fin.lt_asymm hq (List.rel_of_pairwise_cons (List.pairwise_append.mp hsorted).2.1 hmem)

/-- `kill` was called with this pid since the slot of process `c` was allocated. -/
def KilledSince (log : List Event) (c : ℕ) (pid : Int32) : Prop :=
  ∃ before after, log = before ++ .alloc c :: after ∧ .kill pid ∈ after

theorem KilledSince.append {log : List Event} {c : ℕ} {pid : Int32} (h : KilledSince log c pid)
    (more : List Event) : KilledSince (log ++ more) c pid := by
  obtain ⟨before, after, rfl, hm⟩ := h
  exact ⟨before, after ++ more, by simp, List.mem_append_left _ hm⟩

/-- The first slot with the pid that is to be killed is not free, and `fork` does not give up
on a slot that has been killed. -/
def KillGuard (s : Sys C K) (l : C × Action K) : Prop :=
  match l.2, (s.cpu l.1).mode with
  | .kill pid, _ => ∀ p, FirstWith s.proc pid p → (s.proc p).state ≠ .unused
  | .forkStep _, .run p => ∀ np, s.op p = .noStack np ∨ s.op p = .undo np →
      (s.proc np).killed = false
  | _, _ => True

instance (s : Sys C K) (l : C × Action K) : Decidable (KillGuard s l) := by
  unfold KillGuard
  split <;> infer_instance

/-- A free slot is not killed, and an embryo only if it was named since it was allocated. -/
structure KillInv (s : Sys C K) : Prop where
  free : ∀ p, (s.proc p).state = .unused → (s.proc p).killed = false
  alloc : ∀ p, (s.proc p).state = .embryo → .alloc (s.id p) ∈ s.log
  embryo : ∀ p, (s.proc p).state = .embryo → (s.proc p).killed = true →
    KilledSince s.log (s.id p) (s.proc p).pid

namespace KillInv

variable {s s' : Sys C K} {p q np : Slot} {x : Proc K}

/-- Free slots and embryos are as before, and the log may have grown. -/
theorem frame (h : KillInv s) (hlog : ∃ more, s'.log = s.log ++ more)
    (hu : ∀ p, (s'.proc p).state = .unused → (s'.proc p).killed = false ∨
      (s.proc p).state = .unused ∧ (s'.proc p).killed = (s.proc p).killed)
    (he : ∀ p, (s'.proc p).state = .embryo → (s.proc p).state = .embryo ∧ s'.id p = s.id p ∧
      (s'.proc p).pid = (s.proc p).pid ∧ (s'.proc p).killed = (s.proc p).killed) :
    KillInv s' := by
  obtain ⟨more, hlog⟩ := hlog
  refine ⟨fun p hp => ?_, fun p hp => ?_, fun p hp hk => ?_⟩
  · rcases hu p hp with hk | ⟨hp, hk⟩
    · exact hk
    · rw [hk]
      exact h.free p hp
  · obtain ⟨hp, hid, -, -⟩ := he p hp
    rw [hlog, hid]
    exact List.mem_append_left _ (h.alloc p hp)
  · obtain ⟨hp, hid, hpid, hk'⟩ := he p hp
    rw [hlog, hid, hpid]
    exact (h.embryo p hp (hk' ▸ hk)).append more

/-- One slot is written, with its pid and `killed` kept unless it is freed. -/
theorem write (h : KillInv s) (hproc : s'.proc = Function.update s.proc p x)
    (hid : s'.id = s.id) (hlog : ∃ more, s'.log = s.log ++ more)
    (hu : x.state = .unused → x.killed = false)
    (he : x.state = .embryo → (s.proc p).state = .embryo ∧ x.pid = (s.proc p).pid ∧
      x.killed = (s.proc p).killed) : KillInv s' := by
  refine h.frame hlog (fun q hq => ?_) fun q hq => ?_
  all_goals
    rw [hproc] at hq ⊢
    by_cases hqp : q = p
    · subst hqp
      rw [Function.update_self] at hq ⊢
      first | exact .inl (hu hq) | exact ⟨(he hq).1, by rw [hid], (he hq).2⟩
    · rw [Function.update_of_ne hqp] at hq ⊢
      first | exact .inr ⟨hq, rfl⟩ | exact ⟨hq, by rw [hid], rfl, rfl⟩

theorem boot : KillInv (Sys.boot : Sys C K) where
  free p hp := by
    by_cases hi : p = initproc <;> simp [Sys.boot, hi]
  alloc p hp := by
    by_cases hi : p = initproc <;> simp [Sys.boot, hi] at hp
  embryo p hp := by
    by_cases hi : p = initproc <;> simp [Sys.boot, hi] at hp

/-- `allocproc` claims a free slot. -/
theorem claim (h : KillInv s) (hproc : s'.proc = Function.update s.proc np x)
    (hid : s'.id = Function.update s.id np s.serial) (hlog : s'.log = s.log ++ [.alloc s.serial])
    (hu : (s.proc np).state = .unused) (hk : x.killed = (s.proc np).killed) : KillInv s' := by
  have hnp : x.killed = false := hk.trans (h.free np hu)
  refine ⟨fun q hq => ?_, fun q hq => ?_, fun q hq hqk => ?_⟩
  all_goals by_cases hqnp : q = np
  · simp [hproc, hqnp, hnp]
  · rw [hproc, Function.update_of_ne hqnp] at hq ⊢
    exact h.free q hq
  · simp [hid, hlog, hqnp]
  · rw [hproc, Function.update_of_ne hqnp] at hq
    rw [hid, hlog, Function.update_of_ne hqnp]
    exact List.mem_append_left _ (h.alloc q hq)
  · simp [hproc, hqnp, hnp] at hqk
  · rw [hproc, Function.update_of_ne hqnp] at hq hqk ⊢
    rw [hid, hlog, Function.update_of_ne hqnp]
    exact (h.embryo q hq hqk).append _

/-- The table after a kill that does not find a free slot. -/
theorem kill (h : KillInv s) (pid : Int32)
    (hg : ∀ p, FirstWith s.proc pid p → (s.proc p).state ≠ .unused) :
    KillInv ({ s with proc := (killProc s.proc pid).2 }.record (.kill pid)) := by
  have hst : ∀ {p st}, ((killProc s.proc pid).2 p).state = st → st ≠ .runnable →
      (s.proc p).state = st := by
    intro p st hp hne
    rcases killProc_wakes s.proc pid p with hs | ⟨-, hs⟩
    · exact hs.symm.trans hp
    · exact absurd (hp.symm.trans hs) hne
  refine ⟨fun p hp => ?_, fun p hp => ?_, fun p hp hk => ?_⟩
  · have hp' := hst hp (by simp)
    have hne : (killProc s.proc pid).1 ≠ some p := fun hk => hg p (firstWith_of_killProc hk) hp'
    simpa [killProc_apply, hne] using h.free p hp'
  · exact List.mem_append_left _ (h.alloc p (hst hp (by simp)))
  · have hp' := hst hp (by simp)
    simp only [Sys.record_proc, killProc_apply] at hk ⊢
    by_cases hfound : (killProc s.proc pid).1 = some p
    · -- this kill names the embryo
      obtain ⟨before, after, hlog⟩ := List.append_of_mem (h.alloc p hp')
      refine ⟨before, after ++ [.kill pid], by simp [hlog], ?_⟩
      simp [(killProc_eq_some hfound).1]
    · rw [if_neg hfound] at hk
      exact (h.embryo p hp' hk).append _

variable [DecidableEq C] [DecidableEq K]

/-- Every step under the guard keeps the invariant. -/
theorem trans {c : C} {a : Action K} (h : KillInv s) (hinv : Inv s) (hg : KillGuard s (c, a))
    (hst : Sys.Trans s c a s') : KillInv s' := by
  have hemb : ∀ {p np : Slot}, (s.op p).claim = some np → (s.proc np).state = .embryo :=
    fun hc => hinv.fork.embryo _ _ hc
  cases hst with
  | acquire | skip | done | clear | runOn | noSlot | wait | waitFail =>
    exact ⟨h.free, h.alloc, h.embryo⟩
  | select | yield | sleep | waitSleep =>
    exact h.write rfl rfl ⟨[], by simp⟩ (by simp) (by simp)
  | wake hm | waitOn hm =>
    exact h.write rfl rfl ⟨[], by simp⟩ (by simp [hinv.running hm rfl])
      (by simp [hinv.running hm rfl])
  | wakeup k =>
    refine h.frame ⟨[], by simp⟩ (fun q hq => .inr ?_) fun q hq => ?_
    all_goals
      rcases wakeup1_wakes s.proc (some (.other k)) q with hs | ⟨-, hs⟩
      · exact ⟨hs.symm.trans hq, by simp [wakeup1_apply]⟩
      · simp [hs] at hq
  | kill pid hm => exact h.kill pid hg
  | alloc hm hl ho hf => exact h.claim rfl rfl rfl (findUnused_eq_some hf) rfl
  | stack hm ho | stackFail hm ho | copy hm ho | copyFail hm ho | noCopy hm ho | fill hm ho =>
    have he := hemb (by rw [ho, Op.claim])
    exact h.write rfl rfl ⟨[], by simp⟩ (by simp [he]) (by simp [he])
  | @giveUp p np ok hm ho =>
    have hk : ∀ np, s.op p = .noStack np ∨ s.op p = .undo np → (s.proc np).killed = false := by
      simpa [KillGuard, hm] using hg
    exact h.write rfl rfl ⟨[], by simp⟩ (fun _ => hk np ho) (by simp)
  | ready hm ho => exact h.write rfl rfl ⟨[_], rfl⟩ (by simp) (by simp)
  | @exit p hm =>
    refine h.frame ⟨[_], rfl⟩ (fun q hq => .inr ?_) fun q hq => ?_
    all_goals
      simp only [Sys.sched_proc, Sys.record_proc] at hq ⊢
      have hqp : q ≠ p := by
        rintro rfl
        simp [exitProc_apply] at hq
      rcases exitProc_wakes s.proc hqp with hs | ⟨-, hs⟩
      · exact ⟨hs.symm.trans hq, by simp [exitProc_apply]⟩
      · simp [hs] at hq
  | reap => exact h.write rfl rfl ⟨[_], rfl⟩ (fun _ => rfl) (by simp [Ptable.reap])

end KillInv

theorem embryo_update {tab : Table K} {p q : Slot} {x : Proc K}
    (hp : (tab p).state = .embryo → x.state = .runnable → x.killed = (tab p).killed)
    (hq : (tab q).state = .embryo) (hq' : (Function.update tab p x q).state = .runnable) :
    (Function.update tab p x q).killed = (tab q).killed := by
  by_cases hqp : q = p
  · subst hqp
    rw [Function.update_self] at hq' ⊢
    exact hp hq hq'
  · rw [Function.update_of_ne hqp]

/-- The step that makes an embryo runnable keeps its `killed`. -/
theorem Sys.Trans.killed_eq [DecidableEq C] [DecidableEq K] {s t : Sys C K} {c : C} {a : Action K}
    {q : Slot} (hst : Sys.Trans s c a t) (hq : (s.proc q).state = .embryo)
    (hq' : (t.proc q).state = .runnable) : (t.proc q).killed = (s.proc q).killed := by
  cases hst with
  | acquire | skip | done | clear | runOn | noSlot | wait | waitFail => rfl
  | select | wake | waitOn | yield | sleep | alloc | stack | stackFail | giveUp | copy | copyFail
  | noCopy | fill | ready | waitSleep =>
    exact embryo_update (fun _ _ => rfl) hq hq'
  | reap => exact embryo_update (by simp [Ptable.reap]) hq hq'
  | wakeup => simp [wakeup1_apply]
  | exit => simp [exitProc_apply]
  | kill pid =>
    rcases killProc_wakes s.proc pid q with hs | ⟨hs, -⟩
    · simp [hs, hq] at hq'
    · simp [hs] at hq

/-- With the guard: `kill` returns 0 exactly if a slot that is not free has the pid, and then
sets `killed` in such a slot and changes no other; otherwise it returns -1 and changes nothing.
A process that a step makes runnable for the first time is killed only if `kill` was called
with its pid since its slot was allocated. -/
theorem kill_affects_live [DecidableEq C] [DecidableEq K] {s : Sys C K}
    {labels : List (C × Action K)} (hrun : Run (Guarded Sys.Step KillGuard) Sys.boot labels s) :
    (∀ c pid, KillGuard s (c, .kill pid) →
      ((kill s.proc pid).1 = 0 ↔ ∃ p, (s.proc p).state ≠ .unused ∧ (s.proc p).pid = pid) ∧
      ((∃ p, (kill s.proc pid).1 = 0 ∧ (s.proc p).state ≠ .unused ∧ (s.proc p).pid = pid ∧
        ((kill s.proc pid).2 p).killed = true ∧ ∀ q ≠ p, (kill s.proc pid).2 q = s.proc q) ∨
      (kill s.proc pid).1 = -1 ∧ (kill s.proc pid).2 = s.proc)) ∧
    ∀ l t p, Sys.Step s l t → (s.proc p).state = .embryo → (t.proc p).state = .runnable →
      (t.proc p).killed = true → KilledSince s.log (s.id p) (s.proc p).pid := by
  obtain ⟨-, h⟩ := hrun.invariant_of_guard (I := fun s => Inv s ∧ KillInv s)
    ⟨Inv.boot, KillInv.boot⟩ fun u a v ⟨hinv, h⟩ hg hstep =>
      have htrans := Sys.trans_of_next hstep
      ⟨hinv.trans htrans, h.trans hinv hg htrans⟩
  refine ⟨fun c pid hg => ?_, fun l t p hst hp hp' hk => ?_⟩
  · rw [kill_fst, kill_snd]
    cases hk : (killProc s.proc pid).1 with
    | none =>
      obtain ⟨hnone, htab⟩ := killProc_eq_none hk
      exact ⟨by simp [hnone], .inr ⟨rfl, htab⟩⟩
    | some p =>
      obtain ⟨hpid, htab⟩ := killProc_eq_some hk
      have hst : (s.proc p).state ≠ .unused := hg p (firstWith_of_killProc hk)
      refine ⟨iff_of_true (by simp) ⟨p, hst, hpid⟩,
        .inl ⟨p, by simp, hst, hpid, ?_, fun q hq => ?_⟩⟩
      · simp [htab]
      · rw [htab, Function.update_of_ne hq]
  · rw [(Sys.trans_of_next hst).killed_eq hp hp'] at hk
    exact h.embryo p hp hk

/-- The first process kills its child. -/
theorem kill_affects_child :
    ∃ (labels : List (Unit × Action Unit)) (s : Sys Unit Unit) (p : Slot),
      Run (Guarded Sys.Step KillGuard) Sys.boot labels s ∧ KillGuard s ((), .kill 2) ∧
        (kill s.proc 2).1 = 0 ∧ (s.proc p).pid = 2 ∧ ((kill s.proc 2).2 p).killed = true := by
  obtain ⟨s, hrun, htest⟩ := exists_run_of_runList
    (guardedNext KillGuard fun s l => (s.next l).toOption)
    (guarded_of_guardedNext Sys.step_of_toOption) (Sys.boot : Sys Unit Unit)
    (([.acquire, .look, .resume, .fork, .forkStep true, .forkStep true, .forkStep true,
      .forkStep true] : List (Action Unit)).map (Prod.mk ()))
    (fun s => KillGuard s ((), .kill 2) ∧ (kill s.proc 2).1 = 0) (by decide +kernel)
  simp only [decide_eq_true_eq] at htest
  obtain ⟨hg, hret⟩ := htest
  rcases ((kill_affects_live hrun).1 () 2 hg).2 with ⟨p, -, -, hpid, hk, -⟩ | ⟨hfail, -⟩
  · exact ⟨_, s, p, hrun, hg, hret, hpid, hk⟩
  · simp [hret] at hfail

/-- `kill(0)` finds a free slot and returns 0, although no process has that pid, and the child
that is then forked into the slot starts killed, although nobody named its pid. -/
theorem kill_zero_hits_child :
    ∃ (labels more : List (Unit × Action Unit)) (s t : Sys Unit Unit) (p : Slot),
      Run Sys.Step Sys.boot labels s ∧ (kill s.proc 0).1 = 0 ∧
        (∀ q, (s.proc q).state ≠ .unused → (s.proc q).pid ≠ 0) ∧
        Run Sys.Step s (((), .kill 0) :: more) t ∧ (t.proc p).state = .runnable ∧
        t.log.getLast? = some (.fork 0 (t.id p) 2 3) ∧
        (t.proc p).killed = true ∧ .kill (t.proc p).pid ∉ t.log := by
  obtain ⟨s, hrun, htest⟩ := exists_run_of_runList (fun s l => (s.next l).toOption)
    Sys.step_of_toOption (Sys.boot : Sys Unit Unit)
    (([.acquire, .look, .resume] : List (Action Unit)).map (Prod.mk ()))
    (fun s : Sys Unit Unit => (kill s.proc 0).1 = 0 ∧
      (∀ q, (s.proc q).state ≠ .unused → (s.proc q).pid ≠ 0) ∧
      (runList (fun s l => (s.next l).toOption) s
        (([.kill 0, .fork, .forkStep true, .forkStep true, .forkStep true, .forkStep true] :
          List (Action Unit)).map (Prod.mk ()))).any (fun t : Sys Unit Unit =>
            decide ((t.proc ⟨1, by decide⟩).state = .runnable ∧
              t.log.getLast? = some (.fork 0 (t.id ⟨1, by decide⟩) 2 3) ∧
              (t.proc ⟨1, by decide⟩).killed = true ∧
              Event.kill (t.proc ⟨1, by decide⟩).pid ∉ t.log)) = true)
    (by decide +kernel)
  simp only [decide_eq_true_eq] at htest
  obtain ⟨hret, hnone, hmore⟩ := htest
  obtain ⟨t, hrun', htest⟩ := exists_run_of_runList _ Sys.step_of_toOption _ _ _ hmore
  simp only [decide_eq_true_eq] at htest
  exact ⟨_, _, s, t, ⟨1, by decide⟩, hrun, hret, hnone, hrun', htest⟩

end Xv6.Ptable
