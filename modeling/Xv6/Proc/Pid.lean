import Xv6.Proc.Schedule

/-!
# Process identifiers

`allocproc` hands out `nextpid++`. While the counter has not passed the largest `int`, every slot
in use has a pid below it, so the new one is different from all of them. After that the pids are
negative, and a parent takes the result of a successful `fork` for a failure.
-/

namespace Xv6.Ptable

open Lib

section Pid

variable {C K : Type} {s t : Sys C K}

/-- When `fork` finds a slot, `nextpid` is positive. -/
def PidGuard (s : Sys C K) (l : C × Action K) : Prop :=
  l.2 = .fork → findUnused s.proc ≠ none → 0 < s.nextpid

instance [DecidableEq K] (s : Sys C K) (l : C × Action K) : Decidable (PidGuard s l) :=
  inferInstanceAs (Decidable (_ → _ → _))

/-- The pids of the slots in use. -/
structure PidInv (tab : Table K) (nextpid : Int32) : Prop where
  pos : ∀ p, (tab p).state ≠ .unused → 0 < (tab p).pid
  inj : ∀ p q, (tab p).state ≠ .unused → (tab q).state ≠ .unused → (tab p).pid = (tab q).pid → p = q
  below : 0 < nextpid → ∀ p, (tab p).state ≠ .unused → (tab p).pid < nextpid

theorem lt_add_one_of_pos {n : Int32} (hn : 0 < n) (h : 0 < n + 1) : n < n + 1 := by
  rw [Int32.lt_iff_toInt_lt] at *
  rw [Int32.toInt_add] at *
  have := n.toInt_lt
  have := n.le_toInt
  simp only [Int32.toInt_zero, Int32.toInt_one, Int.bmod_def] at *
  omega

namespace PidInv

variable {tab tab' : Table K} {n : Int32} {p np : Slot} {x : Proc K}

/-- No slot is taken into use, and pids stay. -/
theorem frame (h : PidInv tab n) (hst : ∀ p, (tab' p).state ≠ .unused → (tab p).state ≠ .unused)
    (hpid : ∀ p, (tab' p).state ≠ .unused → (tab' p).pid = (tab p).pid) : PidInv tab' n where
  pos p hp := hpid p hp ▸ h.pos p (hst p hp)
  inj p q hp hq hpq := h.inj p q (hst p hp) (hst q hq) (by rwa [← hpid p hp, ← hpid q hq])
  below hn p hp := hpid p hp ▸ h.below hn p (hst p hp)

theorem update (h : PidInv tab n) (hst : x.state ≠ .unused → (tab p).state ≠ .unused)
    (hpid : x.state ≠ .unused → x.pid = (tab p).pid) : PidInv (Function.update tab p x) n := by
  refine h.frame (fun q => ?_) (fun q => ?_)
  all_goals
    by_cases hq : q = p
    · subst hq
      rwa [Function.update_self]
    · rw [Function.update_of_ne hq]
      simp

theorem alloc (h : PidInv tab n) (hn : 0 < n) (hx : x.pid = n) :
    PidInv (Function.update tab np x) (n + 1) where
  pos p hp := by
    by_cases hpn : p = np
    · subst hpn
      rwa [Function.update_self, hx]
    · rw [Function.update_of_ne hpn] at hp ⊢
      exact h.pos p hp
  inj p q hp hq hpq := by
    -- the new pid is above all the others
    by_cases hpn : p = np <;> by_cases hqn : q = np
    · exact hpn.trans hqn.symm
    · subst hpn
      rw [Function.update_of_ne hqn] at hq hpq
      rw [Function.update_self, hx] at hpq
      have hlt := h.below hn q hq
      rw [← hpq] at hlt
      exact (Int32.lt_irrefl hlt).elim
    · subst hqn
      rw [Function.update_of_ne hpn] at hp hpq
      rw [Function.update_self, hx] at hpq
      have hlt := h.below hn p hp
      rw [hpq] at hlt
      exact (Int32.lt_irrefl hlt).elim
    · rw [Function.update_of_ne hpn] at hp hpq
      rw [Function.update_of_ne hqn] at hq hpq
      exact h.inj p q hp hq hpq
  below hn' p hp := by
    have hlt := lt_add_one_of_pos hn hn'
    by_cases hpn : p = np
    · subst hpn
      rwa [Function.update_self, hx]
    · rw [Function.update_of_ne hpn] at hp ⊢
      exact Int32.lt_trans (h.below hn p hp) hlt

theorem boot : PidInv (Sys.boot : Sys C K).proc (Sys.boot : Sys C K).nextpid := by
  have hproc : ∀ p, ((Sys.boot : Sys C K).proc p).state ≠ .unused →
      p = initproc ∧ ((Sys.boot : Sys C K).proc p).pid = 1 := by
    intro p hp
    by_cases hi : p = initproc
    · exact ⟨hi, by simp [Sys.boot, hi]⟩
    · simp [Sys.boot, hi] at hp
  refine ⟨fun p hp => ?_, fun p q hp hq _ => ?_, fun _ p hp => ?_⟩
  · rw [(hproc p hp).2]
    decide
  · rw [(hproc p hp).1, (hproc q hq).1]
  · rw [(hproc p hp).2]
    exact (by decide : (1 : Int32) < 2)

variable [DecidableEq C] [DecidableEq K] {c : C} {a : Action K}

theorem trans (h : PidInv s.proc s.nextpid) (hinv : Inv s) (hg : PidGuard s (c, a))
    (hst : Sys.Trans s c a t) : PidInv t.proc t.nextpid := by
  have hemb : ∀ {p np : Slot}, (s.op p).claim = some np → (s.proc np).state ≠ .unused :=
    fun hc => by simp [hinv.fork.embryo _ _ hc]
  cases hst with
  | acquire | skip | done | clear | runOn | noSlot | wait | waitFail => exact h
  | wake | waitOn | stack | stackFail | copy | copyFail | noCopy | fill =>
    exact h.update (fun hx => hx) fun _ => rfl
  | select hm hst => exact h.update (fun _ => by simp [hst]) fun _ => rfl
  | yield hm | sleep k hm | waitSleep hm =>
    exact h.update (fun _ => by simp [hinv.running hm rfl]) fun _ => rfl
  | wakeup k =>
    refine h.frame (fun p hp => ?_) fun p _ => by simp [wakeup1_apply]
    rcases wakeup1_wakes s.proc (some (.other k)) p with hs | ⟨hs, -⟩
    · exact hs ▸ hp
    · simp [hs]
  | kill pid =>
    refine h.frame (fun p hp => ?_) fun p _ => by simp [killProc_apply]
    rcases killProc_wakes s.proc pid p with hs | ⟨hs, -⟩
    · exact hs ▸ hp
    · simp [hs]
  | alloc hm hl ho hf => exact h.alloc (hg rfl (by simp [hf])) rfl
  | giveUp => exact h.update (fun hx => absurd rfl hx) fun _ => rfl
  | ready hm ho => exact h.update (fun _ => hemb (by rw [ho, Op.claim])) fun _ => rfl
  | @exit p hm =>
    refine h.frame (fun q hq => ?_) fun q _ => by simp [exitProc_apply]
    by_cases hqp : q = p
    · rw [hqp, hinv.running hm rfl]
      simp
    · rcases exitProc_wakes s.proc hqp with hs | ⟨hs, -⟩
      · exact hs ▸ hq
      · simp [hs]
  | reap => exact h.update (fun hx => absurd rfl hx) fun hx => absurd rfl hx

end PidInv

/-- With the guard, the pids of the slots in use are positive and distinct in every reachable
state; so is what a `fork` that succeeds returns. -/
theorem pids_distinct_positive [DecidableEq C] [DecidableEq K] {labels : List (C × Action K)}
    (hrun : Run (Guarded Sys.Step PidGuard) Sys.boot labels s) :
    (∀ p, (s.proc p).state ≠ .unused → 0 < (s.proc p).pid) ∧
      (∀ p q, (s.proc p).state ≠ .unused → (s.proc q).state ≠ .unused →
        (s.proc p).pid = (s.proc q).pid → p = q) ∧
      ∀ p np, s.op p = .ready np → 0 < (s.proc np).pid := by
  obtain ⟨hinv, h⟩ := hrun.invariant_of_guard (I := fun s => Inv s ∧ PidInv s.proc s.nextpid)
    ⟨Inv.boot, PidInv.boot⟩ fun u a v ⟨hinv, h⟩ hg hstep =>
      have htrans := Sys.trans_of_next hstep
      ⟨hinv.trans htrans, h.trans hinv hg htrans⟩
  refine ⟨h.pos, h.inj, fun p np ho => h.pos np ?_⟩
  rw [hinv.fork.embryo p np (by rw [ho, Op.claim])]
  simp

end Pid

/-- The first process has a child with pid 2, about to be made runnable. -/
theorem pids_distinct_positive_child :
    ∃ (labels : List (Unit × Action Unit)) (s : Sys Unit Unit) (np : Slot),
      Run (Guarded Sys.Step PidGuard) Sys.boot labels s ∧ s.op initproc = .ready np ∧
        np ≠ initproc ∧ (s.proc np).pid ≠ (s.proc initproc).pid ∧ 0 < (s.proc np).pid := by
  obtain ⟨s, hrun, htest⟩ := exists_run_of_runList
    (guardedNext PidGuard fun s l => (s.next l).toOption)
    (guarded_of_guardedNext Sys.step_of_toOption) (Sys.boot : Sys Unit Unit)
    (([.acquire, .look, .resume, .fork, .forkStep true, .forkStep true, .forkStep true] :
      List (Action Unit)).map (Prod.mk ()))
    (fun s => s.op initproc = .ready ⟨1, by decide⟩ ∧ (s.proc ⟨1, by decide⟩).state = .embryo ∧
      (s.proc initproc).state = .running) (by decide +kernel)
  simp only [decide_eq_true_eq] at htest
  obtain ⟨ho, hchild, hinit⟩ := htest
  obtain ⟨-, hinj, hready⟩ := pids_distinct_positive hrun
  refine ⟨_, s, ⟨1, by decide⟩, hrun, ho, by decide, fun heq => ?_, hready _ _ ho⟩
  have := hinj _ _ (by simp [hchild]) (by simp [hinit]) heq
  exact absurd this (by decide)

/-! ### Overflow -/

/-- The first process runs outside of all calls, there is a free slot, and the counter is `n`. -/
structure Forking (n : Int32) (s : Sys Unit Unit) : Prop where
  mode : (s.cpu ()).mode = .run initproc
  lock : s.lock = none
  op : s.op initproc = .none
  free : ∃ p, (s.proc p).state = .unused
  nextpid : s.nextpid = n

namespace Forking

variable {n : Int32} {s : Sys Unit Unit}

theorem exists_findUnused (h : Forking n s) : ∃ np, findUnused s.proc = some np := by
  obtain ⟨p, hp⟩ := h.free
  exact Option.isSome_iff_exists.mp
    (List.find?_isSome.mpr ⟨p, List.mem_finRange p, by simpa using hp⟩)

theorem alloc (h : Forking n s) :
    ∃ np t, Sys.Step s ((), .fork) t ∧ (t.cpu ()).mode = .run initproc ∧ t.lock = none ∧
      t.op initproc = .stack np ∧ (t.proc np).state = .embryo ∧ (t.proc np).pid = n ∧
      t.nextpid = n + 1 := by
  obtain ⟨np, hnp⟩ := h.exists_findUnused
  refine ⟨np, s.allocproc initproc, ?_, ?_⟩
  · simp [Sys.Step, Sys.next, h.mode, h.lock, h.op, Sys.call]
  · simp [Sys.allocproc, hnp, h.mode, h.lock, h.nextpid]

/-- A `fork` without memory uses up a pid. -/
theorem fail (h : Forking n s) : ∃ labels t, Run Sys.Step s labels t ∧ Forking (n + 1) t := by
  obtain ⟨np, t, hstep, hmode, hlock, hop, -, -, hnext⟩ := h.alloc
  have hstep₁ : Sys.Step t ((), .forkStep false)
      ((t.setProc np { t.proc np with kstack := none }).setOp initproc (.noStack np)) := by
    simp [Sys.Step, Sys.next, hmode, Sys.forkStep, hop]
  obtain ⟨u, hu⟩ : ∃ u, u =
    (t.setProc np { t.proc np with kstack := none }).setOp initproc (.noStack np) := ⟨_, rfl⟩
  rw [← hu] at hstep₁
  have hstep₂ : Sys.Step u ((), .forkStep false)
      ((u.setProc np { u.proc np with state := .unused }).setOp initproc .none) := by
    simp [Sys.Step, Sys.next, Sys.forkStep, hu, hmode]
  refine ⟨_, _, ((Run.single hstep).snoc hstep₁).snoc hstep₂, ?_, ?_, ?_, ⟨np, ?_⟩, ?_⟩
  all_goals simp [hu, hmode, hlock, hnext]

theorem fails (h : Forking n s) (k : ℕ) :
    ∃ labels t, Run Sys.Step s labels t ∧ Forking (n + Int32.ofNat k) t := by
  induction k with
  | zero => exact ⟨[], s, .refl, by simpa using h⟩
  | succ k ih =>
    obtain ⟨labels, t, hrun, ht⟩ := ih
    obtain ⟨more, u, hrun', hu⟩ := ht.fail
    refine ⟨_, u, hrun.trans hrun', ?_⟩
    rwa [Int32.ofNat_add, ← Int32.add_assoc]

/-- A `fork` that succeeds has a child with this pid. -/
theorem succeed (h : Forking n s) :
    ∃ labels t np, Run Sys.Step s labels t ∧ t.op initproc = .ready np ∧
      (t.proc np).state = .embryo ∧ (t.proc np).pid = n := by
  obtain ⟨np, t, hstep, hmode, -, hop, hstate, hpid, -⟩ := h.alloc
  have hnext : ∀ (u : Sys Unit Unit) ok, (u.cpu ()).mode = .run initproc →
      u.next ((), .forkStep ok) = u.forkStep initproc ok := fun u ok hu => by
    simp [Sys.next, hu]
  -- the stack, the page table and the parent leave state and pid alone
  obtain ⟨u, hu, hmodeu, hopu, hsu, hpu⟩ : ∃ u, Sys.Step t ((), .forkStep true) u ∧
      (u.cpu ()).mode = .run initproc ∧ u.op initproc = .copy np ∧
      (u.proc np).state = .embryo ∧ (u.proc np).pid = n := by
    refine ⟨_, (hnext t true hmode).trans (by rw [Sys.forkStep, hop]; rfl), ?_⟩
    simp [hmode, hstate, hpid]
  obtain ⟨v, hv, hmodev, hopv, hsv, hpv⟩ : ∃ v, Sys.Step u ((), .forkStep true) v ∧
      (v.cpu ()).mode = .run initproc ∧ v.op initproc = .fill np ∧
      (v.proc np).state = .embryo ∧ (v.proc np).pid = n := by
    refine ⟨_, (hnext u true hmodeu).trans (by rw [Sys.forkStep, hopu]; rfl), ?_⟩
    simp [hmodeu, hsu, hpu]
  refine ⟨_, _, np, (((Run.single hstep).snoc hu).snoc hv).snoc
    ((hnext v true hmodev).trans (by rw [Sys.forkStep, hopv])), ?_⟩
  simp [hsv, hpv]

theorem boot : ∃ labels s, Run Sys.Step (Sys.boot : Sys Unit Unit) labels s ∧ Forking 2 s := by
  obtain ⟨s, hrun, htest⟩ := exists_run_of_runList (fun s l => (s.next l).toOption)
    Sys.step_of_toOption (Sys.boot : Sys Unit Unit)
    (([.acquire, .look, .resume] : List (Action Unit)).map (Prod.mk ()))
    (fun s => (s.cpu ()).mode = .run initproc ∧ s.lock = none ∧ s.op initproc = .none ∧
      (s.proc ⟨1, by decide⟩).state = .unused ∧ s.nextpid = 2) (by decide +kernel)
  simp only [decide_eq_true_eq] at htest
  obtain ⟨hmode, hlock, hop, hfree, hnext⟩ := htest
  exact ⟨_, s, hrun, hmode, hlock, hop, ⟨_, hfree⟩, hnext⟩

end Forking

/-- After enough calls of `fork` that failed, one that succeeds makes a child with a negative
pid. -/
theorem pid_overflow :
    ∃ (labels : List (Unit × Action Unit)) (s : Sys Unit Unit) (p : Slot),
      Run Sys.Step Sys.boot labels s ∧ s.op initproc = .ready p ∧ (s.proc p).state ≠ .unused ∧
        (s.proc p).pid = -2147483648 := by
  obtain ⟨l₁, s₁, hrun₁, h₁⟩ := Forking.boot
  obtain ⟨l₂, s₂, hrun₂, h₂⟩ := h₁.fails 2147483646
  obtain ⟨l₃, s₃, p, hrun₃, hop, hstate, hpid⟩ := h₂.succeed
  refine ⟨_, s₃, p, (hrun₁.trans hrun₂).trans hrun₃, hop, by simp [hstate], hpid.trans ?_⟩
  decide

end Xv6.Ptable
