import Xv6.Proc.Table

/-!
# The scheduler

A process is running exactly when one CPU runs it, and `ptable.lock` is held exactly by the
CPU that is between taking it and giving it back, whichever of the scheduler and the
processes it is in. A slot that `allocproc` has claimed belongs to one process until the
fork is done with it, and every slot that `fork` lets go of as a process has its kernel
stack and page directory.
-/

namespace Xv6.Ptable

open Lib

namespace Mode

/-- A CPU in this mode holds `ptable.lock`. -/
def holds : Mode → Bool
  | .idle | .run _ => false
  | .scan _ | .back _ | .enter _ | .locked _ => true

/-- The `c->proc` of a CPU in this mode. -/
def proc : Mode → Option Slot
  | .idle | .scan _ => none
  | .back p | .enter p | .locked p | .run p => some p

/-- The process that a CPU in this mode runs. -/
def runs : Mode → Option Slot
  | .idle | .scan _ | .back _ => none
  | .enter p | .locked p | .run p => some p

end Mode

/-! ### CPUs and the lock -/

/-- The lock is with the CPU that holds it, and each running process is on one CPU. -/
structure SchedInv {C : Type} (lock : Option C) (cpu : C → Cpu) (st : Slot → ProcState) : Prop where
  holder : ∀ c, lock = some c ↔ (cpu c).mode.holds = true
  proc_eq : ∀ c, (cpu c).proc = (cpu c).mode.proc
  running : ∀ p, st p = .running ↔ ∃ c, (cpu c).mode.runs = some p
  unique : ∀ c c' p, (cpu c).mode.runs = some p → (cpu c').mode.runs = some p → c = c'

namespace SchedInv

variable {C : Type} {lock lock' : Option C} {cpu : C → Cpu} {st st' : Slot → ProcState}
  {c : C} {p : Slot} {v : Cpu}

theorem frame (h : SchedInv lock cpu st) (hst : ∀ p, st' p = .running ↔ st p = .running) :
    SchedInv lock cpu st' :=
  { h with running := fun p => (hst p).trans (h.running p) }

theorem lock_of_holds (h : SchedInv lock cpu st) {m : Mode} (hm : (cpu c).mode = m)
    (hh : m.holds = true) : lock = some c :=
  (h.holder c).mpr (hm ▸ hh)

theorem running_of_mode (h : SchedInv lock cpu st) {m : Mode} (hm : (cpu c).mode = m)
    (hr : m.runs = some p) : st p = .running :=
  (h.running p).mpr ⟨c, hm ▸ hr⟩

variable [DecidableEq C]

/-- Who holds the lock after CPU `c` has moved on, with the lock free or its own before. -/
theorem holder_update (h : SchedInv lock cpu st) (hfree : lock = none ∨ lock = some c)
    (hlock : lock' = if v.mode.holds then some c else none) (c' : C) :
    lock' = some c' ↔ (Function.update cpu c v c').mode.holds = true := by
  by_cases hc : c' = c
  · subst hc
    rw [Function.update_self, hlock]
    simp
  · rw [Function.update_of_ne hc, ← h.holder c', hlock]
    rcases hfree with rfl | rfl
    · simp [Ne.symm hc]
    · simp [Ne.symm hc]

/-- CPU `c` moves on without changing what it runs. -/
theorem move (h : SchedInv lock cpu st) (hfree : lock = none ∨ lock = some c)
    (hproc : v.proc = v.mode.proc) (hruns : v.mode.runs = (cpu c).mode.runs)
    (hlock : lock' = if v.mode.holds then some c else none) :
    SchedInv lock' (Function.update cpu c v) st := by
  have hsame : ∀ c', (Function.update cpu c v c').mode.runs = (cpu c').mode.runs := by
    intro c'
    by_cases hc : c' = c
    · subst hc
      simpa using hruns
    · rw [Function.update_of_ne hc]
  refine ⟨h.holder_update hfree hlock, fun c' => ?_, fun p => ?_, fun c₁ c₂ p h₁ h₂ => ?_⟩
  · by_cases hc : c' = c
    · subst hc
      simpa using hproc
    · rw [Function.update_of_ne hc]
      exact h.proc_eq c'
  · simp only [hsame]
    exact h.running p
  · rw [hsame] at h₁ h₂
    exact h.unique c₁ c₂ p h₁ h₂

/-- The scheduler of CPU `c` switches to `p`. -/
theorem enter (h : SchedInv lock cpu st) (hl : lock = some c) (hc : (cpu c).mode.runs = none)
    (hp : st p ≠ .running) (hst : st' p = .running) (hother : ∀ q, q ≠ p → st' q = st q) :
    SchedInv lock (Function.update cpu c ⟨some p, .enter p⟩) st' := by
  have hfree : ∀ c', (cpu c').mode.runs ≠ some p := fun c' hr => hp ((h.running p).mpr ⟨c', hr⟩)
  refine ⟨h.holder_update (.inr hl) hl, fun c' => ?_, fun q => ?_, fun c₁ c₂ q h₁ h₂ => ?_⟩
  · by_cases hc' : c' = c
    · subst hc'
      simp [Mode.proc]
    · rw [Function.update_of_ne hc']
      exact h.proc_eq c'
  · by_cases hq : q = p
    · subst hq
      exact iff_of_true hst ⟨c, by simp [Mode.runs]⟩
    · rw [hother q hq, h.running q]
      refine exists_congr fun c' => ?_
      by_cases hc' : c' = c
      · subst hc'
        rw [hc, Function.update_self]
        simp [Mode.runs, Ne.symm hq]
      · rw [Function.update_of_ne hc']
  · by_cases hc₁ : c₁ = c <;> by_cases hc₂ : c₂ = c
    · rw [hc₁, hc₂]
    · subst hc₁
      rw [Function.update_of_ne hc₂] at h₂
      rw [Function.update_self, Mode.runs] at h₁
      exact absurd (h₂.trans h₁.symm) (hfree c₂)
    · subst hc₂
      rw [Function.update_of_ne hc₁] at h₁
      rw [Function.update_self, Mode.runs] at h₂
      exact absurd (h₁.trans h₂.symm) (hfree c₁)
    · rw [Function.update_of_ne hc₁] at h₁
      rw [Function.update_of_ne hc₂] at h₂
      exact h.unique c₁ c₂ q h₁ h₂

/-- Process `p` gives up CPU `c`. -/
theorem leave (h : SchedInv lock cpu st) (hfree : lock = none ∨ lock = some c)
    (hruns : (cpu c).mode.runs = some p) (hproc : (cpu c).mode.proc = some p)
    (hst : st' p ≠ .running) (hother : ∀ q, q ≠ p → (st' q = .running ↔ st q = .running)) :
    SchedInv (some c) (Function.update cpu c { cpu c with mode := .back p }) st' := by
  refine ⟨h.holder_update hfree rfl, fun c' => ?_, fun q => ?_, fun c₁ c₂ q h₁ h₂ => ?_⟩
  · by_cases hc : c' = c
    · subst hc
      rw [Function.update_self, h.proc_eq, hproc]
      rfl
    · rw [Function.update_of_ne hc]
      exact h.proc_eq c'
  · by_cases hq : q = p
    · subst hq
      refine iff_of_false hst ?_
      rintro ⟨c', hr⟩
      by_cases hc : c' = c
      · subst hc
        simp [Mode.runs] at hr
      · rw [Function.update_of_ne hc] at hr
        exact hc (h.unique c' c q hr hruns)
    · rw [hother q hq, h.running q]
      refine exists_congr fun c' => ?_
      by_cases hc : c' = c
      · subst hc
        rw [hruns, Function.update_self]
        simp [Mode.runs, Ne.symm hq]
      · rw [Function.update_of_ne hc]
  · have hback : ∀ c', (Function.update cpu c { cpu c with mode := .back p } c').mode.runs =
      some q →
        (cpu c').mode.runs = some q := by
      intro c' hr
      by_cases hc : c' = c
      · subst hc
        simp [Mode.runs] at hr
      · rwa [Function.update_of_ne hc] at hr
    exact h.unique c₁ c₂ q (hback c₁ h₁) (hback c₂ h₂)

end SchedInv

/-! ### Forks in progress -/

namespace Op

/-- The slot that a process in `fork` has claimed. -/
def claim : Op → Option Slot
  | .none => Option.none
  | .stack np | .noStack np | .copy np | .noCopy np | .undo np | .fill np | .ready np => some np

/-- The claimed slot, from the point on where it has a kernel stack to the point where that
is freed. -/
def hasStack : Op → Option Slot
  | .copy np | .noCopy np | .fill np | .ready np => some np
  | _ => Option.none

/-- The claimed slot, from the point on where it has a page directory. -/
def hasDir : Op → Option Slot
  | .fill np | .ready np => some np
  | _ => Option.none

theorem claim_of_hasStack {o : Op} {np : Slot} (h : o.hasStack = some np) : o.claim = some np := by
  cases o <;> simp_all [hasStack, claim]

theorem hasStack_of_hasDir {o : Op} {np : Slot} (h : o.hasDir = some np) :
    o.hasStack = some np := by
  cases o <;> simp_all [hasDir, hasStack]

end Op

/-- The states of a process that `fork` has let go of and `wait` has not reaped. -/
def ProcState.IsProc (st : ProcState) : Prop := st ≠ .unused ∧ st ≠ .embryo

/-- The states of a process that has not exited. -/
def ProcState.Live (st : ProcState) : Prop := st = .sleeping ∨ st = .runnable ∨ st = .running

/-- A claimed slot is an embryo that belongs to one live process. -/
structure ForkInv {K : Type} (t : Table K) (op : Slot → Op) : Prop where
  embryo : ∀ p np, (op p).claim = some np → (t np).state = .embryo
  unique : ∀ p q np, (op p).claim = some np → (op q).claim = some np → p = q
  live : ∀ p, op p ≠ .none → (t p).state.Live
  stack : ∀ p np, (op p).hasStack = some np → (t np).kstack ≠ none
  dir : ∀ p np, (op p).hasDir = some np → (t np).pgdir ≠ none
  full : ∀ p, (t p).state.IsProc → (t p).kstack ≠ none ∧ (t p).pgdir ≠ none

namespace ForkInv

variable {K : Type} {t t' : Table K} {op : Slot → Op} {p np : Slot} {o : Op} {x : Proc K}

/-- Processes change state, with their pages kept and those in `fork` alive. -/
theorem frame (h : ForkInv t op) (hk : ∀ p, (t' p).kstack = (t p).kstack)
    (hd : ∀ p, (t' p).pgdir = (t p).pgdir)
    (hemb : ∀ p, (t' p).state = .embryo ↔ (t p).state = .embryo)
    (hproc : ∀ p, (t' p).state.IsProc → (t p).state.IsProc)
    (hlive : ∀ p, op p ≠ .none → (t' p).state.Live) :
    ForkInv t' op where
  embryo p np hp := (hemb np).mpr (h.embryo p np hp)
  unique := h.unique
  live := hlive
  stack p np hp := by
    rw [hk]
    exact h.stack p np hp
  dir p np hp := by
    rw [hd]
    exact h.dir p np hp
  full p hp := by
    rw [hk, hd]
    exact h.full p (hproc p hp)

theorem op_eq_none (h : ForkInv t op) (hp : ¬ (t p).state.Live) : op p = .none := by
  by_contra ho
  exact hp (h.live p ho)

/-- Process `p` goes on in `fork` and writes the slot `np` that it has claimed or is about to
claim. -/
theorem write (h : ForkInv t op) (hnp : ∀ q, (op q).claim = some np → q = p)
    (hclaim : ∀ r, o.claim = some r → r = np ∧ x.state = .embryo)
    (hstack : o.hasStack ≠ none → x.kstack ≠ none) (hdir : o.hasDir ≠ none → x.pgdir ≠ none)
    (hfull : x.state.IsProc → x.kstack ≠ none ∧ x.pgdir ≠ none)
    (hp : (t p).state = .running) (hne : ¬ (t np).state.Live) :
    ForkInv (Function.update t np x) (Function.update op p o) := by
  have hpnp : p ≠ np := by
    rintro rfl
    exact hne (.inr (.inr hp))
  have hnone := h.op_eq_none hne
  -- what another process has claimed is not `np`
  have hother : ∀ q r, q ≠ p → (op q).claim = some r → r ≠ np := by
    rintro q r hq hr rfl
    exact hq (hnp q hr)
  refine ⟨fun q r hr => ?_, fun q₁ q₂ r h₁ h₂ => ?_, fun q hq => ?_, fun q r hr => ?_,
    fun q r hr => ?_, fun q hq => ?_⟩
  · by_cases hq : q = p
    · subst hq
      rw [Function.update_self] at hr
      obtain ⟨rfl, hx⟩ := hclaim r hr
      rwa [Function.update_self]
    · rw [Function.update_of_ne hq] at hr
      rw [Function.update_of_ne (hother q r hq hr)]
      exact h.embryo q r hr
  · by_cases hq₁ : q₁ = p <;> by_cases hq₂ : q₂ = p
    · rw [hq₁, hq₂]
    · subst hq₁
      rw [Function.update_self] at h₁
      rw [Function.update_of_ne hq₂] at h₂
      exact absurd (hclaim r h₁).1 (hother q₂ r hq₂ h₂)
    · subst hq₂
      rw [Function.update_self] at h₂
      rw [Function.update_of_ne hq₁] at h₁
      exact absurd (hclaim r h₂).1 (hother q₁ r hq₁ h₁)
    · rw [Function.update_of_ne hq₁] at h₁
      rw [Function.update_of_ne hq₂] at h₂
      exact h.unique q₁ q₂ r h₁ h₂
  · by_cases hqp : q = p
    · subst hqp
      rw [Function.update_of_ne hpnp]
      exact .inr (.inr hp)
    · rw [Function.update_of_ne hqp] at hq
      have hqnp : q ≠ np := by
        rintro rfl
        exact hq hnone
      rw [Function.update_of_ne hqnp]
      exact h.live q hq
  · by_cases hq : q = p
    · subst hq
      rw [Function.update_self] at hr
      obtain ⟨rfl, -⟩ := hclaim r (Op.claim_of_hasStack hr)
      rw [Function.update_self]
      exact hstack (by simp [hr])
    · rw [Function.update_of_ne hq] at hr
      rw [Function.update_of_ne (hother q r hq (Op.claim_of_hasStack hr))]
      exact h.stack q r hr
  · by_cases hq : q = p
    · subst hq
      rw [Function.update_self] at hr
      obtain ⟨rfl, -⟩ := hclaim r (Op.claim_of_hasStack (Op.hasStack_of_hasDir hr))
      rw [Function.update_self]
      exact hdir (by simp [hr])
    · rw [Function.update_of_ne hq] at hr
      rw [Function.update_of_ne
        (hother q r hq (Op.claim_of_hasStack (Op.hasStack_of_hasDir hr)))]
      exact h.dir q r hr
  · by_cases hqnp : q = np
    · subst hqnp
      rw [Function.update_self] at hq ⊢
      exact hfull hq
    · rw [Function.update_of_ne hqnp] at hq ⊢
      exact h.full q hq

/-- A slot that no fork has claimed is written. -/
theorem setSlot (h : ForkInv t op) (hp : (t p).state ≠ .embryo)
    (hfull : x.state.IsProc → x.kstack ≠ none ∧ x.pgdir ≠ none)
    (hlive : op p ≠ .none → x.state.Live) :
    ForkInv (Function.update t p x) op := by
  have hother : ∀ q r, (op q).claim = some r → r ≠ p := by
    rintro q r hr rfl
    exact hp (h.embryo q r hr)
  refine ⟨fun q r hr => ?_, h.unique, fun q hq => ?_, fun q r hr => ?_, fun q r hr => ?_,
    fun q hq => ?_⟩
  · rw [Function.update_of_ne (hother q r hr)]
    exact h.embryo q r hr
  · by_cases hqp : q = p
    · subst hqp
      rw [Function.update_self]
      exact hlive hq
    · rw [Function.update_of_ne hqp]
      exact h.live q hq
  · rw [Function.update_of_ne (hother q r (Op.claim_of_hasStack hr))]
    exact h.stack q r hr
  · rw [Function.update_of_ne (hother q r (Op.claim_of_hasStack (Op.hasStack_of_hasDir hr)))]
    exact h.dir q r hr
  · by_cases hqp : q = p
    · subst hqp
      rw [Function.update_self] at hq ⊢
      exact hfull hq
    · rw [Function.update_of_ne hqp] at hq ⊢
      exact h.full q hq

end ForkInv

/-! ### Every step keeps both -/

/-- What holds in every reachable state, whoever holds the lock. -/
structure Inv {C K : Type} (s : Sys C K) : Prop where
  sched : SchedInv s.lock s.cpu fun p => (s.proc p).state
  fork : ForkInv s.proc s.op

namespace Inv

variable {C K : Type} {s t : Sys C K} {c : C} {p q np : Slot} {o : Op} {x : Proc K} {m : Mode}

theorem running (h : Inv s) (hm : (s.cpu c).mode = m) (hr : m.runs = some p) :
    (s.proc p).state = .running :=
  h.sched.running_of_mode hm hr

/-- CPU `c` moves on with the table as it is. -/
theorem setMode [DecidableEq C] (h : Inv s) (m' : Mode) {lock' : Option C}
    (hfree : s.lock = none ∨ s.lock = some c) (hm : (s.cpu c).mode = m) (hproc : m'.proc = m.proc)
    (hruns : m'.runs = m.runs) (hlock : lock' = if m'.holds then some c else none) :
    SchedInv lock' (Function.update s.cpu c { s.cpu c with mode := m' })
      fun p => (s.proc p).state := by
  refine h.sched.move hfree ?_ ?_ hlock
  · rw [h.sched.proc_eq, hm, hproc]
  · rw [hm, hruns]

/-- Process `p` goes on in `fork` and writes the slot it has claimed or claims now. -/
theorem write (h : Inv s) (hm : (s.cpu c).mode = .run p)
    (hnp : (s.op p).claim = some np ∨ (s.proc np).state = .unused)
    (hclaim : ∀ r, o.claim = some r → r = np ∧ x.state = .embryo)
    (hstack : o.hasStack ≠ none → x.kstack ≠ none) (hdir : o.hasDir ≠ none → x.pgdir ≠ none)
    (hfull : x.state.IsProc → x.kstack ≠ none ∧ x.pgdir ≠ none) (hx : x.state ≠ .running) :
    SchedInv s.lock s.cpu (fun q => (Function.update s.proc np x q).state) ∧
      ForkInv (Function.update s.proc np x) (Function.update s.op p o) := by
  have hst : ¬ (s.proc np).state.Live := by
    rcases hnp with hnp | hnp
    · simp [h.fork.embryo p np hnp, ProcState.Live]
    · simp [hnp, ProcState.Live]
  have hown : ∀ q, (s.op q).claim = some np → q = p := by
    intro q hq
    rcases hnp with hnp | hnp
    · exact h.fork.unique q p np hq hnp
    · simp [h.fork.embryo q np hq] at hnp
  refine ⟨h.sched.frame fun q => ?_, h.fork.write hown hclaim hstack hdir hfull (h.running hm rfl)
    hst⟩
  by_cases hq : q = np
  · subst hq
    simpa [hx] using fun hr => hst (.inr (.inr hr))
  · rw [Function.update_of_ne hq]

/-- Process `p` goes on in `fork` with its claim. -/
theorem keepEmbryo (h : Inv s) (hm : (s.cpu c).mode = .run p) (hnp : (s.op p).claim = some np)
    (hx : x.state = (s.proc np).state) (hclaim : ∀ r, o.claim = some r → r = np)
    (hstack : o.hasStack ≠ none → x.kstack ≠ none) (hdir : o.hasDir ≠ none → x.pgdir ≠ none) :
    SchedInv s.lock s.cpu (fun q => (Function.update s.proc np x q).state) ∧
      ForkInv (Function.update s.proc np x) (Function.update s.op p o) := by
  have hemb : x.state = .embryo := hx.trans (h.fork.embryo p np hnp)
  exact h.write hm (.inl hnp) (fun r hr => ⟨hclaim r hr, hemb⟩) hstack hdir
    (by simp [hemb, ProcState.IsProc]) (by simp [hemb])

/-- Process `p` on CPU `c` gives up the CPU in state `x.state`. -/
theorem giveCpu [DecidableEq C] (h : Inv s) (hm : (s.cpu c).mode = m) (hruns : m.runs = some p)
    (hproc : m.proc = some p) (hfree : s.lock = none ∨ s.lock = some c)
    (hk : x.kstack = (s.proc p).kstack) (hd : x.pgdir = (s.proc p).pgdir)
    (hx : x.state ≠ .running) (hlive : s.op p ≠ .none → x.state.Live) :
    SchedInv (some c) (Function.update s.cpu c { s.cpu c with mode := .back p })
        (fun q => (Function.update s.proc p x q).state) ∧
      ForkInv (Function.update s.proc p x) s.op := by
  have hrun := h.running hm hruns
  refine ⟨h.sched.leave hfree (hm ▸ hruns) (hm ▸ hproc) (by simpa using hx) fun q hq => ?_,
    h.fork.setSlot (by simp [hrun]) (fun _ => ?_) hlive⟩
  · rw [Function.update_of_ne hq]
  · rw [hk, hd]
    exact h.fork.full p (by simp [hrun, ProcState.IsProc])

/-- Process `p` clears its `chan` and is otherwise as it was. -/
theorem clearChan (h : Inv s) (hm : (s.cpu c).mode = m) (hruns : m.runs = some p) :
    Inv (s.setProc p { s.proc p with chan := none }) := by
  have hrun := h.running hm hruns
  refine ⟨h.sched.frame fun q => ?_, h.fork.setSlot (by simp [hrun])
    (fun hp => h.fork.full p hp) fun ho => h.fork.live p ho⟩
  by_cases hq : q = p
  · subst hq
    simp
  · simp [hq]

/-- Some sleeping processes become runnable. -/
theorem wakes {tab : Table K} (h : Inv s) (hk : ∀ q, (tab q).kstack = (s.proc q).kstack)
    (hd : ∀ q, (tab q).pgdir = (s.proc q).pgdir)
    (hst : ∀ q, (s.proc q).state.Wakes (tab q).state) : Inv { s with proc := tab } := by
  refine ⟨h.sched.frame fun q => ?_, h.fork.frame hk hd (fun q => ?_) (fun q => ?_) fun q ho => ?_⟩
  · rcases hst q with hs | ⟨hs, hs'⟩
    · simp [hs]
    · simp [hs, hs']
  · rcases hst q with hs | ⟨hs, hs'⟩
    · rw [hs]
    · simp [hs, hs']
  · rcases hst q with hs | ⟨hs, hs'⟩
    · rw [hs]
      exact id
    · simp [hs, ProcState.IsProc]
  · rcases hst q with hs | ⟨hs, hs'⟩
    · rw [hs]
      exact h.fork.live q ho
    · exact .inr (.inl hs')

variable [DecidableEq C]

theorem exit [DecidableEq K] (h : Inv s) (hm : (s.cpu c).mode = .run p) (hl : s.lock = none)
    (ho : s.op p = .none) :
    Inv (({ s with proc := exitProc p s.proc }.record (.exit (s.id p))).sched c p .exit) := by
  -- first the others, then `p` itself
  have hothers : Inv { s with proc := fun q => { exitProc p s.proc q with
      state := if ExitWakes p s.proc q then .runnable else (s.proc q).state } } :=
    h.wakes (fun q => by simp [exitProc_apply]) (fun q => by simp [exitProc_apply])
      fun q => ProcState.wakes_ite fun hw => hw.1
  obtain ⟨hsched, hfork⟩ := hothers.giveCpu (x := exitProc p s.proc p) hm rfl rfl (.inl hl) rfl rfl
    (by simp [exitProc_apply]) fun hp => absurd ho hp
  have htab : Function.update (fun q => { exitProc p s.proc q with
      state := if ExitWakes p s.proc q then .runnable else (s.proc q).state }) p
        (exitProc p s.proc p) = exitProc p s.proc := by
    funext q
    by_cases hq : q = p
    · subst hq
      simp
    · simp [hq, exitProc_apply]
  simp only [htab] at hsched hfork
  exact ⟨hsched, hfork⟩

/-- The scheduler of CPU `c` picks `p`. -/
theorem select (h : Inv s) (hm : (s.cpu c).mode = .scan p)
    (hst : (s.proc p).state = .runnable) :
    Inv ((s.setProc p { s.proc p with state := .running }).setCpu c ⟨some p, .enter p⟩) := by
  refine ⟨h.sched.enter (h.sched.lock_of_holds hm rfl) (by rw [hm]; rfl) (by simp [hst])
    (by simp) fun q hq => by simp [hq], h.fork.setSlot (by simp [hst])
    (fun _ => h.fork.full p (by simp [hst, ProcState.IsProc])) fun _ => .inr (.inr rfl)⟩

/-- `wait` of `p` frees the slot of its child `q`. -/
theorem reap (h : Inv s) (hm : (s.cpu c).mode = .locked p)
    (hq : (s.proc q).state = .zombie) :
    SchedInv none (Function.update s.cpu c { s.cpu c with mode := .run p })
        (fun r => (Function.update s.proc q (Ptable.reap (s.proc q)) r).state) ∧
      ForkInv (Function.update s.proc q (Ptable.reap (s.proc q))) s.op := by
  have hlock := h.sched.lock_of_holds hm rfl
  refine ⟨(h.setMode (.run p) (.inr hlock) hm rfl rfl rfl).frame fun r => ?_,
    h.fork.setSlot (by simp [hq]) (fun hx => absurd rfl hx.1) fun ho => ?_⟩
  · by_cases hr : r = q
    · subst hr
      simp [hq, Ptable.reap]
    · rw [Function.update_of_ne hr]
  · exact absurd (h.fork.op_eq_none (by simp [hq, ProcState.Live])) ho

/-- Every step keeps the invariant. -/
theorem trans [DecidableEq K] {a : Action K} (h : Inv s) (hst : Sys.Trans s c a t) : Inv t := by
  cases hst with
  | acquire hm hl => exact ⟨h.setMode _ (.inl hl) hm rfl rfl rfl, h.fork⟩
  | select hm hst => exact h.select hm hst
  | skip hm _ =>
    have hlock := h.sched.lock_of_holds hm rfl
    exact ⟨h.setMode _ (.inr hlock) hm rfl rfl hlock, h.fork⟩
  | done hm _ => exact ⟨h.setMode _ (.inr (h.sched.lock_of_holds hm rfl)) hm rfl rfl rfl, h.fork⟩
  | clear hm =>
    have hlock := h.sched.lock_of_holds hm rfl
    exact ⟨h.sched.move (.inr hlock) rfl (by rw [hm]; rfl) hlock, h.fork⟩
  | runOn hm _ => exact ⟨h.setMode _ (.inr (h.sched.lock_of_holds hm rfl)) hm rfl rfl rfl, h.fork⟩
  | wake hm _ =>
    have h' := h.clearChan hm rfl
    exact ⟨h'.setMode _ (.inr (h.sched.lock_of_holds hm rfl)) hm rfl rfl rfl, h'.fork⟩
  | waitOn hm _ =>
    have hlock := h.sched.lock_of_holds hm rfl
    have h' := h.clearChan hm rfl
    exact ⟨h'.setMode _ (.inr hlock) hm rfl rfl hlock, h'.fork⟩
  | @yield p hm hl =>
    have h' := h.giveCpu (x := { s.proc p with state := .runnable }) hm rfl rfl
      (.inl hl) rfl rfl (by simp) fun _ => .inr (.inl rfl)
    exact ⟨h'.1, h'.2⟩
  | @sleep p k hm hl ho =>
    have h' := h.giveCpu (x := { s.proc p with chan := some (.other k), state := .sleeping }) hm rfl
      rfl (.inl hl) rfl rfl (by simp) fun _ => .inl rfl
    exact ⟨h'.1, h'.2⟩
  | wakeup k hl =>
    exact h.wakes (fun q => by simp [wakeup1_apply]) (fun q => by simp [wakeup1_apply])
      (wakeup1_wakes _ _)
  | kill pid hm hl =>
    have h' : Inv { s with proc := (killProc s.proc pid).2 } :=
      h.wakes (fun q => by simp [killProc_apply]) (fun q => by simp [killProc_apply])
        (killProc_wakes _ _)
    exact ⟨h'.sched, h'.fork⟩
  | noSlot _ => exact h
  | @alloc p np hm hl ho hf =>
    have h' := h.write (x := { s.proc np with state := .embryo, pid := s.nextpid }) (o := .stack np)
      hm (.inr (findUnused_eq_some hf)) (by simp [Op.claim]) (by simp [Op.hasStack])
      (by simp [Op.hasDir]) (by simp [ProcState.IsProc]) (by simp)
    exact ⟨h'.1, h'.2⟩
  | @stack p np hm ho =>
    have hnp : (s.op p).claim = some np := by rw [ho, Op.claim]
    have h' := h.keepEmbryo (x := { s.proc np with kstack := some s.pages }) (o := .copy np)
      hm hnp rfl (by simp [Op.claim]) (by simp) (by simp [Op.hasDir])
    exact ⟨h'.1, h'.2⟩
  | @stackFail p np hm ho =>
    have hnp : (s.op p).claim = some np := by rw [ho, Op.claim]
    have h' := h.keepEmbryo (x := { s.proc np with kstack := none }) (o := .noStack np)
      hm hnp rfl (by simp [Op.claim]) (by simp [Op.hasStack]) (by simp [Op.hasDir])
    exact ⟨h'.1, h'.2⟩
  | @giveUp p np ok hm ho =>
    have hnp : (s.op p).claim = some np := by rcases ho with ho | ho <;> rw [ho, Op.claim]
    have h' := h.write (x := { s.proc np with state := .unused }) (o := .none) hm (.inl hnp)
      (by simp [Op.claim]) (by simp [Op.hasStack]) (by simp [Op.hasDir])
      (by simp [ProcState.IsProc]) (by simp)
    exact ⟨h'.1, h'.2⟩
  | @copy p np hm ho =>
    have hnp : (s.op p).claim = some np := by rw [ho, Op.claim]
    have hstack := h.fork.stack p np (by rw [ho, Op.hasStack])
    have h' := h.keepEmbryo (x := { s.proc np with pgdir := some s.pages }) (o := .fill np)
      hm hnp rfl (by simp [Op.claim]) (fun _ => hstack) (by simp)
    exact ⟨h'.1, h'.2⟩
  | @copyFail p np hm ho =>
    have hnp : (s.op p).claim = some np := by rw [ho, Op.claim]
    have hstack := h.fork.stack p np (by rw [ho, Op.hasStack])
    have h' := h.keepEmbryo (x := { s.proc np with pgdir := none }) (o := .noCopy np)
      hm hnp rfl (by simp [Op.claim]) (fun _ => hstack) (by simp [Op.hasDir])
    exact ⟨h'.1, h'.2⟩
  | @noCopy p np ok hm ho =>
    have hnp : (s.op p).claim = some np := by rw [ho, Op.claim]
    have h' := h.keepEmbryo (x := { s.proc np with kstack := none }) (o := .undo np)
      hm hnp rfl (by simp [Op.claim]) (by simp [Op.hasStack]) (by simp [Op.hasDir])
    exact ⟨h'.1, h'.2⟩
  | @fill p np ok hm ho =>
    have hnp : (s.op p).claim = some np := by rw [ho, Op.claim]
    have hstack := h.fork.stack p np (by rw [ho, Op.hasStack])
    have hdir := h.fork.dir p np (by rw [ho, Op.hasDir])
    have h' := h.keepEmbryo (x := { s.proc np with parent := some p }) (o := .ready np)
      hm hnp rfl (by simp [Op.claim]) (fun _ => hstack) fun _ => hdir
    exact ⟨h'.1, h'.2⟩
  | @ready p np ok hm ho hl =>
    have hnp : (s.op p).claim = some np := by rw [ho, Op.claim]
    have hstack := h.fork.stack p np (by rw [ho, Op.hasStack])
    have hdir := h.fork.dir p np (by rw [ho, Op.hasDir])
    have h' := h.write (x := { s.proc np with state := .runnable }) (o := .none) hm (.inl hnp)
      (by simp [Op.claim]) (by simp [Op.hasStack]) (by simp [Op.hasDir])
      (fun _ => ⟨hstack, hdir⟩) (by simp)
    exact ⟨h'.1, h'.2⟩
  | exit hm hl ho _ => exact h.exit hm hl ho
  | wait hm hl ho => exact ⟨h.setMode _ (.inl hl) hm rfl rfl rfl, h.fork⟩
  | reap hm hq =>
    have h' := h.reap hm (waitFor_eq_some hq).2
    exact ⟨h'.1, h'.2⟩
  | waitFail hm =>
    exact ⟨h.setMode _ (.inr (h.sched.lock_of_holds hm rfl)) hm rfl rfl rfl, h.fork⟩
  | @waitSleep p hm hq =>
    have h' := h.giveCpu (x := { s.proc p with chan := some (.proc p), state := .sleeping }) hm rfl
      rfl (.inr (h.sched.lock_of_holds hm rfl)) rfl rfl (by simp) fun _ => .inl rfl
    exact ⟨h'.1, h'.2⟩

omit [DecidableEq C] in
theorem boot : Inv (Sys.boot : Sys C K) where
  sched := by
    refine ⟨fun c => by simp [Sys.boot, Mode.holds], fun c => rfl, fun p => ?_, fun c c' p hc => ?_⟩
    · by_cases hp : p = initproc <;> simp [Sys.boot, hp, Mode.runs]
    · simp [Sys.boot, Mode.runs] at hc
  fork := by
    refine ⟨fun p np hp => ?_, fun p q np hp => ?_, fun p hp => absurd rfl hp, fun p np hp => ?_,
      fun p np hp => ?_, fun p hp => ?_⟩
    · cases hp
    · cases hp
    · cases hp
    · cases hp
    · by_cases hp' : p = initproc
      · simp [Sys.boot, hp']
      · simp [Sys.boot, hp', ProcState.IsProc] at hp

/-- The invariant holds in every reachable state. -/
theorem of_run [DecidableEq K] {labels : List (C × Action K)}
    (hrun : Run Sys.Step Sys.boot labels s) : Inv s :=
  hrun.invariant boot fun _ _ _ h hstep => h.trans (Sys.trans_of_next hstep)

omit [DecidableEq C] in
/-- With the lock free, `c->proc` is the process that the CPU runs. -/
theorem proc_eq_runs (h : Inv s) (hl : s.lock = none) (c : C) :
    (s.cpu c).proc = (s.cpu c).mode.runs := by
  rw [h.sched.proc_eq]
  cases hm : (s.cpu c).mode <;> try rfl
  case back p => simp [h.sched.lock_of_holds hm rfl] at hl

/-- `switchuvm` is called for processes that have both pages. -/
theorem look_ne_panic (h : Inv s) (c : C) (i : ℕ) (e : Panic) : s.look c i ≠ .panic e := by
  unfold Sys.look
  split
  case isTrue hi =>
    dsimp only
    split_ifs with hst hk hd
    · exact absurd hk (h.fork.full _ (by simp [hst, ProcState.IsProc])).1
    · exact absurd hd (h.fork.full _ (by simp [hst, ProcState.IsProc])).2
    all_goals simp
  case isFalse => simp

omit [DecidableEq C] in
theorem forkStep_ne_panic (s : Sys C K) (p : Slot) (ok : Bool) (e : Panic) :
    s.forkStep p ok ≠ .panic e := by
  unfold Sys.forkStep
  split <;> try split_ifs
  all_goals simp

/-- The panics of `switchuvm` are not reached. -/
theorem next_panic [DecidableEq K] {l : C × Action K} {e : Panic} (h : Inv s)
    (hnext : s.next l = .panic e) : e = .initExiting ∨ e = .zombieExit := by
  unfold Sys.next at hnext
  dsimp only at hnext
  split at hnext
  case h_2 => exact absurd hnext (h.look_ne_panic _ _ _)
  case h_9 => exact absurd hnext (forkStep_ne_panic s _ _ _)
  case h_4 =>
    unfold Sys.runOn at hnext
    split at hnext <;> cases hnext
    exact .inr rfl
  case h_10 =>
    split_ifs at hnext
    unfold Sys.call at hnext
    split at hnext <;> try cases hnext
    split_ifs at hnext
    cases hnext
    exact .inl rfl
  all_goals (try split_ifs at hnext) <;> cases hnext

end Inv

/-! ### How states change -/

/-- The changes of state that the kernel makes. -/
inductive ProcState.Follows : ProcState → ProcState → Prop
  | claim : Follows .unused .embryo
  | undo : Follows .embryo .unused
  | ready : Follows .embryo .runnable
  | select : Follows .runnable .running
  | yield : Follows .running .runnable
  | sleep : Follows .running .sleeping
  | exit : Follows .running .zombie
  | wake : Follows .sleeping .runnable
  | reap : Follows .zombie .unused

namespace Sys

variable {C K : Type} {s t : Sys C K}

theorem follows_update {tab : Table K} {p : Slot} {x : Proc K}
    (h : x.state = (tab p).state ∨ (tab p).state.Follows x.state) (q : Slot) :
    (Function.update tab p x q).state = (tab q).state ∨
      (tab q).state.Follows (Function.update tab p x q).state := by
  by_cases hq : q = p
  · subst hq
    rwa [Function.update_self]
  · rw [Function.update_of_ne hq]
    exact .inl rfl

theorem follows_wakes {st st' : ProcState} (h : st.Wakes st') :
    st' = st ∨ st.Follows st' := by
  rcases h with h | ⟨rfl, rfl⟩
  · exact .inl h
  · exact .inr .wake

/-- How a step changes the state of each slot. -/
theorem trans_follows [DecidableEq C] [DecidableEq K] {c : C} {a : Action K} (h : Inv s)
    (hst : Trans s c a t) (q : Slot) :
    (t.proc q).state = (s.proc q).state ∨ (s.proc q).state.Follows (t.proc q).state := by
  cases hst with
  | acquire | skip | done | clear | runOn | noSlot | wait | waitFail => exact .inl rfl
  | wake | waitOn | stack | stackFail | copy | copyFail | noCopy | fill =>
    refine follows_update (.inl ?_) q
    rfl
  | select hm hst => exact follows_update (.inr (hst ▸ .select)) q
  | yield hm => exact follows_update (.inr (h.running hm rfl ▸ .yield)) q
  | sleep k hm => exact follows_update (.inr (h.running hm rfl ▸ .sleep)) q
  | waitSleep hm => exact follows_update (.inr (h.running hm rfl ▸ .sleep)) q
  | wakeup k => exact follows_wakes (wakeup1_wakes _ _ q)
  | kill pid => exact follows_wakes (killProc_wakes _ _ q)
  | alloc hm hl ho hf => exact follows_update (.inr (findUnused_eq_some hf ▸ .claim)) q
  | @giveUp p np ok hm ho =>
    have hemb := h.fork.embryo p np (by rcases ho with ho | ho <;> rw [ho, Op.claim])
    exact follows_update (.inr (hemb ▸ .undo)) q
  | @ready p np ok hm ho =>
    have hemb := h.fork.embryo p np (by rw [ho, Op.claim])
    exact follows_update (.inr (hemb ▸ .ready)) q
  | @exit p hm =>
    by_cases hq : q = p
    · subst hq
      refine .inr ?_
      simpa [exitProc_apply, h.running hm rfl] using ProcState.Follows.exit
    · exact follows_wakes (exitProc_wakes _ hq)
  | reap hm hq => exact follows_update (.inr ((waitFor_eq_some hq).2 ▸ .reap)) q

theorem step_of_toOption [DecidableEq C] [DecidableEq K] (s : Sys C K) (l : C × Action K)
    (t : Sys C K) (h : (s.next l).toOption = some t) : Step s l t :=
  Outcome.eq_ok_of_toOption h

end Sys

/-- In every reachable state: with `ptable.lock` free a process is running exactly when one
CPU has it as its `c->proc`; the slots that `allocproc` gave to two processes in `fork` differ;
a slot that holds a process has a kernel stack and a page directory, so that `switchuvm` does
not panic; and states change only as `ProcState.Follows` says. -/
theorem scheduler_state_invariant {C K : Type} [DecidableEq C] [DecidableEq K] {s : Sys C K}
    {labels : List (C × Action K)} (hrun : Run Sys.Step Sys.boot labels s) :
    (s.lock = none →
      (∀ p, (s.proc p).state = .running ↔ ∃! c, (s.cpu c).proc = some p) ∧
      ∀ c p, (s.cpu c).proc = some p → (s.proc p).state = .running) ∧
    (∀ p q np, (s.op p).claim = some np → (s.op q).claim = some np → p = q) ∧
    (∀ p, (s.proc p).state.IsProc → (s.proc p).kstack ≠ none ∧ (s.proc p).pgdir ≠ none) ∧
    (∀ l e, s.next l = .panic e → e = .initExiting ∨ e = .zombieExit) ∧
    ∀ l t, Sys.Step s l t → ∀ p, (t.proc p).state = (s.proc p).state ∨
      (s.proc p).state.Follows (t.proc p).state := by
  have h := Inv.of_run hrun
  refine ⟨fun hl => ⟨fun p => ?_, fun c p hp => ?_⟩, h.fork.unique, h.fork.full,
    fun l e => h.next_panic, fun l t hst => Sys.trans_follows h (Sys.trans_of_next hst)⟩
  · simp only [h.proc_eq_runs hl]
    rw [h.sched.running p]
    exact ⟨fun ⟨c, hc⟩ => ⟨c, hc, fun c' hc' => h.sched.unique c' c p hc' hc⟩,
      fun ⟨c, hc, _⟩ => ⟨c, hc⟩⟩
  · exact (h.sched.running p).mpr ⟨c, h.proc_eq_runs hl c ▸ hp⟩

/-- Two CPUs, one of which runs the first process while the other runs its child. -/
theorem scheduler_state_invariant_two_cpus :
    ∃ (labels : List (Bool × Action Unit)) (s : Sys Bool Unit), Run Sys.Step Sys.boot labels s ∧
      s.lock = none ∧ (s.cpu true).proc = some initproc ∧
      ∃ child, (s.cpu false).proc = some child ∧ child ≠ initproc ∧
        (s.proc child).state = .running := by
  obtain ⟨s, hrun, htest⟩ := exists_run_of_runList (fun s l => (s.next l).toOption)
    Sys.step_of_toOption (Sys.boot : Sys Bool Unit)
    [(true, .acquire), (true, .look), (true, .resume), (true, .fork), (true, .forkStep true),
      (true, .forkStep true), (true, .forkStep true), (true, .forkStep true), (false, .acquire),
      (false, .look), (false, .look), (false, .resume)]
    (fun s => s.lock = none ∧ (s.cpu true).proc = some initproc ∧
      (s.cpu false).proc = some ⟨1, by decide⟩)
    (by decide +kernel)
  simp only [decide_eq_true_eq] at htest
  obtain ⟨hl, h₀, h₁⟩ := htest
  exact ⟨_, s, hrun, hl, h₀, _, h₁, by decide, ((scheduler_state_invariant hrun).1 hl).2 _ _ h₁⟩

end Xv6.Ptable
