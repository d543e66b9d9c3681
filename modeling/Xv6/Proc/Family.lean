import Xv6.Proc.Schedule

/-!
# Parents and children

`fork` makes a child, `exit` leaves a zombie and gives its own children to the first
process, and `wait` frees the zombie and returns it. A process always has a parent that can
wait for it, and a parent asleep in `wait` has no zombie to collect.
-/

namespace Xv6.Ptable

open Lib

/-! ### Who is whose parent -/

/-- Every process but the first has a live parent other than itself; a slot that is not yet a
process has the parent that `fork` has just written; and who sleeps in `wait` has no zombie
child. -/
structure FamilyInv {K : Type} (t : Table K) (op : Slot → Op) : Prop where
  parent : ∀ p, (t p).state.IsProc → p ≠ initproc → ∃ q, (t p).parent = some q ∧ (t q).state.Live
  fresh : ∀ p np, ¬ (t np).state.IsProc → (t np).parent = some p → op p = .ready np
  ready : ∀ p np, op p = .ready np → (t np).parent = some p
  init : (t initproc).state.Live
  root : (t initproc).parent = none
  ne_self : ∀ p, (t p).parent ≠ some p
  sleep : ∀ p q, (t p).state = .sleeping → (t p).chan = some (.proc p) → (t q).parent = some p →
    (t q).state ≠ .zombie

theorem ProcState.Live.isProc {st : ProcState} (h : st.Live) : st.IsProc := by
  rcases h with rfl | rfl | rfl <;> simp [IsProc]

theorem ProcState.Live.ne_zombie {st : ProcState} (h : st.Live) : st ≠ .zombie := by
  rcases h with rfl | rfl | rfl <;> simp

theorem ProcState.Wakes.isProc {st st' : ProcState} (h : st.Wakes st') :
    st'.IsProc ↔ st.IsProc := by
  rcases h with rfl | ⟨rfl, rfl⟩
  · rfl
  · simp [IsProc]

theorem ProcState.Live.wakes {st st' : ProcState} (hl : st.Live) (h : st.Wakes st') : st'.Live := by
  rcases h with rfl | ⟨rfl, rfl⟩
  · exact hl
  · exact .inr (.inl rfl)

namespace FamilyInv

variable {K : Type} {t tab : Table K} {op : Slot → Op} {p q np : Slot} {o : Op} {x : Proc K}

/-- A live process stays alive, with its parent. -/
theorem live (h : FamilyInv t op) (hp : (t p).state.Live) (hx : x.state.Live)
    (hpar : x.parent = (t p).parent)
    (hsleep : x.state = .sleeping → x.chan = some (.proc p) →
      ∀ q, (t q).parent = some p → (t q).state ≠ .zombie) :
    FamilyInv (Function.update t p x) op := by
  have hparent : ∀ q, (Function.update t p x q).parent = (t q).parent := by
    intro q
    by_cases hq : q = p
    · subst hq
      rw [Function.update_self, hpar]
    · rw [Function.update_of_ne hq]
  have hlive : ∀ q, (t q).state.Live → (Function.update t p x q).state.Live := by
    intro q hl
    by_cases hq : q = p
    · subst hq
      rwa [Function.update_self]
    · rwa [Function.update_of_ne hq]
  refine ⟨fun q hq hi => ?_, fun q r hr => ?_, fun q r hr => ?_, hlive _ h.init,
    (hparent _).symm ▸ h.root, fun q => (hparent q).symm ▸ h.ne_self q, fun q r hq hc => ?_⟩
  · rw [hparent]
    have hq' : (t q).state.IsProc := by
      by_cases hqp : q = p
      · exact hqp ▸ hp.isProc
      · rwa [Function.update_of_ne hqp] at hq
    obtain ⟨r, hr, hl⟩ := h.parent q hq' hi
    exact ⟨r, hr, hlive r hl⟩
  · rw [hparent]
    refine h.fresh q r fun hp' => hr ?_
    by_cases hrp : r = p
    · subst hrp
      rw [Function.update_self]
      exact hx.isProc
    · rwa [Function.update_of_ne hrp]
  · rw [hparent]
    exact h.ready q r hr
  · rw [hparent]
    intro hr
    -- the zombies are those of before
    have hz : (t r).state ≠ .zombie → (Function.update t p x r).state ≠ .zombie := by
      intro hz
      by_cases hrp : r = p
      · subst hrp
        rw [Function.update_self]
        exact hx.ne_zombie
      · rwa [Function.update_of_ne hrp]
    by_cases hqp : q = p
    · subst hqp
      rw [Function.update_self] at hq hc
      exact hz (hsleep hq hc r hr)
    · rw [Function.update_of_ne hqp] at hq hc
      exact hz (h.sleep q r hq hc hr)

/-- Some sleeping processes become runnable. -/
theorem wakes (h : FamilyInv t op) (hpar : ∀ q, (tab q).parent = (t q).parent)
    (hchan : ∀ q, (tab q).chan = (t q).chan)
    (hst : ∀ q, (t q).state.Wakes (tab q).state) :
    FamilyInv tab op := by
  have hproc : ∀ q, (tab q).state.IsProc ↔ (t q).state.IsProc := fun q => (hst q).isProc
  have hlive : ∀ q, (t q).state.Live → (tab q).state.Live := fun q hl => hl.wakes (hst q)
  refine ⟨fun q hq hi => ?_, fun q r hr => ?_, fun q r hr => ?_, hlive _ h.init,
    (hpar _).symm ▸ h.root, fun q => (hpar q).symm ▸ h.ne_self q, fun q r hq hc => ?_⟩
  · rw [hpar]
    obtain ⟨r, hr, hl⟩ := h.parent q ((hproc q).mp hq) hi
    exact ⟨r, hr, hlive r hl⟩
  · rw [hpar]
    exact h.fresh q r fun hp => hr ((hproc r).mpr hp)
  · rw [hpar]
    exact h.ready q r hr
  · rw [hpar]
    rw [hchan] at hc
    intro hr
    rcases hst q with hs | ⟨-, hs⟩
    · rcases hst r with hr' | ⟨-, hr'⟩
      · rw [hr']
        exact h.sleep q r (hs ▸ hq) hc hr
      · simp [hr']
    · simp [hs] at hq

/-- A slot that is not a process is written and still is none. -/
theorem claimed (h : FamilyInv t op) (hnp : ¬ (t np).state.IsProc) (hx : ¬ x.state.IsProc)
    (hpar : x.parent = (t np).parent) (hp : ∀ r, op p ≠ .ready r) (ho : ∀ r, o ≠ .ready r) :
    FamilyInv (Function.update t np x) (Function.update op p o) := by
  have hne : ∀ q, (t q).state.IsProc → q ≠ np := by
    rintro q hq rfl
    exact hnp hq
  -- neither the old nor the new operation of `p` has a child to let go of
  have hop : ∀ q r, Function.update op p o q = .ready r ↔ op q = .ready r := by
    intro q r
    by_cases hq : q = p
    · subst hq
      rw [Function.update_self]
      exact iff_of_false (ho r) (hp r)
    · rw [Function.update_of_ne hq]
  have hparent : ∀ q, (Function.update t np x q).parent = (t q).parent := by
    intro q
    by_cases hq : q = np
    · subst hq
      rw [Function.update_self, hpar]
    · rw [Function.update_of_ne hq]
  refine ⟨fun q hq hi => ?_, fun q r hr hr' => ?_, fun q r hr => ?_, ?_,
    (hparent _).symm ▸ h.root, fun q => (hparent q).symm ▸ h.ne_self q, fun q r hq hc hr => ?_⟩
  · have hqnp : q ≠ np := by
      rintro rfl
      rw [Function.update_self] at hq
      exact hx hq
    rw [Function.update_of_ne hqnp] at hq ⊢
    obtain ⟨r, hr, hl⟩ := h.parent q hq hi
    refine ⟨r, hr, ?_⟩
    rwa [Function.update_of_ne (hne r hl.isProc)]
  · rw [hparent] at hr'
    refine (hop q r).mpr (h.fresh q r (fun hr'' => hr ?_) hr')
    rwa [Function.update_of_ne (hne r hr'')]
  · rw [hparent]
    exact h.ready q r ((hop q r).mp hr)
  · rw [Function.update_of_ne (hne _ h.init.isProc)]
    exact h.init
  · rw [hparent] at hr
    have hqnp : q ≠ np := by
      rintro rfl
      rw [Function.update_self] at hq
      exact hx (by simp [hq, ProcState.IsProc])
    rw [Function.update_of_ne hqnp] at hq hc
    by_cases hrnp : r = np
    · subst hrnp
      rw [Function.update_self]
      intro hz
      exact hx (by simp [hz, ProcState.IsProc])
    · rw [Function.update_of_ne hrnp]
      exact h.sleep q r hq hc hr

/-- `fork` writes the parent of the slot it has claimed. -/
theorem fill (h : FamilyInv t op) (hp : (t p).state.Live) (hnp : ¬ (t np).state.IsProc)
    (ho : ∀ r, op p ≠ .ready r)
    (hown : ∀ q, op q ≠ .ready np) :
    FamilyInv (Function.update t np { t np with parent := some p })
      (Function.update op p (.ready np)) := by
  -- a process is never the slot `np`, which is not yet one
  have hne : ∀ q, (t q).state.IsProc → q ≠ np := by
    rintro q hq rfl
    exact hnp hq
  have hst : ∀ q, (Function.update t np { t np with parent := some p } q).state = (t q).state :=
    (Function.forall_update_iff t fun q y => y.state = (t q).state).mpr ⟨rfl, fun _ _ => rfl⟩
  have hself : ∀ q, (Function.update t np { t np with parent := some p } q).parent ≠ some q := by
    refine (Function.forall_update_iff t fun q y => y.parent ≠ some q).mpr
      ⟨?_, fun q _ => h.ne_self q⟩
    simpa using hne p hp.isProc
  refine ⟨fun q hq hi => ?_, fun q r hr hr' => ?_, fun q r hr => ?_, ?_, ?_, hself,
    fun q r hq hc hr => ?_⟩
  · rw [hst] at hq
    rw [Function.update_of_ne (hne q hq)]
    obtain ⟨r, hr, hl⟩ := h.parent q hq hi
    exact ⟨r, hr, (hst r).symm ▸ hl⟩
  · rw [hst] at hr
    by_cases hrnp : r = np
    · subst hrnp
      rw [Function.update_self] at hr'
      obtain rfl : p = q := by simpa using hr'
      rw [Function.update_self]
    · rw [Function.update_of_ne hrnp] at hr'
      have hq := h.fresh q r hr hr'
      have hqp : q ≠ p := by
        rintro rfl
        exact ho r hq
      rwa [Function.update_of_ne hqp]
  · by_cases hqp : q = p
    · subst hqp
      rw [Function.update_self] at hr
      obtain rfl : np = r := by simpa using hr
      rw [Function.update_self]
    · rw [Function.update_of_ne hqp] at hr
      have hrnp : r ≠ np := by
        rintro rfl
        exact hown q hr
      rw [Function.update_of_ne hrnp]
      exact h.ready q r hr
  · rw [hst]
    exact h.init
  · rw [Function.update_of_ne (hne _ h.init.isProc)]
    exact h.root
  · rw [hst] at hq ⊢
    have hqnp : q ≠ np := hne q (by simp [hq, ProcState.IsProc])
    rw [Function.update_of_ne hqnp] at hc
    by_cases hrnp : r = np
    · subst hrnp
      intro hz
      exact hnp (by simp [hz, ProcState.IsProc])
    · rw [Function.update_of_ne hrnp] at hr
      exact h.sleep q r hq hc hr

/-- `fork` lets go of its child. -/
theorem release (h : FamilyInv t op) (hp : (t p).state.Live) (hnp : ¬ (t np).state.IsProc)
    (ho : op p = .ready np) :
    FamilyInv (Function.update t np { t np with state := .runnable })
      (Function.update op p .none) := by
  have hpar : ∀ q, (Function.update t np { t np with state := .runnable } q).parent =
    (t q).parent :=
    (Function.forall_update_iff t fun q y => y.parent = (t q).parent).mpr ⟨rfl, fun _ _ => rfl⟩
  have hlive : ∀ q, (t q).state.Live →
      (Function.update t np { t np with state := .runnable } q).state.Live :=
    (Function.forall_update_iff t fun q y => (t q).state.Live → y.state.Live).mpr
      ⟨fun _ => .inr (.inl rfl), fun _ _ => id⟩
  -- `np` becomes a process here, and its parent `p` is live
  refine ⟨fun q hq hi => ?_, fun q r hr hr' => ?_, fun q r hr => ?_, hlive _ h.init,
    (hpar _).symm ▸ h.root, fun q => (hpar q).symm ▸ h.ne_self q, fun q r hq hc hr => ?_⟩
  · rw [hpar]
    by_cases hqnp : q = np
    · subst hqnp
      exact ⟨p, h.ready p q ho, hlive p hp⟩
    · rw [Function.update_of_ne hqnp] at hq
      obtain ⟨r, hr, hl⟩ := h.parent q hq hi
      exact ⟨r, hr, hlive r hl⟩
  · have hrnp : r ≠ np := by
      rintro rfl
      rw [Function.update_self] at hr
      exact hr (by simp [ProcState.IsProc])
    rw [Function.update_of_ne hrnp] at hr hr'
    have hq := h.fresh q r hr hr'
    have hqp : q ≠ p := by
      rintro rfl
      rw [ho, Op.ready.injEq] at hq
      exact hrnp hq.symm
    rwa [Function.update_of_ne hqp]
  · rw [hpar]
    have hqp : q ≠ p := by
      rintro rfl
      rw [Function.update_self] at hr
      cases hr
    rw [Function.update_of_ne hqp] at hr
    exact h.ready q r hr
  · rw [hpar] at hr
    have hqnp : q ≠ np := by
      rintro rfl
      simp at hq
    rw [Function.update_of_ne hqnp] at hq hc
    by_cases hrnp : r = np
    · subst hrnp
      simp
    · rw [Function.update_of_ne hrnp]
      exact h.sleep q r hq hc hr

/-- `wait` frees the slot of a zombie. -/
theorem reap (h : FamilyInv t op) (hq : (t q).state = .zombie) (hown : ∀ p, op p ≠ .ready q) :
    FamilyInv (Function.update t q (Ptable.reap (t q))) op := by
  have hne : ∀ p, (t p).state.Live → p ≠ q := by
    rintro p hp rfl
    exact hp.ne_zombie hq
  refine ⟨fun p hp hi => ?_, fun p r hr hr' => ?_, fun p r hr => ?_, ?_, ?_,
    (Function.forall_update_iff t fun p y => y.parent ≠ some p).mpr
      ⟨by simp [Ptable.reap], fun p _ => h.ne_self p⟩, fun p r hp hc hr => ?_⟩
  · have hpq : p ≠ q := by
      rintro rfl
      rw [Function.update_self] at hp
      exact hp.1 rfl
    rw [Function.update_of_ne hpq] at hp ⊢
    obtain ⟨r, hr, hl⟩ := h.parent p hp hi
    refine ⟨r, hr, ?_⟩
    rwa [Function.update_of_ne (hne r hl)]
  · have hrq : r ≠ q := by
      rintro rfl
      simp [Ptable.reap] at hr'
    rw [Function.update_of_ne hrq] at hr hr'
    exact h.fresh p r hr hr'
  · have hrq : r ≠ q := by
      rintro rfl
      exact hown p hr
    rw [Function.update_of_ne hrq]
    exact h.ready p r hr
  · rw [Function.update_of_ne (hne _ h.init)]
    exact h.init
  · rw [Function.update_of_ne (hne _ h.init)]
    exact h.root
  · have hpq : p ≠ q := by
      rintro rfl
      simp [Ptable.reap] at hp
    have hrq : r ≠ q := by
      rintro rfl
      simp [Ptable.reap] at hr
    rw [Function.update_of_ne hpq] at hp hc
    rw [Function.update_of_ne hrq] at hr ⊢
    exact h.sleep p r hp hc hr

variable [DecidableEq K]

/-- `exit` makes a zombie and gives the children to the first process. -/
theorem exit (h : FamilyInv t op) (hp : (t p).state.Live) (hi : p ≠ initproc) (ho : op p = .none) :
    FamilyInv (exitProc p t) op := by
  -- the others are as alive as they were
  have hlive : ∀ q, q ≠ p → (t q).state.Live → (exitProc p t q).state.Live := by
    intro q hq hl
    exact hl.wakes (exitProc_wakes t hq)
  have hproc : ∀ q, (exitProc p t q).state.IsProc ↔ (t q).state.IsProc := by
    intro q
    by_cases hq : q = p
    · subst hq
      simpa [exitProc_apply, ProcState.IsProc] using hp.isProc
    · exact (exitProc_wakes t hq).isProc
  refine ⟨fun q hq hqi => ?_, fun q r hr hr' => ?_, fun q r hr => ?_, hlive _ (Ne.symm hi) h.init,
    by simp [exitProc_apply, h.root], fun q hq => ?_, fun q r hq hc hr hz => ?_⟩
  · obtain ⟨r, hr, hl⟩ := h.parent q ((hproc q).mp hq) hqi
    by_cases hrp : r = p
    · subst hrp
      exact ⟨initproc, by simp [exitProc_apply, hr], hlive _ (Ne.symm hi) h.init⟩
    · exact ⟨r, by simp [exitProc_apply, hr, hrp], hlive r hrp hl⟩
  · rw [hproc] at hr
    have hrp : (t r).parent ≠ some p := by
      intro hrp
      rw [h.fresh p r hr hrp] at ho
      cases ho
    simp only [exitProc_apply, if_neg hrp] at hr'
    exact h.fresh q r hr hr'
  · have hqp : q ≠ p := by
      rintro rfl
      rw [ho] at hr
      cases hr
    simp [exitProc_apply, h.ready q r hr, hqp]
  · simp only [exitProc_apply] at hq
    split_ifs at hq with hqp
    · obtain rfl : initproc = q := by simpa using hq
      simp [h.root] at hqp
    · exact h.ne_self q hq
  · simp only [exitProc_apply] at hq hc hr hz
    have hqp : q ≠ p := by
      rintro rfl
      simp at hq
    rw [if_neg hqp] at hq
    have hw : ¬ ExitWakes p t q := by
      intro hw
      simp [hw] at hq
    rw [if_neg hw] at hq
    by_cases hrp : r = p
    · -- `p` itself: its parent was woken
      subst hrp
      rw [if_neg (h.ne_self r)] at hr
      exact hw ⟨hq, .inl (by rw [hr, hc, Option.map_some])⟩
    · rw [if_neg hrp] at hz
      have hz' : (t r).state = .zombie := by
        split_ifs at hz
        exact hz
      split_ifs at hr with hrr
      · -- a zombie that goes to the first process
        obtain rfl : initproc = q := by simpa using hr
        exact hw ⟨hq, .inr ⟨hc, r, hrr, hz'⟩⟩
      · exact h.sleep q r hq hc hr hz'

omit [DecidableEq K] in
theorem boot {C : Type} : FamilyInv (Sys.boot : Sys C K).proc (Sys.boot : Sys C K).op := by
  refine ⟨fun p hp hi => ?_, fun p np _ hp => ?_, fun p np hp => ?_, .inr (.inl rfl), rfl,
    fun p => ?_, fun p q hp => ?_⟩
  · simp [Sys.boot, hi, ProcState.IsProc] at hp
  · by_cases hnp : np = initproc <;> simp [Sys.boot, hnp] at hp
  · cases hp
  · by_cases hp : p = initproc <;> simp [Sys.boot, hp]
  · by_cases hi : p = initproc <;> simp [Sys.boot, hi] at hp

/-- Every step keeps the family in order. -/
theorem trans {C : Type} [DecidableEq C] {s s' : Sys C K} {c : C} {a : Action K} (hinv : Inv s)
    (h : FamilyInv s.proc s.op) (hst : Sys.Trans s c a s') : FamilyInv s'.proc s'.op := by
  have hrun : ∀ {m : Mode} {p : Slot}, (s.cpu c).mode = m → m.runs = some p →
    (s.proc p).state.Live :=
    fun hm hr => .inr (.inr (hinv.running hm hr))
  have hemb : ∀ {p np : Slot}, (s.op p).claim = some np → ¬ (s.proc np).state.IsProc :=
    fun hc hp => hp.2 (hinv.fork.embryo _ _ hc)
  cases hst with
  | acquire | skip | done | clear | runOn | noSlot | wait | waitFail => exact h
  | @select p hm hst =>
    exact h.live (.inr (.inl hst)) (.inr (.inr rfl)) rfl (by simp)
  | wake hm =>
    exact h.live (hrun hm rfl) (hrun hm rfl) rfl (by simp)
  | waitOn hm =>
    exact h.live (hrun hm rfl) (hrun hm rfl) rfl (by simp)
  | yield hm => exact h.live (hrun hm rfl) (.inr (.inl rfl)) rfl (by simp)
  | sleep k hm => exact h.live (hrun hm rfl) (.inl rfl) rfl (by simp)
  | waitSleep hm hq =>
    exact h.live (hrun hm rfl) (.inl rfl) rfl fun _ _ q hpar => waitFor_eq_none hq hpar
  | wakeup k =>
    exact h.wakes (fun q => by simp [wakeup1_apply]) (fun q => by simp [wakeup1_apply])
      (wakeup1_wakes _ _)
  | kill pid =>
    exact h.wakes (fun q => by simp [killProc_apply]) (fun q => by simp [killProc_apply])
      (killProc_wakes _ _)
  | alloc hm hl ho hf =>
    have hu := findUnused_eq_some hf
    exact h.claimed (fun hp => hp.1 hu) (by simp [ProcState.IsProc]) rfl (by simp [ho]) (by simp)
  | @stack p np hm ho =>
    have hnp := hemb (p := p) (by rw [ho, Op.claim])
    exact h.claimed hnp hnp rfl (by simp [ho]) (by simp)
  | @stackFail p np hm ho =>
    have hnp := hemb (p := p) (by rw [ho, Op.claim])
    exact h.claimed hnp hnp rfl (by simp [ho]) (by simp)
  | giveUp hm ho =>
    rcases ho with ho | ho
    all_goals
      exact h.claimed (hemb (by rw [ho, Op.claim])) (by simp [ProcState.IsProc]) rfl
        (by simp [ho]) (by simp)
  | @copy p np hm ho =>
    have hnp := hemb (p := p) (by rw [ho, Op.claim])
    exact h.claimed hnp hnp rfl (by simp [ho]) (by simp)
  | @copyFail p np hm ho =>
    have hnp := hemb (p := p) (by rw [ho, Op.claim])
    exact h.claimed hnp hnp rfl (by simp [ho]) (by simp)
  | @noCopy p np ok hm ho =>
    have hnp := hemb (p := p) (by rw [ho, Op.claim])
    exact h.claimed hnp hnp rfl (by simp [ho]) (by simp)
  | @fill p np ok hm ho =>
    have hc : (s.op p).claim = some np := by rw [ho, Op.claim]
    refine h.fill (hrun hm rfl) (hemb hc) (by simp [ho]) fun q hq => ?_
    -- another process cannot have claimed this slot
    obtain rfl := hinv.fork.unique q p np (by rw [hq, Op.claim]) hc
    simp [ho] at hq
  | @ready p np ok hm ho =>
    exact h.release (hrun hm rfl) (hemb (p := p) (by rw [ho, Op.claim])) ho
  | exit hm hl ho hi => exact h.exit (hrun hm rfl) hi ho
  | @reap p q hm hq =>
    have hz := (waitFor_eq_some hq).2
    refine h.reap hz fun r hr => ?_
    simp [hinv.fork.embryo r q (by rw [hr, Op.claim])] at hz

end FamilyInv

end Xv6.Ptable
