import Xv6.Proc.Sleep

/-!
# No lost wakeup

A process sleeps on the channel of a condition only when it finds the condition false, and
whoever makes the condition true wakes the channel before giving up `lk`. As long as the
condition is true and somebody sleeps, or has gone too far in `sleep` not to, the process
that made it true is still in its critical section and has not come to the sleeper in the
loop of `wakeup1`.
-/

namespace Xv6.Sleep

open Lib

section Wakes

variable {n : ℕ} {C K D : Type} {e : Setup K D}

/-- The process sleeps on the channel of the condition, or has gone so far in `sleep` that it
will. -/
def Pending (e : Setup K D) (t : Thread n K) : Prop :=
  t.state = .sleeping ∧ t.chan = some e.chan ∨ t.pc = .setChan e.chan ∨ t.pc = .setState e.chan

/-- Where the condition is true, somebody is in the critical section that made it true and
has not woken the channel yet, as long as somebody sleeps there. -/
structure WakeInv (e : Setup K D) (s : Sys n C K D) : Prop where
  flags : ∀ p, (s.thread p).pc.inCrit = false →
    (s.thread p).made = false ∧ (s.thread p).woke = false
  cond_false : ∀ p, (s.thread p).pc = .sleepLock e.chan ∨ (s.thread p).pc = .sleepUnlock e.chan →
    e.cond s.shared.data = false
  chan : ∀ p k, (s.thread p).pc = .setState k → (s.thread p).chan = some k
  scan : ∀ p i, (s.thread p).pc = .scan e.chan i true → ∀ q : Fin n, q < i →
    ¬ Pending e (s.thread q)
  woke : ∀ p, (s.thread p).woke = true → ∀ q, ¬ Pending e (s.thread q)
  wake : e.cond s.shared.data = true → ∀ q, Pending e (s.thread q) →
    ∃ p, (s.thread p).made = true ∧ (s.thread p).woke = false

/-- A pass of a loop over the table makes nobody sleep. -/
theorem Pass.pending {s s' : Sys n C K D} {p : Fin n} (hpass : Pass p s s')
    (hset : ∀ k, (s'.thread p).pc ≠ .setChan k ∧ (s'.thread p).pc ≠ .setState k) (q : Fin n)
    (hq : Pending e (s'.thread q)) : Pending e (s.thread q) := by
  rcases hq with ⟨hst, hc⟩ | hpc
  · refine .inl ⟨?_, hpass.chan q ▸ hc⟩
    rcases hpass.state q with hs | ⟨-, hs⟩
    · exact hs.symm.trans hst
    · simp [hs] at hst
  · by_cases hqp : q = p
    · subst hqp
      exact (hpc.elim (hset _).1 (hset _).2).elim
    · rw [hpass.pc q hqp] at hpc
      exact .inr hpc

namespace WakeInv

variable {s s' : Sys n C K D} {p q : Fin n} {t : Thread n K}

/-- Nobody sleeps, and nobody is about to, unless they did before. -/
theorem pending_of_update (hth : s'.thread = Function.update s.thread p t)
    (hp : Pending e t → Pending e (s.thread p)) (q : Fin n) (hq : Pending e (s'.thread q)) :
    Pending e (s.thread q) := by
  rw [hth] at hq
  by_cases hqp : q = p
  · subst hqp
    rw [Function.update_self] at hq
    exact hp hq
  · rwa [Function.update_of_ne hqp] at hq

/-- A step of process `p` in which it does not begin to sleep on the channel, change the data
or leave the critical section. -/
theorem quiet (h : WakeInv e s) (hdata : s'.shared.data = s.shared.data)
    (hth : s'.thread = Function.update s.thread p t)
    (hpend : Pending e t → Pending e (s.thread p))
    (hmade : t.made = (s.thread p).made) (hwoke : t.woke = (s.thread p).woke)
    (hcrit : (s.thread p).pc.inCrit = true → t.pc.inCrit = true)
    (hscan : ∀ i, t.pc = .scan e.chan i true → i = 0)
    (hfalse : t.pc = .sleepLock e.chan ∨ t.pc = .sleepUnlock e.chan →
      (s.thread p).pc = .sleepLock e.chan)
    (hchan : ∀ k, t.pc = .setState k → t.chan = some k) : WakeInv e s' := by
  have hpend' := pending_of_update hth hpend
  have hflags : ∀ q, (s'.thread q).made = (s.thread q).made ∧
    (s'.thread q).woke = (s.thread q).woke := by
    intro q
    by_cases hq : q = p
    · simp [hth, hq, hmade, hwoke]
    · simp [hth, hq]
  -- one case for `p`, whose thread is `t`, and one for the others
  refine ⟨fun q hq => ?_, fun q hq => ?_, fun q k hq => ?_, fun q i hq r hr hpr => ?_,
    fun q hq r hr => ?_, fun hc q hq => ?_⟩
  · rw [(hflags q).1, (hflags q).2]
    refine h.flags q ?_
    by_cases hqp : q = p
    · subst hqp
      rw [hth, Function.update_self] at hq
      by_contra hne
      simp [hcrit (by simpa using hne)] at hq
    · rwa [hth, Function.update_of_ne hqp] at hq
  · rw [hdata]
    by_cases hqp : q = p
    · subst hqp
      rw [hth, Function.update_self] at hq
      exact h.cond_false q (.inl (hfalse hq))
    · rw [hth, Function.update_of_ne hqp] at hq
      exact h.cond_false q hq
  · rw [hth] at hq ⊢
    by_cases hqp : q = p
    · subst hqp
      rw [Function.update_self] at hq ⊢
      exact hchan k hq
    · rw [Function.update_of_ne hqp] at hq ⊢
      exact h.chan q k hq
  · have hpr' := hpend' r hpr
    by_cases hqp : q = p
    · subst hqp
      rw [hth, Function.update_self] at hq
      simp [hscan i hq] at hr
    · rw [hth, Function.update_of_ne hqp] at hq
      exact h.scan q i hq r hr hpr'
  · rw [(hflags q).2] at hq
    exact h.woke q hq r (hpend' r hr)
  · rw [hdata] at hc
    obtain ⟨r, hr⟩ := h.wake hc q (hpend' q hq)
    exact ⟨r, by rwa [(hflags r).1, (hflags r).2]⟩

/-- Who has set one of its flags is in a critical section. -/
theorem inCrit_of_flag (h : WakeInv e s)
    (hp : (s.thread p).made = true ∨ (s.thread p).woke = true) :
    (s.thread p).pc.inCrit = true := by
  by_contra hne
  obtain ⟨hmade, hwoke⟩ := h.flags p (by simpa using hne)
  simp [hmade, hwoke] at hp

/-- A process in a critical section that it may leave: if the condition is true, nobody
sleeps. -/
theorem not_pending (h : WakeInv e s) (hlock : LockInv e s) (hp : (s.thread p).pc.inCrit = true)
    (hwoke : (s.thread p).made = true → (s.thread p).woke = true)
    (hc : e.cond s.shared.data = true) (q : Fin n) : ¬ Pending e (s.thread q) := by
  intro hq
  obtain ⟨r, hmade, hr⟩ := h.wake hc q hq
  obtain rfl := hlock.eq_of_inCrit hp (h.inCrit_of_flag (.inl hmade))
  simp [hwoke hmade] at hr

/-- The data changes. -/
theorem modify (h : WakeInv e s) (hlock : LockInv e s) (hpc : (s.thread p).pc = .crit) (d : D) :
    WakeInv e { s.setThread p { s.thread p with
        made := (s.thread p).made || (!e.cond s.shared.data && e.cond d) } with
      shared := { s.shared with data := d } } := by
  set t : Thread n K := { s.thread p with
    made := (s.thread p).made || (!e.cond s.shared.data && e.cond d) } with ht
  have hsame : ∀ q, (Function.update s.thread p t q).pc = (s.thread q).pc ∧
      (Function.update s.thread p t q).chan = (s.thread q).chan ∧
      (Function.update s.thread p t q).woke = (s.thread q).woke :=
    (Function.forall_update_iff s.thread fun q x => x.pc = (s.thread q).pc ∧
      x.chan = (s.thread q).chan ∧ x.woke = (s.thread q).woke).mpr
      ⟨⟨rfl, rfl, rfl⟩, fun _ _ => ⟨rfl, rfl, rfl⟩⟩
  have hpend : ∀ q, Pending e (Function.update s.thread p t q) → Pending e (s.thread q) :=
    (Function.forall_update_iff s.thread fun q x => Pending e x → Pending e (s.thread q)).mpr
      ⟨fun hq => hq, fun _ _ hq => hq⟩
  have hcrit : (s.thread p).pc.inCrit = true := by rw [hpc, Pc.inCrit]
  refine ⟨fun q hq => ?_, fun q hq => ?_, fun q k hq => ?_, fun q i hq r hr hpr => ?_,
    fun q hq r hr => ?_, fun hc q hq => ?_⟩
  · have hqp : q ≠ p := by
      rintro rfl
      rw [Sys.setThread_thread, (hsame q).1, hcrit] at hq
      cases hq
    simp only [Sys.setThread_thread, Function.update_of_ne hqp] at hq ⊢
    exact h.flags q hq
  · simp only [Sys.setThread_thread, (hsame q).1] at hq
    exact absurd hq (hlock.not_sleepLock hpc)
  · simp only [Sys.setThread_thread, (hsame q).1, (hsame q).2.1] at hq ⊢
    exact h.chan q k hq
  · simp only [Sys.setThread_thread, (hsame q).1] at hq
    exact h.scan q i hq r hr (hpend r hpr)
  · simp only [Sys.setThread_thread, (hsame q).2.2] at hq
    exact h.woke q hq r (hpend r hr)
  · have hq' := hpend q hq
    cases hold : e.cond s.shared.data with
    | true =>
      obtain ⟨r, hmade, hwoke⟩ := h.wake hold q hq'
      refine ⟨r, ?_, by simpa [(hsame r).2.2] using hwoke⟩
      by_cases hrp : r = p
      · subst hrp
        simp [ht, hmade]
      · simp [hrp, hmade]
    | false =>
      -- this process has made the condition true
      refine ⟨p, ?_, ?_⟩
      · have hc' : e.cond d = true := hc
        simp [ht, hold, hc']
      · by_contra hne
        exact h.woke p (by simpa [ht] using hne) q hq'

/-- Process `p` leaves its critical section, or begins to sleep in it. -/
theorem close (h : WakeInv e s) (hlock : LockInv e s) (hpc : (s.thread p).pc = .crit)
    (hdata : s'.shared.data = s.shared.data) (hth : s'.thread = Function.update s.thread p t)
    (hmade : t.made = false) (hwoke : t.woke = false) (hnoScan : ∀ i, t.pc ≠ .scan e.chan i true)
    (hfalse : t.pc = .sleepLock e.chan ∨ t.pc = .sleepUnlock e.chan → e.cond s.shared.data = false)
    (hchan : ∀ k, t.pc ≠ .setState k)
    (hpend : e.cond s.shared.data = true → ∀ q, ¬ Pending e (s'.thread q)) : WakeInv e s' := by
  have hcrit : (s.thread p).pc.inCrit = true := by rw [hpc, Pc.inCrit]
  -- nobody else is in a critical section
  have hout : ∀ q, q ≠ p → (s.thread q).pc.inCrit = false := by
    intro q hq
    by_contra hne
    exact hq (hlock.eq_of_inCrit (by simpa using hne) hcrit)
  refine ⟨fun q hq => ?_, fun q hq => ?_, fun q k hq => ?_, fun q i hq => ?_, fun q hq => ?_,
    fun hc q hq => absurd hq (hpend (hdata ▸ hc) q)⟩
  all_goals by_cases hqp : q = p
  · simp [hth, hqp, hmade, hwoke]
  · rw [hth, Function.update_of_ne hqp]
    exact h.flags q (hout q hqp)
  · rw [hdata]
    exact hfalse (by simpa [hth, hqp] using hq)
  · rw [hdata]
    exact h.cond_false q (by simpa [hth, hqp] using hq)
  · exact absurd (by simpa [hth, hqp] using hq) (hchan k)
  · rw [hth, Function.update_of_ne hqp] at hq ⊢
    exact h.chan q k hq
  · exact absurd (by simpa [hth, hqp] using hq) (hnoScan i)
  · have hcrit' := hout q hqp
    rw [hth, Function.update_of_ne hqp] at hq
    simp [hq, Pc.inCrit] at hcrit'
  · simp [hth, hqp, hwoke] at hq
  · have hflags := h.flags q (hout q hqp)
    rw [hth, Function.update_of_ne hqp, hflags.2] at hq
    cases hq

/-- Process `p` gives up `lk` in `sleep`. -/
theorem unlock (h : WakeInv e s) (hlock : LockInv e s) {k : K}
    (hpc : (s.thread p).pc = .sleepUnlock k) (hdata : s'.shared.data = s.shared.data)
    (hth : s'.thread = Function.update s.thread p { s.thread p with pc := .setChan k }) :
    WakeInv e s' := by
  by_cases hk : k = e.chan
  · subst hk
    have hfalse := h.cond_false p (.inr hpc)
    have hsame : e.ptable = false := by
      have hl := hlock.legal p
      simpa [hpc, Pc.legal] using hl
    -- nobody is in a critical section: `p` has the lock until now
    have hout : ∀ q, (s.thread q).pc.inCrit = false := by
      intro q
      by_contra hne
      have hq : (s.thread q).pc.inCrit = true := by simpa using hne
      have hlq := hlock.lk hsame q (Pc.holdsLk_of_inCrit hq)
      have hlp := hlock.lk hsame p (by rw [hpc, Pc.holdsLk])
      obtain rfl : p = q := by simpa using hlp.symm.trans hlq
      simp [hpc, Pc.inCrit] at hq
    refine ⟨fun q hq => ?_, fun q hq => ?_, fun q k hq => ?_, fun q i hq => ?_, fun q hq => ?_,
      fun hc => ?_⟩
    · by_cases hqp : q = p
      · simpa [hth, hqp] using h.flags p (hout p)
      · simpa [hth, hqp] using h.flags q (hout q)
    · rwa [hdata]
    · by_cases hqp : q = p
      · simp [hth, hqp] at hq
      · rw [hth, Function.update_of_ne hqp] at hq ⊢
        exact h.chan q k hq
    · by_cases hqp : q = p
      · simp [hth, hqp] at hq
      · rw [hth, Function.update_of_ne hqp] at hq
        have hq' := hout q
        simp [hq, Pc.inCrit] at hq'
    · by_cases hqp : q = p
      · simp [hth, hqp, (h.flags p (hout p)).2] at hq
      · simp [hth, hqp, (h.flags q (hout q)).2] at hq
    · simp [hdata, hfalse] at hc
  · refine h.quiet hdata hth ?_ rfl rfl ?_ ?_ ?_ ?_
    · rintro (hp | hp | hp)
      · exact .inl hp
      · simp [hk] at hp
      · simp at hp
    · simp [hpc, Pc.inCrit]
    · simp
    · simp
    · simp

/-- A pass of a loop over the table by process `p`. -/
theorem pass (h : WakeInv e s) (hpass : Pass p s s')
    (hcrit : (s.thread p).pc.inCrit = (s'.thread p).pc.inCrit)
    (hfalse : ∀ k, (s'.thread p).pc ≠ .sleepLock k ∧ (s'.thread p).pc ≠ .sleepUnlock k)
    (hset : ∀ k, (s'.thread p).pc ≠ .setChan k ∧ (s'.thread p).pc ≠ .setState k)
    (hscan : ∀ i, (s'.thread p).pc = .scan e.chan i true → ∀ q : Fin n, q < i →
      ¬ Pending e (s'.thread q))
    (hwoke : (s'.thread p).woke = true → (s.thread p).woke = false →
      (s'.thread p).pc.inCrit = true ∧ ∀ q, ¬ Pending e (s'.thread q)) : WakeInv e s' := by
  -- a pass makes sleepers runnable and puts nobody to sleep
  have hpend := hpass.pending (e := e) hset
  refine ⟨fun q hq => ?_, fun q hq => ?_, fun q k hq => ?_, fun q i hq r hr hpr => ?_,
    fun q hq r hr => ?_, fun hc q hq => ?_⟩
  · rw [hpass.made]
    by_cases hqp : q = p
    · subst hqp
      obtain ⟨hmade, hold⟩ := h.flags q (hcrit.trans hq)
      refine ⟨hmade, ?_⟩
      by_contra hne
      simp [(hwoke (by simpa using hne) hold).1] at hq
    · rw [hpass.woke q hqp]
      exact h.flags q (hpass.pc q hqp ▸ hq)
  · rw [hpass.shared]
    by_cases hqp : q = p
    · subst hqp
      exact (hq.elim (hfalse _).1 (hfalse _).2).elim
    · exact h.cond_false q (hpass.pc q hqp ▸ hq)
  · by_cases hqp : q = p
    · subst hqp
      exact absurd hq (hset k).2
    · rw [hpass.chan]
      exact h.chan q k (hpass.pc q hqp ▸ hq)
  · by_cases hqp : q = p
    · subst hqp
      exact hscan i hq r hr hpr
    · exact h.scan q i (hpass.pc q hqp ▸ hq) r hr (hpend r hpr)
  · by_cases hqp : q = p
    · subst hqp
      cases hold : (s.thread q).woke with
      | true => exact h.woke q hold r (hpend r hr)
      | false => exact (hwoke hq hold).2 r hr
    · rw [hpass.woke q hqp] at hq
      exact h.woke q hq r (hpend r hr)
  · rw [hpass.shared] at hc
    obtain ⟨r, hmade, hold⟩ := h.wake hc q (hpend q hq)
    refine ⟨r, (hpass.made r).trans hmade, ?_⟩
    by_cases hrp : r = p
    · subst hrp
      by_contra hne
      exact (hwoke (by simpa using hne) hold).2 q hq
    · rwa [hpass.woke r hrp]

variable [DecidableEq K]

theorem scanStep (h : WakeInv e s) (hlock : LockInv e s) {k : K} {i : ℕ} {b : Bool}
    (hpc : (s.thread p).pc = .scan k i b) : WakeInv e (s.scan e p k i b) := by
  have hpass : Pass p s (s.scan e p k i b) := pass_scan k i b
  have hset : ∀ k', ((s.scan e p k i b).thread p).pc ≠ .setChan k' ∧
      ((s.scan e p k i b).thread p).pc ≠ .setState k' := by
    intro k'
    rw [scan_pc]
    split_ifs <;> simp
  refine h.pass hpass ?_ (fun k' => ?_) hset (fun j hj q hq hpend => ?_) fun hw hold => ?_
  · rw [hpc, scan_pc]
    cases b <;> split_ifs <;> simp_all [Pc.inCrit]
  · rw [scan_pc]
    split_ifs <;> simp
  · rw [scan_pc] at hj
    split_ifs at hj with hi
    obtain ⟨rfl, rfl, rfl⟩ : k = e.chan ∧ i + 1 = j ∧ b = true := by simpa using hj
    have hpend' := hpass.pending hset q hpend
    rcases Nat.lt_or_ge q i with hlt | hge
    · exact h.scan p i hpc q hlt hpend'
    · -- the process just looked at: it is awake, and not on its way to sleep either
      obtain rfl : (q : ℕ) = i := by omega
      rcases hpend with hsleep | hpc'
      · exact scan_awake _ q true hsleep
      · have hqp : q ≠ p := by
          rintro rfl
          exact hpc'.elim (hset _).1 (hset _).2
        rw [hpass.pc q hqp] at hpc'
        refine hqp (hlock.eq_of_holdsPtable ?_ (by rw [hpc, Pc.holdsPtable]))
        rcases hpc' with hpc' | hpc' <;> rw [hpc', Pc.holdsPtable]
  · rw [scan_woke, hold] at hw
    obtain ⟨hi, rfl, rfl⟩ : n ≤ i ∧ b = true ∧ k = e.chan := by simpa using hw
    refine ⟨?_, fun q hq => ?_⟩
    · rw [scan_pc]
      split_ifs <;> simp_all [Pc.inCrit]
    · exact h.scan p i hpc q (q.isLt.trans_le hi) (hpass.pending hset q hq)

omit [DecidableEq K] in
theorem killStep (h : WakeInv e s) (hpass : Pass p s s') (hold : (s.thread p).pc.inCrit = false)
    (hwoke : (s'.thread p).woke = (s.thread p).woke)
    (hpc : (∃ pid i, (s'.thread p).pc = .killScan pid i) ∨ (∃ q, (s'.thread p).pc = .killWake q) ∨
      (s'.thread p).pc = .killRelease) : WakeInv e s' := by
  refine h.pass hpass ?_ ?_ ?_ ?_ fun hw hw' => ?_
  · rw [hold]
    rcases hpc with ⟨_, _, hpc⟩ | ⟨_, hpc⟩ | hpc <;> simp [hpc, Pc.inCrit]
  · rcases hpc with ⟨_, _, hpc⟩ | ⟨_, hpc⟩ | hpc <;> simp [hpc]
  · rcases hpc with ⟨_, _, hpc⟩ | ⟨_, hpc⟩ | hpc <;> simp [hpc]
  · rcases hpc with ⟨_, _, hpc⟩ | ⟨_, hpc⟩ | hpc <;> simp [hpc]
  · simp [hwoke, hw'] at hw

omit [DecidableEq K] in
/-- Process `p` acquires `ptable.lock`. -/
theorem acquirePtable (h : WakeInv e s) {pc : Pc n K} {r : Shared n C D × Thread n K}
    (hnext : Sleep.acquirePtable p s.shared (s.thread p) pc = some r)
    (hcrit : (s.thread p).pc.inCrit = true → pc.inCrit = true)
    (hset : ∀ k, pc ≠ .setChan k ∧ pc ≠ .setState k)
    (hscan : ∀ i, pc = .scan e.chan i true → i = 0)
    (hfalse : pc = .sleepLock e.chan ∨ pc = .sleepUnlock e.chan →
      (s.thread p).pc = .sleepLock e.chan) :
    WakeInv e { s.setThread p r.2 with shared := r.1 } := by
  unfold Sleep.acquirePtable at hnext
  split_ifs at hnext
  obtain rfl := Option.some.inj hnext
  refine h.quiet rfl rfl (fun hp => ?_) rfl rfl hcrit hscan hfalse fun k hk => absurd hk (hset k).2
  rcases hp with hp | hp | hp
  · exact .inl hp
  · exact absurd hp (hset _).1
  · exact absurd hp (hset _).2

omit [DecidableEq K] in
/-- Process `p` acquires `lk`. -/
theorem acquireLk (h : WakeInv e s) {r : Shared n C D × Thread n K}
    (hnext : Sleep.acquireLk e p s.shared (s.thread p) = some r) :
    WakeInv e { s.setThread p r.2 with shared := r.1 } := by
  unfold Sleep.acquireLk at hnext
  split_ifs at hnext
  · exact h.acquirePtable hnext (fun _ => rfl) (by simp) (by simp) (by simp)
  · obtain rfl := Option.some.inj hnext
    refine h.quiet rfl rfl (fun hp => ?_) rfl rfl (fun _ => rfl) (by simp) (by simp) (by simp)
    exact .inl (by simpa [Pending] using hp)

omit [DecidableEq K] in
/-- A statement of process `p` on its own fields, the locks and the data. -/
theorem statement (h : WakeInv e s) (hlock : LockInv e s) {a : Action K D}
    {r : Shared n C D × Thread n K} (hnext : (s.thread p).next e p s.shared a = some r)
    (hsleep : (s.thread p).pc = .crit → ∀ k, a = .sleep k → k = e.chan →
      e.cond s.shared.data = false)
    (hwake : (s.thread p).pc = .crit → (a = .leave ∨ ∃ k, a = .sleep k ∧ k ≠ e.chan) →
      (s.thread p).made = true → (s.thread p).woke = true) :
    WakeInv e { s.setThread p r.2 with shared := r.1 } := by
  unfold Thread.next at hnext
  split at hnext
  case h_5 d hpc =>
    obtain rfl := Option.some.inj hnext
    exact h.modify hlock hpc d
  case h_1 => exact h.acquireLk hnext
  case h_15 => exact h.acquireLk hnext
  case h_9 hpc | h_16 hpc | h_18 hpc | h_20 hpc =>
    exact h.acquirePtable hnext (by simp_all [Pc.inCrit]) (by simp) (by simp) (by simp_all)
  case h_10 k hpc =>
    obtain rfl := Option.some.inj hnext
    exact h.unlock hlock hpc rfl rfl
  case h_6 k hpc =>
    obtain rfl := Option.some.inj hnext
    refine h.close hlock hpc rfl rfl rfl rfl ?_ ?_ ?_ fun hc => ?_
    · intro i
      dsimp only
      split_ifs <;> simp
    · dsimp only
      split_ifs
      · simp
      · simpa using hsleep hpc k rfl
    · intro k'
      dsimp only
      split_ifs <;> simp
    · have hk : k ≠ e.chan := fun hk => by simp [hsleep hpc k rfl hk] at hc
      have hnone := h.not_pending hlock (by rw [hpc, Pc.inCrit]) (hwake hpc (.inr ⟨k, rfl, hk⟩)) hc
      refine fun q hq => hnone q (pending_of_update rfl (fun hp => ?_) q hq)
      refine .inl ?_
      cases hsame : e.ptable <;> simpa [Pending, hsame, hk] using hp
  case h_8 hpc =>
    obtain rfl := Option.some.inj hnext
    refine h.close hlock hpc (by unfold releaseLk; split_ifs <;> rfl) rfl rfl rfl (by simp)
      (by simp)
      (by simp) fun hc => ?_
    have hnone := h.not_pending hlock (by rw [hpc, Pc.inCrit]) (hwake hpc (.inl rfl)) hc
    exact fun q hq => hnone q (pending_of_update rfl (fun hp => .inl (by simpa [Pending] using hp))
      q hq)
  case h_12 k hpc =>
    obtain rfl := Option.some.inj hnext
    refine h.quiet rfl rfl (fun hp => ?_) rfl rfl (by simp [hpc, Pc.inCrit]) (by simp) (by simp)
      (by simp)
    have hchan := h.chan p k hpc
    obtain rfl : k = e.chan := by simpa [Pending, hchan] using hp
    exact .inr (.inr hpc)
  case h_7 k hpc =>
    obtain rfl := Option.some.inj hnext
    cases hsame : e.ptable
    all_goals
      refine h.quiet rfl rfl (fun hp => .inl (by simpa [Pending] using hp))
        rfl rfl (by simp [Pc.inCrit])
        (by simp) (by simp) (by simp)
  case h_11 k hpc =>
    obtain rfl := Option.some.inj hnext
    refine h.quiet rfl rfl (fun hp => ?_) rfl rfl (by simp [hpc, Pc.inCrit]) (by simp) (by simp)
      (by simp)
    obtain rfl : k = e.chan := by
      rcases hp with ⟨-, hk⟩ | hk | hk
      · simpa using hk
      · simp at hk
      · simpa using hk
    exact .inr (.inl hpc)
  case h_13 hpc =>
    obtain rfl := Option.some.inj hnext
    cases hsame : e.ptable
    all_goals
      refine h.quiet rfl rfl (fun hp => by simp [Pending] at hp) rfl rfl (by simp [hpc, Pc.inCrit])
        (by simp) (by simp) (by simp)
  case h_17 b hpc =>
    obtain rfl := Option.some.inj hnext
    cases b
    all_goals
      refine h.quiet rfl rfl (fun hp => .inl (by simpa [Pending] using hp)) rfl rfl
        (by simp [hpc, Pc.inCrit]) (by simp) (by simp) (by simp)
  case h_21 hpc =>
    obtain rfl := Option.some.inj hnext
    exact h.quiet rfl rfl (fun hp => by simp [Pending] at hp) rfl rfl (by simp [hpc, Pc.inCrit])
      (by simp) (by simp) (by simp)
  all_goals cases hnext
  -- the rest moves on without touching what the invariant is about
  all_goals
    exact h.quiet rfl rfl (fun hp => .inl (by simpa [Pending] using hp)) rfl rfl
      (by simp_all [Pc.inCrit]) (by simp) (by simp) (by simp)

omit [DecidableEq K] in
/-- A step that moves no process and does not change the data. -/
theorem frame (h : WakeInv e s) (hdata : s'.shared.data = s.shared.data)
    (hth : s'.thread = s.thread) : WakeInv e s' := by
  refine ⟨?_, ?_, ?_, ?_, ?_, ?_⟩ <;> rw [hth]
  · exact h.flags
  · rw [hdata]
    exact h.cond_false
  · exact h.chan
  · exact h.scan
  · exact h.woke
  · rw [hdata]
    exact h.wake

omit [DecidableEq K] in
/-- The scheduler switches to process `p`, or `p` to the scheduler. -/
theorem switch (h : WakeInv e s) (hdata : s'.shared.data = s.shared.data)
    (hth : s'.thread = Function.update s.thread p t) (hmade : t.made = (s.thread p).made)
    (hwoke : t.woke = (s.thread p).woke) (hchan : t.chan = (s.thread p).chan)
    (hstate : t.state = .sleeping → (s.thread p).state = .sleeping)
    (hold : (s.thread p).pc.inCrit = false)
    (hpc : (∃ r, t.pc = .parked r) ∨ t.pc = .clearChan ∨ t.pc = .yieldRelease) : WakeInv e s' := by
  refine h.quiet hdata hth (fun hp => ?_) hmade hwoke (by simp [hold]) ?_ ?_ ?_
  · rcases hp with ⟨hst, hc⟩ | hp
    · exact .inl ⟨hstate hst, hchan ▸ hc⟩
    · rcases hpc with ⟨r, hpc⟩ | hpc | hpc <;> simp [hpc] at hp
  all_goals rcases hpc with ⟨r, hpc⟩ | hpc | hpc <;> simp [hpc]

omit [DecidableEq K] in
theorem look [DecidableEq C] (h : WakeInv e s) {c : C} {i : ℕ} (hlook : s.look c i = some s') :
    WakeInv e s' := by
  unfold Sys.look at hlook
  split at hlook
  case isTrue hi =>
    dsimp only at hlook
    split_ifs at hlook with hst
    · split at hlook
      case h_1 r hpc =>
        obtain rfl := Option.some.inj hlook
        refine h.switch rfl rfl rfl rfl rfl (by simp) (by rw [hpc, Pc.inCrit] <;> simp) ?_
        cases r <;> simp
      case h_2 => cases hlook
    · obtain rfl := Option.some.inj hlook
      exact h.frame rfl rfl
  case isFalse hi =>
    obtain rfl := Option.some.inj hlook
    exact h.frame rfl rfl

/-- Every step of disciplined callers keeps the invariant. -/
theorem next [DecidableEq C] (h : WakeInv e s) (hlock : LockInv e s) {l : C × Action K D}
    (hdis : Disciplined e s l) (hst : s.next e l = some s') : WakeInv e s' := by
  obtain ⟨c, a⟩ := l
  unfold Sys.next at hst
  dsimp only at hst
  split at hst
  case h_1 hc =>
    split_ifs at hst
    obtain rfl := Option.some.inj hst
    exact h.frame rfl rfl
  case h_2 i hc => exact h.look hst
  case h_3 p hc =>
    split at hst
    case h_1 k i b hpc => exact Option.some.inj hst ▸ h.scanStep hlock hpc
    case h_2 pid i hpc =>
      obtain rfl := Option.some.inj hst
      refine h.killStep (pass_killScan pid i) (by simp [hpc, Pc.inCrit]) (killScan_woke pid i) ?_
      exact (killScan_pc pid i).imp_left fun hpc' => ⟨pid, i + 1, hpc'⟩
    case h_3 q hpc =>
      obtain rfl := Option.some.inj hst
      exact h.killStep (pass_killWake q) (by simp [hpc, Pc.inCrit]) (killWake_woke q)
        (.inr (.inr (killWake_pc q)))
    case h_4 r hpc =>
      obtain rfl := Option.some.inj hst
      exact h.switch rfl rfl rfl rfl rfl id (by simp [hpc, Pc.inCrit]) (.inl ⟨r, rfl⟩)
    case h_5 =>
      obtain ⟨r, hr, rfl⟩ := Option.map_eq_some_iff.mp hst
      refine h.statement hlock hr (fun hpc k ha hk => ?_) fun hpc ha => ?_
      · subst ha
        simpa [hk] using hdis p hc hpc
      · rcases ha with rfl | ⟨k, rfl, hk⟩
        · exact hdis p hc hpc
        · simpa [hk] using hdis p hc hpc

omit [DecidableEq K] in
theorem start (live : Fin n → Bool) (pid : Fin n → Int32) (d : D) :
    WakeInv e (start live pid d : Sys n C K D) := by
  have hnone : ∀ q, ¬ Pending e ((Sleep.start live pid d : Sys n C K D).thread q) := by
    rintro q (⟨hst, -⟩ | hpc)
    · simp only [Sleep.start] at hst
      split_ifs at hst
    · simp [Sleep.start] at hpc
  refine ⟨fun p _ => ⟨rfl, rfl⟩, fun p hp => ?_, fun p k hp => ?_, fun p i _ q _ => hnone q,
    fun p _ q => hnone q, fun _ q hq => absurd hq (hnone q)⟩
  · simp [Sleep.start] at hp
  · simp [Sleep.start] at hp

end WakeInv

/-- Whoever waits for a condition under `lk` by `while(!cond) sleep(chan, lk)` is not left
asleep: if who makes the condition true does so in a critical section of `lk` and calls
`wakeup(chan)` before leaving it, then in every reachable state in which no process holds
`lk` and the condition is true, no process sleeps on the channel. The lock may be
`ptable.lock`. -/
theorem no_lost_wakeup [DecidableEq C] [DecidableEq K] (e : Setup K D) {live : Fin n → Bool}
    {pid : Fin n → Int32} {d : D} {labels : List (C × Action K D)} {s : Sys n C K D}
    (hrun : Run (Guarded (Sys.Step e) (Disciplined e)) (start live pid d) labels s)
    (hfree : ∀ p, e.holder s.shared ≠ some (.proc p)) (hcond : e.cond s.shared.data = true)
    (q : Fin n) : ¬ ((s.thread q).state = .sleeping ∧ (s.thread q).chan = some e.chan) := by
  obtain ⟨hlock, h⟩ := hrun.invariant_of_guard (I := fun s => LockInv e s ∧ WakeInv e s)
    ⟨LockInv.start live pid d, WakeInv.start live pid d⟩
    fun u l v ⟨hlock, h⟩ hdis hstep => ⟨hlock.next hstep, h.next hlock hdis hstep⟩
  intro hq
  obtain ⟨p, hmade, -⟩ := h.wake hcond q (.inl hq)
  exact hfree p (hlock.holder_of_inCrit (h.inCrit_of_flag (.inl hmade)))

/-- One process sleeps until another makes the condition true. -/
theorem no_lost_wakeup_two_processes :
    ∃ (labels : List (Unit × Action Unit Bool)) (s : Sys 2 Unit Unit Bool),
      Run (Guarded (Sys.Step ⟨false, id, ()⟩) (Disciplined ⟨false, id, ()⟩))
        (start (fun _ => true) (fun _ => 0) false) labels s ∧ s.shared.data = true ∧
      ∀ q, ¬ ((s.thread q).state = .sleeping ∧ (s.thread q).chan = some ()) := by
  obtain ⟨s, hrun, htest⟩ := exists_run_of_runList
    (guardedNext (Disciplined ⟨false, id, ()⟩) fun s l => s.next ⟨false, id, ()⟩ l)
    (guarded_of_guardedNext fun _ _ _ h => h)
    (start (fun _ => true) (fun _ => 0) false : Sys 2 Unit Unit Bool)
    (([.go, .go, .go, .enter, .sleep (), .go, .go, .go, .go, .go, .go, .go, .enter, .modify true,
      .wakeup (), .go, .go, .go, .go, .go, .leave] : List (Action Unit Bool)).map (Prod.mk ()))
    (fun s => s.shared.lk = none ∧ s.shared.data = true) (by decide +kernel)
  simp only [decide_eq_true_eq] at htest
  refine ⟨_, s, hrun, htest.2, no_lost_wakeup ⟨false, id, ()⟩ hrun (fun p => ?_) htest.2⟩
  simp [Setup.holder, htest.1]

end Wakes

end Xv6.Sleep
