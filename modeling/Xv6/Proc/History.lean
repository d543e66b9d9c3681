import Mathlib.Data.List.Count
import Xv6.Proc.Family

/-!
# The history of forks, exits and waits

The log shows that each child is returned by at most one `wait`, after it exited, to the
process that made it or, once that has exited, to the first process, and that this is when
its kernel stack and page directory are freed.
-/

namespace Xv6.Ptable

open Lib

/-! ### The log -/

/-- The event is the return of `child` by a `wait`. -/
def Event.Reaps (child : ℕ) : Event → Bool
  | .wait _ c => c = child
  | _ => false

/-- How many waits have returned this child. -/
def waits (log : List Event) (child : ℕ) : ℕ := log.countP (Event.Reaps child)

/-- A wait returns a child that has exited, to the process that forked it or, if that has
exited, to the first process. -/
def Due (log : List Event) (parent child : ℕ) : Prop :=
  .exit child ∈ log ∧ ∃ p k d, .fork p child k d ∈ log ∧ (parent = p ∨ parent = 0 ∧ .exit p ∈ log)

/-- Every wait in the log was due. -/
def Accounted (log : List Event) : Prop :=
  ∀ before parent child after, log = before ++ .wait parent child :: after → Due before parent child

section Log

variable {log : List Event} {e : Event} {c : ℕ}

theorem waits_append (log : List Event) (e : Event) (c : ℕ) :
    waits (log ++ [e]) c = waits log c + if e.Reaps c then 1 else 0 := by
  simp [waits, List.countP_append, List.countP_cons]

theorem waits_append_of_not_reaps (h : e.Reaps c = false) : waits (log ++ [e]) c = waits log c := by
  simp [waits_append, h]

theorem Accounted.append (h : Accounted log)
    (he : ∀ parent child, e = .wait parent child → Due log parent child) :
    Accounted (log ++ [e]) := by
  intro before parent child after heq
  rcases List.eq_nil_or_concat after with rfl | ⟨rest, x, rfl⟩
  · obtain ⟨rfl, hlast⟩ := List.append_inj' heq rfl
    exact he parent child (by simpa using hlast)
  · rw [List.concat_eq_append, ← List.cons_append, ← List.append_assoc] at heq
    exact h before parent child rest (List.append_inj' heq rfl).1

end Log

/-- What the log says about the occupants of the slots. -/
structure Roll {K : Type} (t : Table K) (id : Slot → ℕ) (serial : ℕ) (log : List Event) : Prop where
  id_lt : ∀ p, id p < serial
  id_inj : ∀ p q, (t p).state ≠ .unused → (t q).state ≠ .unused → id p = id q → p = q
  id_init : id initproc = 0
  fork_lt : ∀ q c k d, .fork q c k d ∈ log → c < serial
  fork_unique : ∀ q c k d q' k' d', .fork q c k d ∈ log → .fork q' c k' d' ∈ log → k = k' ∧ d = d'
  waits_new : ∀ c, serial ≤ c → waits log c = 0
  unforked : ∀ p, (t p).state = .embryo → ∀ q k d, .fork q (id p) k d ∉ log
  unreaped : ∀ p, (t p).state ≠ .unused → waits log (id p) = 0
  forked : ∀ p, (t p).state.IsProc → p ≠ initproc → ∃ q k d, .fork q (id p) k d ∈ log ∧
    (t p).kstack = some k ∧ (t p).pgdir = some d ∧
    ∀ r, (t p).parent = some r → id r = q ∨ r = initproc ∧ .exit q ∈ log
  exited : ∀ p, (t p).state = .zombie → .exit (id p) ∈ log
  once : ∀ c, waits log c ≤ 1
  accounted : Accounted log

namespace Roll

variable {K : Type} {t t' : Table K} {id : Slot → ℕ} {serial : ℕ} {log : List Event}
  {p q np : Slot} {x : Proc K}

/-- The occupants stay, except that embryos may leave; the children of exited processes may
go to the first process. -/
theorem frame (h : Roll t id serial log)
    (hu : ∀ p, (t' p).state ≠ .unused → (t p).state ≠ .unused)
    (he : ∀ p, (t' p).state = .embryo → (t p).state = .embryo)
    (hp : ∀ p, (t' p).state.IsProc → (t p).state.IsProc ∧ (t' p).kstack = (t p).kstack ∧
      (t' p).pgdir = (t p).pgdir ∧ ∀ r, (t' p).parent = some r → (t p).parent = some r ∨
        r = initproc ∧ ∃ q, (t p).parent = some q ∧ q ≠ initproc ∧ .exit (id q) ∈ log)
    (hz : ∀ p, (t' p).state = .zombie → .exit (id p) ∈ log) : Roll t' id serial log :=
  { h with
    id_inj := fun p q hp hq => h.id_inj p q (hu p hp) (hu q hq)
    unforked := fun p hp => h.unforked p (he p hp)
    unreaped := fun p hp => h.unreaped p (hu p hp)
    exited := hz
    forked := by
      intro p hp' hi
      obtain ⟨hproc, hk, hd, hpar⟩ := hp p hp'
      obtain ⟨q, k, d, hfork, hk', hd', hq⟩ := h.forked p hproc hi
      refine ⟨q, k, d, hfork, hk.trans hk', hd.trans hd', fun r hr => ?_⟩
      rcases hpar r hr with hr | ⟨rfl, q', hq', hne, hexit⟩
      · exact hq r hr
      · rcases hq q' hq' with rfl | ⟨rfl, -⟩
        · exact .inr ⟨rfl, hexit⟩
        · exact absurd rfl hne }

/-- A live process stays alive, with its parent and pages. -/
theorem live (h : Roll t id serial log) (hp : (t p).state.Live) (hx : x.state.Live)
    (hpar : x.parent = (t p).parent) (hk : x.kstack = (t p).kstack) (hd : x.pgdir = (t p).pgdir) :
    Roll (Function.update t p x) id serial log := by
  refine h.frame ?_ ?_ ?_ ?_
  · exact (Function.forall_update_iff t fun q y => y.state ≠ .unused → (t q).state ≠ .unused).mpr
      ⟨fun _ => hp.isProc.1, fun _ _ hq => hq⟩
  · exact (Function.forall_update_iff t fun q y => y.state = .embryo → (t q).state = .embryo).mpr
      ⟨fun he => absurd he hx.isProc.2, fun _ _ hq => hq⟩
  · intro q hq
    by_cases hqp : q = p
    · subst hqp
      rw [Function.update_self]
      exact ⟨hp.isProc, hk, hd, fun r hr => .inl (hpar ▸ hr)⟩
    · rw [Function.update_of_ne hqp] at hq ⊢
      exact ⟨hq, rfl, rfl, fun r hr => .inl hr⟩
  · exact (Function.forall_update_iff t fun q y => y.state = .zombie → .exit (id q) ∈ log).mpr
      ⟨fun hz => absurd hz hx.ne_zombie, fun q _ => h.exited q⟩

/-- Some sleeping processes become runnable. -/
theorem wakes (h : Roll t id serial log) (hpar : ∀ q, (t' q).parent = (t q).parent)
    (hk : ∀ q, (t' q).kstack = (t q).kstack) (hd : ∀ q, (t' q).pgdir = (t q).pgdir)
    (hst : ∀ q, (t q).state.Wakes (t' q).state) : Roll t' id serial log := by
  refine h.frame (fun q hq => ?_) (fun q hq => ?_)
    (fun q hq => ⟨(hst q).isProc.mp hq, hk q, hd q, fun r hr => .inl (hpar q ▸ hr)⟩) fun q hq => ?_
  · rcases hst q with hs | ⟨hs, -⟩
    · rwa [hs] at hq
    · simp [hs]
  · rcases hst q with hs | ⟨-, hs⟩
    · rwa [hs] at hq
    · simp [hs] at hq
  · rcases hst q with hs | ⟨-, hs⟩
    · exact h.exited q (hs ▸ hq)
    · simp [hs] at hq

/-- An embryo is written, and is still not a process. -/
theorem claimed (h : Roll t id serial log) (hnp : (t np).state = .embryo) (hx : ¬ x.state.IsProc) :
    Roll (Function.update t np x) id serial log := by
  have hz : x.state ≠ .zombie := by
    intro hz
    exact hx (by simp [hz, ProcState.IsProc])
  refine h.frame ?_ ?_ ?_ ?_
  · exact (Function.forall_update_iff t fun q y => y.state ≠ .unused → (t q).state ≠ .unused).mpr
      ⟨fun _ => by simp [hnp], fun _ _ hq => hq⟩
  · exact (Function.forall_update_iff t fun q y => y.state = .embryo → (t q).state = .embryo).mpr
      ⟨fun _ => hnp, fun _ _ hq => hq⟩
  · intro q hq
    have hqnp : q ≠ np := by
      rintro rfl
      rw [Function.update_self] at hq
      exact hx hq
    rw [Function.update_of_ne hqnp] at hq ⊢
    exact ⟨hq, rfl, rfl, fun r hr => .inl hr⟩
  · exact (Function.forall_update_iff t fun q y => y.state = .zombie → .exit (id q) ∈ log).mpr
      ⟨fun hx => absurd hx hz, fun q _ => h.exited q⟩

/-- An event that is neither a fork nor a wait. -/
theorem append {e : Event} (h : Roll t id serial log) (hf : ∀ q c k d, e ≠ .fork q c k d)
    (hw : ∀ q c, e ≠ .wait q c) : Roll t id serial (log ++ [e]) := by
  have hfork : ∀ q c k d, .fork q c k d ∈ log ++ [e] ↔ .fork q c k d ∈ log := by
    intro q c k d
    simp [Ne.symm (hf q c k d)]
  have hwaits : ∀ c, waits (log ++ [e]) c = waits log c := by
    intro c
    refine waits_append_of_not_reaps ?_
    cases e <;> simp_all [Event.Reaps]
  have hexit : ∀ c, .exit c ∈ log → .exit c ∈ log ++ [e] := fun c => List.mem_append_left _
  refine
    { h with
      fork_lt := fun q c k d hm => h.fork_lt q c k d ((hfork _ _ _ _).mp hm)
      fork_unique := fun q c k d q' k' d' hm hm' =>
        h.fork_unique q c k d q' k' d' ((hfork _ _ _ _).mp hm) ((hfork _ _ _ _).mp hm')
      waits_new := fun c hc => (hwaits c).trans (h.waits_new c hc)
      unforked := fun p hp q k d hm => h.unforked p hp q k d ((hfork _ _ _ _).mp hm)
      unreaped := fun p hp => (hwaits _).trans (h.unreaped p hp)
      exited := fun p hp => hexit _ (h.exited p hp)
      once := fun c => (hwaits c).trans_le (h.once c)
      accounted := h.accounted.append fun q c he => absurd he (hw q c)
      forked := fun p hp hi => ?_ }
  obtain ⟨q, k, d, hm, hk, hd, hq⟩ := h.forked p hp hi
  exact ⟨q, k, d, (hfork _ _ _ _).mpr hm, hk, hd, fun r hr => (hq r hr).imp_right
    fun hr => ⟨hr.1, hexit _ hr.2⟩⟩

/-- Process `p` becomes a zombie, and the first process gets its children. -/
theorem exit [DecidableEq K] (h : Roll t id serial log) (hp : (t p).state.Live)
    (hi : p ≠ initproc) : Roll (exitProc p t) id serial (log ++ [.exit (id p)]) := by
  have hnow : .exit (id p) ∈ log ++ [.exit (id p)] := by simp
  have hst : ∀ q, q = p ∧ (exitProc p t q).state = .zombie ∨
      (t q).state.Wakes (exitProc p t q).state := by
    intro q
    by_cases hq : q = p
    · exact .inl ⟨hq, by simp [exitProc_apply, hq]⟩
    · exact .inr (exitProc_wakes t hq)
  refine (h.append (by simp) (by simp)).frame (fun q hq => ?_) (fun q hq => ?_) (fun q hq => ?_)
    fun q hq => ?_
  · rcases hst q with ⟨rfl, -⟩ | hs | ⟨hs, -⟩
    · exact hp.isProc.1
    · rwa [hs] at hq
    · simp [hs]
  · rcases hst q with ⟨-, hs⟩ | hs | ⟨-, hs⟩
    · simp [hs] at hq
    · rwa [hs] at hq
    · simp [hs] at hq
  · have hproc : (t q).state.IsProc := by
      rcases hst q with ⟨rfl, -⟩ | hs
      · exact hp.isProc
      · exact hs.isProc.mp hq
    refine ⟨hproc, by simp [exitProc_apply], by simp [exitProc_apply], fun r hr => ?_⟩
    simp only [exitProc_apply] at hr
    split_ifs at hr with hqp
    · exact .inr ⟨by simpa using hr.symm, p, hqp, hi, hnow⟩
    · exact .inl hr
  · rcases hst q with ⟨rfl, -⟩ | hs | ⟨-, hs⟩
    · exact hnow
    · exact List.mem_append_left _ (h.exited q (hs ▸ hq))
    · simp [hs] at hq

/-- `allocproc` gives the next serial number to a free slot. -/
theorem alloc (h : Roll t id serial log) (hi : np ≠ initproc) (hx : x.state = .embryo)
    (hpar : ∀ p, (t p).state.IsProc → (t p).parent ≠ some np) :
    Roll (Function.update t np x) (Function.update id np serial) (serial + 1) log where
  id_lt := (Function.forall_update_iff id fun _ c => c < serial + 1).mpr
    ⟨serial.lt_succ_self, fun p _ => (h.id_lt p).trans serial.lt_succ_self⟩
  id_inj p q hp hq hid := by
    -- the new number is greater than every number given so far
    by_cases hpn : p = np <;> by_cases hqn : q = np
    · rw [hpn, hqn]
    · subst hpn
      rw [Function.update_self, Function.update_of_ne hqn] at hid
      exact absurd hid (h.id_lt q).ne'
    · subst hqn
      rw [Function.update_self, Function.update_of_ne hpn] at hid
      exact absurd hid (h.id_lt p).ne
    · simp only [Function.update_of_ne hpn, Function.update_of_ne hqn] at hp hq hid
      exact h.id_inj p q hp hq hid
  id_init := by
    rw [Function.update_of_ne (Ne.symm hi)]
    exact h.id_init
  fork_lt q c k d hm := (h.fork_lt q c k d hm).trans serial.lt_succ_self
  fork_unique := h.fork_unique
  waits_new c hc := h.waits_new c (by omega)
  unforked p hp q k d hm := by
    by_cases hpn : p = np
    · subst hpn
      rw [Function.update_self] at hm
      exact (h.fork_lt _ _ _ _ hm).false
    · rw [Function.update_of_ne hpn] at hp hm
      exact h.unforked p hp q k d hm
  unreaped p hp := by
    by_cases hpn : p = np
    · subst hpn
      rw [Function.update_self]
      exact h.waits_new serial le_rfl
    · rw [Function.update_of_ne hpn] at hp ⊢
      exact h.unreaped p hp
  forked p hp hpi := by
    have hpn : p ≠ np := by
      rintro rfl
      rw [Function.update_self] at hp
      exact hp.2 hx
    simp only [Function.update_of_ne hpn] at hp ⊢
    obtain ⟨q, k, d, hm, hk, hd, hq⟩ := h.forked p hp hpi
    refine ⟨q, k, d, hm, hk, hd, fun r hr => ?_⟩
    have hrn : r ≠ np := by
      rintro rfl
      exact hpar p hp hr
    rw [Function.update_of_ne hrn]
    exact hq r hr
  exited p hp := by
    have hpn : p ≠ np := by
      rintro rfl
      simp [hx] at hp
    rw [Function.update_of_ne hpn] at hp ⊢
    exact h.exited p hp
  once := h.once
  accounted := h.accounted

theorem fork {k d : ℕ} (h : Roll t id serial log) (hnp : (t np).state = .embryo)
    (hpar : (t np).parent = some p) (hk : (t np).kstack = some k) (hd : (t np).pgdir = some d) :
    Roll (Function.update t np { t np with state := .runnable }) id serial
      (log ++ [.fork (id p) (id np) k d]) := by
  -- the log gets one event, which reaps nobody
  have hmem : ∀ q c k' d', .fork q c k' d' ∈ log ++ [.fork (id p) (id np) k d] ↔
      .fork q c k' d' ∈ log ∨ q = id p ∧ c = id np ∧ k' = k ∧ d' = d := by simp
  have hwaits : ∀ c, waits (log ++ [.fork (id p) (id np) k d]) c = waits log c :=
    fun c => waits_append_of_not_reaps rfl
  have hused : ∀ q, (Function.update t np { t np with state := .runnable } q).state ≠ .unused →
      (t q).state ≠ .unused :=
    (Function.forall_update_iff t fun q y => y.state ≠ .unused → (t q).state ≠ .unused).mpr
      ⟨by simp [hnp], fun _ _ hr => hr⟩
  refine ⟨h.id_lt, fun q r hq hr => h.id_inj q r (hused q hq) (hused r hr), h.id_init, ?_, ?_,
    fun c hc => (hwaits c).trans (h.waits_new c hc), ?_,
    fun q hq => (hwaits _).trans (h.unreaped q (hused q hq)), ?_, ?_,
    fun c => (hwaits c).trans_le (h.once c), h.accounted.append (by simp)⟩
  · intro q c k' d' hm
    rcases (hmem q c k' d').mp hm with hm | ⟨-, rfl, -, -⟩
    · exact h.fork_lt q c k' d' hm
    · exact h.id_lt np
  · intro q c k₁ d₁ q' k₂ d₂ h₁ h₂
    have hnew := h.unforked np hnp
    rcases (hmem _ _ _ _).mp h₁ with hold₁ | ⟨-, hc₁, hk₁, hd₁⟩ <;>
      rcases (hmem _ _ _ _).mp h₂ with hold₂ | ⟨-, hc₂, hk₂, hd₂⟩
    · exact h.fork_unique _ _ _ _ _ _ _ hold₁ hold₂
    · exact absurd (hc₂ ▸ hold₁) (hnew _ _ _)
    · exact absurd (hc₁ ▸ hold₂) (hnew _ _ _)
    · exact ⟨hk₁.trans hk₂.symm, hd₁.trans hd₂.symm⟩
  · intro q hq q' k' d' hm
    have hqn : q ≠ np := by
      rintro rfl
      simp at hq
    rw [Function.update_of_ne hqn] at hq
    rcases (hmem _ _ _ _).mp hm with hm | ⟨-, hid, -, -⟩
    · exact h.unforked q hq q' k' d' hm
    · exact hqn (h.id_inj q np (by simp [hq]) (by simp [hnp]) hid)
  · intro q hq hi
    by_cases hqn : q = np
    · subst hqn
      rw [Function.update_self]
      refine ⟨id p, k, d, by simp, hk, hd, fun r hr => .inl ?_⟩
      obtain rfl : p = r := by simpa [hpar] using hr
      rfl
    · rw [Function.update_of_ne hqn] at hq ⊢
      obtain ⟨q', k', d', hm, hk', hd', hq'⟩ := h.forked q hq hi
      exact ⟨q', k', d', (hmem _ _ _ _).mpr (.inl hm), hk', hd', fun r hr => (hq' r hr).imp_right
        fun hr => ⟨hr.1, List.mem_append_left _ hr.2⟩⟩
  · intro q hq
    have hqn : q ≠ np := by
      rintro rfl
      simp at hq
    rw [Function.update_of_ne hqn] at hq
    exact List.mem_append_left _ (h.exited q hq)

theorem wait (h : Roll t id serial log) (hq : (t q).state = .zombie)
    (hpar : (t q).parent = some p) (hi : q ≠ initproc) :
    Roll (Function.update t q (reap (t q))) id serial (log ++ [.wait (id p) (id q)]) := by
  have hwaits : ∀ c, waits (log ++ [.wait (id p) (id q)]) c =
      waits log c + if id q = c then 1 else 0 := by
    intro c
    rw [waits_append]
    simp [Event.Reaps]
  -- the slot of `q` is free afterwards; the other slots are as before
  have hused : ∀ r, (Function.update t q (reap (t q)) r).state ≠ .unused →
      r ≠ q ∧ (t r).state ≠ .unused :=
    (Function.forall_update_iff t fun r y => y.state ≠ .unused → r ≠ q ∧ (t r).state ≠ .unused).mpr
      ⟨fun hr => absurd rfl hr, fun r hrq hr => ⟨hrq, hr⟩⟩
  have hmem : ∀ q' c k d, .fork q' c k d ∈ log ++ [.wait (id p) (id q)] → .fork q' c k d ∈ log := by
    simp
  refine ⟨h.id_lt, fun r r' hr hr' => h.id_inj r r' (hused r hr).2 (hused r' hr').2, h.id_init,
    fun _ _ _ _ hm => h.fork_lt _ _ _ _ (hmem _ _ _ _ hm),
    fun _ _ _ _ _ _ _ hm hm' => h.fork_unique _ _ _ _ _ _ _ (hmem _ _ _ _ hm) (hmem _ _ _ _ hm'),
    ?_, ?_, ?_, ?_, ?_, ?_, ?_⟩
  · intro c hc
    have hne : id q ≠ c := ((h.id_lt q).trans_le hc).ne
    rw [hwaits, if_neg hne, h.waits_new c hc]
  · intro r hr q' k d hm
    obtain ⟨hrq, -⟩ := hused r (by simp [hr])
    rw [Function.update_of_ne hrq] at hr
    exact h.unforked r hr q' k d (hmem _ _ _ _ hm)
  · intro r hr
    obtain ⟨hrq, hr⟩ := hused r hr
    have hne : id q ≠ id r := fun hid => hrq (h.id_inj r q hr (by simp [hq]) hid.symm)
    rw [hwaits, if_neg hne, h.unreaped r hr]
  · intro r hr hri
    obtain ⟨hrq, -⟩ := hused r hr.1
    rw [Function.update_of_ne hrq] at hr ⊢
    obtain ⟨q', k, d, hm, hk, hd, hq'⟩ := h.forked r hr hri
    exact ⟨q', k, d, List.mem_append_left _ hm, hk, hd, fun r' hr' => (hq' r' hr').imp_right
      fun hr' => ⟨hr'.1, List.mem_append_left _ hr'.2⟩⟩
  · intro r hr
    obtain ⟨hrq, -⟩ := hused r (by simp [hr])
    rw [Function.update_of_ne hrq] at hr
    exact List.mem_append_left _ (h.exited r hr)
  · intro c
    rw [hwaits]
    split_ifs with hc
    · rw [← hc, h.unreaped q (by simp [hq])]
    · exact h.once c
  · refine h.accounted.append fun par c he => ?_
    obtain ⟨rfl, rfl⟩ : id p = par ∧ id q = c := by simpa using he
    obtain ⟨q', k, d, hm, -, -, hq'⟩ := h.forked q (by simp [hq, ProcState.IsProc]) hi
    refine ⟨h.exited q hq, q', k, d, hm, ?_⟩
    rcases hq' p hpar with hid | ⟨rfl, hexit⟩
    · exact .inl hid
    · exact .inr ⟨h.id_init, hexit⟩

end Roll

/-! ### The pages of a process -/

/-- Every page of a child ever forked has been freed as often as the child was returned by a
`wait`, and the pages of a fork in progress have not been freed. The function `own` tells for
each page whose it is and whether it is a page directory. -/
structure PagesInv {K : Type} (own : ℕ → ℕ × Bool) (t : Table K) (op : Slot → Op) (id : Slot → ℕ)
    (log : List Event) (pages : ℕ) (frees : ℕ → ℕ) : Prop where
  forked : ∀ q c k d, .fork q c k d ∈ log → (own k = (c, false) ∧ k < pages ∧
    frees k = waits log c) ∧ own d = (c, true) ∧ d < pages ∧ frees d = waits log c
  stack : ∀ p np k, (op p).hasStack = some np → (t np).kstack = some k →
    own k = (id np, false) ∧ k < pages ∧ frees k = 0
  dir : ∀ p np d, (op p).hasDir = some np → (t np).pgdir = some d →
    own d = (id np, true) ∧ d < pages ∧ frees d = 0
  new : ∀ k, pages ≤ k → frees k = 0

namespace PagesInv

variable {K : Type} {own : ℕ → ℕ × Bool} {t t' : Table K} {op op' : Slot → Op} {id id' : Slot → ℕ}
  {log log' : List Event} {pages : ℕ} {frees : ℕ → ℕ} {p q np : Slot} {x : Proc K} {o : Op}

/-- The forks in progress keep their pages, and the log has the same forks and waits. -/
theorem frame (h : PagesInv own t op id log pages frees)
    (hstack : ∀ p np, (op' p).hasStack = some np → (op p).hasStack = some np ∧
      (t' np).kstack = (t np).kstack ∧ id' np = id np)
    (hdir : ∀ p np, (op' p).hasDir = some np → (op p).hasDir = some np ∧
      (t' np).pgdir = (t np).pgdir ∧ id' np = id np)
    (hfork : ∀ q c k d, .fork q c k d ∈ log' → .fork q c k d ∈ log)
    (hwaits : ∀ c, waits log' c = waits log c) : PagesInv own t' op' id' log' pages frees where
  forked q c k d hm := by
    rw [hwaits]
    exact h.forked q c k d (hfork q c k d hm)
  stack p np k hp hk := by
    obtain ⟨hp, hk', hid⟩ := hstack p np hp
    rw [hid]
    exact h.stack p np k hp (hk' ▸ hk)
  dir p np d hp hd := by
    obtain ⟨hp, hd', hid⟩ := hdir p np hp
    rw [hid]
    exact h.dir p np d hp (hd' ▸ hd)
  new := h.new

/-- A page is allocated for a kernel stack or a page directory. -/
theorem grow (h : PagesInv own t op id log pages frees) (v : ℕ × Bool) :
    PagesInv (Function.update own pages v) t op id log (pages + 1) frees := by
  have hold : ∀ {k : ℕ} {v' : ℕ × Bool}, own k = v' → k < pages →
      Function.update own pages v k = v' := by
    intro k v' hk hlt
    rwa [Function.update_of_ne hlt.ne]
  refine ⟨fun q c k d hm => ?_, fun p np k hp hk => ?_, fun p np d hp hd => ?_,
    fun k hk => h.new k (by omega)⟩
  · obtain ⟨⟨hk, hklt, hkf⟩, hd, hdlt, hdf⟩ := h.forked q c k d hm
    exact ⟨⟨hold hk hklt, hklt.trans pages.lt_succ_self, hkf⟩,
      hold hd hdlt, hdlt.trans pages.lt_succ_self, hdf⟩
  · obtain ⟨ho, hlt, hf⟩ := h.stack p np k hp hk
    exact ⟨hold ho hlt, hlt.trans pages.lt_succ_self, hf⟩
  · obtain ⟨ho, hlt, hf⟩ := h.dir p np d hp hd
    exact ⟨hold ho hlt, hlt.trans pages.lt_succ_self, hf⟩

/-- Process `p` goes on in `fork` and writes the slot that only it can have claimed. -/
theorem write (h : PagesInv own t op id log pages frees)
    (hown : ∀ q, (op q).claim = some np → q = p) (hclaim : ∀ r, o.claim = some r → r = np)
    (hstack : o.hasStack = some np → ∀ k, x.kstack = some k →
      own k = (id np, false) ∧ k < pages ∧ frees k = 0)
    (hdir : o.hasDir = some np → ∀ d, x.pgdir = some d →
      own d = (id np, true) ∧ d < pages ∧ frees d = 0) :
    PagesInv own (Function.update t np x) (Function.update op p o) id log pages frees := by
  have hne : ∀ q r, q ≠ p → (op q).claim = some r → r ≠ np := by
    rintro q r hq hr rfl
    exact hq (hown q hr)
  refine ⟨h.forked, fun q r k hr hk => ?_, fun q r d hr hd => ?_, h.new⟩
  · by_cases hq : q = p
    · subst hq
      rw [Function.update_self] at hr
      obtain rfl := hclaim r (Op.claim_of_hasStack hr)
      rw [Function.update_self] at hk
      exact hstack hr k hk
    · rw [Function.update_of_ne hq] at hr
      rw [Function.update_of_ne (hne q r hq (Op.claim_of_hasStack hr))] at hk
      exact h.stack q r k hr hk
  · by_cases hq : q = p
    · subst hq
      rw [Function.update_self] at hr
      obtain rfl := hclaim r (Op.claim_of_hasStack (Op.hasStack_of_hasDir hr))
      rw [Function.update_self] at hd
      exact hdir hr d hd
    · rw [Function.update_of_ne hq] at hr
      rw [Function.update_of_ne
        (hne q r hq (Op.claim_of_hasStack (Op.hasStack_of_hasDir hr)))] at hd
      exact h.dir q r d hr hd

/-- The fork of child `id np` is logged, with the pages it has. -/
theorem fork {k d : ℕ} (h : PagesInv own t op id log pages frees)
    (hk : own k = (id np, false) ∧ k < pages ∧ frees k = 0)
    (hd : own d = (id np, true) ∧ d < pages ∧ frees d = 0) (hw : waits log (id np) = 0) :
    PagesInv own t op id (log ++ [.fork (id p) (id np) k d]) pages frees := by
  have hwaits : ∀ c, waits (log ++ [.fork (id p) (id np) k d]) c = waits log c :=
    fun c => waits_append_of_not_reaps rfl
  refine { h with forked := fun q c k' d' hm => ?_ }
  rw [hwaits]
  rcases List.mem_append.mp hm with hm | hm
  · exact h.forked q c k' d' hm
  · obtain ⟨-, rfl, rfl, rfl⟩ : q = id p ∧ c = id np ∧ k' = k ∧ d' = d := by simpa using hm
    rw [hw]
    exact ⟨hk, hd⟩

/-- A page that is not among those of a fork, done or in progress, is freed. -/
theorem free {k : ℕ} (h : PagesInv own t op id log pages frees) (hlt : k < pages)
    (hfork : ∀ q c k' d, .fork q c k' d ∈ log → (own k).1 ≠ c)
    (hstack : ∀ p np, (op p).hasStack = some np → (own k).1 ≠ id np) :
    PagesInv own t op id log pages fun j => if some k = some j then frees j + 1 else frees j := by
  have hsame : ∀ j, (own j).1 ≠ (own k).1 →
      (if some k = some j then frees j + 1 else frees j) = frees j := by
    intro j hj
    refine if_neg fun hkj => hj ?_
    rw [Option.some.inj hkj]
  refine ⟨fun q c k' d hm => ?_, fun p np k' hp hk => ?_, fun p np d hp hd => ?_, fun j hj => ?_⟩
  · obtain ⟨⟨hk, hklt, hkf⟩, hd, hdlt, hdf⟩ := h.forked q c k' d hm
    have hne := (hfork q c k' d hm).symm
    refine ⟨⟨hk, hklt, ?_⟩, hd, hdlt, ?_⟩
    · rw [hsame k' (by rw [hk]; exact hne), hkf]
    · rw [hsame d (by rw [hd]; exact hne), hdf]
  · obtain ⟨ho, hlt', hf⟩ := h.stack p np k' hp hk
    refine ⟨ho, hlt', ?_⟩
    rw [hsame k' (by rw [ho]; exact (hstack p np hp).symm), hf]
  · obtain ⟨ho, hlt', hf⟩ := h.dir p np d hp hd
    refine ⟨ho, hlt', ?_⟩
    rw [hsame d (by rw [ho]; exact (hstack p np (Op.hasStack_of_hasDir hp)).symm), hf]
  · rw [if_neg (by simp; omega), h.new j hj]

theorem wait {q' c k d : ℕ} (h : PagesInv own t op id log pages frees) (r : ℕ)
    (hm : .fork q' c k d ∈ log)
    (hunique : ∀ q₁ k₁ d₁, .fork q₁ c k₁ d₁ ∈ log → k₁ = k ∧ d₁ = d)
    (hstack : ∀ p np, (op p).hasStack = some np → c ≠ id np) :
    PagesInv own t op id (log ++ [.wait r c]) pages fun j =>
      if some d = some j then (if some k = some j then frees j + 1 else frees j) + 1
      else if some k = some j then frees j + 1 else frees j := by
  have hwaits : ∀ c', waits (log ++ [.wait r c]) c' = waits log c' + if c = c' then 1 else 0 := by
    intro c'
    rw [waits_append]
    simp [Event.Reaps]
  obtain ⟨⟨hk, hklt, -⟩, hd, hdlt, -⟩ := h.forked q' c k d hm
  have hkd : k ≠ d := by
    rintro rfl
    simp [hk] at hd
  -- pages of other children are not touched
  have hsame : ∀ j, (own j).1 ≠ c →
      (if some d = some j then (if some k = some j then frees j + 1 else frees j) + 1
        else if some k = some j then frees j + 1 else frees j) = frees j := by
    intro j hj
    have hdj : d ≠ j := by
      rintro rfl
      simp [hd] at hj
    have hkj : k ≠ j := by
      rintro rfl
      simp [hk] at hj
    simp [hdj, hkj]
  refine ⟨fun q₁ c₁ k₁ d₁ hm₁ => ?_, fun p np k' hp hk' => ?_, fun p np d' hp hd' => ?_,
    fun j hj => ?_⟩
  · have hold : .fork q₁ c₁ k₁ d₁ ∈ log := by simpa using hm₁
    obtain ⟨⟨hk₁, hklt₁, hkf⟩, hd₁, hdlt₁, hdf⟩ := h.forked q₁ c₁ k₁ d₁ hold
    refine ⟨⟨hk₁, hklt₁, ?_⟩, hd₁, hdlt₁, ?_⟩
    all_goals
      rw [hwaits]
      by_cases hc : c = c₁
      · subst hc
        obtain ⟨rfl, rfl⟩ := hunique q₁ k₁ d₁ hold
        simp [hkf, hdf, hkd, hkd.symm]
      · rw [if_neg hc, hsame]
        · assumption
        · simp [hk₁, hd₁, Ne.symm hc]
  · obtain ⟨ho, hlt, hf⟩ := h.stack p np k' hp hk'
    exact ⟨ho, hlt, by rw [hsame k' (by rw [ho]; exact (hstack p np hp).symm), hf]⟩
  · obtain ⟨ho, hlt, hf⟩ := h.dir p np d' hp hd'
    refine ⟨ho, hlt, ?_⟩
    rw [hsame d' (by rw [ho]; exact (hstack p np (Op.hasStack_of_hasDir hp)).symm), hf]
  · have hdj : d ≠ j := (hdlt.trans_le hj).ne
    have hkj : k ≠ j := (hklt.trans_le hj).ne
    simp [hdj, hkj, h.new j hj]

end PagesInv

/-! ### Every step keeps the history -/

/-- The log against the table, and the freed pages against the log. -/
structure History {C K : Type} (own : ℕ → ℕ × Bool) (s : Sys C K) : Prop where
  roll : Roll s.proc s.id s.serial s.log
  pages : PagesInv own s.proc s.op s.id s.log s.pages s.frees

namespace History

variable {C K : Type} {own : ℕ → ℕ × Bool} {s s' : Sys C K} {c : C} {p q np : Slot} {x : Proc K}

/-- A live process stays alive, with its parent and pages. -/
theorem live (h : History own s) (hp : (s.proc p).state.Live) (hx : x.state.Live)
    (hpar : x.parent = (s.proc p).parent) (hk : x.kstack = (s.proc p).kstack)
    (hd : x.pgdir = (s.proc p).pgdir) : History own (s.setProc p x) := by
  refine ⟨h.roll.live hp hx hpar hk hd, h.pages.frame ?_ ?_ (fun _ _ _ _ hm => hm) fun _ => rfl⟩
  · refine fun q np hq => ⟨hq, ?_, rfl⟩
    exact (Function.forall_update_iff s.proc fun q y => y.kstack = (s.proc q).kstack).mpr
      ⟨hk, fun _ _ => rfl⟩ np
  · refine fun q np hq => ⟨hq, ?_, rfl⟩
    exact (Function.forall_update_iff s.proc fun q y => y.pgdir = (s.proc q).pgdir).mpr
      ⟨hd, fun _ _ => rfl⟩ np

/-- The table changes as `Roll` allows, with all pages kept, and the log gets an event that is
neither a fork nor a wait. -/
theorem quiet {tab : Table K} {log : List Event} (h : History own s)
    (hroll : Roll tab s.id s.serial log) (hk : ∀ q, (tab q).kstack = (s.proc q).kstack)
    (hd : ∀ q, (tab q).pgdir = (s.proc q).pgdir)
    (hfork : ∀ q c k d, .fork q c k d ∈ log → .fork q c k d ∈ s.log)
    (hwaits : ∀ c, waits log c = waits s.log c) :
    History own { s with proc := tab, log := log } :=
  ⟨hroll, h.pages.frame (fun _ np hq => ⟨hq, hk np, rfl⟩) (fun _ np hq => ⟨hq, hd np, rfl⟩) hfork
    hwaits⟩

theorem alloc (h : History own s) (hinv : Inv s) (hfam : FamilyInv s.proc s.op)
    (hu : (s.proc np).state = .unused) (hx : x.state = .embryo)
    (hk : x.kstack = (s.proc np).kstack) (hd : x.pgdir = (s.proc np).pgdir) :
    Roll (Function.update s.proc np x) (Function.update s.id np s.serial) (s.serial + 1)
        (s.log ++ [.alloc s.serial]) ∧
      PagesInv own (Function.update s.proc np x) (Function.update s.op p (.stack np))
        (Function.update s.id np s.serial) (s.log ++ [.alloc s.serial]) s.pages s.frees := by
  have hlive : ¬ (s.proc np).state.Live := by simp [hu, ProcState.Live]
  have hi : np ≠ initproc := by
    rintro rfl
    exact hlive hfam.init
  refine ⟨(h.roll.alloc hi hx fun q hq hpar => ?_).append (by simp) (by simp),
    h.pages.frame (fun q r hr => ?_) (fun q r hr => ?_) (by simp)
      fun c => waits_append_of_not_reaps rfl⟩
  · by_cases hqi : q = initproc
    · simp [hqi, hfam.root] at hpar
    · obtain ⟨r, hr, hl⟩ := hfam.parent q hq hqi
      obtain rfl : np = r := by simpa [hr] using hpar.symm
      exact hlive hl
  all_goals
    have hq : q ≠ p := by
      rintro rfl
      rw [Function.update_self] at hr
      cases hr
    rw [Function.update_of_ne hq] at hr
  · have hrnp : r ≠ np := by
      rintro rfl
      simp [hinv.fork.embryo q r (Op.claim_of_hasStack hr)] at hu
    simp [hr, hrnp]
  · have hrnp : r ≠ np := by
      rintro rfl
      simp [hinv.fork.embryo q r (Op.claim_of_hasStack (Op.hasStack_of_hasDir hr))] at hu
    simp [hr, hrnp]

/-- `fork` gives back the kernel stack of a child that it cannot finish. -/
theorem noCopy (h : History own s) (hinv : Inv s) (ho : s.op p = .noCopy np) :
    History own (((s.kfree (s.proc np).kstack).setProc np { s.proc np with kstack := none }).setOp p
      (.undo np)) := by
  have hstack : (s.op p).hasStack = some np := by rw [ho, Op.hasStack]
  have hc := Op.claim_of_hasStack hstack
  have hemb := hinv.fork.embryo p np hc
  obtain ⟨k, hk⟩ := Option.ne_none_iff_exists'.mp (hinv.fork.stack p np hstack)
  obtain ⟨hown, hlt, -⟩ := h.pages.stack p np k hstack hk
  have hpages := h.pages.write (o := .undo np) (x := { s.proc np with kstack := none })
    (fun q hq => hinv.fork.unique q p np hq hc) (by simp [Op.claim]) (by simp [Op.hasStack])
    (by simp [Op.hasDir])
  rw [hk]
  refine ⟨h.roll.claimed hemb fun hp => hp.2 hemb, hpages.free hlt (fun q c k' d hm hc => ?_)
    fun q r hr hid => ?_⟩
  · rw [hown] at hc
    subst hc
    exact h.roll.unforked np hemb q k' d hm
  · rw [hown] at hid
    have hq : q ≠ p := by
      rintro rfl
      simp [Op.hasStack] at hr
    rw [Function.update_of_ne hq] at hr
    have hr' := Op.claim_of_hasStack hr
    -- two embryos with one serial number are the same slot
    obtain rfl := h.roll.id_inj np r (by simp [hemb]) (by simp [hinv.fork.embryo q r hr']) hid
    exact hq (hinv.fork.unique q p np hr' hc)

/-- `fork` lets go of its child. -/
theorem ready (h : History own s) (hinv : Inv s) (hfam : FamilyInv s.proc s.op)
    (ho : s.op p = .ready np) :
    History own (((s.setProc np { s.proc np with state := .runnable }).setOp p .none).record
      (.fork (s.id p) (s.id np) ((s.proc np).kstack.getD 0) ((s.proc np).pgdir.getD 0))) := by
  have hdir : (s.op p).hasDir = some np := by rw [ho, Op.hasDir]
  have hstack := Op.hasStack_of_hasDir hdir
  have hc := Op.claim_of_hasStack hstack
  have hemb := hinv.fork.embryo p np hc
  obtain ⟨k, hk⟩ := Option.ne_none_iff_exists'.mp (hinv.fork.stack p np hstack)
  obtain ⟨d, hd⟩ := Option.ne_none_iff_exists'.mp (hinv.fork.dir p np hdir)
  have hpages := (h.pages.fork (p := p) (h.pages.stack p np k hstack hk)
    (h.pages.dir p np d hdir hd)
    (h.roll.unreaped np (by simp [hemb]))).write (o := .none)
      (x := { s.proc np with state := .runnable }) (fun q hq => hinv.fork.unique q p np hq hc)
      (by simp [Op.claim]) (by simp [Op.hasStack]) (by simp [Op.hasDir])
  have hk' : (s.proc np).kstack.getD 0 = k := by rw [hk, Option.getD_some]
  have hd' : (s.proc np).pgdir.getD 0 = d := by rw [hd, Option.getD_some]
  rw [hk', hd']
  exact ⟨h.roll.fork hemb (hfam.ready p np ho) hk hd, hpages⟩

/-- `wait` returns a zombie to its parent `p`. -/
theorem reap (h : History own s) (hinv : Inv s) (hfam : FamilyInv s.proc s.op)
    (hq : (s.proc q).state = .zombie) (hpar : (s.proc q).parent = some p) :
    History own ((((s.kfree (s.proc q).kstack).kfree (s.proc q).pgdir).setProc q
      (Ptable.reap (s.proc q))).record (.wait (s.id p) (s.id q))) := by
  have hi : q ≠ initproc := by
    rintro rfl
    exact hfam.init.ne_zombie hq
  obtain ⟨q', k, d, hm, hk, hd, -⟩ := h.roll.forked q (by simp [hq, ProcState.IsProc]) hi
  -- forks in progress are of other children
  have hne : ∀ r np, (s.op r).hasStack = some np → s.id q ≠ s.id np := by
    intro r np hr hid
    have hemb := hinv.fork.embryo r np (Op.claim_of_hasStack hr)
    obtain rfl := h.roll.id_inj q np (by simp [hq]) (by simp [hemb]) hid
    simp [hq] at hemb
  have hpages := h.pages.wait (s.id p) hm (fun q₁ k₁ d₁ hm₁ =>
    h.roll.fork_unique _ _ _ _ _ _ _ hm₁ hm) hne
  rw [hk, hd]
  refine ⟨h.roll.wait hq hpar hi, hpages.frame (fun r np hr => ⟨hr, ?_, rfl⟩)
    (fun r np hr => ⟨hr, ?_, rfl⟩) (fun _ _ _ _ hm => hm) fun _ => rfl⟩
  · have hnp : np ≠ q := by
      rintro rfl
      exact hne r np hr rfl
    simp [hnp]
  · have hnp : np ≠ q := by
      rintro rfl
      exact hne r np (Op.hasStack_of_hasDir hr) rfl
    simp [hnp]

/-- Every step keeps the history in order. -/
theorem trans [DecidableEq C] [DecidableEq K] {a : Action K} (h : History own s) (hinv : Inv s)
    (hfam : FamilyInv s.proc s.op) (hst : Sys.Trans s c a s') : ∃ own', History own' s' := by
  have hrun : ∀ {m : Mode} {p : Slot}, (s.cpu c).mode = m → m.runs = some p →
    (s.proc p).state.Live :=
    fun hm hr => .inr (.inr (hinv.running hm hr))
  have hown : ∀ {p np : Slot}, (s.op p).claim = some np → ∀ q, (s.op q).claim = some np → q = p :=
    fun hp q hq => hinv.fork.unique q _ _ hq hp
  have hnot : ∀ {np : Slot}, (s.proc np).state = .embryo → ¬ (s.proc np).state.IsProc :=
    fun he hp => hp.2 he
  cases hst with
  | acquire | skip | done | clear | runOn | noSlot | wait | waitFail =>
    exact ⟨own, h.roll, h.pages⟩
  | @select p hm hst =>
    have h' := h.live (x := { s.proc p with state := .running }) (.inr (.inl hst)) (.inr (.inr rfl))
      rfl rfl rfl
    exact ⟨own, h'.roll, h'.pages⟩
  | @wake p hm | @waitOn p hm =>
    have h' := h.live (x := { s.proc p with chan := none }) (hrun hm rfl) (hrun hm rfl) rfl rfl rfl
    exact ⟨own, h'.roll, h'.pages⟩
  | @yield p hm =>
    have h' := h.live (x := { s.proc p with state := .runnable }) (hrun hm rfl) (.inr (.inl rfl))
      rfl rfl rfl
    exact ⟨own, h'.roll, h'.pages⟩
  | @sleep p k hm =>
    have h' := h.live (x := { s.proc p with chan := some (.other k), state := .sleeping })
      (hrun hm rfl) (.inl rfl) rfl rfl rfl
    exact ⟨own, h'.roll, h'.pages⟩
  | @waitSleep p hm =>
    have h' := h.live (x := { s.proc p with chan := some (.proc p), state := .sleeping })
      (hrun hm rfl) (.inl rfl) rfl rfl rfl
    exact ⟨own, h'.roll, h'.pages⟩
  | wakeup k =>
    have hk : ∀ q, (wakeup1 s.proc (some (.other k)) q).kstack = (s.proc q).kstack :=
      fun q => by rw [wakeup1_apply]
    have hd : ∀ q, (wakeup1 s.proc (some (.other k)) q).pgdir = (s.proc q).pgdir :=
      fun q => by rw [wakeup1_apply]
    have hroll := h.roll.wakes (fun q => by rw [wakeup1_apply]) hk hd (wakeup1_wakes _ _)
    exact ⟨own, h.quiet hroll hk hd (fun _ _ _ _ hm => hm) fun _ => rfl⟩
  | kill pid =>
    have hk : ∀ q, ((killProc s.proc pid).2 q).kstack = (s.proc q).kstack :=
      fun q => by rw [killProc_apply]
    have hd : ∀ q, ((killProc s.proc pid).2 q).pgdir = (s.proc q).pgdir :=
      fun q => by rw [killProc_apply]
    have hroll := h.roll.wakes (fun q => by rw [killProc_apply]) hk hd (killProc_wakes _ _)
    exact ⟨own, h.quiet (hroll.append (e := .kill pid) (by simp) (by simp)) hk hd (by simp)
      fun _ => waits_append_of_not_reaps rfl⟩
  | exit hm hl ho hi =>
    have h' := h.quiet (h.roll.exit (hrun hm rfl) hi) (fun q => by rw [exitProc_apply])
      (fun q => by rw [exitProc_apply]) (by simp) fun _ => waits_append_of_not_reaps rfl
    exact ⟨own, h'.roll, h'.pages⟩
  | @alloc p np hm hl ho hf =>
    have h' := h.alloc (p := p) (x := { s.proc np with state := .embryo, pid := s.nextpid })
      hinv hfam
      (findUnused_eq_some hf) rfl rfl rfl
    exact ⟨own, h'.1, h'.2⟩
  | @stack p np hm ho =>
    have hc : (s.op p).claim = some np := by rw [ho, Op.claim]
    have hemb := hinv.fork.embryo p np hc
    have hpages := (h.pages.grow (s.id np, false)).write (o := .copy np)
      (x := { s.proc np with kstack := some s.pages }) (hown hc) (by simp [Op.claim])
      (fun _ => by simpa using h.pages.new _ le_rfl) (by simp [Op.hasDir])
    exact ⟨_, h.roll.claimed hemb (hnot hemb), hpages⟩
  | @stackFail p np hm ho =>
    have hc : (s.op p).claim = some np := by rw [ho, Op.claim]
    have hemb := hinv.fork.embryo p np hc
    have hpages := h.pages.write (o := .noStack np) (x := { s.proc np with kstack := none })
      (hown hc) (by simp [Op.claim]) (by simp) (by simp [Op.hasDir])
    exact ⟨own, h.roll.claimed hemb (hnot hemb), hpages⟩
  | @giveUp p np ok hm ho =>
    have hc : (s.op p).claim = some np := by rcases ho with ho | ho <;> rw [ho, Op.claim]
    have hpages := h.pages.write (o := .none) (x := { s.proc np with state := .unused }) (hown hc)
      (by simp [Op.claim]) (by simp [Op.hasStack]) (by simp [Op.hasDir])
    exact ⟨own, h.roll.claimed (hinv.fork.embryo p np hc) (by simp [ProcState.IsProc]), hpages⟩
  | @copy p np hm ho =>
    have hc : (s.op p).claim = some np := by rw [ho, Op.claim]
    have hemb := hinv.fork.embryo p np hc
    have hgrow := h.pages.grow (s.id np, true)
    have hpages := hgrow.write (o := .fill np) (x := { s.proc np with pgdir := some s.pages })
      (hown hc) (by simp [Op.claim]) (fun _ k => hgrow.stack p np k (by rw [ho, Op.hasStack]))
      (fun _ => by simpa using h.pages.new _ le_rfl)
    exact ⟨_, h.roll.claimed hemb (hnot hemb), hpages⟩
  | @copyFail p np hm ho =>
    have hc : (s.op p).claim = some np := by rw [ho, Op.claim]
    have hemb := hinv.fork.embryo p np hc
    have hpages := h.pages.write (o := .noCopy np) (x := { s.proc np with pgdir := none })
      (hown hc) (by simp [Op.claim]) (fun _ k => h.pages.stack p np k (by rw [ho, Op.hasStack]))
      (by simp)
    exact ⟨own, h.roll.claimed hemb (hnot hemb), hpages⟩
  | noCopy hm ho => exact ⟨own, h.noCopy hinv ho⟩
  | @fill p np ok hm ho =>
    have hc : (s.op p).claim = some np := by rw [ho, Op.claim]
    have hemb := hinv.fork.embryo p np hc
    have hpages := h.pages.write (o := .ready np) (x := { s.proc np with parent := some p })
      (hown hc) (by simp [Op.claim]) (fun _ k => h.pages.stack p np k (by rw [ho, Op.hasStack]))
      fun _ d => h.pages.dir p np d (by rw [ho, Op.hasDir])
    exact ⟨own, h.roll.claimed hemb (hnot hemb), hpages⟩
  | ready hm ho hl => exact ⟨own, h.ready hinv hfam ho⟩
  | @reap p q hm hq =>
    have h' := h.reap hinv hfam (waitFor_eq_some hq).2 (waitFor_eq_some hq).1
    exact ⟨own, h'.roll, h'.pages⟩

theorem boot : History (fun _ => (0, false)) (Sys.boot : Sys C K) where
  roll := by
    have hinit : ∀ p, ((Sys.boot : Sys C K).proc p).state ≠ .unused → p = initproc := by
      intro p hp
      by_contra hi
      simp [Sys.boot, hi] at hp
    refine ⟨fun p => Nat.zero_lt_one, fun p q hp hq _ => (hinit p hp).trans (hinit q hq).symm, rfl,
      by simp [Sys.boot], by simp [Sys.boot], fun c _ => rfl, by simp [Sys.boot], fun p _ => rfl,
      fun p hp hi => absurd (hinit p hp.1) hi, fun p hp => ?_, fun c => Nat.zero_le 1, ?_⟩
    · obtain rfl := hinit p (by simp [hp])
      simp [Sys.boot] at hp
    · intro before parent child after heq
      simp [Sys.boot] at heq
  pages := by
    refine ⟨by simp [Sys.boot], fun p np k hp => ?_, fun p np k hp => ?_, fun k _ => rfl⟩
    · cases hp
    · cases hp

end History

/-- In every reachable state: each process but the first has a parent that is neither a free
slot nor a zombie; each child of a `fork` was returned by at most one `wait`, and its pages
were freed as often; a `wait` returned a child that had exited, to the process that forked it
or, when that had exited, to the first process; and a process asleep in `wait` has no zombie
child. -/
theorem children_accounted {C K : Type} [DecidableEq C] [DecidableEq K] {s : Sys C K}
    {labels : List (C × Action K)} (hrun : Run Sys.Step Sys.boot labels s) :
    (∀ p, (s.proc p).state.IsProc → p ≠ initproc → ∃ q, (s.proc p).parent = some q ∧
      (s.proc q).state ≠ .unused ∧ (s.proc q).state ≠ .zombie) ∧
    (∀ parent child k d, .fork parent child k d ∈ s.log → waits s.log child ≤ 1 ∧
      s.frees k = waits s.log child ∧ s.frees d = waits s.log child) ∧
    (∀ before parent child after, s.log = before ++ .wait parent child :: after →
      .exit child ∈ before ∧ ∃ p k d, .fork p child k d ∈ before ∧
        (parent = p ∨ parent = s.id initproc ∧ .exit p ∈ before)) ∧
    ∀ p q, (s.proc p).state = .sleeping → (s.proc p).chan = some (.proc p) →
      (s.proc q).parent = some p → (s.proc q).state ≠ .zombie := by
  obtain ⟨-, hfam, own, h⟩ := hrun.invariant
    (I := fun s => Inv s ∧ FamilyInv s.proc s.op ∧ ∃ own, History own s)
    ⟨Inv.boot, FamilyInv.boot, _, History.boot⟩ fun u a v ⟨hinv, hfam, own, h⟩ hstep =>
      have htrans := Sys.trans_of_next hstep
      ⟨hinv.trans htrans, hfam.trans hinv htrans, h.trans hinv hfam htrans⟩
  refine ⟨fun p hp hi => ?_, fun parent child k d hm => ?_, ?_, hfam.sleep⟩
  · obtain ⟨q, hq, hl⟩ := hfam.parent p hp hi
    exact ⟨q, hq, hl.isProc.1, hl.ne_zombie⟩
  · obtain ⟨⟨-, -, hk⟩, -, -, hd⟩ := h.pages.forked parent child k d hm
    exact ⟨h.roll.once child, hk, hd⟩
  · rw [h.roll.id_init]
    exact h.roll.accounted

/-- The first process forks a child and sleeps in `wait` until the child has exited. -/
theorem children_accounted_one_child :
    ∃ (labels : List (Unit × Action Unit)) (s : Sys Unit Unit) (before after : List Event)
      (k d : ℕ), Run Sys.Step Sys.boot labels s ∧ .fork 0 1 k d ∈ s.log ∧ s.frees k = 1 ∧
        s.frees d = 1 ∧ s.log = before ++ .wait 0 1 :: after ∧ .exit 1 ∈ before := by
  obtain ⟨s, hrun, htest⟩ := exists_run_of_runList (fun s l => (s.next l).toOption)
    Sys.step_of_toOption (Sys.boot : Sys Unit Unit)
    (([.acquire, .look, .resume, .fork, .forkStep true, .forkStep true, .forkStep true,
      .forkStep true, .wait, .waitScan, .clear, .look, .resume, .exit, .clear] ++
      List.replicate 63 .look ++ [.acquire, .look, .resume, .waitScan] :
        List (Action Unit)).map (Prod.mk ()))
    (fun s => s.log = [.alloc 1, .fork 0 1 2 3, .exit 1, .wait 0 1]) (by decide +kernel)
  simp only [decide_eq_true_eq] at htest
  have h := children_accounted hrun
  obtain ⟨-, hk, hd⟩ := h.2.1 0 1 2 3 (by simp [htest])
  refine ⟨_, s, [.alloc 1, .fork 0 1 2 3, .exit 1], [], 2, 3, hrun, by simp [htest], ?_, ?_, htest,
    (h.2.2.1 _ 0 1 [] htest).1⟩
  · rw [hk, htest]
    rfl
  · rw [hd, htest]
    rfl

end Xv6.Ptable
