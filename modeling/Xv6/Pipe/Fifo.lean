import Mathlib.Algebra.Group.Nat.Defs
import Xv6.Pipe.Model

/-!
# A pipe is a queue

What `piperead` delivers is what `pipewrite` stored, in the same order, and at most `PIPESIZE`
bytes are on their way at any time; this does not depend on how often the counters have
wrapped. Writes may interleave, but each of them stores its own bytes in order.
-/

namespace Xv6.Pipes

open Lib

variable {P : Type} {s s' : Sys P} {p q : P}

/-! ### The buffer -/

/-- The buffer holds the bytes stored and not yet delivered. -/
def RingInv (s : Sys P) : Prop :=
  ∃ queue, Ring (2 ^ 32) s.pipe.data s.pipe.nread.toNat s.pipe.nwrite.toNat s.delivered.length
    queue ∧ s.stored.map Prod.snd = s.delivered ++ queue

namespace Pipe

variable {b : Pipe} {base : ℕ} {queue : List UInt8}

/-- The test of `piperead` for an empty pipe. -/
theorem empty_iff (h : Ring (2 ^ 32) b.data b.nread.toNat b.nwrite.toNat base queue) :
    b.Empty ↔ queue = [] := by
  rw [Empty, ← UInt32.toNat_inj]
  exact h.empty_iff (by decide)

/-- The test of `pipewrite` for a full pipe. -/
theorem full_iff (h : Ring (2 ^ 32) b.data b.nread.toNat b.nwrite.toNat base queue) :
    b.Full ↔ queue.length = PIPESIZE := by
  rw [Full, ← UInt32.toNat_inj, UInt32.toNat_add]
  exact h.full_iff (by decide)

theorem nwrite_sub_nread (h : Ring (2 ^ 32) b.data b.nread.toNat b.nwrite.toNat base queue) :
    (b.nwrite - b.nread).toNat = queue.length := by
  rw [UInt32.toNat_sub]
  exact h.length_eq (by decide)

end Pipe

namespace RingInv

variable [DecidableEq P]

omit [DecidableEq P] in
theorem congr (h : RingInv s) (hpipe : s'.pipe.data = s.pipe.data ∧ s'.pipe.nread = s.pipe.nread ∧
    s'.pipe.nwrite = s.pipe.nwrite) (hstored : s'.stored = s.stored)
    (hdelivered : s'.delivered = s.delivered) : RingInv s' := by
  obtain ⟨hdata, hr, hw⟩ := hpipe
  rwa [RingInv, hdata, hr, hw, hstored, hdelivered]

/-- Every step keeps the ring. -/
theorem trans {a : Action P} (h : RingInv s) (hst : Sys.Trans s p a s') : RingInv s' := by
  cases hst with
  | @store w i hpc hi hfull =>
    obtain ⟨queue, hring, hstored⟩ := h
    have hroom : queue.length < PIPESIZE :=
      lt_of_le_of_ne hring.le fun heq => hfull ((Pipe.full_iff hring).mpr heq)
    refine ⟨queue ++ [w.addr i], ?_, ?_⟩
    · have hpush := hring.push (by decide) hroom (Nat.mod_lt _ (by decide)) (w.addr i)
      simpa [Pipe.place] using hpush
    · simp [hstored]
  | deliver hpc hc =>
    obtain ⟨queue, hring, hstored⟩ := h
    cases queue with
    | nil => exact absurd ((Pipe.empty_iff hring).mpr rfl) hc
    | cons x queue =>
      obtain ⟨hx, hpop⟩ := hring.pop (by decide) (Nat.mod_lt _ (by decide))
      refine ⟨queue, ?_, ?_⟩
      · simpa using hpop
      · have hfront : s.pipe.front = x := hx
        simp [hstored, hfront]
  | _ => exact h.congr ⟨rfl, rfl, rfl⟩ rfl rfl

omit [DecidableEq P] in
theorem init (data : Fin PIPESIZE → UInt8) : RingInv (Sys.init data : Sys P) :=
  ⟨[], Ring.nil data, rfl⟩

end RingInv

/-! ### The calls -/

/-- The bytes that call number `id` has stored, oldest first. -/
def bytesOf (id : ℕ) (stored : List (ℕ × UInt8)) : List UInt8 :=
  (stored.filter (·.1 = id)).map Prod.snd

theorem bytesOf_snoc_self (id : ℕ) (stored : List (ℕ × UInt8)) (x : UInt8) :
    bytesOf id (stored ++ [(id, x)]) = bytesOf id stored ++ [x] := by
  simp [bytesOf, List.filter_append]

theorem bytesOf_snoc_of_ne {id k : ℕ} (h : k ≠ id) (stored : List (ℕ × UInt8)) (x : UInt8) :
    bytesOf id (stored ++ [(k, x)]) = bytesOf id stored := by
  simp [bytesOf, List.filter_append, h]

theorem bytesOf_eq_nil {id : ℕ} {stored : List (ℕ × UInt8)} (h : ∀ x ∈ stored, x.1 ≠ id) :
    bytesOf id stored = [] := by
  simpa [bytesOf, List.filter_eq_nil_iff] using h

/-- The write that a process is in, and how many bytes it has stored. -/
def Pc.writing : Pc → Option (Write × ℕ)
  | .writeLoop w i | .writeFull w i | .writeWake w i | .writeSleep w i | .writeAsleep w i =>
    some (w, i)
  | .writeDone w | .writeReturn w => some (w, w.n.toNat)
  | _ => none

/-- What the calls of `pipewrite` have stored. -/
structure CallInv (s : Sys P) : Prop where
  /-- Calls are numbered in the order in which they begin. -/
  number : ∀ (k : ℕ) w, s.begun[k]? = some w → w.id = k
  /-- Only calls that have begun store bytes. -/
  stored : ∀ x ∈ s.stored, x.1 < s.begun.length
  /-- The bytes of a call are the first bytes of its buffer. -/
  order : ∀ w ∈ s.begun, ∃ i ≤ w.n.toNat, bytesOf w.id s.stored = (List.range i).map w.addr
  /-- A call that is under way has stored as many bytes as it says. -/
  active : ∀ p w i, (s.pc p).writing = some (w, i) →
    w ∈ s.begun ∧ i ≤ w.n.toNat ∧ bytesOf w.id s.stored = (List.range i).map w.addr
  /-- Each call is of one process. -/
  unique : ∀ p q w v i j, (s.pc p).writing = some (w, i) → (s.pc q).writing = some (v, j) →
    w.id = v.id → p = q
  /-- A call that has returned is over, and if it returned `n` it has stored all its bytes. -/
  done : ∀ w r, (w, r) ∈ s.returned →
    w ∈ s.begun ∧ (∀ p v i, (s.pc p).writing = some (v, i) → v.id ≠ w.id) ∧
      (r = w.n → bytesOf w.id s.stored = (List.range w.n.toNat).map w.addr)

namespace CallInv

theorem id_lt (h : CallInv s) {w : Write} (hw : w ∈ s.begun) : w.id < s.begun.length := by
  obtain ⟨k, hk⟩ := List.mem_iff_getElem?.mp hw
  rw [h.number k w hk]
  exact (List.getElem?_eq_some_iff.mp hk).1

theorem eq_of_id (h : CallInv s) {w v : Write} (hw : w ∈ s.begun) (hv : v ∈ s.begun)
    (hid : w.id = v.id) : w = v := by
  obtain ⟨k, hk⟩ := List.mem_iff_getElem?.mp hw
  obtain ⟨j, hj⟩ := List.mem_iff_getElem?.mp hv
  have hkj : k = j := by rw [← h.number k w hk, ← h.number j v hj, hid]
  subst hkj
  exact Option.some.inj (hk.symm.trans hj)

theorem congr (h : CallInv s) (hbegun : s'.begun = s.begun) (hstored : s'.stored = s.stored)
    (hreturned : s'.returned = s.returned)
    (hpc : ∀ q, (s'.pc q).writing = (s.pc q).writing) : CallInv s' := by
  refine ⟨?_, ?_, ?_, ?_, ?_, ?_⟩
  · simpa only [hbegun] using h.number
  · simpa only [hbegun, hstored] using h.stored
  · simpa only [hbegun, hstored] using h.order
  · simpa only [hbegun, hstored, hpc] using h.active
  · simpa only [hpc] using h.unique
  · simpa only [hbegun, hstored, hreturned, hpc] using h.done

variable [DecidableEq P]

theorem writing_update {pc : P → Pc} {pc' : Pc} (hp : pc'.writing = (pc p).writing) (q : P) :
    (Function.update pc p pc' q).writing = (pc q).writing := by
  by_cases hq : q = p
  · subst hq
    rw [Function.update_self, hp]
  · rw [Function.update_of_ne hq]

theorem of_writing_update {pc : P → Pc} {pc' : Pc} {v : Write} {j : ℕ}
    (h : (Function.update pc p pc' q).writing = some (v, j)) :
    q = p ∧ pc'.writing = some (v, j) ∨ q ≠ p ∧ (pc q).writing = some (v, j) := by
  by_cases hq : q = p
  · subst hq
    rw [Function.update_self] at h
    exact .inl ⟨rfl, h⟩
  · rw [Function.update_of_ne hq] at h
    exact .inr ⟨hq, h⟩

/-- A call begins. Its number is new. -/
theorem begin (h : CallInv s) (hp : (s.pc p).writing = none) {w : Write}
    (hid : w.id = s.begun.length) :
    CallInv (Sys.lockAt { s with begun := s.begun ++ [w] } p (.writeLoop w 0)) := by
  have hnone : bytesOf w.id s.stored = [] :=
    bytesOf_eq_nil fun x hx => hid ▸ (h.stored x hx).ne
  have hnew : ∀ v ∈ s.begun, v.id ≠ w.id := fun v hv => hid ▸ (h.id_lt hv).ne
  have hactive : ∀ q v j, (Function.update s.pc p (.writeLoop w 0) q).writing = some (v, j) →
      q = p ∧ v = w ∧ j = 0 ∨ q ≠ p ∧ (s.pc q).writing = some (v, j) := by
    intro q v j hq
    refine (of_writing_update hq).imp_left fun ⟨hqp, hv⟩ => ?_
    obtain ⟨rfl, rfl⟩ : w = v ∧ 0 = j := by simpa [Pc.writing] using hv
    exact ⟨hqp, rfl, rfl⟩
  refine ⟨fun k v hk => ?_, fun x hx => ?_, fun v hv => ?_, fun q v j hq => ?_,
    fun q q' v v' j j' hq hq' hvv => ?_, fun v r hv => ?_⟩
  · simp only [Sys.lockAt_begun] at hk
    rcases lt_trichotomy k s.begun.length with hlt | rfl | hgt
    · exact h.number k v (by rwa [List.getElem?_append_left hlt] at hk)
    · rw [List.getElem?_concat_length] at hk
      exact Option.some.inj hk ▸ hid
    · rw [List.getElem?_eq_none (by rw [List.length_append]; exact hgt)] at hk
      cases hk
  · simpa using (h.stored x hx).trans (Nat.lt_succ_self _)
  · rcases List.mem_append.mp hv with hv | hv
    · exact h.order v hv
    · obtain rfl := List.mem_singleton.mp hv
      exact ⟨0, Nat.zero_le _, hnone⟩
  · rcases hactive q v j hq with ⟨rfl, rfl, rfl⟩ | ⟨-, hq⟩
    · exact ⟨by simp, Nat.zero_le _, hnone⟩
    · obtain ⟨hv, hj, hb⟩ := h.active q v j hq
      exact ⟨List.mem_append_left _ hv, hj, hb⟩
  · -- a call already under way has another number
    rcases hactive q v j hq with ⟨rfl, rfl, -⟩ | ⟨-, hold⟩ <;>
      rcases hactive q' v' j' hq' with ⟨rfl, hw, -⟩ | ⟨-, hold'⟩
    · rfl
    · exact absurd hvv.symm (hnew v' (h.active q' v' j' hold').1)
    · exact absurd (hw ▸ hvv) (hnew v (h.active q v j hold).1)
    · exact h.unique q q' v v' j j' hold hold' hvv
  · obtain ⟨hmem, hover, hall⟩ := h.done v r hv
    refine ⟨List.mem_append_left _ hmem, fun q v' j hq => ?_, hall⟩
    rcases hactive q v' j hq with ⟨-, hw, -⟩ | ⟨-, hq⟩
    · exact hw ▸ (hnew v hmem).symm
    · exact hover q v' j hq

/-- A call stores its next byte. -/
theorem store (h : CallInv s) {w : Write} {i : ℕ} (hp : (s.pc p).writing = some (w, i))
    (hi : (i : ℤ) < w.n) (pipe : Pipe) :
    CallInv (Sys.goto { s with pipe := pipe, stored := s.stored ++ [(w.id, w.addr i)] } p
      (.writeLoop w (i + 1))) := by
  obtain ⟨hw, -, hbytes⟩ := h.active p w i hp
  have hnext : bytesOf w.id (s.stored ++ [(w.id, w.addr i)]) =
      (List.range (i + 1)).map w.addr := by
    rw [bytesOf_snoc_self, hbytes, List.range_succ, List.map_append, List.map_singleton]
  have hle : i + 1 ≤ w.n.toNat := by omega
  refine ⟨h.number, fun x hx => ?_, fun v hv => ?_, fun q v j hq => ?_,
    fun q q' v v' j j' hq hq' hvv => ?_, fun v r hv => ?_⟩
  · rcases List.mem_append.mp hx with hx | hx
    · exact h.stored x hx
    · obtain rfl := List.mem_singleton.mp hx
      exact h.id_lt hw
  · by_cases hid : w.id = v.id
    · obtain rfl := h.eq_of_id hw hv hid
      exact ⟨i + 1, hle, hnext⟩
    · obtain ⟨j, hj, hb⟩ := h.order v hv
      exact ⟨j, hj, by rw [← hb]; exact bytesOf_snoc_of_ne hid _ _⟩
  · rcases of_writing_update hq with ⟨rfl, hv⟩ | ⟨hqp, hq⟩
    · obtain ⟨rfl, rfl⟩ : w = v ∧ i + 1 = j := by simpa [Pc.writing] using hv
      exact ⟨hw, hle, hnext⟩
    · obtain ⟨hv, hj, hb⟩ := h.active q v j hq
      have hid : w.id ≠ v.id := fun hid => hqp (h.unique p q w v i j hp hq hid).symm
      exact ⟨hv, hj, by rw [← hb]; exact bytesOf_snoc_of_ne hid _ _⟩
  · -- the processes are in the calls that they were in
    have hsame : ∀ q v j, (Function.update s.pc p (.writeLoop w (i + 1)) q).writing =
        some (v, j) → ∃ j', (s.pc q).writing = some (v, j') := by
      intro q v j hq
      rcases of_writing_update hq with ⟨rfl, hv⟩ | ⟨-, hq⟩
      · obtain ⟨rfl, -⟩ : w = v ∧ i + 1 = j := by simpa [Pc.writing] using hv
        exact ⟨i, hp⟩
      · exact ⟨j, hq⟩
    obtain ⟨_, hq⟩ := hsame q v j hq
    obtain ⟨_, hq'⟩ := hsame q' v' j' hq'
    exact h.unique q q' v v' _ _ hq hq' hvv
  · obtain ⟨hv, hover, hall⟩ := h.done v r hv
    have hid : w.id ≠ v.id := hover p w i hp
    refine ⟨hv, fun q v' j hq => ?_, fun hr => ?_⟩
    · rcases of_writing_update hq with ⟨rfl, hv'⟩ | ⟨-, hq⟩
      · obtain ⟨rfl, -⟩ : w = v' ∧ i + 1 = j := by simpa [Pc.writing] using hv'
        exact hid
      · exact hover q v' j hq
    · rw [← hall hr]
      exact bytesOf_snoc_of_ne hid _ _

/-- A call returns. -/
theorem ret (h : CallInv s) {w : Write} {i : ℕ} {r : ℤ} (hp : (s.pc p).writing = some (w, i))
    (hr : r = w.n → i = w.n.toNat) : CallInv ((s.unlockAt p .out).ret w r) := by
  obtain ⟨hw, -, hbytes⟩ := h.active p w i hp
  have hactive : ∀ q v j, (Function.update s.pc p .out q).writing = some (v, j) →
      q ≠ p ∧ (s.pc q).writing = some (v, j) := by
    intro q v j hq
    rcases of_writing_update hq with ⟨-, hv⟩ | hq
    · cases hv
    · exact hq
  refine ⟨h.number, h.stored, h.order, fun q v j hq => h.active q v j (hactive q v j hq).2,
    fun q q' v v' j j' hq hq' =>
      h.unique q q' v v' j j' (hactive q v j hq).2 (hactive q' v' j' hq').2, fun v r' hv => ?_⟩
  rcases List.mem_append.mp hv with hv | hv
  · obtain ⟨hv, hover, hall⟩ := h.done v r' hv
    exact ⟨hv, fun q v' j hq => hover q v' j (hactive q v' j hq).2, hall⟩
  · obtain ⟨rfl, rfl⟩ : v = w ∧ r' = r := by simpa using hv
    refine ⟨hw, fun q v' j hq hid => ?_, fun hr' => ?_⟩
    · obtain ⟨hqp, hq⟩ := hactive q v' j hq
      exact hqp (h.unique q p v' v j i hq hp hid)
    · rw [← hr hr']
      exact hbytes

/-- Every step keeps the calls in order. -/
theorem trans {a : Action P} (h : CallInv s) (hst : Sys.Trans s p a s') : CallInv s' := by
  cases hst with
  | kill => exact h.congr rfl rfl rfl fun _ => rfl
  | write addr n hpc => exact h.begin (by rw [hpc]; rfl) rfl
  | store hpc hi => exact h.store (by rw [hpc]; rfl) hi _
  | @finish w i hpc hi =>
    obtain ⟨-, hle, -⟩ := h.active p w i (by rw [hpc]; rfl)
    refine h.congr rfl rfl rfl (writing_update ?_)
    rw [hpc]
    exact congrArg some (Prod.ext rfl (show w.n.toNat = i by omega))
  | @giveUp w i hpc =>
    have hp : (s.pc p).writing = some (w, i) := by rw [hpc]; rfl
    obtain ⟨-, hle, -⟩ := h.active p w i hp
    exact h.ret hp fun hn => by omega
  | writeReturn hpc => exact h.ret (by rw [hpc]; rfl) fun _ => rfl
  | read _ hpc | close _ hpc | full hpc | stay hpc | writeWake hpc | writeSleep hpc
  | writeRelock hpc | writeDone hpc | empty hpc | copy hpc | readKilled hpc | readStay hpc
  | readSleep hpc | readRelock hpc | deliver hpc | copied hpc | readWake hpc | readReturn hpc
  | closeWrite hpc | closeRead hpc | wakeReaders hpc | wakeWriters hpc | free hpc
  | closed hpc =>
    exact h.congr rfl rfl rfl (writing_update (show _ = (s.pc p).writing by rw [hpc]; rfl))

omit [DecidableEq P] in
theorem init (data : Fin PIPESIZE → UInt8) : CallInv (Sys.init data : Sys P) := by
  refine ⟨fun k w hk => ?_, ?_, ?_, fun p w i hp => ?_, fun p q w v i j hp => ?_, ?_⟩
  · simp [Sys.init] at hk
  · simp [Sys.init]
  · simp [Sys.init]
  · cases hp
  · cases hp
  · simp [Sys.init]

end CallInv

/-- In every run, at any interleaving and of any length: the bytes delivered are the first of
the bytes stored, the others are at most `PIPESIZE` and as many as the counters say; each call
of `pipewrite` has stored the first bytes of its buffer in order, and all of them if it has
returned `n`; and when a `piperead` of `n > 0` bytes is about to return 0, the pipe is empty and
the write end closed. -/
theorem pipe_fifo [DecidableEq P] (data : Fin PIPESIZE → UInt8) {labels : List (P × Action P)}
    (hrun : Run Sys.Step (Sys.init data) labels s) :
    (∃ queue, s.stored.map Prod.snd = s.delivered ++ queue ∧ queue.length ≤ PIPESIZE ∧
        (s.pipe.nwrite - s.pipe.nread).toNat = queue.length) ∧
      (∀ (k : ℕ) w, s.begun[k]? = some w →
        w.id = k ∧ ∃ i ≤ w.n.toNat, bytesOf k s.stored = (List.range i).map w.addr) ∧
      (∀ w r, (w, r) ∈ s.returned → w ∈ s.begun ∧
        (r = w.n → bytesOf w.id s.stored = (List.range w.n.toNat).map w.addr)) ∧
      ∀ p n, 0 < n → s.pc p = .readReturn n 0 → s.pipe.Empty ∧ s.pipe.writeopen = false := by
  obtain ⟨hhold, ⟨queue, hring, hstored⟩, hcall⟩ : HoldInv s ∧ RingInv s ∧ CallInv s :=
    hrun.invariant (I := fun s => HoldInv s ∧ RingInv s ∧ CallInv s)
      ⟨HoldInv.init data, RingInv.init data, CallInv.init data⟩ fun _ _ _ ⟨h₁, h₂, h₃⟩ hst =>
        have hst := Sys.trans_of_next hst
        ⟨h₁.trans hst, h₂.trans hst, h₃.trans hst⟩
  refine ⟨⟨queue, hstored, hring.le, Pipe.nwrite_sub_nread hring⟩, fun k w hk => ?_,
    fun w r hw => ?_, fun p n hn hp => ?_⟩
  · have hid := hcall.number k w hk
    exact ⟨hid, hid ▸ hcall.order w (List.mem_of_getElem? hk)⟩
  · obtain ⟨hmem, -, hall⟩ := hcall.done w r hw
    exact ⟨hmem, hall⟩
  · have hfits := hhold.fits p
    rw [hp] at hfits
    exact hfits hn

/-- Two bytes are written, the first is read, and the counters are one apart. -/
theorem pipe_fifo_two_bytes :
    ∃ (labels : List (Fin 2 × Action (Fin 2))) (s : Sys (Fin 2)),
      Run Sys.Step (Sys.init fun _ => 0) labels s ∧ s.delivered = [7] ∧
        s.returned.length = 1 ∧ ∃ queue, s.stored.map Prod.snd = s.delivered ++ queue ∧
          (s.pipe.nwrite - s.pipe.nread).toNat = queue.length := by
  obtain ⟨s, hrun, htest⟩ := exists_run_of_runList Sys.next (fun _ _ _ h => h)
    (Sys.init fun _ => 0 : Sys (Fin 2))
    [(1, .write (fun i => 7 + UInt8.ofNat i) 2), (1, .go), (1, .go), (1, .go), (1, .go), (1, .go),
      (0, .read 1), (0, .go), (0, .go), (0, .go), (0, .go), (0, .go)]
    (fun s => s.delivered = [7] ∧ s.returned.length = 1) (by decide +kernel)
  obtain ⟨hdel, hret⟩ : s.delivered = [7] ∧ s.returned.length = 1 := by simpa using htest
  obtain ⟨⟨queue, hstored, -, hlen⟩, -⟩ := pipe_fifo _ hrun
  exact ⟨_, s, hrun, hdel, hret, queue, hstored, hlen⟩

end Xv6.Pipes
