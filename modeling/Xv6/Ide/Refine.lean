import Xv6.Ide.Model

/-!
# The interrupt-driven driver refines the in-memory one

The queue is the list of the requests that were queued and not completed, in order; the drive works
on its first one. Completing a request is one call of `iderw` of `memide.c` for it, and the other
steps of the driver change nothing that `memide.c` knows of. -/

namespace Xv6.Ide

open Lib Bio

variable {P : Type*}

/-! ### The invariant -/

/-- The driver with the queue `l`. -/
structure Sys.Inv (s : Sys P) (l : List (Fin NBUF)) : Prop where
  chain : Chain s.qnext s.idequeue l
  nodup : l.Nodup
  order : s.queued = s.completed ++ l
  disk1 : s.havedisk1 = true
  cmd : s.drive.cmd = l.head?.map fun i => command (s.buf i)
  busy : s.drive.done = true → l ≠ []
  request : ∀ i ∈ l, (s.buf i).dev = 1 ∧ (s.buf i).blockno < FSSIZE ∧ ¬ (s.buf i).Synced
  caller : ∀ i ∈ l, ∃ p c, s.call p = some c ∧ c.buf = i
  locked : ∀ p c, s.call p = some c → (s.buf c.buf).lock = some p
  ticket : ∀ p c, s.call p = some c → s.queued[c.ticket]? = some c.buf
  pending : ∀ p c, s.call p = some c → c.buf ∈ l → s.completed.length ≤ c.ticket
  finished : ∀ p c, s.call p = some c → c.buf ∉ l →
    (s.buf c.buf).Synced ∧ c.ticket < s.completed.length ∧ c.asleep = false

namespace Sys

variable {s t : Sys P} {l : List (Fin NBUF)} {i : Fin NBUF} {p : P} {c : Call}

theorem inv_init (buf : Fin NBUF → Buf P) (disk : ℕ → Disk) : (init buf disk).Inv [] := by
  refine ⟨rfl, List.nodup_nil, rfl, rfl, rfl, ?_, ?_, ?_, ?_, ?_, ?_, ?_⟩ <;> simp [init]

/-- `idestart` gives its command to a drive that is not busy. -/
theorem idestart_eq (hblock : (s.buf i).blockno < FSSIZE) (hready : s.drive.cmd = none) :
    s.idestart i =
      .ok { s with drive := { s.drive with cmd := some (command (s.buf i)), done := false } } := by
  rw [idestart, if_neg (Nat.not_le.mpr hblock), if_neg (by simp [hready])]

theorem Inv.length_le (h : s.Inv l) : l.length ≤ NBUF := by
  have := h.nodup.length_le_card
  rwa [Fintype.card_fin] at this

/-- The process that waits for a queued buffer is the holder of its lock. -/
theorem Inv.holder (h : s.Inv l) (hi : i ∈ l) (hp : (s.buf i).lock = some p) :
    ∃ c, s.call p = some c ∧ c.buf = i := by
  obtain ⟨q, c, hc, rfl⟩ := h.caller i hi
  have hq := h.locked q c hc
  rw [hp, Option.some.injEq] at hq
  exact ⟨c, hq ▸ hc, rfl⟩

/-- A process returns from `iderw` only when its request was completed. -/
theorem Inv.ticket_lt (h : s.Inv l) (hc : s.call p = some c) (hsync : (s.buf c.buf).Synced) :
    c.ticket < s.completed.length :=
  (h.finished p c hc fun hmem => (h.request c.buf hmem).2.2 hsync).2.1

/-- The number of the request at the head of the queue. -/
theorem Inv.ticket_head (h : s.Inv (i :: l)) (hc : s.call p = some c) (hi : c.buf = i) :
    c.ticket = s.completed.length := by
  have hticket := h.ticket p c hc
  have hle := h.pending p c hc (hi ▸ List.mem_cons_self)
  rw [h.order, List.getElem?_append_right hle, hi] at hticket
  have hzero : c.ticket - s.completed.length = 0 :=
    ((List.getElem?_inj (Nat.succ_pos _) h.nodup).mp hticket.symm).symm
  omega

/-- The kernel changes a buffer that is in no request. -/
theorem Inv.prepare (h : s.Inv l) (hfree : ∀ p, ∀ c ∈ s.call p, c.buf ≠ i) (b : Buf P) :
    Inv { s with buf := Function.update s.buf i b } l := by
  have hcall : ∀ p c, s.call p = some c → Function.update s.buf i b c.buf = s.buf c.buf :=
    fun p c hc => Function.update_of_ne (hfree p c hc) _ _
  have hmem : ∀ j ∈ l, Function.update s.buf i b j = s.buf j := by
    intro j hj
    obtain ⟨p, c, hc, rfl⟩ := h.caller j hj
    exact hcall p c hc
  refine ⟨h.chain, h.nodup, h.order, h.disk1, ?_, h.busy, ?_, h.caller, ?_,
    h.ticket, h.pending, ?_⟩ <;>
    dsimp only
  · rw [h.cmd]
    cases l with
    | nil => rfl
    | cons j l => simp only [List.head?_cons, Option.map_some, hmem j List.mem_cons_self]
  · intro j hj
    rw [hmem j hj]
    exact h.request j hj
  · intro p c hc
    rw [hcall p c hc]
    exact h.locked p c hc
  · intro p c hc
    rw [hcall p c hc]
    exact h.finished p c hc

/-- The drive finishes the command of the request at the head. -/
theorem Inv.finish_cases (h : s.Inv l) {d : Drive} (hd : s.drive.finish = some d) :
    ∃ i ∈ l, s.drive.cmd = some (command (s.buf i)) ∧ s.drive.done = false ∧
      d.disk 1 = (command (s.buf i)).perform (s.drive.disk 1) ∧ d.cmd = s.drive.cmd ∧
      d.done = true ∧
      ((command (s.buf i)).write = none → d.data = s.drive.disk 1 (command (s.buf i)).sector) := by
  unfold Drive.finish at hd
  split at hd
  case h_1 c hcmd hdone =>
    obtain rfl := Option.some.inj hd
    cases l with
    | nil =>
      rw [h.cmd] at hcmd
      cases hcmd
    | cons i l =>
      have hc : s.drive.cmd = some (command (s.buf i)) := h.cmd
      obtain rfl : command (s.buf i) = c := Option.some.inj (hc.symm.trans hcmd)
      have hdrive : (command (s.buf i)).drive = 1 := by
        rw [command, (h.request i List.mem_cons_self).1]
      refine ⟨i, List.mem_cons_self, hc, hdone, ?_, rfl, rfl, fun hread => ?_⟩
      · dsimp only
        rw [hdrive, Function.update_self]
      · dsimp only
        rw [hread, hdrive]
  case h_2 => cases hd

theorem Inv.finish (h : s.Inv l) {d : Drive} (hd : s.drive.finish = some d) :
    Inv { s with drive := d } l := by
  obtain ⟨i, hi, -, -, -, hcmd, -, -⟩ := h.finish_cases hd
  exact ⟨h.chain, h.nodup, h.order, h.disk1, hcmd.trans h.cmd, fun _ => List.ne_nil_of_mem hi,
    h.request, h.caller, h.locked, h.ticket, h.pending, h.finished⟩

section Calls

variable [DecidableEq P]

/-- A process in `iderw` is woken or falls asleep again; one whose request was completed does not
sleep. -/
theorem Inv.setCall (h : s.Inv l) (hc : s.call p = some c) {asleep : Bool}
    (hawake : c.buf ∉ l → asleep = false) :
    Inv { s with call := Function.update s.call p (some { c with asleep := asleep }) } l := by
  -- the calls are the same but for who sleeps
  have hcalls : ∀ q c', Function.update s.call p (some { c with asleep := asleep }) q = some c' →
      ∃ c₀, s.call q = some c₀ ∧ c'.buf = c₀.buf ∧ c'.ticket = c₀.ticket ∧
        (c'.buf ∉ l → c₀.asleep = false → c'.asleep = false) := by
    intro q c' hq
    by_cases hqp : q = p
    · subst hqp
      rw [Function.update_self] at hq
      obtain rfl := Option.some.inj hq
      exact ⟨c, hc, rfl, rfl, fun hmem _ => hawake hmem⟩
    · rw [Function.update_of_ne hqp] at hq
      exact ⟨c', hq, rfl, rfl, fun _ => id⟩
  refine ⟨h.chain, h.nodup, h.order, h.disk1, h.cmd, h.busy, h.request, fun j hj => ?_,
    fun q c' hq => ?_, fun q c' hq => ?_, fun q c' hq => ?_, fun q c' hq => ?_⟩
  · obtain ⟨q, c₀, hq, rfl⟩ := h.caller j hj
    by_cases hqp : q = p
    · subst hqp
      obtain rfl : c = c₀ := Option.some.inj (hc.symm.trans hq)
      exact ⟨q, _, Function.update_self _ _ _, rfl⟩
    · exact ⟨q, c₀, (Function.update_of_ne hqp _ _).trans hq, rfl⟩
  all_goals
    obtain ⟨c₀, hc₀, hbuf, hticket, hsleep⟩ := hcalls q c' hq
    dsimp only
  · rw [hbuf]
    exact h.locked q c₀ hc₀
  · rw [hbuf, hticket]
    exact h.ticket q c₀ hc₀
  · rw [hbuf, hticket]
    exact h.pending q c₀ hc₀
  · intro hmem
    obtain ⟨hsync, hlt, hawake₀⟩ := h.finished q c₀ hc₀ (hbuf ▸ hmem)
    rw [hbuf, hticket]
    exact ⟨hsync, hlt, hsleep hmem hawake₀⟩

/-- A process returns from `iderw`. -/
theorem Inv.leave (h : s.Inv l) (hc : s.call p = some c) (hmem : c.buf ∉ l) :
    Inv { s with call := Function.update s.call p none } l := by
  have hcalls : ∀ q c', Function.update s.call p none q = some c' → s.call q = some c' := by
    intro q c' hq
    by_cases hqp : q = p
    · subst hqp
      rw [Function.update_self] at hq
      cases hq
    · rwa [Function.update_of_ne hqp] at hq
  refine ⟨h.chain, h.nodup, h.order, h.disk1, h.cmd, h.busy, h.request, fun j hj => ?_,
    fun q c' hq => h.locked q c' (hcalls q c' hq), fun q c' hq => h.ticket q c' (hcalls q c' hq),
    fun q c' hq => h.pending q c' (hcalls q c' hq), fun q c' hq => h.finished q c' (hcalls q c' hq)⟩
  obtain ⟨q, c₀, hq, rfl⟩ := h.caller j hj
  have hqp : q ≠ p := by
    rintro rfl
    obtain rfl : c = c₀ := Option.some.inj (hc.symm.trans hq)
    exact hmem hj
  exact ⟨q, c₀, (Function.update_of_ne hqp _ _).trans hq, rfl⟩

theorem Inv.wait (h : s.Inv l) (hc : s.call p = some c) : (s.wait p c).Inv l := by
  unfold Sys.wait
  by_cases hsync : (s.buf c.buf).Synced
  · rw [if_pos hsync]
    exact h.leave hc fun hmem => (h.request c.buf hmem).2.2 hsync
  · rw [if_neg hsync]
    exact h.setCall hc fun hmem => absurd (h.finished p c hc hmem).1 hsync

end Calls

/-! ### Queueing a request -/

section Iderw

variable [DecidableEq P]

/-- What `iderw` leaves behind when it goes to sleep, for a queue that becomes `l`. -/
def queue (s : Sys P) (p : P) (i : Fin NBUF) (l : List (Fin NBUF)) (head : Option (Fin NBUF))
    (qnext : Fin NBUF → Option (Fin NBUF)) : Sys P :=
  { s with
    idequeue := head
    qnext := qnext
    drive := { s.drive with cmd := l.head?.map fun j => command (s.buf j) }
    call := Function.update s.call p (some ⟨i, true, s.queued.length⟩)
    queued := s.queued ++ [i] }

/-- A call of `iderw` that keeps to the interface queues its request behind the others, starts the
drive if there are none, and goes to sleep. -/
theorem Inv.iderw_eq (h : s.Inv l) (hp : s.call p = none) (hlock : (s.buf i).lock = some p)
    (hsync : ¬ (s.buf i).Synced) (hblock : (s.buf i).blockno < FSSIZE) :
    i ∉ l ∧ ∃ head qnext, Chain qnext head (l ++ [i]) ∧
      s.iderw p i = .ok (s.queue p i (l ++ [i]) head qnext) := by
  have hmem : i ∉ l := by
    intro hmem
    obtain ⟨c, hc, -⟩ := h.holder hmem hlock
    rw [hp] at hc
    cases hc
  obtain ⟨head, qnext, henq, hchain⟩ := h.chain.enqueue h.nodup hmem h.length_le
  refine ⟨hmem, head, qnext, hchain, ?_⟩
  have hhead := hchain.head_eq
  unfold Sys.iderw
  rw [hp, if_neg (by simp), if_neg (by simp [hlock]), if_neg hsync,
    if_neg (by simp [h.disk1]), henq]
  dsimp only
  cases l with
  | nil =>
    -- the drive is idle, and gets the command of the new request
    have hcmd : s.drive.cmd = none := h.cmd
    have hdone : s.drive.done = false := by
      by_contra hdone
      exact h.busy (by simpa using hdone) rfl
    have hhead : head = some i := hhead
    rw [if_pos hhead, idestart_eq
      (s := { s with idequeue := head, qnext := qnext, queued := s.queued ++ [i] }) hblock hcmd]
    simp only [Outcome.bindMap, Sys.wait, if_neg hsync, queue, List.nil_append, List.head?_cons,
      Option.map_some, hdone]
  | cons j l =>
    have hji : head ≠ some i := by
      rw [hhead]
      rintro ⟨⟩
      exact hmem List.mem_cons_self
    have hcmd : s.drive.cmd = some (command (s.buf j)) := h.cmd
    rw [if_neg hji]
    simp only [Sys.wait, if_neg hsync, queue, List.cons_append, List.head?_cons, Option.map_some,
      ← hcmd]

theorem Inv.queue (h : s.Inv l) (hmem : i ∉ l) {head : Option (Fin NBUF)}
    {qnext : Fin NBUF → Option (Fin NBUF)} (hchain : Chain qnext head (l ++ [i]))
    (hp : s.call p = none) (hlock : (s.buf i).lock = some p) (hsync : ¬ (s.buf i).Synced)
    (hdev : (s.buf i).dev = 1) (hblock : (s.buf i).blockno < FSSIZE) :
    (s.queue p i (l ++ [i]) head qnext).Inv (l ++ [i]) := by
  have hcalls : ∀ q c, Function.update s.call p (some ⟨i, true, s.queued.length⟩) q = some c →
      (q = p ∧ c = ⟨i, true, s.queued.length⟩) ∨ s.call q = some c := by
    intro q c hq
    by_cases hqp : q = p
    · subst hqp
      rw [Function.update_self] at hq
      exact .inl ⟨rfl, (Option.some.inj hq).symm⟩
    · rw [Function.update_of_ne hqp] at hq
      exact .inr hq
  have hnodup : (l ++ [i]).Nodup := List.nodup_append.mpr
    ⟨h.nodup, List.nodup_singleton i, fun a ha b hb => by
      rw [List.mem_singleton.mp hb]
      exact ne_of_mem_of_not_mem ha hmem⟩
  have hlen : s.queued.length = s.completed.length + l.length := by
    rw [h.order, List.length_append]
  -- the new request is the last in the queue, and its caller sleeps
  refine ⟨hchain, hnodup, ?_, h.disk1, rfl, fun _ => by simp, ?_, ?_, ?_, ?_, ?_, ?_⟩
  · rw [Sys.queue, h.order, List.append_assoc]
  · intro j hj
    rcases List.mem_append.mp hj with hj | hj
    · exact h.request j hj
    · obtain rfl := List.mem_singleton.mp hj
      exact ⟨hdev, hblock, hsync⟩
  · intro j hj
    rcases List.mem_append.mp hj with hj | hj
    · obtain ⟨q, c, hc, rfl⟩ := h.caller j hj
      have hqp : q ≠ p := by
        rintro rfl
        rw [hp] at hc
        cases hc
      exact ⟨q, c, (Function.update_of_ne hqp _ _).trans hc, rfl⟩
    · obtain rfl := List.mem_singleton.mp hj
      exact ⟨p, _, Function.update_self _ _ _, rfl⟩
  · intro q c hq
    rcases hcalls q c hq with ⟨rfl, rfl⟩ | hc
    · exact hlock
    · exact h.locked q c hc
  · intro q c hq
    rcases hcalls q c hq with ⟨rfl, rfl⟩ | hc
    · exact List.getElem?_concat_length
    · have := h.ticket q c hc
      have hlt := (List.getElem?_eq_some_iff.mp this).1
      exact (List.getElem?_append_left hlt).trans this
  · intro q c hq hin
    rcases hcalls q c hq with ⟨rfl, rfl⟩ | hc
    · exact hlen ▸ Nat.le_add_right _ _
    · rcases List.mem_append.mp hin with hin | hin
      · exact h.pending q c hc hin
      · -- nobody else is in `iderw` on the new buffer
        have hq := h.locked q c hc
        rw [List.mem_singleton.mp hin, hlock, Option.some.injEq] at hq
        rw [← hq, hp] at hc
        cases hc
  · intro q c hq hnot
    rcases hcalls q c hq with ⟨rfl, rfl⟩ | hc
    · exact absurd (List.mem_append_right l List.mem_cons_self) hnot
    · exact h.finished q c hc fun hin => hnot (List.mem_append_left _ hin)

end Iderw

/-! ### Completing a request -/

/-- What `ideintr` leaves behind for a queue that becomes `l`. -/
def acknowledge (s : Sys P) (i : Fin NBUF) (l : List (Fin NBUF)) : Sys P :=
  { s with
    idequeue := s.qnext i
    buf := Function.update s.buf i ((s.buf i).complete (some s.drive.data))
    drive := { s.drive with cmd := l.head?.map fun j => command (s.buf j), done := false }
    call := fun p => (s.call p).map (Call.wakeup i)
    completed := s.completed ++ [i] }

/-- The interrupt handler completes the request at the head of the queue and starts the next one. -/
theorem Inv.ideintr_eq (h : s.Inv (i :: l)) : s.ideintr = .ok (s.acknowledge i l) := by
  have hhead : s.idequeue = some i := h.chain.1
  have hnext : s.qnext i = l.head? := h.chain.2.head_eq
  unfold Sys.ideintr
  rw [hhead]
  dsimp only
  cases l with
  | nil =>
    rw [hnext]
    simp [acknowledge, hnext]
  | cons j l =>
    have hji : j ≠ i := by
      rintro rfl
      exact (List.nodup_cons.mp h.nodup).1 List.mem_cons_self
    have hblock := (h.request j (List.mem_cons_of_mem i List.mem_cons_self)).2.1
    rw [hnext, List.head?_cons]
    dsimp only
    rw [idestart_eq (show (Function.update s.buf i _ j).blockno < FSSIZE by
      rwa [Function.update_of_ne hji]) rfl]
    simp [acknowledge, hnext, Function.update_of_ne hji]

theorem Inv.acknowledge (h : s.Inv (i :: l)) : (s.acknowledge i l).Inv l := by
  obtain ⟨hi, hnodup⟩ := List.nodup_cons.mp h.nodup
  have hne : ∀ j ∈ l, j ≠ i := fun j hj => ne_of_mem_of_not_mem hj hi
  have hbuf : ∀ j, j ≠ i → (s.acknowledge i l).buf j = s.buf j :=
    fun j hj => Function.update_of_ne hj _ _
  have hself : (s.acknowledge i l).buf i = (s.buf i).complete (some s.drive.data) :=
    Function.update_self _ _ _
  -- the calls are the same but for the sleepers that were woken
  have hcalls : ∀ p c, (s.acknowledge i l).call p = some c →
      ∃ c₀, s.call p = some c₀ ∧ c = c₀.wakeup i ∧ c.buf = c₀.buf ∧ c.ticket = c₀.ticket := by
    intro p c hc
    obtain ⟨c₀, hc₀, rfl⟩ := Option.map_eq_some_iff.mp hc
    refine ⟨c₀, hc₀, rfl, ?_, ?_⟩ <;> unfold Call.wakeup <;> split <;> rfl
  refine ⟨h.chain.2, hnodup, ?_, h.disk1, ?_, fun hdone => (nomatch hdone), ?_, ?_, ?_, ?_, ?_, ?_⟩
  · rw [Sys.acknowledge, h.order, List.append_assoc, List.singleton_append]
  · cases l with
    | nil => rfl
    | cons j l =>
      have := hbuf j (hne j List.mem_cons_self)
      rw [List.head?_cons, Option.map_some, this]
      rfl
  · intro j hj
    rw [hbuf j (hne j hj)]
    exact h.request j (List.mem_cons_of_mem i hj)
  · intro j hj
    obtain ⟨p, c, hc, rfl⟩ := h.caller j (List.mem_cons_of_mem i hj)
    refine ⟨p, c.wakeup i, Option.map_eq_some_iff.mpr ⟨c, hc, rfl⟩, ?_⟩
    unfold Call.wakeup
    split <;> rfl
  · intro p c hc
    obtain ⟨c₀, hc₀, -, hb, -⟩ := hcalls p c hc
    have hlock := h.locked p c₀ hc₀
    rw [hb]
    by_cases hci : c₀.buf = i
    · rw [hci] at hlock ⊢
      rw [hself]
      exact hlock
    · rw [hbuf _ hci]
      exact hlock
  · intro p c hc
    obtain ⟨c₀, hc₀, -, hb, ht⟩ := hcalls p c hc
    rw [hb, ht]
    exact h.ticket p c₀ hc₀
  · intro p c hc hin
    obtain ⟨c₀, hc₀, -, hb, ht⟩ := hcalls p c hc
    rw [hb] at hin
    have hle := h.pending p c₀ hc₀ (List.mem_cons_of_mem i hin)
    have hne' : c₀.ticket ≠ s.completed.length := by
      -- the request with that number is the one at the head
      intro heq
      have hticket := h.ticket p c₀ hc₀
      rw [h.order, heq, List.getElem?_append_right (Nat.le_refl _), Nat.sub_self] at hticket
      exact hne _ hin (Option.some.inj hticket).symm
    rw [ht, Sys.acknowledge, List.length_append, List.length_singleton]
    omega
  · intro p c hc hnot
    obtain ⟨c₀, hc₀, rfl, hb, ht⟩ := hcalls p c hc
    rw [hb] at hnot
    have hlen : (s.acknowledge i l).completed.length = s.completed.length + 1 :=
      List.length_append
    rw [hb, ht, hlen]
    by_cases hci : c₀.buf = i
    · refine ⟨?_, ?_, ?_⟩
      · rw [hci, hself]
        exact ⟨rfl, rfl⟩
      · rw [h.ticket_head hc₀ hci]
        exact Nat.lt_succ_self _
      · rw [Call.wakeup, if_pos hci]
    · obtain ⟨hsync, hlt, hawake⟩ := h.finished p c₀ hc₀ fun hmem =>
        (List.mem_cons.mp hmem).elim hci hnot
      rw [hbuf _ hci, Call.wakeup, if_neg hci]
      exact ⟨hsync, Nat.lt_succ_of_lt hlt, hawake⟩

/-! ### The processes -/

section Steps

variable [DecidableEq P]

/-- What the tests at the start of `iderw` let pass. -/
theorem iderw_pre (ht : s.iderw p i = .ok t) :
    s.call p = none ∧ (s.buf i).lock = some p ∧ ¬ (s.buf i).Synced := by
  unfold Sys.iderw at ht
  split_ifs at ht with hp hlock hsync
  exact ⟨by simpa using hp, by simpa using hlock, hsync⟩

/-- A process that goes on in `iderw` is awake, and tests its buffer. -/
theorem run_cases (ht : s.next (.run p) = .ok t) :
    ∃ c, s.call p = some c ∧ c.asleep = false ∧ t = s.wait p c := by
  simp only [Sys.next] at ht
  split at ht
  case h_1 c hc =>
    split_ifs at ht with hsleep
    exact ⟨c, hc, by simpa using hsleep, (Outcome.ok.inj ht).symm⟩
  case h_2 => cases ht

/-- A process leaves `iderw` only with a buffer that is valid and clean. -/
theorem synced_of_wait_eq_none (h : (s.wait p c).call p = none) : (s.buf c.buf).Synced := by
  by_contra hsync
  simp [Sys.wait, hsync] at h

end Steps

end Sys

/-! ### The correspondence -/

/-- The disk after the command that the drive has finished and `ideintr` has not acknowledged. -/
def Drive.settle (d : Drive) (disk : Disk) : Disk :=
  if d.done then d.cmd.elim disk fun c => c.perform disk else disk

/-- What `memide.c` does at a step of the driver: it follows the changes of buffers, and performs
the request at the head of the queue when `ideintr` completes it. -/
def Sys.answer (s : Sys P) : Act P → List (Mem.Act P)
  | .prepare i b => [.prepare i b]
  | .ideintr =>
    (s.idequeue.bind fun i => (s.buf i).lock.map fun p => Mem.Act.iderw p i).toList
  | _ => []

section Answers

variable [DecidableEq P]

/-- One step of the driver, with what `memide.c` has done so far. -/
def Sys.follow : Option (Sys P) × List (Mem.Act P) → Act P → Option (Sys P) × List (Mem.Act P)
  | (some s, acts), a => ((s.next a).toOption, acts ++ s.answer a)
  | (none, acts), _ => (none, acts)

/-- What `memide.c` does along the steps of the driver from `s` on. -/
def Sys.answers (s : Sys P) (labels : List (Act P)) : List (Mem.Act P) :=
  (labels.foldl Sys.follow (some s, [])).2

theorem Sys.foldl_follow {s t : Sys P} {labels : List (Act P)} (hrun : Run Sys.Step s labels t) :
    labels.foldl Sys.follow (some s, []) = (some t, s.answers labels) := by
  induction hrun with
  | refl => rfl
  | snoc _ hstep ih =>
    rw [Sys.answers, List.foldl_append, ih, List.foldl_cons, List.foldl_nil, Sys.follow, hstep.2]
    rfl

theorem Sys.answers_snoc {s t : Sys P} {labels : List (Act P)} (hrun : Run Sys.Step s labels t)
    (a : Act P) : s.answers (labels ++ [a]) = s.answers labels ++ t.answer a := by
  rw [Sys.answers, List.foldl_append, Sys.foldl_follow hrun]
  rfl

end Answers

/-- `memide.c` has performed the completed requests: it has the same buffers, and the same disk but
for a command that the drive is ahead with. -/
structure Sim (s : Sys P) (acts : List (Mem.Act P)) (m : Mem P) : Prop where
  queue : ∃ l, s.Inv l
  requests : Mem.requests acts = s.completed
  buf : m.buf = s.buf
  size : m.disksize = FSSIZE
  disk : s.drive.disk 1 = s.drive.settle m.memdisk
  data : s.drive.done = true → ∀ c ∈ s.drive.cmd, c.write = none → s.drive.data = m.memdisk c.sector

variable {s t : Sys P} {l : List (Fin NBUF)} {i : Fin NBUF} {p : P} {m : Mem P}
  {acts : List (Mem.Act P)}

theorem sim_init (buf : Fin NBUF → Buf P) (disk : ℕ → Disk) :
    Sim (Sys.init buf disk) [] ⟨disk 1, FSSIZE, buf⟩ :=
  ⟨⟨[], Sys.inv_init buf disk⟩, rfl, rfl, rfl, rfl, fun h => nomatch h⟩

/-- A step that neither completes a request nor finishes a command is none of `memide.c`. -/
theorem Sim.stutter (h : Sim s acts m) (hinv : t.Inv l) (hcompleted : t.completed = s.completed)
    (hbuf : t.buf = s.buf) (hdisk : t.drive.disk = s.drive.disk)
    (hdone : t.drive.done = s.drive.done)
    (hdata : t.drive.data = s.drive.data) (hcmd : s.drive.done = true → t.drive.cmd = s.drive.cmd) :
    Sim t acts m := by
  refine ⟨⟨l, hinv⟩, h.requests.trans hcompleted.symm, h.buf.trans hbuf.symm, h.size, ?_, ?_⟩
  · rw [hdisk, h.disk, Drive.settle, Drive.settle, hdone]
    split_ifs with hd
    · rw [hcmd hd]
    · rfl
  · intro hd
    rw [hdone] at hd
    rw [hcmd hd, hdata]
    exact h.data hd

theorem sector_eq {b : Buf P} (hblock : b.blockno < FSSIZE) : (command b).sector = b.blockno := by
  have hone : BSIZE / SECTOR_SIZE = 1 := rfl
  unfold FSSIZE at hblock
  rw [command, hone, Nat.mul_one, lba_of_lt (by omega)]

theorem Sim.finish (h : Sim s acts m) {d : Drive} (hd : s.drive.finish = some d) :
    Sim { s with drive := d } acts m := by
  obtain ⟨l, hinv⟩ := h.queue
  obtain ⟨i, -, hold, hbusy, hdisk, hcmd, hdone, hread⟩ := hinv.finish_cases hd
  have hsame : s.drive.disk 1 = m.memdisk := by
    rw [h.disk, Drive.settle, hbusy]
    rfl
  rw [hold] at hcmd
  rw [hsame] at hdisk hread
  refine ⟨⟨l, hinv.finish hd⟩, h.requests, h.buf, h.size, ?_, fun _ c hc hnone => ?_⟩
  · dsimp only
    rw [hdisk, Drive.settle, hdone, hcmd]
    rfl
  · obtain rfl : command (s.buf i) = c := Option.some.inj (hcmd.symm.trans hc)
    exact hread hnone

section Memide

variable [DecidableEq P]

/-- `iderw` of `memide.c` performs the command, and completes the buffer. -/
theorem Mem.iderw_eq (hlock : (m.buf i).lock = some p) (hsync : ¬ (m.buf i).Synced)
    (hdev : (m.buf i).dev = 1) (hsize : m.disksize = FSSIZE) (hblock : (m.buf i).blockno < FSSIZE) :
    m.iderw p i = .ok { m with
      memdisk := (command (m.buf i)).perform m.memdisk
      buf := Function.update m.buf i
        ((m.buf i).complete (some (m.memdisk (m.buf i).blockno))) } := by
  have hsector := sector_eq hblock
  unfold Mem.iderw
  dsimp only
  rw [if_neg (by simp [hlock]), if_neg hsync, if_neg (by simp [hdev]),
    if_neg (by rw [hsize]; exact Nat.not_le.mpr hblock)]
  cases hdirty : (m.buf i).dirty with
  | true =>
    have hwrite : (command (m.buf i)).write = some (m.buf i).data := by simp [command, hdirty]
    simp [Buf.complete, Command.perform, hwrite, hsector, hdirty]
  | false =>
    have hwrite : (command (m.buf i)).write = none := by simp [command, hdirty]
    simp [Buf.complete, Command.perform, hwrite, hdirty]

/-- Completing the request at the head of the queue is `iderw` of `memide.c` for it. -/
theorem Sim.acknowledge (h : Sim s acts m) (hinv : s.Inv (i :: l)) (hdone : s.drive.done = true) :
    ∃ m', Run Mem.Step m (s.answer .ideintr) m' ∧
      Sim (s.acknowledge i l) (acts ++ s.answer .ideintr) m' := by
  obtain ⟨p, c, hc, rfl⟩ := hinv.caller i List.mem_cons_self
  have hanswer : s.answer .ideintr = [.iderw p c.buf] := by
    simp [Sys.answer, hinv.chain.1, hinv.locked p c hc]
  obtain ⟨hdev, hblock, hsync⟩ := hinv.request c.buf List.mem_cons_self
  have hcmd : s.drive.cmd = some (command (s.buf c.buf)) := hinv.cmd
  have heq : m.iderw p c.buf = _ := Mem.iderw_eq (by rw [h.buf]; exact hinv.locked p c hc)
    (by rwa [h.buf]) (by rwa [h.buf]) h.size (by rwa [h.buf])
  rw [h.buf] at heq
  -- the drive has the data that `memide.c` copies
  have hdata : (s.buf c.buf).complete (some (m.memdisk (s.buf c.buf).blockno)) =
      (s.buf c.buf).complete (some s.drive.data) := by
    cases hdirty : (s.buf c.buf).dirty with
    | true => simp [Buf.complete, hdirty]
    | false =>
      have := h.data hdone _ hcmd (by simp [command, hdirty])
      rw [this, sector_eq hblock]
  rw [hanswer]
  refine ⟨_, .single heq, ⟨l, hinv.acknowledge⟩, ?_, ?_, h.size, ?_, fun hd => nomatch hd⟩
  · have hold := h.requests
    unfold Mem.requests at hold ⊢
    rw [List.filterMap_append, hold]
    rfl
  · dsimp only
    rw [hdata]
    rfl
  · have hdisk := h.disk
    rw [Drive.settle, hdone, hcmd] at hdisk
    exact hdisk

/-- Every step of the driver is answered by `memide.c`. -/
theorem Sim.step (h : Sim s acts m) {a : Act P} (hstep : Sys.Step s a t) :
    ∃ m', Run Mem.Step m (s.answer a) m' ∧ Sim t (acts ++ s.answer a) m' := by
  obtain ⟨hguard, ht⟩ := hstep
  obtain ⟨l, hinv⟩ := h.queue
  have hsame : ∀ {t}, Sim t acts m → ∃ m', Run Mem.Step m [] m' ∧ Sim t (acts ++ []) m' :=
    fun ht => ⟨m, .refl, by rwa [List.append_nil]⟩
  cases a with
  | prepare i b =>
    obtain rfl := Outcome.ok.inj ht
    refine ⟨_, .single rfl, ⟨l, hinv.prepare hguard b⟩, ?_, ?_, h.size, h.disk, h.data⟩
    · have hold := h.requests
      unfold Mem.requests at hold ⊢
      rw [List.filterMap_append, hold]
      exact List.append_nil _
    · dsimp only
      rw [h.buf]
  | iderw p i =>
    obtain ⟨hdev, hblock⟩ := hguard
    obtain ⟨hp, hlock, hsync⟩ := Sys.iderw_pre ht
    obtain ⟨hmem, head, qnext, hchain, heq⟩ := hinv.iderw_eq hp hlock hsync hblock
    obtain rfl := Outcome.ok.inj (heq.symm.trans ht)
    refine hsame (h.stutter (hinv.queue hmem hchain hp hlock hsync hdev hblock)
      rfl rfl rfl rfl rfl ?_)
    intro hdone
    cases l with
    | nil => exact absurd rfl (hinv.busy hdone)
    | cons j l => exact hinv.cmd.symm
  | finish =>
    obtain ⟨d, hd, rfl⟩ := Option.map_eq_some_iff.mp (Outcome.ofOption_eq_ok.mp ht)
    exact hsame (h.finish hd)
  | ideintr =>
    change (if s.drive.done then s.ideintr else .blocked) = .ok t at ht
    split_ifs at ht with hdone
    cases l with
    | nil => exact absurd rfl (hinv.busy hdone)
    | cons i l =>
      obtain rfl := Outcome.ok.inj (hinv.ideintr_eq.symm.trans ht)
      exact h.acknowledge hinv hdone
  | kill p =>
    obtain ⟨c, hc, rfl⟩ := Option.map_eq_some_iff.mp (Outcome.ofOption_eq_ok.mp ht)
    exact hsame (h.stutter (hinv.setCall hc fun _ => rfl) rfl rfl rfl rfl rfl fun _ => rfl)
  | run p =>
    obtain ⟨c, hc, -, rfl⟩ := Sys.run_cases ht
    exact hsame (h.stutter (hinv.wait hc) rfl rfl rfl rfl rfl fun _ => rfl)

theorem sim_of_run {buf : Fin NBUF → Buf P} {disk : ℕ → Disk} {labels : List (Act P)}
    (hrun : Run Sys.Step (Sys.init buf disk) labels s) :
    ∃ m, Run Mem.Step ⟨disk 1, FSSIZE, buf⟩ ((Sys.init buf disk).answers labels) m ∧
      Sim s ((Sys.init buf disk).answers labels) m := by
  induction hrun with
  | refl => exact ⟨_, .refl, sim_init buf disk⟩
  | snoc hrun hstep ih =>
    obtain ⟨m, hacts, h⟩ := ih
    obtain ⟨m', hmore, h'⟩ := h.step hstep
    rw [Sys.answers_snoc hrun]
    exact ⟨m', hacts.trans hmore, h'⟩

/-- The driver after any run: the queue holds no buffer twice and the drive has the command of its
head; the requests queued are those completed, in order, and those in the queue; a call of `iderw`
queues its request and returns only when that request was completed, with the buffer valid and
clean; and buffers and disk are those that `memide.c` has if it is called for each request when it
is completed, but for a command that the drive has finished and not yet reported. -/
theorem driver_refines {buf : Fin NBUF → Buf P} {disk : ℕ → Disk} {labels : List (Act P)}
    (hrun : Run Sys.Step (Sys.init buf disk) labels s) :
    (∃ l, Chain s.qnext s.idequeue l ∧ l.Nodup ∧
      s.drive.cmd = (l.head?.map fun i => command (s.buf i)) ∧ s.queued = s.completed ++ l) ∧
    (s.drive.done = true → ∃ i t, s.idequeue = some i ∧ s.next .ideintr = .ok t ∧
      t.completed = s.completed ++ [i] ∧ t.queued = s.queued) ∧
    (∀ p i, s.call p = none → (s.buf i).lock = some p → ¬ (s.buf i).Synced → (s.buf i).dev = 1 →
      (s.buf i).blockno < FSSIZE → ∃ t, s.next (.iderw p i) = .ok t ∧
        t.call p = some ⟨i, true, s.queued.length⟩ ∧ t.queued = s.queued ++ [i]) ∧
    (∀ p c t, s.call p = some c → Sys.Step s (.run p) t → t.call p = none →
      s.queued[c.ticket]? = some c.buf ∧ c.ticket < s.completed.length ∧ (s.buf c.buf).Synced) ∧
    ∃ m, Run Mem.Step ⟨disk 1, FSSIZE, buf⟩ ((Sys.init buf disk).answers labels) m ∧
      Mem.requests ((Sys.init buf disk).answers labels) = s.completed ∧
      m.buf = s.buf ∧ s.drive.disk 1 = s.drive.settle m.memdisk := by
  obtain ⟨m, hacts, h⟩ := sim_of_run hrun
  obtain ⟨l, hinv⟩ := h.queue
  refine ⟨⟨l, hinv.chain, hinv.nodup, hinv.cmd, hinv.order⟩, fun hdone => ?_,
    fun p i hp hlock hsync _ hblock => ?_, fun p c t hc hstep hret => ?_, m, hacts,
    h.requests, h.buf, h.disk⟩
  · cases l with
    | nil => exact absurd rfl (hinv.busy hdone)
    | cons i l =>
      refine ⟨i, s.acknowledge i l, hinv.chain.1, ?_, rfl, rfl⟩
      rw [Sys.next, if_pos hdone, hinv.ideintr_eq]
  · obtain ⟨-, head, qnext, -, heq⟩ := hinv.iderw_eq hp hlock hsync hblock
    exact ⟨_, heq, Function.update_self _ _ _, rfl⟩
  · obtain ⟨c', hc', -, rfl⟩ := Sys.run_cases hstep.2
    obtain rfl : c = c' := Option.some.inj (hc.symm.trans hc')
    have hsync := Sys.synced_of_wait_eq_none hret
    exact ⟨hinv.ticket p c hc, hinv.ticket_lt hc hsync, hsync⟩

end Memide

instance [Fintype P] (s : Sys P) (a : Act P) : Decidable (s.Guard a) := by
  cases a <;> unfold Sys.Guard <;> infer_instance

/-- Two processes queue a write and a read of one block; the reader is woken by `kill` before its
request is completed. -/
theorem driver_refines_read_after_write :
    let buf : Fin NBUF → Buf Bool := fun _ => ⟨1, 3, false, false, 1, some true, Bytes.zero BSIZE⟩
    let disk : ℕ → Disk := fun _ _ => Bytes.zero BSIZE
    let b : Buf Bool := ⟨1, 3, true, true, 1, some false, fun _ => 7⟩
    let labels : List (Act Bool) := [.prepare 0 b, .iderw false 0, .iderw true 1, .finish, .ideintr,
      .run false, .kill true, .run true, .finish, .ideintr, .run true]
    ∃ s, Run Sys.Step (Sys.init buf disk) labels s ∧ s.completed = [0, 1] ∧
      (s.buf 1).data.get 0 = 7 ∧
      ∃ m, Run Mem.Step ⟨disk 1, FSSIZE, buf⟩ [.prepare 0 b, .iderw false 0, .iderw true 1] m ∧
        m.buf = s.buf := by
  intro buf disk b labels
  obtain ⟨s, hrun, htest⟩ := exists_run_of_runList
    (guardedNext Sys.Guard fun s a => (s.next a).toOption)
    (guarded_of_guardedNext fun _ _ _ => Outcome.eq_ok_of_toOption) (Sys.init buf disk) labels
    (fun s => s.completed = [0, 1] ∧ (s.buf 1).data.get 0 = 7 ∧ s.call true = none)
    (by decide +kernel)
  simp only [Bool.decide_and, Bool.and_eq_true, decide_eq_true_eq] at htest
  obtain ⟨-, -, -, -, m, hacts, -, hbuf, -⟩ := driver_refines hrun
  exact ⟨s, hrun, htest.1, htest.2.1, m, hacts, hbuf⟩

end Xv6.Ide
