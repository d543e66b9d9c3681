import Mathlib.Algebra.Group.Nat.Defs
import Xv6.Console.Model

/-!
# The line discipline

The buffer holds the bytes that were committed and not yet taken, followed by the line that is
being edited. Editing changes the second part only, committing moves it to the first, and a read
takes bytes from the front. So what the reads take is what was committed, in the same order.
-/

namespace Xv6.Console

open Lib

/-- The buffer holds the bytes `queue` to be read, of which the first is the `base`-th ever
committed, and the line `edit`. -/
structure Holds (b : Input) (base : ℕ) (queue edit : List UInt8) : Prop where
  ring : Ring (2 ^ 32) b.buf b.r.toNat b.e.toNat base (queue ++ edit)
  write : b.w.toNat = (base + queue.length) % 2 ^ 32

/-- The difference of two counters. -/
theorem toNat_sub_of_mod {k w : UInt32} {a m : ℕ} (hk : k.toNat = a % 2 ^ 32)
    (hw : w.toNat = (a + m) % 2 ^ 32) (hm : m < 2 ^ 32) : (w - k).toNat = m := by
  rw [UInt32.toNat_sub, hk, hw]
  omega

theorem toNat_sub_eq_zero {a b : UInt32} : (a - b).toNat = 0 ↔ a = b := by
  have ha := a.toNat_lt
  have hb := b.toNat_lt
  rw [UInt32.toNat_sub, ← UInt32.toNat_inj]
  omega

namespace Holds

variable {b : Input} {base : ℕ} {queue edit : List UInt8} {x c : UInt8}

/-- Never more than the buffer holds. -/
theorem length_le (h : Holds b base queue edit) : queue.length + edit.length ≤ INPUT_BUF := by
  simpa using h.ring.le

/-- The read index as a number. -/
theorem read (h : Holds b base queue edit) : b.r.toNat = base % 2 ^ 32 := h.ring.read

theorem edit_eq (h : Holds b base queue edit) :
    b.e.toNat = (base + queue.length + edit.length) % 2 ^ 32 := by
  rw [h.ring.write, List.length_append, Nat.add_assoc]

/-- The bytes to be read. -/
theorem w_sub_r (h : Holds b base queue edit) : (b.w - b.r).toNat = queue.length := by
  have := h.length_le
  rw [INPUT_BUF] at this
  exact toNat_sub_of_mod h.read h.write (by omega)

/-- All bytes in the buffer. -/
theorem e_sub_r (h : Holds b base queue edit) : (b.e - b.r).toNat = queue.length + edit.length := by
  have := h.length_le
  rw [INPUT_BUF] at this
  exact toNat_sub_of_mod h.read (by rw [h.edit_eq, Nat.add_assoc]) (by omega)

/-- The bytes of the line being edited. -/
theorem e_sub_w (h : Holds b base queue edit) : (b.e - b.w).toNat = edit.length := by
  have := h.length_le
  rw [INPUT_BUF] at this
  exact toNat_sub_of_mod h.write h.edit_eq (by omega)

/-- The test of `consoleread` for an empty buffer. -/
theorem r_eq_w_iff (h : Holds b base queue edit) : b.r = b.w ↔ queue = [] := by
  rw [← List.length_eq_zero_iff, ← h.w_sub_r, toNat_sub_eq_zero]
  exact eq_comm

/-- The test for an empty line. -/
theorem e_eq_w_iff (h : Holds b base queue edit) : b.e = b.w ↔ edit = [] := by
  rw [← List.length_eq_zero_iff, ← h.e_sub_w, toNat_sub_eq_zero]

/-- The bytes in the buffer, by the read index. -/
theorem get (h : Holds b base queue edit) {i : ℕ} (hi : i < queue.length) :
    b.buf (Input.place (b.r + UInt32.ofNat i)) = queue[i] := by
  have hlen := h.length_le
  rw [INPUT_BUF] at hlen
  have hplace : (b.r + UInt32.ofNat i).toNat % INPUT_BUF = (base + i) % INPUT_BUF := by
    rw [UInt32.toNat_add, UInt32.toNat_ofNat', h.read, INPUT_BUF]
    omega
  have hget := h.ring.get i (by simp; omega) (Nat.mod_lt _ (by decide))
  rw [List.getElem_append_left hi] at hget
  rw [← hget]
  congr 1
  exact Fin.ext hplace

/-! ### Editing -/

/-- Backspace takes back the last byte. -/
theorem erase (h : Holds b base queue (edit ++ [x])) :
    b.buf (Input.place (b.e - 1)) = x ∧ Holds b.erase base queue edit := by
  have he : (b.e - 1).toNat = (b.e.toNat + (2 ^ 32 - 1)) % 2 ^ 32 := by
    rw [UInt32.toNat_sub, UInt32.toNat_one, Nat.add_comm]
  have hring := h.ring
  rw [← List.append_assoc] at hring
  obtain ⟨hx, hring⟩ := hring.unpush (by decide) (by decide) (Nat.mod_lt _ (by decide))
  refine ⟨?_, ?_, h.write⟩
  · refine Eq.trans (congrArg b.buf (Fin.ext ?_)) hx
    rw [Input.place_val, he]
  · rw [Input.erase_e, he]
    exact hring

/-- `C-U` takes back bytes of the line only. -/
theorem killLine (h : Holds b base queue edit) (n : ℕ) :
    ∃ edit', Holds (Input.killLine n b) base queue edit' ∧ (Input.killLine n b).w = b.w := by
  induction n generalizing b edit with
  | zero => exact ⟨edit, h, rfl⟩
  | succ n ih =>
    rw [Input.killLine]
    split_ifs with hcond
    · obtain ⟨edit, x, rfl⟩ := List.eq_nil_or_concat edit |>.resolve_left fun hnil =>
        hcond.1 (h.e_eq_w_iff.mpr hnil)
      rw [List.concat_eq_append] at h
      exact ih h.erase.2
    · exact ⟨edit, h, rfl⟩

/-- A byte is added to the line. -/
theorem put (h : Holds b base queue edit) (hroom : queue.length + edit.length < INPUT_BUF)
    (c : UInt8) : Holds (b.put c) base queue (edit ++ [c]) := by
  have hpush := h.ring.push (by decide) (by simpa using hroom) (Nat.mod_lt _ (by decide)) c
  refine ⟨?_, h.write⟩
  rw [Input.put_e, Input.put_buf, Input.put_r, UInt32.toNat_add, UInt32.toNat_one,
    ← List.append_assoc]
  exact hpush

/-- The line becomes readable. -/
theorem commit (h : Holds b base queue edit) : Holds b.commit base (queue ++ edit) [] := by
  refine ⟨?_, ?_⟩
  · rw [List.append_nil]
    exact h.ring
  · rw [Input.commit_w]
    exact h.ring.write

/-- The bytes between two values of the write index. -/
theorem since_eq {more : List UInt8} {k : UInt32} (h : Holds b base (queue ++ more) edit)
    (hk : k.toNat = (base + queue.length) % 2 ^ 32) : b.since k = more := by
  have hlen := h.length_le
  rw [List.length_append, INPUT_BUF] at hlen
  have hsub : (b.w - k).toNat = more.length :=
    toNat_sub_of_mod hk (by rw [h.write, List.length_append, Nat.add_assoc]) (by omega)
  rw [Input.since, hsub]
  refine List.ext_getElem (by simp) fun i hi hi' => ?_
  rw [List.getElem_map, List.getElem_range]
  have hi'' : queue.length + i < (queue ++ more).length := by
    rw [List.length_append]
    omega
  have hget := h.get hi''
  rw [List.getElem_append_right (by omega)] at hget
  simp only [Nat.add_sub_cancel_left] at hget
  rw [← hget]
  congr 2
  rw [← UInt32.toNat_inj, UInt32.toNat_add, UInt32.toNat_add, hk, h.read, UInt32.toNat_ofNat',
    UInt32.toNat_ofNat']
  omega

/-- A character changes the line and may commit it. -/
theorem insert (h : Holds b base queue edit) (c : UInt8) :
    ∃ more edit', Holds (b.insert c) base (queue ++ more) edit' := by
  rw [Input.insert]
  by_cases hroom : c ≠ 0 ∧ b.e - b.r < INPUT_BUF.toUInt32
  · rw [if_pos hroom]
    have hroom' : queue.length + edit.length < INPUT_BUF := by
      rw [← h.e_sub_r]
      exact UInt32.lt_iff_toNat_lt.mp hroom.2
    dsimp only
    generalize (if c = carriageReturn then newline else c) = c'
    have hput := h.put hroom' c'
    split_ifs
    · exact ⟨_, [], hput.commit⟩
    · exact ⟨[], _, by rw [List.append_nil]; exact hput⟩
  · rw [if_neg hroom]
    exact ⟨[], edit, by rwa [List.append_nil]⟩

/-- A character arrives. -/
theorem intr (h : Holds b base queue edit) (c : UInt8) :
    ∃ more edit', Holds (b.intr c) base (queue ++ more) edit' := by
  rw [Input.intr]
  split_ifs with hp hu hb hne
  · exact ⟨[], edit, by rwa [List.append_nil]⟩
  · obtain ⟨edit', hkill, -⟩ := h.killLine (b.e - b.w).toNat
    exact ⟨[], edit', by rwa [List.append_nil]⟩
  · obtain ⟨edit, x, rfl⟩ := List.eq_nil_or_concat edit |>.resolve_left fun hnil =>
      hne (h.e_eq_w_iff.mpr hnil)
    rw [List.concat_eq_append] at h
    exact ⟨[], edit, by rw [List.append_nil]; exact h.erase.2⟩
  · exact ⟨[], edit, by rwa [List.append_nil]⟩
  · exact h.insert c

/-! ### Reading -/

/-- `consoleread` takes the first byte. -/
theorem advance (h : Holds b base (x :: queue) edit) :
    b.front = x ∧ Holds b.advance (base + 1) queue edit := by
  obtain ⟨hx, hpop⟩ := h.ring.pop (by decide) (Nat.mod_lt _ (by decide))
  refine ⟨hx, ?_, ?_⟩
  · rw [Input.advance_r, UInt32.toNat_add, UInt32.toNat_one]
    exact hpop
  · rw [Input.advance_w, h.write, List.length_cons, Nat.add_assoc, Nat.add_comm 1]

end Holds

/-- Take the bytes `d` from the buffer. -/
def Sys.takes {P : Type} (s : Sys P) (c : Call) (d : List UInt8) : Sys P :=
  d.foldl (fun s x => s.take c x) s

/-- A call that has delivered the bytes `d` more. -/
@[simps -fullyApplied]
def Call.add (c : Call) (d : List UInt8) : Call := { c with got := c.got ++ d }

theorem Call.add_nil (c : Call) : c.add [] = c := by simp [Call.add]

section Reads

variable {P : Type} {s : Sys P} {c : Call} {queue edit d : List UInt8}

@[simp] theorem takes_nil : s.takes c [] = s := rfl

@[simp] theorem takes_cons {x : UInt8} : s.takes c (x :: d) = (s.take c x).takes c d := rfl

@[simp] theorem takes_call : (s.takes c d).call = s.call := by
  induction d generalizing s with
  | nil => rfl
  | cons x d ih => exact ih

@[simp] theorem takes_begun : (s.takes c d).begun = s.begun := by
  induction d generalizing s with
  | nil => rfl
  | cons x d ih => exact ih

@[simp] theorem takes_committed : (s.takes c d).committed = s.committed := by
  induction d generalizing s with
  | nil => rfl
  | cons x d ih => exact ih

@[simp] theorem takes_returned : (s.takes c d).returned = s.returned := by
  induction d generalizing s with
  | nil => rfl
  | cons x d ih => exact ih

@[simp] theorem takes_taken : (s.takes c d).taken = s.taken ++ d.map (Prod.mk c.id) := by
  induction d generalizing s with
  | nil => simp
  | cons x d ih => rw [takes_cons, ih, Sys.take_taken, List.map_cons, List.append_assoc]; rfl

/-- The number that a byte is tagged with is all that matters of the call. -/
theorem takes_congr {c' : Call} (hid : c'.id = c.id) : s.takes c' d = s.takes c d := by
  induction d generalizing s with
  | nil => rfl
  | cons x d ih =>
    rw [takes_cons, takes_cons, ih]
    simp only [Sys.take, hid]

/-- The buffer after some bytes were taken. -/
theorem Holds.takes (h : Holds s.input s.taken.length (d ++ queue) edit) :
    Holds (s.takes c d).input (s.takes c d).taken.length queue edit := by
  induction d generalizing s with
  | nil => exact h
  | cons x d ih =>
    refine ih ?_
    rw [Sys.take_taken, List.length_append, List.length_singleton]
    exact h.advance.2

variable [DecidableEq P]

/-- What a read by process `p` in call `c` does while it has the lock, with `n` bytes still to
deliver and `queue` to be read. -/
inductive ReadTrans (p : P) (s : Sys P) (c : Call) (n : ℕ) (queue : List UInt8) : Sys P → Prop
  /-- It takes all there is, and sleeps. -/
  | sleep (hd : ∀ x ∈ queue, x ≠ ctrl 'D' ∧ x ≠ newline) (hn : queue.length < n) :
      ReadTrans p s c n queue ((s.takes c queue).sleep p (c.add queue))
  /-- It has delivered as many bytes as asked for, or a line. -/
  | full {d rest : List UInt8} (hq : queue = d ++ rest) (hd : ∀ x ∈ d, x ≠ ctrl 'D')
      (hline : ∀ x ∈ d.dropLast, x ≠ newline) (hn : d.length ≤ n)
      (hend : d.length = n ∨ d.getLast? = some newline) :
      ReadTrans p s c n queue ((s.takes c d).ret p (c.add d))
  /-- It has come to an end-of-file mark, which it leaves. -/
  | kept {d rest : List UInt8} (hq : queue = d ++ ctrl 'D' :: rest)
      (hd : ∀ x ∈ d, x ≠ ctrl 'D' ∧ x ≠ newline) (hn : d.length < n)
      (hstarted : n - d.length < c.target) :
      ReadTrans p s c n queue ((s.takes c d).ret p (c.add d))
  /-- It has come to an end-of-file mark, which it takes. -/
  | eof {d rest : List UInt8} (hq : queue = d ++ ctrl 'D' :: rest)
      (hd : ∀ x ∈ d, x ≠ ctrl 'D' ∧ x ≠ newline) (hn : d.length < n)
      (hstart : c.target ≤ n - d.length) :
      ReadTrans p s c n queue (((s.takes c d).take c (ctrl 'D')).ret p (c.add d))

/-- One more byte in front. -/
theorem ReadTrans.cons {p : P} {t : Sys P} {n : ℕ} {x : UInt8}
    (h : ReadTrans p (s.take c x) (c.add [x]) n queue t) (hD : x ≠ ctrl 'D') (hline : x ≠ newline) :
    ReadTrans p s c (n + 1) (x :: queue) t := by
  have hadd : ∀ d, (c.add [x]).add d = c.add (x :: d) := fun d => by simp [Call.add]
  have htakes : ∀ d, (s.take c x).takes (c.add [x]) d = s.takes c (x :: d) := fun d =>
    takes_congr rfl
  have htake : ∀ u : Sys P, u.take (c.add [x]) = u.take c := fun _ => rfl
  have hclean : ∀ d : List UInt8, (∀ y ∈ d, y ≠ ctrl 'D' ∧ y ≠ newline) →
      ∀ y ∈ x :: d, y ≠ ctrl 'D' ∧ y ≠ newline := fun d hd =>
    List.forall_mem_cons.mpr ⟨⟨hD, hline⟩, hd⟩
  cases h with
  | sleep hd hn =>
    rw [htakes, hadd]
    exact .sleep (hclean _ hd) (by simpa using hn)
  | @full d rest hq hd hline' hn hend =>
    rw [htakes, hadd]
    refine .full (by rw [hq]; rfl) (List.forall_mem_cons.mpr ⟨hD, hd⟩) ?_ (by simpa using hn) ?_
    · cases d with
      | nil => simp
      | cons y d =>
        rw [List.dropLast_cons_cons]
        exact List.forall_mem_cons.mpr ⟨hline, hline'⟩
    · rcases hend with hlen | hlast
      · exact .inl (by simp [hlen])
      · cases d with
        | nil => cases hlast
        | cons y d => exact .inr (by rwa [List.getLast?_cons_cons])
  | kept hq hd hn hstarted =>
    rw [htakes, hadd]
    refine .kept (by rw [hq]; rfl) (hclean _ hd) (by simpa using hn) ?_
    rw [List.length_cons, Nat.add_sub_add_right]
    exact hstarted
  | eof hq hd hn hstart =>
    rw [htakes, hadd, htake]
    refine .eof (by rw [hq]; rfl) (hclean _ hd) (by simpa using hn) ?_
    rw [List.length_cons, Nat.add_sub_add_right]
    exact hstart

/-- The end-of-file mark is put back. -/
theorem Input.advance_retreat (b : Input) : b.advance.retreat = b := by
  cases b
  simp [Input.advance, Input.retreat]

/-- The loop of `consoleread` does one of these. -/
theorem readTrans_readLoop (p : P) (n : ℕ) (h : Holds s.input s.taken.length queue edit) :
    ReadTrans p s c n queue (Sys.readLoop p n s c) := by
  induction n generalizing s c queue with
  | zero =>
    have hret : ReadTrans p s c 0 queue ((s.takes c []).ret p (c.add [])) :=
      .full rfl (by simp) (by simp) le_rfl (.inl rfl)
    rwa [Call.add_nil] at hret
  | succ n ih =>
    rw [Sys.readLoop]
    cases queue with
    | nil =>
      rw [if_pos (h.r_eq_w_iff.mpr rfl)]
      have hsleep : ReadTrans p s c (n + 1) [] ((s.takes c []).sleep p (c.add [])) :=
        .sleep (by simp) (by simp)
      rwa [Call.add_nil] at hsleep
    | cons x queue =>
      obtain ⟨hx, hadv⟩ := h.advance
      have hne : s.input.r ≠ s.input.w := fun heq => by
        simpa using h.r_eq_w_iff.mp heq
      rw [if_neg hne, hx]
      by_cases hD : x = ctrl 'D'
      · rw [if_pos hD]
        subst hD
        by_cases hn : n + 1 < c.target
        · rw [if_pos hn, Input.advance_retreat]
          have hkept : ReadTrans p s c (n + 1) (ctrl 'D' :: queue)
              ((s.takes c []).ret p (c.add [])) := .kept rfl (by simp) (by simp) hn
          rwa [Call.add_nil] at hkept
        · rw [if_neg hn]
          have heof : ReadTrans p s c (n + 1) (ctrl 'D' :: queue)
              (((s.takes c []).take c (ctrl 'D')).ret p (c.add [])) :=
            .eof rfl (by simp) (by simp) (Nat.le_of_not_lt hn)
          rwa [Call.add_nil] at heof
      · rw [if_neg hD]
        by_cases hline : x = newline
        · rw [if_pos hline]
          exact .full (show x :: queue = [x] ++ queue from rfl) (by simpa using hD) (by simp)
            (by simp) (.inr (by simp [hline]))
        · rw [if_neg hline]
          refine ReadTrans.cons (ih ?_) hD hline
          rw [Sys.take_taken, List.length_append, List.length_singleton]
          exact hadv

end Reads

/-! ### The queue -/

/-- The bytes that were committed and not yet taken are in the buffer. -/
def LineInv {P : Type} (s : Sys P) : Prop :=
  ∃ queue edit, Holds s.input s.taken.length queue edit ∧
    s.committed = s.taken.map Prod.snd ++ queue

namespace LineInv

variable {P : Type} {s t : Sys P}

theorem init : LineInv (Sys.init : Sys P) := ⟨[], [], ⟨Ring.nil _, rfl⟩, rfl⟩

/-- A character arrives. -/
theorem intr (h : LineInv s) (c : UInt8) : LineInv (s.intr c) := by
  obtain ⟨queue, edit, hholds, hcommitted⟩ := h
  obtain ⟨more, edit', hintr⟩ := hholds.intr c
  refine ⟨queue ++ more, edit', hintr, ?_⟩
  rw [Sys.intr_committed, Sys.intr_taken, hintr.since_eq hholds.write, hcommitted,
    List.append_assoc]

/-- Some characters arrive. -/
theorem intrs (h : LineInv s) (cs : List UInt8) : LineInv (cs.foldl Sys.intr s) := by
  induction cs generalizing s with
  | nil => exact h
  | cons c cs ih => exact ih (h.intr c)

variable [DecidableEq P] {p : P} {c : Call} {n : ℕ} {queue edit : List UInt8}

/-- What a reader does keeps the line in order. -/
theorem readTrans (hholds : Holds s.input s.taken.length queue edit)
    (hcommitted : s.committed = s.taken.map Prod.snd ++ queue) (h : ReadTrans p s c n queue t) :
    LineInv t := by
  cases h with
  | sleep =>
    refine ⟨[], edit, Holds.takes (c := c) (by rwa [List.append_nil]), ?_⟩
    simp [hcommitted, Function.comp_def]
  | @full d rest hq | @kept d rest hq =>
    rw [hq] at hholds hcommitted
    refine ⟨_, edit, hholds.takes (c := c), ?_⟩
    simp [hcommitted, Function.comp_def]
  | @eof d rest hq =>
    rw [hq] at hholds hcommitted
    obtain ⟨-, hadv⟩ := (hholds.takes (c := c)).advance
    refine ⟨rest, edit, ?_, ?_⟩
    · rw [Sys.ret_taken, Sys.take_taken, List.length_append, List.length_singleton]
      exact hadv
    · simp [hcommitted, Function.comp_def]

/-- Every step keeps the line in order. -/
theorem step (h : LineInv s) {a : Action P} (hst : s.Step a t) : LineInv t := by
  unfold Sys.Step Sys.next at hst
  split at hst
  case h_1 cs =>
    cases hst
    exact h.intrs cs
  case h_2 p n =>
    split at hst
    · cases hst
      exact h
    · cases hst
  case h_3 p =>
    split at hst
    · cases hst
    · cases hst
      obtain ⟨queue, edit, hholds, hcommitted⟩ := h
      exact readTrans hholds hcommitted (readTrans_readLoop p _ hholds)

end LineInv

/-! ### The calls -/

/-- The bytes that call number `id` has delivered, oldest first. -/
def delivered (id : ℕ) (taken : List (ℕ × UInt8)) : List UInt8 :=
  (taken.filter fun x => x.1 = id ∧ x.2 ≠ ctrl 'D').map Prod.snd

/-- What a call takes is delivered to it, but for end-of-file marks. -/
theorem delivered_append_self (id : ℕ) (taken : List (ℕ × UInt8)) (l : List UInt8) :
    delivered id (taken ++ l.map (Prod.mk id)) =
      delivered id taken ++ l.filter fun x => x ≠ ctrl 'D' := by
  simp [delivered, List.filter_append, List.filter_map, Function.comp_def]

/-- It is delivered to no other call. -/
theorem delivered_append_of_ne {id k : ℕ} (h : k ≠ id) (taken : List (ℕ × UInt8)) (l : List UInt8) :
    delivered id (taken ++ l.map (Prod.mk k)) = delivered id taken := by
  simp [delivered, List.filter_append, List.filter_map, Function.comp_def, h]

theorem delivered_of_lt {id : ℕ} {taken : List (ℕ × UInt8)} (h : ∀ x ∈ taken, x.1 < id) :
    delivered id taken = [] := by
  rw [delivered, List.filter_eq_nil_iff.mpr, List.map_nil]
  intro x hx
  have := h x hx
  simp
  omega

/-- End-of-file marks are not delivered. -/
theorem ne_of_mem_delivered {id : ℕ} {taken : List (ℕ × UInt8)} {x : UInt8}
    (h : x ∈ delivered id taken) : x ≠ ctrl 'D' := by
  simp only [delivered, List.mem_map, List.mem_filter, decide_eq_true_eq] at h
  obtain ⟨y, ⟨-, -, hy⟩, rfl⟩ := h
  exact hy

/-- What the calls have delivered. -/
structure CallInv {P : Type} (s : Sys P) : Prop where
  taken : ∀ x ∈ s.taken, x.1 < s.begun
  active : ∀ p c, s.call p = some c → c.id < s.begun ∧ c.got = delivered c.id s.taken ∧
    c.got.length ≤ c.target ∧ ∀ x ∈ c.got, x ≠ newline
  unique : ∀ p q c d, s.call p = some c → s.call q = some d → c.id = d.id → p = q
  done : ∀ c ∈ s.returned, c.id < s.begun ∧ (∀ p d, s.call p = some d → d.id ≠ c.id) ∧
    c.got = delivered c.id s.taken ∧ c.got.length ≤ c.target ∧ ∀ x ∈ c.got.dropLast, x ≠ newline
  once : s.returned.Pairwise fun c d => c.id ≠ d.id

namespace CallInv

variable {P : Type} {s t : Sys P}

theorem init : CallInv (Sys.init : Sys P) := by
  refine ⟨?_, ?_, ?_, ?_, ?_⟩ <;> simp [Sys.init]

theorem congr (h : CallInv s) (hcall : t.call = s.call) (hbegun : t.begun = s.begun)
    (htaken : t.taken = s.taken) (hreturned : t.returned = s.returned) : CallInv t := by
  obtain ⟨h₁, h₂, h₃, h₄, h₅⟩ := h
  rw [← hcall] at h₂ h₃ h₄
  rw [← hbegun] at h₁ h₂ h₄
  rw [← htaken] at h₁ h₂ h₄
  rw [← hreturned] at h₄ h₅
  exact ⟨h₁, h₂, h₃, h₄, h₅⟩

/-- Some characters arrive. -/
theorem intrs (h : CallInv s) (cs : List UInt8) : CallInv (cs.foldl Sys.intr s) := by
  induction cs generalizing s with
  | nil => exact h
  | cons c cs ih => exact ih (h.congr rfl rfl rfl rfl)

variable [DecidableEq P] {p : P} {c : Call} {n : ℕ} {queue d : List UInt8}

/-- A call begins. -/
theorem read (h : CallInv s) (hp : s.call p = none) (n : ℤ) :
    CallInv { s.sleep p ⟨s.begun, n, []⟩ with begun := s.begun + 1 } := by
  have hcall : ∀ q c, (s.sleep p ⟨s.begun, n, []⟩).call q = some c →
      q = p ∧ c = ⟨s.begun, n, []⟩ ∨ s.call q = some c := by
    intro q c hq
    rw [Sys.sleep_call] at hq
    by_cases hqp : q = p
    · subst hqp
      rw [Function.update_self] at hq
      exact .inl ⟨rfl, (Option.some.inj hq).symm⟩
    · rw [Function.update_of_ne hqp] at hq
      exact .inr hq
  refine ⟨fun x hx => ?_, fun q c hq => ?_, fun q r c d hq hr hid => ?_, fun c hc => ?_, h.once⟩
  · exact Nat.lt_succ_of_lt (h.taken x hx)
  · rcases hcall q c hq with ⟨-, rfl⟩ | hq
    · exact ⟨Nat.lt_succ_self _, (delivered_of_lt h.taken).symm, Nat.zero_le _, by simp⟩
    · obtain ⟨hlt, hrest⟩ := h.active q c hq
      exact ⟨Nat.lt_succ_of_lt hlt, hrest⟩
  · rcases hcall q c hq with ⟨hqp, rfl⟩ | hq' <;> rcases hcall r d hr with ⟨hrp, rfl⟩ | hr'
    · exact hqp.trans hrp.symm
    · exact absurd hid (h.active r d hr').1.ne'
    · exact absurd hid (h.active q c hq').1.ne
    · exact h.unique q r c d hq' hr' hid
  · obtain ⟨hlt, hother, hrest⟩ := h.done c hc
    refine ⟨Nat.lt_succ_of_lt hlt, fun q d hq => ?_, hrest⟩
    rcases hcall q d hq with ⟨-, rfl⟩ | hq
    · exact hlt.ne'
    · exact hother q d hq

omit [DecidableEq P] in
/-- What the bytes `l` taken by call `c`, of which `d` are delivered, mean for the calls. -/
theorem takes (h : CallInv s) (hc : s.call p = some c) {l : List UInt8}
    (hl : l.filter (fun x => x ≠ ctrl 'D') = d) :
    (∀ x ∈ s.taken ++ l.map (Prod.mk c.id), x.1 < s.begun) ∧
      (c.add d).got = delivered c.id (s.taken ++ l.map (Prod.mk c.id)) ∧
      (∀ q e, q ≠ p → s.call q = some e →
        delivered e.id (s.taken ++ l.map (Prod.mk c.id)) = delivered e.id s.taken) ∧
      ∀ e ∈ s.returned,
        delivered e.id (s.taken ++ l.map (Prod.mk c.id)) = delivered e.id s.taken := by
  obtain ⟨hlt, hgot, -⟩ := h.active p c hc
  refine ⟨fun x hx => ?_, ?_, fun q e hq he => ?_, fun e he => ?_⟩
  · rcases List.mem_append.mp hx with hx | hx
    · exact h.taken x hx
    · obtain ⟨y, -, rfl⟩ := List.mem_map.mp hx
      exact hlt
  · rw [delivered_append_self, hl, ← hgot, Call.add_got]
  · exact delivered_append_of_ne (fun hid => hq (h.unique p q c e hc he hid).symm) _ _
  · exact delivered_append_of_ne ((h.done e he).2.1 p c hc) _ _

/-- The call goes on. -/
theorem sleep (h : CallInv s) (hc : s.call p = some c)
    (hd : ∀ x ∈ d, x ≠ ctrl 'D' ∧ x ≠ newline) (hlen : c.got.length + d.length ≤ c.target) :
    CallInv ((s.takes c d).sleep p (c.add d)) := by
  obtain ⟨hlt, -, -, hline⟩ := h.active p c hc
  obtain ⟨htaken, hgot, hother, hdone⟩ := h.takes hc (l := d) (d := d)
    (List.filter_eq_self.mpr fun x hx => by simpa using (hd x hx).1)
  refine ⟨?_, fun q e hq => ?_, fun q r e f hq hr hid => ?_, fun e he => ?_, ?_⟩
  · simpa using htaken
  · simp only [Sys.sleep_call, takes_call] at hq
    -- the call of `p` has got `d` more; the other calls are as before
    by_cases hqp : q = p
    · subst hqp
      rw [Function.update_self] at hq
      obtain rfl := Option.some.inj hq
      refine ⟨by simpa using hlt, by simpa using hgot, by simpa [Call.target] using hlen,
        fun x hx => ?_⟩
      rcases List.mem_append.mp hx with hx | hx
      exacts [hline x hx, (hd x hx).2]
    · rw [Function.update_of_ne hqp] at hq
      obtain ⟨h₁, h₂, h₃⟩ := h.active q e hq
      exact ⟨by simpa using h₁, by simpa [hother q e hqp hq] using h₂, h₃⟩
  · -- the calls of all processes have the numbers they had
    have hid' : ∀ q e, ((s.takes c d).sleep p (c.add d)).call q = some e →
        ∃ e', s.call q = some e' ∧ e'.id = e.id := by
      intro q e hq
      simp only [Sys.sleep_call, takes_call] at hq
      by_cases hqp : q = p
      · subst hqp
        rw [Function.update_self] at hq
        exact ⟨c, hc, by rw [← Option.some.inj hq]; rfl⟩
      · rw [Function.update_of_ne hqp] at hq
        exact ⟨e, hq, rfl⟩
    obtain ⟨e', he', hide⟩ := hid' q e hq
    obtain ⟨f', hf', hidf⟩ := hid' r f hr
    exact h.unique q r e' f' he' hf' (by rw [hide, hidf, hid])
  · simp only [Sys.sleep_returned, takes_returned] at he
    obtain ⟨h₁, h₂, h₃, h₄⟩ := h.done e he
    refine ⟨by simpa using h₁, fun q f hq => ?_, by simpa [hdone e he] using h₃, h₄⟩
    simp only [Sys.sleep_call, takes_call] at hq
    by_cases hqp : q = p
    · subst hqp
      rw [Function.update_self] at hq
      rw [← Option.some.inj hq]
      exact h₂ q c hc
    · rw [Function.update_of_ne hqp] at hq
      exact h₂ q f hq
  · simpa using h.once

/-- The call returns. -/
theorem ret (h : CallInv s) (hc : s.call p = some c) {u : Sys P} {l : List UInt8}
    (hl : l.filter (fun x => x ≠ ctrl 'D') = d) (hline : ∀ x ∈ d.dropLast, x ≠ newline)
    (hlen : c.got.length + d.length ≤ c.target) (hcall : u.call = s.call)
    (hbegun : u.begun = s.begun) (hreturned : u.returned = s.returned)
    (htaken : u.taken = s.taken ++ l.map (Prod.mk c.id)) : CallInv (u.ret p (c.add d)) := by
  obtain ⟨hlt, -, -, hline'⟩ := h.active p c hc
  obtain ⟨htaken', hgot, hother, hdone⟩ := h.takes hc hl
  -- the calls that are still active are those of the other processes
  have hactive : ∀ q e, (u.ret p (c.add d)).call q = some e → q ≠ p ∧ s.call q = some e := by
    intro q e hq
    rw [Sys.ret_call, hcall] at hq
    by_cases hqp : q = p
    · subst hqp
      rw [Function.update_self] at hq
      cases hq
    · rw [Function.update_of_ne hqp] at hq
      exact ⟨hqp, hq⟩
  refine ⟨?_, fun q e hq => ?_, fun q r e f hq hr hid => ?_, fun e he => ?_, ?_⟩
  · rw [Sys.ret_taken, Sys.ret_begun, htaken, hbegun]
    exact htaken'
  · obtain ⟨hqp, hq⟩ := hactive q e hq
    obtain ⟨h₁, h₂, h₃⟩ := h.active q e hq
    rw [Sys.ret_taken, Sys.ret_begun, htaken, hbegun, hother q e hqp hq]
    exact ⟨h₁, h₂, h₃⟩
  · exact h.unique q r e f (hactive q e hq).2 (hactive r f hr).2 hid
  · rw [Sys.ret_returned, hreturned, List.mem_append, List.mem_singleton] at he
    rw [Sys.ret_taken, Sys.ret_begun, htaken, hbegun]
    rcases he with he | rfl
    · obtain ⟨h₁, h₂, h₃, h₄⟩ := h.done e he
      exact ⟨h₁, fun q f hq => h₂ q f (hactive q f hq).2, by rw [hdone e he]; exact h₃, h₄⟩
    · refine ⟨hlt, fun q f hq hid => ?_, hgot, by simpa [Call.target] using hlen, fun x hx => ?_⟩
      · obtain ⟨hqp, hq⟩ := hactive q f hq
        exact hqp (h.unique q p f c hq hc hid)
      · rw [Call.add_got] at hx
        cases d with
        | nil =>
          rw [List.append_nil] at hx
          exact hline' x (List.dropLast_subset _ hx)
        | cons y d =>
          rw [List.dropLast_append_cons, List.mem_append] at hx
          rcases hx with hx | hx
          exacts [hline' x hx, hline x hx]
  · rw [Sys.ret_returned, hreturned]
    refine List.pairwise_append.mpr ⟨h.once, List.pairwise_singleton _ _, fun e he f hf => ?_⟩
    rw [List.mem_singleton.mp hf]
    exact fun hid => (h.done e he).2.1 p c hc hid.symm

/-- What a reader does keeps the calls in order. -/
theorem readTrans (h : CallInv s) (hc : s.call p = some c)
    (hst : ReadTrans p s c (c.target - c.got.length) queue t) : CallInv t := by
  have hlen := (h.active p c hc).2.2.1
  cases hst with
  | sleep hd hn => exact h.sleep hc hd (by omega)
  | full hq hd hline hn hend =>
    exact h.ret hc (List.filter_eq_self.mpr fun x hx => by simpa using hd x hx) hline (by omega)
      takes_call takes_begun takes_returned takes_taken
  | @kept d rest hq hd hn hstarted =>
    exact h.ret hc (List.filter_eq_self.mpr fun x hx => by simpa using (hd x hx).1)
      (fun x hx => (hd x (List.dropLast_subset _ hx)).2) (by omega)
      takes_call takes_begun takes_returned takes_taken
  | @eof d rest hq hd hn hstart =>
    refine h.ret hc (l := d ++ [ctrl 'D']) ?_ (fun x hx => (hd x (List.dropLast_subset _ hx)).2)
      (by omega) takes_call takes_begun takes_returned ?_
    · rw [List.filter_append, List.filter_eq_self.mpr fun x hx => by simpa using (hd x hx).1]
      simp
    · simp

/-- Every step keeps the calls in order. -/
theorem step (h : CallInv s) (hinv : LineInv s) {a : Action P} (hst : s.Step a t) : CallInv t := by
  unfold Sys.Step Sys.next at hst
  split at hst
  case h_1 cs =>
    cases hst
    exact h.intrs cs
  case h_2 p n =>
    split at hst
    case h_1 hp =>
      cases hst
      exact h.read hp n
    case h_2 => cases hst
  case h_3 p =>
    split at hst
    case h_1 => cases hst
    case h_2 c hc =>
      cases hst
      obtain ⟨queue, edit, hholds, -⟩ := hinv
      exact h.readTrans hc (readTrans_readLoop p _ hholds)

end CallInv

/-! ### Steps -/

theorem Holds.since_r {b : Input} {base : ℕ} {queue edit : List UInt8}
    (h : Holds b base queue edit) : b.since b.r = queue :=
  Holds.since_eq (show Holds b base ([] ++ queue) edit from h) h.read

/-- What was committed and not taken is in the buffer. -/
theorem LineInv.committed_eq {P : Type} {s : Sys P} (h : LineInv s) :
    s.committed = s.taken.map Prod.snd ++ s.input.since s.input.r := by
  obtain ⟨queue, edit, hholds, hcommitted⟩ := h
  rw [hcommitted, hholds.since_r]

section Steps

variable {P : Type} [DecidableEq P] {s t : Sys P} {p : P} {c c' : Call} {n : ℕ}

/-- A process that gets the lock makes a read on the bytes in the buffer. -/
theorem LineInv.run (h : LineInv s) (hst : s.Step (.run p) t) :
    ∃ c, s.call p = some c ∧
      ReadTrans p s c (c.target - c.got.length) (s.input.since s.input.r) t := by
  obtain ⟨queue, edit, hholds, -⟩ := h
  rw [hholds.since_r]
  unfold Sys.Step Sys.next at hst
  dsimp only at hst
  split at hst
  case h_1 => cases hst
  case h_2 c hc =>
    cases hst
    exact ⟨c, hc, readTrans_readLoop p _ hholds⟩

omit [DecidableEq P] in
/-- Arriving characters only add to what is committed. -/
theorem intrs_frame (cs : List UInt8) :
    s.committed <+: (cs.foldl Sys.intr s).committed ∧ (cs.foldl Sys.intr s).taken = s.taken ∧
      (cs.foldl Sys.intr s).returned = s.returned := by
  induction cs generalizing s with
  | nil => exact ⟨List.prefix_rfl, rfl, rfl⟩
  | cons x cs ih =>
    obtain ⟨h₁, h₂, h₃⟩ := ih (s := s.intr x)
    exact ⟨(List.prefix_append _ _).trans h₁, h₂, h₃⟩

/-- A step that is not a read takes nothing, and commits at the end. -/
theorem step_frame {a : Action P} (hst : s.Step a t) (ha : ∀ p, a ≠ .run p) :
    s.committed <+: t.committed ∧ t.taken = s.taken ∧ t.returned = s.returned := by
  unfold Sys.Step Sys.next at hst
  split at hst
  case h_1 cs =>
    cases hst
    exact intrs_frame cs
  case h_2 p n =>
    split at hst
    · cases hst
      exact ⟨List.prefix_rfl, rfl, rfl⟩
    · cases hst
  case h_3 p => exact absurd rfl (ha p)

variable {queue : List UInt8}

/-- Reading only adds to what is taken. -/
theorem ReadTrans.prefixes (h : ReadTrans p s c n queue t) :
    t.committed = s.committed ∧ s.taken <+: t.taken := by
  cases h <;> simp

/-- Why a read returns. -/
theorem ReadTrans.reason (h : ReadTrans p s c n queue t) (hlen : c.got.length ≤ c.target)
    (hn : n = c.target - c.got.length) (hret : t.returned = s.returned ++ [c']) :
    c'.got.length = c'.target ∨ c'.got.getLast? = some newline ∨
      (c'.got = [] ∧ t.taken = s.taken ++ [(c'.id, ctrl 'D')]) ∨
        c'.got ≠ [] ∧ ∃ d rest, queue = d ++ ctrl 'D' :: rest ∧ c'.got = c.got ++ d ∧
          t.taken = s.taken ++ d.map (Prod.mk c'.id) := by
  cases h with
  | sleep => simp at hret
  | @full d rest hq hd hline hle hend =>
    simp only [Sys.ret_returned, takes_returned, List.append_cancel_left_eq, List.cons.injEq,
      and_true] at hret
    subst hret
    rcases hend with hend | hend
    · left
      simp only [Call.add_got, Call.target, Call.add_n, List.length_append] at *
      omega
    · refine .inr (.inl ?_)
      rw [Call.add_got, List.getLast?_append, hend]
      rfl
  | @kept d rest hq hd hle hstarted =>
    simp only [Sys.ret_returned, takes_returned, List.append_cancel_left_eq, List.cons.injEq,
      and_true] at hret
    subst hret
    refine .inr (.inr (.inr ⟨fun hnil => ?_, d, rest, hq, rfl, by simp⟩))
    rw [Call.add_got, List.append_eq_nil_iff] at hnil
    have hgot := congrArg List.length hnil.1
    have hd := congrArg List.length hnil.2
    rw [List.length_nil] at hgot hd
    omega
  | @eof d rest hq hd hle hstart =>
    simp only [Sys.ret_returned, Sys.take_returned, takes_returned, List.append_cancel_left_eq,
      List.cons.injEq, and_true] at hret
    subst hret
    have hgot : c.got = [] := List.length_eq_zero_iff.mp (by omega)
    have hd : d = [] := List.length_eq_zero_iff.mp (by omega)
    refine .inr (.inr (.inl ⟨?_, ?_⟩))
    · rw [Call.add_got, hgot, hd, List.append_nil]
    · simp [hd]

/-- A read that finds an end-of-file mark. -/
theorem ReadTrans.mark {rest : List UInt8} (h : ReadTrans p s c n (ctrl 'D' :: rest) t)
    (hlen : c.got.length < c.target) (hn : n = c.target - c.got.length) :
    t.returned = s.returned ++ [c] ∧ (c.got = [] → t.taken = s.taken ++ [(c.id, ctrl 'D')]) ∧
      (c.got ≠ [] → t.taken = s.taken) := by
  -- nothing can be delivered before the mark
  have hnil : ∀ {d more : List UInt8}, ctrl 'D' :: rest = d ++ more → (∀ x ∈ d, x ≠ ctrl 'D') →
      d = [] := by
    intro d more hq hd
    cases d with
    | nil => rfl
    | cons y d => exact absurd (List.cons.inj hq).1.symm (hd y List.mem_cons_self)
  cases h with
  | sleep hd => exact absurd rfl (hd (ctrl 'D') List.mem_cons_self).1
  | full hq hd hline hle hend =>
    obtain rfl := hnil hq hd
    rcases hend with hend | hend
    · rw [List.length_nil] at hend
      omega
    · cases hend
  | kept hq hd hle hstarted =>
    obtain rfl := hnil hq fun x hx => (hd x hx).1
    refine ⟨by simp [Call.add_nil], fun hgot => ?_, fun _ => by simp⟩
    rw [hgot] at hn
    simp only [List.length_nil] at *
    omega
  | eof hq hd hle hstart =>
    obtain rfl := hnil hq fun x hx => (hd x hx).1
    refine ⟨by simp [Call.add_nil], fun _ => by simp, fun hgot => ?_⟩
    have := List.length_pos_iff.mpr hgot
    simp only [List.length_nil] at *
    omega

end Steps

/-- In every reachable state: the indices are in order; the bytes committed are those taken,
followed by those in the buffer from the read index to the write index; and each call that has
returned has delivered what it took apart from end-of-file marks, at most `n` bytes and at most
one line. Every step adds to what was committed and taken at the end. A read returns with `n`
bytes, after a newline, or at an end-of-file mark; it takes the mark if it has delivered nothing,
and otherwise leaves it at the front. -/
theorem console_line_discipline {P : Type} [DecidableEq P] {s : Sys P} {labels : List (Action P)}
    (hrun : Run Sys.Step Sys.init labels s) :
    ((s.input.w - s.input.r).toNat ≤ (s.input.e - s.input.r).toNat ∧
      (s.input.e - s.input.r).toNat ≤ INPUT_BUF) ∧
    s.committed = s.taken.map Prod.snd ++ s.input.since s.input.r ∧
    (∀ c ∈ s.returned, c.got = delivered c.id s.taken ∧ c.got.length ≤ c.n.toNat ∧
      ctrl 'D' ∉ c.got ∧ newline ∉ c.got.dropLast) ∧
    s.returned.Pairwise (fun c d => c.id ≠ d.id) ∧
    (∀ a t, s.Step a t → s.committed <+: t.committed ∧ s.taken <+: t.taken ∧
      ((∀ p, a ≠ .run p) → t.taken = s.taken ∧ t.returned = s.returned)) ∧
    ∀ p t, s.Step (.run p) t → ∃ c, s.call p = some c ∧
      (∀ c', t.returned = s.returned ++ [c'] →
        c'.got.length = c'.n.toNat ∨ c'.got.getLast? = some newline ∨
          (c'.got = [] ∧ t.taken = s.taken ++ [(c'.id, ctrl 'D')]) ∨
          (c'.got ≠ [] ∧ (t.input.since t.input.r).head? = some (ctrl 'D'))) ∧
      (c.got.length < c.n.toNat → (s.input.since s.input.r).head? = some (ctrl 'D') →
        t.returned = s.returned ++ [c] ∧
          (c.got = [] → t.taken = s.taken ++ [(c.id, ctrl 'D')]) ∧
          (c.got ≠ [] → t.taken = s.taken ∧ (t.input.since t.input.r).head? =
            some (ctrl 'D'))) := by
  obtain ⟨hline, hcall⟩ : LineInv s ∧ CallInv s :=
    hrun.invariant (I := fun s => LineInv s ∧ CallInv s) ⟨LineInv.init, CallInv.init⟩
      fun u a v ⟨h₁, h₂⟩ hst => ⟨h₁.step hst, h₂.step h₁ hst⟩
  have hbounds : (s.input.w - s.input.r).toNat ≤ (s.input.e - s.input.r).toNat ∧
      (s.input.e - s.input.r).toNat ≤ INPUT_BUF := by
    obtain ⟨queue, edit, hholds, -⟩ := hline
    rw [hholds.w_sub_r, hholds.e_sub_r]
    exact ⟨Nat.le_add_right _ _, hholds.length_le⟩
  refine ⟨hbounds, hline.committed_eq, fun c hc => ?_, hcall.once, fun a t hst => ?_,
    fun p t hst => ?_⟩
  · obtain ⟨-, -, hgot, hlen, hnl⟩ := hcall.done c hc
    refine ⟨hgot, hlen, fun hD => ?_, fun hmem => hnl _ hmem rfl⟩
    rw [hgot] at hD
    exact ne_of_mem_delivered hD rfl
  · by_cases ha : ∃ p, a = .run p
    · obtain ⟨p, rfl⟩ := ha
      obtain ⟨c, -, hread⟩ := hline.run hst
      obtain ⟨h₁, h₂⟩ := hread.prefixes
      exact ⟨h₁ ▸ List.prefix_rfl, h₂, fun h => absurd rfl (h p)⟩
    · have ha' : ∀ p, a ≠ .run p := fun p hp => ha ⟨p, hp⟩
      obtain ⟨h₁, h₂, h₃⟩ := step_frame hst ha'
      exact ⟨h₁, h₂ ▸ List.prefix_rfl, fun _ => ⟨h₂, h₃⟩⟩
  · obtain ⟨c, hc, hread⟩ := hline.run hst
    have hlen := (hcall.active p c hc).2.2.1
    -- what is left in the buffer is what was there, without the bytes taken
    have hleft : s.taken.map Prod.snd ++ s.input.since s.input.r =
        t.taken.map Prod.snd ++ t.input.since t.input.r := by
      rw [← hline.committed_eq, ← (hline.step hst).committed_eq, hread.prefixes.1]
    refine ⟨c, hc, fun c' hret => ?_, fun hlt hhead => ?_⟩
    · rcases hread.reason hlen rfl hret with h | h | h | ⟨hne, d, rest, hq, -, htaken⟩
      · exact .inl h
      · exact .inr (.inl h)
      · exact .inr (.inr (.inl h))
      · refine .inr (.inr (.inr ⟨hne, ?_⟩))
        rw [hq, htaken, List.map_append, List.append_assoc, List.append_cancel_left_eq] at hleft
        have hd : (d.map (Prod.mk c'.id)).map Prod.snd = d := by simp [Function.comp_def]
        rw [hd, List.append_cancel_left_eq] at hleft
        rw [← hleft]
        rfl
    · obtain ⟨rest, hq⟩ := List.head?_eq_some_iff.mp hhead
      rw [hq] at hread
      obtain ⟨hret, hnil, hne⟩ := hread.mark hlt rfl
      refine ⟨hret, hnil, fun hgot => ⟨hne hgot, ?_⟩⟩
      rw [hne hgot, List.append_cancel_left_eq] at hleft
      rw [← hleft]
      exact hhead

/-- Two characters and an end-of-file mark: the first read delivers the characters and leaves the
mark, and the second one returns 0. -/
theorem console_line_discipline_two_reads :
    ∃ (labels : List (Action Bool)) (s : Sys Bool), Run Sys.Step Sys.init labels s ∧
      s.returned.map Call.got = [[97, 98], []] ∧
      s.committed = s.taken.map Prod.snd ++ s.input.since s.input.r := by
  obtain ⟨s, hrun, htest⟩ := exists_run_of_runList Sys.next (fun _ _ _ h => h)
    (Sys.init : Sys Bool)
    [.read true 10, .run true, .intr [97, 99, ctrl 'H', 98, ctrl 'D'], .run true, .read false 5,
      .run false]
    (fun s => s.returned.map Call.got = [[97, 98], []]) (by decide +kernel)
  exact ⟨_, s, hrun, by simpa using htest, (console_line_discipline hrun).2.1⟩

end Xv6.Console
