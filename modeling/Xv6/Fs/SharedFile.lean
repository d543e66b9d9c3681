import Mathlib.Algebra.BigOperators.Fin
import Mathlib.Algebra.Order.BigOperators.Group.Finset
import Xv6.Fs.Filewrite

/-!
# Writers that share an open file

Any number of processes call `filewrite` on one `struct file` of a regular file. The steps of
different calls interleave; `ip->lock` is held from before `f->off` is read until after it is moved.
Each chunk is a transaction; the wait for the log in `begin_op` is left out, and so is `end_op`.
Beside the kernel's own state the system keeps a history: the buffers of the calls begun, the chunks
written, each with the number of its call, and what the calls returned.
-/

namespace Xv6.Fs

open Lib

/-! ### The system -/

/-- A call of `filewrite`: its number, and the count it was given. -/
structure WriteCall where
  id : ℕ
  n : ℕ
  deriving DecidableEq

/-- The next statement of a process in `filewrite`; `src` is what is left of its buffer. -/
inductive WritePc
  /-- Not in a call. -/
  | out
  /-- The test of the loop, and `ilock`. -/
  | test (w : WriteCall) (src : List UInt8)
  /-- `writei`. -/
  | locked (w : WriteCall) (src : List UInt8)
  /-- `f->off += r`. -/
  | wrote (w : WriteCall) (src : List UInt8) (r : Option ℕ)
  /-- `iunlock`, and the tests of `r`. -/
  | unlock (w : WriteCall) (src : List UInt8) (r : Option ℕ)
  deriving DecidableEq

/-- The file system and the processes that write to the file. -/
structure Writers (P : Type) where
  sys : Sys P
  pc : P → WritePc
  /-- The buffers of the calls, in the order in which they began. -/
  begun : List (List UInt8)
  /-- The chunks written, each with the number of the call. -/
  log : List (ℕ × List UInt8)
  /-- What calls returned; `none` stands for -1. -/
  returned : List (ℕ × Option ℕ)

/-- A process begins a call, or executes its next statement. -/
inductive WriteAct (P : Type)
  | call (p : P) (src : List UInt8)
  | step (p : P)

namespace Writers

variable {P : Type} [DecidableEq P]

/-- No process has begun to write. -/
def start (s : Sys P) : Writers P := ⟨s, fun _ => .out, [], [], []⟩

/-- Move a process to another statement. -/
def goto (s : Writers P) (p : P) (pc : WritePc) : Writers P :=
  { s with pc := Function.update s.pc p pc }

/-- A call returns. -/
def ret (s : Writers P) (p : P) (w : WriteCall) (r : Option ℕ) : Writers P :=
  { s with pc := Function.update s.pc p .out, returned := s.returned ++ [(w.id, r)] }

/-- Run a routine of the kernel; a process that has to wait does not move. -/
def exec {α : Type} (s : Writers P) (x : SysM P α) (k : α → Writers P → Writers P) :
    Outcome Panic (Writers P) :=
  match x s.sys with
  | .ok (a, t) => .ok (k a { s with sys := t })
  | .error (.panic msg) => .panic msg
  | .error .hang => .blocked

variable (e : Env) (f : Fin NFILE)

/-- The next statement of a process. -/
def stepPc (s : Writers P) (p : P) : WritePc → Outcome Panic (Writers P)
  | .out => .blocked
  | .test w src =>
    if src = [] then .ok (s.ret p w (some w.n))
    else s.exec (onIc (ilock e (s.sys.ftable f).ip)) fun _ t => t.goto p (.locked w src)
  | .locked w src =>
    s.exec (onIc (onInode (s.sys.ftable f).ip fun i =>
        writei e i.inum i.din (src.take writeMax) (s.sys.ftable f).off)) fun r t =>
      { t.goto p (.wrote w src r) with
        log := if r = none then t.log else t.log ++ [(w.id, src.take writeMax)] }
  | .wrote w src r =>
    s.exec (modifyFile f fun x => { x with off := (x.off + r.getD 0) % 2 ^ 32 }) fun _ t =>
      t.goto p (.unlock w src r)
  | .unlock w src r =>
    match r with
    | none => s.exec (onIc (iunlock (s.sys.ftable f).ip)) fun _ t => t.ret p w none
    | some r =>
      if r ≠ (src.take writeMax).length then .panic .shortFilewrite
      else s.exec (onIc (iunlock (s.sys.ftable f).ip)) fun _ t => t.goto p (.test w (src.drop r))

/-- The steps of the system. -/
def next (s : Writers P) : WriteAct P → Outcome Panic (Writers P)
  | .call p src =>
    if s.pc p ≠ .out then .blocked
    else
      let t := { s with begun := s.begun ++ [src] }
      if (s.sys.ftable f).writable = false then .ok (t.ret p ⟨s.begun.length, src.length⟩ none)
      else .ok (t.goto p (.test ⟨s.begun.length, src.length⟩ src))
  | .step p => s.stepPc e f p (s.pc p)

def Step (s : Writers P) (a : WriteAct P) (t : Writers P) : Prop := s.next e f a = .ok t

end Writers

/-! ### Chunks -/

/-- A buffer, cut as `filewrite` cuts it. -/
def chunks (src : List UInt8) : List (List UInt8) :=
  if _h : src = [] then [] else src.take writeMax :: chunks (src.drop writeMax)
termination_by src.length
decreasing_by
  rw [List.length_drop]
  exact Nat.sub_lt (List.length_pos_iff.mpr _h) writeMax_pos

@[simp] theorem chunks_nil : chunks [] = [] := by rw [chunks, dif_pos rfl]

theorem chunks_of_ne_nil {src : List UInt8} (h : src ≠ []) :
    chunks src = src.take writeMax :: chunks (src.drop writeMax) := by rw [chunks, dif_neg h]

theorem flatten_chunks (src : List UInt8) : (chunks src).flatten = src := by
  fun_induction chunks src with
  | case1 => rfl
  | case2 src h ih => rw [List.flatten_cons, ih, List.take_append_drop]

/-- The chunks of call `i` among those written. -/
def logged (log : List (ℕ × List UInt8)) (i : ℕ) : List (List UInt8) :=
  (log.filter fun x => x.1 = i).map Prod.snd

/-- The bytes written, in order. -/
def written (log : List (ℕ × List UInt8)) : List UInt8 := (log.map Prod.snd).flatten

section Log

variable {log : List (ℕ × List UInt8)} {i j k : ℕ} {chunk : List UInt8}

theorem logged_append_self : logged (log ++ [(i, chunk)]) i = logged log i ++ [chunk] := by
  simp [logged]

theorem logged_append_of_ne (h : j ≠ i) : logged (log ++ [(i, chunk)]) j = logged log j := by
  simp [logged, h.symm]

theorem written_append : written (log ++ [(i, chunk)]) = written log ++ chunk := by
  simp [written]

/-- Every byte written belongs to one call. -/
theorem length_written (h : ∀ x ∈ log, x.1 < k) :
    (written log).length = ∑ i ∈ Finset.range k, (logged log i).flatten.length := by
  induction log using List.reverseRecOn with
  | nil => simp [written, logged]
  | append_singleton log x ih =>
    obtain ⟨i, chunk⟩ := x
    have hi : i ∈ Finset.range k := Finset.mem_range.mpr (h (i, chunk) (by simp))
    rw [written_append, List.length_append, ih fun x hx => h x (by simp [hx]),
      ← Finset.sum_erase_add _ _ hi, ← Finset.sum_erase_add _ _ hi, logged_append_self,
      List.flatten_append, List.length_append, List.flatten_singleton, Nat.add_assoc]
    congr 1
    refine Finset.sum_congr rfl fun j hj => ?_
    rw [logged_append_of_ne (Finset.ne_of_mem_erase hj)]

end Log

/-! ### The invariant -/

namespace WritePc

/-- The call that a process is in. -/
def call? : WritePc → Option WriteCall
  | out => none
  | test w _ | locked w _ | wrote w _ _ | unlock w _ _ => some w

/-- The process holds the lock of the inode. -/
def Inside : WritePc → Prop
  | out | test _ _ => False
  | locked _ _ | wrote _ _ _ | unlock _ _ _ => True

/-- The bytes of the call that are not in the file yet. -/
def left : WritePc → List UInt8
  | out => []
  | test _ src | locked _ src => src
  | wrote _ src _ | unlock _ src _ => src.drop writeMax

/-- The bytes in the file that the offset has not been moved by. -/
def unmoved : WritePc → ℕ
  | wrote _ src _ => (src.take writeMax).length
  | _ => 0

/-- There is a chunk to write, and the whole chunk was written. -/
def Fits : WritePc → Prop
  | out | test _ _ => True
  | locked _ src => src ≠ []
  | wrote _ src r | unlock _ src r => src ≠ [] ∧ r = some (src.take writeMax).length

/-- The statements that the process has to execute until it returns. -/
def rank : WritePc → ℕ
  | out => 0
  | test _ src => 4 * (chunks src).length + 1
  | locked _ src => 4 * (chunks src).length
  | wrote _ src _ => 4 * (chunks (src.drop writeMax)).length + 3
  | unlock _ src _ => 4 * (chunks (src.drop writeMax)).length + 2

end WritePc

namespace Writers

variable {P : Type}

/-- The bytes of all calls. -/
def total (s : Writers P) : ℕ := (s.begun.map List.length).sum

/-- The process `h` holds the lock, or nobody does: the file has the bytes written after the offset
at the start, and its offset is behind them but for a chunk that was just written. -/
structure Held (sb : SuperBlock) (f : Fin NFILE) (ip : Ip) (n : ℕ) (c₀ : List UInt8) (off₀ : ℕ)
    (h : Option P) (off : ℕ) (s : Writers P) : Prop where
  file : FileAt sb f ip n h.isSome (overwrite c₀ off₀ (written s.log)) off s.sys
  inside : ∀ p, (s.pc p).Inside ↔ h = some p
  off_eq : off + h.elim 0 (fun p => (s.pc p).unmoved) = off₀ + (written s.log).length

/-- What holds between any two steps, if there is room for `N` bytes in all. -/
structure Inv (sb : SuperBlock) (f : Fin NFILE) (ip : Ip) (n : ℕ) (c₀ : List UInt8) (off₀ N : ℕ)
    (s : Writers P) : Prop where
  held : ∃ h off, Held sb f ip n c₀ off₀ h off s
  room : (written s.log).length ≤ N ∧
    Room sb s.sys.ic.disk n (off₀ + (written s.log).length) (N - (written s.log).length)
  writable : (s.sys.ftable f).writable = true
  fits : ∀ p, (s.pc p).Fits
  call : ∀ p w, (s.pc p).call? = some w → ∃ buf, s.begun[w.id]? = some buf ∧ w.n = buf.length ∧
    logged s.log w.id ++ chunks (s.pc p).left = chunks buf
  unique : ∀ p q w w', (s.pc p).call? = some w → (s.pc q).call? = some w' → w.id = w'.id → p = q
  finished : ∀ i buf, s.begun[i]? = some buf → (∀ p w, (s.pc p).call? = some w → w.id ≠ i) →
    logged s.log i = chunks buf ∧ (i, some buf.length) ∈ s.returned
  ids : ∀ x ∈ s.log, x.1 < s.begun.length
  returned : ∀ x ∈ s.returned, ∃ buf, s.begun[x.1]? = some buf ∧ x.2 = some buf.length

section Count

variable {sb : SuperBlock} {f : Fin NFILE} {ip : Ip} {n off₀ N : ℕ}
    {c₀ : List UInt8} {s : Writers P}

theorem total_eq (s : Writers P) :
    s.total = ∑ i ∈ Finset.range s.begun.length, (s.begun.getD i []).length := by
  rw [total, ← Fin.sum_univ_fun_getElem, Finset.sum_range]
  exact Finset.sum_congr rfl fun i _ => by rw [List.getD_eq_getElem _ _ i.2]

/-- A call in progress: its chunks in the file, and the bytes that are not. -/
theorem Inv.flatten_logged (h : Inv sb f ip n c₀ off₀ N s) {p : P} {w : WriteCall}
    (hw : (s.pc p).call? = some w) :
    (logged s.log w.id).flatten ++ (s.pc p).left = s.begun.getD w.id [] := by
  obtain ⟨buf, hbuf, -, hchunks⟩ := h.call p w hw
  rw [List.getD_eq_getElem?_getD, hbuf, Option.getD_some, ← flatten_chunks buf, ← hchunks,
    List.flatten_append, flatten_chunks]

/-- No call has more in the file than it was given. -/
theorem Inv.logged_le (h : Inv sb f ip n c₀ off₀ N s) {i : ℕ} (hi : i < s.begun.length) :
    (logged s.log i).flatten.length ≤ (s.begun.getD i []).length := by
  by_cases hactive : ∃ p w, (s.pc p).call? = some w ∧ w.id = i
  · obtain ⟨p, w, hw, rfl⟩ := hactive
    rw [← h.flatten_logged hw, List.length_append]
    exact Nat.le_add_right _ _
  · push Not at hactive
    have hbuf : s.begun[i]? = some s.begun[i] := List.getElem?_eq_getElem hi
    rw [(h.finished i _ hbuf hactive).1, flatten_chunks, List.getD_eq_getElem _ _ hi]

/-- The bytes in the file and those that a call has left are among the bytes of all calls. -/
theorem Inv.written_add_left (h : Inv sb f ip n c₀ off₀ N s) {p : P} {w : WriteCall}
    (hw : (s.pc p).call? = some w) :
    (written s.log).length + (s.pc p).left.length ≤ s.total := by
  have hid : w.id ∈ Finset.range s.begun.length := by
    obtain ⟨buf, hbuf, -⟩ := h.call p w hw
    exact Finset.mem_range.mpr (List.getElem?_eq_some_iff.mp hbuf).1
  have hself := congrArg List.length (h.flatten_logged hw)
  rw [List.length_append] at hself
  rw [length_written h.ids, total_eq, ← Finset.sum_erase_add _ _ hid,
    ← Finset.sum_erase_add _ _ hid,
    Nat.add_assoc, hself]
  refine Nat.add_le_add_right (Finset.sum_le_sum fun i hi => ?_) _
  exact h.logged_le (Finset.mem_range.mp (Finset.mem_of_mem_erase hi))

end Count

section Move

variable [DecidableEq P] {sb : SuperBlock} {f : Fin NFILE} {ip : Ip} {n off₀ N : ℕ}
    {c₀ : List UInt8} {s : Writers P}
  {p : P} {w : WriteCall}

/-- A process that does not have the lock moves, and still does not have it. -/
theorem Held.outside {h : Option P} {off : ℕ} (hheld : Held sb f ip n c₀ off₀ h off s)
    (hout : ¬ (s.pc p).Inside) {pc' : WritePc} (hout' : ¬ pc'.Inside) {t : Writers P}
    (hsys : t.sys = s.sys) (hlog : t.log = s.log) (hpc : t.pc = Function.update s.pc p pc') :
    Held sb f ip n c₀ off₀ h off t := by
  have hnot : h ≠ some p := fun heq => hout ((hheld.inside p).mpr heq)
  refine ⟨by rw [hsys, hlog]; exact hheld.file, fun q => ?_, ?_⟩
  · by_cases hq : q = p
    · rw [hpc, hq, Function.update_self]
      exact iff_of_false hout' hnot
    · rw [hpc, Function.update_of_ne hq]
      exact hheld.inside q
  · rw [hlog, ← hheld.off_eq]
    cases h with
    | none => rfl
    | some q => simp only [hpc, Option.elim, Function.update_of_ne
        (fun hq : q = p => hnot (by rw [hq]))]

/-- A process goes on in its call, and may write a chunk. -/
theorem Inv.move (hinv : Inv sb f ip n c₀ off₀ N s) (hw : (s.pc p).call? = some w) {u : Sys P}
    {pc' : WritePc} {log' : List (ℕ × List UInt8)} (hcall : pc'.call? = some w) (hfits : pc'.Fits)
    (hheld : ∃ h off, Held sb f ip n c₀ off₀ h off
      ⟨u, Function.update s.pc p pc', s.begun, log', s.returned⟩)
    (hroom : (written log').length ≤ N ∧
      Room sb u.ic.disk n (off₀ + (written log').length) (N - (written log').length))
    (hwritable : (u.ftable f).writable = true)
    (hlog : log' = s.log ∧ pc'.left = (s.pc p).left ∨
      ∃ chunk, log' = s.log ++ [(w.id, chunk)] ∧ chunks (s.pc p).left = chunk :: chunks pc'.left) :
    Inv sb f ip n c₀ off₀ N ⟨u, Function.update s.pc p pc', s.begun, log', s.returned⟩ := by
  have hcalls : ∀ q, (Function.update s.pc p pc' q).call? = (s.pc q).call? := fun q => by
    by_cases hq : q = p
    · rw [hq, Function.update_self, hcall, hw]
    · rw [Function.update_of_ne hq]
  have hother : ∀ j, j ≠ w.id → logged log' j = logged s.log j := fun j hj => by
    rcases hlog with ⟨rfl, -⟩ | ⟨chunk, rfl, -⟩
    · rfl
    · exact logged_append_of_ne hj
  have hself : logged log' w.id ++ chunks pc'.left = logged s.log w.id ++ chunks (s.pc p).left := by
    rcases hlog with ⟨rfl, hleft⟩ | ⟨chunk, rfl, hleft⟩
    · rw [hleft]
    · rw [logged_append_self, hleft, List.append_assoc, List.singleton_append]
  refine ⟨hheld, hroom, hwritable, fun q => ?_, fun q v hv => ?_, fun q q' v v' hv hv' => ?_,
    fun i buf hbuf hno => ?_, fun x hx => ?_, hinv.returned⟩
  · by_cases hq : q = p
    · simp only [hq, Function.update_self]
      exact hfits
    · simp only [Function.update_of_ne hq]
      exact hinv.fits q
  · dsimp only at hv ⊢
    rw [hcalls] at hv
    obtain ⟨buf, hbuf, hn, hchunks⟩ := hinv.call q v hv
    refine ⟨buf, hbuf, hn, ?_⟩
    by_cases hq : q = p
    · subst hq
      obtain rfl : w = v := Option.some.inj (hw.symm.trans hv)
      rw [Function.update_self, hself, hchunks]
    · have hne : v.id ≠ w.id := fun heq => hq (hinv.unique q p v w hv hw heq)
      rw [Function.update_of_ne hq, hother _ hne, hchunks]
  · dsimp only at hv hv'
    rw [hcalls] at hv hv'
    exact hinv.unique q q' v v' hv hv'
  · dsimp only at hbuf hno ⊢
    simp only [hcalls] at hno
    rw [hother i fun heq => hno p w hw heq.symm]
    exact hinv.finished i buf hbuf hno
  · rcases hlog with ⟨rfl, -⟩ | ⟨chunk, rfl, -⟩
    · exact hinv.ids x hx
    · rcases List.mem_append.mp hx with hx | hx
      · exact hinv.ids x hx
      · obtain rfl := List.mem_singleton.mp hx
        obtain ⟨buf, hbuf, -⟩ := hinv.call p w hw
        exact (List.getElem?_eq_some_iff.mp hbuf).1

/-- A call that has nothing left returns its count. -/
theorem Inv.ret (hinv : Inv sb f ip n c₀ off₀ N s) (hpc : s.pc p = .test w []) :
    Inv sb f ip n c₀ off₀ N (s.ret p w (some w.n)) := by
  have hw : (s.pc p).call? = some w := by rw [hpc]; rfl
  obtain ⟨buf, hbuf, hn, hchunks⟩ := hinv.call p w hw
  rw [hpc, WritePc.left, chunks_nil, List.append_nil] at hchunks
  have hout : ∀ q v, (Function.update s.pc p .out q).call? = some v →
      q ≠ p ∧ (s.pc q).call? = some v := fun q v hv => by
    by_cases hq : q = p
    · rw [hq, Function.update_self] at hv
      cases hv
    · rw [Function.update_of_ne hq] at hv
      exact ⟨hq, hv⟩
  obtain ⟨h, off, hheld⟩ := hinv.held
  refine ⟨⟨h, off, hheld.outside (by rw [hpc]; exact id) id rfl rfl rfl⟩, hinv.room, hinv.writable,
    fun q => ?_, fun q v hv => ?_, fun q q' v v' hv hv' => ?_, fun i buf' hbuf' hno => ?_, hinv.ids,
    fun x hx => ?_⟩
  · by_cases hq : q = p
    · simp only [Writers.ret, hq, Function.update_self, WritePc.Fits]
    · simp only [Writers.ret, Function.update_of_ne hq]
      exact hinv.fits q
  · obtain ⟨hq, hv'⟩ := hout q v hv
    simp only [Writers.ret, Function.update_of_ne hq]
    exact hinv.call q v hv'
  · exact hinv.unique q q' v v' (hout q v hv).2 (hout q' v' hv').2
  · by_cases hi : i = w.id
    · subst hi
      obtain rfl : buf = buf' := Option.some.inj (hbuf.symm.trans hbuf')
      refine ⟨hchunks, List.mem_append_right _ ?_⟩
      rw [hn]
      exact List.mem_singleton_self _
    · obtain ⟨hlog, hret⟩ := hinv.finished i buf' hbuf' fun q v hv => by
        by_cases hq : q = p
        · subst hq
          rw [← Option.some.inj (hw.symm.trans hv)]
          exact fun heq => hi heq.symm
        · refine hno q v ?_
          simp only [Writers.ret, Function.update_of_ne hq]
          exact hv
      exact ⟨hlog, List.mem_append_left _ hret⟩
  · rcases List.mem_append.mp hx with hx | hx
    · exact hinv.returned x hx
    · obtain rfl := List.mem_singleton.mp hx
      exact ⟨buf, hbuf, by rw [hn]⟩

/-- A process begins a call. -/
theorem Inv.begin (hinv : Inv sb f ip n c₀ off₀ N s) (hpc : s.pc p = .out) (src : List UInt8) :
    Inv sb f ip n c₀ off₀ N (({ s with begun := s.begun ++ [src] } : Writers P).goto p
      (.test ⟨s.begun.length, src.length⟩ src)) := by
  have hold : ∀ {i : ℕ}, i < s.begun.length → (s.begun ++ [src])[i]? = s.begun[i]? := fun hi =>
    List.getElem?_append_left hi
  have hnew : (s.begun ++ [src])[s.begun.length]? = some src := by simp
  have hlt : ∀ q v, (s.pc q).call? = some v → v.id < s.begun.length := fun q v hv => by
    obtain ⟨buf, hbuf, -⟩ := hinv.call q v hv
    exact (List.getElem?_eq_some_iff.mp hbuf).1
  have hempty : logged s.log s.begun.length = [] := by
    rw [logged, List.map_eq_nil_iff, List.filter_eq_nil_iff]
    intro x hx heq
    exact absurd (of_decide_eq_true heq) (hinv.ids x hx).ne
  obtain ⟨h, off, hheld⟩ := hinv.held
  set v₀ : WriteCall := ⟨s.begun.length, src.length⟩ with hv₀
  have hcall : ∀ q v, (Function.update s.pc p (.test v₀ src) q).call? = some v →
      q = p ∧ v = v₀ ∨ q ≠ p ∧ (s.pc q).call? = some v := fun q v hv => by
    by_cases hq : q = p
    · rw [hq, Function.update_self] at hv
      exact .inl ⟨hq, (Option.some.inj hv).symm⟩
    · rw [Function.update_of_ne hq] at hv
      exact .inr ⟨hq, hv⟩
  -- the new call has a number of its own, and nothing of it is in the file
  refine ⟨⟨h, off, hheld.outside (by rw [hpc]; exact id) id rfl rfl rfl⟩, hinv.room, hinv.writable,
    fun q => ?_, fun q v hv => ?_, fun q q' v v' hv hv' heq => ?_, fun i buf hbuf hno => ?_,
    fun x hx => ?_, fun x hx => ?_⟩
  · by_cases hq : q = p
    · simp only [goto, hq, Function.update_self, WritePc.Fits]
    · simp only [goto, Function.update_of_ne hq]
      exact hinv.fits q
  · rcases hcall q v hv with ⟨rfl, rfl⟩ | ⟨hq, hv'⟩
    · refine ⟨src, hnew, rfl, ?_⟩
      simp only [goto, Function.update_self, WritePc.left, hv₀]
      rw [hempty, List.nil_append]
    · obtain ⟨buf, hbuf, hn, hchunks⟩ := hinv.call q v hv'
      refine ⟨buf, (hold (hlt q v hv')).trans hbuf, hn, ?_⟩
      simp only [goto, Function.update_of_ne hq]
      exact hchunks
  · rcases hcall q v hv with ⟨rfl, rfl⟩ | ⟨-, hold₁⟩ <;>
      rcases hcall q' v' hv' with ⟨rfl, rfl⟩ | ⟨-, hold₂⟩
    · rfl
    · exact absurd heq (hlt q' v' hold₂).ne'
    · exact absurd heq (hlt q v hold₁).ne
    · exact hinv.unique q q' v v' hold₁ hold₂ heq
  · have hne : i ≠ s.begun.length := fun hi => by
      refine hno p v₀ ?_ hi.symm
      simp only [goto, Function.update_self, WritePc.call?]
    have hi : i < s.begun.length := by
      have := (List.getElem?_eq_some_iff.mp hbuf).1
      simp only [goto, List.length_append, List.length_singleton] at this
      omega
    refine hinv.finished i buf ((hold hi).symm.trans hbuf) fun q v hv => hno q v ?_
    have hq : q ≠ p := by
      rintro rfl
      rw [hpc] at hv
      cases hv
    simp only [goto, Function.update_of_ne hq]
    exact hv
  · have := hinv.ids x hx
    simp only [goto, List.length_append, List.length_singleton]
    omega
  · obtain ⟨buf, hbuf, hr⟩ := hinv.returned x hx
    exact ⟨buf, (hold (List.getElem?_eq_some_iff.mp hbuf).1).trans hbuf, hr⟩

end Move

section Steps

variable {e : Env} {f : Fin NFILE} {ip : Ip} {n off₀ N : ℕ} {c₀ : List UInt8}
  {s t : Writers P} {p : P} {w : WriteCall}

theorem exec_eq_ok {α : Type} {x : SysM P α} {k : α → Writers P → Writers P} :
    s.exec x k = .ok t ↔ ∃ a u, x s.sys = .ok (a, u) ∧ t = k a { s with sys := u } := by
  unfold exec
  split <;> simp_all [eq_comm]

theorem exec_begun {α : Type} {x : SysM P α} {k : α → Writers P → Writers P}
    (h : s.exec x k = .ok t) (hk : ∀ a u, (k a u).begun = u.begun) : t.begun = s.begun := by
  obtain ⟨a, u, -, rfl⟩ := exec_eq_ok.mp h
  exact hk a _

/-- What a routine without failures does to the system. -/
theorem exec_of_wp {α : Type} {x : SysM P α} {k : α → Writers P → Writers P}
    {Q : α → Sys P → Prop} (h : Wp x s.sys Q fun _ => False) :
    ∃ a u, Q a u ∧ s.exec x k = .ok (k a { s with sys := u }) := by
  obtain ⟨a, u, hx, hQ⟩ := h.exists_ok fun _ => id
  exact ⟨a, u, hQ, exec_eq_ok.mpr ⟨a, u, hx, rfl⟩⟩

/-- The lock is taken: whoever asks for it waits. -/
theorem exec_ilock_held {sys : Sys P} {c : List UInt8} {off : ℕ}
    (h : FileAt e.sb f ip n true c off sys) (hs : s.sys = sys)
    {k : Unit → Writers P → Writers P} : s.exec (onIc (ilock e ip)) k = .blocked := by
  have hspec : Wp (onIc (P := P) (ilock e ip)) s.sys (fun _ _ => False) (· = .hang) := by
    rw [hs, wp_onIc, ilock, Wp.bind_iff, wp_inode, if_neg (Nat.not_lt.mpr h.ref), h.lock,
      if_pos rfl]
    rfl
  unfold exec
  rw [hspec.eq_error_of]

/-- What is left after a chunk. -/
theorem drop_take_length (src : List UInt8) :
    src.drop (src.take writeMax).length = src.drop writeMax := by
  rw [List.length_take]
  rcases Nat.le_total writeMax src.length with hle | hle
  · rw [Nat.min_eq_left hle]
  · rw [Nat.min_eq_right hle, List.drop_of_length_le le_rfl, List.drop_of_length_le hle]

theorem Held.of_inside {h : Option P} {off : ℕ} {sb : SuperBlock}
    (hheld : Held sb f ip n c₀ off₀ h off s) (hin : (s.pc p).Inside) :
    Held sb f ip n c₀ off₀ (some p) off s := by
  obtain rfl := (hheld.inside p).mp hin
  exact hheld

variable [DecidableEq P]

/-- A statement of process `p` was executed: the invariant holds, and the process is closer to its
return. -/
structure Moved (sb : SuperBlock) (f : Fin NFILE) (ip : Ip) (n : ℕ) (c₀ : List UInt8) (off₀ N : ℕ)
    (p : P) (s t : Writers P) : Prop where
  inv : Inv sb f ip n c₀ off₀ N t
  rank : (t.pc p).rank < (s.pc p).rank
  frame : ∀ q, q ≠ p → t.pc q = s.pc q
  begun : t.begun = s.begun

/-- The process `p` takes the lock, keeps it or gives it up. -/
theorem Held.move {sb : SuperBlock} {h : Option P} {off off' : ℕ} {pc' : WritePc} {u : Sys P}
    {log' : List (ℕ × List UInt8)} (hheld : Held sb f ip n c₀ off₀ h off s) (h' : Option P)
    (hh : ∀ q, h = some q → q = p) (hh' : ∀ q, h' = some q → q = p)
    (hin : pc'.Inside ↔ h' = some p)
    (hfile : FileAt sb f ip n h'.isSome (overwrite c₀ off₀ (written log')) off' u)
    (hoff : off' + h'.elim 0 (fun _ => pc'.unmoved) = off₀ + (written log').length) :
    ∃ h off, Held sb f ip n c₀ off₀ h off
      ⟨u, Function.update s.pc p pc', s.begun, log', s.returned⟩ := by
  refine ⟨h', off', hfile, fun q => ?_, ?_⟩
  · by_cases hq : q = p
    · simp only [hq, Function.update_self]
      exact hin
    · simp only [Function.update_of_ne hq]
      exact iff_of_false (fun hqin => hq (hh q ((hheld.inside q).mp hqin)))
        fun heq => hq (hh' q heq)
  · rw [← hoff]
    cases h' with
    | none => rfl
    | some q =>
      obtain rfl := hh' q rfl
      simp only [Option.elim, Function.update_self]

/-- The test of the loop: a return, the lock, or a wait for the process that has it. -/
theorem Inv.step_test (hinv : Inv e.sb f ip n c₀ off₀ N s) {src : List UInt8}
    (hpc : s.pc p = .test w src) :
    (∃ q, (s.pc q).Inside ∧ s.stepPc e f p (.test w src) = .blocked) ∨
      ∃ t, s.stepPc e f p (.test w src) = .ok t ∧ Moved e.sb f ip n c₀ off₀ N p s t := by
  have hw : (s.pc p).call? = some w := by rw [hpc]; rfl
  simp only [stepPc]
  by_cases hsrc : src = []
  · subst hsrc
    refine .inr ⟨_, if_pos rfl, hinv.ret hpc, ?_, fun q hq => Function.update_of_ne hq _ _, rfl⟩
    simp only [hpc, Writers.ret, Function.update_self]
    exact Nat.succ_pos _
  rw [if_neg hsrc]
  obtain ⟨h, off, hheld⟩ := hinv.held
  rw [hheld.file.ip_eq]
  cases h with
  | some q => exact .inl ⟨q, (hheld.inside q).mpr rfl, exec_ilock_held hheld.file rfl⟩
  | none =>
    obtain ⟨-, u, ⟨hfile, hdisk, htable⟩, hexec⟩ := exec_of_wp
      (k := fun _ (t : Writers P) => t.goto p (.locked w src)) hheld.file.ilock
    refine .inr ⟨_, hexec, ?_, ?_, fun q hq => Function.update_of_ne hq _ _, rfl⟩
    · refine hinv.move hw rfl hsrc
        (hheld.move (some p) nofun (fun q hq => (Option.some.inj hq).symm)
        (iff_of_true trivial rfl) hfile hheld.off_eq) ?_ (by rw [htable]; exact hinv.writable)
        (.inl ⟨rfl, by rw [hpc]; rfl⟩)
      rw [hdisk]
      exact hinv.room
    · simp only [hpc, goto, Function.update_self]
      exact Nat.lt_succ_self _

/-- Writing the chunk. -/
theorem Inv.step_locked (hinv : Inv e.sb f ip n c₀ off₀ N s) (hoff : off₀ ≤ c₀.length)
    (hmax : off₀ + N ≤ MAXFILE * BSIZE) (hN : s.total ≤ N) {src : List UInt8}
    (hpc : s.pc p = .locked w src) :
    ∃ t, s.stepPc e f p (.locked w src) = .ok t ∧ Moved e.sb f ip n c₀ off₀ N p s t := by
  have hw : (s.pc p).call? = some w := by rw [hpc]; rfl
  have hsrc : src ≠ [] := by
    have := hinv.fits p
    rwa [hpc] at this
  obtain ⟨h, off, hheld⟩ := hinv.held
  have hheld := hheld.of_inside (p := p) (by rw [hpc]; trivial)
  have hoff' : off = off₀ + (written s.log).length := by
    have := hheld.off_eq
    simp only [Option.elim, hpc, WritePc.unmoved, Nat.add_zero] at this
    exact this
  have hlong : (written s.log).length + src.length ≤ s.total := by
    have := hinv.written_add_left hw
    rwa [hpc] at this
  set chunk := src.take writeMax with hchunk
  have hle : chunk.length ≤ src.length := List.length_take_le' _ _
  -- the chunk starts at the end of what was written
  have hstart : off ≤ (overwrite c₀ off₀ (written s.log)).length := by
    rw [overwrite_length hoff, hoff']
    exact Nat.le_max_right _ _
  have hend : off + chunk.length ≤ MAXFILE * BSIZE := by omega
  have hroom : Room e.sb s.sys.ic.disk n off
      (chunk.length + (N - (written s.log).length - chunk.length)) := by
    have := hinv.room.2
    rw [Nat.add_sub_cancel' (by omega), hoff']
    exact this
  obtain ⟨r, u, ⟨rfl, hfile, htable, hroom'⟩, hexec⟩ := exec_of_wp
    (k := fun r (t : Writers P) => { t.goto p (.wrote w src r) with
      log := if r = none then t.log else t.log ++ [(w.id, chunk)] })
    ((hheld.file.writei hstart hend).mono (fun _ _ => id)
      fun err herr => absurd hroom.left (Nat.not_le.mpr herr.2))
  rw [hoff', overwrite_append hoff, ← written_append (i := w.id), ← hoff'] at hfile
  have hlen : (written (s.log ++ [(w.id, chunk)])).length =
      (written s.log).length + chunk.length := by
    rw [written_append, List.length_append]
  simp only [stepPc]
  rw [hheld.file.ip_eq, hheld.file.off_eq]
  have hinv' : Inv e.sb f ip n c₀ off₀ N
    ⟨u, Function.update s.pc p (.wrote w src (some chunk.length)),
      s.begun, s.log ++ [(w.id, chunk)], s.returned⟩ := by
    refine hinv.move hw rfl ⟨hsrc, rfl⟩ (hheld.move (some p) (fun q hq => (Option.some.inj hq).symm)
      (fun q hq => (Option.some.inj hq).symm) (iff_of_true trivial rfl) hfile ?_) ⟨?_, ?_⟩
      (by rw [htable]; exact hinv.writable)
      (.inr ⟨chunk, rfl, by rw [hpc]; exact chunks_of_ne_nil hsrc⟩)
    · rw [hlen, hoff', Nat.add_assoc]
      rfl
    · rw [hlen]
      omega
    · have := hroom' _ hroom
      rw [hlen, ← Nat.add_assoc, ← hoff', ← Nat.sub_sub]
      exact this
  refine ⟨_, hexec, hinv', ?_, fun q hq => Function.update_of_ne hq _ _, rfl⟩
  rw [hpc]
  simp only [goto, Function.update_self, WritePc.rank, chunks_of_ne_nil hsrc, List.length_cons]
  omega

/-- Moving the offset. -/
theorem Inv.step_wrote (hinv : Inv e.sb f ip n c₀ off₀ N s) (hmax : off₀ + N ≤ MAXFILE * BSIZE)
    {src : List UInt8} {r : Option ℕ} (hpc : s.pc p = .wrote w src r) :
    ∃ t, s.stepPc e f p (.wrote w src r) = .ok t ∧ Moved e.sb f ip n c₀ off₀ N p s t := by
  have hw : (s.pc p).call? = some w := by rw [hpc]; rfl
  obtain ⟨hsrc, hr⟩ : src ≠ [] ∧ r = some (src.take writeMax).length := by
    have := hinv.fits p
    rwa [hpc] at this
  obtain ⟨h, off, hheld⟩ := hinv.held
  have hheld := hheld.of_inside (p := p) (by rw [hpc]; trivial)
  have hoff : off + (src.take writeMax).length = off₀ + (written s.log).length := by
    have := hheld.off_eq
    simpa only [Option.elim, hpc, WritePc.unmoved] using this
  have hlt : off + (src.take writeMax).length < 2 ^ 32 := by
    have := hinv.room.1
    have : MAXFILE * BSIZE < 2 ^ 32 := by decide
    omega
  have hfile := hheld.file.advance hlt (g := fun x => { x with off := (x.off + r.getD 0) % 2 ^ 32 })
    (by simp only [hheld.file.off_eq, hr, Option.getD_some, Nat.mod_eq_of_lt hlt])
  refine ⟨_, rfl, ?_, ?_, fun q hq => Function.update_of_ne hq _ _, rfl⟩
  · refine hinv.move hw rfl ⟨hsrc, hr⟩ (hheld.move (some p) (fun q hq => (Option.some.inj hq).symm)
      (fun q hq => (Option.some.inj hq).symm) (iff_of_true trivial rfl) hfile hoff) hinv.room ?_
      (.inl ⟨rfl, by rw [hpc]; rfl⟩)
    simp only [Function.update_self]
    exact hinv.writable
  · rw [hpc]
    simp only [goto, Function.update_self, WritePc.rank]
    omega

/-- Giving up the lock. -/
theorem Inv.step_unlock (hinv : Inv e.sb f ip n c₀ off₀ N s) {src : List UInt8} {r : Option ℕ}
    (hpc : s.pc p = .unlock w src r) :
    ∃ t, s.stepPc e f p (.unlock w src r) = .ok t ∧ Moved e.sb f ip n c₀ off₀ N p s t := by
  have hw : (s.pc p).call? = some w := by rw [hpc]; rfl
  obtain ⟨hsrc, rfl⟩ : src ≠ [] ∧ r = some (src.take writeMax).length := by
    have := hinv.fits p
    rwa [hpc] at this
  obtain ⟨h, off, hheld⟩ := hinv.held
  have hheld := hheld.of_inside (p := p) (by rw [hpc]; trivial)
  have hoff : off = off₀ + (written s.log).length := by
    have := hheld.off_eq
    simpa only [Option.elim, hpc, WritePc.unmoved, Nat.add_zero] using this
  obtain ⟨-, u, ⟨hfile, hdisk, htable⟩, hexec⟩ := exec_of_wp
    (k := fun _ (t : Writers P) => t.goto p (.test w (src.drop (src.take writeMax).length)))
    hheld.file.iunlock
  simp only [stepPc]
  rw [hheld.file.ip_eq, if_neg (not_not.mpr rfl)]
  refine ⟨_, hexec, ?_, ?_, fun q hq => Function.update_of_ne hq _ _, rfl⟩
  · refine hinv.move hw rfl trivial (hheld.move none (fun q hq => (Option.some.inj hq).symm)
      nofun (iff_of_false id nofun) hfile hoff) ?_ (by rw [htable]; exact hinv.writable)
      (.inl ⟨rfl, by rw [hpc]; exact drop_take_length src⟩)
    rw [hdisk]
    exact hinv.room
  · rw [hpc]
    simp only [goto, Function.update_self, WritePc.rank, drop_take_length]
    omega

/-- A process in a call can go on, or waits for the lock. -/
theorem Inv.step_spec (hinv : Inv e.sb f ip n c₀ off₀ N s) (hoff : off₀ ≤ c₀.length)
    (hmax : off₀ + N ≤ MAXFILE * BSIZE) (hN : s.total ≤ N) (hp : s.pc p ≠ .out) :
    (∃ q, (s.pc q).Inside ∧ s.next e f (.step p) = .blocked ∧ ¬ (s.pc p).Inside) ∨
      ∃ t, s.next e f (.step p) = .ok t ∧ Moved e.sb f ip n c₀ off₀ N p s t := by
  simp only [next]
  cases hpc : s.pc p with
  | out => exact absurd hpc hp
  | test w src =>
    rcases hinv.step_test hpc with ⟨q, hq, hblocked⟩ | hok
    · exact .inl ⟨q, hq, hblocked, id⟩
    · exact .inr hok
  | locked w src => exact .inr (hinv.step_locked hoff hmax hN hpc)
  | wrote w src r => exact .inr (hinv.step_wrote hmax hpc)
  | unlock w src r => exact .inr (hinv.step_unlock hpc)

theorem total_mono {a : WriteAct P} (h : Step e f s a t) : s.total ≤ t.total := by
  have hbegun : ∀ {u : Writers P}, u.begun = s.begun → s.total ≤ u.total := fun hu => by
    rw [total, total, hu]
  unfold Step at h
  cases a with
  | call p src =>
    have hlong : s.total ≤ (({ s with begun := s.begun ++ [src] }) : Writers P).total := by
      simp only [total, List.map_append, List.sum_append]
      exact Nat.le_add_right _ _
    simp only [next] at h
    split_ifs at h
    · obtain rfl := Outcome.ok.inj h
      exact hlong
    · obtain rfl := Outcome.ok.inj h
      exact hlong
  | step p =>
    simp only [next] at h
    cases hpc : s.pc p with
    | out =>
      rw [hpc] at h
      cases h
    | test w src =>
      rw [hpc, stepPc] at h
      split_ifs at h
      · obtain rfl := Outcome.ok.inj h
        exact le_rfl
      · exact hbegun (exec_begun h fun _ _ => rfl)
    | locked w src =>
      rw [hpc, stepPc] at h
      exact hbegun (exec_begun h fun _ _ => rfl)
    | wrote w src r =>
      rw [hpc, stepPc] at h
      exact hbegun (exec_begun h fun _ _ => rfl)
    | unlock w src r =>
      rw [hpc] at h
      cases r with
      | none =>
        rw [stepPc] at h
        exact hbegun (exec_begun h fun _ _ => rfl)
      | some r =>
        simp only [stepPc] at h
        split_ifs at h
        exact hbegun (exec_begun h fun _ _ => rfl)

/-- Every step keeps the invariant, as long as there is room for the calls. -/
theorem Inv.step (hinv : Inv e.sb f ip n c₀ off₀ N s) (hoff : off₀ ≤ c₀.length)
    (hmax : off₀ + N ≤ MAXFILE * BSIZE) (hN : s.total ≤ N) {a : WriteAct P} (h : Step e f s a t) :
    Inv e.sb f ip n c₀ off₀ N t := by
  unfold Step at h
  cases a with
  | call p src =>
    simp only [next] at h
    split_ifs at h with hp hro
    · rw [hinv.writable] at hro
      cases hro
    · obtain rfl := Outcome.ok.inj h
      exact hinv.begin (not_not.mp hp) src
  | step p =>
    by_cases hp : s.pc p = .out
    · simp only [next, hp] at h
      cases h
    · rcases hinv.step_spec hoff hmax hN hp with ⟨q, -, hblocked, -⟩ | ⟨u, hok, hmoved⟩
      · rw [hblocked] at h
        cases h
      · rw [hok] at h
        obtain rfl := Outcome.ok.inj h
        exact hmoved.inv

/-- While a call is in progress, somebody can go on. -/
theorem Inv.progress (hinv : Inv e.sb f ip n c₀ off₀ N s) (hoff : off₀ ≤ c₀.length)
    (hmax : off₀ + N ≤ MAXFILE * BSIZE) (hN : s.total ≤ N) (hp : s.pc p ≠ .out) :
    ∃ q t, s.next e f (.step q) = .ok t := by
  rcases hinv.step_spec hoff hmax hN hp with ⟨q, hq, -⟩ | ⟨t, hok, -⟩
  · have hout : s.pc q ≠ .out := fun h => by
      rw [h] at hq
      exact hq
    rcases hinv.step_spec hoff hmax hN hout with ⟨-, -, -, hnot⟩ | ⟨t, hok, -⟩
    · exact absurd hq hnot
    · exact ⟨q, t, hok⟩
  · exact ⟨p, t, hok⟩

end Steps

/-- All calls have returned their counts, and the chunks of all calls stand one after the other
from the offset at the start on, those of each call in order. -/
structure Complete (sb : SuperBlock) (f : Fin NFILE) (n : ℕ) (c₀ : List UInt8) (off₀ : ℕ)
    (t : Writers P) : Prop where
  returned : ∀ i buf, t.begun[i]? = some buf → (i, some buf.length) ∈ t.returned
  off : (t.sys.ftable f).off = off₀ + t.total
  contents : contents t.sys.ic.disk (getDinode sb t.sys.ic.disk n) =
    overwrite c₀ off₀ (written t.log)
  length : (written t.log).length = t.total
  ids : ∀ x ∈ t.log, x.1 < t.begun.length
  chunks : ∀ i buf, t.begun[i]? = some buf → logged t.log i = chunks buf

section Final

variable {e : Env} {f : Fin NFILE} {ip : Ip} {n off₀ N : ℕ} {c₀ : List UInt8} {s t : Writers P}

theorem Inv.complete (hinv : Inv e.sb f ip n c₀ off₀ N t) (hout : ∀ p, t.pc p = .out) :
    Complete e.sb f n c₀ off₀ t := by
  have hover : ∀ i buf, t.begun[i]? = some buf →
      logged t.log i = Fs.chunks buf ∧ (i, some buf.length) ∈ t.returned := fun i buf hbuf =>
    hinv.finished i buf hbuf fun p w hw => by
      rw [hout p] at hw
      cases hw
  have hlength : (written t.log).length = t.total := by
    rw [length_written hinv.ids, total_eq]
    refine Finset.sum_congr rfl fun i hi => ?_
    have hi := Finset.mem_range.mp hi
    rw [(hover i _ (List.getElem?_eq_getElem hi)).1, flatten_chunks, List.getD_eq_getElem _ _ hi]
  obtain ⟨h, off, hheld⟩ := hinv.held
  cases h with
  | some p =>
    have := (hheld.inside p).mpr rfl
    rw [hout p] at this
    exact this.elim
  | none =>
    refine ⟨fun i buf hbuf => (hover i buf hbuf).2, ?_, hheld.file.contents_eq, hlength, hinv.ids,
      fun i buf hbuf => (hover i buf hbuf).1⟩
    rw [hheld.file.off_eq, ← hlength]
    exact hheld.off_eq

theorem Inv.start {s₀ : Sys P} (h : FileAt e.sb f ip n false c₀ off₀ s₀)
    (hwritable : (s₀.ftable f).writable = true) (hroom : Room e.sb s₀.ic.disk n off₀ N) :
    Inv e.sb f ip n c₀ off₀ N (start s₀) := by
  refine ⟨⟨none, off₀, ?_, fun p => iff_of_false id nofun, rfl⟩, ⟨Nat.zero_le _, hroom⟩, hwritable,
    fun _ => trivial, nofun, nofun, fun i buf hbuf => ?_, nofun, nofun⟩
  · simpa [Writers.start, written, overwrite] using h
  · simp [Writers.start] at hbuf

end Final

end Writers

/-- Writers that share an open file lose nothing. In every run of calls that fit in the largest file
and on the disk no statement panics, a call that returns returns its count, and while a call is in
progress somebody can execute a statement, which brings a call closer to its return. When no call is
in progress, the offset has moved by the sum of all counts, and the bytes from the old to the new
offset are the chunks of all calls, those of each call in order. -/
theorem shared_writers {P : Type} [DecidableEq P] {e : Env} {f : Fin NFILE} {ip : Ip} {n off₀ : ℕ}
    {c₀ : List UInt8} {s₀ : Sys P} (h : FileAt e.sb f ip n false c₀ off₀ s₀)
    (hwritable : (s₀.ftable f).writable = true) (hoff : off₀ ≤ c₀.length)
    {labels : List (WriteAct P)} {t : Writers P}
    (hrun : Run (Writers.Step e f) (Writers.start s₀) labels t)
    (hmax : off₀ + t.total ≤ MAXFILE * BSIZE) (hroom : Room e.sb s₀.ic.disk n off₀ t.total) :
    (∀ p msg, t.next e f (.step p) ≠ .panic msg) ∧
      (∀ i r, (i, r) ∈ t.returned → ∃ buf, t.begun[i]? = some buf ∧ r = some buf.length) ∧
      (∀ p, t.pc p ≠ .out → ∃ q u, t.next e f (.step q) = .ok u) ∧
      (∀ p u, t.next e f (.step p) = .ok u →
        (u.pc p).rank < (t.pc p).rank ∧ ∀ q, q ≠ p → u.pc q = t.pc q) ∧
      ((∀ p, t.pc p = .out) → Writers.Complete e.sb f n c₀ off₀ t) := by
  have hinv : Writers.Inv e.sb f ip n c₀ off₀ t.total t := hrun.invariant
    (I := fun s => s.total ≤ t.total → Writers.Inv e.sb f ip n c₀ off₀ t.total s)
    (fun _ => .start h hwritable hroom)
    (fun u a v hu hstep hv =>
      have hle := (Writers.total_mono hstep).trans hv
      (hu hle).step hoff hmax hle hstep) le_rfl
  refine ⟨fun p msg hpanic => ?_, fun i r hr => hinv.returned (i, r) hr,
    fun p hp => hinv.progress hoff hmax le_rfl hp, fun p u hu => ?_, hinv.complete⟩
  all_goals by_cases hp : t.pc p = .out
  · simp [Writers.next, hp, Writers.stepPc] at hpanic
  · rcases hinv.step_spec hoff hmax le_rfl hp with ⟨q, -, hblocked, -⟩ | ⟨u, hok, -⟩
    · rw [hblocked] at hpanic
      cases hpanic
    · rw [hok] at hpanic
      cases hpanic
  · simp [Writers.next, hp, Writers.stepPc] at hu
  · rcases hinv.step_spec hoff hmax le_rfl hp with ⟨q, -, hblocked, -⟩ | ⟨v, hok, hmoved⟩
    · rw [hblocked] at hu
      cases hu
    · rw [hok] at hu
      obtain rfl := Outcome.ok.inj hu
      exact ⟨hmoved.rank, hmoved.frame⟩

/-- Two processes write three bytes in all; the call that begins last is the first to get the
lock. -/
theorem shared_writers_two_calls :
    ∃ (labels : List (WriteAct Bool)) (t : Writers Bool),
      Run (Writers.Step ⟨wideSb, fun _ => none⟩ firstFile)
      (Writers.start (fileOpen Bool true)) labels t ∧
      t.begun = [[7], [8, 9]] ∧ t.log = [(1, [8, 9]), (0, [7])] ∧
      Writers.Complete wideSb firstFile 2 [] 0 t := by
  have hnext : ∀ (s : Writers Bool) a t,
      (Writers.next ⟨wideSb, fun _ => none⟩ firstFile s a).toOption = some t →
      Writers.Step ⟨wideSb, fun _ => none⟩ firstFile s a t :=
    fun _ _ _ h => Outcome.eq_ok_of_toOption h
  obtain ⟨t, hrun, htest⟩ := exists_run_of_runList _ hnext (Writers.start (fileOpen Bool true))
    [.call true [7], .call false [8, 9], .step false, .step false, .step false, .step false,
      .step true, .step false, .step true, .step true, .step true, .step true]
    (fun t => t.pc true = .out ∧ t.pc false = .out ∧ t.begun = [[7], [8, 9]] ∧
      t.log = [(1, [8, 9]), (0, [7])]) (by decide +kernel)
  obtain ⟨htrue, hfalse, hbegun, hlog⟩ := of_decide_eq_true htest
  have htotal : t.total = 3 := by rw [Writers.total, hbegun]; rfl
  have h := (shared_writers (e := ⟨wideSb, fun _ => none⟩) (fileAt_fileOpen Bool true firstFile) rfl
    (Nat.zero_le _) hrun (by rw [htotal]; decide) (room_fileDisk _ _)).2.2.2.2
  exact ⟨_, t, hrun, hbegun, hlog, h fun p => by cases p <;> assumption⟩

end Xv6.Fs
