import Mathlib.Data.Fintype.Card
import Mathlib.Data.List.Pairwise
import Xv6.Lib.Transition
import Xv6.Param

/-!
# The buffer cache

The operations of `bio.c` on the thirty cached buffers, one critical section of
`bcache.lock`, one sleep-lock operation or one disk transfer a step. A *session* is one
`bread … brelse` bracket; a process that holds several buffers at once runs several
sessions. Beside the kernel's own state the cache keeps, for specification, the last
contents each block was given (`cur`) and what each session is doing (`sess`).
-/

namespace Xv6.Bio

open Lib

/-- A block of a device: device number and block number. -/
abbrev Key := ℕ × ℕ

/-- `struct buf`; `lock` is the holder of the sleep lock. -/
structure Buf (W : Type*) where
  dev : ℕ
  blockno : ℕ
  valid : Bool
  dirty : Bool
  refcnt : ℕ
  lock : Option W
  data : Block

/-- The block a buffer caches. -/
def Buf.key {W : Type*} (b : Buf W) : Key := (b.dev, b.blockno)

/-- The buffer was never used: its key is the one `binit` left there. -/
def Buf.Fresh {W : Type*} (b : Buf W) : Prop := b.valid = false ∧ b.refcnt = 0

/-- Where a session is: asleep on the buffer's lock, holding the lock before `bread`
returned, holding the buffer, holding it with a modification that was neither written
nor logged yet, past `releasesleep` in `brelse`. -/
inductive Phase
  | waiting
  | reading
  | held
  | modified
  | unlocked
  deriving DecidableEq

/-- A session's reference to a buffer, with the block it asked for. -/
structure Ref where
  buf : Fin NBUF
  key : Key
  phase : Phase

/-- The session owns the sleep lock of its buffer. -/
def Phase.Locks (p : Phase) : Prop := p = .reading ∨ p = .held ∨ p = .modified

/-- `bread` has returned and the lock is still held. -/
def Phase.Holds (p : Phase) : Prop := p = .held ∨ p = .modified

/-- `bread` has returned. -/
def Phase.Returned (p : Phase) : Prop := p.Holds ∨ p = .unlocked

theorem Phase.Holds.locks {ph : Phase} (h : ph.Holds) : ph.Locks := Or.inr h

instance (p : Phase) : Decidable p.Locks := inferInstanceAs (Decidable (_ ∨ _ ∨ _))
instance (p : Phase) : Decidable p.Holds := inferInstanceAs (Decidable (_ ∨ _))

/-- The panic of `bget`. -/
inductive Panic
  | noBuffers
  deriving DecidableEq

/-- The cache, the disk behind it and the sessions `W` using it. `mru` is the buffer list
from `head.next` to `head.prev`. -/
structure Cache (W : Type*) where
  buf : Fin NBUF → Buf W
  mru : List (Fin NBUF)
  disk : Key → Block
  sess : W → Option Ref
  cur : Key → Block

namespace Cache

variable {W : Type*} [DecidableEq W]

/-- The state after `binit`: each buffer was inserted in front of the list. -/
def binit (disk : Key → Block) : Cache W where
  buf _ := ⟨0, 0, false, false, 0, none, Bytes.zero BSIZE⟩
  mru := (List.finRange NBUF).reverse
  disk := disk
  sess _ := none
  cur := disk

/-- Replace a buffer. -/
def setBuf (s : Cache W) (i : Fin NBUF) (b : Buf W) : Cache W :=
  { s with buf := Function.update s.buf i b }

/-- Move a session. -/
def setSess (s : Cache W) (w : W) (r : Option Ref) : Cache W :=
  { s with sess := Function.update s.sess w r }

/-- The scan of `bget` for a buffer that caches `k`. -/
def lookup (s : Cache W) (k : Key) : Option (Fin NBUF) :=
  s.mru.find? fun i => (s.buf i).key = k

/-- The scan of `bget` for a buffer to recycle, from the least recently used. -/
def victim (s : Cache W) : Option (Fin NBUF) :=
  s.mru.reverse.find? fun i => (s.buf i).refcnt = 0 ∧ (s.buf i).dirty = false

/-- The critical section of `bget`; the session goes on to `acquiresleep`. -/
def bget (s : Cache W) (w : W) (k : Key) : Outcome Panic (Cache W) :=
  if (s.sess w).isSome then .blocked
  else
    match s.lookup k with
    | some i =>
      .ok ((s.setBuf i { s.buf i with refcnt := (s.buf i).refcnt + 1 }).setSess w
        (some ⟨i, k, .waiting⟩))
    | none =>
      match s.victim with
      | some i =>
        .ok ((s.setBuf i { s.buf i with
          dev := k.1, blockno := k.2, valid := false, dirty := false, refcnt := 1 }).setSess w
            (some ⟨i, k, .waiting⟩))
      | none => .panic .noBuffers

/-- `iderw`: write a dirty buffer out, read a buffer that is not valid in. -/
def iderw (s : Cache W) (i : Fin NBUF) : Cache W :=
  if (s.buf i).dirty then
    { s.setBuf i { s.buf i with valid := true, dirty := false } with
      disk := Function.update s.disk (s.buf i).key (s.buf i).data }
  else s.setBuf i { s.buf i with valid := true, data := s.disk (s.buf i).key }

/-- `refcnt--` on an `unsigned int`. -/
def decr (n : ℕ) : ℕ := if n = 0 then 0xffffffff else n - 1

/-- The second critical section of `brelse`: drop the reference and move a buffer nobody
uses to the front of the list. -/
def leave (s : Cache W) (w : W) (i : Fin NBUF) : Cache W :=
  let n := decr (s.buf i).refcnt
  { (s.setBuf i { s.buf i with refcnt := n }).setSess w none with
    mru := if n = 0 then i :: s.mru.erase i else s.mru }

/-- The steps a session takes by itself: `acquiresleep` once the lock is free, the rest of
`bread`, and the end of `brelse`. -/
def advance (s : Cache W) (w : W) : Option (Cache W) :=
  match s.sess w with
  | some ⟨i, k, .waiting⟩ =>
    if (s.buf i).lock.isNone then
      some ((s.setBuf i { s.buf i with lock := some w }).setSess w (some ⟨i, k, .reading⟩))
    else none
  | some ⟨i, k, .reading⟩ =>
    some ((if (s.buf i).valid then s else s.iderw i).setSess w (some ⟨i, k, .held⟩))
  | some ⟨i, _, .unlocked⟩ => some (s.leave w i)
  | _ => none

/-- Change the data of a held buffer in place. -/
def modify (s : Cache W) (w : W) (data : Block) : Option (Cache W) :=
  match s.sess w with
  | some ⟨i, k, ph⟩ =>
    if ph.Holds then
      some { (s.setBuf i { s.buf i with data := data }).setSess w (some ⟨i, k, .modified⟩) with
        cur := Function.update s.cur k data }
    else none
  | none => none

/-- `bwrite`: set `B_DIRTY` and let `iderw` write the buffer out. -/
def bwrite (s : Cache W) (w : W) : Option (Cache W) :=
  match s.sess w with
  | some ⟨i, k, ph⟩ =>
    if ph.Holds then
      some (((s.setBuf i { s.buf i with dirty := true }).iderw i).setSess w (some ⟨i, k, .held⟩))
    else none
  | none => none

/-- What `log_write` does to the buffer: set `B_DIRTY` to keep it cached. -/
def mark (s : Cache W) (w : W) : Option (Cache W) :=
  match s.sess w with
  | some ⟨i, k, ph⟩ =>
    if ph.Holds then
      some ((s.setBuf i { s.buf i with dirty := true }).setSess w (some ⟨i, k, .held⟩))
    else none
  | none => none

/-- The `releasesleep` of `brelse`; a modified buffer was written or logged before. -/
def unlock (s : Cache W) (w : W) : Option (Cache W) :=
  match s.sess w with
  | some ⟨i, k, .held⟩ =>
    some ((s.setBuf i { s.buf i with lock := none }).setSess w (some ⟨i, k, .unlocked⟩))
  | _ => none

/-! ### What each step does -/

variable {s t : Cache W} {w : W} {i : Fin NBUF} {k : Key} {ph : Phase}

/-- The state after session `w` took the reference `r`, replaced its buffer, and changed the
disk and the contents of blocks. -/
def put (s : Cache W) (w : W) (r : Ref) (b : Buf W) (disk cur : Key → Block) : Cache W :=
  ⟨Function.update s.buf r.buf b, s.mru, disk, Function.update s.sess w (some r), cur⟩

theorem modify_cases {data : Block} (ht : s.modify w data = some t) :
    ∃ i k ph, s.sess w = some ⟨i, k, ph⟩ ∧ ph.Holds ∧
      t = s.put w ⟨i, k, .modified⟩ { s.buf i with data := data } s.disk
        (Function.update s.cur k data) := by
  unfold Cache.modify at ht
  split at ht
  case h_1 i k ph hw =>
    split_ifs at ht with hph
    exact ⟨i, k, ph, hw, hph, (Option.some.inj ht).symm⟩
  case h_2 => simp at ht

theorem bwrite_cases (ht : s.bwrite w = some t) :
    ∃ i k ph, s.sess w = some ⟨i, k, ph⟩ ∧ ph.Holds ∧
      t = s.put w ⟨i, k, .held⟩ { s.buf i with valid := true, dirty := false }
        (Function.update s.disk (s.buf i).key (s.buf i).data) s.cur := by
  unfold Cache.bwrite at ht
  split at ht
  case h_1 i k ph hw =>
    split_ifs at ht with hph
    refine ⟨i, k, ph, hw, hph, (Option.some.inj ht).symm.trans ?_⟩
    simp [iderw, setBuf, setSess, put, Buf.key]
  case h_2 => simp at ht

theorem mark_cases (ht : s.mark w = some t) :
    ∃ i k ph, s.sess w = some ⟨i, k, ph⟩ ∧ ph.Holds ∧
      t = s.put w ⟨i, k, .held⟩ { s.buf i with dirty := true } s.disk s.cur := by
  unfold Cache.mark at ht
  split at ht
  case h_1 i k ph hw =>
    split_ifs at ht with hph
    exact ⟨i, k, ph, hw, hph, (Option.some.inj ht).symm⟩
  case h_2 => simp at ht

theorem unlock_cases (ht : s.unlock w = some t) :
    ∃ i k, s.sess w = some ⟨i, k, .held⟩ ∧
      t = s.put w ⟨i, k, .unlocked⟩ { s.buf i with lock := none } s.disk s.cur := by
  unfold Cache.unlock at ht
  split at ht
  case h_1 i k hw => exact ⟨i, k, hw, (Option.some.inj ht).symm⟩
  case h_2 => simp at ht

/-- What a session does by itself: take the free lock, return from `bread` with a valid
buffer, return from `bread` after reading the block in, or leave the buffer. -/
theorem advance_cases (ht : s.advance w = some t) :
    (∃ i k, s.sess w = some ⟨i, k, .waiting⟩ ∧ (s.buf i).lock = none ∧
      t = s.put w ⟨i, k, .reading⟩ { s.buf i with lock := some w } s.disk s.cur) ∨
    (∃ i k, s.sess w = some ⟨i, k, .reading⟩ ∧
      t = (if (s.buf i).valid then s else s.iderw i).setSess w (some ⟨i, k, .held⟩)) ∨
    (∃ i k, s.sess w = some ⟨i, k, .unlocked⟩ ∧ t = s.leave w i) := by
  unfold Cache.advance at ht
  split at ht
  case h_1 i k hw =>
    split_ifs at ht with hl
    exact .inl ⟨i, k, hw, by simpa using hl, (Option.some.inj ht).symm⟩
  case h_2 i k hw => exact .inr (.inl ⟨i, k, hw, (Option.some.inj ht).symm⟩)
  case h_3 i k hw => exact .inr (.inr ⟨i, k, hw, (Option.some.inj ht).symm⟩)
  case h_4 => simp at ht

/-- What `bget` does: it refers to the first buffer with the key, or gives the block to a buffer
that nobody uses. -/
theorem bget_cases (ht : s.bget w k = .ok t) :
    s.sess w = none ∧
    ((∃ i l₁ l₂, s.lookup k = some i ∧ s.mru = l₁ ++ i :: l₂ ∧ (s.buf i).key = k ∧
      (∀ j ∈ l₁, (s.buf j).key ≠ k) ∧
      t = s.put w ⟨i, k, .waiting⟩ { s.buf i with refcnt := (s.buf i).refcnt + 1 } s.disk s.cur) ∨
    (∃ i, s.lookup k = none ∧ s.victim = some i ∧ (∀ j ∈ s.mru, (s.buf j).key ≠ k) ∧
      (s.buf i).refcnt = 0 ∧ (s.buf i).dirty = false ∧
      t = s.put w ⟨i, k, .waiting⟩ { s.buf i with
        dev := k.1, blockno := k.2, valid := false, dirty := false, refcnt := 1 }
        s.disk s.cur)) := by
  unfold Cache.bget at ht
  split_ifs at ht with hw
  refine ⟨by simpa using hw, ?_⟩
  split at ht
  case h_1 i hi =>
    obtain ⟨hkey, l₁, l₂, hl, hbefore⟩ := List.find?_eq_some_iff_append.mp hi
    refine .inl ⟨i, l₁, l₂, hi, hl, by simpa using hkey, fun j hj => ?_, (Outcome.ok.inj ht).symm⟩
    simpa using hbefore j hj
  case h_2 hnone =>
    split at ht
    case h_1 i hi =>
      have hfree := List.find?_some hi
      simp only [decide_eq_true_eq] at hfree
      refine .inr ⟨i, hnone, hi, ?_, hfree.1, hfree.2, (Outcome.ok.inj ht).symm⟩
      simpa [lookup] using hnone
    case h_2 => cases ht

/-! ### Coherence -/

variable [Fintype W]

/-- The sessions that refer to buffer `i`. -/
def refs (s : Cache W) (i : Fin NBUF) : Finset W :=
  Finset.univ.filter fun w => (s.sess w).map Ref.buf = some i

/-- The buffers are in order, whatever their contents: the scan for a block finds the only buffer
that was ever used for it, counts and locks are those of the sessions, and a buffer that `bread`
returned is valid. -/
structure Tidy (s : Cache W) : Prop where
  nodup : s.mru.Nodup
  listed : ∀ i, i ∈ s.mru
  first : s.mru.Pairwise fun i j => (s.buf i).key = (s.buf j).key → (s.buf j).Fresh
  fresh : ∀ i, (s.buf i).Fresh → (s.buf i).dev = 0
  refcnt : ∀ i, (s.buf i).refcnt = (s.refs i).card
  named : ∀ w r, s.sess w = some r → (s.buf r.buf).key = r.key
  locked : ∀ w i, (s.buf i).lock = some w ↔ ∃ r, s.sess w = some r ∧ r.buf = i ∧ r.phase.Locks
  valid : ∀ w r, s.sess w = some r → r.phase.Returned → (s.buf r.buf).valid = true
  dirty : ∀ i, (s.buf i).dirty = true → (s.buf i).valid = true

/-- The cache agrees with the flat map `cur` of block contents: valid buffers hold the
current contents, and the disk does wherever no buffer is ahead of it. -/
structure Coherent (s : Cache W) : Prop extends Tidy s where
  data : ∀ i, (s.buf i).valid = true → (s.buf i).data = s.cur (s.buf i).key
  clean : ∀ i, ¬ (s.buf i).Fresh → (s.buf i).dirty = false →
    (∀ w r, s.sess w = some r → r.phase = .modified → r.buf ≠ i) →
    s.disk (s.buf i).key = s.cur (s.buf i).key
  absent : ∀ k, (∀ i, (s.buf i).key = k → (s.buf i).Fresh) → s.disk k = s.cur k

omit [DecidableEq W] in
theorem tidy_binit (disk : Key → Block) : (binit disk : Cache W).Tidy where
  nodup := List.nodup_reverse.mpr (List.nodup_finRange NBUF)
  listed := by simp [binit]
  first := List.pairwise_of_forall fun _ _ _ => ⟨rfl, rfl⟩
  fresh := by simp [binit]
  refcnt := by simp [binit, refs]
  named := by simp [binit]
  locked := by simp [binit]
  valid := by simp [binit]
  dirty := by simp [binit]

omit [DecidableEq W] in
theorem coherent_binit (disk : Key → Block) : (binit disk : Cache W).Coherent where
  toTidy := tidy_binit disk
  data := by simp [binit]
  clean := by simp [binit]
  absent := by simp [binit]

omit [DecidableEq W] in
theorem mem_refs : w ∈ s.refs i ↔ ∃ r, s.sess w = some r ∧ r.buf = i := by
  simp [refs]

theorem refs_setSess_some (h : s.sess w = some ⟨i, k, ph⟩) (ph' : Phase) (j : Fin NBUF) :
    (s.setSess w (some ⟨i, k, ph'⟩)).refs j = s.refs j := by
  ext v
  rw [mem_refs, mem_refs]
  by_cases hv : v = w
  · subst hv; simp [setSess, h]
  · simp [setSess, hv]

theorem refs_setSess_enter (h : s.sess w = none) (k : Key) (ph : Phase) (j : Fin NBUF) :
    (s.setSess w (some ⟨i, k, ph⟩)).refs j = if j = i then insert w (s.refs j) else s.refs j := by
  ext v
  split_ifs with hj
  · rw [Finset.mem_insert, mem_refs, mem_refs]
    by_cases hv : v = w
    · subst hv; simp [setSess, hj]
    · simp [setSess, hv]
  · rw [mem_refs, mem_refs]
    by_cases hv : v = w
    · subst hv; simp [setSess, h, Ne.symm hj]
    · simp [setSess, hv]

theorem refs_setSess_leave (h : s.sess w = some ⟨i, k, ph⟩) (j : Fin NBUF) :
    (s.setSess w none).refs j = if j = i then (s.refs j).erase w else s.refs j := by
  ext v
  split_ifs with hj
  · rw [Finset.mem_erase, mem_refs, mem_refs]
    by_cases hv : v = w
    · subst hv; simp [setSess]
    · simp [setSess, hv]
  · rw [mem_refs, mem_refs]
    by_cases hv : v = w
    · subst hv; simp [setSess, h, Ne.symm hj]
    · simp [setSess, hv]

omit [DecidableEq W] in
/-- No session but `w` has the lock of a buffer that `w` locks. -/
theorem Tidy.owner (h : s.Tidy) {r r' : Ref} {v : W} (hw : s.sess w = some r)
    (hv : s.sess v = some r') (hbuf : r.buf = r'.buf) (hr : r.phase.Locks) (hr' : r'.phase.Locks) :
    v = w := by
  have h₁ : (s.buf r.buf).lock = some w := (h.locked w r.buf).mpr ⟨r, hw, rfl, hr⟩
  have h₂ : (s.buf r.buf).lock = some v := (h.locked v r.buf).mpr ⟨r', hv, hbuf.symm, hr'⟩
  rw [h₁] at h₂
  exact (Option.some.inj h₂).symm

omit [DecidableEq W] in
theorem Tidy.key_eq (h : s.Tidy) (hw : s.sess w = some ⟨i, k, ph⟩) :
    (s.buf i).key = k := h.named w _ hw

omit [DecidableEq W] in
theorem Tidy.lock_eq (h : s.Tidy) (hw : s.sess w = some ⟨i, k, ph⟩) (hph : ph.Locks) :
    (s.buf i).lock = some w := (h.locked w i).mpr ⟨_, hw, rfl, hph⟩

omit [DecidableEq W] in
/-- No session refers to a buffer with no references. -/
theorem Tidy.not_ref (h : s.Tidy) (hcnt : (s.buf i).refcnt = 0) {v : W} {r : Ref}
    (hr : s.sess v = some r) : r.buf ≠ i := by
  intro hri
  have hmem : v ∈ s.refs i := mem_refs.mpr ⟨r, hr, hri⟩
  rw [h.refcnt, Finset.card_eq_zero] at hcnt
  simp [hcnt] at hmem

omit [DecidableEq W] in
/-- The count of a buffer that a session refers to does not wrap. -/
theorem Tidy.decr_refcnt (h : s.Tidy) (hw : s.sess w = some ⟨i, k, ph⟩) :
    decr (s.buf i).refcnt = (s.buf i).refcnt - 1 :=
  if_neg fun hzero => h.not_ref hzero hw rfl

omit [DecidableEq W] [Fintype W] in
theorem not_fresh_of_valid {b : Buf W} (hv : b.valid = true) : ¬ b.Fresh := by
  simp [Buf.Fresh, hv]

omit [DecidableEq W] in
/-- A buffer that a session refers to is in use. -/
theorem Tidy.not_fresh (h : s.Tidy) {r : Ref} (hw : s.sess w = some r) : ¬ (s.buf r.buf).Fresh :=
  fun hfresh => h.not_ref hfresh.2 hw rfl

omit [DecidableEq W] in
/-- A block is cached once. -/
theorem Tidy.unique (h : s.Tidy) {j : Fin NBUF} (hkey : (s.buf i).key = (s.buf j).key)
    (hi : ¬ (s.buf i).Fresh) (hj : ¬ (s.buf j).Fresh) : i = j := by
  by_contra hne
  have hpair : s.mru.Pairwise fun a b =>
      (s.buf a).key = (s.buf b).key → (s.buf a).Fresh ∨ (s.buf b).Fresh :=
    h.first.imp fun hab heq => .inr (hab heq)
  have : Std.Symm fun a b =>
      (s.buf a).key = (s.buf b).key → (s.buf a).Fresh ∨ (s.buf b).Fresh :=
    ⟨fun a b hab hba => (hab hba.symm).symm⟩
  exact (hpair.forall (h.listed i) (h.listed j) hne hkey).elim hi hj

omit [Fintype W] [DecidableEq W] in
/-- Replacing a buffer by one for the same block changes no key. -/
theorem key_update {b : Buf W} (hb : b.key = (s.buf i).key) (j : Fin NBUF) :
    (Function.update s.buf i b j).key = (s.buf j).key := by
  by_cases hj : j = i
  · subst hj; simp [hb]
  · simp [hj]

omit [DecidableEq W] in
/-- Replacing a buffer that a session refers to by one with the same count makes no buffer fresh. -/
theorem Tidy.fresh_update (h : s.Tidy) (hw : s.sess w = some ⟨i, k, ph⟩) {b : Buf W}
    (href : b.refcnt = (s.buf i).refcnt) (j : Fin NBUF) :
    (Function.update s.buf i b j).Fresh ↔ (s.buf j).Fresh := by
  by_cases hj : j = i
  · subst hj
    have hcnt : (s.buf j).refcnt ≠ 0 := fun hcnt => h.not_ref hcnt hw rfl
    simp [Buf.Fresh, href, hcnt]
  · rw [Function.update_of_ne hj]

/-- A step of one session on its own buffer keeps the cache in order when it leaves the buffer's
block and count alone and hands the lock on correctly. -/
theorem Tidy.update (h : s.Tidy) (hw : s.sess w = some ⟨i, k, ph⟩) {b : Buf W} {ph' : Phase}
    {disk cur : Key → Block} (hkey : b.key = k) (href : b.refcnt = (s.buf i).refcnt)
    (hfree : (s.buf i).lock = none ∨ ph.Locks) (hlock : b.lock = if ph'.Locks then some w else none)
    (hkeep : (s.buf i).valid = true → b.valid = true) (hvalid : ph'.Returned → b.valid = true)
    (hdirty : b.dirty = true → b.valid = true) :
    (s.put w ⟨i, k, ph'⟩ b disk cur).Tidy := by
  have hkeys := key_update (s := s) (i := i) (hkey.trans (h.key_eq hw).symm)
  have hdevs : ∀ j, (Function.update s.buf i b j).dev = (s.buf j).dev := fun j =>
    congrArg Prod.fst (hkeys j)
  -- the buffer was in use, so the same buffers are fresh
  have hfresh := h.fresh_update hw href
  -- no other session has the lock of buffer `i`
  have hother : ∀ v r, v ≠ w → s.sess v = some r → r.phase.Locks → r.buf ≠ i := by
    intro v r hv hr hl hri
    rcases hfree with hnone | hph
    · have := (h.locked v i).mpr ⟨r, hr, hri, hl⟩
      simp [hnone] at this
    · exact hv (h.owner hw hr hri.symm hph hl)
  refine ⟨h.nodup, h.listed, ?_, ?_, ?_, ?_, ?_, ?_, ?_⟩
  · change s.mru.Pairwise fun j j' =>
      (Function.update s.buf i b j).key = (Function.update s.buf i b j').key →
        (Function.update s.buf i b j').Fresh
    simpa only [hkeys, hfresh] using h.first
  · intro j hj
    exact (hdevs j).trans (h.fresh j ((hfresh j).mp hj))
  · intro j
    change (Function.update s.buf i b j).refcnt = ((s.setSess w _).refs j).card
    rw [refs_setSess_some hw, ← h.refcnt]
    by_cases hj : j = i
    · subst hj; simpa using href
    · simp [hj]
  · intro v r hr
    change (Function.update s.buf i b r.buf).key = r.key
    rw [hkeys]
    by_cases hv : v = w
    · subst hv
      obtain rfl : (⟨i, k, ph'⟩ : Ref) = r := by simpa [put] using hr
      exact h.named v ⟨i, k, ph⟩ hw
    · exact h.named v r (by simpa [put, hv] using hr)
  · intro v j
    change (Function.update s.buf i b j).lock = some v ↔ ∃ r, Function.update s.sess w _ v = _ ∧ _
    by_cases hv : v = w
    · subst hv
      by_cases hj : j = i
      · subst hj; simp [hlock]
      · -- the lock of another buffer is not the session's
        have : (s.buf j).lock ≠ some v := by
          rw [Ne, h.locked]
          rintro ⟨r, hr, rfl, -⟩
          rw [hw, Option.some.injEq] at hr
          exact hj (hr ▸ rfl)
        simp [hj, this, Ne.symm hj]
    · rw [Function.update_of_ne hv]
      by_cases hj : j = i
      · subst hj
        have hb : b.lock ≠ some v := by
          rw [hlock]
          split_ifs <;> simp [Ne.symm hv]
        simp only [Function.update_self, hb, false_iff, not_exists, not_and]
        exact fun r hr hrj hl => hother v r hv hr hl hrj
      · rw [Function.update_of_ne hj, h.locked]
  · intro v r hr hh
    change (Function.update s.buf i b r.buf).valid = true
    by_cases hv : v = w
    · subst hv
      obtain rfl : (⟨i, k, ph'⟩ : Ref) = r := by simpa [put] using hr
      simpa using hvalid hh
    · have hr : s.sess v = some r := by simpa [put, hv] using hr
      have hold := h.valid v r hr hh
      by_cases hj : r.buf = i
      · rw [hj, Function.update_self]
        exact hkeep (hj ▸ hold)
      · rwa [Function.update_of_ne hj]
  · intro j
    change (Function.update s.buf i b j).dirty = true → (Function.update s.buf i b j).valid = true
    by_cases hj : j = i
    · subst hj; simpa using hdirty
    · simpa [hj] using h.dirty j

/-- The owner of a buffer's lock makes the buffer valid and keeps the lock. -/
theorem Tidy.hold (h : s.Tidy) (hw : s.sess w = some ⟨i, k, ph⟩) (hph : ph.Locks) {ph' : Phase}
    (hph' : ph'.Holds) {b : Buf W} {disk cur : Key → Block} (hkey : b.key = (s.buf i).key)
    (href : b.refcnt = (s.buf i).refcnt) (hlock : b.lock = (s.buf i).lock)
    (hvalid : b.valid = true) :
    (s.put w ⟨i, k, ph'⟩ b disk cur).Tidy := by
  refine h.update hw (hkey.trans (h.key_eq hw)) href (.inr hph) ?_ (fun _ => hvalid)
    (fun _ => hvalid) fun _ => hvalid
  rw [hlock, h.lock_eq hw hph, if_pos hph'.locks]

/-- `acquiresleep` on a free lock. -/
theorem Tidy.acquire (h : s.Tidy) (hw : s.sess w = some ⟨i, k, .waiting⟩)
    (hfree : (s.buf i).lock = none) :
    (s.put w ⟨i, k, .reading⟩ { s.buf i with lock := some w } s.disk s.cur).Tidy :=
  h.update hw (h.key_eq hw) rfl (.inl hfree) rfl id (fun hret => by cases hret <;> contradiction)
    (h.dirty i)

/-- The `releasesleep` of `brelse`. -/
theorem Tidy.release (h : s.Tidy) (hw : s.sess w = some ⟨i, k, .held⟩) :
    (s.put w ⟨i, k, .unlocked⟩ { s.buf i with lock := none } s.disk s.cur).Tidy :=
  h.update hw (h.key_eq hw) rfl (.inr (.inr (.inl rfl))) rfl id
    (fun _ => h.valid w _ hw (.inl (.inl rfl))) (h.dirty i)

/-- Such a step keeps the cache coherent when the buffer and the disk are right for the block
afterwards. -/
theorem Coherent.update (h : s.Coherent) (hw : s.sess w = some ⟨i, k, ph⟩) {b : Buf W}
    {ph' : Phase} {disk cur : Key → Block} (ht : (s.put w ⟨i, k, ph'⟩ b disk cur).Tidy)
    (hkey : b.key = k) (href : b.refcnt = (s.buf i).refcnt)
    (hdata : b.valid = true → b.data = cur k)
    (hclean : b.dirty = false → ph' ≠ .modified → disk k = cur k)
    (hdisk : ∀ k', k' ≠ k → disk k' = s.disk k') (hcur : ∀ k', k' ≠ k → cur k' = s.cur k') :
    (s.put w ⟨i, k, ph'⟩ b disk cur).Coherent := by
  have hik := h.key_eq hw
  have hkeys := key_update (s := s) (i := i) (hkey.trans hik.symm)
  have hfresh := h.fresh_update hw href
  -- the other buffers in use cache other blocks
  have hne : ∀ j, j ≠ i → ¬ (s.buf j).Fresh → (s.buf j).key ≠ k := by
    intro j hj hd hjk
    exact hj (h.unique (hjk.trans hik.symm) hd (h.not_fresh hw))
  refine ⟨ht, ?_, ?_, ?_⟩
  · intro j hv
    change (Function.update s.buf i b j).data = cur (Function.update s.buf i b j).key
    change (Function.update s.buf i b j).valid = true at hv
    rw [hkeys]
    by_cases hj : j = i
    · subst hj
      rw [Function.update_self] at hv ⊢
      rw [hdata hv, hik]
    · rw [Function.update_of_ne hj] at hv ⊢
      rw [hcur _ (hne j hj (not_fresh_of_valid hv))]
      exact h.data j hv
  · intro j hd hc hm
    change disk (Function.update s.buf i b j).key = cur (Function.update s.buf i b j).key
    change (Function.update s.buf i b j).dirty = false at hc
    have hd : ¬ (s.buf j).Fresh := (hfresh j).not.mp hd
    rw [hkeys]
    by_cases hj : j = i
    · subst hj
      rw [Function.update_self] at hc
      rw [hik]
      refine hclean hc fun hmod => ?_
      exact hm w ⟨j, k, ph'⟩ (by simp [put]) hmod rfl
    · rw [Function.update_of_ne hj] at hc
      rw [hcur _ (hne j hj hd), hdisk _ (hne j hj hd)]
      refine h.clean j hd hc fun v r hr hmod => ?_
      by_cases hv : v = w
      · subst hv
        rw [hw, Option.some.injEq] at hr
        exact fun hrj => hj (by rw [← hrj, ← hr])
      · exact hm v r (by simpa [put, hv] using hr) hmod
  · intro k' hall
    change ∀ j, (Function.update s.buf i b j).key = k' → (Function.update s.buf i b j).Fresh at hall
    simp only [hkeys, hfresh] at hall
    have hkk' : k' ≠ k := by
      intro he
      exact h.not_fresh hw (hall i (hik.trans he.symm))
    change disk k' = cur k'
    rw [hdisk k' hkk', hcur k' hkk']
    exact h.absent k' hall

omit [DecidableEq W] in
/-- A session that holds a buffer sees the current contents of the block it asked for. -/
theorem Coherent.data_eq (h : s.Coherent) (hw : s.sess w = some ⟨i, k, ph⟩) (hph : ph.Holds) :
    (s.buf i).data = s.cur k := by
  rw [← h.key_eq hw]
  exact h.data i (h.valid w _ hw (.inl hph))

omit [DecidableEq W] in
/-- The disk is current for a clean buffer whose lock owner has not modified it. -/
theorem Coherent.disk_eq (h : s.Coherent) (hw : s.sess w = some ⟨i, k, ph⟩) (hl : ph.Locks)
    (hph : ph ≠ .modified) (hclean : (s.buf i).dirty = false) : s.disk k = s.cur k := by
  rw [← h.key_eq hw]
  refine h.clean i (h.not_fresh hw) hclean fun v r hr hmod hri => ?_
  obtain rfl : v = w := h.owner hw hr hri.symm hl (.inr (.inr hmod))
  rw [hw, Option.some.injEq] at hr
  exact hph (by rw [← hmod, ← hr])

theorem Coherent.modify (h : s.Coherent) {data : Block} (ht : s.modify w data = some t) :
    t.Coherent := by
  obtain ⟨i, k, ph, hw, hph, rfl⟩ := modify_cases ht
  apply h.update hw
  · exact h.hold hw hph.locks (.inr rfl) rfl rfl rfl (h.valid w _ hw (.inl hph))
  · exact h.key_eq hw
  · rfl
  · simp
  · simp
  · simp
  · intro k' hk'; simp [hk']

theorem Coherent.bwrite (h : s.Coherent) (ht : s.bwrite w = some t) : t.Coherent := by
  obtain ⟨i, k, ph, hw, hph, rfl⟩ := bwrite_cases ht
  rw [h.key_eq hw, h.data_eq hw hph]
  apply h.update hw
  · exact h.hold hw hph.locks (.inl rfl) rfl rfl rfl rfl
  · exact h.key_eq hw
  · rfl
  · exact fun _ => h.data_eq hw hph
  · simp
  · intro k' hk'; simp [hk']
  · simp

theorem Coherent.mark (h : s.Coherent) (ht : s.mark w = some t) : t.Coherent := by
  obtain ⟨i, k, ph, hw, hph, rfl⟩ := mark_cases ht
  apply h.update hw
  · exact h.hold hw hph.locks (.inl rfl) rfl rfl rfl (h.valid w _ hw (.inl hph))
  · exact h.key_eq hw
  · rfl
  · exact fun _ => h.data_eq hw hph
  · simp
  · simp
  · simp

theorem Coherent.unlock (h : s.Coherent) (ht : s.unlock w = some t) : t.Coherent := by
  obtain ⟨i, k, hw, rfl⟩ := unlock_cases ht
  have hheld : Phase.held.Holds := .inl rfl
  apply h.update hw
  · exact h.release hw
  · exact h.key_eq hw
  · rfl
  · exact fun _ => h.data_eq hw hheld
  · exact fun hclean _ => h.disk_eq hw hheld.locks (by simp) hclean
  · simp
  · simp

theorem Coherent.acquire (h : s.Coherent) (hw : s.sess w = some ⟨i, k, .waiting⟩)
    (hfree : (s.buf i).lock = none) :
    (s.put w ⟨i, k, .reading⟩ { s.buf i with lock := some w } s.disk s.cur).Coherent := by
  apply h.update hw
  · exact h.toTidy.acquire hw hfree
  · exact h.key_eq hw
  · rfl
  · intro hv
    rw [← h.key_eq hw]
    exact h.data i hv
  · intro hclean _
    rw [← h.key_eq hw]
    refine h.clean i (h.not_fresh hw) hclean fun v r hr hmod hri => ?_
    -- a session with a modification would own the lock
    have := (h.locked v i).mpr ⟨r, hr, hri, .inr (.inr hmod)⟩
    simp [hfree] at this
  · simp
  · simp

/-- The buffer that `bread` returns: the cached one, or the block read in. -/
def filled (s : Cache W) (i : Fin NBUF) : Buf W :=
  if (s.buf i).valid then s.buf i
  else { s.buf i with valid := true, data := s.disk (s.buf i).key }

/-- The end of `bread` on a coherent cache: a buffer that is not valid is never dirty, so
`iderw` reads it in. -/
theorem Coherent.read_eq (h : s.Coherent) :
    (if (s.buf i).valid then s else s.iderw i).setSess w (some ⟨i, k, .held⟩) =
      s.put w ⟨i, k, .held⟩ (s.filled i) s.disk s.cur := by
  cases hv : (s.buf i).valid with
  | true => simp [hv, setSess, put, filled]
  | false =>
    have hd : (s.buf i).dirty = false := by
      by_contra hd
      simp [h.dirty i (by simpa using hd)] at hv
    simp [hv, hd, iderw, setSess, setBuf, put, filled]

theorem Coherent.read (h : s.Coherent) (hw : s.sess w = some ⟨i, k, .reading⟩) :
    (s.put w ⟨i, k, .held⟩ (s.filled i) s.disk s.cur).Coherent := by
  have hl : Phase.reading.Locks := .inl rfl
  have hkey := h.key_eq hw
  apply h.update hw
  · refine h.hold hw hl (.inl rfl) ?_ ?_ ?_ ?_
    · unfold filled; split <;> rfl
    · unfold filled; split <;> rfl
    · unfold filled; split <;> rfl
    · unfold filled; split <;> simp [*]
  · unfold filled; split <;> exact hkey
  · unfold filled; split <;> rfl
  · intro _
    unfold filled
    split
    case isTrue hv => rw [← hkey]; exact h.data i hv
    case isFalse hv =>
      have hd : (s.buf i).dirty = false := by
        by_contra hd
        exact hv (h.dirty i (by simpa using hd))
      simpa [hkey] using h.disk_eq hw hl (by simp) hd
  · intro hclean _
    refine h.disk_eq hw hl (by simp) ?_
    unfold filled at hclean
    split at hclean <;> exact hclean
  · simp
  · simp

/-- A new session on buffer `i` keeps the cache in order when no other buffer is in use for its
block and the scan meets none before `i`. -/
theorem Tidy.enter (h : s.Tidy) (hw : s.sess w = none) {l₁ l₂ : List (Fin NBUF)}
    (hl : s.mru = l₁ ++ i :: l₂) {b : Buf W}
    (hkey : b.key = k) (hlock : b.lock = (s.buf i).lock) (hcnt : b.refcnt = (s.buf i).refcnt + 1)
    (hbefore : ∀ j ∈ l₁, (s.buf j).key ≠ k) (hafter : ∀ j ∈ l₂, (s.buf j).key = k → (s.buf j).Fresh)
    (hold : ∀ v r, s.sess v = some r → r.buf = i → r.key = k ∧ b.valid = (s.buf i).valid)
    (hdirty : b.dirty = true → b.valid = true) :
    (s.put w ⟨i, k, .waiting⟩ b s.disk s.cur).Tidy := by
  -- the sessions of the new state, told apart by `w`
  have hsess : ∀ v r, (s.put w ⟨i, k, .waiting⟩ b s.disk s.cur).sess v = some r →
      (v = w ∧ r = ⟨i, k, .waiting⟩) ∨ (v ≠ w ∧ s.sess v = some r) := by
    intro v r hr
    by_cases hv : v = w
    · subst hv
      exact .inl ⟨rfl, by simpa [put, eq_comm] using hr⟩
    · exact .inr ⟨hv, by simpa [put, hv] using hr⟩
  have hself : (s.put w ⟨i, k, .waiting⟩ b s.disk s.cur).buf i = b := by simp [put]
  have hrest : ∀ j, j ≠ i → (s.put w ⟨i, k, .waiting⟩ b s.disk s.cur).buf j = s.buf j := by
    intro j hj; simp [put, hj]
  have hnotFresh : ¬ b.Fresh := by simp [Buf.Fresh, hcnt]
  refine ⟨h.nodup, h.listed, ?_, ?_, ?_, ?_, ?_, ?_, ?_⟩
  · -- only the pairs with `i` are different
    have hfirst := h.first
    have hnodup := h.nodup
    change s.mru.Pairwise _
    rw [hl] at hfirst hnodup ⊢
    obtain ⟨hpair₁, hpair₂, hcross⟩ := List.pairwise_append.mp hfirst
    obtain ⟨hpairi, hpair₂⟩ := List.pairwise_cons.mp hpair₂
    have hne₁ : ∀ j ∈ l₁, j ≠ i := by
      rintro j hj rfl
      exact List.disjoint_of_nodup_append hnodup hj List.mem_cons_self
    have hne₂ : ∀ j ∈ l₂, j ≠ i := by
      rintro j hj rfl
      exact (List.nodup_cons.mp (List.nodup_append.mp hnodup).2.1).1 hj
    refine List.pairwise_append.mpr ⟨?_, List.pairwise_cons.mpr ⟨?_, ?_⟩, ?_⟩
    · refine hpair₁.imp_of_mem fun {a c} ha hc hac => ?_
      rwa [hrest a (hne₁ a ha), hrest c (hne₁ c hc)]
    · intro c hc
      rw [hself, hrest c (hne₂ c hc), hkey, eq_comm]
      exact hafter c hc
    · refine hpair₂.imp_of_mem fun {a c} ha hc hac => ?_
      rwa [hrest a (hne₂ a ha), hrest c (hne₂ c hc)]
    · intro a ha c hc
      rw [hrest a (hne₁ a ha)]
      rcases List.mem_cons.mp hc with rfl | hc
      · rw [hself, hkey]
        exact fun heq => absurd heq (hbefore a ha)
      · rw [hrest c (hne₂ c hc)]
        exact hcross a ha c (List.mem_cons_of_mem _ hc)
  · intro j hj
    by_cases hji : j = i
    · subst hji
      rw [hself] at hj
      exact absurd hj hnotFresh
    · rw [hrest j hji] at hj ⊢
      exact h.fresh j hj
  · intro j
    change (Function.update s.buf i b j).refcnt = ((s.setSess w _).refs j).card
    rw [refs_setSess_enter hw]
    have hnot : w ∉ s.refs j := by simp [mem_refs, hw]
    split_ifs with hj
    · subst hj
      rw [Function.update_self, hcnt, Finset.card_insert_of_notMem hnot, h.refcnt]
    · rw [Function.update_of_ne hj, h.refcnt]
  · intro v r hr
    rcases hsess v r hr with ⟨-, rfl⟩ | ⟨-, hr⟩
    · rw [hself, hkey]
    · by_cases hj : r.buf = i
      · rw [hj, hself, hkey, (hold v r hr hj).1]
      · rw [hrest _ hj, h.named v r hr]
  · intro v j
    have hlocks : ((s.put w ⟨i, k, .waiting⟩ b s.disk s.cur).buf j).lock = (s.buf j).lock := by
      by_cases hj : j = i
      · subst hj; rw [hself, hlock]
      · rw [hrest j hj]
    rw [hlocks, h.locked]
    constructor
    · rintro ⟨r, hr, hrj⟩
      have hv : v ≠ w := by
        rintro rfl
        simp [hw] at hr
      exact ⟨r, by simpa [put, hv] using hr, hrj⟩
    · rintro ⟨r, hr, hrj, hl⟩
      rcases hsess v r hr with ⟨-, rfl⟩ | ⟨-, hr⟩
      · simp [Phase.Locks] at hl
      · exact ⟨r, hr, hrj, hl⟩
  · intro v r hr hh
    rcases hsess v r hr with ⟨-, rfl⟩ | ⟨-, hr⟩
    · simp [Phase.Returned, Phase.Holds] at hh
    · by_cases hj : r.buf = i
      · rw [hj, hself, (hold v r hr hj).2, ← hj]
        exact h.valid v r hr hh
      · rw [hrest _ hj]
        exact h.valid v r hr hh
  · intro j
    by_cases hj : j = i
    · subst hj; rw [hself]; exact hdirty
    · rw [hrest j hj]; exact h.dirty j

/-- It keeps the cache coherent when the buffer is right for the block; `hgone` is about a block the
buffer stops caching. -/
theorem Coherent.enter (h : s.Coherent) (hw : s.sess w = none) {b : Buf W}
    (ht : (s.put w ⟨i, k, .waiting⟩ b s.disk s.cur).Tidy) (hkey : b.key = k)
    (hcnt : b.refcnt = (s.buf i).refcnt + 1) (hdata : b.valid = true → b.data = s.cur k)
    (hclean : b.dirty = false → (∀ v r, s.sess v = some r → r.phase = .modified → r.buf ≠ i) →
      s.disk k = s.cur k)
    (hgone : ¬ (s.buf i).Fresh → (s.buf i).key ≠ k → s.disk (s.buf i).key = s.cur (s.buf i).key) :
    (s.put w ⟨i, k, .waiting⟩ b s.disk s.cur).Coherent := by
  have hself : (s.put w ⟨i, k, .waiting⟩ b s.disk s.cur).buf i = b := by simp [put]
  have hrest : ∀ j, j ≠ i → (s.put w ⟨i, k, .waiting⟩ b s.disk s.cur).buf j = s.buf j := by
    intro j hj; simp [put, hj]
  refine ⟨ht, ?_, ?_, ?_⟩
  · intro j hv
    by_cases hj : j = i
    · subst hj
      rw [hself] at hv ⊢
      rw [hkey]
      exact hdata hv
    · rw [hrest j hj] at hv ⊢
      exact h.data j hv
  · intro j hd hc hm
    have hm' : ∀ v r, s.sess v = some r → r.phase = .modified → r.buf ≠ j := by
      intro v r hr hmod
      have hv : v ≠ w := by
        rintro rfl
        simp [hw] at hr
      exact hm v r (by simpa [put, hv] using hr) hmod
    by_cases hj : j = i
    · subst hj
      rw [hself] at hc ⊢
      rw [hkey]
      exact hclean hc hm'
    · rw [hrest j hj] at hd hc ⊢
      exact h.clean j hd hc hm'
  · intro k' hall
    have hkk' : (s.buf i).key = k' → k' ≠ k := by
      rintro - rfl
      have := hall i (by rw [hself, hkey])
      rw [hself] at this
      simp [Buf.Fresh, hcnt] at this
    by_cases hi : (s.buf i).key = k' ∧ ¬ (s.buf i).Fresh
    · obtain ⟨rfl, hi⟩ := hi
      exact hgone hi (hkk' rfl)
    · refine h.absent k' fun j hjk => ?_
      by_cases hj : j = i
      · subst hj
        by_contra hfresh
        exact hi ⟨hjk, hfresh⟩
      · have := hall j
        rw [hrest j hj] at this
        exact this hjk

/-- The buffer of a hit: it is the first one with the key, and the others with the key are fresh. -/
theorem Tidy.hit (h : s.Tidy) (hw : s.sess w = none) {l₁ l₂ : List (Fin NBUF)}
    (hl : s.mru = l₁ ++ i :: l₂) (hkey : (s.buf i).key = k)
    (hbefore : ∀ j ∈ l₁, (s.buf j).key ≠ k) :
    (∀ j, j ≠ i → (s.buf j).key = k → (s.buf j).Fresh) ∧
      (s.put w ⟨i, k, .waiting⟩ { s.buf i with refcnt := (s.buf i).refcnt + 1 }
        s.disk s.cur).Tidy := by
  have hafter : ∀ j ∈ l₂, (s.buf j).key = k → (s.buf j).Fresh := by
    have hfirst := h.first
    rw [hl] at hfirst
    intro j hj hjk
    exact (List.pairwise_cons.mp (List.pairwise_append.mp hfirst).2.1).1 j hj (hkey.trans hjk.symm)
  refine ⟨fun j hj hjk => ?_, ?_⟩
  · have hmem := h.listed j
    rw [hl] at hmem
    rcases List.mem_append.mp hmem with hj₁ | hj₂
    · exact absurd hjk (hbefore j hj₁)
    · exact hafter j ((List.mem_cons.mp hj₂).resolve_left hj) hjk
  · refine h.enter hw hl hkey rfl rfl hbefore hafter (fun v r hr hri => ⟨?_, rfl⟩) (h.dirty i)
    rw [← hkey, ← hri, h.named v r hr]

/-- The buffer of a miss has no sessions. -/
theorem Tidy.recycle (h : s.Tidy) (hw : s.sess w = none) (hmiss : ∀ j ∈ s.mru, (s.buf j).key ≠ k)
    (hcnt : (s.buf i).refcnt = 0) :
    (s.put w ⟨i, k, .waiting⟩ { s.buf i with
      dev := k.1, blockno := k.2, valid := false, dirty := false
      refcnt := 1 } s.disk s.cur).Tidy := by
  obtain ⟨l₁, l₂, hl⟩ := List.append_of_mem (h.listed i)
  refine h.enter hw hl rfl rfl ?_ (fun j hj => hmiss j ?_) (fun j hj hjk => absurd hjk (hmiss j ?_))
    (fun v r hr hri => absurd hri (h.not_ref hcnt hr)) (fun hd => nomatch hd)
  · rw [hcnt]
  · rw [hl]
    exact List.mem_append_left _ hj
  · rw [hl]
    exact List.mem_append_right _ (List.mem_cons_of_mem _ hj)

theorem Coherent.bget (h : s.Coherent) (ht : s.bget w k = .ok t) : t.Coherent := by
  obtain ⟨hw, ⟨i, l₁, l₂, -, hl, hkey, hbefore, rfl⟩ | ⟨i, -, -, hmiss, hcnt, hclean, rfl⟩⟩ :=
    bget_cases ht
  · obtain ⟨hother, htidy⟩ := h.hit hw hl hkey hbefore
    apply h.enter hw htidy hkey rfl
    · intro hv
      rw [← hkey]
      exact h.data i hv
    · intro hc hm
      by_cases hfresh : (s.buf i).Fresh
      · refine h.absent k fun j hjk => ?_
        by_cases hj : j = i
        · rwa [hj]
        · exact hother j hj hjk
      · rw [← hkey]
        exact h.clean i hfresh hc hm
    · exact fun _ hne => absurd hkey hne
  · -- the disk has what a recycled buffer cached
    apply h.enter hw (h.recycle hw hmiss hcnt) rfl
    · simp [hcnt]
    · simp
    · exact fun _ _ => h.absent k fun j hjk => absurd hjk (hmiss j (h.listed j))
    · exact fun hd _ => h.clean i hd hclean fun v r hr _ => h.not_ref hcnt hr

omit [Fintype W] in
theorem sess_leave {v : W} {r : Ref} : (s.leave w i).sess v = some r ↔ v ≠ w ∧
    s.sess v = some r := by
  by_cases hv : v = w
  · simp [Cache.leave, setSess, setBuf, hv]
  · simp [Cache.leave, setSess, setBuf, hv]

omit [Fintype W] in
/-- But for its count, no buffer changes. -/
theorem buf_leave (j : Fin NBUF) : ∃ n, (s.leave w i).buf j = { s.buf j with refcnt := n } := by
  by_cases hj : j = i
  · subst hj
    exact ⟨_, by simp [Cache.leave, setSess, setBuf]; rfl⟩
  · exact ⟨(s.buf j).refcnt, by simp [Cache.leave, setSess, setBuf, hj]⟩

omit [Fintype W] in
theorem key_leave (j : Fin NBUF) : ((s.leave w i).buf j).key = (s.buf j).key := by
  obtain ⟨n, hn⟩ := buf_leave (s := s) (w := w) (i := i) j
  rw [hn, Buf.key, Buf.key]

/-- A session that leaves its buffer makes no buffer fresh: `bread` left it valid. -/
theorem Tidy.fresh_leave (h : s.Tidy) (hw : s.sess w = some ⟨i, k, .unlocked⟩) (j : Fin NBUF) :
    ((s.leave w i).buf j).Fresh ↔ (s.buf j).Fresh := by
  by_cases hj : j = i
  · subst hj
    have hv := h.valid w _ hw (.inr rfl)
    obtain ⟨n, hn⟩ := buf_leave (s := s) (w := w) (i := j) j
    rw [hn]
    exact iff_of_false (not_fresh_of_valid hv) (not_fresh_of_valid hv)
  · simp [Cache.leave, setSess, setBuf, hj]

/-- The end of `brelse`. -/
theorem Tidy.leave (h : s.Tidy) (hw : s.sess w = some ⟨i, k, .unlocked⟩) : (s.leave w i).Tidy := by
  have hfirst : ∀ l : List (Fin NBUF),
      l.Pairwise (fun j j' => ((s.leave w i).buf j).key = ((s.leave w i).buf j').key →
        ((s.leave w i).buf j').Fresh) ↔
      l.Pairwise (fun j j' => (s.buf j).key = (s.buf j').key → (s.buf j').Fresh) := by
    intro l
    simp only [key_leave, h.fresh_leave hw]
  have hmru : (s.leave w i).mru =
      if decr (s.buf i).refcnt = 0 then i :: s.mru.erase i else s.mru := rfl
  -- the list changes only if the count drops to 0
  refine ⟨?_, ?_, ?_, ?_, ?_, ?_, ?_, ?_, ?_⟩
  · rw [hmru]
    split_ifs
    · exact List.nodup_cons.mpr ⟨h.nodup.not_mem_erase, h.nodup.erase i⟩
    · exact h.nodup
  · intro j
    rw [hmru]
    split_ifs
    · by_cases hj : j = i
      · simp [hj]
      · exact List.mem_cons_of_mem _ ((List.mem_erase_of_ne hj).mpr (h.listed j))
    · exact h.listed j
  · rw [hfirst, hmru]
    split_ifs
    · refine List.pairwise_cons.mpr ⟨fun j hj hkey => ?_, h.first.sublist List.erase_sublist⟩
      by_contra hfresh
      have hij := h.unique hkey (h.not_fresh hw) hfresh
      exact h.nodup.not_mem_erase (hij ▸ hj)
    · exact h.first
  · intro j hj
    obtain ⟨n, hn⟩ := buf_leave (s := s) (w := w) (i := i) j
    rw [hn]
    exact h.fresh j ((h.fresh_leave hw j).mp hj)
  · intro j
    change (Function.update s.buf i _ j).refcnt = ((s.setSess w none).refs j).card
    rw [refs_setSess_leave hw]
    split_ifs with hj
    · subst hj
      rw [Function.update_self, Finset.card_erase_of_mem (mem_refs.mpr ⟨_, hw, rfl⟩), ← h.refcnt]
      exact h.decr_refcnt hw
    · rw [Function.update_of_ne hj, h.refcnt]
  · intro v r hr
    rw [key_leave]
    exact h.named v r (sess_leave.mp hr).2
  · intro v j
    obtain ⟨n, hn⟩ := buf_leave (s := s) (w := w) (i := i) j
    rw [hn, h.locked]
    constructor
    · rintro ⟨r, hr, hrj, hl⟩
      refine ⟨r, sess_leave.mpr ⟨?_, hr⟩, hrj, hl⟩
      rintro rfl
      rw [hw, Option.some.injEq] at hr
      subst hr
      simp [Phase.Locks] at hl
    · rintro ⟨r, hr, hrj⟩
      exact ⟨r, (sess_leave.mp hr).2, hrj⟩
  · intro v r hr hh
    obtain ⟨n, hn⟩ := buf_leave (s := s) (w := w) (i := i) r.buf
    rw [hn]
    exact h.valid v r (sess_leave.mp hr).2 hh
  · intro j
    obtain ⟨n, hn⟩ := buf_leave (s := s) (w := w) (i := i) j
    rw [hn]
    exact h.dirty j

theorem Coherent.leave (h : s.Coherent) (hw : s.sess w = some ⟨i, k, .unlocked⟩) :
    (s.leave w i).Coherent := by
  refine ⟨h.toTidy.leave hw, ?_, ?_, ?_⟩
  · intro j
    rw [key_leave]
    obtain ⟨n, hn⟩ := buf_leave (s := s) (w := w) (i := i) j
    rw [hn]
    exact h.data j
  · intro j hd
    rw [h.fresh_leave hw] at hd
    rw [key_leave]
    obtain ⟨n, hn⟩ := buf_leave (s := s) (w := w) (i := i) j
    rw [hn]
    intro hc hm
    refine h.clean j hd hc fun v r hr hmod => hm v r (sess_leave.mpr ⟨?_, hr⟩) hmod
    rintro rfl
    rw [hw, Option.some.injEq] at hr
    subst hr
    cases hmod
  · intro k' hall
    refine h.absent k' fun j hj => (h.fresh_leave hw j).mp (hall j ?_)
    rw [key_leave, hj]

/-- Whatever a session does by itself keeps the cache coherent. -/
theorem Coherent.advance (h : s.Coherent) (ht : s.advance w = some t) : t.Coherent := by
  obtain ⟨i, k, hw, hfree, rfl⟩ | ⟨i, k, hw, rfl⟩ | ⟨i, k, hw, rfl⟩ := advance_cases ht
  · exact h.acquire hw hfree
  · rw [h.read_eq]
    exact h.read hw
  · exact h.leave hw

end Cache

end Xv6.Bio
