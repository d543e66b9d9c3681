import Xv6.Ide.Model

/-!
# Commands that end in an error

The sessions of the buffer cache over a drive whose commands may fail. When a read fails, `ideintr`
does not copy the data of the drive and sets `B_VALID` all the same, so that `bread` returns the
buffer with what it held before; after a write that failed the sector may hold anything.

Beside the cache the state keeps, for specification, what the holders of a buffer wrote to it last
since it was given its block, and whether a read of it has failed since.
-/

namespace Xv6.Bio

open Lib

/-- How a command ended; `left` is what a write that failed leaves in the sector. -/
inductive Status
  | success
  | error (left : Block)

namespace Status

/-- The sector after a write. -/
def stored (data : Block) : Status → Block
  | success => data
  | error left => left

/-- What `ideintr` reads from the drive. -/
def fetched (data : Block) : Status → Option Block
  | success => some data
  | error _ => none

/-- The command failed. -/
def failed : Status → Bool
  | success => false
  | error _ => true

end Status

variable {W : Type*} [DecidableEq W]

/-- `iderw` for a buffer, by a command that ends with the status `st`. -/
def Cache.iderwStatus (s : Cache W) (i : Fin NBUF) (st : Status) : Cache W :=
  let b := s.buf i
  if b.dirty then
    { s.setBuf i (b.complete none) with disk := Function.update s.disk b.key (st.stored b.data) }
  else s.setBuf i (b.complete (st.fetched (s.disk b.key)))

/-- The cache over a drive that may fail. -/
structure Faulty (W : Type*) where
  cache : Cache W
  wrote : Fin NBUF → Option Block
  failed : Fin NBUF → Bool

namespace Faulty

/-- What the sessions do, with the status of the command if there is one. -/
inductive Act (W : Type*)
  | bget (w : W) (k : Key)
  | advance (w : W) (st : Status)
  | modify (w : W) (data : Block)
  | bwrite (w : W) (st : Status)
  | mark (w : W)
  | unlock (w : W)

/-- The state after `binit`. -/
def init (disk : Key → Block) : Faulty W := ⟨.binit disk, fun _ => none, fun _ => false⟩

/-- `bget`; a buffer that is recycled starts anew. -/
def bget (s : Faulty W) (w : W) (k : Key) : Outcome Panic (Faulty W) :=
  (s.cache.bget w k).bindMap id fun c =>
    match s.cache.lookup k, s.cache.victim with
    | none, some i => .ok ⟨c, Function.update s.wrote i none, Function.update s.failed i false⟩
    | _, _ => .ok { s with cache := c }

/-- The steps a session takes by itself; at the end of `bread` a buffer that is not valid is
read. -/
def advance (s : Faulty W) (w : W) (st : Status) : Option (Faulty W) :=
  match s.cache.sess w with
  | some ⟨i, k, .reading⟩ =>
    if (s.cache.buf i).valid then some { s with cache := s.cache.setSess w (some ⟨i, k, .held⟩) }
    else some { s with
      cache := (s.cache.iderwStatus i st).setSess w (some ⟨i, k, .held⟩)
      failed := Function.update s.failed i st.failed }
  | _ => (s.cache.advance w).map fun c => { s with cache := c }

/-- Change the data of a held buffer in place. -/
def modify (s : Faulty W) (w : W) (data : Block) : Option (Faulty W) :=
  match s.cache.sess w with
  | some r => (s.cache.modify w data).map fun c =>
      { s with cache := c, wrote := Function.update s.wrote r.buf (some data) }
  | none => none

/-- `bwrite`. -/
def bwrite (s : Faulty W) (w : W) (st : Status) : Option (Faulty W) :=
  match s.cache.sess w with
  | some ⟨i, k, ph⟩ =>
    if ph.Holds then
      let c := s.cache.setBuf i { s.cache.buf i with dirty := true }
      some { s with
        cache := (c.iderwStatus i st).setSess w (some ⟨i, k, .held⟩)
        wrote := Function.update s.wrote i (some (s.cache.buf i).data) }
    else none
  | none => none

/-- The steps. -/
def next (s : Faulty W) : Act W → Outcome Panic (Faulty W)
  | .bget w k => s.bget w k
  | .advance w st => .ofOption (s.advance w st)
  | .modify w data => .ofOption (s.modify w data)
  | .bwrite w st => .ofOption (s.bwrite w st)
  | .mark w => .ofOption ((s.cache.mark w).map fun c => { s with cache := c })
  | .unlock w => .ofOption ((s.cache.unlock w).map fun c => { s with cache := c })

/-- Steps that are possible and do not panic. -/
def Step (s : Faulty W) (a : Act W) (t : Faulty W) : Prop := s.next a = .ok t

/-! ### The invariant -/

variable [Fintype W]

/-- A valid buffer whose read did not fail holds what was written to it last, or what the disk has
for its block; a buffer that is not valid was not written to. -/
structure Inv (s : Faulty W) : Prop where
  tidy : s.cache.Tidy
  empty : ∀ i, (s.cache.buf i).valid = false → s.wrote i = none ∧ s.failed i = false
  data : ∀ i, (s.cache.buf i).valid = true → s.failed i = false →
    (s.cache.buf i).data = (s.wrote i).getD (s.cache.disk (s.cache.buf i).key)

variable {s t : Faulty W} {w : W} {i : Fin NBUF} {k : Key} {ph : Phase}

omit [DecidableEq W] in
theorem inv_init (disk : Key → Block) : (init disk : Faulty W).Inv :=
  ⟨Cache.tidy_binit disk, fun _ _ => ⟨rfl, rfl⟩, fun _ hv => nomatch hv⟩

omit [DecidableEq W] in
/-- A step that concerns one buffer, and of the disk at most the block it caches. -/
theorem Inv.update (h : s.Inv) (htidy : t.cache.Tidy) (i : Fin NBUF)
    (hbuf : ∀ j, j ≠ i → t.cache.buf j = s.cache.buf j)
    (hwrote : ∀ j, j ≠ i → t.wrote j = s.wrote j)
    (hfailed : ∀ j, j ≠ i → t.failed j = s.failed j)
    (hdisk : ∀ j, j ≠ i → (s.cache.buf j).valid = true →
      t.cache.disk (s.cache.buf j).key = s.cache.disk (s.cache.buf j).key)
    (hempty : (t.cache.buf i).valid = false → t.wrote i = none ∧ t.failed i = false)
    (hdata : (t.cache.buf i).valid = true → t.failed i = false →
      (t.cache.buf i).data = (t.wrote i).getD (t.cache.disk (t.cache.buf i).key)) : t.Inv := by
  refine ⟨htidy, fun j => ?_, fun j => ?_⟩
  · by_cases hj : j = i
    · rw [hj]
      exact hempty
    · rw [hbuf j hj, hwrote j hj, hfailed j hj]
      exact h.empty j
  · by_cases hj : j = i
    · rw [hj]
      exact hdata
    · rw [hbuf j hj, hwrote j hj, hfailed j hj]
      intro hv
      rw [hdisk j hj hv]
      exact h.data j hv

omit [DecidableEq W] in
/-- Another valid buffer caches another block than the one a session refers to. -/
theorem Inv.key_ne (h : s.Inv) (hw : s.cache.sess w = some ⟨i, k, ph⟩) {j : Fin NBUF} (hj : j ≠ i)
    (hv : (s.cache.buf j).valid = true) : (s.cache.buf j).key ≠ (s.cache.buf i).key :=
  fun heq => hj (h.tidy.unique heq (Cache.not_fresh_of_valid hv) (h.tidy.not_fresh hw))

/-- A session changes its buffer, or the disk under it, and keeps the buffer's data. -/
theorem Inv.put (h : s.Inv) {r : Ref} {b : Buf W} {cur : Key → Block}
    (htidy : (s.cache.put w r b s.cache.disk cur).Tidy)
    (hvalid : b.valid = (s.cache.buf r.buf).valid)
    (hdata : b.data = (s.cache.buf r.buf).data) (hkey : b.key = (s.cache.buf r.buf).key) :
    Inv { s with cache := s.cache.put w r b s.cache.disk cur } := by
  have hself : (s.cache.put w r b s.cache.disk cur).buf r.buf = b := Function.update_self _ _ _
  refine h.update htidy r.buf (fun j hj => Function.update_of_ne hj _ _) (fun _ _ => rfl)
    (fun _ _ => rfl) (fun _ _ _ => rfl) ?_ ?_ <;> dsimp only
  · rw [hself, hvalid]
    exact h.empty r.buf
  · rw [hself, hvalid, hdata, hkey]
    exact h.data r.buf

theorem Inv.bget (h : s.Inv) (ht : s.bget w k = .ok t) : t.Inv := by
  obtain ⟨c, hc, ht⟩ := Outcome.bindMap_eq_ok.mp ht
  obtain ⟨hw, ⟨i, l₁, l₂, hlook, hl, hkey, hbefore, rfl⟩ |
    ⟨i, hlook, hvict, hmiss, hcnt, -, rfl⟩⟩ :=
    Cache.bget_cases hc
  · rw [hlook] at ht
    obtain rfl := Outcome.ok.inj ht
    exact h.put (h.tidy.hit hw hl hkey hbefore).2 rfl rfl rfl
  · rw [hlook, hvict] at ht
    obtain rfl := Outcome.ok.inj ht
    refine h.update (h.tidy.recycle hw hmiss hcnt) i (fun j hj => Function.update_of_ne hj _ _)
      (fun j hj => Function.update_of_ne hj _ _) (fun j hj => Function.update_of_ne hj _ _)
      (fun _ _ _ => rfl) (fun _ => ⟨Function.update_self _ _ _, Function.update_self _ _ _⟩) ?_
    intro hv
    have hself := congrArg Buf.valid (Function.update_self i ({ s.cache.buf i with
      dev := k.1, blockno := k.2, valid := false, dirty := false, refcnt := 1 } : Buf W)
        s.cache.buf)
    exact absurd (hself.symm.trans hv) Bool.false_ne_true

/-- The end of `bread` for a buffer that is not valid. -/
theorem Inv.read_eq (h : s.Inv) (hw : s.cache.sess w = some ⟨i, k, .reading⟩)
    (hv : (s.cache.buf i).valid = false) (st : Status) :
    (s.cache.iderwStatus i st).setSess w (some ⟨i, k, .held⟩) =
      s.cache.put w ⟨i, k, .held⟩ { s.cache.buf i with
        valid := true, data := (st.fetched (s.cache.disk k)).getD (s.cache.buf i).data }
        s.cache.disk s.cache.cur := by
  have hd : (s.cache.buf i).dirty = false := by
    by_contra hd
    have := h.tidy.dirty i (by simpa using hd)
    rw [hv] at this
    cases this
  simp [Cache.iderwStatus, hd, Cache.setBuf, Cache.setSess, Cache.put,
    Buf.complete, h.tidy.key_eq hw]

/-- A read gives the buffer what the disk has, or fails. -/
theorem Inv.read (h : s.Inv) (hw : s.cache.sess w = some ⟨i, k, .reading⟩)
    (hv : (s.cache.buf i).valid = false) (st : Status) :
    Inv { s with
      cache := s.cache.put w ⟨i, k, .held⟩ { s.cache.buf i with
        valid := true, data := (st.fetched (s.cache.disk k)).getD (s.cache.buf i).data }
        s.cache.disk s.cache.cur
      failed := Function.update s.failed i st.failed } := by
  refine h.update (h.tidy.hold hw (.inl rfl) (.inl rfl) rfl rfl rfl rfl) i
    (fun j hj => Function.update_of_ne hj _ _) (fun _ _ => rfl)
    (fun j hj => Function.update_of_ne hj _ _) (fun _ _ _ => rfl) ?_ ?_ <;>
    simp only [Cache.put, Function.update_self]
  · intro hnot
    cases hnot
  · intro _ hok
    cases st with
    | success =>
      rw [(h.empty i hv).1]
      exact congrArg s.cache.disk (h.tidy.key_eq hw).symm
    | error left => cases hok

theorem Inv.leave (h : s.Inv) (hw : s.cache.sess w = some ⟨i, k, .unlocked⟩) :
    Inv { s with cache := s.cache.leave w i } := by
  refine ⟨h.tidy.leave hw, fun j => ?_, fun j => ?_⟩ <;> dsimp only
  · obtain ⟨n, hn⟩ := Cache.buf_leave (s := s.cache) (w := w) (i := i) j
    rw [hn]
    exact h.empty j
  · rw [Cache.key_leave]
    obtain ⟨n, hn⟩ := Cache.buf_leave (s := s.cache) (w := w) (i := i) j
    rw [hn]
    exact h.data j

theorem Inv.advance (h : s.Inv) {st : Status} (ht : s.advance w st = some t) : t.Inv := by
  unfold Faulty.advance at ht
  split at ht
  case h_1 i k hw =>
    split_ifs at ht with hv
    · obtain rfl := Option.some.inj ht
      have heq : s.cache.setSess w (some ⟨i, k, .held⟩) =
          s.cache.put w ⟨i, k, .held⟩ (s.cache.buf i) s.cache.disk s.cache.cur := by
        simp [Cache.setSess, Cache.put]
      rw [heq]
      exact h.put (h.tidy.hold hw (.inl rfl) (.inl rfl) rfl rfl rfl hv) rfl rfl rfl
    · obtain rfl := Option.some.inj ht
      rw [Bool.not_eq_true] at hv
      rw [h.read_eq hw hv]
      exact h.read hw hv st
  case h_2 hnot =>
    obtain ⟨c, hc, rfl⟩ := Option.map_eq_some_iff.mp ht
    obtain ⟨i, k, hw, hfree, rfl⟩ | ⟨i, k, hw, rfl⟩ | ⟨i, k, hw, rfl⟩ := Cache.advance_cases hc
    · exact h.put (h.tidy.acquire hw hfree) rfl rfl rfl
    · exact absurd hw (hnot i k)
    · exact h.leave hw

/-- The holder of a buffer gives it contents, and perhaps the disk too; nothing is asked of the
disk. -/
theorem Inv.write (h : s.Inv) (hw : s.cache.sess w = some ⟨i, k, ph⟩) {r : Ref} (hr : r.buf = i)
    {b : Buf W} {disk cur : Key → Block} (htidy : (s.cache.put w r b disk cur).Tidy)
    (hdisk : ∀ k', k' ≠ (s.cache.buf i).key → disk k' = s.cache.disk k') (hvalid : b.valid = true) :
    Inv { s with
      cache := s.cache.put w r b disk cur
      wrote := Function.update s.wrote i (some b.data) } := by
  subst hr
  refine h.update htidy r.buf (fun j hj => Function.update_of_ne hj _ _)
    (fun j hj => Function.update_of_ne hj _ _) (fun _ _ => rfl)
    (fun j hj hv => hdisk _ (h.key_ne hw hj hv)) ?_ ?_ <;>
    simp only [Cache.put, Function.update_self]
  · intro hnot
    rw [hvalid] at hnot
    cases hnot
  · exact fun _ _ => rfl

theorem Inv.modify (h : s.Inv) {data : Block} (ht : s.modify w data = some t) : t.Inv := by
  unfold Faulty.modify at ht
  split at ht
  case h_1 r hr =>
    obtain ⟨c, hc, rfl⟩ := Option.map_eq_some_iff.mp ht
    obtain ⟨i, k, ph, hw, hph, rfl⟩ := Cache.modify_cases hc
    obtain rfl : (⟨i, k, ph⟩ : Ref) = r := Option.some.inj (hw.symm.trans hr)
    have hv := h.tidy.valid w _ hw (.inl hph)
    exact h.write hw rfl (h.tidy.hold hw hph.locks (.inr rfl) rfl rfl rfl hv) (fun _ _ => rfl) hv
  case h_2 => cases ht

theorem Inv.bwrite (h : s.Inv) {st : Status} (ht : s.bwrite w st = some t) : t.Inv := by
  unfold Faulty.bwrite at ht
  split at ht
  case h_1 i k ph hw =>
    split_ifs at ht with hph
    obtain rfl := Option.some.inj ht
    have heq : ((s.cache.setBuf i { s.cache.buf i with dirty := true }).iderwStatus i st).setSess w
        (some ⟨i, k, .held⟩) =
        s.cache.put w ⟨i, k, .held⟩ { s.cache.buf i with valid := true, dirty := false }
          (Function.update s.cache.disk (s.cache.buf i).key (st.stored (s.cache.buf i).data))
          s.cache.cur := by
      simp [Cache.iderwStatus, Cache.setBuf, Cache.setSess, Cache.put, Buf.complete, Buf.key]
    rw [heq]
    exact h.write hw rfl (h.tidy.hold hw hph.locks (.inl rfl) rfl rfl rfl rfl)
      (fun k' hk' => Function.update_of_ne hk' _ _) rfl
  case h_2 => cases ht

theorem Inv.step (h : s.Inv) {a : Act W} (ht : Step s a t) : t.Inv := by
  cases a with
  | bget w k => exact h.bget ht
  | advance w st => exact h.advance (Outcome.ofOption_eq_ok.mp ht)
  | modify w data => exact h.modify (Outcome.ofOption_eq_ok.mp ht)
  | bwrite w st => exact h.bwrite (Outcome.ofOption_eq_ok.mp ht)
  | mark w =>
    obtain ⟨c, hc, rfl⟩ := Option.map_eq_some_iff.mp (Outcome.ofOption_eq_ok.mp ht)
    obtain ⟨i, k, ph, hw, hph, rfl⟩ := Cache.mark_cases hc
    have hv := h.tidy.valid w _ hw (.inl hph)
    exact h.put (h.tidy.hold hw hph.locks (.inl rfl) rfl rfl rfl hv) rfl rfl rfl
  | unlock w =>
    obtain ⟨c, hc, rfl⟩ := Option.map_eq_some_iff.mp (Outcome.ofOption_eq_ok.mp ht)
    obtain ⟨i, k, hw, rfl⟩ := Cache.unlock_cases hc
    exact h.put (h.tidy.release hw) rfl rfl rfl

end Faulty

open Faulty

variable [Fintype W]

/-- Whatever the commands end in, a buffer that `bread` returned is valid, and if no read of it has
failed since it was given its block, it holds what was written to it last since then, or else what
the disk has for the block. -/
theorem bread_valid_holds_block {disk : Key → Block} {labels : List (Act W)} {s : Faulty W}
    (hrun : Run Step (init disk) labels s) {w : W} {i : Fin NBUF} {k : Key} {ph : Phase}
    (hw : s.cache.sess w = some ⟨i, k, ph⟩) (hph : ph.Holds) (hread : s.failed i = false) :
    (s.cache.buf i).key = k ∧ (s.cache.buf i).valid = true ∧
      (s.cache.buf i).data = (s.wrote i).getD (s.cache.disk k) := by
  have h : s.Inv := hrun.invariant (inv_init disk) fun _ _ _ hu hstep => hu.step hstep
  have hkey := h.tidy.key_eq hw
  have hv := h.tidy.valid w _ hw (.inl hph)
  refine ⟨hkey, hv, ?_⟩
  rw [h.data i hv hread, hkey]

/-- The disk of the runs below: every byte of a block is its number. -/
def numbered (k : Key) : Block := fun _ => UInt8.ofNat k.2

/-- One `bread` of block `n` of disk 1, and its `brelse`. -/
def visitBlock (n : ℕ) : List (Act Unit) :=
  [.bget () (1, n), .advance () .success, .advance () .success, .unlock (), .advance () .success]

/-- A `bread` of block `n` of disk 1, with the status of the read. -/
def breadStatus (n : ℕ) (st : Status) : List (Act Unit) :=
  [.bget () (1, n), .advance () .success, .advance () st]

/-- The session holds block `n` of disk 1, which nobody wrote to, with byte `a` in the buffer and
byte `b` on the disk; `failed` tells whether the read failed. -/
def holdsByte (n : ℕ) (a b : UInt8) (failed : Bool) (s : Faulty Unit) : Bool :=
  match s.cache.sess () with
  | some ⟨i, k, .held⟩ =>
    k == (1, n) && (s.cache.buf i).valid && (s.wrote i).isNone && (s.cache.buf i).data.get 0 == a &&
      (s.cache.disk k).get 0 == b && s.failed i == failed
  | _ => false

theorem holdsByte_spec {n : ℕ} {a b : UInt8} {failed : Bool} {s : Faulty Unit}
    (h : holdsByte n a b failed s = true) :
    ∃ i, s.cache.sess () = some ⟨i, (1, n), .held⟩ ∧ (s.cache.buf i).valid = true ∧
      s.wrote i = none ∧ (s.cache.buf i).data.get 0 = a ∧ (s.cache.disk (1, n)).get 0 = b ∧
      s.failed i = failed := by
  unfold holdsByte at h
  split at h
  case h_1 i k hw =>
    simp only [Bool.and_eq_true, beq_iff_eq, Option.isNone_iff_eq_none] at h
    obtain ⟨⟨⟨⟨⟨rfl, hv⟩, hwrote⟩, ha⟩, hb⟩, hfailed⟩ := h
    exact ⟨i, hw, hv, hwrote, ha, hb, hfailed⟩
  case h_2 => cases h

/-- A buffer that is recycled and read without error. -/
theorem bread_valid_holds_block_recycled :
    ∃ (labels : List (Act Unit)) (s : Faulty Unit) (i : Fin NBUF),
      Run Step (init numbered) labels s ∧ s.cache.sess () = some ⟨i, (1, 31), .held⟩ ∧
        s.wrote i = none ∧ (s.cache.buf i).data = s.cache.disk (1, 31) := by
  obtain ⟨s, hrun, htest⟩ := exists_run_of_runList (fun s a => (s.next a).toOption)
    (fun _ _ _ => Outcome.eq_ok_of_toOption) (init numbered)
    ((List.range NBUF).flatMap (fun n => visitBlock (n + 1)) ++ breadStatus 31 .success)
    (holdsByte 31 31 31 false) (by decide +kernel)
  obtain ⟨i, hw, -, hwrote, -, -, hread⟩ := holdsByte_spec htest
  have hdata := (bread_valid_holds_block hrun hw (.inl rfl) hread).2.2
  rw [hwrote] at hdata
  exact ⟨_, s, i, hrun, hw, hwrote, hdata⟩

/-- Thirty blocks are read and released; the read of the next block fails, and `bread` returns a
valid buffer that holds block 1. -/
theorem bread_error_stale :
    ∃ (labels : List (Act Unit)) (s : Faulty Unit) (i : Fin NBUF),
      Run Step (init numbered) labels s ∧ s.cache.sess () = some ⟨i, (1, 31), .held⟩ ∧
        (s.cache.buf i).valid = true ∧ s.wrote i = none ∧ (s.cache.buf i).data.get 0 = 1 ∧
        (s.cache.disk (1, 31)).get 0 = 31 := by
  obtain ⟨s, hrun, htest⟩ := exists_run_of_runList (fun s a => (s.next a).toOption)
    (fun _ _ _ => Outcome.eq_ok_of_toOption) (init numbered)
    ((List.range NBUF).flatMap (fun n => visitBlock (n + 1)) ++
      breadStatus 31 (.error (Bytes.zero BSIZE)))
    (holdsByte 31 1 31 true) (by decide +kernel)
  obtain ⟨i, hw, hv, hwrote, hstale, hdisk, -⟩ := holdsByte_spec htest
  exact ⟨_, s, i, hrun, hw, hv, hwrote, hstale, hdisk⟩

end Xv6.Bio
