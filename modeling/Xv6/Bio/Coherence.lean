import Xv6.Bio.Commit

/-!
# Coherence of the buffer cache under the log

The invariant that ties the cache, the log's copies and the marked blocks together, and
what it says about every disciplined run: the cache behaves as a flat map of block
contents.
-/

namespace Xv6.Bio

open Lib Log

namespace Sys

variable {U : Type*} [DecidableEq U] (L : LogArea)

/-! ### The invariant -/

/-- How many of the `n` entries `install_trans` has written home. -/
def done (n : ℕ) : CommitPc → ℕ
  | .install tail pt => if pt.past then tail + 1 else tail
  | .clear | .erase _ | .finish => n
  | _ => 0

/-- How many of the `n` entries `write_log` has copied to the log. -/
def copied (n : ℕ) : CommitPc → ℕ
  | .off => 0
  | .writeLog tail pt => if pt.past then tail + 1 else tail
  | _ => n

@[simp] theorem done_off (n : ℕ) : done n .off = 0 := rfl

@[simp] theorem copied_off (n : ℕ) : copied n .off = 0 := rfl

/-- The blocks of the committing process's sessions. -/
def Place (c : Cache (U ⊕ Bool)) (lh : List ℕ) : CommitPc → Prop
  | .writeLog tail pt | .install tail pt =>
    tail < lh.length ∧ CopyPlace c (logKey L tail) (homeKey lh tail) pt
  | .head pt => 0 < lh.length ∧ L.Contains L.start ∧ HeadPlace c (headKey L) pt
  | .clear => L.Contains L.start
  | .erase pt => lh = [] ∧ L.Contains L.start ∧ HeadPlace c (headKey L) pt
  | .finish => lh = []
  | .off => True

/-- A user session has changed block `k` and not saved the change yet. -/
def Modifying (c : Cache (U ⊕ Bool)) (k : Key) : Prop :=
  ∃ u r, c.sess (.inl u) = some r ∧ r.phase = .modified ∧ r.key = k

variable [Fintype U]

/-- The invariant: the cache is coherent, its contents are the users' last modifications,
the marked blocks are the entries not installed yet and stay cached, and the log's copies
agree with their home blocks until those are installed. -/
structure Inv (s : Sys U) : Prop where
  coherent : s.cache.Coherent
  size : s.log.size = L.size
  idle : s.commit = .off → s.log.committing = false ∧ 0 ≤ s.log.outstanding
  busy : s.commit ≠ .off → s.log.committing = true ∧ s.log.outstanding = 0
  nodup : s.log.lh.Nodup
  fits : ∀ j < s.log.lh.length, L.Contains (L.start + j + 1)
  outside : ∀ b ∈ s.log.lh, ¬ L.Contains b
  place : Place L s.cache s.log.lh s.commit
  last : ∀ k, ¬ InLog L k → s.last k = s.cache.cur k
  marks : ∀ k, s.marked k = true ↔
    k.1 = ROOTDEV ∧ k.2 ∈ s.log.lh.drop (done s.log.lh.length s.commit)
  pinned : ∀ k, s.marked k = true → ∃ i, (s.cache.buf i).key = k ∧ (s.cache.buf i).dirty = true
  copies : ∀ j b, done s.log.lh.length s.commit ≤ j → j < copied s.log.lh.length s.commit →
    s.log.lh[j]? = some b →
    s.cache.cur (logKey L j) = s.cache.cur (ROOTDEV, b) ∨ Modifying s.cache (ROOTDEV, b)

variable {L} {s t : Sys U} {c : Cache (U ⊕ Bool)}

omit [DecidableEq U] in
theorem inv_init (disk : Key → Block) : (init L disk : Sys U).Inv L where
  coherent := Cache.coherent_binit disk
  size := rfl
  idle := by simp [init, LogState.init]
  busy := by simp [init]
  nodup := by simp [init, LogState.init]
  fits := by simp [init, LogState.init]
  outside := by simp [init, LogState.init]
  place := trivial
  last := by simp [init, Cache.binit]
  marks := by simp [init, LogState.init]
  pinned := by simp [init]
  copies := by simp [init, LogState.init]

omit [DecidableEq U] in
/-- A quiet step of the cache, with a step of `commit` that leaves the counts as they
are, keeps the invariant. -/
theorem Inv.quiet (h : s.Inv L) (hc : c.Coherent) (hq : Quiet s.cache c) {pc : CommitPc}
    (hoff : pc = .off ↔ s.commit = .off)
    (hdone : done s.log.lh.length pc = done s.log.lh.length s.commit)
    (hcopied : copied s.log.lh.length pc = copied s.log.lh.length s.commit)
    (hplace : Place L c s.log.lh pc) :
    ({ s with cache := c, commit := pc } : Sys U).Inv L where
  coherent := hc
  size := h.size
  idle hpc := h.idle (hoff.mp hpc)
  busy hpc := h.busy (mt hoff.mpr hpc)
  nodup := h.nodup
  fits := h.fits
  outside := h.outside
  place := hplace
  last k hk := by rw [hq.cur]; exact h.last k hk
  marks k := by rw [hdone]; exact h.marks k
  pinned k hk := by
    obtain ⟨i, rfl, hi⟩ := h.pinned k hk
    exact ⟨i, hq.pinned i hi⟩
  copies j b hj hj' hb := by
    rw [hdone] at hj
    rw [hcopied] at hj'
    rw [hq.cur]
    refine (h.copies j b hj hj' hb).imp_right ?_
    rintro ⟨u, r, hr, hmod, hk⟩
    exact ⟨u, r, (hq.modified _ r hmod).mpr hr, hmod, hk⟩

omit [DecidableEq U] [Fintype U] in
theorem Place.keeps {lh : List ℕ} {pc : CommitPc} {c' : Cache (U ⊕ Bool)}
    (h : Place L c lh pc) (hk : ∀ b, KeepsKey c c' (slot b)) : Place L c' lh pc := by
  cases pc with
  | writeLog tail pt => exact ⟨h.1, h.2.keeps hk⟩
  | install tail pt => exact ⟨h.1, h.2.keeps hk⟩
  | head pt => exact ⟨h.1, h.2.1, h.2.2.keeps hk⟩
  | erase pt => exact ⟨h.1, h.2.1, h.2.2.keeps hk⟩
  | off => trivial
  | clear => exact h
  | finish => exact h

omit [DecidableEq U] in
/-- A quiet step of the cache alone. -/
theorem Inv.quiet_user (h : s.Inv L) (hc : c.Coherent) (hq : Quiet s.cache c)
    (hk : ∀ b, KeepsKey s.cache c (slot b)) : ({ s with cache := c } : Sys U).Inv L :=
  h.quiet hc hq Iff.rfl rfl rfl (h.place.keeps hk)

omit [DecidableEq U] in
theorem logKey_inLog (h : s.Inv L) {j : ℕ} (hj : j < s.log.lh.length) : InLog L (logKey L j) :=
  ⟨rfl, h.fits j hj⟩

omit [DecidableEq U] in
theorem Inv.copied_le (h : s.Inv L) : copied s.log.lh.length s.commit ≤ s.log.lh.length := by
  have hp := h.place
  cases hpc : s.commit with
  | writeLog tail pt =>
    rw [hpc] at hp
    have := hp.1
    simp only [copied]
    split_ifs <;> omega
  | _ => simp [copied]

omit [DecidableEq U] in
/-- The entries not installed yet are marked. -/
theorem Inv.marked_of_pending (h : s.Inv L) {j b : ℕ}
    (hj : done s.log.lh.length s.commit ≤ j) (hb : s.log.lh[j]? = some b) :
    s.marked (ROOTDEV, b) = true := by
  refine (h.marks _).mpr ⟨rfl, ?_⟩
  refine List.mem_of_getElem? (i := j - done s.log.lh.length s.commit) ?_
  rw [List.getElem?_drop, Nat.add_sub_cancel' hj]
  exact hb

/-- A user changes a block outside the log. -/
theorem Inv.modify (h : s.Inv L) {u : U} {data : Block} {r : Ref}
    (hr : s.cache.sess (.inl u) = some r) (hlog : ¬ InLog L r.key)
    (hc : s.cache.modify (.inl u) data = some c) :
    ({ s with cache := c, last := Function.update s.last r.key data } : Sys U).Inv L := by
  have hcoh := h.coherent.modify hc
  obtain ⟨i, k, ph, hw, hph, rfl⟩ := Cache.modify_cases hc
  obtain rfl : (⟨i, k, ph⟩ : Ref) = r := by simpa [hw] using hr
  refine ⟨hcoh, h.size, h.idle, h.busy, h.nodup, h.fits, h.outside, ?_, ?_, h.marks, ?_, ?_⟩
  · refine h.place.keeps fun b => ?_
    exact .of_eq (by simp [Cache.put, slot])
  · intro k' hk'
    by_cases hkk' : k' = k
    · subst hkk'; simp [Cache.put]
    · simpa [Cache.put, hkk'] using h.last k' hk'
  · intro k' hk'
    obtain ⟨j, hjk, hj⟩ := h.pinned k' hk'
    refine ⟨j, ?_⟩
    by_cases hji : j = i
    · subst hji; exact ⟨by simpa [Cache.put, Buf.key] using hjk, by simpa [Cache.put] using hj⟩
    · simpa [Cache.put, hji] using ⟨hjk, hj⟩
  · intro j b hj hj' hb
    by_cases hkb : k = (ROOTDEV, b)
    · -- the home block itself changed: the user is modifying it now
      exact .inr ⟨u, ⟨i, k, .modified⟩, by simp [Cache.put], rfl, hkb⟩
    · have hne : logKey L j ≠ k := by
        rintro rfl
        exact hlog (logKey_inLog h (Nat.lt_of_lt_of_le hj' h.copied_le))
      rcases h.copies j b hj hj' hb with heq | ⟨u', r', hr', hmod, hk'⟩
      · left
        simpa [Cache.put, hne, Ne.symm hkb] using heq
      · right
        refine ⟨u', r', ?_, hmod, hk'⟩
        have hu : u' ≠ u := by
          rintro rfl
          rw [hw, Option.some.injEq] at hr'
          exact hkb (by rw [← hk', ← hr'])
        simpa [Cache.put, hu] using hr'

/-- A user writes a block that is not marked. -/
theorem Inv.bwrite (h : s.Inv L) {u : U} {r : Ref} (hr : s.cache.sess (.inl u) = some r)
    (hmark : s.marked r.key = false) (hc : s.cache.bwrite (.inl u) = some c) :
    ({ s with cache := c } : Sys U).Inv L := by
  have hcoh := h.coherent.bwrite hc
  obtain ⟨i, k, ph, hw, hph, rfl⟩ := Cache.bwrite_cases hc
  obtain rfl : (⟨i, k, ph⟩ : Ref) = r := by simpa [hw] using hr
  refine ⟨hcoh, h.size, h.idle, h.busy, h.nodup, h.fits, h.outside, ?_, h.last, h.marks, ?_, ?_⟩
  · refine h.place.keeps fun b => ?_
    exact .of_eq (by simp [Cache.put, slot])
  · intro k' hk'
    obtain ⟨j, hjk, hj⟩ := h.pinned k' hk'
    have hji : j ≠ i := by
      rintro rfl
      rw [← hjk, h.coherent.key_eq hw, hmark] at hk'
      cases hk'
    exact ⟨j, by simpa [Cache.put, hji] using ⟨hjk, hj⟩⟩
  · intro j b hj hj' hb
    refine (h.copies j b hj hj' hb).imp_right ?_
    rintro ⟨u', r', hr', hmod, hk'⟩
    refine ⟨u', r', ?_, hmod, hk'⟩
    have hu : u' ≠ u := by
      rintro rfl
      rw [hw, Option.some.injEq] at hr'
      have hkb : k = (ROOTDEV, b) := by rw [← hk', ← hr']
      have := h.marked_of_pending hj hb
      rw [← hkb, hmark] at this
      cases this
    simpa [Cache.put, hu] using hr'

/-- A user logs a block of the log's device outside the log; this is not possible while
`commit` runs. -/
theorem Inv.logWrite (h : s.Inv L) {u : U} {r : Ref} {log : LogState}
    (hr : s.cache.sess (.inl u) = some r) (hlog : ¬ InLog L r.key) (hdev : r.key.1 = ROOTDEV)
    (hc : s.cache.mark (.inl u) = some c) (hl : s.log.logWrite r.key.2 = .ok log) :
    ({ s with cache := c, log := log, marked := Function.update s.marked r.key true } :
      Sys U).Inv L := by
  have hcoh := h.coherent.mark hc
  obtain ⟨i, k, ph, hw, hph, rfl⟩ := Cache.mark_cases hc
  obtain rfl : (⟨i, k, ph⟩ : Ref) = r := by simpa [hw] using hr
  obtain ⟨-, hroom, hout, rfl⟩ := LogState.logWrite_eq_ok hl
  -- `commit` runs only when no operation is outstanding, and one is
  have hoff : s.commit = .off := by
    by_contra hne
    have := (h.busy hne).2
    omega
  obtain ⟨hcom, hnn⟩ := h.idle hoff
  have hk : k = (ROOTDEV, k.2) := Prod.ext hdev rfl
  refine ⟨hcoh, h.size, fun _ => ⟨hcom, hnn⟩, fun hne => absurd hoff hne,
    LogState.nodup_absorb _ h.nodup, ?_, ?_, ?_, h.last, ?_, ?_, ?_⟩
  · intro j hj
    have hlen := LogState.length_absorb s.log.lh k.2
    rw [h.size] at hroom
    refine ⟨by omega, ?_⟩
    change j < (LogState.absorb s.log.lh k.2).length at hj
    split_ifs at hlen <;> omega
  · intro b hb
    rcases LogState.mem_absorb.mp hb with rfl | hb
    · exact fun hin => hlog ⟨hdev, hin⟩
    · exact h.outside b hb
  · change Place L _ _ s.commit
    rw [hoff]
    trivial
  · intro k'
    have hm := h.marks k'
    rw [hoff, done_off, List.drop_zero] at hm
    change Function.update s.marked k true k' = true ↔ k'.1 = ROOTDEV ∧
      k'.2 ∈ (LogState.absorb s.log.lh k.2).drop (done _ s.commit)
    rw [hoff, done_off, List.drop_zero, LogState.mem_absorb]
    by_cases hkk : k' = k
    · subst hkk; simpa using hdev
    · rw [Function.update_of_ne hkk, hm]
      refine and_congr_right fun hd => ?_
      have : k'.2 ≠ k.2 := fun he => hkk (Prod.ext (hd.trans hdev.symm) he)
      simp [this]
  · intro k' hk'
    change Function.update s.marked k true k' = true at hk'
    by_cases hkk : k' = k
    · subst hkk
      exact ⟨i, by simpa [Cache.put, Buf.key] using h.coherent.key_eq hw, by simp [Cache.put]⟩
    · rw [Function.update_of_ne hkk] at hk'
      obtain ⟨j, hjk, hj⟩ := h.pinned k' hk'
      have hji : j ≠ i := by
        rintro rfl
        exact hkk (hjk.symm.trans (h.coherent.key_eq hw))
      exact ⟨j, by simpa [Cache.put, hji] using ⟨hjk, hj⟩⟩
  · intro j b _ hj'
    change j < copied _ s.commit at hj'
    rw [hoff] at hj'
    exact absurd hj' (Nat.not_lt_zero j)

omit [DecidableEq U] in
theorem Inv.not_inLog_of_marked (h : s.Inv L) {k : Key} (hk : s.marked k = true) :
    ¬ InLog L k := fun hin => h.outside k.2 (List.mem_of_mem_drop ((h.marks k).mp hk).2) hin.2

omit [DecidableEq U] [Fintype U] in
theorem Modifying.of_sess {c c' : Cache (U ⊕ Bool)} {k : Key}
    (hsess : ∀ u, c'.sess (.inl u) = c.sess (.inl u)) (h : Modifying c k) : Modifying c' k := by
  obtain ⟨u, r, hr, hmod, hk⟩ := h
  exact ⟨u, r, (hsess u).trans hr, hmod, hk⟩

omit [DecidableEq U] in
/-- The committing process writes a block of the log. -/
theorem Inv.write_inLog (h : s.Inv L) (hc : c.Coherent) {i : Fin NBUF} {k : Key} {data : Block}
    (hin : InLog L k) (hik : (s.cache.buf i).key = k) (hbuf : ∀ j, j ≠ i → c.buf j = s.cache.buf j)
    (hcur : c.cur = Function.update s.cache.cur k data)
    (hsess : ∀ u, c.sess (.inl u) = s.cache.sess (.inl u)) {pc : CommitPc}
    (hoff : pc = .off ↔ s.commit = .off)
    (hdone : done s.log.lh.length pc = done s.log.lh.length s.commit)
    (hplace : Place L c s.log.lh pc)
    (hcopies : ∀ j b, done s.log.lh.length s.commit ≤ j → j < copied s.log.lh.length pc →
      s.log.lh[j]? = some b →
      (j < copied s.log.lh.length s.commit ∧ logKey L j ≠ k) ∨
        (logKey L j = k ∧ data = s.cache.cur (ROOTDEV, b))) :
    ({ s with cache := c, commit := pc } : Sys U).Inv L where
  coherent := hc
  size := h.size
  idle hpc := h.idle (hoff.mp hpc)
  busy hpc := h.busy (mt hoff.mpr hpc)
  nodup := h.nodup
  fits := h.fits
  outside := h.outside
  place := hplace
  last k' hk' := by
    have hne : k' ≠ k := fun he => hk' (he ▸ hin)
    rw [hcur, Function.update_of_ne hne]
    exact h.last k' hk'
  marks k' := by rw [hdone]; exact h.marks k'
  pinned k' hk' := by
    obtain ⟨j, hjk, hj⟩ := h.pinned k' hk'
    have hji : j ≠ i := by
      rintro rfl
      exact h.not_inLog_of_marked hk' (hjk ▸ hik ▸ hin)
    exact ⟨j, by rw [hbuf j hji]; exact ⟨hjk, hj⟩⟩
  copies j b hj hj' hb := by
    rw [hdone] at hj
    -- home blocks lie outside the log, so this write left them alone
    have hhome : (ROOTDEV, b) ≠ k := by
      rintro rfl
      exact h.outside b (List.mem_of_getElem? hb) hin.2
    change c.cur _ = c.cur _ ∨ Modifying c _
    rw [hcur, Function.update_of_ne hhome]
    rcases hcopies j b hj hj' hb with ⟨hold, hne⟩ | ⟨rfl, rfl⟩
    · rw [Function.update_of_ne hne]
      exact (h.copies j b hj hold hb).imp_right (Modifying.of_sess hsess)
    · left
      rw [Function.update_self]

omit [DecidableEq U] in
/-- `install_trans` writes entry `tail` home: the copy agrees with the home block, so no
contents change, and the block is no longer marked. -/
theorem Inv.install (h : s.Inv L) (hc : c.Coherent) {tail b : ℕ} {i : Fin NBUF} {r : Ref}
    (hpc : s.commit = .install tail .both) (hb : s.log.lh[tail]? = some b)
    (hr : s.cache.sess (slot true) = some r) (hhold : r.phase.Locks)
    (hrk : r.key = (ROOTDEV, b)) (hri : r.buf = i)
    (hbuf : ∀ j, j ≠ i → c.buf j = s.cache.buf j)
    (hcur : c.cur = Function.update s.cache.cur (ROOTDEV, b) (s.cache.cur (logKey L tail)))
    (hsess : ∀ u, c.sess (.inl u) = s.cache.sess (.inl u)) :
    ({ s with
      cache := c
      commit := .install tail .written
      marked := Function.update s.marked (ROOTDEV, b) false } : Sys U).Inv L := by
  have htail : tail < s.log.lh.length := (List.getElem?_eq_some_iff.mp hb).1
  have hik : (s.cache.buf i).key = (ROOTDEV, b) := by rw [← hri, h.coherent.named _ _ hr, hrk]
  have hcur' : c.cur = s.cache.cur := by
    have hcopy := h.copies tail b (by simp [hpc, done, Point.past])
      (by simpa [hpc, copied] using htail) hb
    rcases hcopy with heq | ⟨u, r', hr', hmod, hk'⟩
    · rw [hcur, heq, Function.update_eq_self]
    · -- a user that is modifying the block would own the lock this session owns
      have hsame : r'.buf = i := by
        refine h.coherent.unique ?_ (h.coherent.not_fresh hr') (hri ▸ h.coherent.not_fresh hr)
        rw [h.coherent.named _ _ hr', hk', hik]
      have := h.coherent.owner hr hr' (hri.trans hsame.symm) hhold (.inr (.inr hmod))
      cases this
  -- the blocks that are left to install
  have hdrop : ∀ b', b' ∈ s.log.lh.drop (tail + 1) ↔ b' ∈ s.log.lh.drop tail ∧ b' ≠ b := by
    intro b'
    have hcons : s.log.lh.drop tail = b :: s.log.lh.drop (tail + 1) := by
      rw [List.drop_eq_getElem_cons htail]
      congr 1
      exact (List.getElem?_eq_some_iff.mp hb).2
    have hnd := (List.drop_sublist tail s.log.lh).nodup h.nodup
    rw [hcons, List.nodup_cons] at hnd
    rw [hcons, List.mem_cons]
    constructor
    · intro hmem
      exact ⟨.inr hmem, fun he => hnd.1 (he ▸ hmem)⟩
    · rintro ⟨rfl | hmem, hne⟩
      · exact absurd rfl hne
      · exact hmem
  have hmark : ∀ k, Function.update s.marked (ROOTDEV, b) false k = true ↔
      s.marked k = true ∧ k ≠ (ROOTDEV, b) := by
    intro k
    by_cases hk : k = (ROOTDEV, b)
    · subst hk; simp
    · simp [hk]
  refine ⟨hc, h.size, by simp, fun _ => h.busy (by simp [hpc]), h.nodup, h.fits, h.outside,
    ⟨htail, trivial⟩, ?_, ?_, ?_, ?_⟩
  · intro k hk
    rw [hcur']
    exact h.last k hk
  · intro k
    change Function.update s.marked _ false k = true ↔ _ ∧ k.2 ∈ s.log.lh.drop (tail + 1)
    have hm := h.marks k
    rw [hpc] at hm
    change s.marked k = true ↔ _ ∧ k.2 ∈ s.log.lh.drop tail at hm
    rw [hmark, hm, hdrop, and_assoc]
    refine and_congr_right fun hd => and_congr_right fun _ => not_congr ?_
    exact ⟨fun he => by rw [he], fun he => Prod.ext hd he⟩
  · intro k hk
    obtain ⟨hk, hne⟩ := (hmark k).mp hk
    obtain ⟨j, hjk, hj⟩ := h.pinned k hk
    have hji : j ≠ i := by
      rintro rfl
      exact hne (hjk.symm.trans hik)
    exact ⟨j, by rw [hbuf j hji]; exact ⟨hjk, hj⟩⟩
  · intro j b' hj hj' hb'
    change tail + 1 ≤ j at hj
    change c.cur _ = c.cur _ ∨ Modifying c _
    rw [hcur']
    refine (h.copies j b' ?_ ?_ hb').imp_right (Modifying.of_sess hsess)
    · simp only [hpc, done, Point.past]
      simp only [Bool.false_eq_true, if_false]
      omega
    · simpa [hpc, copied] using hj'

omit [DecidableEq U] in
theorem Inv.contains_start (h : s.Inv L) {tail : ℕ} (ht : tail < s.log.lh.length) :
    L.Contains L.start := by
  have := (h.fits tail ht).2
  exact ⟨le_rfl, by omega⟩

theorem logKey_injective : Function.Injective (logKey L) := by
  intro j j' h
  have : L.start + j + 1 = L.start + j' + 1 := congrArg Prod.snd h
  omega

theorem logKey_ne_headKey (j : ℕ) : logKey L j ≠ headKey L := by
  intro h
  have : L.start + j + 1 = L.start := congrArg Prod.snd h
  omega

theorem homeKey_eq {lh : List ℕ} {tail : ℕ} (h : tail < lh.length) :
    lh[tail]? = some (lh.getD tail 0) := by
  simp [h]

/-- A step of `write_log` keeps the invariant. -/
theorem Inv.writeLog (h : s.Inv L) {tail : ℕ} {pt : Point} {pt' : Option Point}
    (hpc : s.commit = .writeLog tail pt)
    (hc : copyNext s.cache false (logKey L tail) (homeKey s.log.lh tail) pt = .ok (c, pt')) :
    ({ s with
      cache := c
      commit := loopPc .writeLog (.head .enter) s.log.lh.length tail pt' } : Sys U).Inv L := by
  have hp := h.place
  rw [hpc] at hp
  obtain ⟨htail, hplace⟩ := hp
  have hdone : done s.log.lh.length s.commit = 0 := by rw [hpc]; rfl
  rcases copyNext_cases h.coherent hplace hc with
    ⟨rfl, rfl, hw⟩ | ⟨hne, hcoh, hq, hpt⟩
  · -- the copy of entry `tail` reaches the log
    obtain ⟨r, hr, hrk, -, hbuf⟩ := hw.buf
    refine h.write_inLog hw.coherent (logKey_inLog h htail)
      ((h.coherent.named _ _ hr).trans hrk) hbuf hw.cur hw.users (by simp [hpc, loopPc])
      (by rw [hdone]; rfl) ⟨htail, trivial⟩ ?_
    intro j b _ hj' hb
    change j < tail + 1 at hj'
    rcases Nat.lt_succ_iff_lt_or_eq.mp hj' with hlt | rfl
    · left
      refine ⟨by simpa [hpc, copied, Point.past] using hlt, fun he => ?_⟩
      exact absurd (logKey_injective he) (Nat.ne_of_lt hlt)
    · right
      refine ⟨rfl, ?_⟩
      rw [homeKey_eq htail, Option.some.injEq] at hb
      rw [if_neg (by simp), homeKey, hb]
  · cases pt' with
    | some pt' =>
      exact h.quiet hcoh hq (by simp [hpc, loopPc]) (by rw [hdone]; rfl)
        (by simp only [hpc, loopPc, copied, hpt.1]) ⟨htail, hpt.2⟩
    | none =>
      change pt.past = true at hpt
      have hcopied : copied s.log.lh.length s.commit = tail + 1 := by simp [hpc, copied, hpt]
      change Inv L { s with cache := c, commit := if _ then _ else _ }
      split_ifs with hlast
      · exact h.quiet hcoh hq (by simp [hpc]) (by rw [hdone]; rfl)
          (by rw [hcopied]; rfl) ⟨hlast, trivial⟩
      · refine h.quiet hcoh hq (by simp [hpc]) (by rw [hdone]; rfl) ?_
          ⟨by omega, h.contains_start htail, trivial⟩
        rw [hcopied]
        change s.log.lh.length = tail + 1
        omega

/-- A step of `install_trans` keeps the invariant. -/
theorem Inv.installTrans (h : s.Inv L) {tail : ℕ} {pt : Point} {pt' : Option Point}
    (hpc : s.commit = .install tail pt)
    (hc : copyNext s.cache true (logKey L tail) (homeKey s.log.lh tail) pt = .ok (c, pt')) :
    ({ s with
      cache := c
      commit := loopPc .install .clear s.log.lh.length tail pt'
      marked := if pt = .both then Function.update s.marked (homeKey s.log.lh tail) false
        else s.marked } : Sys U).Inv L := by
  have hp := h.place
  rw [hpc] at hp
  obtain ⟨htail, hplace⟩ := hp
  have hcopied : copied s.log.lh.length s.commit = s.log.lh.length := by rw [hpc]; rfl
  rcases copyNext_cases h.coherent hplace hc with
    ⟨rfl, rfl, hw⟩ | ⟨hne, hcoh, hq, hpt⟩
  · obtain ⟨r, hr, hrk, hl, hbuf⟩ := hw.buf
    exact h.install hw.coherent hpc (homeKey_eq htail) hr hl hrk rfl hbuf hw.cur hw.users
  · simp only [hne, if_false]
    cases pt' with
    | some pt' =>
      exact h.quiet hcoh hq (by simp [hpc, loopPc]) (by simp only [hpc, loopPc, done, hpt.1])
        (by rw [hcopied]; rfl) ⟨htail, hpt.2⟩
    | none =>
      change pt.past = true at hpt
      have hdone : done s.log.lh.length s.commit = tail + 1 := by simp [hpc, done, hpt]
      change Inv L { s with cache := c, commit := if _ then _ else _ }
      split_ifs with hlast
      · exact h.quiet hcoh hq (by simp [hpc]) (by rw [hdone]; rfl)
          (by rw [hcopied]; rfl) ⟨hlast, trivial⟩
      · refine h.quiet hcoh hq (by simp [hpc]) ?_ (by rw [hcopied]; rfl)
          (h.contains_start htail)
        rw [hdone]
        change s.log.lh.length = tail + 1
        omega

/-- A step of `write_head`, in the commit or when it erases the transaction, keeps the
invariant; `pc` is the stage as a function of the point and `fin` the stage after it. -/
theorem Inv.writeHead (h : s.Inv L) {pt : HeadPoint} {pt' : Option HeadPoint}
    {pc : HeadPoint → CommitPc} {fin : CommitPc} (hpc : s.commit = pc pt)
    (hstage : pc = .head ∧ fin = .install 0 .enter ∨ pc = .erase ∧ fin = .finish)
    (hc : headNext s.cache (headKey L) s.log.lh pt = .ok (c, pt')) :
    ({ s with cache := c, commit := (pt'.map pc).getD fin } : Sys U).Inv L := by
  have hp := h.place
  rw [hpc] at hp
  -- the counts and the test for a running commit do not depend on the point
  have hcounts : (L.Contains L.start ∧ HeadPlace s.cache (headKey L) pt) ∧
      (∀ p, (pc p = .off ↔ s.commit = .off) ∧
        done s.log.lh.length (pc p) = done s.log.lh.length s.commit ∧
        copied s.log.lh.length (pc p) = copied s.log.lh.length s.commit ∧
        (HeadPlace c (headKey L) p → Place L c s.log.lh (pc p))) ∧
      (fin = .off ↔ s.commit = .off) ∧
      done s.log.lh.length fin = done s.log.lh.length s.commit ∧
      copied s.log.lh.length fin = copied s.log.lh.length s.commit ∧
      Place L c s.log.lh fin := by
    rw [hpc]
    rcases hstage with ⟨rfl, rfl⟩ | ⟨rfl, rfl⟩
    · exact ⟨hp.2, fun p => ⟨by simp, rfl, rfl, fun hh => ⟨hp.1, hp.2.1, hh⟩⟩, by simp, rfl, rfl,
        hp.1, trivial⟩
    · exact ⟨hp.2, fun p => ⟨by simp, rfl, rfl, fun hh => ⟨hp.1, hp.2.1, hh⟩⟩, by simp, rfl, rfl,
        hp.1⟩
  obtain ⟨⟨hstart, hplace₀⟩, hcounts, hfin⟩ := hcounts
  rcases headNext_cases h.coherent hplace₀ hc with ⟨rfl, data, hw⟩ | ⟨hcoh, hq, hpl⟩
  · obtain ⟨r, hr, hrk, -, hbuf⟩ := hw.buf
    obtain ⟨hoff, hdone, hcopied, hplace⟩ := hcounts .written
    refine h.write_inLog hw.coherent ⟨rfl, hstart⟩ ((h.coherent.named _ _ hr).trans hrk) hbuf
      hw.cur hw.users hoff hdone (hplace trivial) ?_
    intro j b _ hj' _
    exact .inl ⟨hj'.trans_eq hcopied, logKey_ne_headKey j⟩
  · cases pt' with
    | some p =>
      obtain ⟨hoff, hdone, hcopied, hplace⟩ := hcounts p
      exact h.quiet hcoh hq hoff hdone hcopied (hplace (hpl p rfl))
    | none => exact h.quiet hcoh hq hfin.1 hfin.2.1 hfin.2.2.1 hfin.2.2.2

theorem inv_commit (h : s.Inv L) (ht : s.commitNext L = .ok t) : t.Inv L := by
  unfold commitNext at ht
  split at ht
  case h_1 => cases ht
  case h_2 tail pt hpc =>
    obtain ⟨⟨c, pt'⟩, hc, ht⟩ := Outcome.bindMap_eq_ok.mp ht
    obtain rfl := Outcome.ok.inj ht
    exact h.writeLog hpc hc
  case h_3 pt hpc =>
    obtain ⟨⟨c, pt'⟩, hc, ht⟩ := Outcome.bindMap_eq_ok.mp ht
    obtain rfl := Outcome.ok.inj ht
    exact h.writeHead hpc (.inl ⟨rfl, rfl⟩) hc
  case h_4 tail pt hpc =>
    obtain ⟨⟨c, pt'⟩, hc, ht⟩ := Outcome.bindMap_eq_ok.mp ht
    obtain rfl := Outcome.ok.inj ht
    exact h.installTrans hpc hc
  case h_5 hpc =>
    obtain rfl := Outcome.ok.inj ht
    -- every entry is installed, so no block is marked
    have hmarks : ∀ k, ¬ s.marked k = true := by
      intro k hk
      have := ((h.marks k).mp hk).2
      simp [hpc, done] at this
    refine ⟨h.coherent, h.size, by simp, fun _ => h.busy (by simp [hpc]), List.nodup_nil, by simp,
      by simp, ?_, h.last, ?_, fun k hk => absurd hk (hmarks k), by simp⟩
    · have := h.place
      rw [hpc] at this
      exact ⟨rfl, this, trivial⟩
    · intro k
      simp [hmarks k]
  case h_6 pt hpc =>
    obtain ⟨⟨c, pt'⟩, hc, ht⟩ := Outcome.bindMap_eq_ok.mp ht
    obtain rfl := Outcome.ok.inj ht
    exact h.writeHead hpc (.inr ⟨rfl, rfl⟩) hc
  case h_7 hpc =>
    obtain rfl := Outcome.ok.inj ht
    have hlh : s.log.lh = [] := by
      have := h.place
      rwa [hpc] at this
    have hmarks := h.marks
    simp only [hlh, List.drop_nil] at hmarks
    refine ⟨h.coherent, h.size, fun _ => ⟨rfl, (h.busy (by simp [hpc])).2.ge⟩, by simp, h.nodup,
      h.fits, h.outside, trivial, h.last, ?_, h.pinned, ?_⟩
    · intro k
      simpa [hlh] using hmarks k
    · simp [hlh]

omit [DecidableEq U] in
theorem inv_beginOp (h : s.Inv L) {log : LogState} (hl : s.log.beginOp = some log) :
    ({ s with log := log } : Sys U).Inv L := by
  obtain ⟨⟨hcom, -⟩, rfl⟩ := LogState.beginOp_eq_some_iff.mp hl
  have hoff : s.commit = .off := by
    by_contra hne
    simp [(h.busy hne).1] at hcom
  obtain ⟨-, hnn⟩ := h.idle hoff
  exact ⟨h.coherent, h.size, fun _ => ⟨hcom, by simp only; omega⟩, fun hne => absurd hoff hne,
    h.nodup, h.fits, h.outside, h.place, h.last, h.marks, h.pinned, h.copies⟩

omit [DecidableEq U] in
theorem inv_endOp (h : s.Inv L) {log : LogState} {last : Bool} (hout : ¬ s.log.outstanding < 1)
    (hl : s.log.endOp = .ok (last, log)) :
    ({ s with
      log := log
      commit := if last then (if 0 < log.lh.length then .writeLog 0 .enter else .finish)
        else s.commit } : Sys U).Inv L := by
  obtain ⟨hcom, hlast, rfl⟩ := LogState.endOp_eq_ok hl
  have hoff : s.commit = .off := by
    by_contra hne
    simp [(h.busy hne).1] at hcom
  have hmarks := h.marks
  rw [hoff, done_off] at hmarks
  cases last with
  | false =>
    have hne : s.log.outstanding ≠ 1 := fun he => by simpa using hlast.mpr he
    exact ⟨h.coherent, h.size, fun _ => ⟨rfl, by simp only; omega⟩, fun hne => absurd hoff hne,
      h.nodup, h.fits, h.outside, h.place, h.last, h.marks, h.pinned, h.copies⟩
  | true =>
    have hone : s.log.outstanding = 1 := hlast.mp rfl
    by_cases hlen : 0 < s.log.lh.length
    · simp only [hlen, if_true]
      exact ⟨h.coherent, h.size, by simp, fun _ => ⟨rfl, by simp only; omega⟩, h.nodup, h.fits,
        h.outside, ⟨hlen, trivial⟩, h.last, hmarks, h.pinned,
        fun j b _ hj' => absurd hj' (Nat.not_lt_zero j)⟩
    · have hnil : s.log.lh = [] := List.length_eq_zero_iff.mp (by omega)
      simp only [hlen, if_true, if_false]
      refine ⟨h.coherent, h.size, by simp, fun _ => ⟨rfl, by simp only; omega⟩, h.nodup, h.fits,
        h.outside, hnil, h.last, ?_, h.pinned, ?_⟩
      · intro k
        simpa [hnil] using hmarks k
      · simp [hnil]

/-- Every step of a disciplined system keeps the invariant. -/
theorem inv_step (a : Act U) (h : s.Inv L) (hd : Disciplined L s a) (ht : Step L s a t) :
    t.Inv L := by
  unfold Step at ht
  cases a with
  | bget u k =>
    simp only [next] at ht
    split_ifs at ht with hk
    obtain ⟨c, hc, ht⟩ := Outcome.bindMap_eq_ok.mp ht
    obtain rfl := Outcome.ok.inj ht
    refine h.quiet_user (h.coherent.bget hc) (quiet_bget hc) fun b => ?_
    exact .of_eq ((bget_sess hc).2 _ (by simp [slot]))
  | advance w =>
    obtain ⟨c, hc, rfl⟩ := Option.map_eq_some_iff.mp (Outcome.ofOption_eq_ok.mp ht)
    exact h.quiet_user (h.coherent.advance hc) (quiet_advance h.coherent hc)
      fun b => keepsKey_advance h.coherent hc _
  | modify u data =>
    simp only [next] at ht
    split at ht
    case h_1 r c hr hc =>
      obtain rfl := Outcome.ok.inj ht
      exact h.modify hr (hd r hr) hc
    case h_2 => cases ht
  | bwrite u =>
    obtain ⟨c, hc, rfl⟩ := Option.map_eq_some_iff.mp (Outcome.ofOption_eq_ok.mp ht)
    obtain ⟨i, k, ph, hw, -⟩ := Cache.bwrite_cases hc
    exact h.bwrite hw (hd _ hw).2 hc
  | logWrite u =>
    simp only [next] at ht
    split at ht
    case h_1 r c hr hc =>
      split at ht
      case h_1 => cases ht
      case h_2 log hl =>
        obtain rfl := Outcome.ok.inj ht
        exact h.logWrite hr (hd r hr).1 (hd r hr).2 hc hl
    case h_2 => cases ht
  | unlock u =>
    obtain ⟨c, hc, rfl⟩ := Option.map_eq_some_iff.mp (Outcome.ofOption_eq_ok.mp ht)
    exact h.quiet_user (h.coherent.unlock hc) (quiet_unlock hc) fun b => keepsKey_unlock hc _
  | beginOp =>
    obtain ⟨log, hl, rfl⟩ := Option.map_eq_some_iff.mp (Outcome.ofOption_eq_ok.mp ht)
    exact inv_beginOp h hl
  | endOp =>
    simp only [next] at ht
    split_ifs at ht with hout
    split at ht
    case h_1 => cases ht
    case h_2 log hl =>
      obtain rfl := Outcome.ok.inj ht
      exact inv_endOp h hout hl
    case h_3 log hl =>
      obtain rfl := Outcome.ok.inj ht
      exact inv_endOp h hout hl
  | commit => exact inv_commit h ht

/-! ### The cache as a flat map of blocks -/

/-- In every disciplined run: a session that holds a buffer sees the last modification of
the block it asked for, which outside the log is the last modification by a user; a buffer
that `bget` may recycle has reached its home block; and a marked block is cached, in a
buffer that may not be recycled. -/
theorem bread_returns_last_modification {disk : Key → Block} {labels : List (Act U)}
    (hrun : Run (Guarded (Step L) (Disciplined L)) (init L disk) labels t) :
    (∀ w i k ph, t.cache.sess w = some ⟨i, k, ph⟩ → ph.Holds →
      (t.cache.buf i).key = k ∧ (t.cache.buf i).data = t.cache.cur k ∧
        (¬ InLog L k → t.cache.cur k = t.last k)) ∧
    (∀ i, (t.cache.buf i).dev ≠ 0 → (t.cache.buf i).refcnt = 0 → (t.cache.buf i).dirty = false →
      t.cache.disk (t.cache.buf i).key = t.cache.cur (t.cache.buf i).key) ∧
    (∀ k, t.marked k = true →
      ∃ i, (t.cache.buf i).key = k ∧ (t.cache.buf i).valid = true ∧
        (t.cache.buf i).dirty = true) := by
  have h : t.Inv L := hrun.invariant_of_guard (inv_init disk) fun _ a _ hu hg hs =>
    inv_step a hu hg hs
  refine ⟨fun w i k ph hw hph => ?_, fun i hdev hcnt hclean => ?_, fun k hk => ?_⟩
  · exact ⟨h.coherent.key_eq hw, h.coherent.data_eq hw hph, fun hk => (h.last k hk).symm⟩
  · have hused : ¬ (t.cache.buf i).Fresh := fun hfresh => hdev (h.coherent.fresh i hfresh)
    exact h.coherent.clean i hused hclean fun v r hr _ => h.coherent.not_ref hcnt hr
  · obtain ⟨i, hi, hd⟩ := h.pinned k hk
    exact ⟨i, hi, h.coherent.dirty i hd, hd⟩

/-- The log area of the examples below. -/
def smallLog : LogArea := ⟨2, 30⟩

/-- One user updates block 100: `bread`, a change, `bwrite` or `log_write`, `brelse`. -/
def update (data : Block) (save : Act Unit) : List (Act Unit) :=
  [.bget () (1, 100), .advance (.inl ()), .advance (.inl ()), .modify () data, save,
    .unlock (), .advance (.inl ())]

/-- One pass of `write_log` (`dst` false) or of `install_trans` (`dst` true). -/
def pass (dst : Bool) : List (Act Unit) :=
  [.commit, .advance (slot false), .advance (slot false), .commit, .advance (slot true),
    .advance (slot true), .commit, .commit, .advance (slot !dst), .commit, .advance (slot dst),
    .commit]

/-- A run of `write_head`. -/
def header : List (Act Unit) :=
  [.commit, .advance (slot false), .advance (slot false), .commit, .commit,
    .advance (slot false), .commit]

/-- The user reads block 100 again. -/
def reread : List (Act Unit) := [.bget () (1, 100), .advance (.inl ()), .advance (.inl ())]

/-- The user holds block 100, with byte `a` in the buffer and byte `b` as its last
modification. -/
def sees (a b : UInt8) (t : Sys Unit) : Bool :=
  match t.cache.sess (.inl ()) with
  | some ⟨i, k, .held⟩ =>
    k == (1, 100) && (t.cache.buf i).data.get 0 == a && (t.last k).get 0 == b
  | _ => false

theorem sees_spec {a b : UInt8} {t : Sys Unit} (h : sees a b t = true) :
    ∃ i, t.cache.sess (.inl ()) = some ⟨i, (1, 100), .held⟩ ∧
      (t.cache.buf i).data.get 0 = a ∧ (t.last (1, 100)).get 0 = b := by
  unfold sees at h
  split at h
  case h_1 i k hw =>
    simp only [Bool.and_eq_true, beq_iff_eq] at h
    obtain ⟨⟨rfl, ha⟩, hb⟩ := h
    exact ⟨i, hw, ha, hb⟩
  case h_2 => cases h

/-- A block that is logged, committed and read again while its commit is still running. -/
theorem bread_returns_last_modification_logged :
    ∃ (labels : List (Act Unit)) (t : Sys Unit) (i : Fin NBUF),
      Run (Guarded (Step smallLog) (Disciplined smallLog))
          (init smallLog fun _ => Bytes.zero BSIZE) labels t ∧
        t.cache.sess (.inl ()) = some ⟨i, (1, 100), .held⟩ ∧
        (t.last (1, 100)).get 0 = 1 ∧ (t.cache.buf i).data = t.last (1, 100) := by
  obtain ⟨t, hrun, htest⟩ := exists_run_of_runList
    (guardedNext (Disciplined smallLog) fun s a => (s.next smallLog a).toOption)
    (guarded_of_guardedNext (step_of_toOption smallLog))
    (init smallLog fun _ => Bytes.zero BSIZE)
    (.beginOp :: update (fun _ => 1) (.logWrite ()) ++ .endOp :: pass false ++ reread)
    (sees 1 1) (by decide +kernel)
  obtain ⟨i, hw, -, hlast⟩ := sees_spec htest
  obtain ⟨-, hdata, hcur⟩ := (bread_returns_last_modification hrun).1 _ _ _ _ hw (.inl rfl)
  refine ⟨_, t, i, hrun, hw, hlast, hdata.trans (hcur ?_)⟩
  decide

/-- Without the discipline a modification is lost: a user's `bwrite` of a marked block,
between `write_log` and `install_trans`, is overwritten by the older copy in the log. -/
theorem bwrite_of_marked_lost :
    ∃ (labels : List (Act Unit)) (t : Sys Unit) (i : Fin NBUF),
      Run (Step smallLog) (init smallLog fun _ => Bytes.zero BSIZE) labels t ∧
        t.cache.sess (.inl ()) = some ⟨i, (1, 100), .held⟩ ∧
        (t.last (1, 100)).get 0 = 2 ∧ (t.cache.buf i).data.get 0 = 1 := by
  obtain ⟨t, hrun, htest⟩ := exists_run_of_runList (fun s a => (s.next smallLog a).toOption)
    (step_of_toOption smallLog) (init smallLog fun _ => Bytes.zero BSIZE)
    (.beginOp :: update (fun _ => 1) (.logWrite ()) ++ .endOp :: pass false ++
      update (fun _ => 2) (.bwrite ()) ++ header ++ pass true ++ reread)
    (sees 1 2) (by decide +kernel)
  obtain ⟨i, hw, hdata, hlast⟩ := sees_spec htest
  exact ⟨_, t, i, hrun, hw, hlast, hdata⟩

end Sys

end Xv6.Bio
