import Xv6.Bio.Cache
import Xv6.Log.Protocol
import Xv6.Log.Redo

/-!
# The buffer cache under the log

Any number of user sessions work on the buffer cache while `commit` copies the logged
blocks to the log, writes the header and installs the blocks. The committing process runs
two sessions of its own, one for each buffer that `write_log` and `install_trans` hold at
a time.

Beside the kernel's state the system records the last contents a user session gave each
block (`last`) and the blocks `log_write` has marked and `install_trans` has not written
home yet (`marked`).
-/

namespace Xv6.Bio

open Lib Log

/-- The statements of one pass of the loops of `write_log` and `install_trans`: the two
`bread`s, the copy with its `bwrite`, and the two `brelse`s. -/
inductive Point
  | enter
  | first
  | both
  | written
  | released
  | leave
  deriving DecidableEq

/-- The statements of `write_head`: `bread`, the copy with its `bwrite`, `brelse`. -/
inductive HeadPoint
  | enter
  | first
  | written
  | leave
  deriving DecidableEq

/-- Where `commit` is. -/
inductive CommitPc
  | off
  | writeLog (tail : ℕ) (pt : Point)
  | head (pt : HeadPoint)
  | install (tail : ℕ) (pt : Point)
  | clear
  | erase (pt : HeadPoint)
  | finish
  deriving DecidableEq

/-- Users `U` and the committing process, over the cache and the log. -/
structure Sys (U : Type*) where
  cache : Cache (U ⊕ Bool)
  log : LogState
  commit : CommitPc
  last : Key → Block
  marked : Key → Bool

/-- A session starting on a block, a session going on by itself, a user changing, writing,
logging or releasing its buffer, the ends of file system calls, and a step of `commit`. -/
inductive Act (U : Type*)
  | bget (u : U) (k : Key)
  | advance (w : U ⊕ Bool)
  | modify (u : U) (data : Block)
  | bwrite (u : U)
  | logWrite (u : U)
  | unlock (u : U)
  | beginOp
  | endOp
  | commit

/-- The panics a step can end in. -/
abbrev Fault := Panic ⊕ Log.Panic

section Commit

variable {U : Type*} [DecidableEq U]

/-- The buffer a session holds after its `bread` returned. -/
def heldBuf (c : Cache (U ⊕ Bool)) (w : U ⊕ Bool) : Option (Buf (U ⊕ Bool)) :=
  match c.sess w with
  | some ⟨i, _, .held⟩ => some (c.buf i)
  | _ => none

/-- The session of the buffer that the committing process reads first, or second. -/
def slot (second : Bool) : U ⊕ Bool := .inr second

/-- One pass of the loop of `write_log` or `install_trans`: `bread` the blocks `k₀` and
`k₁`, copy one buffer into the other, `bwrite` the copy, and release both, the source
first. `dst` tells which of the two is written; no next point means the pass is over. -/
def copyNext (c : Cache (U ⊕ Bool)) (dst : Bool) (k₀ k₁ : Key) :
    Point → Outcome Panic (Cache (U ⊕ Bool) × Option Point)
  | .enter => (c.bget (slot false) k₀).bindMap id fun c => .ok (c, some .first)
  | .first =>
    if (heldBuf c (slot false)).isSome then
      (c.bget (slot true) k₁).bindMap id fun c => .ok (c, some .both)
    else .blocked
  | .both =>
    .ofOption do
      let src ← heldBuf c (slot !dst)
      let _ ← heldBuf c (slot dst)
      let c ← c.modify (slot dst) src.data
      let c ← c.bwrite (slot dst)
      some (c, some .written)
  | .written => .ofOption ((c.unlock (slot !dst)).map (·, some .released))
  | .released =>
    if (c.sess (slot !dst)).isNone then
      .ofOption ((c.unlock (slot dst)).map (·, some .leave))
    else .blocked
  | .leave => if (c.sess (slot dst)).isNone then .ok (c, none) else .blocked

/-- `write_head` on the header block `k`. -/
def headNext (c : Cache (U ⊕ Bool)) (k : Key) (lh : List ℕ) :
    HeadPoint → Outcome Panic (Cache (U ⊕ Bool) × Option HeadPoint)
  | .enter => (c.bget (slot false) k).bindMap id fun c => .ok (c, some .first)
  | .first =>
    .ofOption do
      let buf ← heldBuf c (slot false)
      let c ← c.modify (slot false) (encodeHead buf.data lh)
      let c ← c.bwrite (slot false)
      some (c, some .written)
  | .written => .ofOption ((c.unlock (slot false)).map (·, some .leave))
  | .leave => if (c.sess (slot false)).isNone then .ok (c, none) else .blocked

end Commit

/-! ### Steps that change no contents -/

section Quiet

variable {W : Type*} [DecidableEq W]

/-- The step changed no contents, no session's modification, and no dirty buffer. -/
structure Quiet (c c' : Cache W) : Prop where
  cur : c'.cur = c.cur
  modified : ∀ v r, r.phase = .modified → (c'.sess v = some r ↔ c.sess v = some r)
  pinned : ∀ i, (c.buf i).dirty = true →
    (c'.buf i).key = (c.buf i).key ∧ (c'.buf i).dirty = true

/-- The session is on the block it was on. -/
def KeepsKey (c c' : Cache W) (w : W) : Prop :=
  ∀ r', c'.sess w = some r' → ∃ r, c.sess w = some r ∧ r.key = r'.key

variable {c c' : Cache W} {v w : W} {i : Fin NBUF} {k : Key} {ph ph' : Phase}

omit [DecidableEq W] in
theorem KeepsKey.of_eq (h : c'.sess w = c.sess w) : KeepsKey c c' w :=
  fun r hr => ⟨r, h ▸ hr, rfl⟩

omit [DecidableEq W] in
theorem Quiet.refl (c : Cache W) : Quiet c c :=
  ⟨rfl, fun _ _ _ => Iff.rfl, fun _ hd => ⟨rfl, hd⟩⟩

/-- Replacing a buffer is quiet when neither phase is a modification and a dirty buffer
stays as it is. -/
theorem quiet_put {r : Ref} {b : Buf W} {disk : Key → Block}
    (hold : ∀ r', c.sess w = some r' → r'.phase ≠ .modified) (hnew : r.phase ≠ .modified)
    (hb : (c.buf r.buf).dirty = true → b.key = (c.buf r.buf).key ∧ b.dirty = true) :
    Quiet c (c.put w r b disk c.cur) := by
  refine ⟨rfl, fun v r' hr' => ?_, fun j hj => ?_⟩
  · by_cases hv : v = w
    · subst hv
      have hne : r ≠ r' := fun he => hnew (he ▸ hr')
      have hne' : c.sess v ≠ some r' := fun he => hold r' he hr'
      simp [Cache.put, hne, hne']
    · simp [Cache.put, hv]
  · by_cases hji : j = r.buf
    · subst hji; simpa [Cache.put] using hb hj
    · simpa [Cache.put, hji] using hj

theorem keepsKey_put {r : Ref} {b : Buf W} {disk : Key → Block}
    (hw : c.sess w = some ⟨i, r.key, ph⟩) (v : W) : KeepsKey c (c.put w r b disk c.cur) v := by
  by_cases hv : v = w
  · subst hv
    intro r' hr'
    refine ⟨_, hw, ?_⟩
    simp only [Cache.put, Function.update_self, Option.some.injEq] at hr'
    rw [hr']
  · exact .of_eq (by simp [Cache.put, hv])

theorem quiet_bget (h : c.bget w k = .ok c') : Quiet c c' := by
  obtain ⟨hw, ⟨i, -, -, -, -, -, -, rfl⟩ | ⟨i, -, -, -, -, hclean, rfl⟩⟩ := Cache.bget_cases h
  · exact quiet_put (by simp [hw]) (by simp) fun hd => ⟨rfl, hd⟩
  · exact quiet_put (by simp [hw]) (by simp) (by simp [hclean])

theorem bget_sess (h : c.bget w k = .ok c') :
    (∀ r, c'.sess w = some r → r.key = k) ∧ ∀ v, v ≠ w → c'.sess v = c.sess v := by
  obtain ⟨-, ⟨i, -, -, -, -, -, -, rfl⟩ | ⟨i, -, -, -, -, -, rfl⟩⟩ := Cache.bget_cases h
  all_goals
    constructor
    · intro r hr
      simp only [Cache.put, Function.update_self, Option.some.injEq] at hr
      rw [← hr]
    · intro v hv
      simp [Cache.put, hv]

theorem quiet_unlock (h : c.unlock w = some c') : Quiet c c' := by
  obtain ⟨i, k, hw, rfl⟩ := Cache.unlock_cases h
  refine quiet_put (fun r hr => ?_) (by simp) fun hd => ⟨rfl, hd⟩
  rw [hw, Option.some.injEq] at hr
  simp [← hr]

theorem keepsKey_unlock (h : c.unlock w = some c') (v : W) : KeepsKey c c' v := by
  obtain ⟨i, k, hw, rfl⟩ := Cache.unlock_cases h
  exact keepsKey_put (r := ⟨i, k, .unlocked⟩) hw v

theorem quiet_leave (hw : c.sess w = some ⟨i, k, .unlocked⟩) : Quiet c (c.leave w i) := by
  refine ⟨rfl, fun v r hr => ?_, fun j hj => ?_⟩
  · by_cases hv : v = w
    · subst hv
      have hne : (⟨i, k, .unlocked⟩ : Ref) ≠ r := by
        rintro rfl
        cases hr
      simp [Cache.leave, Cache.setSess, hw, hne]
    · simp [Cache.leave, Cache.setSess, Cache.setBuf, hv]
  · by_cases hji : j = i
    · subst hji
      simpa [Cache.leave, Cache.setSess, Cache.setBuf, Buf.key] using hj
    · simpa [Cache.leave, Cache.setSess, Cache.setBuf, hji] using hj

theorem keepsKey_leave (v : W) : KeepsKey c (c.leave w i) v := by
  intro r hr
  by_cases hv : v = w
  · subst hv; simp [Cache.leave, Cache.setSess] at hr
  · exact ⟨r, by simpa [Cache.leave, Cache.setSess, Cache.setBuf, hv] using hr, rfl⟩

variable [Fintype W]

theorem quiet_advance (hc : c.Coherent) (h : c.advance w = some c') : Quiet c c' := by
  obtain ⟨i, k, hw, -, rfl⟩ | ⟨i, k, hw, rfl⟩ | ⟨i, k, hw, rfl⟩ := Cache.advance_cases h
  · refine quiet_put (fun r hr => ?_) (by simp) fun hd => ⟨rfl, hd⟩
    rw [hw, Option.some.injEq] at hr
    simp [← hr]
  · rw [hc.read_eq]
    refine quiet_put (fun r hr => ?_) (by simp) fun hd => ?_
    · rw [hw, Option.some.injEq] at hr
      simp [← hr]
    · -- a dirty buffer is valid, so it is returned as it is
      have hd : (c.buf i).dirty = true := hd
      simpa [Cache.filled, hc.dirty i hd] using hd
  · exact quiet_leave hw

theorem keepsKey_advance (hc : c.Coherent) (h : c.advance w = some c') (v : W) :
    KeepsKey c c' v := by
  obtain ⟨i, k, hw, -, rfl⟩ | ⟨i, k, hw, rfl⟩ | ⟨i, k, hw, rfl⟩ := Cache.advance_cases h
  · exact keepsKey_put (r := ⟨i, k, .reading⟩) hw v
  · rw [hc.read_eq]
    exact keepsKey_put (r := ⟨i, k, .held⟩) hw v
  · exact keepsKey_leave v

end Quiet

/-- The copy of the pass has been written. -/
def Point.past : Point → Bool
  | .written | .released | .leave => true
  | _ => false

section Place

variable {U : Type*} {c c' : Cache (U ⊕ Bool)} {k₀ k₁ : Key}

/-- The blocks of the two sessions during a pass, as far as the copy needs them. -/
def CopyPlace (c : Cache (U ⊕ Bool)) (k₀ k₁ : Key) : Point → Prop
  | .first => ∀ r, c.sess (slot false) = some r → r.key = k₀
  | .both => (∀ r, c.sess (slot false) = some r → r.key = k₀) ∧
      ∀ r, c.sess (slot true) = some r → r.key = k₁
  | _ => True

/-- The block of the session that writes the header. -/
def HeadPlace (c : Cache (U ⊕ Bool)) (k : Key) : HeadPoint → Prop
  | .first => ∀ r, c.sess (slot false) = some r → r.key = k
  | _ => True

theorem KeepsKey.forall_key {k : Key} {w : U ⊕ Bool} (h : KeepsKey c c' w)
    (hk : ∀ r, c.sess w = some r → r.key = k) : ∀ r, c'.sess w = some r → r.key = k := by
  intro r' hr'
  obtain ⟨r, hr, hrr'⟩ := h r' hr'
  rw [← hrr', hk r hr]

theorem CopyPlace.keeps {pt : Point} (h : CopyPlace c k₀ k₁ pt)
    (hk : ∀ b, KeepsKey c c' (slot b)) : CopyPlace c' k₀ k₁ pt := by
  cases pt with
  | first => exact (hk false).forall_key h
  | both => exact ⟨(hk false).forall_key h.1, (hk true).forall_key h.2⟩
  | enter => trivial
  | written => trivial
  | released => trivial
  | leave => trivial

theorem HeadPlace.keeps {pt : HeadPoint} (h : HeadPlace c k₀ pt)
    (hk : ∀ b, KeepsKey c c' (slot b)) : HeadPlace c' k₀ pt := by
  cases pt with
  | first => exact (hk false).forall_key h
  | enter => trivial
  | written => trivial
  | leave => trivial

end Place

/-! ### What a pass of `commit` does -/

section Write

variable {W : Type*} [DecidableEq W] {c c₁ c₂ : Cache W} {w : W} {data : Block}

/-- A change of a held buffer that is written out at once. -/
theorem write_cases (h₁ : c.modify w data = some c₁) (h₂ : c₁.bwrite w = some c₂) :
    ∃ i k ph, c.sess w = some ⟨i, k, ph⟩ ∧ ph.Holds ∧
      c₂.cur = Function.update c.cur k data ∧ (∀ v, v ≠ w → c₂.sess v = c.sess v) ∧
      ∀ j, j ≠ i → c₂.buf j = c.buf j := by
  obtain ⟨i, k, ph, hw, hph, rfl⟩ := Cache.modify_cases h₁
  obtain ⟨i', k', ph', hw', -, rfl⟩ := Cache.bwrite_cases h₂
  obtain ⟨rfl, rfl, rfl⟩ : i = i' ∧ k = k' ∧ Phase.modified = ph' := by
    simpa [Cache.put] using hw'
  refine ⟨i, k, ph, hw, hph, rfl, fun v hv => ?_, fun j hj => ?_⟩
  · simp [Cache.put, hv]
  · simp [Cache.put, hj]

end Write

section CommitCases

variable {U : Type*} [DecidableEq U] [Fintype U] {c c' : Cache (U ⊕ Bool)} {k₀ k₁ : Key}

omit [DecidableEq U] in
/-- The data of a buffer that a session holds is the contents of its block. -/
theorem heldBuf_data (hc : c.Coherent) {w : U ⊕ Bool} {b : Buf (U ⊕ Bool)} {k : Key}
    (hk : ∀ r, c.sess w = some r → r.key = k) (hb : heldBuf c w = some b) : b.data = c.cur k := by
  unfold heldBuf at hb
  split at hb
  case h_1 i k' hw =>
    obtain rfl : k' = k := hk _ hw
    obtain rfl := Option.some.inj hb
    exact hc.data_eq hw (.inl rfl)
  case h_2 => cases hb

/-- Writing the buffer of a slot: the contents of its block change, nothing else does. -/
structure SlotWrite (c c' : Cache (U ⊕ Bool)) (w : U ⊕ Bool) (k : Key) (data : Block) :
    Prop where
  coherent : c'.Coherent
  cur : c'.cur = Function.update c.cur k data
  users : ∀ u, c'.sess (.inl u) = c.sess (.inl u)
  buf : ∃ r, c.sess w = some r ∧ r.key = k ∧ r.phase.Locks ∧
    ∀ j, j ≠ r.buf → c'.buf j = c.buf j

theorem slotWrite_of_write (hc : c.Coherent) {second : Bool} {k : Key} {data : Block}
    {c₁ : Cache (U ⊕ Bool)} (hk : ∀ r, c.sess (slot second) = some r → r.key = k)
    (h₁ : c.modify (slot second) data = some c₁) (h₂ : c₁.bwrite (slot second) = some c') :
    SlotWrite c c' (slot second) k data := by
  obtain ⟨i, k', ph, hw, hph, hcur, hsess, hbuf⟩ := write_cases h₁ h₂
  obtain rfl : k' = k := hk _ hw
  exact ⟨(hc.modify h₁).bwrite h₂, hcur, fun u => hsess _ (by simp [slot]),
    ⟨_, hw, rfl, hph.locks, hbuf⟩⟩

/-- A step of a pass is the copy, or it changes no contents and keeps to its blocks. -/
theorem copyNext_cases (hc : c.Coherent) {dst : Bool} {pt : Point} {pt' : Option Point}
    (hplace : CopyPlace c k₀ k₁ pt)
    (h : copyNext c dst k₀ k₁ pt = .ok (c', pt')) :
    (pt = .both ∧ pt' = some .written ∧
      SlotWrite c c' (slot dst) (if dst then k₁ else k₀) (c.cur (if dst then k₀ else k₁))) ∨
    (pt ≠ .both ∧ c'.Coherent ∧ Quiet c c' ∧
      match pt' with
      | some pt' => pt'.past = pt.past ∧ CopyPlace c' k₀ k₁ pt'
      | none => pt.past = true) := by
  -- the place in the pass says which call is next
  cases pt with
  | enter =>
    simp only [copyNext, Outcome.bindMap_eq_ok, Outcome.ok.injEq, Prod.mk.injEq] at h
    obtain ⟨c'', hget, rfl, rfl⟩ := h
    exact .inr ⟨by simp, hc.bget hget, quiet_bget hget, rfl, (bget_sess hget).1⟩
  | first =>
    simp only [copyNext] at h
    split_ifs at h
    simp only [Outcome.bindMap_eq_ok, Outcome.ok.injEq, Prod.mk.injEq] at h
    obtain ⟨c'', hget, rfl, rfl⟩ := h
    obtain ⟨hkey, hrest⟩ := bget_sess hget
    refine .inr ⟨by simp, hc.bget hget, quiet_bget hget, rfl, ?_, hkey⟩
    intro r hr
    rw [hrest _ (by simp [slot])] at hr
    exact hplace r hr
  | both =>
    simp only [copyNext, Outcome.ofOption_eq_ok, Option.bind_eq_bind, Option.bind_eq_some_iff,
      Option.some.injEq, Prod.mk.injEq] at h
    obtain ⟨b, hb, -, -, c₁, hmod, c₂, hwrite, rfl, rfl⟩ := h
    refine .inl ⟨rfl, rfl, ?_⟩
    cases dst with
    | false =>
      rw [heldBuf_data hc hplace.2 hb] at hmod
      exact slotWrite_of_write hc hplace.1 hmod hwrite
    | true =>
      rw [heldBuf_data hc hplace.1 hb] at hmod
      exact slotWrite_of_write hc hplace.2 hmod hwrite
  | written =>
    simp only [copyNext, Outcome.ofOption_eq_ok, Option.map_eq_some_iff, Prod.mk.injEq] at h
    obtain ⟨c'', hun, rfl, rfl⟩ := h
    exact .inr ⟨by simp, hc.unlock hun, quiet_unlock hun, rfl, trivial⟩
  | released =>
    simp only [copyNext] at h
    split_ifs at h
    simp only [Outcome.ofOption_eq_ok, Option.map_eq_some_iff, Prod.mk.injEq] at h
    obtain ⟨c'', hun, rfl, rfl⟩ := h
    exact .inr ⟨by simp, hc.unlock hun, quiet_unlock hun, rfl, trivial⟩
  | leave =>
    simp only [copyNext] at h
    split_ifs at h
    simp only [Outcome.ok.injEq, Prod.mk.injEq] at h
    obtain ⟨rfl, rfl⟩ := h
    exact .inr ⟨by simp, hc, Quiet.refl c, rfl⟩

theorem headNext_cases (hc : c.Coherent) {lh : List ℕ} {pt : HeadPoint}
    {pt' : Option HeadPoint} (hplace : HeadPlace c k₀ pt)
    (h : headNext c k₀ lh pt = .ok (c', pt')) :
    (pt' = some .written ∧ ∃ data, SlotWrite c c' (slot false) k₀ data) ∨
    (c'.Coherent ∧ Quiet c c' ∧ ∀ p ∈ pt', HeadPlace c' k₀ p) := by
  cases pt with
  | enter =>
    simp only [headNext, Outcome.bindMap_eq_ok, Outcome.ok.injEq, Prod.mk.injEq] at h
    obtain ⟨c'', hget, rfl, rfl⟩ := h
    refine .inr ⟨hc.bget hget, quiet_bget hget, ?_⟩
    rintro p ⟨⟩
    exact (bget_sess hget).1
  | first =>
    simp only [headNext, Outcome.ofOption_eq_ok, Option.bind_eq_bind, Option.bind_eq_some_iff,
      Option.some.injEq, Prod.mk.injEq] at h
    obtain ⟨b, -, c₁, hmod, c₂, hwrite, rfl, rfl⟩ := h
    exact .inl ⟨rfl, _, slotWrite_of_write hc hplace hmod hwrite⟩
  | written =>
    simp only [headNext, Outcome.ofOption_eq_ok, Option.map_eq_some_iff, Prod.mk.injEq] at h
    obtain ⟨c'', hun, rfl, rfl⟩ := h
    refine .inr ⟨hc.unlock hun, quiet_unlock hun, ?_⟩
    rintro p ⟨⟩
    trivial
  | leave =>
    simp only [headNext] at h
    split_ifs at h
    simp only [Outcome.ok.injEq, Prod.mk.injEq] at h
    obtain ⟨rfl, rfl⟩ := h
    exact .inr ⟨hc, Quiet.refl c, by simp⟩

end CommitCases

namespace Sys

variable {U : Type*} [DecidableEq U] (L : LogArea)

/-- The block of the log that holds the copy of entry `tail`. -/
def logKey (tail : ℕ) : Key := (ROOTDEV, L.start + tail + 1)

/-- The block of the log header. -/
def headKey : Key := (ROOTDEV, L.start)

/-- The home block of entry `tail`. -/
def homeKey (lh : List ℕ) (tail : ℕ) : Key := (ROOTDEV, lh.getD tail 0)

/-- The stage after a step of a loop over `n` entries: the next point of this pass, the next
pass, or what follows the loop. -/
def loopPc (stage : ℕ → Point → CommitPc) (fin : CommitPc) (n tail : ℕ) :
    Option Point → CommitPc
  | some pt => stage tail pt
  | none => if tail + 1 < n then stage (tail + 1) .enter else fin

/-- A step of `commit`. -/
def commitNext (s : Sys U) : Outcome Fault (Sys U) :=
  match s.commit with
  | .off => .blocked
  | .writeLog tail pt =>
    (copyNext s.cache false (logKey L tail) (homeKey s.log.lh tail) pt).bindMap .inl
      fun (c, pt') => .ok { s with
        cache := c
        commit := loopPc .writeLog (.head .enter) s.log.lh.length tail pt' }
  | .head pt =>
    (headNext s.cache (headKey L) s.log.lh pt).bindMap .inl
      fun (c, pt') => .ok { s with
        cache := c
        commit := (pt'.map .head).getD (.install 0 .enter) }
  | .install tail pt =>
    (copyNext s.cache true (logKey L tail) (homeKey s.log.lh tail) pt).bindMap .inl
      fun (c, pt') => .ok { s with
        cache := c
        commit := loopPc .install .clear s.log.lh.length tail pt'
        marked := if pt = .both then Function.update s.marked (homeKey s.log.lh tail) false
          else s.marked }
  | .clear => .ok { s with log := { s.log with lh := [] }, commit := .erase .enter }
  | .erase pt =>
    (headNext s.cache (headKey L) s.log.lh pt).bindMap .inl
      fun (c, pt') => .ok { s with
        cache := c
        commit := (pt'.map .erase).getD .finish }
  | .finish => .ok { s with log := { s.log with committing := false }, commit := .off }

/-- Try one step. Requests are for devices other than 0, and `end_op` is called by a
process inside an operation. -/
def next (s : Sys U) : Act U → Outcome Fault (Sys U)
  | .bget u k =>
    if k.1 = 0 then .blocked
    else (s.cache.bget (.inl u) k).bindMap .inl fun c => .ok { s with cache := c }
  | .advance w => .ofOption ((s.cache.advance w).map fun c => { s with cache := c })
  | .modify u data =>
    match s.cache.sess (.inl u), s.cache.modify (.inl u) data with
    | some r, some c => .ok { s with cache := c, last := Function.update s.last r.key data }
    | _, _ => .blocked
  | .bwrite u => .ofOption ((s.cache.bwrite (.inl u)).map fun c => { s with cache := c })
  | .logWrite u =>
    match s.cache.sess (.inl u), s.cache.mark (.inl u) with
    | some r, some c =>
      match s.log.logWrite r.key.2 with
      | .error msg => .panic (.inr msg)
      | .ok log =>
        .ok { s with cache := c, log := log, marked := Function.update s.marked r.key true }
    | _, _ => .blocked
  | .unlock u => .ofOption ((s.cache.unlock (.inl u)).map fun c => { s with cache := c })
  | .beginOp => .ofOption (s.log.beginOp.map fun log => { s with log := log })
  | .endOp =>
    if s.log.outstanding < 1 then .blocked
    else
      match s.log.endOp with
      | .error msg => .panic (.inr msg)
      | .ok (false, log) => .ok { s with log := log }
      | .ok (true, log) =>
        .ok { s with
          log := log
          commit := if 0 < log.lh.length then .writeLog 0 .enter else .finish }
  | .commit => s.commitNext L

/-- The step relation of the system. -/
def Step (s : Sys U) (a : Act U) (t : Sys U) : Prop := s.next L a = .ok t

theorem step_of_toOption (s : Sys U) (a : Act U) (t : Sys U)
    (h : (s.next L a).toOption = some t) : Step L s a t :=
  Outcome.eq_ok_of_toOption h

/-- The system at boot, with a clean log. -/
def init (disk : Key → Block) : Sys U :=
  ⟨.binit disk, LogState.init L.size, .off, disk, fun _ => false⟩

/-- The block belongs to the log. -/
def InLog (k : Key) : Prop := k.1 = ROOTDEV ∧ L.Contains k.2

instance (k : Key) : Decidable (InLog L k) := inferInstanceAs (Decidable (_ ∧ _))

/-- What a user session may do with the block it holds: change a block outside the log,
`bwrite` one that is not marked, `log_write` one of the log's device. -/
def Disciplined (s : Sys U) : Act U → Prop
  | .modify u _ => ∀ r ∈ s.cache.sess (.inl u), ¬ InLog L r.key
  | .bwrite u => ∀ r ∈ s.cache.sess (.inl u), ¬ InLog L r.key ∧ s.marked r.key = false
  | .logWrite u => ∀ r ∈ s.cache.sess (.inl u), ¬ InLog L r.key ∧ r.key.1 = ROOTDEV
  | _ => True

instance (s : Sys U) (a : Act U) : Decidable (Disciplined L s a) := by
  unfold Disciplined
  split <;> infer_instance

end Sys

end Xv6.Bio
