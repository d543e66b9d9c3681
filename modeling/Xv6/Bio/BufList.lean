import Xv6.Bio.Cache
import Xv6.Lib.Dlist

/-!
# The list of buffers

The buffers of `bio.c` with the pointers that connect them, one critical section of `bcache.lock` a
step. Between the steps the holder of a buffer may set its flags. The order of the list is that of
the times at which the buffers were last let go of, which the model keeps beside the kernel's state,
with the calls of `bget` that no `brelse` has matched yet. -/

namespace Xv6.Bio

open Lib

/-- The fields of `struct buf` that `bget` and `brelse` use. -/
structure Header where
  dev : ℕ
  blockno : ℕ
  valid : Bool
  dirty : Bool
  refcnt : ℕ
  deriving DecidableEq

/-- The pointers and fields of the buffers. For specification, `out` has the buffers that calls of
`bget` returned and no `brelse` has matched, and `dropped` the time at which the count of a buffer
last dropped to 0, which is 0 if it never did. -/
structure Bcache where
  links : Links (Fin NBUF)
  hdr : Fin NBUF → Header
  out : List (Fin NBUF)
  clock : ℕ
  dropped : Fin NBUF → ℕ

namespace Bcache

/-- Connect the buffers one after the other. -/
def binit : Bcache where
  links := (List.finRange NBUF).foldl Links.pushFront ⟨fun _ => none, fun _ => none⟩
  hdr _ := ⟨0, 0, false, false, 0⟩
  out := []
  clock := 1
  dropped _ := 0

/-- A reference to a buffer with the header `h`. -/
def hold (s : Bcache) (b : Fin NBUF) (h : Header) : Bcache :=
  { s with hdr := Function.update s.hdr b h, out := b :: s.out }

/-- The buffer caches the block. -/
abbrev Caches (s : Bcache) (dev blockno : ℕ) (b : Fin NBUF) : Prop :=
  (s.hdr b).dev = dev ∧ (s.hdr b).blockno = blockno

/-- The buffer may be recycled. -/
abbrev Recyclable (s : Bcache) (b : Fin NBUF) : Prop := (s.hdr b).refcnt = 0 ∧
    (s.hdr b).dirty = false

/-- The critical section of `bget`; blocked if one of its loops does not end. -/
def bget (s : Bcache) (dev blockno : ℕ) : Outcome Panic (Fin NBUF × Bcache) :=
  match scan s.links.next (fun b => s.Caches dev blockno b) NBUF (s.links.next none) with
  | none => .blocked
  | some (some b) => .ok (b, s.hold b { s.hdr b with refcnt := (s.hdr b).refcnt + 1 })
  | some none =>
    match scan s.links.prev (fun b => s.Recyclable b) NBUF (s.links.prev none) with
    | none => .blocked
    | some (some b) => .ok (b, s.hold b ⟨dev, blockno, false, false, 1⟩)
    | some none => .panic .noBuffers

/-- The critical section of `brelse`, for a buffer that some `bget` returned. -/
def brelse (s : Bcache) (b : Fin NBUF) : Option Bcache :=
  if b ∈ s.out then
    let n := (s.hdr b).refcnt - 1
    let s := { s with
      hdr := Function.update s.hdr b { s.hdr b with refcnt := n }
      out := s.out.erase b }
    if n = 0 then
      some { s with
        links := (s.links.unlink b).pushFront b
        clock := s.clock + 1
        dropped := Function.update s.dropped b s.clock }
    else some s
  else none

/-- The holder of a buffer, or the disk driver for it, sets the flags. -/
def setFlags (s : Bcache) (b : Fin NBUF) (valid dirty : Bool) : Option Bcache :=
  if b ∈ s.out then
    some { s with hdr := Function.update s.hdr b { s.hdr b with valid := valid, dirty := dirty } }
  else none

/-- What happens to the list. -/
inductive Act
  | bget (dev blockno : ℕ)
  | brelse (b : Fin NBUF)
  | setFlags (b : Fin NBUF) (valid dirty : Bool)

/-- The state after a step that is possible and does not panic. -/
def next (s : Bcache) : Act → Option Bcache
  | .bget dev blockno => (s.bget dev blockno).toOption.map Prod.snd
  | .brelse b => s.brelse b
  | .setFlags b valid dirty => s.setFlags b valid dirty

/-- Steps of the system. -/
def Step (s : Bcache) (a : Act) (t : Bcache) : Prop := s.next a = some t

/-! ### The invariant -/

/-- The pointers stand for a list of all buffers, those that were let go of last in front; a block
is cached once; and the counts are the numbers of unmatched calls. -/
structure Inv (s : Bcache) (l : List (Fin NBUF)) : Prop where
  lists : s.links.Lists l
  nodup : l.Nodup
  all : ∀ b, b ∈ l
  unique : ∀ b c, (s.hdr b).dev ≠ 0 → (s.hdr b).dev = (s.hdr c).dev →
    (s.hdr b).blockno = (s.hdr c).blockno → b = c
  refcnt : ∀ b, (s.hdr b).refcnt = s.out.count b
  sorted : l.Pairwise fun b c => s.dropped c ≤ s.dropped b
  past : ∀ b, s.dropped b < s.clock

variable {s t : Bcache} {l : List (Fin NBUF)} {b : Fin NBUF} {dev blockno : ℕ}

theorem Inv.length (h : s.Inv l) : l.length = NBUF := by
  have hperm : l.Perm (List.finRange NBUF) :=
    (List.perm_ext_iff_of_nodup h.nodup (List.nodup_finRange NBUF)).mpr fun b =>
      ⟨fun _ => List.mem_finRange b, fun _ => h.all b⟩
  rw [hperm.length_eq, List.length_finRange]

theorem lists_foldl_pushFront {p : Links (Fin NBUF)} (bs : List (Fin NBUF)) (h : p.Lists l)
    (hnodup : (bs.reverse ++ l).Nodup) : (bs.foldl Links.pushFront p).Lists (bs.reverse ++ l) := by
  induction bs generalizing p l with
  | nil => exact h
  | cons b bs ih =>
    rw [List.reverse_cons, List.append_assoc, List.singleton_append] at hnodup ⊢
    exact ih (h.pushFront (List.nodup_append.mp hnodup).2.1) hnodup

theorem inv_binit : binit.Inv (List.finRange NBUF).reverse := by
  have hnodup : (List.finRange NBUF).reverse.Nodup :=
    List.nodup_reverse.mpr (List.nodup_finRange NBUF)
  refine ⟨?_, hnodup, by simp, fun b c hdev => absurd rfl hdev, fun b => rfl,
    ?_, fun b => Nat.one_pos⟩
  · have hempty : Links.Lists (⟨fun _ => none, fun _ => none⟩ : Links (Fin NBUF)) [] := by
      intro l₁ l₂ hl
      obtain ⟨rfl, rfl⟩ := List.append_eq_nil_iff.mp hl.symm
      exact ⟨rfl, rfl⟩
    have := lists_foldl_pushFront (List.finRange NBUF) hempty (by rwa [List.append_nil])
    rwa [List.append_nil] at this
  · exact List.pairwise_of_forall fun _ _ => le_rfl

/-- The two scans of `bget` end. -/
theorem Inv.bget_eq (h : s.Inv l) (dev blockno : ℕ) :
    s.bget dev blockno =
      match l.find? fun b => s.Caches dev blockno b with
      | some b => .ok (b, s.hold b { s.hdr b with refcnt := (s.hdr b).refcnt + 1 })
      | none =>
        match l.reverse.find? fun b => s.Recyclable b with
        | some b => .ok (b, s.hold b ⟨dev, blockno, false, false, 1⟩)
        | none => .panic .noBuffers := by
  have hnext := h.lists.scan_next fun b => s.Caches dev blockno b
  have hprev := h.lists.scan_prev fun b => s.Recyclable b
  rw [h.length] at hnext hprev
  unfold Bcache.bget
  rw [hnext, hprev]
  cases l.find? fun b => decide (s.Caches dev blockno b) with
  | some b => rfl
  | none => cases l.reverse.find? fun b => decide (s.Recyclable b) <;> rfl

/-- What `bget` returns: the buffer that caches the block, or the recyclable buffer that was let go
of first. -/
theorem Inv.bget_cases (h : s.Inv l) (dev blockno : ℕ) :
    (∃ b, s.Caches dev blockno b ∧ s.bget dev blockno =
      .ok (b, s.hold b { s.hdr b with refcnt := (s.hdr b).refcnt + 1 })) ∨
    (∀ b, ¬ s.Caches dev blockno b) ∧
      ((∃ b, s.Recyclable b ∧ (∀ c, s.Recyclable c → s.dropped b ≤ s.dropped c) ∧
        s.bget dev blockno = .ok (b, s.hold b ⟨dev, blockno, false, false, 1⟩)) ∨
      (∀ b, ¬ s.Recyclable b) ∧ s.bget dev blockno = .panic .noBuffers) := by
  rw [h.bget_eq dev blockno]
  cases hfind : l.find? fun b => decide (s.Caches dev blockno b) with
  | some b =>
    have hb := List.find?_some hfind
    exact .inl ⟨b, of_decide_eq_true hb, rfl⟩
  | none =>
    refine .inr ⟨fun b hb => List.find?_eq_none.mp hfind b (h.all b) (decide_eq_true hb), ?_⟩
    cases hvict : l.reverse.find? fun b => decide (s.Recyclable b) with
    | some b =>
      obtain ⟨hb, l₁, l₂, hl, hbefore⟩ := List.find?_eq_some_iff_append.mp hvict
      refine .inl ⟨b, of_decide_eq_true hb, fun c hc => ?_, rfl⟩
      -- the list is sorted, and what stands in front of `b` is not recyclable
      have hsorted : (l₁ ++ b :: l₂).Pairwise fun b c => s.dropped b ≤ s.dropped c := by
        rw [← hl]
        exact List.pairwise_reverse.mpr h.sorted
      have hmem : c ∈ l₁ ++ b :: l₂ := by
        rw [← hl]
        exact List.mem_reverse.mpr (h.all c)
      rcases List.mem_append.mp hmem with hc₁ | hc₂
      · have := hbefore c hc₁
        simp only [Bool.not_eq_true', decide_eq_false_iff_not] at this
        exact absurd hc this
      · rcases List.mem_cons.mp hc₂ with rfl | hc₂
        · exact le_rfl
        · exact (List.pairwise_cons.mp (List.pairwise_append.mp hsorted).2.1).1 c hc₂
    | none =>
      refine .inr ⟨fun b hb => ?_, rfl⟩
      exact List.find?_eq_none.mp hvict b (List.mem_reverse.mpr (h.all b)) (decide_eq_true hb)

/-! ### The steps -/

/-- A buffer gets another header, and its count stays right. -/
theorem Inv.update (h : s.Inv l) {hd : Header} {out : List (Fin NBUF)}
    (hkey : ∀ c, hd.dev ≠ 0 → hd.dev = (s.hdr c).dev → hd.blockno = (s.hdr c).blockno → c = b)
    (hcount : hd.refcnt = out.count b) (hother : ∀ c, c ≠ b → out.count c = s.out.count c) :
    Inv { s with hdr := Function.update s.hdr b hd, out := out } l := by
  refine ⟨h.lists, h.nodup, h.all, fun c d => ?_, fun c => ?_, h.sorted, h.past⟩ <;> dsimp only
  · by_cases hc : c = b <;> by_cases hd' : d = b
    · exact fun _ _ _ => hc.trans hd'.symm
    · subst hc
      rw [Function.update_self, Function.update_of_ne hd']
      exact fun h₁ h₂ h₃ => (hkey d h₁ h₂ h₃).symm
    · subst hd'
      rw [Function.update_self, Function.update_of_ne hc]
      exact fun h₁ h₂ h₃ => hkey c (h₂ ▸ h₁) h₂.symm h₃.symm
    · rw [Function.update_of_ne hc, Function.update_of_ne hd']
      exact h.unique c d
  · by_cases hc : c = b
    · subst hc
      rw [Function.update_self, hcount]
    · rw [Function.update_of_ne hc, h.refcnt c, hother c hc]

/-- The key of a buffer stays the same. -/
theorem Inv.key (h : s.Inv l) {hd : Header} (hdev : hd.dev = (s.hdr b).dev)
    (hblock : hd.blockno = (s.hdr b).blockno) (c : Fin NBUF) (h₁ : hd.dev ≠ 0)
    (h₂ : hd.dev = (s.hdr c).dev) (h₃ : hd.blockno = (s.hdr c).blockno) : c = b := by
  rw [hdev] at h₁ h₂
  rw [hblock] at h₃
  exact (h.unique b c h₁ h₂ h₃).symm

theorem Inv.bget (h : s.Inv l) (ht : s.bget dev blockno = .ok (b, t)) : t.Inv l := by
  have hother : ∀ b c, c ≠ b → (b :: s.out).count c = s.out.count c := fun b c hc =>
    List.count_cons_of_ne (Ne.symm hc)
  rcases h.bget_cases dev blockno with ⟨b', -, heq⟩ | ⟨hmiss, ⟨b', hfree, -, heq⟩ | ⟨-, heq⟩⟩ <;>
    rw [heq] at ht
  · obtain ⟨rfl, rfl⟩ := Prod.mk.inj (Outcome.ok.inj ht)
    refine h.update (fun c => h.key rfl rfl c) ?_ (hother b')
    rw [List.count_cons_self, ← h.refcnt]
  · obtain ⟨rfl, rfl⟩ := Prod.mk.inj (Outcome.ok.inj ht)
    refine h.update (fun c _ h₂ h₃ => absurd ⟨h₂.symm, h₃.symm⟩ (hmiss c)) ?_ (hother b')
    rw [List.count_cons_self, ← h.refcnt, hfree.1]
  · cases ht

/-- A buffer that is let go of moves to the front of the list. -/
theorem Inv.moveFront {l₁ l₂ : List (Fin NBUF)} (h : s.Inv (l₁ ++ b :: l₂)) :
    Inv { s with
      links := (s.links.unlink b).pushFront b
      clock := s.clock + 1
      dropped := Function.update s.dropped b s.clock } (b :: (l₁ ++ l₂)) := by
  have hperm : (l₁ ++ b :: l₂).Perm (b :: (l₁ ++ l₂)) := List.perm_middle
  have hnodup : (b :: (l₁ ++ l₂)).Nodup := hperm.nodup_iff.mp h.nodup
  have hne : ∀ c ∈ l₁ ++ l₂, c ≠ b := by
    rintro c hc rfl
    exact (List.nodup_cons.mp hnodup).1 hc
  refine ⟨(h.lists.unlink h.nodup).pushFront hnodup, hnodup, fun c => hperm.mem_iff.mp (h.all c),
    h.unique, h.refcnt, ?_, fun c => ?_⟩ <;> dsimp only
  · have hsorted : (l₁ ++ l₂).Pairwise fun b c => s.dropped c ≤ s.dropped b :=
      h.sorted.sublist ((List.sublist_cons_self b l₂).append_left l₁)
    refine List.pairwise_cons.mpr ⟨fun c hc => ?_, hsorted.imp_of_mem fun {c d} hc hd hcd => ?_⟩
    · rw [Function.update_self, Function.update_of_ne (hne c hc)]
      exact (h.past c).le
    · rwa [Function.update_of_ne (hne c hc), Function.update_of_ne (hne d hd)]
  · by_cases hc : c = b
    · rw [hc, Function.update_self]
      exact Nat.lt_succ_self _
    · rw [Function.update_of_ne hc]
      exact (h.past c).trans (Nat.lt_succ_self _)

theorem Inv.brelse (h : s.Inv l) (ht : s.brelse b = some t) : ∃ l', t.Inv l' := by
  have h₁ : Inv { s with
      hdr := Function.update s.hdr b { s.hdr b with refcnt := (s.hdr b).refcnt - 1 }
      out := s.out.erase b } l := by
    refine h.update (fun c => h.key rfl rfl c) ?_ fun c hc => List.count_erase_of_ne hc
    rw [List.count_erase_self, ← h.refcnt]
  unfold Bcache.brelse at ht
  dsimp only at ht
  split_ifs at ht
  · obtain rfl := Option.some.inj ht
    obtain ⟨l₁, l₂, rfl⟩ := List.append_of_mem (h.all b)
    exact ⟨_, h₁.moveFront⟩
  · obtain rfl := Option.some.inj ht
    exact ⟨l, h₁⟩

theorem Inv.setFlags (h : s.Inv l) {valid dirty : Bool} (ht : s.setFlags b valid dirty = some t) :
    t.Inv l := by
  unfold Bcache.setFlags at ht
  split_ifs at ht with hb
  obtain rfl := Option.some.inj ht
  exact h.update (fun c => h.key rfl rfl c) (h.refcnt b) fun _ _ => rfl

theorem Inv.step (h : s.Inv l) {a : Act} (ht : Step s a t) : ∃ l', t.Inv l' := by
  cases a with
  | bget dev blockno =>
    obtain ⟨⟨b, t'⟩, hbget, rfl⟩ := Option.map_eq_some_iff.mp ht
    exact ⟨l, h.bget (Outcome.eq_ok_of_toOption hbget)⟩
  | brelse b => exact h.brelse ht
  | setFlags b valid dirty => exact ⟨l, h.setFlags ht⟩

end Bcache

open Bcache

/-- The list after any run: following `next` from the head, and `prev` in reverse, visits every
buffer once; a block is cached once; counts are the numbers of unmatched calls; and `bget` recycles
the buffer that was let go of first. -/
theorem buffer_list {labels : List Act} {s : Bcache} (hrun : Run Step binit labels s) :
    (∃ l, visit s.links.next NBUF (s.links.next none) = some l ∧
      visit s.links.prev NBUF (s.links.prev none) = some l.reverse ∧ l.Nodup ∧ ∀ b, b ∈ l) ∧
    (∀ b c, (s.hdr b).dev ≠ 0 → (s.hdr b).dev = (s.hdr c).dev →
      (s.hdr b).blockno = (s.hdr c).blockno → b = c) ∧
    (∀ b, (s.hdr b).refcnt = s.out.count b) ∧
    ∀ dev blockno,
      match s.bget dev blockno with
      | .blocked => False
      | .ok (b, _) => s.Caches dev blockno b ∨ (∀ c, ¬ s.Caches dev blockno c) ∧ s.Recyclable b ∧
        ∀ c, s.Recyclable c → s.dropped b ≤ s.dropped c
      | .panic _ => (∀ c, ¬ s.Caches dev blockno c) ∧ ∀ c, ¬ s.Recyclable c := by
  obtain ⟨l, h⟩ : ∃ l, s.Inv l := hrun.invariant (I := fun s => ∃ l, s.Inv l) ⟨_, inv_binit⟩
    fun u a v ⟨l, hu⟩ hstep => hu.step hstep
  have hnext := h.lists.visit_next
  have hprev := h.lists.visit_prev
  rw [h.length] at hnext hprev
  refine ⟨⟨l, hnext, hprev, h.nodup, h.all⟩, h.unique, h.refcnt, fun dev blockno => ?_⟩
  rcases h.bget_cases dev blockno with ⟨b, hb, heq⟩ |
    ⟨hmiss, ⟨b, hfree, hold, heq⟩ | ⟨hnone, heq⟩⟩ <;>
    rw [heq]
  · exact .inl hb
  · exact .inr ⟨hmiss, hfree, hold⟩
  · exact ⟨hmiss, hnone⟩

theorem buffer_list_recycled :
    ∃ s, Run Step binit [.bget 1 7, .brelse ⟨0, by decide⟩, .bget 1 8, .bget 1 7] s ∧
      s.out = [⟨0, by decide⟩, ⟨1, by decide⟩] ∧ ∀ b, (s.hdr b).refcnt = s.out.count b := by
  obtain ⟨s, hrun, hout⟩ := exists_run_of_runList next (fun s a t h => (h : Step s a t)) binit
    [.bget 1 7, .brelse ⟨0, by decide⟩, .bget 1 8, .bget 1 7]
    (fun s => s.out = [⟨0, by decide⟩, ⟨1, by decide⟩]) (by decide +kernel)
  exact ⟨s, hrun, of_decide_eq_true hout, (buffer_list hrun).2.2.1⟩

/-! ### The cache on top of the list -/

namespace Cache

variable {W : Type*} [DecidableEq W]

/-- What the sessions do to the cache. -/
inductive Act (W : Type*)
  | bget (w : W) (k : Key)
  | advance (w : W)
  | modify (w : W) (data : Block)
  | bwrite (w : W)
  | mark (w : W)
  | unlock (w : W)

/-- The state after a step that is possible and does not panic. -/
def next (s : Cache W) : Act W → Option (Cache W)
  | .bget w k => (s.bget w k).toOption
  | .advance w => s.advance w
  | .modify w data => s.modify w data
  | .bwrite w => s.bwrite w
  | .mark w => s.mark w
  | .unlock w => s.unlock w

/-- Steps of the sessions. -/
def Step (s : Cache W) (a : Act W) (t : Cache W) : Prop := s.next a = some t

end Cache

/-- The fields of a buffer that the list is about. -/
def Buf.header {W : Type*} (b : Buf W) : Header := ⟨b.dev, b.blockno, b.valid, b.dirty, b.refcnt⟩

/-- The pointers stand for the list of the cache, and each session that refers to a buffer is a call
of `bget` that no `brelse` has matched. -/
structure Points {W : Type*} (s : Cache W) (p : Bcache) : Prop where
  lists : p.links.Lists s.mru
  hdr : ∀ i, p.hdr i = (s.buf i).header
  out : ∀ i, p.out.count i = (s.buf i).refcnt

section Refinement

variable {W : Type*} [DecidableEq W] [Fintype W] {s t : Cache W} {p : Bcache} {w : W}
  {i : Fin NBUF} {k : Key} {ph : Phase}

omit [DecidableEq W] in
theorem Points.mem_out (h : Points s p) (hs : s.Tidy) (hw : s.sess w = some ⟨i, k, ph⟩) :
    i ∈ p.out := by
  rw [← List.count_pos_iff, h.out]
  exact Nat.pos_of_ne_zero fun hzero => hs.not_ref hzero hw rfl

omit [DecidableEq W] [Fintype W] in
/-- A buffer with its new header, in both. -/
theorem Points.hdr_update (h : Points s p) (b : Buf W) (j : Fin NBUF) :
    Function.update p.hdr i b.header j = (Function.update s.buf i b j).header := by
  by_cases hj : j = i
  · subst hj
    rw [Function.update_self, Function.update_self]
  · rw [Function.update_of_ne hj, Function.update_of_ne hj, h.hdr]

/-- A step of a session that keeps its reference sets the flags at most. -/
theorem Points.put (h : Points s p) (hs : s.Tidy) (hw : s.sess w = some ⟨i, k, ph⟩) {r : Ref}
    {b : Buf W} {disk cur : Key → Block} (hr : r.buf = i) (hkey : b.key = (s.buf i).key)
    (hcnt : b.refcnt = (s.buf i).refcnt) :
    ∃ a q, Bcache.Step p a q ∧ Points (s.put w r b disk cur) q := by
  subst hr
  obtain ⟨hdev, hblock⟩ := Prod.mk.inj hkey
  refine ⟨.setFlags r.buf b.valid b.dirty, _, if_pos (h.mem_out hs hw), h.lists, fun j => ?_,
    fun j => ?_⟩
  · refine Eq.trans ?_ (h.hdr_update b j)
    rw [h.hdr, Buf.header, Buf.header, hdev, hblock, hcnt]
  · change p.out.count j = (Function.update s.buf r.buf b j).refcnt
    rw [h.out]
    by_cases hj : j = r.buf
    · rw [hj, Function.update_self, hcnt]
    · rw [Function.update_of_ne hj]

omit [DecidableEq W] in
/-- The scans of `bget` along the pointers are those of the cache. -/
theorem Points.scan_eq (h : Points s p) (hs : s.Tidy) (k : Key) :
    scan p.links.next (fun b => p.Caches k.1 k.2 b) NBUF (p.links.next none) = some (s.lookup k) ∧
      scan p.links.prev (fun b => p.Recyclable b) NBUF (p.links.prev none) = some s.victim := by
  have hlen : s.mru.length = NBUF := by
    have hperm : s.mru.Perm (List.finRange NBUF) :=
      (List.perm_ext_iff_of_nodup hs.nodup (List.nodup_finRange NBUF)).mpr fun b =>
        ⟨fun _ => List.mem_finRange b, fun _ => hs.listed b⟩
    rw [hperm.length_eq, List.length_finRange]
  have hnext := h.lists.scan_next fun b => p.Caches k.1 k.2 b
  have hprev := h.lists.scan_prev fun b => p.Recyclable b
  rw [hlen] at hnext hprev
  refine ⟨hnext.trans ?_, hprev.trans ?_⟩
  · simp only [Caches, h.hdr, Buf.header, Cache.lookup, Buf.key, Prod.ext_iff]
  · simp only [Recyclable, h.hdr, Buf.header, Cache.victim]

omit [Fintype W] in
theorem Points.enter (h : Points s p) {b : Buf W} (hcnt : b.refcnt = (s.buf i).refcnt + 1) :
    Points (s.put w ⟨i, k, .waiting⟩ b s.disk s.cur) (p.hold i b.header) := by
  refine ⟨h.lists, h.hdr_update b, fun j => ?_⟩
  change (i :: p.out).count j = (Function.update s.buf i b j).refcnt
  by_cases hj : j = i
  · subst hj
    rw [List.count_cons_self, Function.update_self, h.out, hcnt]
  · rw [List.count_cons_of_ne (Ne.symm hj), Function.update_of_ne hj, h.out]

theorem Points.bget (h : Points s p) (hs : s.Tidy) (ht : s.bget w k = .ok t) :
    ∃ a q, Step p a q ∧ Points t q := by
  obtain ⟨hnext, hprev⟩ := h.scan_eq hs k
  have hstep {b : Fin NBUF} {q : Bcache} (hq : p.bget k.1 k.2 = .ok (b, q)) :
      Step p (.bget k.1 k.2) q := by
    rw [Step, Bcache.next, hq]
    rfl
  obtain ⟨-, ⟨i, l₁, l₂, hlook, -, -, -, rfl⟩ | ⟨i, hlook, hvict, -, hcnt, -, rfl⟩⟩ :=
    Cache.bget_cases ht
  · refine ⟨_, _, hstep (b := i) ?_, h.enter rfl⟩
    rw [Bcache.bget, hnext, hlook]
    dsimp only
    rw [h.hdr]
    rfl
  · refine ⟨_, _, hstep (b := i) ?_, h.enter (by rw [hcnt])⟩
    rw [Bcache.bget, hnext, hlook]
    dsimp only
    rw [hprev, hvict]
    rfl

/-- The assignments of `brelse`. -/
theorem Points.leave (h : Points s p) (hs : s.Tidy) (hw : s.sess w = some ⟨i, k, ph⟩) :
    ∃ a q, Step p a q ∧ Points (s.leave w i) q := by
  have hmem := h.mem_out hs hw
  have hn := hs.decr_refcnt hw
  have hcnt : (p.hdr i).refcnt = (s.buf i).refcnt := congrArg Header.refcnt (h.hdr i)
  have hhdr : { p.hdr i with refcnt := (p.hdr i).refcnt - 1 } =
      ({ s.buf i with refcnt := (s.buf i).refcnt - 1 } : Buf W).header := by
    rw [h.hdr]
    rfl
  have hout (j : Fin NBUF) : (p.out.erase i).count j = (Function.update s.buf i
      { s.buf i with refcnt := (s.buf i).refcnt - 1 } j).refcnt := by
    by_cases hj : j = i
    · subst hj
      rw [List.count_erase_self, Function.update_self, h.out]
    · rw [List.count_erase_of_ne hj, Function.update_of_ne hj, h.out]
  have hlists : p.links.Lists s.mru := h.lists
  by_cases hzero : (s.buf i).refcnt - 1 = 0
  · obtain ⟨l₁, l₂, -, hl, herase⟩ := List.exists_erase_eq (hs.listed i)
    have hnodup := hs.nodup
    rw [hl] at hlists hnodup
    refine ⟨.brelse i, { p with
      hdr := Function.update p.hdr i { p.hdr i with refcnt := (p.hdr i).refcnt - 1 }
      out := p.out.erase i
      links := (p.links.unlink i).pushFront i
      clock := p.clock + 1
      dropped := Function.update p.dropped i p.clock }, ?_, ?_, fun j => ?_, fun j => ?_⟩
    · simp [Step, Bcache.next, Bcache.brelse, hmem, hcnt, hzero]
    · rw [Cache.leave, hn]
      dsimp only
      rw [if_pos hzero, herase]
      exact (hlists.unlink hnodup).pushFront (List.perm_middle.nodup_iff.mp hnodup)
    · rw [Cache.leave, hn, hhdr]
      exact h.hdr_update _ j
    · rw [Cache.leave, hn]
      exact hout j
  · refine ⟨.brelse i, { p with
      hdr := Function.update p.hdr i { p.hdr i with refcnt := (p.hdr i).refcnt - 1 }
      out := p.out.erase i }, ?_, ?_, fun j => ?_, fun j => ?_⟩
    · simp [Step, Bcache.next, Bcache.brelse, hmem, hcnt, hzero]
    · rw [Cache.leave, hn]
      dsimp only
      rw [if_neg hzero]
      exact hlists
    · rw [Cache.leave, hn, hhdr]
      exact h.hdr_update _ j
    · rw [Cache.leave, hn]
      exact hout j

/-- One step of a session is one step of the list. -/
theorem Points.step (h : Points s p) (hs : s.Coherent) {a : Cache.Act W} (ht : Cache.Step s a t) :
    t.Coherent ∧ ∃ a q, Step p a q ∧ Points t q := by
  cases a with
  | bget w k =>
    have ht := Outcome.eq_ok_of_toOption ht
    exact ⟨hs.bget ht, h.bget hs.toTidy ht⟩
  | advance w =>
    refine ⟨hs.advance ht, ?_⟩
    obtain ⟨i, k, hw, -, rfl⟩ | ⟨i, k, hw, rfl⟩ | ⟨i, k, hw, rfl⟩ := Cache.advance_cases ht
    · exact h.put hs.toTidy hw rfl rfl rfl
    · rw [hs.read_eq]
      refine h.put hs.toTidy hw rfl ?_ ?_ <;> unfold Cache.filled <;> split <;> rfl
    · exact h.leave hs.toTidy hw
  | modify w data =>
    refine ⟨hs.modify ht, ?_⟩
    obtain ⟨i, k, ph, hw, -, rfl⟩ := Cache.modify_cases ht
    exact h.put hs.toTidy hw rfl rfl rfl
  | bwrite w =>
    refine ⟨hs.bwrite ht, ?_⟩
    obtain ⟨i, k, ph, hw, -, rfl⟩ := Cache.bwrite_cases ht
    exact h.put hs.toTidy hw rfl rfl rfl
  | mark w =>
    refine ⟨hs.mark ht, ?_⟩
    obtain ⟨i, k, ph, hw, -, rfl⟩ := Cache.mark_cases ht
    exact h.put hs.toTidy hw rfl rfl rfl
  | unlock w =>
    refine ⟨hs.unlock ht, ?_⟩
    obtain ⟨i, k, hw, rfl⟩ := Cache.unlock_cases ht
    exact h.put hs.toTidy hw rfl rfl rfl

omit [DecidableEq W] [Fintype W] in
theorem points_binit (disk : Key → Block) : Points (Cache.binit disk : Cache W) binit :=
  ⟨inv_binit.lists, fun _ => rfl, fun _ => rfl⟩

/-- Whatever the sessions do, the pointers follow: some calls of `bget` and `brelse` on the buffers
with their pointers lead to the list, the flags and the counts of the cache, and the scans along the
pointers find what the scans of the cache find. -/
theorem cache_refines_list {disk : Key → Block} {labels : List (Cache.Act W)}
    (hrun : Run Cache.Step (Cache.binit disk) labels s) :
    ∃ acts p, Run Step binit acts p ∧ Points s p ∧ ∀ k : Key,
      scan p.links.next (fun b => p.Caches k.1 k.2 b) NBUF (p.links.next none) =
          some (s.lookup k) ∧
        scan p.links.prev (fun b => p.Recyclable b) NBUF (p.links.prev none) = some s.victim := by
  obtain ⟨acts, p, hacts, hs, hp⟩ := hrun.simulate (R := fun s _ p => s.Coherent ∧ Points s p)
    ⟨Cache.coherent_binit disk, points_binit disk⟩ fun u a v _ p hR hstep => by
      obtain ⟨hv, a', q, hq, hpq⟩ := hR.2.step hR.1 hstep
      exact ⟨[a'], q, .single hq, hv, hpq⟩
  exact ⟨acts, p, hacts, hp, hp.scan_eq hs.toTidy⟩

/-- A session lets go of the buffer it has read, which moves to the front of the list; another one
keeps its own. -/
theorem cache_refines_list_released :
    ∃ acts p, Run Step binit acts p ∧ p.links.next none = some 0 ∧ p.out.count 1 = 1 := by
  obtain ⟨s, hrun, htest⟩ := exists_run_of_runList Cache.next
    (fun s a t h => (h : Cache.Step s a t))
    (Cache.binit fun _ => Bytes.zero BSIZE : Cache Bool)
    [.bget false (1, 7), .advance false, .advance false, .bget true (1, 8), .advance true,
      .advance true, .unlock false, .advance false]
    (fun s => s.mru.head? = some 0 ∧ (s.buf 1).refcnt = 1) (by decide +kernel)
  obtain ⟨hhead, hcnt⟩ := of_decide_eq_true htest
  obtain ⟨acts, p, hacts, hp, -⟩ := cache_refines_list hrun
  exact ⟨acts, p, hacts, hp.lists.next_head.trans hhead, (hp.out 1).trans hcnt⟩

end Refinement

end Xv6.Bio
