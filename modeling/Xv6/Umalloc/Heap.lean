import Xv6.Lib.Transition
import Xv6.Umalloc.Search

/-!
# The heap of a program

The free blocks and the blocks in use together cover every address as often as the regions from
`sbrk` do, that is, at most once. `free` turns a block in use into a free one. `morecore` is the
same for a block that `sbrk` has just handed out, so both rest on one lemma; `malloc` goes the
other way.
-/

namespace Xv6.Umalloc

open Lib

/-- The memory holds the free list `N`, beside the blocks in use with headers at `L`. -/
structure HeapInv (base : ℕ) (s : Heap) (L N : List ℕ) : Prop where
  list : FreeList base s.ptr s.size N
  freep : s.freep ∈ N
  aligned : ∀ a ∈ N, a ≠ base → HEADER ∣ a
  live_aligned : ∀ a ∈ L, HEADER ∣ a
  live_pos : ∀ a ∈ L, 0 < s.size a
  covers : ∀ x, cover (blocks s.size N) x + cover (blocks s.size L) x = cover s.regions x
  once : ∀ x, cover s.regions x ≤ 1
  bounds : ∀ r ∈ s.regions, base + HEADER ≤ r.1 ∧ r.1 + r.2 < 2 ^ 32

/-- What `sbrk` may answer to a request for `n` bytes: the start of an aligned region above `base`,
apart from the earlier ones. -/
def GoodRegion (base : ℕ) (regions : List (ℕ × ℕ)) (p n : ℕ) : Prop :=
  HEADER ∣ p ∧ base + HEADER ≤ p ∧ p + n < 2 ^ 32 ∧ ∀ r ∈ regions, p + n ≤ r.1 ∨ r.1 + r.2 ≤ p

/-- A block contains its header. -/
theorem cover_blocks_pos {size : ℕ → ℕ} {l : List ℕ} {a x : ℕ} (ha : a ∈ l) (hx : a ≤ x)
    (hx' : x < a + HEADER * size a) : 0 < cover (blocks size l) x :=
  cover_pos_iff.mpr ⟨_, List.mem_map_of_mem ha, hx, hx'⟩

namespace HeapInv

variable {base : ℕ} {s : Heap} {L N : List ℕ}

theorem bounds_of_cover (h : HeapInv base s L N) {x : ℕ} (hx : 0 < cover s.regions x) :
    base + HEADER ≤ x ∧ x < 2 ^ 32 := by
  obtain ⟨r, hr, hlo, hhi⟩ := exists_of_cover_pos hx
  have := h.bounds r hr
  omega

theorem node_cover (h : HeapInv base s L N) {a : ℕ} (ha : a ∈ N) (hne : a ≠ base) :
    0 < cover (blocks s.size N) a := by
  have := h.list.pos a ha hne
  refine cover_blocks_pos ha le_rfl ?_
  rw [HEADER]
  omega

theorem live_cover (h : HeapInv base s L N) {a : ℕ} (ha : a ∈ L) :
    0 < cover (blocks s.size L) a := by
  have := h.live_pos a ha
  refine cover_blocks_pos ha le_rfl ?_
  rw [HEADER]
  omega

theorem node_bounds (h : HeapInv base s L N) {a : ℕ} (ha : a ∈ N) (hne : a ≠ base) :
    base + HEADER ≤ a ∧ a < 2 ^ 32 := by
  refine h.bounds_of_cover ?_
  have := h.covers a
  have := h.node_cover ha hne
  omega

theorem live_bounds (h : HeapInv base s L N) {a : ℕ} (ha : a ∈ L) :
    base + HEADER ≤ a ∧ a < 2 ^ 32 := by
  refine h.bounds_of_cover ?_
  have := h.covers a
  have := h.live_cover ha
  omega

/-- No header of the free list lies in a block in use. -/
theorem not_node (h : HeapInv base s L N) {x : ℕ} (hx : 0 < cover (blocks s.size L) x) :
    x ∉ N := by
  intro hN
  have hcovers := h.covers x
  have honce := h.once x
  by_cases hne : x = base
  · have := h.bounds_of_cover (x := x) (by omega)
    rw [HEADER] at this
    omega
  · have := h.node_cover hN hne
    omega

theorem searchable (h : HeapInv base s L N) : Searchable base s N :=
  ⟨h.list, h.freep, fun _ ha hne => (h.node_bounds ha hne).2⟩

/-- A free block and a block in use are apart. -/
theorem apart (h : HeapInv base s L N) {a c : ℕ} (ha : a ∈ N) (hc : c ∈ L) :
    Apart (a, HEADER * s.size a) (c, HEADER * s.size c) := by
  refine apart_of_hit fun x => ?_
  have h₁ := h.covers x
  have h₂ := h.once x
  have h₃ : hit (a, HEADER * s.size a) x ≤ cover (blocks s.size N) x :=
    hit_le_cover (List.mem_map_of_mem ha)
  have h₄ : hit (c, HEADER * s.size c) x ≤ cover (blocks s.size L) x :=
    hit_le_cover (List.mem_map_of_mem hc)
  omega

/-- A free block and a block in use lie one after the other. -/
theorem le_or_le (h : HeapInv base s L N) {a c : ℕ} (ha : a ∈ N) (hc : c ∈ L) :
    s.after a ≤ c ∨ s.after c ≤ a := by
  by_cases hne : a = base
  · left
    have := h.live_bounds hc
    rw [Heap.after, hne, h.list.base_size]
    omega
  · have h₁ := h.list.pos a ha hne
    have h₂ := h.live_pos c hc
    exact (h.apart ha hc).le_or_le (Nat.mul_pos (by decide) h₁) (Nat.mul_pos (by decide) h₂)

/-- The blocks in use are distinct. -/
theorem live_ne {b : ℕ} (h : HeapInv base s (b :: L) N) {a : ℕ} (ha : a ∈ L) : a ≠ b := by
  rintro rfl
  have h₁ := h.covers a
  have h₂ := h.once a
  have h₃ := h.live_pos a List.mem_cons_self
  rw [blocks_cons, cover_cons, hit_of_mem le_rfl (by rw [HEADER]; dsimp only; omega)] at h₁
  have h₄ : 0 < cover (blocks s.size L) a := cover_blocks_pos ha le_rfl (by rw [HEADER]; omega)
  omega

theorem live_pairwise (h : HeapInv base s L N) :
    L.Pairwise fun b c => Apart (b, HEADER * s.size b) (c, HEADER * s.size c) := by
  have hapart : (blocks s.size L).Pairwise Apart := pairwise_apart fun x => by
    have h₁ := h.covers x
    have h₂ := h.once x
    omega
  rwa [blocks, List.pairwise_map] at hapart

theorem live_apart (h : HeapInv base s L N) {b c : ℕ} (hb : b ∈ L) (hc : c ∈ L) (hne : b ≠ c) :
    Apart (b, HEADER * s.size b) (c, HEADER * s.size c) :=
  have : Std.Symm fun b c => Apart (b, HEADER * s.size b) (c, HEADER * s.size c) :=
    ⟨fun _ _ => Apart.symm⟩
  h.live_pairwise.forall hb hc hne

/-- The invariant depends on the headers of the blocks only. -/
theorem congr {t : Heap} (h : HeapInv base s L N) (hptr : ∀ a ∈ N, t.ptr a = s.ptr a)
    (hN : ∀ a ∈ N, t.size a = s.size a) (hL : ∀ a ∈ L, t.size a = s.size a)
    (hfreep : t.freep = s.freep) (hregions : t.regions = s.regions) : HeapInv base t L N where
  list := ⟨h.list.toLinked.congr hptr hN, h.list.head,
    (hN base h.list.base_mem).trans h.list.base_size⟩
  freep := hfreep ▸ h.freep
  aligned := h.aligned
  live_aligned := h.live_aligned
  live_pos := fun a ha => (hL a ha).symm ▸ h.live_pos a ha
  covers := by
    rw [blocks_congr hN, blocks_congr hL, hregions]
    exact h.covers
  once := hregions ▸ h.once
  bounds := hregions ▸ h.bounds

theorem perm {L' : List ℕ} (h : HeapInv base s L N) (hL : L.Perm L') : HeapInv base s L' N where
  list := h.list
  freep := h.freep
  aligned := h.aligned
  live_aligned := fun a ha => h.live_aligned a (hL.mem_iff.mpr ha)
  live_pos := fun a ha => h.live_pos a (hL.mem_iff.mpr ha)
  covers := fun x => by
    rw [← h.covers x]
    exact congrArg _ (cover_perm (hL.symm.map _))
  once := h.once
  bounds := h.bounds

/-! ### Free -/

/-- `free` of a block in use. Some free block then is at least as large. -/
theorem free {b : ℕ} (h : HeapInv base s (b :: L) N) :
    ∃ t N', s.free (b + HEADER) = some t ∧ HeapInv base t L N' ∧
      (∀ a ∈ L, t.size a = s.size a) ∧ ∃ a ∈ N', s.size b ≤ t.size a := by
  have hb := List.mem_cons_self (a := b) (l := L)
  have hbase := h.live_bounds hb
  obtain ⟨q, hq, N', hfree, hN', hqN', hsub, hbig, hcover⟩ :=
    h.list.free_spec h.freep h.searchable.rounds
    (by rw [HEADER] at hbase; omega) (h.live_pos b hb) fun a ha => h.le_or_le ha hb
  have hsize : ∀ a ∈ L, (s.insert q b).size a = s.size a := fun a ha =>
    (FreeList.insert_frame (h.live_ne ha) (by
      rintro rfl
      exact h.not_node (h.live_cover (List.mem_cons_of_mem b ha)) hq)).2
  have hregions := s.insert_regions q b
  refine ⟨s.insert q b, N', hfree, ⟨hN', hqN', fun a ha hne => ?_, fun a ha => ?_, fun a ha => ?_,
    fun x => ?_, ?_, ?_⟩, hsize, hbig⟩
  · rcases List.mem_cons.mp (hsub ha) with rfl | ha
    · exact h.live_aligned a hb
    · exact h.aligned a ha hne
  · exact h.live_aligned a (List.mem_cons_of_mem b ha)
  · rw [hsize a ha]
    exact h.live_pos a (List.mem_cons_of_mem b ha)
  · have := h.covers x
    rw [blocks_cons, cover_cons] at this
    rw [hcover x, blocks_congr hsize, hregions]
    omega
  · rw [hregions]
    exact h.once
  · rw [hregions]
    exact h.bounds

/-- A region from `sbrk` as a block in use. -/
theorem addRegion (h : HeapInv base s L N) {p n : ℕ} (hn : 0 < n) (hp : HEADER ∣ p)
    (hlo : base + HEADER ≤ p) (hhi : p + HEADER * n < 2 ^ 32)
    (hnew : ∀ r ∈ s.regions, p + HEADER * n ≤ r.1 ∨ r.1 + r.2 ≤ p) :
    HeapInv base (s.addRegion p n) (p :: L) N := by
  -- no header that matters lies in the region
  have hfree : ∀ x, p ≤ x → x < p + HEADER * n → cover s.regions x = 0 := by
    intro x hx hx'
    by_contra hcon
    obtain ⟨r, hr, h₁, h₂⟩ := exists_of_cover_pos (Nat.pos_of_ne_zero hcon)
    have := hnew r hr
    omega
  have hzero : cover s.regions p = 0 := hfree p le_rfl (by rw [HEADER]; omega)
  have hcovers := h.covers p
  have hN : ∀ a ∈ N, (s.addRegion p n).size a = s.size a := fun a ha => by
    refine s.addRegion_size_of_ne n ?_
    rintro rfl
    by_cases hne : a = base
    · rw [HEADER] at hlo
      omega
    · have := h.node_cover ha hne
      omega
  have hL : ∀ a ∈ L, (s.addRegion p n).size a = s.size a := fun a ha => by
    refine s.addRegion_size_of_ne n ?_
    rintro rfl
    have := h.live_cover ha
    omega
  refine ⟨⟨h.list.toLinked.congr (fun _ _ => rfl) hN, h.list.head, ?_⟩, h.freep, h.aligned, ?_, ?_,
    fun x => ?_, fun x => ?_, ?_⟩
  · exact (hN base h.list.base_mem).trans h.list.base_size
  · exact List.forall_mem_cons.mpr ⟨hp, h.live_aligned⟩
  · refine List.forall_mem_cons.mpr ⟨?_, fun a ha => ?_⟩
    · rwa [s.addRegion_size]
    · rw [hL a ha]
      exact h.live_pos a ha
  · have := h.covers x
    rw [blocks_congr hN, blocks_cons, blocks_congr hL, s.addRegion_size, s.addRegion_regions,
      cover_append, cover_cons, cover_cons, cover_nil]
    omega
  · have := h.once x
    rw [s.addRegion_regions, cover_append, cover_cons, cover_nil]
    by_cases hx : p ≤ x ∧ x < p + HEADER * n
    · rw [hfree x hx.1 hx.2, hit_of_mem hx.1 hx.2]
    · rw [hit, if_neg hx]
      omega
  · intro r hr
    rcases List.mem_append.mp hr with hr | hr
    · exact h.bounds r hr
    · rw [List.mem_singleton.mp hr]
      exact ⟨hlo, hhi⟩

/-! ### Malloc -/

/-- `morecore` fails and changes nothing, or there is a free block of the size asked for. -/
theorem morecore (h : HeapInv base s L N) {sbrk : Sbrk} {nu : ℕ} (hnu : nu < 2 ^ 29)
    (hsbrk : ∀ p, sbrk s.regions (request nu) = some p →
      GoodRegion base s.regions p (request nu)) :
    s.morecore sbrk nu = some (0, s) ∨
      ∃ p t N', sbrk s.regions (request nu) = some p ∧ s.morecore sbrk nu = some (t.freep, t) ∧
        HeapInv base t L N' ∧ t.regions = s.regions ++ [(p, request nu)] ∧
        (∀ a ∈ L, t.size a = s.size a) ∧ ∃ a ∈ N', nu ≤ t.size a := by
  obtain ⟨n, hpos, hle, hrequest, hfail | ⟨p, hcall, hmore⟩⟩ := s.morecore_cases sbrk hnu
  · exact .inl hfail.2
  right
  obtain ⟨hp, hlo, hhi, hnew⟩ := hsbrk p hcall
  rw [hrequest] at hhi hnew
  have hadd := h.addRegion hpos hp hlo hhi hnew
  obtain ⟨t, N', hfree, hinv, hsize, a, ha, hbig⟩ := hadd.free
  refine ⟨p, t, N', hcall, ?_, hinv, ?_, fun a ha => ?_, a, ha, ?_⟩
  · rw [hmore, hfree, Option.map_some]
  · rw [Heap.free_regions hfree, hrequest, s.addRegion_regions]
  · rw [hsize a ha]
    exact s.addRegion_size_of_ne n (hadd.live_ne ha)
  · rw [s.addRegion_size] at hbig
    exact hle.trans hbig

/-- A part of a free block becomes a block in use. -/
theorem take (h : HeapInv base s L N) {n prevp : ℕ} (hprev : prevp ∈ N) (hn : 0 < n)
    (hle : n ≤ s.size (s.ptr prevp)) :
    ∃ q t N', s.take n prevp (s.ptr prevp) = (q + HEADER, t) ∧ HeapInv base t (q :: L) N' ∧
      t.size q = n ∧ t.regions = s.regions ∧ ∀ a ∈ L, t.size a = s.size a := by
  obtain ⟨q, N', hres, hq, hdvd, hpq, hqp, hkeep, hN', hprev', hsub, hcover⟩ :=
    h.list.take hprev rfl hn hle
  obtain ⟨t, ht⟩ : ∃ t, t = (s.take n prevp (s.ptr prevp)).2 := ⟨_, rfl⟩
  rw [← ht] at hq hkeep hN' hcover
  have hp := h.list.ptr_mem hprev
  have hregions : t.regions = s.regions := by
    rw [ht, Heap.take]
    split_ifs <;> rfl
  have hfreep : t.freep = prevp := by
    rw [ht, Heap.take]
    split_ifs <;> rfl
  have hsize : ∀ a ∈ L, t.size a = s.size a := fun a ha => by
    refine hkeep a (h.not_node (h.live_cover ha)) ?_
    -- the new header lies in a free block
    rintro rfl
    have h₁ := h.live_cover ha
    have h₂ := cover_blocks_pos hp hpq hqp
    have h₃ := h.covers a
    have h₄ := h.once a
    omega
  refine ⟨q, t, N', Prod.ext hres ht.symm, ⟨hN', hfreep ▸ hprev', fun a ha => h.aligned a (hsub ha),
    ?_, ?_, fun x => ?_, ?_, ?_⟩, hq, hregions, hsize⟩
  · refine List.forall_mem_cons.mpr ⟨hdvd (h.aligned _ hp fun hb => ?_), h.live_aligned⟩
    rw [hb, h.list.base_size] at hle
    omega
  · refine List.forall_mem_cons.mpr ⟨hq ▸ hn, fun a ha => ?_⟩
    rw [hsize a ha]
    exact h.live_pos a ha
  · have h₁ := h.covers x
    have h₂ := hcover x
    rw [blocks_cons, cover_cons, hq, blocks_congr hsize, hregions]
    omega
  · rw [hregions]
    exact h.once
  · rw [hregions]
    exact h.bounds

/-- What `malloc` leaves: no memory, or one more block in use. -/
def Gets (base : ℕ) (s : Heap) (L : List ℕ) (n : ℕ) (r : ℕ) (t : Heap) : Prop :=
  (∀ a ∈ L, t.size a = s.size a) ∧
    ((r = 0 ∧ ∃ N, HeapInv base t L N) ∨
      ∃ q N, r = q + HEADER ∧ HeapInv base t (q :: L) N ∧ t.size q = n)

/-- Taking a block that has been found. -/
theorem gets_take (h : HeapInv base s L N) {n a : ℕ} (ha : a ∈ N) (hn : 0 < n)
    (hle : n ≤ s.size (s.ptr a)) :
    ∃ r t, s.take n a (s.ptr a) = (r, t) ∧ Gets base s L n r t ∧ r ≠ 0 ∧ t.regions = s.regions := by
  obtain ⟨q, t, N', htake, hinv, hq, hregions, hkeep⟩ := h.take ha hn hle
  refine ⟨q + HEADER, t, htake, ⟨hkeep, .inr ⟨q, N', rfl, hinv, hq⟩⟩, ?_, hregions⟩
  rw [HEADER]
  omega

/-- The loop of `malloc` returns. If there is no block, nothing has changed; otherwise a region may
have been added. -/
theorem mallocLoop (h : HeapInv base s L N) (hbase : 0 < base) {sbrk : Sbrk} {n : ℕ} (hn : 0 < n)
    (hn' : n < 2 ^ 29)
    (hsbrk : ∀ p, sbrk s.regions (request n) = some p →
      GoodRegion base s.regions p (request n)) :
    ∃ r t, (Umalloc.mallocLoop sbrk n ROUNDS s.freep (s.ptr s.freep) s).1 = some (r, t) ∧
      Gets base s L n r t ∧ (r = 0 → t = s) ∧
      (t.regions = s.regions ∨ ∃ p, sbrk s.regions (request n) = some p ∧
        t.regions = s.regions ++ [(p, request n)]) := by
  have hlength := h.searchable.length_le
  by_cases hbig : ∃ a ∈ N, n ≤ s.size a
  · obtain ⟨a, ha, hle, hres⟩ := h.searchable.mallocLoop_found sbrk (k := ROUNDS)
      (by rw [ROUNDS]; omega) hbig
    obtain ⟨r, t, htake, hgets, hr, hregions⟩ := h.gets_take ha hn hle
    exact ⟨r, t, by rw [hres, htake], hgets, fun hzero => absurd hzero hr, .inl hregions⟩
  push Not at hbig
  rcases h.morecore hn' hsbrk with hfail | ⟨p, t, N', hcall, hmore, hinv, hgrown, hkeep, hbig'⟩
  · exact ⟨0, s, by rw [h.searchable.mallocLoop_fail hbig hfail],
      ⟨fun _ _ => rfl, .inl ⟨rfl, N, h⟩⟩,
      fun _ => rfl, .inl rfl⟩
  · obtain ⟨a, ha, hle, hres⟩ :=
      h.searchable.mallocLoop_more hbase hbig hmore hinv.searchable hbig'
    obtain ⟨r, u, htake, ⟨hsize, hgets⟩, hr, hregions⟩ := hinv.gets_take ha hn hle
    exact ⟨r, u, by rw [hres, htake], ⟨fun a ha => (hsize a ha).trans (hkeep a ha), hgets⟩,
      fun hzero => absurd hzero hr, .inr ⟨p, hcall, hregions.trans hgrown⟩⟩

/-- Before the first call of `malloc` the free list is set up. -/
theorem start {ptr size : ℕ → ℕ} : HeapInv base (Heap.start ⟨ptr, size, 0, []⟩ base) [] [base] := by
  have hstart : Heap.start ⟨ptr, size, 0, []⟩ base = ⟨Function.update ptr base base,
      Function.update size base 0, base, []⟩ := rfl
  rw [hstart]
  refine ⟨⟨Linked.cons_iff.mpr ⟨?_, by simp, by simp, .nil, by simp, by simp⟩, rfl, ?_⟩, by simp,
    by simp, by simp, by simp, ?_, by simp, by simp⟩
  · exact Function.update_self ..
  · exact Function.update_self ..
  · intro x
    simp

end HeapInv

/-! ### Programs -/

namespace Sys

/-- What holds for a program with the free list `N`. -/
structure Integrity (base : ℕ) (s : Sys) (N : List ℕ) : Prop where
  /-- The list is what is reached from `freep`. -/
  reached : ∀ a, a ∈ N ↔ ∃ t, s.heap.ptr^[t] s.heap.freep = a
  /-- It is one cycle through `base`, in the order of addresses up to the wrap. -/
  head : N.head? = some base
  cycle : (N ++ [base]).IsChain fun a b => s.heap.ptr a = b
  increasing : N.Pairwise (· < ·)
  /-- Its blocks do not touch. -/
  gaps : N.Pairwise fun a b => s.heap.after a < b
  /-- They lie beside the blocks in use, which lie beside each other. -/
  beside : ∀ a ∈ N, ∀ b ∈ s.live, s.heap.after a ≤ b.1 ∨ s.heap.after b.1 ≤ a
  live_beside : s.live.Pairwise fun b c => s.heap.after b.1 ≤ c.1 ∨ s.heap.after c.1 ≤ b.1
  /-- An address of a region is in one block, and no other address is in any. -/
  exact : ∀ x, cover (blocks s.heap.size (N ++ s.live.map Prod.fst)) x =
    if ∃ r ∈ s.heap.regions, r.1 ≤ x ∧ x < r.1 + r.2 then 1 else 0
  /-- A block in use is aligned and large enough. -/
  large : ∀ b ∈ s.live, HEADER ∣ b.1 + HEADER ∧ b.1 + HEADER + b.2 ≤ s.heap.after b.1

/-- The invariant of a program after its first call. -/
def Inv (base : ℕ) (s : Sys) : Prop :=
  (∃ N, HeapInv base s.heap (s.live.map Prod.fst) N) ∧
    ∀ b ∈ s.live, b.2 + HEADER ≤ HEADER * s.heap.size b.1

variable {base : ℕ} {s : Sys}

theorem Inv.live_beside (h : s.Inv base) :
    s.live.Pairwise fun b c => s.heap.after b.1 ≤ c.1 ∨ s.heap.after c.1 ≤ b.1 := by
  obtain ⟨⟨N, hN⟩, -⟩ := h
  refine (List.pairwise_map.mp hN.live_pairwise).imp_of_mem fun {b c} hb hc hbc => ?_
  have hb := hN.live_pos b.1 (List.mem_map_of_mem hb)
  have hc := hN.live_pos c.1 (List.mem_map_of_mem hc)
  exact hbc.le_or_le (Nat.mul_pos (by decide) hb) (Nat.mul_pos (by decide) hc)

theorem Inv.integrity (h : s.Inv base) : ∃ N, s.Integrity base N := by
  have hbeside := h.live_beside
  obtain ⟨⟨N, hN⟩, hlarge⟩ := h
  have hgaps : N.Pairwise fun a b => s.heap.after a < b := by
    have htrans : N.IsChain fun a b => s.heap.after a < b := hN.list.chain.imp fun _ _ hab => hab.2
    have : IsTrans ℕ fun a b => s.heap.after a < b := ⟨fun a b c hab hbc => by
      rw [Heap.after] at hbc
      omega⟩
    exact List.isChain_iff_pairwise.mp htrans
  refine ⟨N, ⟨fun a => ⟨fun ha => ?_, ?_⟩, hN.list.head, hN.list.links, hN.list.sorted, hgaps,
    fun a ha b hb => hN.le_or_le ha (List.mem_map_of_mem hb), hbeside, fun x => ?_,
    fun b hb => ?_⟩⟩
  · obtain ⟨t, -, ht⟩ := hN.list.exists_iterate hN.freep ha
    exact ⟨t, ht⟩
  · rintro ⟨t, rfl⟩
    exact hN.list.iterate_mem hN.freep t
  · rw [blocks_append, cover_append, hN.covers x]
    have honce := hN.once x
    split_ifs with hx
    · have := cover_pos_iff.mpr hx
      omega
    · by_contra hcon
      exact hx (cover_pos_iff.mp (Nat.pos_of_ne_zero hcon))
  · have hdvd := hN.live_aligned b.1 (List.mem_map_of_mem hb)
    have := hlarge b hb
    refine ⟨Nat.dvd_add hdvd (Nat.dvd_refl _), ?_⟩
    rw [Heap.after]
    omega

theorem start_regions (base : ℕ) (heap : Heap) :
    (heap.start base).regions = heap.regions := by
  unfold Heap.start
  split_ifs <;> rfl

theorem Inv.start (h : s.Inv base) (hbase : 0 < base) : s.heap.start base = s.heap := by
  obtain ⟨⟨N, hN⟩, -⟩ := h
  have := hN.list.base_le hN.freep
  rw [Heap.start, if_neg (by omega)]

/-- `malloc` of a size that does not overflow, once the free list is set up. -/
theorem malloc_spec (hbase : 0 < base) {sbrk : Sbrk} {nbytes : ℕ} (hnbytes : nbytes ≤ 2 ^ 31 - 16)
    (hsbrk : ∀ p, sbrk s.heap.regions (request (units nbytes)) = some p →
      GoodRegion base s.heap.regions p (request (units nbytes)))
    (h : Inv base ⟨s.heap.start base, s.live⟩) :
    ∃ r t, Umalloc.malloc base sbrk s.heap nbytes = some (r, t) ∧
      Inv base ⟨t, if r = 0 then s.live else (r - HEADER, nbytes) :: s.live⟩ ∧
      (r = 0 → t = s.heap.start base) ∧
      (t.regions = s.heap.regions ∨ ∃ p, sbrk s.heap.regions (request (units nbytes)) = some p ∧
        t.regions = s.heap.regions ++ [(p, request (units nbytes))]) := by
  obtain ⟨⟨N, hN⟩, hlarge⟩ := h
  obtain ⟨hpos, hlt, hunits⟩ := units_spec hnbytes
  rw [← start_regions base s.heap] at hsbrk ⊢
  obtain ⟨r, t, hres, ⟨hkeep, hgets⟩, hzero, hregions⟩ :=
    hN.mallocLoop hbase hpos (hlt.trans (by decide)) hsbrk
  have hkeep' : ∀ b ∈ s.live, b.2 + HEADER ≤ HEADER * t.size b.1 := fun b hb => by
    rw [hkeep b.1 (List.mem_map_of_mem hb)]
    exact hlarge b hb
  refine ⟨r, t, hres, ?_, hzero, hregions⟩
  rcases hgets with ⟨rfl, N', hinv⟩ | ⟨q, N', rfl, hinv, hsize⟩
  · exact ⟨⟨N', hinv⟩, hkeep'⟩
  · rw [if_neg (by rw [HEADER]; omega), Nat.add_sub_cancel]
    refine ⟨⟨N', hinv⟩, List.forall_mem_cons.mpr ⟨?_, hkeep'⟩⟩
    dsimp only
    rw [hsize]
    exact hunits

theorem next_malloc (hbase : 0 < base) {sbrk : Sbrk} {nbytes : ℕ}
    (hallowed : s.Allowed base (.malloc sbrk nbytes))
    (h : Inv base ⟨s.heap.start base, s.live⟩) :
    ∃ t, s.next base (.malloc sbrk nbytes) = some t ∧ t.Inv base := by
  obtain ⟨r, t, hres, hinv, -⟩ := malloc_spec hbase (hallowed.1.trans (by decide))
    (fun p hp => hallowed.2 _ _ _ hp) h
  rw [next, hres, Option.map_some]
  exact ⟨_, rfl, hinv⟩

theorem Inv.malloc (h : s.Inv base) (hbase : 0 < base) {sbrk : Sbrk} {nbytes : ℕ}
    (hallowed : s.Allowed base (.malloc sbrk nbytes)) :
    ∃ t, s.next base (.malloc sbrk nbytes) = some t ∧ t.Inv base :=
  next_malloc hbase hallowed (by rwa [h.start hbase])

/-- Before the first call there is an empty free list. -/
theorem inv_start (ptr size : ℕ → ℕ) :
    Inv base ⟨(init ptr size).heap.start base, (init ptr size).live⟩ :=
  ⟨⟨[base], HeapInv.start⟩, by simp [init]⟩

theorem Inv.free (h : s.Inv base) {ap : ℕ} (hallowed : s.Allowed base (.free ap)) :
    ∃ t, s.next base (.free ap) = some t ∧ t.Inv base := by
  obtain ⟨⟨N, hN⟩, hlarge⟩ := h
  obtain ⟨b, hb, rfl⟩ := hallowed
  rw [next, Nat.add_sub_cancel]
  obtain ⟨c, l₁, l₂, -, hc, hlive, herase⟩ :=
    List.exists_of_eraseP (p := fun c => decide (c.1 = b.1)) hb (by simp)
  rw [decide_eq_true_eq] at hc
  rw [herase]
  have hperm : (s.live.map Prod.fst).Perm (b.1 :: (l₁ ++ l₂).map Prod.fst) := by
    rw [hlive, ← hc, ← List.map_cons]
    exact List.perm_middle.map _
  obtain ⟨t, N', hfree, hinv, hsize, -⟩ := (hN.perm hperm).free
  rw [hfree, Option.map_some]
  refine ⟨_, rfl, ⟨N', hinv⟩, fun d hd => ?_⟩
  dsimp only
  rw [hsize d.1 (List.mem_map_of_mem hd)]
  refine hlarge d ?_
  rw [hlive]
  simp only [List.mem_append, List.mem_cons] at hd ⊢
  tauto

theorem Inv.store (h : s.Inv base) {a ptr size : ℕ}
    (hallowed : s.Allowed base (.store a ptr size)) :
    ∃ t, s.next base (.store a ptr size) = some t ∧ t.Inv base := by
  obtain ⟨⟨N, hN⟩, hlarge⟩ := h
  obtain ⟨b, hb, hlo, hhi⟩ := hallowed
  have hbL : b.1 ∈ s.live.map Prod.fst := List.mem_map_of_mem hb
  rw [HEADER] at hlo hhi
  -- the place of the write is inside a block in use, but is not its header
  have hlive : 0 < cover (blocks s.heap.size (s.live.map Prod.fst)) a :=
    cover_blocks_pos hbL (by omega) (by rw [Heap.after] at hhi; omega)
  have hnode : ∀ x ∈ N, x ≠ a := fun x hx hxa => hN.not_node hlive (hxa ▸ hx)
  have hheader : ∀ x ∈ s.live.map Prod.fst, x ≠ a := by
    rintro x hx rfl
    have hapart := hN.live_apart hbL hx (by omega)
    have h₁ := hN.live_pos x hx
    refine hapart x ⟨by dsimp only; omega, ?_, le_rfl, ?_⟩
    · rw [Heap.after] at hhi
      dsimp only
      omega
    · rw [HEADER]
      dsimp only
      omega
  refine ⟨_, rfl, ⟨N, ?_⟩, fun c hc => ?_⟩
  · exact hN.congr (fun x hx => Function.update_of_ne (hnode x hx) _ _)
      (fun x hx => Function.update_of_ne (hnode x hx) _ _)
      (fun x hx => Function.update_of_ne (hheader x hx) _ _) rfl rfl
  · dsimp only
    rw [Function.update_of_ne (hheader c.1 (List.mem_map_of_mem hc))]
    exact hlarge c hc

/-- Every call that is allowed returns, and keeps the invariant. -/
theorem Inv.next (h : s.Inv base) (hbase : 0 < base) {a : Action} (hallowed : s.Allowed base a) :
    ∃ t, s.next base a = some t ∧ t.Inv base := by
  cases a with
  | malloc sbrk nbytes => exact h.malloc hbase hallowed
  | free ap => exact h.free hallowed
  | store a ptr size => exact h.store hallowed

/-- The first call is one of `malloc`. -/
theorem next_init (hbase : 0 < base) {ptr size : ℕ → ℕ} {a : Action}
    (hallowed : (init ptr size).Allowed base a) :
    ∃ t, (init ptr size).next base a = some t ∧ t.Inv base := by
  cases a with
  | malloc sbrk nbytes => exact next_malloc hbase hallowed (inv_start ptr size)
  | free ap =>
    obtain ⟨b, hb, -⟩ := hallowed
    cases hb
  | store a ptr size =>
    obtain ⟨b, hb, -⟩ := hallowed
    cases hb

/-- From the start, or with the invariant, a call that is allowed returns. -/
theorem exists_next (hbase : 0 < base) {ptr size : ℕ → ℕ} (h : s = init ptr size ∨ s.Inv base)
    {a : Action} (hallowed : s.Allowed base a) : ∃ t, s.next base a = some t ∧ t.Inv base := by
  rcases h with rfl | h
  · exact next_init hbase hallowed
  · exact h.next hbase hallowed

theorem Inv.step (hbase : 0 < base) {ptr size : ℕ → ℕ} {a : Action} {t : Sys}
    (h : s = init ptr size ∨ s.Inv base) (hstep : s.Step base a t) : t.Inv base := by
  obtain ⟨u, hu, hinv⟩ := exists_next hbase h hstep.1
  rw [hstep.2] at hu
  exact Option.some.inj hu ▸ hinv

theorem Inv.run (hbase : 0 < base) {ptr size : ℕ → ℕ} {labels : List Action}
    (hrun : Run (Step base) (init ptr size) labels s) : s = init ptr size ∨ s.Inv base :=
  hrun.invariant (I := fun s => s = init ptr size ∨ s.Inv base) (.inl rfl)
    fun _ _ _ hu hstep => .inr (Inv.step hbase hu hstep)

end Sys

/-- After every call of a program the free list and the blocks in use are as they should be, and
every call that is allowed returns. -/
theorem heap_integrity {base : ℕ} (hbase : 0 < base) {ptr size : ℕ → ℕ} {labels : List Action}
    {s : Sys} (hrun : Run (Sys.Step base) (Sys.init ptr size) labels s) :
    (labels ≠ [] → ∃ N, s.Integrity base N) ∧
      ∀ a, s.Allowed base a → ∃ t, s.next base a = some t := by
  refine ⟨fun hne => ?_, fun a hallowed => ?_⟩
  · cases hrun with
    | refl => exact absurd rfl hne
    | snoc hrun hstep => exact (Sys.Inv.step hbase (Sys.Inv.run hbase hrun) hstep).integrity
  · obtain ⟨t, ht, -⟩ := Sys.exists_next hbase (Sys.Inv.run hbase hrun) hallowed
    exact ⟨t, ht⟩

/-- An `sbrk` with one region to give. -/
def sbrkOnce : Sbrk := fun regions n => if regions = [] ∧ n < 2 ^ 16 then some 4096 else none

theorem goodSbrk_sbrkOnce : Sys.GoodSbrk 64 sbrkOnce := by
  intro regions n p hp
  unfold sbrkOnce at hp
  split_ifs at hp with hcond
  obtain rfl := Option.some.inj hp
  refine ⟨by decide, by decide, by omega, fun r hr => ?_⟩
  rw [hcond.1] at hr
  cases hr

/-- A program asks for 10 bytes and for 100, and frees the first block. -/
theorem heap_integrity_two_blocks :
    ∃ (labels : List Action) (s : Sys), Run (Sys.Step 64) (Sys.init id id) labels s ∧
      s.live = [(36728, 100)] ∧ ∃ N, s.Integrity 64 N := by
  have hmalloc : ∀ (s : Sys) nbytes, nbytes ≤ 2 ^ 30 → s.Allowed 64 (.malloc sbrkOnce nbytes) :=
    fun _ _ h => ⟨h, goodSbrk_sbrkOnce⟩
  have hlive : ((Sys.init id id).next 64 (.malloc sbrkOnce 10)).bind (fun s =>
      (s.next 64 (.malloc sbrkOnce 100)).map Sys.live) = some [(36728, 100), (36840, 10)] := by
    decide +kernel
  have hlive' : ((Sys.init id id).next 64 (.malloc sbrkOnce 10)).bind (fun s =>
      (s.next 64 (.malloc sbrkOnce 100)).bind fun s =>
        (s.next 64 (.free 36848)).map Sys.live) = some [(36728, 100)] := by
    decide +kernel
  obtain ⟨s₁, h₁⟩ := (heap_integrity (by decide) .refl).2 _
    (hmalloc (Sys.init id id) 10 (by decide))
  have hrun₁ : Run (Sys.Step 64) (Sys.init id id) [.malloc sbrkOnce 10] s₁ :=
    .single ⟨hmalloc _ 10 (by decide), h₁⟩
  obtain ⟨s₂, h₂⟩ := (heap_integrity (by decide) hrun₁).2 _ (hmalloc s₁ 100 (by decide))
  have hrun₂ := hrun₁.snoc ⟨hmalloc _ 100 (by decide), h₂⟩
  rw [h₁, Option.bind_some, h₂] at hlive hlive'
  have hfree : s₂.Allowed 64 (.free 36848) := by
    refine ⟨(36840, 10), ?_, rfl⟩
    rw [Option.some.inj hlive]
    simp
  obtain ⟨s₃, h₃⟩ := (heap_integrity (by decide) hrun₂).2 _ hfree
  have hrun₃ := hrun₂.snoc ⟨hfree, h₃⟩
  rw [Option.bind_some, h₃] at hlive'
  exact ⟨_, s₃, hrun₃, Option.some.inj hlive', (heap_integrity (by decide) hrun₃).1 (by simp)⟩

end Xv6.Umalloc
