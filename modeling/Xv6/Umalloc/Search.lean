import Xv6.Umalloc.FreeList

/-!
# The search for a block

`malloc` goes round the free list from `freep` on. It comes to a block that is large enough, or back
to `freep` after all blocks have turned out too small. Then `sbrk` is asked once, and if it answers,
the list has a block that is large enough for a second round. Nothing but the free list matters
here: not where it came from, nor which blocks are in use. -/

namespace Xv6.Umalloc

open Lib

/-- The region of `n` units at `p`, with its header written. -/
def Heap.addRegion (s : Heap) (p n : ℕ) : Heap :=
  { s with size := Function.update s.size p n, regions := s.regions ++ [(p, HEADER * n)] }

@[simp] theorem Heap.addRegion_size (s : Heap) (p n : ℕ) : (s.addRegion p n).size p = n :=
  Function.update_self ..

theorem Heap.addRegion_size_of_ne (s : Heap) {p a : ℕ} (n : ℕ) (h : a ≠ p) :
    (s.addRegion p n).size a = s.size a := Function.update_of_ne h _ _

@[simp] theorem Heap.addRegion_regions (s : Heap) (p n : ℕ) :
    (s.addRegion p n).regions = s.regions ++ [(p, HEADER * n)] := rfl

/-- `morecore` asks for at least `nu` units. It gives up without them, or frees the region. -/
theorem Heap.morecore_cases (s : Heap) (sbrk : Sbrk) {nu : ℕ} (hnu : nu < 2 ^ 29) :
    ∃ n, 0 < n ∧ nu ≤ n ∧ request nu = HEADER * n ∧
      (sbrk s.regions (request nu) = none ∧ s.morecore sbrk nu = some (0, s) ∨
        ∃ p, sbrk s.regions (request nu) = some p ∧
          s.morecore sbrk nu = ((s.addRegion p n).free (p + HEADER)).map
            fun s => (s.freep, s)) := by
  obtain ⟨n, hn⟩ : ∃ n, n = if nu < 4096 then 4096 else nu := ⟨_, rfl⟩
  have hbounds : 0 < n ∧ nu ≤ n ∧ n < 2 ^ 29 := by
    rw [hn]
    split_ifs <;> omega
  have hbytes : n * HEADER % 2 ^ 32 = HEADER * n := by
    rw [HEADER]
    omega
  have hrequest : request nu = HEADER * n := by rw [request, ← hn, hbytes]
  refine ⟨n, hbounds.1, hbounds.2.1, hrequest, ?_⟩
  rw [hrequest, Heap.morecore, ← hn]
  dsimp only
  rw [hbytes]
  cases sbrk s.regions (HEADER * n) with
  | none => exact .inl ⟨rfl, rfl⟩
  | some p => exact .inr ⟨p, rfl, rfl⟩

/-- The search from `freep` comes to a block that is large enough, or all blocks are too small and
it comes back to `freep`. -/
theorem FreeList.search {base : ℕ} {s : Heap} {N : List ℕ} (h : FreeList base s.ptr s.size N)
    (hfreep : s.freep ∈ N) (n : ℕ) :
    ∃ m < 2 * N.length,
      (∀ i < m, s.size (s.ptr^[i] (s.ptr s.freep)) < n ∧ s.ptr^[i] (s.ptr s.freep) ≠ s.freep) ∧
      (n ≤ s.size (s.ptr^[m] (s.ptr s.freep)) ∨
        s.ptr^[m] (s.ptr s.freep) = s.freep ∧ ∀ a ∈ N, s.size a < n) := by
  classical
  obtain ⟨t, ht, hback⟩ := h.exists_iterate (h.ptr_mem hfreep) hfreep
  have hex : ∃ m, n ≤ s.size (s.ptr^[m] (s.ptr s.freep)) ∨ s.ptr^[m] (s.ptr s.freep) = s.freep :=
    ⟨t, .inr hback⟩
  have hskip : ∀ i < Nat.find hex,
      s.size (s.ptr^[i] (s.ptr s.freep)) < n ∧ s.ptr^[i] (s.ptr s.freep) ≠ s.freep := by
    intro i hi
    have := Nat.find_min hex hi
    push Not at this
    exact this
  refine ⟨Nat.find hex, lt_of_le_of_lt (Nat.find_min' hex (.inr hback)) ht, hskip, ?_⟩
  by_cases hbig : n ≤ s.size (s.ptr^[Nat.find hex] (s.ptr s.freep))
  · exact .inl hbig
  -- the nodes on the way back to `freep` are all the nodes there are
  have hend := (Nat.find_spec hex).resolve_left hbig
  refine .inr ⟨hend, fun a ha => ?_⟩
  have hperiod : Function.IsPeriodicPt s.ptr (Nat.find hex + 1) s.freep := hend
  obtain ⟨k, -, rfl⟩ := h.exists_iterate hfreep ha
  rw [← hperiod.iterate_mod_apply k]
  have hlt : k % (Nat.find hex + 1) < Nat.find hex + 1 := Nat.mod_lt _ (by omega)
  rcases hi : k % (Nat.find hex + 1) with - | i
  · rw [Function.iterate_zero, id, ← hend]
    omega
  · rw [Function.iterate_succ_apply]
    rcases Nat.lt_or_ge i (Nat.find hex) with hlt' | hge
    · exact (hskip i hlt').1
    · rw [show i = Nat.find hex by omega]
      omega

/-- The loop of `malloc` goes past blocks that are too small, and asks for nothing on the way. -/
theorem mallocLoop_skip {s : Heap} {sbrk : Sbrk} {n t : ℕ} (k a : ℕ)
    (h : ∀ i < t, s.size (s.ptr^[i] (s.ptr a)) < n ∧ s.ptr^[i] (s.ptr a) ≠ s.freep) :
    mallocLoop sbrk n (k + t) a (s.ptr a) s =
      mallocLoop sbrk n k (s.ptr^[t] a) (s.ptr (s.ptr^[t] a)) s := by
  induction t generalizing a with
  | zero => rfl
  | succ t ih =>
    obtain ⟨hsmall, hne⟩ := h 0 (by omega)
    rw [Function.iterate_zero, id] at hsmall hne
    rw [← Nat.add_assoc, mallocLoop, if_neg (by omega), if_neg hne]
    exact ih (s.ptr a) fun i hi => h (i + 1) (by omega)

/-- The units for a request whose bytes are a positive `int`. -/
theorem units_spec {nbytes : ℕ} (h : nbytes ≤ 2 ^ 31 - 16) :
    0 < units nbytes ∧ units nbytes < 2 ^ 28 ∧ nbytes + HEADER ≤ HEADER * units nbytes := by
  have hmod : (nbytes + (HEADER - 1)) % 2 ^ 32 = nbytes + 7 := by
    rw [HEADER]
    omega
  rw [units, hmod, HEADER]
  omega

theorem take_ne_zero (s : Heap) (n prevp p : ℕ) : (s.take n prevp p).1 ≠ 0 := by
  rw [Heap.take, HEADER]
  split_ifs <;> dsimp only <;> omega

namespace FreeList

variable {base : ℕ} {s : Heap} {N : List ℕ}

theorem length_le (h : FreeList base s.ptr s.size N) (hlt : ∀ a ∈ N, a ≠ base → a < 2 ^ 32) :
    N.length ≤ 2 ^ 32 + 1 := by
  obtain ⟨l, rfl⟩ := h.eq_cons
  have hsorted := List.pairwise_cons.mp h.sorted
  have hnodup : l.Nodup := hsorted.2.imp fun hab => Nat.ne_of_lt hab
  have hsub : l.toFinset ⊆ Finset.range (2 ^ 32) := fun a ha => by
    rw [List.mem_toFinset] at ha
    exact Finset.mem_range.mpr (hlt a (List.mem_cons_of_mem base ha) (hsorted.1 a ha).ne')
  have hcard := Finset.card_le_card hsub
  rw [List.toFinset_card_of_nodup hnodup, Finset.card_range] at hcard
  rw [List.length_cons]
  omega

/-- One round: it comes to a block that is large enough, or all are too small. -/
theorem mallocLoop_search (h : FreeList base s.ptr s.size N) (hfreep : s.freep ∈ N) (sbrk : Sbrk)
    (n : ℕ) {k : ℕ} (hk : 2 * N.length < k) :
    (∃ a ∈ N, n ≤ s.size (s.ptr a) ∧
      mallocLoop sbrk n k s.freep (s.ptr s.freep) s = (some (s.take n a (s.ptr a)), [])) ∨
    (∀ a ∈ N, s.size a < n) ∧ ∃ j, k - 2 * N.length ≤ j ∧ ∃ a, s.ptr a = s.freep ∧
      mallocLoop sbrk n k s.freep (s.ptr s.freep) s = mallocLoop sbrk n (j + 1) a s.freep s := by
  obtain ⟨m, hm, hskip, hend⟩ := h.search hfreep n
  obtain ⟨j, rfl⟩ : ∃ j, k = (j + 1) + m := ⟨k - m - 1, by omega⟩
  rw [mallocLoop_skip (j + 1) s.freep hskip]
  rw [← Function.iterate_succ_apply, Function.iterate_succ_apply'] at hend
  have hmem := h.iterate_mem hfreep m
  obtain ⟨a, ha⟩ : ∃ a, a = s.ptr^[m] s.freep := ⟨_, rfl⟩
  rw [← ha] at hend hmem ⊢
  rcases hend with hbig | ⟨hback, hsmall⟩
  · exact .inl ⟨a, hmem, hbig, by rw [mallocLoop, if_pos hbig]⟩
  · exact .inr ⟨hsmall, j, by omega, a, hback, by rw [hback]⟩

end FreeList

/-- What `sbrk` answers lies above `base` and apart from the blocks of the free list. -/
def FreshSbrk (base : ℕ) (s : Heap) (N : List ℕ) (sbrk : Sbrk) : Prop :=
  ∀ n p, sbrk s.regions n = some p →
    base + HEADER ≤ p ∧ p + n ≤ 2 ^ 32 ∧ ∀ a ∈ N, s.after a ≤ p ∨ p + n ≤ a

/-- The free list is well formed, `freep` is on it, and its addresses are words. -/
structure Searchable (base : ℕ) (s : Heap) (N : List ℕ) : Prop where
  list : FreeList base s.ptr s.size N
  freep : s.freep ∈ N
  word : ∀ a ∈ N, a ≠ base → a < 2 ^ 32

namespace Searchable

variable {base : ℕ} {s : Heap} {N : List ℕ}

theorem length_le (h : Searchable base s N) : N.length ≤ 2 ^ 32 + 1 := h.list.length_le h.word

theorem rounds (h : Searchable base s N) : 2 * N.length ≤ ROUNDS := by
  have := h.length_le
  rw [ROUNDS]
  omega

theorem free (h : Searchable base s N) {b : ℕ} (hbase : base < b) (hword : b < 2 ^ 32)
    (hb : 0 < s.size b) (hapart : ∀ a ∈ N, s.after a ≤ b ∨ s.after b ≤ a) :
    ∃ t N', s.free (b + HEADER) = some t ∧ Searchable base t N' ∧
    ∃ a ∈ N', s.size b ≤ t.size a := by
  obtain ⟨q, -, N', hfree, hN', hqN', hsub, hbig, -⟩ :=
    h.list.free_spec h.freep h.rounds hbase hb hapart
  refine ⟨_, N', hfree, ⟨hN', hqN', fun a ha hne => ?_⟩, hbig⟩
  rcases List.mem_cons.mp (hsub ha) with rfl | ha
  exacts [hword, h.word a ha hne]

/-- `morecore` fails and changes nothing, or there is a free block of the size asked for. -/
theorem morecore (h : Searchable base s N) {sbrk : Sbrk} (hsbrk : FreshSbrk base s N sbrk) {nu : ℕ}
    (hnu : nu < 2 ^ 29) :
    (sbrk s.regions (request nu) = none ∧ s.morecore sbrk nu = some (0, s)) ∨
      ∃ t N', s.morecore sbrk nu = some (t.freep, t) ∧ Searchable base t N' ∧
        ∃ a ∈ N', nu ≤ t.size a := by
  obtain ⟨n, hpos, hle, hrequest, hfail | ⟨p, hcall, hmore⟩⟩ := s.morecore_cases sbrk hnu
  · exact .inl hfail
  right
  obtain ⟨hlo, hhi, hnew⟩ := hsbrk _ _ hcall
  rw [hrequest] at hhi hnew
  rw [HEADER] at hlo hhi
  -- the region is a block apart from the list once its header is written
  have hne : ∀ a ∈ N, a ≠ p := by
    rintro a ha rfl
    have hsize := h.list.pos a ha (by omega)
    have := hnew a ha
    rw [Heap.after, HEADER] at this
    omega
  have hp := s.addRegion_size p n
  have hsize : ∀ a ∈ N, (s.addRegion p n).size a = s.size a := fun a ha =>
    s.addRegion_size_of_ne n (hne a ha)
  have hadd : Searchable base (s.addRegion p n) N :=
    ⟨⟨h.list.toLinked.congr (fun _ _ => rfl) hsize, h.list.head,
      (hsize base h.list.base_mem).trans h.list.base_size⟩, h.freep, h.word⟩
  have hapart : ∀ a ∈ N, (s.addRegion p n).after a ≤ p ∨ (s.addRegion p n).after p ≤ a := by
    intro a ha
    rw [Heap.after, Heap.after, hsize a ha, hp]
    exact hnew a ha
  obtain ⟨t, N', hfree, hN', a, ha, hbig⟩ :=
    hadd.free (by omega) (by omega) (hp.symm ▸ hpos) hapart
  refine ⟨t, N', ?_, hN', a, ha, ?_⟩
  · rw [hmore, hfree, Option.map_some]
  · rw [hp] at hbig
    exact hle.trans hbig

/-! ### The loop of `malloc` -/

variable {sbrk : Sbrk} {n k : ℕ}

/-- If some block is large enough, one is taken and `sbrk` is not called. -/
theorem mallocLoop_found (h : Searchable base s N) (sbrk : Sbrk) (hk : 2 * N.length < k)
    (hbig : ∃ a ∈ N, n ≤ s.size a) :
    ∃ a ∈ N, n ≤ s.size (s.ptr a) ∧
      mallocLoop sbrk n k s.freep (s.ptr s.freep) s = (some (s.take n a (s.ptr a)), []) := by
  rcases h.list.mallocLoop_search h.freep sbrk n hk with hfound | ⟨hsmall, -⟩
  · exact hfound
  · obtain ⟨a, ha, hle⟩ := hbig
    have := hsmall a ha
    omega

/-- Otherwise `morecore` is called after one round. -/
theorem mallocLoop_small (h : Searchable base s N) (sbrk : Sbrk)
    (hsmall : ∀ a ∈ N, s.size a < n) :
    ∃ j, 2 ^ 34 ≤ j ∧
      mallocLoop sbrk n ROUNDS s.freep (s.ptr s.freep) s = match s.morecore sbrk n with
        | none => (none, [request n])
        | some (p, s) =>
          if p = 0 then (some (0, s), [request n])
          else (mallocLoop sbrk n j p (s.ptr p) s).map id (request n :: ·) := by
  have hlength := h.length_le
  rcases h.list.mallocLoop_search h.freep sbrk n (k := ROUNDS) (by rw [ROUNDS]; omega) with
    ⟨a, ha, hbig, -⟩ | ⟨-, j, hj, a, -, hres⟩
  · have := hsmall _ (h.list.ptr_mem ha)
    omega
  have htoo : ¬n ≤ s.size s.freep := by
    have := hsmall _ h.freep
    omega
  rw [ROUNDS] at hj
  refine ⟨j, by omega, ?_⟩
  rw [hres, mallocLoop, if_neg htoo]
  exact if_pos rfl

theorem mallocLoop_fail (h : Searchable base s N) (hsmall : ∀ a ∈ N, s.size a < n)
    (hmore : s.morecore sbrk n = some (0, s)) :
    mallocLoop sbrk n ROUNDS s.freep (s.ptr s.freep) s = (some (0, s), [request n]) := by
  obtain ⟨j, -, hres⟩ := h.mallocLoop_small sbrk hsmall
  rw [hres, hmore]
  exact if_pos rfl

/-- With the memory from `sbrk` there is a block in the second round. -/
theorem mallocLoop_more (h : Searchable base s N) (hbase : 0 < base)
    (hsmall : ∀ a ∈ N, s.size a < n) {t : Heap} {N' : List ℕ}
    (hmore : s.morecore sbrk n = some (t.freep, t)) (ht : Searchable base t N')
    (hbig : ∃ a ∈ N', n ≤ t.size a) :
    ∃ a ∈ N', n ≤ t.size (t.ptr a) ∧
      mallocLoop sbrk n ROUNDS s.freep (s.ptr s.freep) s =
        (some (t.take n a (t.ptr a)), [request n]) := by
  obtain ⟨j, hj, hres⟩ := h.mallocLoop_small sbrk hsmall
  have hlength := ht.length_le
  obtain ⟨a, ha, hle, hres'⟩ := ht.mallocLoop_found sbrk (k := j) (by omega) hbig
  have hne : t.freep ≠ 0 := by
    have := ht.list.base_le ht.freep
    omega
  rw [hmore] at hres
  dsimp only at hres
  rw [if_neg hne, hres'] at hres
  exact ⟨a, ha, hle, hres⟩

/-- What a call of `malloc` does: it takes a block without asking `sbrk`, or asks once. -/
theorem mallocLoop_spec (h : Searchable base s N) (hbase : 0 < base)
    (hsbrk : FreshSbrk base s N sbrk) (hn : n < 2 ^ 29) :
    ∃ r t calls, mallocLoop sbrk n ROUNDS s.freep (s.ptr s.freep) s = (some (r, t), calls) ∧
      ((r ≠ 0 ∧ calls = []) ∨
        (∀ a ∈ N, s.size a < n) ∧ calls = [request n] ∧
          (r = 0 → sbrk s.regions (request n) = none ∧ t = s)) := by
  have hlength := h.length_le
  by_cases hbig : ∃ a ∈ N, n ≤ s.size a
  · obtain ⟨a, -, -, hres⟩ := h.mallocLoop_found sbrk (k := ROUNDS) (by rw [ROUNDS]; omega) hbig
    exact ⟨(s.take n a (s.ptr a)).1, (s.take n a (s.ptr a)).2, [], hres,
      .inl ⟨take_ne_zero s n a (s.ptr a), rfl⟩⟩
  push Not at hbig
  rcases h.morecore hsbrk hn with ⟨hnone, hfail⟩ | ⟨t, N', hmore, hN', hbig'⟩
  · exact ⟨0, s, _, h.mallocLoop_fail hbig hfail, .inr ⟨hbig, rfl, fun _ => ⟨hnone, rfl⟩⟩⟩
  · obtain ⟨a, -, -, hres⟩ := h.mallocLoop_more hbase hbig hmore hN' hbig'
    exact ⟨(t.take n a (t.ptr a)).1, (t.take n a (t.ptr a)).2, _, hres,
      .inr ⟨hbig, rfl, fun hzero => absurd hzero (take_ne_zero t n a (t.ptr a))⟩⟩

end Searchable

/-- Whatever the free list and the place of `freep` on it, `malloc` of at most `2 ^ 30` bytes
returns. It asks `sbrk` at most once, and only if no free block is large enough. It returns 0 only
if that request failed, and then nothing has changed. `free` of a block apart from the list returns
as well. -/
theorem malloc_search {base : ℕ} (hbase : 0 < base) {s : Heap} {N : List ℕ}
    (h : Searchable base s N) :
    (∀ (sbrk : Sbrk) (nbytes : ℕ), FreshSbrk base s N sbrk → nbytes ≤ 2 ^ 30 →
      ∃ r t, malloc base sbrk s nbytes = some (r, t) ∧
        (mallocCalls base sbrk s nbytes).length ≤ 1 ∧
        (mallocCalls base sbrk s nbytes ≠ [] → ∀ a ∈ N, s.size a < units nbytes) ∧
        (r = 0 → ∃ n, mallocCalls base sbrk s nbytes = [n] ∧ sbrk s.regions n = none ∧ t = s)) ∧
    ∀ b, base < b → b < 2 ^ 32 → 0 < s.size b → (∀ a ∈ N, s.after a ≤ b ∨ s.after b ≤ a) →
      ∃ t N', s.free (b + HEADER) = some t ∧ Searchable base t N' := by
  refine ⟨fun sbrk nbytes hsbrk hnbytes => ?_, fun b hb hword hpos hapart => ?_⟩
  · have hstart : s.start base = s := by
      have := h.list.base_le h.freep
      rw [Heap.start, if_neg (by omega)]
    obtain ⟨-, hlt, -⟩ := units_spec (hnbytes.trans (by decide))
    obtain ⟨r, t, calls, hres, hcases⟩ := h.mallocLoop_spec hbase hsbrk (hlt.trans (by decide))
    rw [malloc, mallocCalls, hstart, hres]
    refine ⟨r, t, rfl, ?_⟩
    rcases hcases with ⟨hr, rfl⟩ | ⟨hsmall, rfl, hfail⟩
    · exact ⟨by simp, fun hne => absurd rfl hne, fun hzero => absurd hzero hr⟩
    · exact ⟨le_rfl, fun _ => hsmall, fun hzero => ⟨_, rfl, hfail hzero⟩⟩
  · obtain ⟨t, N', hfree, hN', -⟩ := h.free hb hword hpos hapart
    exact ⟨t, N', hfree, hN'⟩

/-- A free list of `base` and one block of five units, with `freep` at the block. -/
def oneFree : Heap where
  ptr := fun a => if a = 64 then 4096 else 64
  size := fun a => if a = 64 then 0 else 5
  freep := 4096
  regions := [(4096, 40)]

theorem searchable_oneFree : Searchable 64 oneFree [64, 4096] :=
  ⟨⟨⟨by simp [Next, oneFree, HEADER], by simp [oneFree], by simp [oneFree]⟩, rfl, rfl⟩,
    by simp [oneFree], by simp⟩

/-- More memory lies at 8192, for one request. -/
def sbrkAt8192 : Sbrk := fun regions n =>
  if regions = oneFree.regions ∧ n ≤ 2 ^ 16 then some 8192 else none

/-- There is a block for 32 bytes. For 33 there is none, and `sbrk` gives one; without it, nothing
changes. The block after the gap is freed. -/
theorem malloc_search_oneFree :
    (∃ r t, malloc 64 sbrkAt8192 oneFree 32 = some (r, t) ∧ r ≠ 0) ∧
      (∃ r t, malloc 64 sbrkAt8192 oneFree 33 = some (r, t) ∧ r ≠ 0 ∧
        mallocCalls 64 sbrkAt8192 oneFree 33 = [32768]) ∧
      malloc 64 (fun _ _ => none) oneFree 33 = some (0, oneFree) ∧
      ∃ t N', oneFree.free (4200 + HEADER) = some t ∧ Searchable 64 t N' := by
  have hmore : FreshSbrk 64 oneFree [64, 4096] sbrkAt8192 := by
    intro n p hp
    unfold sbrkAt8192 at hp
    split_ifs at hp with hn
    obtain rfl := Option.some.inj hp
    refine ⟨by decide, by omega, fun a ha => .inl ?_⟩
    rw [List.mem_cons, List.mem_singleton] at ha
    rcases ha with rfl | rfl <;> decide
  have hnone : FreshSbrk 64 oneFree [64, 4096] fun _ _ => none := by
    intro n p hp
    cases hp
  obtain ⟨hmalloc, hfree⟩ := malloc_search (by decide) searchable_oneFree
  refine ⟨?_, ?_, ?_, hfree 4200 (by decide) (by decide) (by decide) ?_⟩
  · obtain ⟨r, t, hres, -, hsmall, hzero⟩ := hmalloc _ 32 hmore (by decide)
    refine ⟨r, t, hres, fun hr => ?_⟩
    obtain ⟨n, hcalls, -⟩ := hzero hr
    have := hsmall (by rw [hcalls]; simp) 4096 (by simp)
    revert this
    decide
  · have hcalls : mallocCalls 64 sbrkAt8192 oneFree 33 = [32768] := by decide +kernel
    obtain ⟨r, t, hres, -, -, hzero⟩ := hmalloc _ 33 hmore (by decide)
    refine ⟨r, t, hres, fun hr => ?_, hcalls⟩
    -- the request is for 32768 bytes, and is answered
    obtain ⟨n, hcalls', hfail, -⟩ := hzero hr
    obtain rfl : 32768 = n := List.head_eq_of_cons_eq (hcalls.symm.trans hcalls')
    revert hfail
    decide
  · obtain ⟨r, t, hres, -, -, hzero⟩ := hmalloc _ 33 hnone (by decide)
    have hr : (malloc 64 (fun _ _ => none) oneFree 33).map Prod.fst = some 0 := by decide +kernel
    rw [hres, Option.map_some] at hr
    obtain rfl : r = 0 := Option.some.inj hr
    obtain ⟨n, -, -, rfl⟩ := hzero rfl
    exact hres
  · intro a ha
    rw [List.mem_cons, List.mem_singleton] at ha
    rcases ha with rfl | rfl <;> decide

end Xv6.Umalloc
