import Xv6.Umalloc.Heap

/-!
# The order of frees

The free blocks are the maximal stretches of the free space, so the free list is determined by what
space is free, and it does not matter in which order the blocks became free.
-/

namespace Xv6.Umalloc

open Lib

/-- Free the blocks with the given headers, one after the other. -/
def Heap.freeAll (s : Heap) : List ℕ → Option Heap
  | [] => some s
  | b :: l => (s.free (b + HEADER)).bind fun t => t.freeAll l

/-- Freeing blocks turns them into free space. -/
theorem HeapInv.freeAll {base : ℕ} {s : Heap} {l L N : List ℕ} (h : HeapInv base s (l ++ L) N) :
    ∃ t N', s.freeAll l = some t ∧ HeapInv base t L N' ∧ t.regions = s.regions ∧
      ∀ a ∈ L, t.size a = s.size a := by
  induction l generalizing s N with
  | nil => exact ⟨s, N, rfl, h, rfl, fun _ _ => rfl⟩
  | cons b l ih =>
    obtain ⟨t, N', hfree, hinv, hsize, -⟩ := HeapInv.free h
    obtain ⟨u, N'', hall, hinv', hregions, hsize'⟩ := ih hinv
    refine ⟨u, N'', ?_, hinv', hregions.trans (Heap.free_regions hfree), fun a ha => ?_⟩
    · rw [Heap.freeAll, hfree, Option.bind_some, hall]
    · rw [hsize' a ha, hsize a (List.mem_append_right l ha)]

section Canonical

variable {base : ℕ} {ptr size ptr' size' : ℕ → ℕ} {l N N' : List ℕ}

/-- Behind `base` the blocks of a free list have gaps between them. -/
theorem FreeList.gapped (h : FreeList base ptr size (base :: l)) : Gapped (blocks size l) := by
  have hsorted := List.pairwise_cons.mp h.sorted
  refine ⟨fun b hb => ?_, ?_⟩
  · obtain ⟨a, ha, rfl⟩ := List.mem_map.mp hb
    have := h.pos a (List.mem_cons_of_mem base ha) (hsorted.1 a ha).ne'
    dsimp only
    rw [HEADER]
    omega
  · have : IsTrans ℕ fun a b => a + HEADER * size a < b := ⟨fun a b c hab hbc => by omega⟩
    have hchain : (base :: l).IsChain fun a b => a + HEADER * size a < b :=
      h.chain.imp fun _ _ hab => hab.2
    have hgaps := List.isChain_iff_pairwise.mp hchain
    exact List.pairwise_map.mpr (List.pairwise_cons.mp hgaps).2

/-- The block of `base` is empty. -/
theorem FreeList.cover_tail (h : FreeList base ptr size (base :: l)) (x : ℕ) :
    cover (blocks size (base :: l)) x = cover (blocks size l) x := by
  rw [blocks_cons, cover_cons, h.base_size, Nat.mul_zero, hit_empty, Nat.zero_add]

/-- The free space determines the free list. -/
theorem FreeList.eq_of_cover_eq (h : FreeList base ptr size N) (h' : FreeList base ptr' size' N')
    (hcover : ∀ x, cover (blocks size N) x = cover (blocks size' N') x) :
    N = N' ∧ ∀ a ∈ N, size a = size' a := by
  obtain ⟨l, rfl⟩ := h.eq_cons
  obtain ⟨l', rfl⟩ := h'.eq_cons
  have hblocks : blocks size l = blocks size' l' :=
    h.gapped.eq_of_cover_eq h'.gapped fun x => by rw [← h.cover_tail, hcover, h'.cover_tail]
  have hl : l = l' := by
    have := congrArg (List.map Prod.fst) hblocks
    simpa [blocks, Function.comp_def] using this
  subst hl
  refine ⟨rfl, List.forall_mem_cons.mpr ⟨h.base_size.trans h'.base_size.symm, fun a ha => ?_⟩⟩
  have := List.map_inj_left.mp hblocks a ha
  rw [Prod.mk.injEq, HEADER] at this
  omega

end Canonical

/-- Freeing some of the blocks in use in two different orders leads to the same free list, with the
same blocks. Once all are free, its blocks behind `base` are the maximal stretches of the memory
obtained from `sbrk`. -/
theorem free_order {base : ℕ} {s : Heap} {L N : List ℕ} (h : HeapInv base s L N) {l l' : List ℕ}
    (hl : l.Subperm L) (hperm : l.Perm l') :
    ∃ t t' N', s.freeAll l = some t ∧ s.freeAll l' = some t' ∧
      FreeList base t.ptr t.size N' ∧ FreeList base t'.ptr t'.size N' ∧
      (∀ a ∈ N', t.size a = t'.size a) ∧
      (l.Perm L → ∀ b, b ∈ blocks t.size N'.tail ↔ Stretch (cover s.regions) b) := by
  obtain ⟨l₀, hl₀, hsub⟩ := hl
  obtain ⟨L', hL'⟩ := hsub.exists_perm_append
  replace hL' := hL'.trans (hl₀.append_right L')
  obtain ⟨t, N₁, ht, hinv, hregions, hsize⟩ := (h.perm hL').freeAll
  obtain ⟨t', N₂, ht', hinv', hregions', hsize'⟩ :=
    (h.perm (hL'.trans (hperm.append_right L'))).freeAll
  -- what is free is what is not in use
  have hcover : ∀ x, cover (blocks t.size N₁) x = cover (blocks t'.size N₂) x := fun x => by
    have h₁ := hinv.covers x
    have h₂ := hinv'.covers x
    rw [blocks_congr hsize, hregions] at h₁
    rw [blocks_congr hsize', hregions'] at h₂
    omega
  obtain ⟨rfl, hsizes⟩ := hinv.list.eq_of_cover_eq hinv'.list hcover
  refine ⟨t, t', N₁, ht, ht', hinv.list, hinv'.list, hsizes, fun hall b => ?_⟩
  obtain rfl : L' = [] := by
    have := (hall.trans hL').length_eq
    rw [List.length_append] at this
    exact List.length_eq_zero_iff.mp (by omega)
  obtain ⟨l₁, rfl⟩ := hinv.list.eq_cons
  rw [List.tail_cons, hinv.list.gapped.mem_iff]
  have hspace : cover (blocks t.size l₁) = cover s.regions := funext fun x => by
    have := hinv.covers x
    rw [hinv.list.cover_tail, blocks_nil, cover_nil, Nat.add_zero, hregions] at this
    exact this
  rw [hspace]

/-- A program that holds two blocks. -/
theorem exists_two_blocks :
    ∃ s : Sys, s.Inv 64 ∧ s.live.map Prod.fst = [36728, 36840] ∧
    s.heap.regions = [(4096, 32768)] := by
  have hmalloc : ∀ (s : Sys) nbytes, nbytes ≤ 2 ^ 30 → s.Allowed 64 (.malloc sbrkOnce nbytes) :=
    fun _ _ h => ⟨h, goodSbrk_sbrkOnce⟩
  have hlive : ((Sys.init id id).next 64 (.malloc sbrkOnce 10)).bind (fun s =>
      (s.next 64 (.malloc sbrkOnce 100)).map fun s => (s.live.map Prod.fst, s.heap.regions)) =
        some ([36728, 36840], [(4096, 32768)]) := by
    decide +kernel
  obtain ⟨s₁, h₁, hinv₁⟩ := Sys.next_init (by decide) (hmalloc (Sys.init id id) 10 (by decide))
  obtain ⟨s₂, h₂, hinv₂⟩ := hinv₁.malloc (by decide) (hmalloc s₁ 100 (by decide))
  rw [h₁, Option.bind_some, h₂] at hlive
  obtain ⟨hlive, hregions⟩ := Prod.mk.inj (Option.some.inj hlive)
  exact ⟨s₂, hinv₂, hlive, hregions⟩

/-- Two blocks are freed, in both orders; one stretch of memory is left. -/
theorem free_order_two_blocks :
    ∃ s t t' : Heap, ∃ N, s.freeAll [36728, 36840] = some t ∧ s.freeAll [36840, 36728] = some t' ∧
      FreeList 64 t.ptr t.size N ∧ FreeList 64 t'.ptr t'.size N ∧
      ∀ b, b ∈ blocks t.size N.tail ↔ Stretch (cover [(4096, 32768)]) b := by
  obtain ⟨s, ⟨⟨N, hN⟩, -⟩, hlive, hregions⟩ := exists_two_blocks
  rw [hlive] at hN
  obtain ⟨t, t', N', ht, ht', hlist, hlist', -, hall⟩ :=
    free_order hN (List.Subperm.refl _) (List.Perm.swap 36840 36728 [])
  exact ⟨s.heap, t, t', N', ht, ht', hlist, hlist', hregions ▸ hall (.refl _)⟩

end Xv6.Umalloc
