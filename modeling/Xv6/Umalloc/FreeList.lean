import Mathlib.Dynamics.PeriodicPts.Defs
import Xv6.Umalloc.Model

/-!
# The free list

The list `N` of the addresses of the free blocks, `base` first, as it is threaded through the
headers. Its blocks lie one after the other with a gap after each of them. `free` finds the place
for a block between two neighbours and joins it to those that it touches; `malloc` cuts the tail
off a block, or takes the whole of it out. In both cases the space that the list takes up changes
by the block in question.
-/

namespace Xv6.Umalloc

open Lib

/-- The segments of the blocks at the given addresses. -/
def blocks (size : ℕ → ℕ) (l : List ℕ) : List (ℕ × ℕ) := l.map fun a => (a, HEADER * size a)

@[simp] theorem blocks_nil (size : ℕ → ℕ) : blocks size [] = [] := rfl

@[simp] theorem blocks_cons (size : ℕ → ℕ) (a : ℕ) (l : List ℕ) :
    blocks size (a :: l) = (a, HEADER * size a) :: blocks size l := rfl

@[simp] theorem blocks_append (size : ℕ → ℕ) (l l' : List ℕ) :
    blocks size (l ++ l') = blocks size l ++ blocks size l' := List.map_append

theorem blocks_congr {size size' : ℕ → ℕ} {l : List ℕ} (h : ∀ a ∈ l, size' a = size a) :
    blocks size' l = blocks size l :=
  List.map_congr_left fun a ha => by rw [h a ha]

/-- One block points to another, which begins after a gap. -/
def Next (ptr size : ℕ → ℕ) (a b : ℕ) : Prop := ptr a = b ∧ a + HEADER * size a < b

/-- What leads to the last block of a list depends only on the headers before it. -/
theorem chain_congr {ptr size ptr' size' : ℕ → ℕ} {l : List ℕ} {z : ℕ}
    (hptr : ∀ a ∈ l, ptr' a = ptr a) (hsize : ∀ a ∈ l, size' a = size a)
    (hl : (l ++ [z]).IsChain (Next ptr size)) : (l ++ [z]).IsChain (Next ptr' size') := by
  induction l with
  | nil => exact .singleton z
  | cons x l ih =>
    rw [List.cons_append, List.isChain_cons] at hl ⊢
    refine ⟨fun y hy => ?_, ih (fun a ha => hptr a (List.mem_cons_of_mem x ha))
      (fun a ha => hsize a (List.mem_cons_of_mem x ha)) hl.2⟩
    rw [Next, hptr x List.mem_cons_self, hsize x List.mem_cons_self]
    exact hl.1 y hy

/-- The headers hold the list: each block points to the next one, with a gap between them, and the
last one to `base`. No block but `base` is empty. -/
structure Linked (base : ℕ) (ptr size : ℕ → ℕ) (l : List ℕ) : Prop where
  chain : l.IsChain (Next ptr size)
  last : ∀ a ∈ l.getLast?, ptr a = base
  pos : ∀ a ∈ l, a ≠ base → 0 < size a

namespace Linked

variable {base : ℕ} {ptr size ptr' size' : ℕ → ℕ} {l l₁ l₂ : List ℕ} {a : ℕ}

theorem cons_iff : Linked base ptr size (a :: l) ↔
    ptr a = l.headD base ∧ (∀ b ∈ l.head?, a + HEADER * size a < b) ∧ (a ≠ base → 0 < size a) ∧
      Linked base ptr size l := by
  cases l with
  | nil =>
    refine ⟨fun h => ⟨h.last a rfl, by simp, h.pos a List.mem_cons_self, .nil, by simp, by simp⟩,
      fun ⟨hptr, _, hpos, _⟩ => ⟨.singleton a, ?_, ?_⟩⟩
    · rintro _ ⟨⟩
      exact hptr
    · simpa using hpos
  | cons b l =>
    constructor
    · rintro ⟨hchain, hlast, hpos⟩
      rw [List.isChain_cons_cons] at hchain
      refine ⟨hchain.1.1, ?_, hpos a List.mem_cons_self, hchain.2, hlast,
        fun c hc => hpos c (List.mem_cons_of_mem a hc)⟩
      rintro _ ⟨⟩
      exact hchain.1.2
    · rintro ⟨hptr, hgap, hpos, hl⟩
      exact ⟨List.isChain_cons_cons.mpr ⟨⟨hptr, hgap b rfl⟩, hl.chain⟩, hl.last,
        List.forall_mem_cons.mpr ⟨hpos, hl.pos⟩⟩

theorem congr (hptr : ∀ a ∈ l, ptr' a = ptr a) (hsize : ∀ a ∈ l, size' a = size a)
    (h : Linked base ptr size l) : Linked base ptr' size' l := by
  refine ⟨h.chain.imp_of_mem_imp fun a b ha _ hab => ?_, fun a ha => ?_, fun a ha hne => ?_⟩
  · rwa [Next, hptr a ha, hsize a ha]
  · rw [hptr a (List.mem_of_getLast? ha)]
    exact h.last a ha
  · rw [hsize a ha]
    exact h.pos a ha hne

/-- The list is in the order of addresses. -/
theorem sorted (h : Linked base ptr size l) : l.Pairwise (· < ·) :=
  List.isChain_iff_pairwise.mp (h.chain.imp fun _ _ hab => by
    have := hab.2
    omega)

theorem split : Linked base ptr size (l₁ ++ a :: l₂) ↔
    (l₁ ++ [a]).IsChain (Next ptr size) ∧ (∀ b ∈ l₁, b ≠ base → 0 < size b) ∧
      Linked base ptr size (a :: l₂) := by
  constructor
  · rintro ⟨hchain, hlast, hpos⟩
    rw [List.isChain_split] at hchain
    rw [List.getLast?_append_cons] at hlast
    exact ⟨hchain.1, fun b hb => hpos b (List.mem_append_left _ hb), hchain.2, hlast,
      fun b hb => hpos b (List.mem_append_right _ hb)⟩
  · rintro ⟨hchain, hpos, hl⟩
    refine ⟨List.isChain_split.mpr ⟨hchain, hl.chain⟩, ?_, fun b hb => ?_⟩
    · rw [List.getLast?_append_cons]
      exact hl.last
    · rcases List.mem_append.mp hb with hb | hb
      exacts [hpos b hb, hl.pos b hb]

end Linked

/-- The headers hold the free list `N`. -/
structure FreeList (base : ℕ) (ptr size : ℕ → ℕ) (N : List ℕ) : Prop
    extends Linked base ptr size N where
  head : N.head? = some base
  base_size : size base = 0

namespace FreeList

variable {base : ℕ} {ptr size : ℕ → ℕ} {N : List ℕ}

theorem eq_cons (h : FreeList base ptr size N) : ∃ l, N = base :: l := by
  have hhead := h.head
  cases N with
  | nil => cases hhead
  | cons a l => exact ⟨l, by rw [List.head?_cons] at hhead; rw [Option.some.inj hhead]⟩

theorem base_mem (h : FreeList base ptr size N) : base ∈ N := by
  obtain ⟨l, rfl⟩ := h.eq_cons
  exact List.mem_cons_self

theorem base_le (h : FreeList base ptr size N) {a : ℕ} (ha : a ∈ N) : base ≤ a := by
  have hsorted := h.sorted
  obtain ⟨l, rfl⟩ := h.eq_cons
  rcases List.mem_cons.mp ha with rfl | ha
  · exact le_rfl
  · exact (List.rel_of_pairwise_cons hsorted ha).le

/-! ### Going round -/

theorem links (h : FreeList base ptr size N) : (N ++ [base]).IsChain fun a b => ptr a = b := by
  refine List.isChain_append.mpr ⟨h.chain.imp fun _ _ hab => hab.1, .singleton base, ?_⟩
  rintro a ha _ ⟨⟩
  exact h.last a ha

/-- The nodes are met one after the other from `base` on. -/
theorem iterate_base (h : FreeList base ptr size N) {i : ℕ} (hi : i < (N ++ [base]).length) :
    ptr^[i] base = (N ++ [base])[i] := by
  induction i with
  | zero =>
    obtain ⟨l, rfl⟩ := h.eq_cons
    rfl
  | succ i ih =>
    rw [Function.iterate_succ_apply', ih (by omega)]
    exact List.isChain_iff_getElem.mp h.links i (by omega)

theorem iterate_base_node (h : FreeList base ptr size N) {i : ℕ} (hi : i < N.length) :
    ptr^[i] base = N[i] := by
  rw [h.iterate_base (by simp; omega), List.getElem_append_left hi]

theorem period (h : FreeList base ptr size N) : ptr^[N.length] base = base := by
  rw [h.iterate_base (by simp)]
  simp

/-- Every node is reached from every other one. -/
theorem exists_iterate (h : FreeList base ptr size N) {a b : ℕ} (ha : a ∈ N) (hb : b ∈ N) :
    ∃ t < 2 * N.length, ptr^[t] a = b := by
  obtain ⟨i, hi, rfl⟩ := List.getElem_of_mem ha
  obtain ⟨j, hj, rfl⟩ := List.getElem_of_mem hb
  refine ⟨j + (N.length - i), by omega, ?_⟩
  -- on to `base`, and from there to the node
  rw [← h.iterate_base_node hi, ← Function.iterate_add_apply,
    show j + (N.length - i) + i = j + N.length by omega, Function.iterate_add_apply, h.period,
    h.iterate_base_node hj]

theorem ptr_mem (h : FreeList base ptr size N) {a : ℕ} (ha : a ∈ N) : ptr a ∈ N := by
  obtain ⟨i, hi, rfl⟩ := List.getElem_of_mem ha
  have hi' : i + 1 < (N ++ [base]).length := by simp; omega
  rw [← h.iterate_base_node hi, ← Function.iterate_succ_apply' ptr, h.iterate_base hi']
  have hmem := List.getElem_mem hi'
  rcases List.mem_append.mp hmem with hmem | hmem
  · exact hmem
  · rw [List.mem_singleton.mp hmem]
    exact h.base_mem

theorem iterate_mem (h : FreeList base ptr size N) {a : ℕ} (ha : a ∈ N) (t : ℕ) :
    ptr^[t] a ∈ N := by
  induction t with
  | zero => exact ha
  | succ t ih =>
    rw [Function.iterate_succ_apply']
    exact h.ptr_mem ih

end FreeList

/-! ### A block more -/

section Insert

variable {base p b : ℕ} {l l₁ l₂ N : List ℕ} {s : Heap}

/-- Joining leaves the other headers alone. -/
theorem joinNext_frame {a : ℕ} (h : a ≠ b) :
    (s.joinNext p b).ptr a = s.ptr a ∧ (s.joinNext p b).size a = s.size a := by
  unfold Heap.joinNext
  split_ifs <;> simp [Function.update_of_ne h]

theorem joinPrev_frame {a : ℕ} (h : a ≠ p) :
    (s.joinPrev p b).ptr a = s.ptr a ∧ (s.joinPrev p b).size a = s.size a := by
  unfold Heap.joinPrev
  split_ifs <;> simp [Function.update_of_ne h]

/-- The block `b`, joined to what follows `p`, begins a list that takes up the same space as the
two before. -/
theorem joinNext_spec (hl : Linked base s.ptr s.size (p :: l)) (hbase : base < b)
    (hb : 0 < s.size b) (hbl : b ∉ l) (hle : ∀ z ∈ l.head?, s.after b ≤ z) :
    ∃ l', l' ⊆ l ∧ s.size b ≤ (s.joinNext p b).size b ∧
      Linked base (s.joinNext p b).ptr (s.joinNext p b).size (b :: l') ∧
      ∀ x, cover (blocks (s.joinNext p b).size (b :: l')) x = cover (blocks s.size (b :: l)) x := by
  obtain ⟨hptr, -, -, htail⟩ := Linked.cons_iff.mp hl
  have hkeep : ∀ l' ⊆ l, ∀ a ∈ l', a ≠ b := fun l' hl' a ha hab => hbl (hab ▸ hl' ha)
  cases l with
  | nil =>
    have hne : s.after b ≠ s.ptr p := by
      rw [hptr, Heap.after, List.headD_nil]
      omega
    rw [Heap.joinNext, if_neg hne]
    refine ⟨[], List.Subset.refl _, le_rfl, Linked.cons_iff.mpr ⟨?_, by simp, fun _ => hb, ?_⟩,
      fun x => rfl⟩
    · dsimp only
      rw [Function.update_self, hptr]
    · exact ⟨.nil, by simp, by simp⟩
  | cons z l =>
    rw [List.headD_cons] at hptr
    have hne := hkeep _ (List.Subset.refl _)
    by_cases htouch : s.after b = s.ptr p
    · -- the block after `p` becomes a part of `b`
      rw [Heap.joinNext, if_pos htouch, hptr]
      rw [hptr, Heap.after] at htouch
      obtain ⟨hz, hgap, -, hl⟩ := Linked.cons_iff.mp htail
      have hzb := hne z List.mem_cons_self
      have hlb : ∀ a ∈ l, a ≠ b := fun a ha => hne a (List.mem_cons_of_mem z ha)
      refine ⟨l, List.subset_cons_self z l, ?_, Linked.cons_iff.mpr ⟨?_, ?_, fun _ => ?_, ?_⟩, ?_⟩
      · dsimp only
        rw [Function.update_self]
        omega
      · dsimp only
        rw [Function.update_self, hz]
      · intro y hy
        have := hgap y hy
        dsimp only
        rw [Function.update_self, Nat.mul_add]
        omega
      · dsimp only
        rw [Function.update_self]
        omega
      · exact hl.congr (fun a ha => Function.update_of_ne (hlb a ha) _ _)
          fun a ha => Function.update_of_ne (hlb a ha) _ _
      · intro x
        dsimp only
        rw [blocks_cons, blocks_congr (l := l) fun a ha => Function.update_of_ne (hlb a ha) _ _]
        simp only [Function.update_self, blocks_cons, cover_cons]
        rw [Nat.mul_add, hit_add, htouch]
        omega
    · rw [Heap.joinNext, if_neg htouch, hptr]
      refine ⟨z :: l, List.Subset.refl _, le_rfl, Linked.cons_iff.mpr ⟨?_, ?_, fun _ => hb, ?_⟩,
        fun x => rfl⟩
      · dsimp only
        rw [Function.update_self, List.headD_cons]
      · rintro _ ⟨⟩
        rw [hptr] at htouch
        exact lt_of_le_of_ne (hle z rfl) htouch
      · exact htail.congr (fun a ha => Function.update_of_ne (hne a ha) _ _) fun _ _ => rfl

/-- The list that `b` begins, joined to the part of the free list up to `p`. -/
theorem joinPrev_spec (hhead : (l₁ ++ [p]).head? = some base) (hbase : s.size base = 0)
    (hchain : (l₁ ++ [p]).IsChain (Next s.ptr s.size))
    (hpos : ∀ a ∈ l₁ ++ [p], a ≠ base → 0 < s.size a)
    (hl : Linked base s.ptr s.size (b :: l)) (hpb : p < b) (hle : s.after p ≤ b)
    (hp₁ : p ∉ l₁) (hp : p ∉ l) :
    ∃ N', FreeList base (s.joinPrev p b).ptr (s.joinPrev p b).size N' ∧ p ∈ N' ∧
      N' ⊆ l₁ ++ p :: b :: l ∧ (∃ a ∈ N', s.size b ≤ (s.joinPrev p b).size a) ∧
      ∀ x, cover (blocks (s.joinPrev p b).size N') x =
        cover (blocks s.size (l₁ ++ p :: b :: l)) x := by
  obtain ⟨hptr, hgap, -, htail⟩ := Linked.cons_iff.mp hl
  have hne₁ : ∀ a ∈ l₁, a ≠ p := fun a ha hap => hp₁ (hap ▸ ha)
  have hne : ∀ a ∈ l, a ≠ p := fun a ha hap => hp (hap ▸ ha)
  have hhead' : ∀ l', (l₁ ++ p :: l').head? = some base := fun l' => by
    rw [← hhead]
    cases l₁ <;> rfl
  have hpos₁ : ∀ a ∈ l₁, a ≠ base → 0 < s.size a := fun a ha =>
    hpos a (List.mem_append_left _ ha)
  by_cases htouch : s.after p = b
  · -- `b` becomes a part of `p`, which is not `base`
    have hsize : p ≠ base := by
      rintro rfl
      rw [Heap.after, hbase] at htouch
      omega
    rw [Heap.joinPrev, if_pos htouch]
    rw [Heap.after] at htouch
    refine ⟨l₁ ++ p :: l, ⟨Linked.split.mpr
      ⟨chain_congr (fun a ha => Function.update_of_ne (hne₁ a ha) _ _)
      (fun a ha => Function.update_of_ne (hne₁ a ha) _ _) hchain, fun a ha hab => ?_,
      Linked.cons_iff.mpr ⟨?_, ?_, fun _ => ?_, ?_⟩⟩, hhead' l, ?_⟩, by simp,
      ?_, ⟨p, by simp, ?_⟩, ?_⟩
    · dsimp only
      rw [Function.update_of_ne (hne₁ a ha)]
      exact hpos₁ a ha hab
    · dsimp only
      rw [Function.update_self, hptr]
    · intro y hy
      have := hgap y hy
      dsimp only
      rw [Function.update_self, Nat.mul_add]
      omega
    · have := hpos p (by simp) hsize
      dsimp only
      rw [Function.update_self]
      omega
    · exact htail.congr (fun a ha => Function.update_of_ne (hne a ha) _ _)
        fun a ha => Function.update_of_ne (hne a ha) _ _
    · dsimp only
      rw [Function.update_of_ne hsize.symm, hbase]
    · intro a ha
      simp only [List.mem_append, List.mem_cons] at ha ⊢
      tauto
    · dsimp only
      rw [Function.update_self]
      omega
    · intro x
      dsimp only
      rw [blocks_append, blocks_cons,
        blocks_congr (l := l₁) fun a ha => Function.update_of_ne (hne₁ a ha) _ _,
        blocks_congr (l := l) fun a ha => Function.update_of_ne (hne a ha) _ _]
      simp only [Function.update_self, blocks_append, blocks_cons, cover_append, cover_cons]
      rw [Nat.mul_add, hit_add, htouch]
      omega
  -- `b` stays a block of its own
  · rw [Heap.joinPrev, if_neg htouch]
    refine ⟨l₁ ++ p :: b :: l, ⟨Linked.split.mpr ⟨chain_congr
      (fun a ha => Function.update_of_ne (hne₁ a ha) _ _) (fun _ _ => rfl) hchain, hpos₁,
      Linked.cons_iff.mpr ⟨?_, ?_, hpos p (by simp), ?_⟩⟩, hhead' _, hbase⟩, by simp,
      List.Subset.refl _, ⟨b, by simp, le_rfl⟩, fun x => rfl⟩
    · dsimp only
      rw [Function.update_self, List.headD_cons]
    · rintro _ ⟨⟩
      exact lt_of_le_of_ne hle htouch
    · exact hl.congr (fun a ha => Function.update_of_ne (by
        rcases List.mem_cons.mp ha with rfl | ha
        exacts [hpb.ne', hne a ha]) _ _) fun _ _ => rfl

/-! ### The place of a block -/

/-- In a list with a node below `b`, the loop stops somewhere. -/
theorem exists_stop {a : ℕ} (hl : Linked base s.ptr s.size (a :: l))
    (hbase : ∀ x ∈ a :: l, base ≤ x) (hbl : b ∉ l) (ha : a < b) : ∃ q ∈ a :: l, s.Stops b q := by
  induction l generalizing a with
  | nil =>
    have hptr := (Linked.cons_iff.mp hl).1
    have := hbase a List.mem_cons_self
    exact ⟨a, List.mem_cons_self, .inr ⟨by rw [hptr]; exact this, .inl ha⟩⟩
  | cons z l ih =>
    obtain ⟨hptr, -, -, htail⟩ := Linked.cons_iff.mp hl
    rw [List.headD_cons] at hptr
    rw [List.mem_cons, not_or] at hbl
    obtain ⟨hbz, hbl⟩ := hbl
    by_cases hz : z < b
    · obtain ⟨q, hq, hstop⟩ := ih htail (fun x hx => hbase x (List.mem_cons_of_mem a hx)) hbl hz
      exact ⟨q, List.mem_cons_of_mem a hq, hstop⟩
    · exact ⟨a, List.mem_cons_self, .inl ⟨ha, by omega⟩⟩

/-- Where the loop stops is the place of `b` in the list. -/
theorem split_of_stops (h : FreeList base s.ptr s.size N) (hp : p ∈ N) (hbase : base < b)
    (hstop : s.Stops b p) : p < b ∧ ∃ l₁ l₂, N = l₁ ++ p :: l₂ ∧ ∀ z ∈ l₂.head?, b < z := by
  have hle := h.base_le hp
  obtain ⟨l₁, l₂, rfl⟩ := List.append_of_mem hp
  obtain ⟨hptr, hgap, -, -⟩ := Linked.cons_iff.mp (Linked.split.mp h.toLinked).2.2
  cases l₂ with
  | nil =>
    rw [List.headD_nil] at hptr
    rw [Heap.Stops, hptr] at hstop
    exact ⟨by omega, l₁, [], rfl, by simp⟩
  | cons z l =>
    rw [List.headD_cons] at hptr
    have hz := hgap z rfl
    rw [Heap.Stops, hptr] at hstop
    refine ⟨by omega, l₁, z :: l, rfl, ?_⟩
    rintro _ ⟨⟩
    omega

/-- The loop ends if it would stop at a node that it comes to. -/
theorem freeScan_eq_some {t : ℕ} (h : s.Stops b (s.ptr^[t] p)) :
    ∀ n, t < n → ∃ k, s.freeScan b n p = some (s.ptr^[k] p) ∧ s.Stops b (s.ptr^[k] p) := by
  induction t generalizing p with
  | zero =>
    intro n hn
    obtain ⟨n, rfl⟩ := Nat.exists_eq_succ_of_ne_zero hn.ne'
    exact ⟨0, if_pos h, h⟩
  | succ t ih =>
    intro n hn
    obtain ⟨n, rfl⟩ := Nat.exists_eq_succ_of_ne_zero (show n ≠ 0 by omega)
    rw [Heap.freeScan]
    by_cases hp : s.Stops b p
    · exact ⟨0, if_pos hp, hp⟩
    · rw [if_neg hp]
      obtain ⟨k, hk, hstop⟩ := ih (p := s.ptr p) h n (by omega)
      exact ⟨k + 1, hk, hstop⟩

theorem Heap.insert_regions (s : Heap) (p bp : ℕ) : (s.insert p bp).regions = s.regions := by
  unfold Heap.insert Heap.joinPrev Heap.joinNext
  dsimp only
  split_ifs <;> rfl

theorem Heap.free_regions {s t : Heap} {ap : ℕ} (h : s.free ap = some t) :
    t.regions = s.regions := by
  obtain ⟨p, -, rfl⟩ := Option.map_eq_some_iff.mp h
  exact s.insert_regions p _

namespace FreeList

/-- The loop of `free` finds the place of a block. -/
theorem freeScan_spec (h : FreeList base s.ptr s.size N) (hfreep : s.freep ∈ N)
    (hlength : 2 * N.length ≤ ROUNDS) (hbase : base < b) (hbN : b ∉ N) :
    ∃ q ∈ N, s.freeScan b ROUNDS s.freep = some q ∧ q < b ∧
      ∃ l₁ l₂, N = l₁ ++ q :: l₂ ∧ ∀ z ∈ l₂.head?, b < z := by
  have hex : ∃ q ∈ N, s.Stops b q := by
    obtain ⟨l, rfl⟩ := h.eq_cons
    exact exists_stop h.toLinked (fun _ hx => h.base_le hx)
      (fun hb => hbN (List.mem_cons_of_mem base hb)) hbase
  obtain ⟨q, hq, hstop⟩ := hex
  obtain ⟨t, ht, rfl⟩ := h.exists_iterate hfreep hq
  obtain ⟨k, hk, hstop⟩ := freeScan_eq_some hstop ROUNDS (by omega)
  have hmem := h.iterate_mem hfreep k
  exact ⟨_, hmem, hk, split_of_stops h hmem hbase hstop⟩

/-- Putting a block between two neighbours. -/
theorem insert (h : FreeList base s.ptr s.size (l₁ ++ p :: l₂)) (hpb : p < b)
    (hb : 0 < s.size b) (hbN : b ∉ l₁ ++ p :: l₂) (hle : s.after p ≤ b)
    (hle' : ∀ z ∈ l₂.head?, s.after b ≤ z) :
    ∃ N', FreeList base (s.insert p b).ptr (s.insert p b).size N' ∧ p ∈ N' ∧
      N' ⊆ b :: (l₁ ++ p :: l₂) ∧ (∃ a ∈ N', s.size b ≤ (s.insert p b).size a) ∧
      ∀ x, cover (blocks (s.insert p b).size N') x =
        cover (blocks s.size (l₁ ++ p :: l₂)) x + hit (b, HEADER * s.size b) x := by
  have hbase : base < b := lt_of_le_of_lt (h.base_le (by simp)) hpb
  obtain ⟨hchain, hpos, hl⟩ := Linked.split.mp h.toLinked
  have hnodup : p ∉ l₁ ∧ p ∉ l₂ := by
    have := h.sorted.imp (fun hab => Nat.ne_of_lt hab)
    rw [List.pairwise_append, List.pairwise_cons] at this
    exact ⟨fun hp => this.2.2 p hp p List.mem_cons_self rfl, fun hp => this.2.1.1 p hp rfl⟩
  simp only [List.mem_append, List.mem_cons, not_or] at hbN
  obtain ⟨hb₁, -, hb₂⟩ := hbN
  obtain ⟨l', hsub, hsize, hlink, hcover⟩ := joinNext_spec hl hbase hb hb₂ hle'
  -- the headers up to `p` are the same in the state after the first join
  have hkeep₁ : ∀ a ∈ l₁, a ≠ b := fun a ha hab => hb₁ (hab ▸ ha)
  have hhead : (l₁ ++ [p]).head? = some base := by
    rw [← h.head]
    cases l₁ <;> rfl
  have hchain' : (l₁ ++ [p]).IsChain (Next (s.joinNext p b).ptr (s.joinNext p b).size) :=
    chain_congr (fun a ha => (joinNext_frame (hkeep₁ a ha)).1)
      (fun a ha => (joinNext_frame (hkeep₁ a ha)).2) hchain
  have hpos' : ∀ a ∈ l₁ ++ [p], a ≠ base → 0 < (s.joinNext p b).size a := by
    intro a ha hab
    rcases List.mem_append.mp ha with ha | ha
    · rw [(joinNext_frame (hkeep₁ a ha)).2]
      exact hpos a ha hab
    · rw [List.mem_singleton] at ha
      subst ha
      rw [(joinNext_frame hpb.ne).2]
      exact h.pos a (by simp) hab
  have hle'' : (s.joinNext p b).after p ≤ b := by
    rw [Heap.after, (joinNext_frame hpb.ne).2]
    exact hle
  obtain ⟨N', hN', hp, hsub', ⟨a, ha, hbig⟩, hcover'⟩ := joinPrev_spec hhead
    ((joinNext_frame hbase.ne).2.trans h.base_size) hchain' hpos' hlink hpb hle'' hnodup.1
    (fun hp => hnodup.2 (hsub hp))
  refine ⟨N', hN', hp, fun a ha => ?_, ⟨a, ha, hsize.trans hbig⟩, fun x => ?_⟩
  · have hmem := hsub' ha
    have := @hsub a
    simp only [List.mem_append, List.mem_cons] at hmem this ⊢
    tauto
  · have h₁ := hcover x
    have h₂ := hcover' x
    have hblocks : blocks (s.joinNext p b).size l₁ = blocks s.size l₁ :=
      blocks_congr fun a ha => (joinNext_frame (hkeep₁ a ha)).2
    simp only [blocks_append, blocks_cons, cover_append, cover_cons] at h₁ h₂ ⊢
    rw [hblocks, (joinNext_frame hpb.ne).2] at h₂
    unfold Heap.insert
    dsimp only
    omega

/-- `free` of a block that lies apart from the list. Some free block then is at least as large. -/
theorem free_spec (h : FreeList base s.ptr s.size N) (hfreep : s.freep ∈ N)
    (hlength : 2 * N.length ≤ ROUNDS) (hbase : base < b) (hb : 0 < s.size b)
    (hapart : ∀ a ∈ N, s.after a ≤ b ∨ s.after b ≤ a) :
    ∃ q ∈ N, ∃ N', s.free (b + HEADER) = some (s.insert q b) ∧
      FreeList base (s.insert q b).ptr (s.insert q b).size N' ∧ q ∈ N' ∧ N' ⊆ b :: N ∧
      (∃ a ∈ N', s.size b ≤ (s.insert q b).size a) ∧
      ∀ x, cover (blocks (s.insert q b).size N') x =
        cover (blocks s.size N) x + hit (b, HEADER * s.size b) x := by
  have hbN : b ∉ N := fun hmem => by
    have := hapart b hmem
    rw [Heap.after, HEADER] at this
    omega
  obtain ⟨q, hq, hscan, hqb, l₁, l₂, rfl, hl₂⟩ := h.freeScan_spec hfreep hlength hbase hbN
  have hle : s.after q ≤ b := by
    rcases hapart q hq with hle | hle
    · exact hle
    · rw [Heap.after] at hle
      omega
  have hle' : ∀ z ∈ l₂.head?, s.after b ≤ z := fun z hz => by
    have hlt := hl₂ z hz
    rcases hapart z (by simp [List.mem_of_mem_head? hz]) with hle | hle
    · rw [Heap.after] at hle
      omega
    · exact hle
  obtain ⟨N', hN', hqN', hsub, hbig, hcover⟩ := h.insert hqb hb hbN hle hle'
  refine ⟨q, hq, N', ?_, hN', hqN', hsub, hbig, hcover⟩
  rw [Heap.free, Nat.add_sub_cancel, hscan, Option.map_some]

/-- Inserting a block changes its own header and those of the list only. -/
theorem insert_frame {a : ℕ} (hb : a ≠ b) (hp : a ≠ p) :
    (s.insert p b).ptr a = s.ptr a ∧ (s.insert p b).size a = s.size a := by
  refine ⟨?_, ?_⟩ <;> simp [Heap.insert, joinPrev_frame hp, joinNext_frame hb]

end FreeList

end Insert

/-! ### A block less -/

section Take

variable {base p prevp n : ℕ} {N : List ℕ} {s : Heap}

/-- Two neighbours, of which the second is not `base`. -/
theorem FreeList.split_pair (h : FreeList base s.ptr s.size N) (hprev : prevp ∈ N)
    (hptr : s.ptr prevp = p) (hp : p ≠ base) : ∃ l₁ l₂, N = l₁ ++ prevp :: p :: l₂ := by
  obtain ⟨l₁, l₂, rfl⟩ := List.append_of_mem hprev
  have hnext := (Linked.cons_iff.mp (Linked.split.mp h.toLinked).2.2).1
  cases l₂ with
  | nil => exact absurd (hptr.symm.trans hnext) hp
  | cons z l =>
    rw [List.headD_cons, hptr] at hnext
    exact ⟨l₁, l, by rw [hnext]⟩

/-- The block `p` after `prevp` is taken as a whole. -/
theorem FreeList.take_all (h : FreeList base s.ptr s.size N) (hprev : prevp ∈ N)
    (hptr : s.ptr prevp = p) (hp : p ≠ base) :
    ∃ N', FreeList base (Function.update s.ptr prevp (s.ptr p)) s.size N' ∧ prevp ∈ N' ∧ N' ⊆ N ∧
      ∀ x, cover (blocks s.size N) x = cover (blocks s.size N')
      x + hit (p, HEADER * s.size p) x := by
  obtain ⟨l₁, l₂, rfl⟩ := h.split_pair hprev hptr hp
  obtain ⟨hchain, hpos, hl⟩ := Linked.split.mp h.toLinked
  obtain ⟨-, hgap, hsize, hl⟩ := Linked.cons_iff.mp hl
  obtain ⟨hnext, hgap', -, hl⟩ := Linked.cons_iff.mp hl
  have hnodup : prevp ∉ l₁ ∧ prevp ∉ l₂ := by
    have := h.sorted.imp (fun hab => Nat.ne_of_lt hab)
    rw [List.pairwise_append, List.pairwise_cons] at this
    exact ⟨fun hp => this.2.2 prevp hp prevp List.mem_cons_self rfl,
      fun hp => this.2.1.1 prevp (List.mem_cons_of_mem p hp) rfl⟩
  refine ⟨l₁ ++ prevp :: l₂, ⟨Linked.split.mpr
    ⟨chain_congr (fun a ha => ?_) (fun _ _ => rfl) hchain,
    hpos, Linked.cons_iff.mpr ⟨?_, fun y hy => ?_, hsize, ?_⟩⟩, ?_, h.base_size⟩, by simp, ?_, ?_⟩
  · exact Function.update_of_ne (by rintro rfl; exact hnodup.1 ha) _ _
  · rw [Function.update_self, hnext]
  · have h₁ := hgap p rfl
    have h₂ := hgap' y hy
    omega
  · exact hl.congr (fun a ha => Function.update_of_ne (by rintro rfl; exact hnodup.2 ha) _ _)
      fun _ _ => rfl
  · rw [← h.head]
    cases l₁ <;> rfl
  · intro a ha
    simp only [List.mem_append, List.mem_cons] at ha ⊢
    tauto
  · intro x
    simp only [blocks_append, blocks_cons, cover_append, cover_cons]
    omega

/-- The tail of the block `p` is cut off. -/
theorem FreeList.take_tail (h : FreeList base s.ptr s.size N) (hp : p ∈ N) (hbase : p ≠ base)
    {q m : ℕ} (hm : 0 < m) (hn : 0 < n) (hq : q = p + HEADER * m) (hsum : s.size p = m + n) :
    FreeList base s.ptr (Function.update (Function.update s.size p m) q n) N ∧
      ∀ x, cover (blocks s.size N) x =
        cover (blocks (Function.update (Function.update s.size p m) q n) N) x +
          hit (q, HEADER * n) x := by
  have hqafter : q < p + HEADER * s.size p := by
    rw [hq, hsum, HEADER]
    omega
  obtain ⟨l₁, l₂, rfl⟩ := List.append_of_mem hp
  have hsorted := h.sorted
  rw [List.pairwise_append, List.pairwise_cons] at hsorted
  obtain ⟨-, ⟨hlt₂, hsorted₂⟩, hlt₁⟩ := hsorted
  obtain ⟨hchain, hpos, hl⟩ := Linked.split.mp h.toLinked
  obtain ⟨hnext, hgap, -, hl⟩ := Linked.cons_iff.mp hl
  -- the cut lies between `p` and the next block
  have hpq : p < q := by
    rw [hq, HEADER]
    omega
  have hql : ∀ a ∈ l₂, q < a := by
    intro a ha
    obtain ⟨z, l, rfl⟩ := List.exists_cons_of_ne_nil (List.ne_nil_of_mem ha)
    have hz := hgap z rfl
    rcases List.mem_cons.mp ha with rfl | ha
    · omega
    · have := List.rel_of_pairwise_cons hsorted₂ ha
      omega
  have hsize : ∀ a, a ≠ p → a ≠ q →
      Function.update (Function.update s.size p m) q n a = s.size a := fun a hap haq => by
    rw [Function.update_of_ne haq, Function.update_of_ne hap]
  have hsizep : Function.update (Function.update s.size p m) q n p = m := by
    rw [Function.update_of_ne hpq.ne, Function.update_self]
  have hsize₁ : ∀ a ∈ l₁, Function.update (Function.update s.size p m) q n a = s.size a :=
    fun a ha => by
      have := hlt₁ a ha p List.mem_cons_self
      exact hsize a (by omega) (by omega)
  have hsize₂ : ∀ a ∈ l₂, Function.update (Function.update s.size p m) q n a = s.size a :=
    fun a ha => by
      have := hql a ha
      exact hsize a (by omega) (by omega)
  refine ⟨⟨Linked.split.mpr ⟨chain_congr (fun _ _ => rfl) hsize₁ hchain, fun a ha hab => ?_,
    Linked.cons_iff.mpr ⟨hnext, fun y hy => ?_, fun _ => ?_, hl.congr (fun _ _ => rfl) hsize₂⟩⟩,
    h.head, ?_⟩, fun x => ?_⟩
  · rw [hsize₁ a ha]
    exact hpos a ha hab
  · have := hgap y hy
    rw [hsizep]
    omega
  · rw [hsizep]
    exact hm
  · have := h.base_le hp
    rw [hsize base (by omega) (by omega), h.base_size]
  · simp only [blocks_append, blocks_cons, cover_append, cover_cons]
    rw [blocks_congr hsize₁, blocks_congr hsize₂, hsizep, hsum, Nat.mul_add, hit_add, ← hq]
    omega

/-- Taking `n` units of the block after `prevp`. -/
theorem FreeList.take (h : FreeList base s.ptr s.size N) (hprev : prevp ∈ N)
    (hptr : s.ptr prevp = p) (hn : 0 < n) (hle : n ≤ s.size p) :
    ∃ q N', (s.take n prevp p).1 = q + HEADER ∧ (s.take n prevp p).2.size q = n ∧
      (HEADER ∣ p → HEADER ∣ q) ∧ p ≤ q ∧ q < s.after p ∧
      (∀ a, a ∉ N → a ≠ q → (s.take n prevp p).2.size a = s.size a) ∧
      FreeList base (s.take n prevp p).2.ptr (s.take n prevp p).2.size N' ∧ prevp ∈ N' ∧ N' ⊆ N ∧
      ∀ x, cover (blocks s.size N) x =
        cover (blocks (s.take n prevp p).2.size N') x + hit (q, HEADER * n) x := by
  have hp : p ∈ N := hptr ▸ h.ptr_mem hprev
  have hbase : p ≠ base := by
    rintro rfl
    rw [h.base_size] at hle
    omega
  by_cases heq : s.size p = n
  · obtain ⟨N', hN', hprev', hsub, hcover⟩ := h.take_all hprev hptr hbase
    rw [Heap.take, if_pos heq]
    refine ⟨p, N', rfl, heq, id, le_rfl, ?_, fun _ _ _ => rfl, hN', hprev', hsub, fun x => ?_⟩
    · rw [Heap.after, heq, HEADER]
      omega
    · rw [hcover x, heq]
  · rw [Heap.take, if_neg heq]
    have hsum : s.size p = (s.size p - n) + n := by omega
    obtain ⟨hN', hcover⟩ := h.take_tail hp hbase (show 0 < s.size p - n by omega) hn rfl hsum
    refine ⟨p + HEADER * (s.size p - n), N, rfl, Function.update_self .., fun hdvd => ?_, by omega,
      ?_, fun a ha haq => ?_, hN', hprev, List.Subset.refl _, hcover⟩
    · exact Nat.dvd_add hdvd (Nat.dvd_mul_right ..)
    · rw [Heap.after, HEADER]
      omega
    · dsimp only
      rw [Function.update_of_ne haq, Function.update_of_ne (by rintro rfl; exact ha hp)]

end Take

end Xv6.Umalloc
