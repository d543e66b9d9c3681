import Xv6.Lib.Moves
import Mathlib.Data.BitVec

/-!
# The two memmoves

`memmove` of `string.c`, which the kernel uses, and `memmove` of `ulib.c`, which is linked into the
user programs. The first looks at how the ranges lie and copies from the end where the destination
begins inside the source; the second always copies from the beginning. Addresses and counts are
words of 32 bits, and pointers wrap around.
-/

namespace Xv6.Str

open Lib

/-- An address. -/
abbrev Addr := BitVec 32

/-- The bytes of an address space. -/
abbrev Memory := Addr → UInt8

/-- `while(n-- > 0) *d++ = *s++`, for `n` rounds. -/
def copyUp : ℕ → Memory → Addr → Addr → Memory
  | 0, m, _, _ => m
  | n + 1, m, d, s => copyUp n (Function.update m d (m s)) (d + 1) (s + 1)

/-- `while(n-- > 0) *--d = *--s`, for `n` rounds. -/
def copyDown : ℕ → Memory → Addr → Addr → Memory
  | 0, m, _, _ => m
  | n + 1, m, d, s => copyDown n (Function.update m (d - 1) (m (s - 1))) (d - 1) (s - 1)

/-- `memmove` of `string.c`: the result and the memory. The count is a `uint`. -/
def Kernel.memmove (m : Memory) (dst src n : BitVec 32) : Addr × Memory :=
  if src < dst ∧ src + n > dst then
    (dst, copyDown n.toNat m (dst + n) (src + n))
  else
    (dst, copyUp n.toNat m dst src)

/-- `memmove` of `ulib.c`: the result and the memory. The count is an `int`, and a negative one
makes no round. -/
def Ulib.memmove (m : Memory) (vdst vsrc n : BitVec 32) : Addr × Memory :=
  (vdst, copyUp n.toInt.toNat m vdst vsrc)

/-- The memory after `n` bytes at `src` were read, and then written at `dst`. -/
def moved (m : Memory) (dst src : Addr) (n : ℕ) : Memory := fun a =>
  if (a - dst).toNat < n then m (src + (a - dst)) else m a

/-- The move of byte `i`. -/
def move (dst src : Addr) (i : ℕ) : Addr × Addr :=
  (dst + BitVec.ofNat 32 i, src + BitVec.ofNat 32 i)

section Loops

variable (m : Memory) (dst src : Addr) (n : ℕ)

theorem succ_addr (d : Addr) (i : ℕ) :
    d + 1 + BitVec.ofNat 32 i = d + BitVec.ofNat 32 (i + 1) := by
  rw [BitVec.add_assoc, Nat.add_comm i 1, BitVec.ofNat_add]
  rfl

theorem pred_addr (d : Addr) (i : ℕ) :
    d + BitVec.ofNat 32 (i + 1) - 1 = d + BitVec.ofNat 32 i := by
  rw [BitVec.ofNat_add, ← BitVec.add_assoc]
  exact BitVec.add_sub_cancel _ _

/-- The loop from the beginning makes the moves in order. -/
theorem copyUp_eq : copyUp n m dst src = moves m ((List.range n).map (move dst src)) := by
  induction n generalizing m dst src with
  | zero => rfl
  | succ n ih =>
    have hshift : (List.range n).map (move (dst + 1) (src + 1)) =
        (List.range n).map (move dst src ∘ Nat.succ) := by
      refine List.map_congr_left fun i _ => ?_
      rw [Function.comp_apply, move, move, succ_addr, succ_addr]
    rw [copyUp, ih, hshift, List.range_succ_eq_map, List.map_cons, List.map_map, moves_cons]
    simp [move]

/-- The loop from the end makes them the other way round. -/
theorem copyDown_eq :
    copyDown n m (dst + BitVec.ofNat 32 n) (src + BitVec.ofNat 32 n) =
      moves m ((List.range n).reverse.map (move dst src)) := by
  induction n generalizing m with
  | zero => rfl
  | succ n ih =>
    rw [copyDown, pred_addr, pred_addr, ih, List.range_succ, List.reverse_append,
      List.reverse_singleton, List.singleton_append, List.map_cons, moves_cons]
    rfl

end Loops

section Moved

variable {m : Memory} {dst src : Addr} {n : ℕ}

/-- Moves of the bytes of a range, in any order that is clear, move it as through a temporary. -/
theorem moves_eq_moved {l : List ℕ} (hl : ∀ i, i ∈ l ↔ i < n) (hn : n ≤ 2 ^ 32)
    (hc : (l.map (move dst src)).Pairwise Clear) :
    moves m (l.map (move dst src)) = moved m dst src n := by
  funext a
  have hback : a = (move dst src (a - dst).toNat).1 := by
    rw [move, BitVec.ofNat_toNat, BitVec.setWidth_eq, BitVec.add_comm, BitVec.sub_add_cancel]
  rw [moved]
  split_ifs with ha
  · have hmem : move dst src (a - dst).toNat ∈ l.map (move dst src) :=
      List.mem_map_of_mem ((hl _).mpr ha)
    have hval := moves_of_mem hc hmem m
    rw [← hback] at hval
    rw [hval, move, BitVec.ofNat_toNat, BitVec.setWidth_eq]
  · refine moves_of_not_mem ?_ m
    intro hin
    obtain ⟨p, hp, hpa⟩ := List.mem_map.mp hin
    obtain ⟨i, hi, rfl⟩ := List.mem_map.mp hp
    have hlt := (hl i).mp hi
    refine ha ?_
    rw [← hpa, move, BitVec.add_comm, BitVec.add_sub_cancel, BitVec.toNat_ofNat,
      Nat.mod_eq_of_lt (hlt.trans_le hn)]
    exact hlt

/-- The bytes at the destination after a move are those that were at the source. -/
theorem moved_at {i : ℕ} (hi : i < n) (hn : n ≤ 2 ^ 32) :
    moved m dst src n (dst + BitVec.ofNat 32 i) = m (src + BitVec.ofNat 32 i) := by
  rw [moved, BitVec.add_comm dst, BitVec.add_sub_cancel, BitVec.toNat_ofNat,
    Nat.mod_eq_of_lt (hi.trans_le hn), if_pos hi]

/-- A move changes no other byte. -/
theorem moved_outside {a : Addr} (hd : dst.toNat + n ≤ 2 ^ 32)
    (ha : a.toNat < dst.toNat ∨ dst.toNat + n ≤ a.toNat) : moved m dst src n a = m a := by
  have hsub := BitVec.toNat_sub a dst
  have hlt := a.isLt
  rw [moved, if_neg]
  rw [hsub]
  rcases ha with ha | ha
  · rw [Nat.mod_eq_of_lt (by omega)]
    omega
  · rw [show 2 ^ 32 - dst.toNat + a.toNat = 2 ^ 32 + (a.toNat - dst.toNat) by omega,
      Nat.add_mod_left, Nat.mod_eq_of_lt (by omega)]
    omega

/-- No byte number `i` of one range is byte number `j` of the other. -/
theorem addr_ne {d s : Addr} {i j : ℕ} (hd : d.toNat + i < 2 ^ 32) (hs : s.toNat + j < 2 ^ 32)
    (h : d.toNat + i ≠ s.toNat + j) : d + BitVec.ofNat 32 i ≠ s + BitVec.ofNat 32 j := by
  intro heq
  have hnat := congrArg BitVec.toNat heq
  rw [BitVec.toNat_add, BitVec.toNat_add, BitVec.toNat_ofNat, BitVec.toNat_ofNat,
    Nat.mod_eq_of_lt (a := i) (by omega), Nat.mod_eq_of_lt (a := j) (by omega),
    Nat.mod_eq_of_lt hd, Nat.mod_eq_of_lt hs] at hnat
  exact h hnat

theorem copyUp_eq_moved (hd : dst.toNat + n ≤ 2 ^ 32) (hs : src.toNat + n ≤ 2 ^ 32)
    (hover : ¬ (src.toNat < dst.toNat ∧ dst.toNat < src.toNat + n)) :
    copyUp n m dst src = moved m dst src n := by
  rw [copyUp_eq]
  refine moves_eq_moved (fun i => List.mem_range) (by omega) ?_
  rw [List.pairwise_map]
  refine List.Pairwise.imp_of_mem ?_ List.pairwise_lt_range
  intro i j hi hj hij
  rw [List.mem_range] at hi hj
  -- the byte written in round `i` lies before the one read in round `j`, or behind the source
  exact ⟨addr_ne (by omega) (by omega) (by omega), addr_ne (by omega) (by omega) (by omega)⟩

theorem copyDown_eq_moved (hd : dst.toNat + n ≤ 2 ^ 32) (hs : src.toNat + n ≤ 2 ^ 32)
    (hlt : src.toNat < dst.toNat) :
    copyDown n m (dst + BitVec.ofNat 32 n) (src + BitVec.ofNat 32 n) = moved m dst src n := by
  rw [copyDown_eq]
  refine moves_eq_moved (fun i => by rw [List.mem_reverse, List.mem_range]) (by omega) ?_
  rw [List.pairwise_map, List.pairwise_reverse]
  refine List.Pairwise.imp_of_mem ?_ List.pairwise_lt_range
  intro i j hi hj hij
  rw [List.mem_range] at hi hj
  exact ⟨addr_ne (by omega) (by omega) (by omega), addr_ne (by omega) (by omega) (by omega)⟩

end Moved

section Calls

variable (m : Memory) {dst src n : BitVec 32}

theorem add_ofNat_toNat (a n : BitVec 32) : a + BitVec.ofNat 32 n.toNat = a + n := by
  rw [BitVec.ofNat_toNat, BitVec.setWidth_eq]

/-- The kernel moves as if through a temporary, however the ranges lie. -/
theorem kernel_memmove_eq (hd : dst.toNat + n.toNat ≤ 2 ^ 32) (hs : src.toNat + n.toNat ≤ 2 ^ 32) :
    Kernel.memmove m dst src n = (dst, moved m dst src n.toNat) := by
  unfold Kernel.memmove
  split_ifs with h
  · have hlt : src.toNat < dst.toNat := BitVec.lt_def.mp h.1
    rw [← copyDown_eq_moved hd hs hlt, add_ofNat_toNat, add_ofNat_toNat]
  · rw [copyUp_eq_moved hd hs]
    rintro ⟨hlt, hin⟩
    -- the end of the source lies below that of the destination, so that `s + n` does not wrap
    have hend : (src + n).toNat = src.toNat + n.toNat := by
      rw [BitVec.toNat_add, Nat.mod_eq_of_lt (by omega)]
    refine h ⟨BitVec.lt_def.mpr hlt, BitVec.lt_def.mpr ?_⟩
    rwa [hend]

theorem toNat_toInt (hn : 0 ≤ n.toInt) : n.toInt.toNat = n.toNat := by
  have hcond := BitVec.toInt_eq_toNat_cond n
  have hlt := n.isLt
  split at hcond <;> omega

/-- The user library does so where it does not copy into what it has yet to read. -/
theorem ulib_memmove_eq (hn : 0 ≤ n.toInt) (hd : dst.toNat + n.toNat ≤ 2 ^ 32)
    (hs : src.toNat + n.toNat ≤ 2 ^ 32)
    (hover : ¬ (src.toNat < dst.toNat ∧ dst.toNat < src.toNat + n.toNat)) :
    Ulib.memmove m dst src n = (dst, moved m dst src n.toNat) := by
  rw [Ulib.memmove, toNat_toInt hn, copyUp_eq_moved hd hs hover]

/-- Where the destination begins inside the source, the byte that is `dst - src` further on gets the
first byte of the source, and not what was there. -/
theorem ulib_memmove_overlap (hn : 0 ≤ n.toInt) (hd : dst.toNat + n.toNat ≤ 2 ^ 32)
    (hlt : src.toNat < dst.toNat) (hin : dst.toNat < src.toNat + n.toNat) :
    (Ulib.memmove m dst src n).2 (dst + (dst - src)) = m src := by
  obtain ⟨k, hk⟩ : ∃ k, dst.toNat = src.toNat + k := ⟨dst.toNat - src.toNat, by omega⟩
  have hdst : src + BitVec.ofNat 32 k = dst := by
    refine BitVec.eq_of_toNat_eq ?_
    rw [BitVec.toNat_add, BitVec.toNat_ofNat, Nat.add_mod_mod, ← hk, Nat.mod_eq_of_lt dst.isLt]
  have hdiff : dst - src = BitVec.ofNat 32 k := by
    rw [← hdst, BitVec.add_comm, BitVec.add_sub_cancel]
  obtain ⟨j, hj⟩ : ∃ j, n.toNat = k + (j + 1) := ⟨n.toNat - (k + 1), by omega⟩
  have hrounds : (List.range n.toNat).map (move dst src) = (List.range k).map (move dst src) ++
      move dst src k :: (List.range j).map (move dst src ∘ fun i => k + (i + 1)) := by
    rw [hj, List.range_add, List.range_succ_eq_map]
    simp
  have hlater : (move dst src k).1 ∉
      ((List.range j).map (move dst src ∘ fun i => k + (i + 1))).map Prod.fst := by
    intro hmem
    obtain ⟨p, hp, hpk⟩ := List.mem_map.mp hmem
    obtain ⟨i, hi, rfl⟩ := List.mem_map.mp hp
    rw [List.mem_range] at hi
    have hsame : dst + BitVec.ofNat 32 (k + (i + 1)) = dst + BitVec.ofNat 32 k := hpk
    exact addr_ne (by omega) (by omega) (by omega) hsame
  -- round `k` reads the first byte of the destination, which the rounds before it have moved
  have hread : moves m ((List.range k).map (move dst src)) dst = m src := by
    rw [← copyUp_eq, copyUp_eq_moved (by omega) (by omega) (by omega)]
    have hzero : moved m dst src k (dst + BitVec.ofNat 32 0) = m (src + BitVec.ofNat 32 0) :=
      moved_at (by omega) (by omega)
    simpa using hzero
  rw [Ulib.memmove, toNat_toInt hn, copyUp_eq, hrounds, hdiff]
  refine (moves_last hlater m).trans ?_
  rw [move, hdst, hread]

/-- The user library moves as if through a temporary, whatever the memory contains, exactly if the
destination does not begin inside the source. -/
theorem ulib_memmove_iff (hn : 0 ≤ n.toInt) (hd : dst.toNat + n.toNat ≤ 2 ^ 32)
    (hs : src.toNat + n.toNat ≤ 2 ^ 32) :
    (∀ m, Ulib.memmove m dst src n = (dst, moved m dst src n.toNat)) ↔
      ¬ (src.toNat < dst.toNat ∧ dst.toNat < src.toNat + n.toNat) := by
  refine ⟨?_, fun hover m => ulib_memmove_eq m hn hd hs hover⟩
  rintro hall ⟨hlt, hin⟩
  -- a memory in which the first byte of the source differs from the first of the destination
  have hval := ulib_memmove_overlap (fun a => if a = src then 1 else 0) hn hd hlt hin
  have hne : dst ≠ src := by
    rintro rfl
    exact absurd hlt (lt_irrefl _)
  have hk : (dst - src).toNat < n.toNat := by
    rw [BitVec.toNat_sub, show 2 ^ 32 - src.toNat + dst.toNat =
      2 ^ 32 + (dst.toNat - src.toNat) by omega, Nat.add_mod_left, Nat.mod_eq_of_lt (by omega)]
    omega
  rw [hall] at hval
  dsimp only at hval
  rw [← add_ofNat_toNat, moved_at hk n.isLt.le, add_ofNat_toNat, BitVec.add_comm src,
    BitVec.sub_add_cancel, if_neg hne, if_pos rfl] at hval
  exact absurd hval (by decide)

theorem ulib_memmove_ranges : (∀ m, Ulib.memmove m 16 0 16 = (16, moved m 16 0 16)) ∧
    ¬ ∀ m, Ulib.memmove m 8 0 16 = (8, moved m 8 0 16) := by
  refine ⟨(ulib_memmove_iff ?_ ?_ ?_).mpr ?_, fun h => (ulib_memmove_iff ?_ ?_ ?_).mp h ?_⟩ <;>
    decide

end Calls

/-- Where the destination does not begin inside the source, the two leave the same memory, and it is
that of a move through a temporary; the kernel's is so wherever the ranges lie. -/
theorem memmoves_agree (m : Memory) (dst src n : BitVec 32) (hn : 0 ≤ n.toInt)
    (hd : dst.toNat + n.toNat ≤ 2 ^ 32) (hs : src.toNat + n.toNat ≤ 2 ^ 32) :
    (∀ i < n.toNat, (Kernel.memmove m dst src n).2 (dst + BitVec.ofNat 32 i) =
      m (src + BitVec.ofNat 32 i)) ∧
    (∀ a : Addr, (a.toNat < dst.toNat ∨ dst.toNat + n.toNat ≤ a.toNat) →
      (Kernel.memmove m dst src n).2 a = m a) ∧
    (¬ (src.toNat < dst.toNat ∧ dst.toNat < src.toNat + n.toNat) →
      Ulib.memmove m dst src n = Kernel.memmove m dst src n) := by
  rw [kernel_memmove_eq m hd hs]
  exact ⟨fun i hi => moved_at hi n.isLt.le, fun a ha => moved_outside hd ha,
    fun hover => ulib_memmove_eq m hn hd hs hover⟩

/-- Two bytes that are moved down by one. -/
theorem memmoves_agree_down :
    let m : Memory := fun a => if a = 0 then 10 else if a = 1 then 20 else 30
    (Kernel.memmove m 0 1 2).2 (0 + BitVec.ofNat 32 0) = m (1 + BitVec.ofNat 32 0) ∧
      (Kernel.memmove m 0 1 2).2 7 = m 7 ∧ Ulib.memmove m 0 1 2 = Kernel.memmove m 0 1 2 := by
  intro m
  obtain ⟨hinside, houtside, hsame⟩ :=
    memmoves_agree m 0 1 2 (by decide) (by decide) (by decide)
  exact ⟨hinside 0 (by decide), houtside 7 (.inr (by decide)), hsame (by decide)⟩

/-- Two bytes that are moved up by one: the user library writes the first of them twice, the kernel
moves both. -/
theorem ulib_memmove_up :
    let m : Memory := fun a => if a = 0 then 10 else if a = 1 then 20 else 30
    (Ulib.memmove m 1 0 2).2 (1 + 1) = 10 ∧ (Kernel.memmove m 1 0 2).2 (1 + 1) = 20 ∧
      m (0 + 1) = 20 := by
  decide

end Xv6.Str
