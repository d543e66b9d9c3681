import Xv6.Vm.Model

/-!
# Copying to user addresses

`copyout` for any page directory, any address and any length. Its loop goes over the range
page by page; the memory changes on the way, and so may the page tables themselves, when a
user page of this directory is one of them. So the pages of the range are taken as they are
at the time when the loop comes to them.

`uva2ka` reads the entry through the pointer that `walkpgdir` returns without a look at it. If
the directory has no page table for the address the pointer is null.
-/

namespace Xv6.Vm

open Lib

/-- The entry for an address that has a page table. -/
def entry (m : Mem) (pgdir va : ℕ) : ℕ := m.word (frame (m.word pgdir (PDX va))) (PTX va)

/-- The frame of a user address that is mapped present with `PTE_U`. -/
def translate (m : Mem) (pgdir va : ℕ) : Option ℕ :=
  if HasTable m pgdir va ∧ entry m pgdir va &&& PTE_P ≠ 0 ∧ entry m pgdir va &&& PTE_U ≠ 0 then
    some (frame (entry m pgdir va))
  else none

/-- Addresses of one page have the same entries. -/
theorem PDX_congr {va va' : ℕ} (h : va / PGSIZE = va' / PGSIZE) : PDX va = PDX va' := by
  unfold PDX
  unfold PGSIZE at h
  omega

theorem PTX_congr {va va' : ℕ} (h : va / PGSIZE = va' / PGSIZE) : PTX va = PTX va' := by
  unfold PTX
  unfold PGSIZE at h
  omega

theorem hasTable_congr {m : Mem} {pgdir va va' : ℕ} (h : va / PGSIZE = va' / PGSIZE) :
    HasTable m pgdir va ↔ HasTable m pgdir va' := by
  rw [HasTable, HasTable, PDX_congr h]

theorem entry_congr {m : Mem} {pgdir va va' : ℕ} (h : va / PGSIZE = va' / PGSIZE) :
    entry m pgdir va = entry m pgdir va' := by
  rw [entry, entry, PDX_congr h, PTX_congr h]

theorem translate_congr {m : Mem} {pgdir va va' : ℕ} (h : va / PGSIZE = va' / PGSIZE) :
    translate m pgdir va = translate m pgdir va' := by
  simp only [translate, hasTable_congr h, entry_congr h]

theorem PGROUNDDOWN_div (va : ℕ) : PGROUNDDOWN va / PGSIZE = va / PGSIZE :=
  Nat.mul_div_cancel _ (by decide)

theorem uva2ka_of_table {pgdir va : ℕ} {m : Mem} (h : HasTable m pgdir va) :
    uva2ka pgdir va m = .ok (translate m pgdir va, m) := by
  refine Wp.eq_ok_of ?_
  unfold uva2ka
  rw [Wp.bind_iff, Wp.of_eq (walkpgdir_look ..), if_pos h]
  simp only [Wp.bind_iff, Wp.get_iff]
  split_ifs with hp hu
  · exact ⟨(if_neg fun hc => hc.2.1 hp).symm, rfl⟩
  · exact ⟨(if_neg fun hc => hc.2.2 hu).symm, rfl⟩
  · exact ⟨(if_pos ⟨h, hp, hu⟩).symm, rfl⟩

/-- The null pointer is used. -/
theorem uva2ka_of_not_table {pgdir va : ℕ} {m : Mem} (h : ¬ HasTable m pgdir va) :
    uva2ka pgdir va m = .error .nullPte := by
  refine Wp.eq_error_of ?_
  unfold uva2ka
  rw [Wp.bind_iff, Wp.of_eq (walkpgdir_look ..), if_neg h]
  exact rfl

/-! ### The rounds of the loop -/

section Rounds

variable (pgdir va : ℕ) (buf : Mem → ℕ → UInt8) (len : ℕ)

/-- How many bytes the round at byte `off` of the range copies. -/
def chunk (off : ℕ) : ℕ := min (PGSIZE - (va + off) % PGSIZE) (len - off)

/-- The memory after a copy to the frame `f` of byte `off` of the range. -/
def copyChunk (m : Mem) (f off : ℕ) : Mem :=
  m.setPage f ((m.page f).splice ((va + off) % PGSIZE)
    ((List.range (chunk va len off)).map fun i => buf m (off + i)))

/-- A round of the loop: the page of byte `off`, if there is one left and it is mapped. -/
def round (x : Mem × ℕ) : Option (Mem × ℕ) :=
  if x.2 < len then
    (translate x.1 pgdir ((va + x.2) % 2 ^ 32)).map fun f =>
      (copyChunk va buf len x.1 f x.2, x.2 + chunk va len x.2)
  else none

/-- The memory and the number of bytes copied after `k` rounds. -/
def rounds (s : Mem) : ℕ → Option (Mem × ℕ)
  | 0 => some (s, 0)
  | k + 1 => (rounds s k).bind (round pgdir va buf len)

variable {pgdir va buf len} {s m : Mem} {k off : ℕ}

theorem chunk_pos (h : off < len) : 0 < chunk va len off := by
  have := Nat.mod_lt (va + off) (show PGSIZE > 0 by decide)
  unfold chunk
  omega

theorem chunk_le (va len off : ℕ) : chunk va len off ≤ len - off := Nat.min_le_right _ _

/-- The bytes of a round lie in one page. -/
theorem page_of_chunk {x : ℕ} (hx : off ≤ x) (hx' : x < off + chunk va len off) :
    (va + x) % 2 ^ 32 / PGSIZE = (va + off) % 2 ^ 32 / PGSIZE ∧
      (va + x) % PGSIZE = (va + off) % PGSIZE + (x - off) := by
  unfold chunk PGSIZE at hx'
  unfold PGSIZE
  omega

/-- The loop goes as far as the pages are mapped. The null pointer is used where a page of the range
has no page table. -/
theorem copyoutLoop_spec (fuel : ℕ) {a : ℕ} (hk : rounds pgdir va buf len s k = some (m, off))
    (hoff : off ≤ len) (hfuel : len - off ≤ fuel) (ha : off < len → a = (va + off) % 2 ^ 32) :
    Wp (copyoutLoop pgdir buf fuel a off (len - off)) m
      (fun r t => ∃ k off, rounds pgdir va buf len s k = some (t, off) ∧
        (off = len ∧ r = 0 ∨
          off < len ∧ HasTable t pgdir ((va + off) % 2 ^ 32) ∧
            translate t pgdir ((va + off) % 2 ^ 32) = none ∧ r = -1))
      fun e => e = .nullPte ∧ ∃ k m off, rounds pgdir va buf len s k = some (m, off) ∧ off < len ∧
        ¬ HasTable m pgdir ((va + off) % 2 ^ 32) := by
  induction fuel generalizing k m off a with
  | zero =>
    exact ⟨k, off, hk, .inl ⟨by omega, rfl⟩⟩
  | succ fuel ih =>
    unfold copyoutLoop
    split_ifs with hlen
    · have hlt : off < len := by omega
      obtain rfl := ha hlt
      have hdiv := PGROUNDDOWN_div ((va + off) % 2 ^ 32)
      by_cases htab : HasTable m pgdir ((va + off) % 2 ^ 32)
      swap
      · have hnull := uva2ka_of_not_table fun hc => htab ((hasTable_congr hdiv).mp hc)
        exact Wp.of_eq_error (bind_run_error hnull) ⟨rfl, k, m, off, hk, hlt, htab⟩
      rw [Wp.bind_iff, Wp.of_eq (uva2ka_of_table ((hasTable_congr hdiv).mpr htab)),
        translate_congr hdiv]
      cases hf : translate m pgdir ((va + off) % 2 ^ 32) with
      | none => exact ⟨k, off, hk, .inr ⟨hlt, htab, hf, rfl⟩⟩
      | some f =>
        -- the next round, in the memory that this one leaves
        have hin : (va + off) % 2 ^ 32 - PGROUNDDOWN ((va + off) % 2 ^ 32) =
            (va + off) % PGSIZE := by
          unfold PGROUNDDOWN PGSIZE
          omega
        have hnext : rounds pgdir va buf len s (k + 1) =
            some (copyChunk va buf len m f off, off + chunk va len off) := by
          rw [rounds, hk, Option.bind_some, round, if_pos hlt, hf, Option.map_some]
        have hpos : 0 < chunk va len off := chunk_pos hlt
        have hle := chunk_le va len off
        simp only [Wp.bind_iff, Wp.modify_iff, hin]
        rw [show min (PGSIZE - (va + off) % PGSIZE) (len - off) = chunk va len off from rfl,
          Nat.sub_sub]
        refine ih hnext (by omega) (by omega) fun hmore => ?_
        unfold chunk PGROUNDDOWN PGSIZE at *
        omega
    · exact ⟨k, off, hk, .inl ⟨by omega, rfl⟩⟩

/-- `copyout` goes as far as the pages of the range are mapped. -/
theorem copyout_spec (pgdir : ℕ) (buf : Mem → ℕ → UInt8) (len : ℕ) (s : Mem) (hva : va < 2 ^ 32) :
    Wp (copyout pgdir va buf len) s
      (fun r t => ∃ k off, rounds pgdir va buf len s k = some (t, off) ∧
        (off = len ∧ r = 0 ∨
          off < len ∧ HasTable t pgdir ((va + off) % 2 ^ 32) ∧
            translate t pgdir ((va + off) % 2 ^ 32) = none ∧ r = -1))
      fun e => e = .nullPte ∧ ∃ k m off, rounds pgdir va buf len s k = some (m, off) ∧ off < len ∧
        ¬ HasTable m pgdir ((va + off) % 2 ^ 32) :=
  copyoutLoop_spec len (k := 0) rfl (Nat.zero_le _) (Nat.le_refl _) fun _ =>
    (Nat.mod_eq_of_lt hva).symm

/-- A round changes the bytes of its own addresses. -/
theorem copyChunk_page_ne {f g : ℕ} {i : Fin PGSIZE}
    (h : (copyChunk va buf len m f off).page g i ≠ m.page g i) :
    g = f ∧ ∃ x, off ≤ x ∧ x < off + chunk va len off ∧ i = (va + x) % PGSIZE := by
  by_cases hg : g = f
  · subst hg
    simp only [copyChunk, Mem.setPage, Function.update_self, Bytes.splice] at h
    split_ifs at h with hi
    · rw [List.length_map, List.length_range] at hi
      have hx : off + (i - (va + off) % PGSIZE) < off + chunk va len off := by omega
      refine ⟨rfl, _, Nat.le_add_right _ _, hx, ?_⟩
      rw [(page_of_chunk (Nat.le_add_right _ _) hx).2]
      omega
    · exact absurd rfl h
  · simp only [copyChunk, Mem.setPage, Function.update_of_ne hg] at h
    exact absurd rfl h

/-- There is no round after one that was not made. -/
theorem rounds_eq_none {k j : ℕ} (h : rounds pgdir va buf len s k = none) (hj : k ≤ j) :
    rounds pgdir va buf len s j = none := by
  induction j, hj using Nat.le_induction with
  | base => exact h
  | succ j _ ih => rw [rounds, ih, Option.bind_none]

/-- The loop ends in one place only. -/
theorem rounds_unique {k j : ℕ} {x y : Mem × ℕ} (hx : rounds pgdir va buf len s k = some x)
    (hy : rounds pgdir va buf len s j = some y) (hx' : round pgdir va buf len x = none)
    (hy' : round pgdir va buf len y = none) : x = y := by
  have hxn : rounds pgdir va buf len s (k + 1) = none := by rw [rounds, hx, Option.bind_some, hx']
  have hyn : rounds pgdir va buf len s (j + 1) = none := by rw [rounds, hy, Option.bind_some, hy']
  rcases lt_trichotomy k j with hlt | rfl | hlt
  · rw [rounds_eq_none hxn hlt] at hy
    cases hy
  · exact Option.some.inj (hx.symm.trans hy)
  · rw [rounds_eq_none hyn hlt] at hx
    cases hx

end Rounds

section Safe

variable {pgdir va len : ℕ} {buf : Mem → ℕ → UInt8} {s : Mem}

end Safe

end Xv6.Vm
