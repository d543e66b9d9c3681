import Xv6.Vm.Access

/-!
# Copying a whole range

`copyout` to a range of addresses that are all mapped for the user, through any page directory and
to any frames. As long as the copy does not go to the page tables that it is made through, the pages
that it meets are those of the start; the first page, the whole pages and the last one then meet
without gap or overlap.
-/

namespace Xv6.Vm

open Lib

section Range

variable (s : Mem) (pgdir va len : ℕ) (buf : Mem → ℕ → UInt8)

/-- The frame `f` belongs to a page of the range. -/
def Target (f : ℕ) : Prop := ∃ x < len, translate s pgdir (va + x) = some f

/-- The range is mapped for the user, to a frame of its own for each page. -/
structure Mapped : Prop where
  le : va + len ≤ KERNBASE
  user : ∀ x < len, translate s pgdir (va + x) ≠ none
  once : ∀ x < len, ∀ y < len, translate s pgdir (va + x) = translate s pgdir (va + y) →
    (va + x) / PGSIZE = (va + y) / PGSIZE

/-- The buffer does not lie in the frames of the range: it has the same bytes in every memory that
differs from `s` in those frames only. -/
def Apart : Prop :=
  ∀ m : Mem, (∀ f, ¬ Target s pgdir va len f → m.page f = s.page f) →
    ∀ i < len, buf m i = buf s i

/-- The first `off` bytes of the range were copied, and nothing else has changed. -/
structure Copied (m : Mem) (off : ℕ) : Prop where
  le : off ≤ len
  free : m.free = s.free
  bytes : ∀ x < off, ∀ f, translate s pgdir (va + x) = some f →
    (m.page f).get ((va + x) % PGSIZE) = buf s x
  rest : ∀ f (i : Fin PGSIZE), (∀ x < off, translate s pgdir (va + x) = some f →
    i.val ≠ (va + x) % PGSIZE) → m.page f i = s.page f i

variable {s pgdir va len buf} {m : Mem} {f off : ℕ}

/-- The frames outside the range are as they were. -/
theorem Copied.page_eq (h : Copied s pgdir va len buf m off) (hf : ¬ Target s pgdir va len f) :
    m.page f = s.page f := by
  funext i
  exact h.rest f i fun x hx hxf => absurd ⟨x, hx.trans_le h.le, hxf⟩ hf

theorem Mapped.addr_mod (h : Mapped s pgdir va len) {x : ℕ} (hx : x < len) :
    (va + x) % 2 ^ 32 = va + x := by
  have hle := h.le
  unfold KERNBASE at hle
  exact Nat.mod_eq_of_lt (by omega)

/-- A round of the loop copies the bytes up to the end of its page or of the range. -/
theorem Copied.round (h : Copied s pgdir va len buf m off) (hmap : Mapped s pgdir va len)
    (hbuf : Apart s pgdir va len buf) (hlt : off < len)
    (hf : translate s pgdir (va + off) = some f) :
    Copied s pgdir va len buf (copyChunk va buf len m f off) (off + chunk va len off) := by
  have hchunk := chunk_le va len off
  -- the addresses of the round lie in one page
  have hpage : ∀ x, off ≤ x → x < off + chunk va len off →
      translate s pgdir (va + x) = some f ∧
      (va + x) % PGSIZE = (va + off) % PGSIZE + (x - off) := by
    intro x hx hx'
    obtain ⟨hdiv, hmod⟩ := page_of_chunk hx hx'
    rw [hmap.addr_mod (by omega), hmap.addr_mod hlt] at hdiv
    exact ⟨(translate_congr hdiv).trans hf, hmod⟩
  refine ⟨by omega, h.free, fun x hx g hg => ?_, fun g i hi => ?_⟩
  · have hmod := Nat.mod_lt (va + x) (show PGSIZE > 0 by decide)
    rcases Nat.lt_or_ge x off with hxo | hxo
    · rw [← h.bytes x hxo g hg]
      by_cases hgf : g = f
      · -- an earlier byte of the same page lies before the ones copied now
        subst hgf
        have hsame := hmap.once x (by omega) off hlt (hg.trans hf.symm)
        rw [copyChunk, Mem.page_setPage_self]
        refine Bytes.get_splice_of_disjoint _ _ _ (.inl ?_)
        have hdx := Nat.div_add_mod (va + x) PGSIZE
        have hdo := Nat.div_add_mod (va + off) PGSIZE
        rw [hsame] at hdx
        omega
      · rw [copyChunk, Mem.page_setPage_of_ne hgf]
    · obtain ⟨hxf, hxmod⟩ := hpage x hxo hx
      obtain rfl : f = g := Option.some.inj (hxf.symm.trans hg)
      rw [copyChunk, Mem.page_setPage_self, Bytes.get_splice _ _ _ hmod, hxmod,
        if_pos (by rw [List.length_map, List.length_range]; omega), Nat.add_sub_cancel_left,
        List.getD_eq_getElem?_getD, List.getElem?_map, List.getElem?_range (by omega),
        Option.map_some, Option.getD_some, Nat.add_sub_cancel' hxo]
      exact hbuf m (fun g hg => h.page_eq hg) x (by omega)
  · by_cases hsame : (copyChunk va buf len m f off).page g i = m.page g i
    · rw [hsame]
      exact h.rest g i fun x hx => hi x (by omega)
    · obtain ⟨rfl, x, hx, hx', hix⟩ := copyChunk_page_ne hsame
      exact absurd hix (hi x hx' (hpage x hx hx').1)

end Range

end Xv6.Vm
