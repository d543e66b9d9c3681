import Mathlib.Algebra.BigOperators.Group.List.Basic
import Mathlib.Algebra.Ring.Nat
import Mathlib.Data.List.Pairwise
import Mathlib.Data.List.Sort

/-!
# Segments of an address space

A list of segments `(start, length)` covers an address a number of times. Two lists that cover
every address equally often take up the same space; a list that covers no address twice has no
overlaps. So an allocator that cuts and joins segments is right if no step changes the number
of times that an address is covered.
-/

namespace Xv6.Lib

/-- Whether a segment contains an address, as a number. -/
def hit (b : ℕ × ℕ) (x : ℕ) : ℕ := if b.1 ≤ x ∧ x < b.1 + b.2 then 1 else 0

/-- How many segments of the list contain an address. -/
def cover (l : List (ℕ × ℕ)) (x : ℕ) : ℕ := (l.map fun b => hit b x).sum

variable {l l' : List (ℕ × ℕ)} {b c : ℕ × ℕ} {x : ℕ}

@[simp] theorem cover_nil : cover [] x = 0 := rfl

@[simp] theorem cover_cons : cover (b :: l) x = hit b x + cover l x := by
  simp [cover]

@[simp] theorem cover_append : cover (l ++ l') x = cover l x + cover l' x := by
  simp [cover]

theorem cover_perm (h : l.Perm l') : cover l x = cover l' x := (h.map _).sum_eq

theorem hit_of_mem (h : b.1 ≤ x) (h' : x < b.1 + b.2) : hit b x = 1 := if_pos ⟨h, h'⟩

@[simp] theorem hit_empty (a : ℕ) : hit (a, 0) x = 0 := by
  unfold hit
  split_ifs with h
  · omega
  · rfl

/-- Two adjacent segments are one. -/
theorem hit_add (a m n : ℕ) : hit (a, m + n) x = hit (a, m) x + hit (a + m, n) x := by
  unfold hit
  dsimp only
  split_ifs <;> omega

theorem hit_le_cover (h : b ∈ l) : hit b x ≤ cover l x := by
  induction l with
  | nil => cases h
  | cons a l ih =>
    rw [cover_cons]
    rcases List.mem_cons.mp h with rfl | h
    · omega
    · have := ih h
      omega

theorem exists_of_cover_pos (h : 0 < cover l x) : ∃ b ∈ l, b.1 ≤ x ∧ x < b.1 + b.2 := by
  induction l with
  | nil => cases h
  | cons a l ih =>
    rw [cover_cons] at h
    by_cases ha : a.1 ≤ x ∧ x < a.1 + a.2
    · exact ⟨a, List.mem_cons_self, ha⟩
    · rw [hit, if_neg ha, Nat.zero_add] at h
      obtain ⟨b, hb, hx⟩ := ih h
      exact ⟨b, List.mem_cons_of_mem a hb, hx⟩

/-- An address is covered if and only if it lies in a segment. -/
theorem cover_pos_iff : 0 < cover l x ↔ ∃ b ∈ l, b.1 ≤ x ∧ x < b.1 + b.2 := by
  refine ⟨exists_of_cover_pos, fun ⟨b, hb, h, h'⟩ => ?_⟩
  have := hit_le_cover (x := x) hb
  rw [hit_of_mem h h'] at this
  omega

/-- Two segments that have no address in common. -/
def Apart (b c : ℕ × ℕ) : Prop := ∀ x, ¬ (b.1 ≤ x ∧ x < b.1 + b.2 ∧ c.1 ≤ x ∧ x < c.1 + c.2)

theorem apart_of_hit (h : ∀ x, hit b x + hit c x ≤ 1) : Apart b c := by
  rintro x ⟨hb, hb', hc, hc'⟩
  have := h x
  rw [hit_of_mem hb hb', hit_of_mem hc hc'] at this
  omega

theorem Apart.symm (h : Apart b c) : Apart c b := fun x ⟨h₁, h₂, h₃, h₄⟩ => h x ⟨h₃, h₄, h₁, h₂⟩

/-- Segments that are apart and not empty lie one after the other. -/
theorem Apart.le_or_le (h : Apart b c) (hb : 0 < b.2) (hc : 0 < c.2) :
    b.1 + b.2 ≤ c.1 ∨ c.1 + c.2 ≤ b.1 := by
  by_contra hcon
  push Not at hcon
  have h₁ := h b.1
  have h₂ := h c.1
  omega

/-- No address is covered twice: the segments are apart. -/
theorem pairwise_apart (h : ∀ x, cover l x ≤ 1) : l.Pairwise Apart := by
  induction l with
  | nil => exact .nil
  | cons b l ih =>
    refine .cons (fun c hc => apart_of_hit fun x => ?_) (ih fun x => ?_)
    · have h₁ := h x
      have h₂ := hit_le_cover (x := x) hc
      rw [cover_cons] at h₁
      omega
    · have := h x
      rw [cover_cons] at this
      omega

/-! ### Maximal stretches -/

/-- Segments in the order of addresses, none of them empty, with a gap after each. -/
structure Gapped (l : List (ℕ × ℕ)) : Prop where
  pos : ∀ b ∈ l, 0 < b.2
  gaps : l.Pairwise fun b c => b.1 + b.2 < c.1

/-- A segment that `f` covers, and that cannot be made longer. -/
structure Stretch (f : ℕ → ℕ) (b : ℕ × ℕ) : Prop where
  pos : 0 < b.2
  inside : ∀ x, b.1 ≤ x → x < b.1 + b.2 → 0 < f x
  before : ∀ x, x + 1 = b.1 → f x = 0
  after : f (b.1 + b.2) = 0

namespace Gapped

/-- Two segments that are not the same lie apart. -/
theorem lt_or_lt (h : Gapped l) (hb : b ∈ l) (hc : c ∈ l) (hne : b ≠ c) :
    b.1 + b.2 < c.1 ∨ c.1 + c.2 < b.1 := by
  have hsymm : l.Pairwise fun b c => b.1 + b.2 < c.1 ∨ c.1 + c.2 < b.1 := h.gaps.imp .inl
  have : Std.Symm fun b c : ℕ × ℕ => b.1 + b.2 < c.1 ∨ c.1 + c.2 < b.1 := ⟨fun _ _ => Or.symm⟩
  exact hsymm.forall hb hc hne

/-- What is covered next to a segment, or in it, belongs to the segment. -/
theorem eq_of_cover (h : Gapped l) (hb : b ∈ l) (hx : 0 < cover l x) (hlo : b.1 ≤ x + 1)
    (hhi : x ≤ b.1 + b.2) : b.1 ≤ x ∧ x < b.1 + b.2 := by
  obtain ⟨c, hc, hcx, hcx'⟩ := exists_of_cover_pos hx
  by_cases hne : b = c
  · exact hne ▸ ⟨hcx, hcx'⟩
  · rcases h.lt_or_lt hb hc hne with hlt | hlt <;> omega

/-- The segments are the maximal stretches that they cover. -/
theorem mem_iff (h : Gapped l) : b ∈ l ↔ Stretch (cover l) b := by
  constructor
  · intro hb
    refine ⟨h.pos b hb, fun x hx hx' => cover_pos_iff.mpr ⟨b, hb, hx, hx'⟩, fun x hx => ?_, ?_⟩
    · by_contra hcon
      have := h.eq_of_cover hb (Nat.pos_of_ne_zero hcon) (by omega) (by omega)
      omega
    · by_contra hcon
      have := h.eq_of_cover hb (Nat.pos_of_ne_zero hcon) (by omega) (by omega)
      omega
  · intro hb
    have hpos := hb.pos
    obtain ⟨c, hc, hcx, hcx'⟩ := exists_of_cover_pos (hb.inside b.1 le_rfl (by omega))
    have hin : ∀ x, c.1 ≤ x → x < c.1 + c.2 → 0 < cover l x := fun x hx hx' =>
      cover_pos_iff.mpr ⟨c, hc, hx, hx'⟩
    have hstart : c.1 = b.1 := by
      by_contra hne
      have h₁ := hb.before (b.1 - 1) (by omega)
      have h₂ := hin (b.1 - 1) (by omega) (by omega)
      omega
    have hend : c.2 = b.2 := by
      rcases lt_trichotomy c.2 b.2 with hlt | heq | hgt
      · have := h.eq_of_cover hc (hb.inside (c.1 + c.2) (by omega) (by omega)) (by omega) le_rfl
        omega
      · exact heq
      · have h₁ := hb.after
        have h₂ := hin (b.1 + b.2) (by omega) (by omega)
        omega
    exact Prod.ext hstart hend ▸ hc

/-- The space that they cover determines the segments. -/
theorem eq_of_cover_eq (h : Gapped l) (h' : Gapped l') (hcover : ∀ x, cover l x = cover l' x) :
    l = l' := by
  have hirrefl : Std.Irrefl fun b c : ℕ × ℕ => b.1 < c.1 := ⟨fun b => lt_irrefl b.1⟩
  have hanti : Std.Antisymm fun b c : ℕ × ℕ => b.1 < c.1 :=
    ⟨fun b c hbc hcb => absurd hbc (lt_asymm hcb)⟩
  have hsorted : ∀ {l}, Gapped l → l.Pairwise fun b c => b.1 < c.1 := fun h =>
    h.gaps.imp fun hbc => by omega
  refine (hsorted h).eq_of_mem_iff (hsorted h') fun b => ?_
  rw [h.mem_iff, h'.mem_iff, funext hcover]

end Gapped

end Xv6.Lib
