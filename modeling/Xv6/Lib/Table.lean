import Mathlib.Logic.Function.Basic
import Mathlib.Data.Nat.Notation

/-!
# Tables of keys and values

A table has numbered slots; a slot is free or holds a key and a value. Where no key stands in two
slots, the table is a partial function from keys to values. Filling a free slot with a new key and
clearing a slot keep the keys unique, and change the function at that key only.
-/

namespace Xv6.Lib

/-- The contents of the slots. -/
abbrev Table (κ ν : Type) := ℕ → Option (κ × ν)

namespace Table

variable {κ ν : Type} {t : Table κ ν} {f f' : κ → Option ν} {i j : ℕ} {x : κ} {v : ν}

/-- No key stands in two slots. -/
def Unique (t : Table κ ν) : Prop :=
  ∀ i j x v w, t i = some (x, v) → t j = some (x, w) → i = j

/-- The function `f` has the value of each key that stands in the table, and no other. -/
def IsMap (t : Table κ ν) (f : κ → Option ν) : Prop := ∀ x v, f x = some v ↔ ∃ i, t i = some (x, v)

theorem IsMap.ext (h : IsMap t f) (h' : IsMap t f') : f = f' := by
  refine funext fun x => Option.ext fun v => ?_
  rw [h x v, h' x v]

theorem IsMap.eq_none_iff (h : IsMap t f) : f x = none ↔ ∀ i v, t i ≠ some (x, v) := by
  rw [Option.eq_none_iff_forall_ne_some]
  refine ⟨fun hf i v hi => hf v ((h x v).mpr ⟨i, hi⟩), fun ht v hv => ?_⟩
  obtain ⟨i, hi⟩ := (h x v).mp hv
  exact ht i v hi

theorem update_eq_some_iff {o : Option (κ × ν)} {p : κ × ν} :
    Function.update t j o i = some p ↔ i = j ∧ o = some p ∨ i ≠ j ∧ t i = some p := by
  by_cases hij : i = j
  · subst hij
    simp
  · simp [hij]

/-- A new key in any slot. -/
theorem Unique.insert (h : Unique t) (hnew : ∀ i w, t i ≠ some (x, w)) :
    Unique (Function.update t j (some (x, v))) := by
  intro k l y a b hk hl
  rw [update_eq_some_iff] at hk hl
  rcases hk with ⟨rfl, hk⟩ | ⟨-, hk⟩ <;> rcases hl with ⟨rfl, hl⟩ | ⟨-, hl⟩
  · rfl
  · obtain ⟨rfl, -⟩ := Prod.mk.inj (Option.some.inj hk)
    exact absurd hl (hnew l b)
  · obtain ⟨rfl, -⟩ := Prod.mk.inj (Option.some.inj hl)
    exact absurd hk (hnew k a)
  · exact h k l y a b hk hl

/-- A new key goes into a free slot. -/
theorem IsMap.insert [DecidableEq κ] (h : IsMap t f) (hfree : t j = none)
    (hnew : ∀ i w, t i ≠ some (x, w)) :
    IsMap (Function.update t j (some (x, v))) (Function.update f x (some v)) := by
  intro y w
  simp only [update_eq_some_iff, Option.some.injEq, Prod.mk.injEq]
  by_cases hy : y = x
  · subst hy
    rw [Function.update_self, Option.some.injEq]
    refine ⟨fun hw => ⟨j, .inl ⟨rfl, rfl, hw⟩⟩, ?_⟩
    rintro ⟨i, ⟨-, -, hw⟩ | ⟨-, hi⟩⟩
    · exact hw
    · exact absurd hi (hnew i w)
  · rw [Function.update_of_ne hy, h y w]
    constructor
    · rintro ⟨i, hi⟩
      refine ⟨i, .inr ⟨fun hij => ?_, hi⟩⟩
      rw [hij, hfree] at hi
      cases hi
    · rintro ⟨i, ⟨-, hx, -⟩ | ⟨-, hi⟩⟩
      · exact absurd hx.symm hy
      · exact ⟨i, hi⟩

theorem Unique.erase (h : Unique t) : Unique (Function.update t j none) := by
  intro k l y a b hk hl
  rw [update_eq_some_iff] at hk hl
  rcases hk with ⟨-, hk⟩ | ⟨-, hk⟩
  · cases hk
  · rcases hl with ⟨-, hl⟩ | ⟨-, hl⟩
    · cases hl
    · exact h k l y a b hk hl

/-- A slot is cleared. -/
theorem IsMap.erase [DecidableEq κ] (h : IsMap t f) (hu : Unique t) (hj : t j = some (x, v)) :
    IsMap (Function.update t j none) (Function.update f x none) := by
  intro y w
  simp only [update_eq_some_iff, reduceCtorEq, and_false, false_or]
  by_cases hy : y = x
  · subst hy
    rw [Function.update_self]
    refine ⟨nofun, ?_⟩
    rintro ⟨i, hij, hi⟩
    exact absurd (hu i j y w v hi hj) hij
  · rw [Function.update_of_ne hy, h y w]
    refine ⟨?_, fun ⟨i, _, hi⟩ => ⟨i, hi⟩⟩
    rintro ⟨i, hi⟩
    refine ⟨i, fun hij => ?_, hi⟩
    rw [hij, hj] at hi
    exact hy (Prod.mk.inj (Option.some.inj hi)).1.symm

end Table

end Xv6.Lib
