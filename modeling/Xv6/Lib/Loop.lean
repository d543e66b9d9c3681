import Mathlib.Order.Nat
import Mathlib.Tactic.Common

/-!
# Loops

`firstFrom p n i` is the loop `for (j = i; j < i + n; j++) if (p(j)) return j;`, the first hit of a
bounded scan. `whileLoop c f n s` is `while (c(s)) s = f(s);` for a loop without a bound of its own:
it stops short when it has made `n` tests.
-/

namespace Xv6.Lib

/-- The first of the `n` numbers from `i` on that satisfies `p`. -/
def firstFrom (p : ℕ → Bool) : ℕ → ℕ → Option ℕ
  | 0, _ => none
  | n + 1, i => if p i then some i else firstFrom p n (i + 1)

variable {p : ℕ → Bool} {n i j : ℕ}

theorem firstFrom_eq_some_iff :
    firstFrom p n i = some j ↔
      i ≤ j ∧ j < i + n ∧ p j = true ∧ ∀ k, i ≤ k → k < j → p k = false := by
  induction n generalizing i with
  | zero =>
    simp only [firstFrom, reduceCtorEq, Nat.add_zero, false_iff, not_and]
    omega
  | succ n ih =>
    rw [firstFrom]
    split_ifs with hp
    · rw [Option.some.injEq]
      constructor
      · rintro rfl
        exact ⟨Nat.le_refl _, by omega, hp, fun k hk hk' => by omega⟩
      · rintro ⟨hij, -, -, hall⟩
        by_contra hne
        have := hall i (Nat.le_refl _) (by omega)
        rw [hp] at this
        cases this
    · rw [ih]
      constructor
      · rintro ⟨hij, hjn, hpj, hall⟩
        refine ⟨by omega, by omega, hpj, fun k hk hkj => ?_⟩
        rcases Nat.eq_or_lt_of_le hk with rfl | hlt
        · simpa using hp
        · exact hall k hlt hkj
      · rintro ⟨hij, hjn, hpj, hall⟩
        have hne : i ≠ j := by
          rintro rfl
          exact hp hpj
        exact ⟨by omega, by omega, hpj, fun k hk hkj => hall k (by omega) hkj⟩

theorem firstFrom_eq_none_iff :
    firstFrom p n i = none ↔ ∀ k, i ≤ k → k < i + n → p k = false := by
  induction n generalizing i with
  | zero =>
    simp only [firstFrom, Nat.add_zero, true_iff]
    omega
  | succ n ih =>
    rw [firstFrom]
    split_ifs with hp
    · simp only [false_iff, not_forall]
      exact ⟨i, Nat.le_refl _, by omega, by simp [hp]⟩
    · rw [ih]
      constructor
      · intro hall k hk hkn
        rcases Nat.eq_or_lt_of_le hk with rfl | hlt
        · simpa using hp
        · exact hall k hlt (by omega)
      · exact fun hall k hk hkn => hall k (by omega) (by omega)

/-! ### Loops without a bound of their own -/

/-- The state after the loop, or `none` if `n` tests were not enough. -/
def whileLoop {σ : Type*} (c : σ → Bool) (f : σ → σ) : ℕ → σ → Option σ
  | 0, _ => none
  | n + 1, s => if c s then whileLoop c f n (f s) else some s

section While

variable {σ : Type*} (c : σ → Bool) (f : σ → σ)

/-- The loop that begins in `s` comes to `t`. -/
inductive LoopComes (s : σ) : σ → Prop
  | here : LoopComes s s
  | round {t : σ} : LoopComes s t → c t = true → LoopComes s (f t)

/-- The loop that begins in `s` ends in the last state. -/
inductive LoopEnds : σ → σ → Prop
  | stop {s : σ} : c s = false → LoopEnds s s
  | round {s t : σ} : c s = true → LoopEnds (f s) t → LoopEnds s t

variable {c f} {s t : σ}

/-- What holds in the beginning and is kept by each round holds wherever the loop comes to. -/
theorem LoopComes.invariant {I : σ → Prop} (h : LoopComes c f s t) (hs : I s)
    (hround : ∀ t, I t → c t = true → I (f t)) : I t := by
  induction h with
  | here => exact hs
  | round _ hc ih => exact hround _ ih hc

/-- A loop that ends does so within a number of tests, and more of them change nothing. -/
theorem LoopEnds.whileLoop (h : LoopEnds c f s t) : ∃ k, ∀ n ≥ k, whileLoop c f n s = some t := by
  induction h with
  | @stop s hc =>
    refine ⟨1, fun n hn => ?_⟩
    obtain ⟨i, rfl⟩ : ∃ i, n = i + 1 := ⟨n - 1, by omega⟩
    rw [Lib.whileLoop, hc, if_neg Bool.false_ne_true]
  | @round s t hc _ ih =>
    obtain ⟨k, hk⟩ := ih
    refine ⟨k + 1, fun n hn => ?_⟩
    obtain ⟨i, rfl⟩ : ∃ i, n = i + 1 := ⟨n - 1, by omega⟩
    rw [Lib.whileLoop, if_pos hc]
    exact hk i (by omega)

/-- A loop whose rounds all keep its condition true does not end. -/
theorem whileLoop_eq_none {I : σ → Prop} (hround : ∀ t, I t → c t = true ∧ I (f t)) (hs : I s)
    (n : ℕ) : whileLoop c f n s = none := by
  induction n generalizing s with
  | zero => rfl
  | succ n ih =>
    rw [whileLoop, if_pos (hround s hs).1]
    exact ih (hround s hs).2

/-- Nor does a loop that comes to a state from which it does not end. -/
theorem LoopComes.whileLoop_eq_none (h : LoopComes c f s t)
    (ht : ∀ n, Lib.whileLoop c f n t = none) (n : ℕ) : Lib.whileLoop c f n s = none := by
  induction h generalizing n with
  | here => exact ht n
  | @round t _ hc ih =>
    refine ih (fun n => ?_) n
    cases n with
    | zero => rfl
    | succ n => rw [Lib.whileLoop, if_pos hc, ht]

end While

end Xv6.Lib
