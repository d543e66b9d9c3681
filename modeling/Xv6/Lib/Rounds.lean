import Mathlib.Data.Nat.Notation
import Xv6.Lib.Wp

/-!
# Programs with a bound on their rounds

A program that recurses without a bound is modelled with a number of rounds, and stops with an
error of its own when they are used up. `Below r x y` says that `x` stops so, or does what `y` does:
with more rounds the program can only do more. The rules follow the program down to its calls.
-/

namespace Xv6.Lib

variable {ε σ α β : Type}

/-- From every state `x` stops with `r`, or runs as `y` does. -/
def Below (r : ε) (x y : Prog ε σ α) : Prop := ∀ s, x s = .error r ∨ x s = y s

namespace Below

variable {r : ε} {x y z : Prog ε σ α} {f g : α → Prog ε σ β}

theorem refl (x : Prog ε σ α) : Below r x x := fun _ => .inr rfl

theorem throw (y : Prog ε σ α) : Below r (throw r : Prog ε σ α) y := fun _ => .inl rfl

theorem trans (hxy : Below r x y) (hyz : Below r y z) : Below r x z := fun s => by
  rcases hxy s with h | h
  · exact .inl h
  · rw [h]
    exact hyz s

theorem bind (hx : Below r x y) (hf : ∀ a, Below r (f a) (g a)) : Below r (x >>= f) (y >>= g) :=
  fun s => by
    change (x s).bind (fun p => f p.1 p.2) = _ ∨ (x s).bind (fun p => f p.1 p.2) =
      (y s).bind fun p => g p.1 p.2
    rcases hx s with h | h
    · exact .inl (by rw [h]; rfl)
    · rw [h]
      cases y s with
      | error e => exact .inr rfl
      | ok p => exact hf p.1 p.2

theorem ite {c : Prop} [Decidable c] {x' y' : Prog ε σ α} (hx : Below r x x') (hy : Below r y y') :
    Below r (if c then x else y) (if c then x' else y') := by
  split
  · exact hx
  · exact hy

/-- More rounds change nothing once there are enough of them. -/
theorem eq_of_le {p : ℕ → Prog ε σ α} (hp : ∀ n, Below r (p n) (p (n + 1))) {m n : ℕ} (h : m ≤ n)
    {s : σ} (hs : p m s ≠ .error r) : p n s = p m s := by
  have hle : Below r (p m) (p n) := by
    induction h with
    | refl => exact refl _
    | step _ ih => exact ih.trans (hp _)
  exact ((hle s).resolve_left hs).symm

end Below

end Xv6.Lib
