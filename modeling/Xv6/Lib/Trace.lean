import Mathlib.Data.Set.Defs
import Xv6.Lib.Wp

/-!
# Programs that record what they do

A traced program is a program together with the list of items that it records when it runs from a
state. Its first component is the program without the record, so that what is known of that program
is known of the traced one. `Spec` says what a run records, whether it ends well or fails.
-/

namespace Xv6.Lib

/-- A program, and what it records from each state. -/
structure Traced (ε ι σ α : Type) where
  run : Prog ε σ α
  log : σ → List ι

namespace Traced

variable {ε ι σ τ α β : Type}

/-- A program that records nothing. -/
def lift (x : Prog ε σ α) : Traced ε ι σ α := ⟨x, fun _ => []⟩

/-- Record `i` and run `x`. -/
def record (i : ι) (x : Prog ε σ α) : Traced ε ι σ α := ⟨x, fun _ => [i]⟩

/-- What `f` records after a run of `x`, nothing if `x` fails. -/
def rest (x : Prog ε σ α) (f : α → σ → List ι) (s : σ) : List ι :=
  match x s with
  | .ok (a, t) => f a t
  | .error _ => []

instance : Monad (Traced ε ι σ) where
  pure a := lift (pure a)
  bind x f := ⟨x.run >>= fun a => (f a).run, fun s => x.log s ++ rest x.run (fun a => (f a).log) s⟩

instance : MonadStateOf σ (Traced ε ι σ) where
  get := lift get
  set s := lift (set s)
  modifyGet f := lift (modifyGet f)

section Run

variable {x : Traced ε ι σ α} {f : α → Traced ε ι σ β} {c : Prop} [Decidable c]

@[simp] theorem run_bind : (x >>= f).run = x.run >>= fun a => (f a).run := rfl

theorem log_bind_ok {s : σ} {a : α} {t : σ} (h : x.run s = .ok (a, t)) :
    (x >>= f).log s = x.log s ++ (f a).log t := by
  change x.log s ++ rest x.run (fun a => (f a).log) s = _
  rw [rest, h]

theorem log_bind_error {s : σ} {e : ε} (h : x.run s = .error e) : (x >>= f).log s = x.log s := by
  change x.log s ++ rest x.run (fun a => (f a).log) s = _
  rw [rest, h, List.append_nil]

end Run

/-! ### What is recorded -/

section Spec

variable {x : Traced ε ι σ α} {f : α → Traced ε ι σ β} {s : σ} {Q Q' : α → σ → List ι → Prop}
  {R : β → σ → List ι → Prop} {E E' : ε → List ι → Prop}

/-- Run `x` from `s`: `Q` holds of the result, the next state and the record, or `E` of the failure
and the record. -/
def Spec (x : Traced ε ι σ α) (s : σ) (Q : α → σ → List ι → Prop) (E : ε → List ι → Prop) : Prop :=
  match x.run s with
  | .ok (a, t) => Q a t (x.log s)
  | .error e => E e (x.log s)

theorem spec_pure {a : α} : (pure a : Traced ε ι σ α).Spec s Q E ↔ Q a s [] := Iff.rfl

theorem spec_get_bind {f : σ → Traced ε ι σ β} : (get >>= f).Spec s R E ↔
    (f s).Spec s R E := Iff.rfl

namespace Spec

theorem mono (h : x.Spec s Q E) (hQ : ∀ a t l, Q a t l → Q' a t l) (hE : ∀ e l, E e l → E' e l) :
    x.Spec s Q' E' := by
  unfold Spec at *
  split at h
  · exact hQ _ _ _ h
  · exact hE _ _ h

theorem bind (h : x.Spec s Q E') (hE : ∀ e l, E' e l → E e l)
    (hf : ∀ a t l, Q a t l →
      (f a).Spec t (fun b u l' => R b u (l ++ l')) fun e l' => E e (l ++ l')) :
    (x >>= f).Spec s R E := by
  unfold Spec at h
  cases hrun : x.run s with
  | ok r =>
    rw [hrun] at h
    have hr := hf r.1 r.2 _ h
    have hbind : (x >>= f).run s = (f r.1).run r.2 := by
      rw [run_bind]
      change (x.run s).bind _ = _
      rw [hrun]
      rfl
    unfold Spec at hr ⊢
    rwa [hbind, log_bind_ok hrun]
  | error e =>
    rw [hrun] at h
    have hbind : (x >>= f).run s = .error e := by
      rw [run_bind]
      change (x.run s).bind _ = _
      rw [hrun]
      rfl
    unfold Spec
    rw [hbind, log_bind_error hrun]
    exact hE e _ h

end Spec

end Spec

attribute [irreducible] Spec

end Traced

end Xv6.Lib
