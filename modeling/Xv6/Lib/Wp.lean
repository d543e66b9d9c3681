import Mathlib.Logic.Basic

/-!
# Programs that change a state and may fail

A program takes a state to a result and a next state, or fails. `Wp x s Q E` says that
running `x` from `s` ends with a result and a state that satisfy `Q`, or fails with an
error that satisfies `E`. The rules below take a program apart along its binds, so that a
caller cites the specification of what it calls and never unfolds it.
-/

namespace Xv6.Lib

/-- Programs over the state `σ` with failures `ε`. -/
abbrev Prog (ε σ α : Type) := StateT σ (Except ε) α

variable {ε σ τ α β : Type}

/-- Run `x` from `s`: `Q` holds of the result and the next state, or `E` of the failure. -/
def Wp (x : Prog ε σ α) (s : σ) (Q : α → σ → Prop) (E : ε → Prop) : Prop :=
  match x s with
  | .ok (a, t) => Q a t
  | .error e => E e

/-- Run `x` on a part of the state. -/
def zoom (get : σ → τ) (set : τ → σ → σ) (x : Prog ε τ α) : Prog ε σ α := fun s =>
  match x (get s) with
  | .ok (a, t) => .ok (a, set t s)
  | .error e => .error e

/-- Run `x` with its failures under another name. -/
def rethrow {ε' : Type} (w : ε → ε') (x : Prog ε σ α) : Prog ε' σ α := fun s =>
  match x s with
  | .ok r => .ok r
  | .error e => .error (w e)

/-- What a computed run says about a program. -/
theorem eq_ok_of_toOption {r : Except ε α} {a : α} (h : r.toOption = some a) : r = .ok a := by
  cases r with
  | error => cases h
  | ok b => rw [Option.some.inj h]

/-- The failure of a computed run. -/
def failure : Except ε α → Option ε
  | .ok _ => none
  | .error e => some e

theorem eq_error_of_failure {r : Except ε α} {e : ε} (h : failure r = some e) : r = .error e := by
  cases r with
  | ok => cases h
  | error => rw [Option.some.inj h]

/-- Running a bind when the run of its first part is known. -/
theorem bind_run_ok {x : Prog ε σ α} {f : α → Prog ε σ β} {s t : σ} {a : α}
    (h : x s = .ok (a, t)) : (x >>= f) s = f a t := by
  change (x s).bind (fun p => f p.1 p.2) = f a t
  rw [h]
  rfl

theorem bind_run_error {x : Prog ε σ α} {f : α → Prog ε σ β} {s : σ} {e : ε}
    (h : x s = .error e) : (x >>= f) s = .error e := by
  change (x s).bind (fun p => f p.1 p.2) = .error e
  rw [h]
  rfl

theorem throw_bind_run {f : α → Prog ε σ β} {s : σ} (e : ε) :
    ((throw e : Prog ε σ α) >>= f) s = .error e := rfl

/-- Two binds run alike if what follows runs alike. -/
theorem bind_run_congr {x : Prog ε σ α} {f g : α → Prog ε σ β} {s : σ}
    (h : ∀ a t, f a t = g a t) : (x >>= f) s = (x >>= g) s := by
  change (x s).bind (fun p => f p.1 p.2) = (x s).bind fun p => g p.1 p.2
  exact congrArg _ (funext fun p => h p.1 p.2)

namespace Wp

variable {x : Prog ε σ α} {f : α → Prog ε σ β} {s : σ} {Q Q' : α → σ → Prop} {R : β → σ → Prop}
  {E E' : ε → Prop}

theorem mono (h : Wp x s Q E) (hQ : ∀ a t, Q a t → Q' a t) (hE : ∀ e, E e → E' e) :
    Wp x s Q' E' := by
  unfold Wp at *
  split at h
  · exact hQ _ _ h
  · exact hE _ h

theorem post (h : Wp x s Q E) (hQ : ∀ a t, Q a t → Q' a t) : Wp x s Q' E :=
  h.mono hQ fun _ => id

theorem congr (hQ : ∀ a t, Q a t ↔ Q' a t) : Wp x s Q E ↔ Wp x s Q' E :=
  ⟨fun h => h.post fun a t => (hQ a t).mp, fun h => h.post fun a t => (hQ a t).mpr⟩

@[simp] theorem pure_iff {a : α} : Wp (pure a : Prog ε σ α) s Q E ↔ Q a s := Iff.rfl

@[simp] theorem throw_iff {e : ε} : Wp (throw e : Prog ε σ α) s Q E ↔ E e := Iff.rfl

@[simp] theorem get_iff {Q : σ → σ → Prop} : Wp (get : Prog ε σ σ) s Q E ↔ Q s s := Iff.rfl

@[simp] theorem set_iff {t : σ} {Q : PUnit → σ → Prop} :
    Wp (set t : Prog ε σ PUnit) s Q E ↔ Q ⟨⟩ t := Iff.rfl

@[simp] theorem modify_iff {g : σ → σ} {Q : PUnit → σ → Prop} :
    Wp (modify g : Prog ε σ PUnit) s Q E ↔ Q ⟨⟩ (g s) := Iff.rfl

theorem bind_iff : Wp (x >>= f) s R E ↔ Wp x s (fun a t => Wp (f a) t R E) E := by
  change (match (x s).bind fun p => f p.1 p.2 with | .ok (b, t) => R b t | .error e => E e) ↔ _
  unfold Wp
  cases x s <;> rfl

/-- The rule for a bind: the specification of the first program, then the rest. -/
theorem bind (h : Wp x s Q E) (hf : ∀ a t, Q a t → Wp (f a) t R E) : Wp (x >>= f) s R E :=
  bind_iff.mpr (h.post hf)

/-- A program whose run from `s` is known. -/
theorem of_eq {a : α} {t : σ} (h : x s = .ok (a, t)) : Wp x s Q E ↔ Q a t := by
  unfold Wp
  rw [h]

/-- A program whose failure from `s` is known. -/
theorem of_eq_error {e : ε} (h : x s = .error e) (he : E e) : Wp x s Q E := by
  unfold Wp
  rwa [h]

theorem zoom_iff {get : σ → τ} {set : τ → σ → σ} {y : Prog ε τ α} :
    Wp (zoom get set y) s Q E ↔ Wp y (get s) (fun a t => Q a (set t s)) E := by
  unfold Wp zoom
  cases y (get s) <;> rfl

theorem rethrow_iff {ε' : Type} {w : ε → ε'} {E : ε' → Prop} :
    Wp (rethrow w x) s Q E ↔ Wp x s Q fun e => E (w e) := by
  unfold Wp rethrow
  cases x s <;> rfl

/-- What a specification says of a run that succeeded. -/
theorem of_ok (h : Wp x s Q E) {a : α} {t : σ} (hx : x s = .ok (a, t)) : Q a t := by
  unfold Wp at h
  rwa [hx] at h

/-- What a specification says of a run that failed. -/
theorem of_error (h : Wp x s Q E) {e : ε} (hx : x s = .error e) : E e := by
  unfold Wp at h
  rwa [hx] at h

/-- A specification that pins down the result of a program that cannot fail. -/
theorem eq_ok_of {a : α} {t : σ} (h : Wp x s (fun b u => b = a ∧ u = t) fun _ => False) :
    x s = .ok (a, t) := by
  unfold Wp at h
  split at h
  case h_1 b u hx => rw [hx, h.1, h.2]
  case h_2 => exact h.elim

/-- A specification that pins down the failure of a program that cannot succeed. -/
theorem eq_error_of {e : ε} (h : Wp x s (fun _ _ => False) (· = e)) : x s = .error e := by
  unfold Wp at h
  split at h
  case h_1 => exact h.elim
  case h_2 hx => rw [hx, h]

/-- A program that has no way to fail returns. -/
theorem exists_ok (h : Wp x s Q E) (hE : ∀ e, ¬ E e) : ∃ a t, x s = .ok (a, t) ∧ Q a t := by
  unfold Wp at h
  split at h
  case h_1 a t hx => exact ⟨a, t, hx, h⟩
  case h_2 e _ => exact absurd h (hE e)

/-- A run succeeds or fails. -/
theorem cases (h : Wp x s Q E) :
    (∃ a t, x s = .ok (a, t) ∧ Q a t) ∨ ∃ e, x s = .error e ∧ E e := by
  unfold Wp at h
  split at h
  case h_1 a t hx => exact .inl ⟨a, t, hx, h⟩
  case h_2 e hx => exact .inr ⟨e, hx, h⟩

/-- The run itself goes with a specification. -/
theorem run (h : Wp x s Q E) : Wp x s (fun a t => Q a t ∧ x s = .ok (a, t)) E := by
  unfold Wp at *
  split at h
  case h_1 hx => exact ⟨h, hx⟩
  case h_2 => exact h

theorem true (x : Prog ε σ α) (s : σ) : Wp x s (fun _ _ => True) fun _ => True := by
  unfold Wp
  split <;> trivial

theorem and (h : Wp x s Q E) (h' : Wp x s Q' E') :
    Wp x s (fun a t => Q a t ∧ Q' a t) fun e => E e ∧ E' e := by
  unfold Wp at *
  cases hx : x s <;> simp_all

end Wp

end Xv6.Lib
