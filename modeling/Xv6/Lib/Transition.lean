import Mathlib.Logic.Relation

/-!
# Runs of a labelled transition system

A run records the labels of the steps it took. Safety properties are proved by
showing what one step preserves; `Run.invariant` turns that into a statement about
every state a run reaches, and `Run.invariant_of_guard` does so for runs whose steps
all meet a side condition on the state before the step. `Run.simulate` carries runs over to another
system.
-/

namespace Xv6.Lib

variable {σ α : Type*}

/-- The result of trying a step: not possible now, a failure, or the next state. -/
inductive Outcome (ε σ : Type*)
  | blocked
  | panic (msg : ε)
  | ok (s : σ)

namespace Outcome

variable {ε : Type*}

/-- The next state, if there is one. -/
def toOption : Outcome ε σ → Option σ
  | .ok s => some s
  | _ => none

/-- A step that is possible when there is a value. -/
def ofOption : Option σ → Outcome ε σ
  | some s => .ok s
  | none => .blocked

/-- Continue with the next state; `g` embeds the failures. -/
def bindMap {δ τ : Type*} (r : Outcome ε σ) (g : ε → δ) (f : σ → Outcome δ τ) : Outcome δ τ :=
  match r with
  | .blocked => .blocked
  | .panic msg => .panic (g msg)
  | .ok s => f s

theorem bindMap_eq_ok {δ τ : Type*} {r : Outcome ε σ} {g : ε → δ} {f : σ → Outcome δ τ} {t : τ} :
    r.bindMap g f = .ok t ↔ ∃ s, r = .ok s ∧ f s = .ok t := by
  cases r <;> simp [bindMap]

theorem ofOption_eq_ok {o : Option σ} {s : σ} :
    (ofOption o : Outcome ε σ) = .ok s ↔ o = some s := by
  cases o <;> simp [ofOption]

theorem eq_ok_of_toOption {r : Outcome ε σ} {s : σ} (h : r.toOption = some s) : r = .ok s := by
  cases r <;> simp_all [toOption]

end Outcome

/-- `Run step s labels t`: the steps named by `labels` lead from `s` to `t`. -/
inductive Run (step : σ → α → σ → Prop) (s : σ) : List α → σ → Prop
  | refl : Run step s [] s
  | snoc {labels : List α} {u t : σ} {a : α} :
      Run step s labels u → step u a t → Run step s (labels ++ [a]) t

/-- The steps of `step` taken only where `guard` holds of the state and the label. -/
def Guarded (step : σ → α → σ → Prop) (guard : σ → α → Prop) (s : σ) (a : α) (t : σ) : Prop :=
  guard s a ∧ step s a t

namespace Run

variable {step : σ → α → σ → Prop} {s t : σ} {labels : List α}

theorem single {a : α} (h : step s a t) : Run step s [a] t := by
  simpa using Run.snoc .refl h

theorem trans {u : σ} {more : List α} (h₁ : Run step s labels t) (h₂ : Run step t more u) :
    Run step s (labels ++ more) u := by
  induction h₂ with
  | refl => simpa using h₁
  | snoc _ hstep ih =>
    rw [← List.append_assoc]
    exact ih.snoc hstep

/-- A property of the initial state that every step preserves holds after every run. -/
theorem invariant {I : σ → Prop} (hinit : I s)
    (hstep : ∀ u a v, I u → step u a v → I v) (hrun : Run step s labels t) : I t := by
  induction hrun with
  | refl => exact hinit
  | snoc _ h ih => exact hstep _ _ _ ih h

/-- The invariant rule for runs whose steps all meet a guard. -/
theorem invariant_of_guard {guard : σ → α → Prop} {I : σ → Prop} (hinit : I s)
    (hstep : ∀ u a v, I u → guard u a → step u a v → I v)
    (hrun : Run (Guarded step guard) s labels t) : I t :=
  hrun.invariant hinit fun u a v hu h => hstep u a v hu h.1 h.2

/-- If another system can answer every step with a run that keeps the states related, it can answer
every run. The relation may speak of the labels of the answers. -/
theorem simulate {τ β : Type*} {other : τ → β → τ → Prop} {R : σ → List β → τ → Prop} {m : τ}
    (hinit : R s [] m)
    (hstep : ∀ u a v acts n, R u acts n → step u a v →
      ∃ more n', Run other n more n' ∧ R v (acts ++ more) n')
    (hrun : Run step s labels t) : ∃ acts n, Run other m acts n ∧ R t acts n := by
  induction hrun with
  | refl => exact ⟨[], m, .refl, hinit⟩
  | snoc _ h ih =>
    obtain ⟨acts, n, hacts, hR⟩ := ih
    obtain ⟨more, n', hmore, hR'⟩ := hstep _ _ _ acts n hR h
    exact ⟨acts ++ more, n', hacts.trans hmore, hR'⟩

end Run

/-- Follow a partial step function along a list of labels. -/
def runList (next : σ → α → Option σ) : σ → List α → Option σ
  | s, [] => some s
  | s, a :: labels => (next s a).bind fun u => runList next u labels

/-- Take a computed step only where `guard` holds. -/
def guardedNext (guard : σ → α → Prop) [∀ s a, Decidable (guard s a)] (next : σ → α → Option σ)
    (s : σ) (a : α) : Option σ :=
  if guard s a then next s a else none

theorem guarded_of_guardedNext {guard : σ → α → Prop} [∀ s a, Decidable (guard s a)]
    {next : σ → α → Option σ} {step : σ → α → σ → Prop}
    (hnext : ∀ s a t, next s a = some t → step s a t) (s : σ) (a : α) (t : σ)
    (h : guardedNext guard next s a = some t) : Guarded step guard s a t := by
  unfold guardedNext at h
  split at h
  · exact ⟨‹_›, hnext s a t h⟩
  · cases h

/-- A computed execution is a run of the step relation it computes. -/
theorem run_of_runList {next : σ → α → Option σ} {step : σ → α → σ → Prop}
    (hnext : ∀ s a t, next s a = some t → step s a t) {s t : σ} {labels : List α}
    (h : runList next s labels = some t) : Run step s labels t := by
  induction labels generalizing s with
  | nil =>
    obtain rfl : s = t := by simpa [runList] using h
    exact .refl
  | cons a labels ih =>
    obtain ⟨u, hu, hrest⟩ := Option.bind_eq_some_iff.mp h
    exact (Run.single (hnext s a u hu)).trans (ih hrest)

/-- A computed execution that ends in a state passing `test` gives a run to such a state. -/
theorem exists_run_of_runList {step : σ → α → σ → Prop} (next : σ → α → Option σ)
    (hnext : ∀ s a t, next s a = some t → step s a t) (s : σ) (labels : List α) (test : σ → Bool)
    (h : (runList next s labels).any test = true) :
    ∃ t, Run step s labels t ∧ test t = true := by
  cases hrun : runList next s labels with
  | none => simp [hrun] at h
  | some t =>
    rw [hrun, Option.any_some] at h
    exact ⟨t, run_of_runList hnext hrun, h⟩

end Xv6.Lib
