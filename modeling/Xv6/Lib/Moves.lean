import Mathlib.Data.List.Nodup

/-!
# Moves in order and all at once

A memory is a function on addresses, and a move `(d, s)` copies what lies at `s` to `d`. A list of
moves is carried out in order, each on what the earlier ones left. It has the effect of moving all
the values at once if no move writes what a later one reads or writes.
-/

namespace Xv6.Lib

variable {α β : Type*} [DecidableEq α]

/-- Carry out the moves in order. -/
def moves (m : α → β) (l : List (α × α)) : α → β :=
  l.foldl (fun m p => Function.update m p.1 (m p.2)) m

/-- The move `p` may come before `q`: it writes neither what `q` reads nor what `q` writes. -/
def Clear (p q : α × α) : Prop :=
  p.1 ≠ q.1 ∧ p.1 ≠ q.2

@[simp] theorem moves_nil (m : α → β) : moves m [] = m := rfl

@[simp] theorem moves_cons (m : α → β) (p : α × α) (l : List (α × α)) :
    moves m (p :: l) = moves (Function.update m p.1 (m p.2)) l := rfl

theorem moves_append (m : α → β) (l l' : List (α × α)) :
    moves m (l ++ l') = moves (moves m l) l' :=
  List.foldl_append

/-- What no move writes is unchanged. -/
theorem moves_of_not_mem {a : α} {l : List (α × α)} (h : a ∉ l.map Prod.fst) (m : α → β) :
    moves m l a = m a := by
  induction l generalizing m with
  | nil => rfl
  | cons p l ih =>
    rw [List.map_cons, List.mem_cons, not_or] at h
    rw [moves_cons, ih h.2, Function.update_of_ne h.1]

/-- A move delivers what the earlier ones left, if no later one writes there. -/
theorem moves_last {l l' : List (α × α)} {p : α × α} (h : p.1 ∉ l'.map Prod.fst) (m : α → β) :
    moves m (l ++ p :: l') p.1 = moves m l p.2 := by
  rw [moves_append, moves_cons, moves_of_not_mem h, Function.update_self]

/-- Moves that are clear of the later ones deliver what was there before the first of them. -/
theorem moves_of_mem {l : List (α × α)} (hl : l.Pairwise Clear) {p : α × α} (hp : p ∈ l)
    (m : α → β) : moves m l p.1 = m p.2 := by
  induction l generalizing m with
  | nil => cases hp
  | cons q l ih =>
    rw [List.pairwise_cons] at hl
    rw [moves_cons]
    rcases List.mem_cons.mp hp with rfl | hmem
    · have hnot : p.1 ∉ l.map Prod.fst := by
        rintro hin
        obtain ⟨r, hr, hrp⟩ := List.mem_map.mp hin
        exact (hl.1 r hr).1 hrp.symm
      rw [moves_of_not_mem hnot, Function.update_self]
    · rw [ih hl.2 hmem, Function.update_of_ne (hl.1 p hmem).2.symm]

end Xv6.Lib
