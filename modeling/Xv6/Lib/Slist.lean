import Mathlib.Data.List.Nodup

/-!
# Singly linked queues

A pointer to the first node, and a pointer from each node to the next one, `none` at the end. A node
is appended by walking to the last node; nodes leave the queue at the front.
-/

namespace Xv6.Lib

variable {β : Type*}

/-- From `head` on, the pointers lead through the nodes of the list. -/
def Chain (next : β → Option β) : Option β → List β → Prop
  | head, [] => head = none
  | head, b :: l => head = some b ∧ Chain next (next b) l

/-- Walk from a node to the one that has no next; `none` if that takes more than `fuel` nodes. -/
def lastNode (next : β → Option β) : ℕ → β → Option β
  | 0, _ => none
  | fuel + 1, b =>
    match next b with
    | none => some b
    | some c => lastNode next fuel c

/-- Append a node; the result is the new pointer to the first node and the new pointers. -/
def enqueue [DecidableEq β] (next : β → Option β) (head : Option β) (fuel : ℕ) (b : β) :
    Option (Option β × (β → Option β)) :=
  let next := Function.update next b none
  match head with
  | none => some (some b, next)
  | some c => (lastNode next fuel c).map fun e => (head, Function.update next e (some b))

variable {next : β → Option β} {head : Option β} {l : List β} {b c : β}

theorem Chain.head_eq (h : Chain next head l) : head = l.head? := by
  cases l with
  | nil => exact h
  | cons b l => exact h.1

/-- The pointers of other nodes do not matter. -/
theorem Chain.congr {next' : β → Option β} (h : Chain next head l)
    (heq : ∀ b ∈ l, next' b = next b) :
    Chain next' head l := by
  induction l generalizing head with
  | nil => exact h
  | cons b l ih =>
    refine ⟨h.1, ?_⟩
    rw [heq b List.mem_cons_self]
    exact ih h.2 fun c hc => heq c (List.mem_cons_of_mem b hc)

section Enqueue

variable [DecidableEq β]

/-- The walk from the first node ends at a node of the queue, and the new node goes behind it. -/
theorem Chain.lastNode_eq (h : Chain next (some c) (c :: l)) (hnodup : (c :: l).Nodup)
    (hb : b ∉ c :: l) (hnil : next b = none) {fuel : ℕ} (hfuel : l.length < fuel) :
    ∃ e ∈ c :: l, lastNode next fuel c = some e ∧
      Chain (Function.update next e (some b)) (some c) (c :: l ++ [b]) := by
  induction l generalizing c fuel with
  | nil =>
    obtain ⟨fuel, rfl⟩ := Nat.exists_eq_add_one_of_ne_zero (Nat.ne_of_gt hfuel)
    have hbc : b ≠ c := List.ne_of_not_mem_cons hb
    have hc : next c = none := h.2
    refine ⟨c, List.mem_cons_self, by rw [lastNode, hc], rfl, ?_⟩
    rw [Function.update_self]
    refine ⟨rfl, ?_⟩
    rw [Function.update_of_ne hbc]
    exact hnil
  | cons d l ih =>
    obtain ⟨fuel, rfl⟩ := Nat.exists_eq_add_one_of_ne_zero (Nat.ne_of_gt (Nat.zero_lt_of_lt hfuel))
    have hc : next c = some d := h.2.1
    have hrest : Chain next (some d) (d :: l) := ⟨rfl, h.2.2⟩
    obtain ⟨e, he, hlast, hchain⟩ := ih hrest (List.nodup_cons.mp hnodup).2
      (List.not_mem_of_not_mem_cons hb) (Nat.lt_of_succ_lt_succ hfuel)
    have hce : c ≠ e := by
      rintro rfl
      exact (List.nodup_cons.mp hnodup).1 he
    refine ⟨e, List.mem_cons_of_mem c he, ?_, rfl, ?_⟩
    · rw [lastNode, hc]
      exact hlast
    · rw [Function.update_of_ne hce, hc]
      exact hchain

/-- Appending a node to a queue of at most `fuel` nodes. -/
theorem Chain.enqueue (h : Chain next head l) (hnodup : l.Nodup) (hb : b ∉ l) {fuel : ℕ}
    (hfuel : l.length ≤ fuel) :
    ∃ head' next', enqueue next head fuel b = some (head', next') ∧
    Chain next' head' (l ++ [b]) := by
  have hsame : ∀ c ∈ l, Function.update next b none c = next c := by
    intro c hc
    exact Function.update_of_ne (ne_of_mem_of_not_mem hc hb) _ _
  have hnil : Function.update next b none b = none := Function.update_self _ _ _
  have h' := h.congr hsame
  cases l with
  | nil =>
    obtain rfl : head = none := h
    exact ⟨_, _, rfl, rfl, hnil⟩
  | cons c l =>
    obtain rfl : head = some c := h.1
    obtain ⟨e, -, hlast, hchain⟩ := h'.lastNode_eq hnodup hb hnil hfuel
    refine ⟨_, _, ?_, hchain⟩
    rw [Lib.enqueue, hlast]
    rfl

end Enqueue

end Xv6.Lib
