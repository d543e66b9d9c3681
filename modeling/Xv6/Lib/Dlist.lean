import Mathlib.Data.List.Nodup

/-!
# Doubly linked circular lists

Nodes with pointers to the next and the previous one, in a circle through a head that is not one of
them. A pointer is `none` if it points to the head, as `head?` and `getLast?` are `none` for the
empty list; so the pointers stand for a list if at every cut of it they connect the last node before
the cut with the first node after it. -/

namespace Xv6.Lib

variable {β : Type}

/-- The pointers of the nodes and of the head. -/
structure Links (β : Type) where
  next : Option β → Option β
  prev : Option β → Option β

/-- Follow pointers from a node until the head is reached; `none` if that takes more than `fuel`
nodes. -/
def visit (step : Option β → Option β) : ℕ → Option β → Option (List β)
  | _, none => some []
  | 0, some _ => none
  | fuel + 1, some b => (visit step fuel (step (some b))).map (b :: ·)

/-- Follow pointers from a node until one with `q` or the head is reached; `none` if that takes more
than `fuel` nodes. -/
def scan (step : Option β → Option β) (q : β → Bool) : ℕ → Option β → Option (Option β)
  | _, none => some none
  | 0, some _ => none
  | fuel + 1, some b => if q b then some (some b) else scan step q fuel (step (some b))

/-- A search finds the first node with `q` of those that the pointers lead through. -/
theorem scan_of_visit {step : Option β → Option β} {fuel : ℕ} {o : Option β} {l : List β}
    (h : visit step fuel o = some l) (q : β → Bool) : scan step q fuel o = some (l.find? q) := by
  fun_induction visit step fuel o generalizing l with
  | case1 fuel =>
    cases h
    cases fuel <;> rfl
  | case2 => cases h
  | case3 fuel b ih =>
    obtain ⟨l, hl, rfl⟩ := Option.map_eq_some_iff.mp h
    rw [scan, ih hl, List.find?_cons]
    cases q b <;> rfl

namespace Links

/-- The list in the other direction. -/
def flip (p : Links β) : Links β := ⟨p.prev, p.next⟩

/-- The pointers stand for the list `l`. -/
def Lists (p : Links β) (l : List β) : Prop :=
  ∀ l₁ l₂, l = l₁ ++ l₂ → p.next l₁.getLast? = l₂.head? ∧ p.prev l₂.head? = l₁.getLast?

section Operations

variable [DecidableEq β]

/-- Insert a node behind the head, one assignment after the other. -/
def pushFront (p : Links β) (b : β) : Links β :=
  let p := { p with next := Function.update p.next (some b) (p.next none) }
  let p := { p with prev := Function.update p.prev (some b) none }
  let p := { p with prev := Function.update p.prev (p.next none) (some b) }
  { p with next := Function.update p.next none (some b) }

/-- Take a node out; its own pointers stay. -/
def unlink (p : Links β) (b : β) : Links β :=
  let p := { p with prev := Function.update p.prev (p.next (some b)) (p.prev (some b)) }
  { p with next := Function.update p.next (p.prev (some b)) (p.next (some b)) }

end Operations

variable {p : Links β} {l l₁ l₂ : List β} {b : β}

theorem Lists.flip (h : p.Lists l) : p.flip.Lists l.reverse := by
  intro m₁ m₂ hm
  have hl : l = m₂.reverse ++ m₁.reverse := by
    rw [← List.reverse_append, ← hm, List.reverse_reverse]
  obtain ⟨hnext, hprev⟩ := h _ _ hl
  rw [List.getLast?_reverse, List.head?_reverse] at hnext hprev
  exact ⟨hprev, hnext⟩

/-! ### Loops -/

/-- From a cut on, the pointers lead through the rest of the list and back to the head. -/
theorem Lists.visit_from (l₁ : List β) (h : p.Lists (l₁ ++ l₂))
    {fuel : ℕ} (hfuel : l₂.length ≤ fuel) :
    visit p.next fuel l₂.head? = some l₂ := by
  induction l₂ generalizing l₁ fuel with
  | nil => cases fuel <;> rfl
  | cons b l₂ ih =>
    obtain ⟨fuel, rfl⟩ := Nat.exists_eq_add_one_of_ne_zero (show fuel ≠ 0 by
      rintro rfl
      exact absurd hfuel (Nat.not_succ_le_zero _))
    have hcut : l₁ ++ b :: l₂ = (l₁ ++ [b]) ++ l₂ :=
      by rw [List.append_assoc, List.singleton_append]
    have hnext := (h (l₁ ++ [b]) l₂ hcut).1
    rw [List.getLast?_concat] at hnext
    rw [List.head?_cons, visit, hnext, ih _ (hcut ▸ h) (Nat.le_of_succ_le_succ hfuel)]
    rfl

theorem Lists.next_head (h : p.Lists l) : p.next none = l.head? := (h [] l rfl).1

/-- Following `next` from the head sees the list. -/
theorem Lists.visit_next (h : p.Lists l) : visit p.next l.length (p.next none) = some l := by
  rw [h.next_head]
  exact h.visit_from [] (Nat.le_refl _)

/-- Following `prev` from the head sees the list in reverse. -/
theorem Lists.visit_prev (h : p.Lists l) :
    visit p.prev l.length (p.prev none) = some l.reverse := by
  have := h.flip.visit_next
  rwa [List.length_reverse] at this

theorem Lists.scan_next (h : p.Lists l) (q : β → Bool) :
    scan p.next q l.length (p.next none) = some (l.find? q) := scan_of_visit h.visit_next q

theorem Lists.scan_prev (h : p.Lists l) (q : β → Bool) :
    scan p.prev q l.length (p.prev none) = some (l.reverse.find? q) := scan_of_visit h.visit_prev q

/-! ### Insertion and removal -/

/-- In a list without repetitions the last node before a cut tells where the cut is. -/
theorem getLast?_ne {m a r : List β} (h : (m ++ a ++ r).Nodup) (ha : a ≠ []) :
    m.getLast? ≠ (m ++ a).getLast? := by
  rw [List.getLast?_append_of_ne_nil _ ha, List.getLast?_eq_some_getLast ha]
  intro heq
  have hm := List.mem_of_getLast? heq
  have hdisj := (List.nodup_append.mp (List.nodup_append.mp h).1).2.2
  exact hdisj _ hm _ (List.getLast_mem ha) rfl

theorem head?_ne {m a r : List β} (h : (r ++ a ++ m).Nodup) (ha : a ≠ []) :
    m.head? ≠ (a ++ m).head? := by
  have := getLast?_ne (m := m.reverse) (a := a.reverse) (r := r.reverse)
    (by rwa [← List.reverse_append, ← List.reverse_append, List.nodup_reverse, ← List.append_assoc])
    (by simpa using ha)
  rwa [← List.reverse_append, List.getLast?_reverse, List.getLast?_reverse] at this

variable [DecidableEq β]

theorem Lists.pushFront (h : p.Lists l) (hl : (b :: l).Nodup) : (p.pushFront b).Lists (b :: l) := by
  obtain ⟨hb, hnodup⟩ := List.nodup_cons.mp hl
  have hhead : l.head? ≠ some b := fun heq => hb (List.mem_of_head? heq)
  unfold Links.pushFront
  simp only [h.next_head, Function.update_of_ne (Option.some_ne_none b).symm]
  intro m₁ m₂ hm
  cases m₁ with
  | nil =>
    obtain rfl : m₂ = b :: l := hm.symm
    simp [Function.update_of_ne (Ne.symm hhead)]
  | cons a m₁ =>
    rw [List.cons_append] at hm
    obtain ⟨rfl, rfl⟩ := List.cons.inj hm
    by_cases hm₁ : m₁ = []
    · subst hm₁
      simp
    · -- a cut further on is one of the list before
      obtain ⟨hnext, hprev⟩ := h m₁ m₂ rfl
      have hlast : (b :: m₁).getLast? = m₁.getLast? := List.getLast?_cons_of_ne_nil hm₁
      have hcut : m₂.head? ≠ (m₁ ++ m₂).head? := head?_ne (r := []) (by simpa using hnodup) hm₁
      have hm₂ : m₂.head? ≠ some b :=
        fun heq => hb (List.mem_append_right _ (List.mem_of_head? heq))
      obtain ⟨c, hc⟩ : ∃ c, m₁.getLast? = some c := ⟨_, List.getLast?_eq_some_getLast hm₁⟩
      have hcb : c ≠ b := by
        rintro rfl
        exact hb (List.mem_append_left _ (List.mem_of_getLast? hc))
      dsimp only
      rw [hlast, Function.update_of_ne hcut, Function.update_of_ne hm₂, hprev, hc,
        Function.update_of_ne (Option.some_ne_none c), Function.update_of_ne
          (by simpa using hcb), ← hc,
        hnext]
      exact ⟨rfl, rfl⟩

/-- The two assignments of a removal do not get in each other's way. -/
theorem Lists.unlink_eq (h : p.Lists (l₁ ++ b :: l₂)) (hl : (l₁ ++ b :: l₂).Nodup) :
    p.unlink b = ⟨Function.update p.next l₁.getLast? l₂.head?,
      Function.update p.prev l₂.head? l₁.getLast?⟩ := by
  have hnext := (h (l₁ ++ [b]) l₂ (by simp)).1
  have hprev := (h l₁ (b :: l₂) rfl).2
  rw [List.getLast?_concat] at hnext
  rw [List.head?_cons] at hprev
  have hne : some b ≠ l₂.head? := by
    intro heq
    exact (List.nodup_cons.mp (List.nodup_append.mp hl).2.1).1 (List.mem_of_head? heq.symm)
  unfold Links.unlink
  simp only [hnext, hprev, Function.update_of_ne hne]

theorem Lists.unlink (h : p.Lists (l₁ ++ b :: l₂)) (hl : (l₁ ++ b :: l₂).Nodup) :
    (p.unlink b).Lists (l₁ ++ l₂) := by
  rw [h.unlink_eq hl]
  intro m₁ m₂ hm
  dsimp only
  rcases List.append_eq_append_iff.mp hm with ⟨a, rfl, rfl⟩ | ⟨a, rfl, rfl⟩
  · by_cases ha : a = []
    · subst ha
      simp
    · -- the cut is behind the node that was taken out
      obtain ⟨hnext, hprev⟩ := h (l₁ ++ b :: a) m₂ (by simp)
      have hlast : (l₁ ++ b :: a).getLast? = (l₁ ++ a).getLast? := by
        rw [List.getLast?_append_of_ne_nil _ (List.cons_ne_nil _ _),
          List.getLast?_cons_of_ne_nil ha,
          List.getLast?_append_of_ne_nil _ ha]
      have hnodup : (l₁ ++ a ++ m₂).Nodup := by
        refine hl.sublist ?_
        rw [List.append_assoc]
        exact (List.sublist_cons_self _ _).append_left _
      rw [hlast] at hnext hprev
      rw [Function.update_of_ne (getLast?_ne hnodup ha).symm,
        Function.update_of_ne (head?_ne hnodup ha)]
      exact ⟨hnext, hprev⟩
  · by_cases ha : a = []
    · subst ha
      simp
    · -- the cut is in front of it
      obtain ⟨hnext, hprev⟩ := h m₁ (a ++ b :: l₂) (by simp)
      have hhead : (a ++ b :: l₂).head? = (a ++ l₂).head? := by
        rw [List.head?_append_of_ne_nil _ ha, List.head?_append_of_ne_nil _ ha]
      have hnodup : (m₁ ++ a ++ l₂).Nodup := by
        refine hl.sublist ?_
        exact (List.sublist_cons_self _ _).append_left _
      rw [hhead] at hnext hprev
      rw [Function.update_of_ne (getLast?_ne hnodup ha), Function.update_of_ne
        (head?_ne hnodup ha).symm]
      exact ⟨hnext, hprev⟩

end Links

end Xv6.Lib
