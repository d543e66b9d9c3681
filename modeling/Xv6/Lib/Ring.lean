import Mathlib.Data.Fin.Basic
import Mathlib.Data.List.Basic

/-!
# Ring buffers with wrapping counters

A queue of at most `N` elements in an array of length `N`, with a count of the elements
ever taken out and one of those ever put in, both modulo `M`. The counters are never reset;
as long as `N` divides `M` and is smaller, they tell an empty queue from a full one and the
place of each element, however often they have wrapped.
-/

namespace Xv6.Lib

variable {N M : ℕ} {α : Type*}

/-- The array holds `queue`, of which the first element is the `base`-th ever put in. -/
structure Ring (M : ℕ) (buf : Fin N → α) (r w : ℕ) (base : ℕ) (queue : List α) : Prop where
  read : r = base % M
  write : w = (base + queue.length) % M
  le : queue.length ≤ N
  get : ∀ i (hi : i < queue.length) (hN : (base + i) % N < N), buf ⟨(base + i) % N, hN⟩ = queue[i]

namespace Ring

variable {buf : Fin N → α} {r w base : ℕ} {queue : List α}

/-- The empty ring. -/
theorem nil (buf : Fin N → α) : Ring M buf 0 0 0 [] :=
  ⟨(Nat.zero_mod M).symm, (Nat.zero_mod M).symm, Nat.zero_le N, fun i hi => absurd
    hi (Nat.not_lt_zero i)⟩

/-- The counters differ by the number of elements. -/
theorem length_eq (h : Ring M buf r w base queue) (hlt : N < M) :
    (M - r + w) % M = queue.length := by
  have hM : 0 < M := by omega
  have hr : r < M := h.read ▸ Nat.mod_lt _ hM
  have hle := h.le
  have hw : w = (r + queue.length) % M := by rw [h.write, h.read, Nat.mod_add_mod]
  rw [hw, Nat.add_mod_mod, show M - r + (r + queue.length) = queue.length + M by omega,
    Nat.add_mod_right, Nat.mod_eq_of_lt (by omega)]

theorem empty_iff (h : Ring M buf r w base queue) (hlt : N < M) : r = w ↔ queue = [] := by
  have hlen := h.length_eq hlt
  constructor
  · rintro rfl
    have hr : r < M := h.read ▸ Nat.mod_lt _ (by omega)
    rw [show M - r + r = M by omega, Nat.mod_self] at hlen
    exact List.length_eq_zero_iff.mp hlen.symm
  · rintro rfl
    rw [h.read, h.write, List.length_nil, Nat.add_zero]

theorem full_iff (h : Ring M buf r w base queue) (hlt : N < M) :
    w = (r + N) % M ↔ queue.length = N := by
  have hle := h.le
  have hlen := h.length_eq hlt
  have hr : r < M := h.read ▸ Nat.mod_lt _ (by omega)
  constructor
  · rintro rfl
    rw [Nat.add_mod_mod, show M - r + (r + N) = N + M by omega, Nat.add_mod_right,
      Nat.mod_eq_of_lt hlt] at hlen
    exact hlen.symm
  · intro hN
    rw [h.write, h.read, hN, Nat.mod_add_mod]

/-- The place that the counter of insertions points to. -/
theorem write_mod (h : Ring M buf r w base queue) (hdvd : N ∣ M) :
    w % N = (base + queue.length) % N := by
  rw [h.write, Nat.mod_mod_of_dvd _ hdvd]

/-- Put an element in. -/
theorem push (h : Ring M buf r w base queue) (hdvd : N ∣ M) (hroom : queue.length < N)
    (hw : w % N < N) (x : α) :
    Ring M (Function.update buf ⟨w % N, hw⟩ x) r ((w + 1) % M) base (queue ++ [x]) := by
  have hplace := h.write_mod hdvd
  refine ⟨h.read, ?_, ?_, fun i hi hN => ?_⟩
  · rw [h.write, Nat.mod_add_mod, List.length_append, List.length_singleton, Nat.add_assoc]
  · rw [List.length_append, List.length_singleton]
    omega
  · rw [List.length_append, List.length_singleton] at hi
    rcases Nat.lt_or_eq_of_le (Nat.le_of_lt_succ hi) with hi | rfl
    · -- another place: fewer than `N` elements lie between
      have hne : (⟨(base + i) % N, hN⟩ : Fin N) ≠ ⟨w % N, hw⟩ := by
        intro heq
        have hmod : (base + i) % N = (base + queue.length) % N :=
          (Fin.mk.inj heq).trans hplace
        have hdiff : (base + queue.length - (base + i)) % N = 0 :=
          Nat.sub_mod_eq_zero_of_mod_eq hmod.symm
        rw [Nat.add_sub_add_left, Nat.mod_eq_of_lt (by omega)] at hdiff
        omega
      rw [Function.update_of_ne hne, h.get i hi, List.getElem_append_left hi]
    · have heq : (⟨(base + queue.length) % N, hN⟩ : Fin N) = ⟨w % N, hw⟩ := Fin.ext hplace.symm
      rw [heq, Function.update_self, List.getElem_concat_length rfl]

/-- Take the first element out. -/
theorem pop {x : α} (h : Ring M buf r w base (x :: queue)) (hdvd : N ∣ M) (hr : r % N < N) :
    buf ⟨r % N, hr⟩ = x ∧ Ring M buf ((r + 1) % M) w (base + 1) queue := by
  have hplace : r % N = base % N := by rw [h.read, Nat.mod_mod_of_dvd _ hdvd]
  have hle := h.le
  rw [List.length_cons] at hle
  refine ⟨?_, ?_, ?_, by omega, fun i hi hN => ?_⟩
  · have hget := h.get 0 (by simp) (by rw [Nat.add_zero, ← hplace]; exact hr)
    simp only [Nat.add_zero, List.getElem_cons_zero] at hget
    rw [← hget]
    congr 1
    exact Fin.ext hplace
  · rw [h.read, Nat.mod_add_mod]
  · rw [h.write, List.length_cons, Nat.add_assoc, Nat.add_comm 1]
  · have hget := h.get (i + 1) (by simpa using hi) (by rwa [Nat.add_comm i, ← Nat.add_assoc])
    rw [List.getElem_cons_succ] at hget
    rw [← hget]
    congr 1
    exact Fin.ext (congrArg (· % N) (by omega))

/-- Take back the element that was put in last. -/
theorem unpush {x : α} (h : Ring M buf r w base (queue ++ [x])) (hdvd : N ∣ M) (hM : 0 < M)
    (hw : (w + (M - 1)) % M % N < N) :
    buf ⟨(w + (M - 1)) % M % N, hw⟩ = x ∧ Ring M buf r ((w + (M - 1)) % M) base queue := by
  have hwrite : (w + (M - 1)) % M = (base + queue.length) % M := by
    have hlen : (queue ++ [x]).length = queue.length + 1 := by simp
    rw [h.write, hlen, Nat.mod_add_mod,
      show base + (queue.length + 1) + (M - 1) = base + queue.length +
        M by omega, Nat.add_mod_right]
  have hle := h.le
  rw [List.length_append, List.length_singleton] at hle
  refine ⟨?_, h.read, hwrite, by omega, fun i hi hN => ?_⟩
  · have hplace : (w + (M - 1)) % M % N = (base + queue.length) % N := by
      rw [hwrite, Nat.mod_mod_of_dvd _ hdvd]
    have hget := h.get queue.length (by simp) (hplace ▸ hw)
    rw [List.getElem_concat_length rfl] at hget
    rw [← hget]
    congr 1
    exact Fin.ext hplace
  · rw [h.get i (by simp; omega) hN, List.getElem_append_left hi]

end Ring

end Xv6.Lib
