import Mathlib.Data.Finset.Card

/-!
# Owners of addresses and a map of the used ones

A set of owners each holds at most one address (0 for none), out of those that are
available, and a map says which addresses are in use. `Owns` says that the map is exact
and that no address has two owners: nothing is lost and nothing is shared. Taking a free
address and giving one back keep it, and an address that is held is marked as used.
-/

namespace Xv6.Lib

variable {κ : Type*}

/-- No address has two owners, and the available addresses in use are those with one. -/
structure Owns (addr : κ → ℕ) (used : ℕ → Bool) (avail : ℕ → Prop) : Prop where
  pos : ∀ b, avail b → b ≠ 0
  avail_addr : ∀ k, addr k ≠ 0 → avail (addr k)
  inj : ∀ k k', addr k ≠ 0 → addr k = addr k' → k = k'
  used_iff : ∀ b, avail b → (used b = true ↔ ∃ k, addr k = b)

namespace Owns

variable {addr addr' : κ → ℕ} {used used' : ℕ → Bool} {avail : ℕ → Prop} {k : κ} {b : ℕ}

theorem used_of_ne_zero (h : Owns addr used avail) (hk : addr k ≠ 0) : used (addr k) = true :=
  (h.used_iff _ (h.avail_addr k hk)).mpr ⟨k, rfl⟩

theorem ne_of_free (h : Owns addr used avail) (hb : avail b) (hfree : used b = false) (k : κ) :
    addr k ≠ b := by
  intro hk
  have := (h.used_iff b hb).mpr ⟨k, hk⟩
  rw [hfree] at this
  cases this

theorem congr (h : Owns addr used avail) (ha : ∀ k, addr' k = addr k)
    (hu : ∀ b, avail b → used' b = used b) : Owns addr' used' avail := by
  obtain rfl : addr' = addr := funext ha
  exact ⟨h.pos, h.avail_addr, h.inj, fun b hb => by rw [hu b hb]; exact h.used_iff b hb⟩

/-- A free address goes out of sight: somebody else uses it. -/
theorem take (h : Owns addr used avail) (hfree : used b = false) :
    Owns addr (Function.update used b true) fun b' => avail b' ∧ b' ≠ b := by
  refine ⟨fun b' hb' => h.pos b' hb'.1, fun k hk => ⟨h.avail_addr k hk, ?_⟩, h.inj,
    fun b' hb' => ?_⟩
  · rintro rfl
    rw [h.used_of_ne_zero hk] at hfree
    cases hfree
  · rw [Function.update_of_ne hb'.2, h.used_iff b' hb'.1]

/-- An address that nobody in sight holds comes back as a free one. -/
theorem put (h : Owns addr used fun b' => avail b' ∧ b' ≠ b) (hb : b ≠ 0) :
    Owns addr (Function.update used b false) avail := by
  refine ⟨fun b' hb' => ?_, fun k hk => (h.avail_addr k hk).1, h.inj, fun b' hb' => ?_⟩
  · by_cases hbb : b' = b
    · exact hbb ▸ hb
    · exact h.pos b' ⟨hb', hbb⟩
  · by_cases hbb : b' = b
    · subst hbb
      simp only [Function.update_self, Bool.false_eq_true, false_iff, not_exists]
      rintro k rfl
      exact (h.avail_addr k hb).2 rfl
    · rw [Function.update_of_ne hbb, h.used_iff b' ⟨hb', hbb⟩]

variable [DecidableEq κ]

/-- Give a free address to an owner that has none. -/
theorem alloc (h : Owns addr used avail) (hk : addr k = 0) (hb : avail b)
    (hfree : used b = false) :
    Owns (Function.update addr k b) (Function.update used b true) avail := by
  have hne := h.ne_of_free hb hfree
  refine ⟨h.pos, fun k' hk' => ?_, fun k₁ k₂ h₁ h₁₂ => ?_, fun b' hb' => ?_⟩
  · by_cases hkk : k' = k
    · subst hkk; simpa using hb
    · rw [Function.update_of_ne hkk] at hk' ⊢
      exact h.avail_addr k' hk'
  · by_cases hk₁ : k₁ = k <;> by_cases hk₂ : k₂ = k
    · rw [hk₁, hk₂]
    · subst hk₁
      rw [Function.update_self, Function.update_of_ne hk₂] at h₁₂
      exact absurd h₁₂.symm (hne k₂)
    · subst hk₂
      rw [Function.update_self, Function.update_of_ne hk₁] at h₁₂
      exact absurd h₁₂ (hne k₁)
    · rw [Function.update_of_ne hk₁] at h₁ h₁₂
      rw [Function.update_of_ne hk₂] at h₁₂
      exact h.inj k₁ k₂ h₁ h₁₂
  · by_cases hbb : b' = b
    · subst hbb
      simp only [Function.update_self, true_iff]
      exact ⟨k, by simp⟩
    · rw [Function.update_of_ne hbb, h.used_iff b' hb']
      constructor
      · rintro ⟨k', rfl⟩
        have hkk : k' ≠ k := by
          rintro rfl
          exact h.pos _ hb' hk
        exact ⟨k', by simp [hkk]⟩
      · rintro ⟨k', hk'⟩
        by_cases hkk : k' = k
        · subst hkk
          rw [Function.update_self] at hk'
          exact absurd hk'.symm hbb
        · rw [Function.update_of_ne hkk] at hk'
          exact ⟨k', hk'⟩

/-- An address that somebody else used goes to an owner that has none. -/
theorem adopt (h : Owns addr used fun b' => avail b' ∧ b' ≠ b) (hk : addr k = 0) (hb : avail b)
    (hb0 : b ≠ 0) (hused : used b = true) : Owns (Function.update addr k b) used avail := by
  have hput := (h.put hb0).alloc hk hb (Function.update_self ..)
  have hsame : Function.update used b true = used := Function.update_eq_self_iff.mpr hused.symm
  rwa [Function.update_idem, hsame] at hput

/-- Take the address of an owner away and mark it as free. -/
theorem free (h : Owns addr used avail) (hk : addr k ≠ 0) :
    Owns (Function.update addr k 0) (Function.update used (addr k) false) avail := by
  refine ⟨h.pos, fun k' hk' => ?_, fun k₁ k₂ h₁ h₁₂ => ?_, fun b' hb' => ?_⟩
  · by_cases hkk : k' = k
    · subst hkk; simp at hk'
    · rw [Function.update_of_ne hkk] at hk' ⊢
      exact h.avail_addr k' hk'
  · have hk₁ : k₁ ≠ k := by
      rintro rfl
      simp at h₁
    rw [Function.update_of_ne hk₁] at h₁ h₁₂
    by_cases hk₂ : k₂ = k
    · subst hk₂
      rw [Function.update_self] at h₁₂
      exact absurd h₁₂ h₁
    · rw [Function.update_of_ne hk₂] at h₁₂
      exact h.inj k₁ k₂ h₁ h₁₂
  · by_cases hbb : b' = addr k
    · subst hbb
      simp only [Function.update_self, Bool.false_eq_true, false_iff, not_exists]
      intro k' hk'
      by_cases hkk : k' = k
      · subst hkk
        rw [Function.update_self] at hk'
        exact hk hk'.symm
      · rw [Function.update_of_ne hkk] at hk'
        exact hkk (h.inj k k' hk hk'.symm).symm
    · rw [Function.update_of_ne hbb, h.used_iff b' hb']
      constructor
      · rintro ⟨k', rfl⟩
        have hkk : k' ≠ k := by
          rintro rfl
          exact hbb rfl
        exact ⟨k', by simp [hkk]⟩
      · rintro ⟨k', hk'⟩
        by_cases hkk : k' = k
        · subst hkk
          rw [Function.update_self] at hk'
          exact absurd hk'.symm (h.pos b' hb')
        · rw [Function.update_of_ne hkk] at hk'
          exact ⟨k', hk'⟩

end Owns

end Xv6.Lib
