import Xv6.Vm.Kvm

/-!
# Copying user memory

`copyuvm`: a new page directory is built out of free pages while the parent's stays as it is. Seen
from the new address space, the frames of the parent are pages in use elsewhere. Where the memory
runs out, `freevm` gives back each page taken so far.
-/

namespace Xv6.Vm

open Lib

theorem PTE_FLAGS_lt (e : ℕ) : PTE_FLAGS e < PGSIZE := Nat.mod_lt _ (by decide)

/-- The first `n` user pages of `d'` in `t` are copies of those of `d` in `s`, with the same flags,
and there are no more. -/
structure CopyOf (s : Mem) (d n : ℕ) (t : Mem) (d' : ℕ) : Prop where
  copied : ∀ w < n, ∃ f, t.userPage d' w =
    some (f * PGSIZE ||| (PTE_FLAGS (s.pte d w) ||| PTE_P), s.page (frame (s.pte d w)))
  rest : ∀ w < NUSER, n ≤ w → t.userPage d' w = none

theorem CopyOf.congr {s t u : Mem} {d n d' : ℕ} (h : CopyOf s d n t d') (hn : n ≤ NUSER)
    (hu : ∀ v < NUSER, u.userPage d' v = t.userPage d' v) : CopyOf s d n u d' := by
  refine ⟨fun w hw => ?_, fun w hw hnw => ?_⟩
  · rw [hu w (hw.trans_le hn)]
    exact h.copied w hw
  · rw [hu w hw]
    exact h.rest w hw hnw

/-- The loop of `copyuvm` at page `v`: the parent's page tables are as they were, so it finds each
page of a process whose pages are all mapped. -/
theorem Space.copyLoop_spec {im : Image} {others : Set ℕ} {s₀ : Mem} {d sz : ℕ}
    (h₀ : Space im others s₀ d) (hsz : sz ≤ KERNBASE)
    (hmapped : ∀ v < npages sz, Present (s₀.pte d v)) {d' : ℕ} (n : ℕ) {s : Mem} {v : ℕ}
    (h : Space im (others ∪ frames s₀ d) s d')
    (hpage : ∀ g ∈ others ∪ frames s₀ d, s.page g = s₀.page g) (hcopy : CopyOf s₀ d v s d')
    (hn : NUSER < v + n) (hv : v ≤ npages sz) :
    Wp (copyLoop im d sz d' n (v * PGSIZE)) s
      (fun r t => (∀ g ∈ others ∪ frames s₀ d, t.page g = s₀.page g) ∧
        match r with
        | some x => x = d' ∧ Space im (others ∪ frames s₀ d) t d' ∧ CopyOf s₀ d (npages sz) t d'
        | none => AllFree im (others ∪ frames s₀ d) t ∧
            s₀.free.length ≤ 2 + NPDENTRIES + npages sz) fun _ => False := by
  have hle := npages_le hsz
  induction n generalizing s v with
  | zero => omega
  | succ n ih =>
    unfold copyLoop
    split_ifs with hlt
    swap
    · have hvn : v = npages sz := by
        have := (lt_npages_iff hsz).not.mpr hlt
        omega
      exact ⟨hpage, rfl, h, hvn ▸ hcopy⟩
    have hvn := (lt_npages_iff hsz).mpr hlt
    have hvu : v < NUSER := hvn.trans_le hle
    have hv' := hvu.trans_le NUSER_le
    -- the entry that the parent has for this page
    have hp₀ := hmapped v hvn
    have htable₀ := present_table hp₀
    have hword : s.word d (v / 1024) = s₀.word d (v / 1024) :=
      Mem.word_congr (hpage d (.inr h₀.dir_mem_frames))
    have hentry : s.word (frame (s.word d (v / 1024))) (v % 1024) = s₀.pte d v := by
      rw [hword, Mem.pte, if_pos htable₀]
      exact Mem.word_congr (hpage _ (.inr (h₀.table_mem_frames (div_lt hv') htable₀)))
    have hcontents : s.page (frame (s₀.pte d v)) = s₀.page (frame (s₀.pte d v)) :=
      hpage _ (.inr (h₀.user_mem_frames hvu hp₀))
    rw [Wp.bind_iff, Wp.of_eq (walkpgdir_page s d hv'), if_pos (hword ▸ htable₀)]
    dsimp only
    rw [Wp.bind_iff, Wp.get_iff, hentry]
    rw [if_neg (show ¬ s₀.pte d v &&& PTE_P = 0 from hp₀)]
    have hmem := fun f hf => (h₀.allFree.mem_iff f).mp hf
    have hcount : ∀ {u : Mem}, u.userPage d' = s.userPage d' →
        ∀ w < NUSER, Present (u.pte d' w) → w < npages sz := fun hu w hw hp => by
      rw [present_iff_userPage, hu] at hp
      by_contra hc
      exact hp (hcopy.rest w hw (by omega))
    refine h.kalloc_spec.bind fun r u hr => ?_
    cases r with
    | none =>
      obtain ⟨rfl, hfree⟩ := hr
      have hshort := h.length_le (hcount rfl) h₀.nodup hmem
      rw [hfree, List.length_nil] at hshort
      exact h.freevm_spec.bind fun _ t ht =>
        ⟨fun g hg => (ht.2 g hg).trans (hpage g hg), ht.1, by omega⟩
    | some f =>
      obtain ⟨hu, hf, ha, -, hpageu⟩ := hr
      rw [Wp.bind_iff, Wp.modify_iff, next_page hvu]
      obtain ⟨hw, hkw⟩ := hu.setPage_kept hf (u.page (frame (s₀.pte d v)))
      have hsw := (kept_of_page hpageu _ ∅ d').trans hkw
      have hnone' := (hsw.user v hvu (Set.notMem_empty v)).trans (hcopy.rest v hvu le_rfl)
      refine (hw.mappages_spec hf ha hvu hnone' (PTE_FLAGS_lt _)).bind fun r t hr => ?_
      rcases hr with ⟨rfl, ht, hkt, -, hnew⟩ | ⟨rfl, rfl, hfree, -⟩
      · have hst := (hsw.mono (Set.empty_subset _) subset_rfl).trans hkt
        rw [if_neg (by decide)]
        refine ih ht (fun g hg => (hst.other g hg).trans (hpage g hg)) ⟨fun w hwv => ?_,
          fun w hwu hwv => ?_⟩ (by omega) hvn
        · rcases Nat.eq_or_lt_of_le (Nat.le_of_lt_succ hwv) with rfl | hwv
          · refine ⟨f, ?_⟩
            rw [hnew, Mem.page_setPage_self, hpageu, hcontents]
          · rw [hst.user w (by omega) (by simp; omega)]
            exact hcopy.copied w hwv
        · rw [hst.user w hwu (by simp; omega)]
          exact hcopy.rest w hwu (by omega)
      · -- no memory for a page table
        rw [if_pos (by decide)]
        have hshort := hw.length_le (n := npages sz) (fun w hwu hp => ?_) (h₀.nodup.erase f)
          fun g hg => ?_
        · rw [hfree, List.length_nil] at hshort
          have hlen := List.le_length_erase (a := f) (l := s₀.free)
          refine (hw.kfree_kept hf ha).bind fun _ x hx => ?_
          exact hx.1.freevm_spec.bind fun _ y hy =>
            ⟨fun g hg => ((hy.2 g hg).trans ((hsw.trans hx.2).other g hg)).trans (hpage g hg), hy.1,
              by omega⟩
        · rw [present_iff_userPage, hsw.user w hwu (Set.notMem_empty w)] at hp
          exact hcount rfl w hwu (present_iff_userPage.mpr hp)
        · obtain ⟨hne, hg⟩ := (h₀.nodup.mem_erase_iff).mp hg
          exact ⟨(hmem g hg).1, fun hc => hc.elim hne (hmem g hg).2⟩

/-- `copyuvm` copies the pages of a process whose pages are all mapped; or it leaves no trace, for
want of pages. -/
theorem Space.copyuvm_spec {im : Image} {others : Set ℕ} {s : Mem} {d sz : ℕ}
    (h : Space im others s d) (hsz : sz ≤ KERNBASE)
    (hmapped : ∀ v < npages sz, Present (s.pte d v)) :
    Wp (copyuvm im d sz) s
      (fun r t => (∀ g ∈ others ∪ frames s d, t.page g = s.page g) ∧
        match r with
        | some d' => Space im (others ∪ frames s d) t d' ∧ CopyOf s d (npages sz) t d'
        | none => AllFree im (others ∪ frames s d) t ∧ s.free.length ≤ 2 + NPDENTRIES + npages sz)
      fun _ => False := by
  unfold copyuvm
  refine h.allFree.setupkvm_spec.bind fun r u ⟨hother, hu⟩ => ?_
  cases r with
  | none => exact ⟨hother, hu.1, by have := hu.2; omega⟩
  | some d' =>
    obtain ⟨hu, hnone, -⟩ := hu
    have hloop := h.copyLoop_spec hsz hmapped (2 ^ 20 + 1) (v := 0) hu hother
      ⟨fun w hw => absurd hw (Nat.not_lt_zero w), fun w hw _ => hnone w hw⟩ (by decide)
      (Nat.zero_le _)
    rw [Nat.zero_mul] at hloop
    refine hloop.post fun r t ⟨hother, ht⟩ => ⟨hother, ?_⟩
    cases r with
    | none => exact ht
    | some x =>
      obtain ⟨rfl, ht⟩ := ht
      exact ht

end Xv6.Vm
