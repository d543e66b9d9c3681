import Mathlib.Algebra.Order.Interval.Finset.SuccPred
import Mathlib.Data.Nat.SuccPred
import Mathlib.Order.Interval.Finset.Nat
import Xv6.Vm.Dealloc

/-!
# User memory

`mappages` for one page, `allocuvm` and `deallocuvm`, on an address space whose frames are its
own. Each of them changes the pages that it is about and leaves the rest of the address space,
and every page in use elsewhere, as it was; whatever `kalloc` returns, an `allocuvm` that fails
changes no user page at all.
-/

namespace Xv6.Vm

open Lib

/-! ### What an operation leaves as it is -/

/-- Apart from the pages in `changed`, the address space of `d` is as it was, and so are the
pages in use elsewhere. -/
structure Kept (others : Set ℕ) (d : ℕ) (changed : Set ℕ) (s t : Mem) : Prop where
  user : ∀ v < NUSER, v ∉ changed → t.userPage d v = s.userPage d v
  kernel : ∀ v < NPAGES, NUSER ≤ v → v ∉ changed → t.pte d v = s.pte d v
  other : ∀ f ∈ others, t.page f = s.page f

namespace Kept

variable {others : Set ℕ} {d : ℕ} {changed changed' : Set ℕ} {s t u : Mem}

theorem refl (others : Set ℕ) (d : ℕ) (changed : Set ℕ) (s : Mem) : Kept others d changed s s :=
  ⟨fun _ _ _ => rfl, fun _ _ _ _ => rfl, fun _ _ => rfl⟩

theorem trans (h : Kept others d changed s t) (h' : Kept others d changed t u) :
    Kept others d changed s u :=
  ⟨fun v hv hc => (h'.user v hv hc).trans (h.user v hv hc),
    fun v hv hk hc => (h'.kernel v hv hk hc).trans (h.kernel v hv hk hc),
    fun f hf => (h'.other f hf).trans (h.other f hf)⟩

theorem mono {others' : Set ℕ} (h : Kept others d changed s t) (hc : changed ⊆ changed')
    (ho : others' ⊆ others) : Kept others' d changed' s t :=
  ⟨fun v hv hv' => h.user v hv fun hmem => hv' (hc hmem),
    fun v hv hk hv' => h.kernel v hv hk fun hmem => hv' (hc hmem), fun f hf => h.other f (ho hf)⟩

end Kept

/-- Whether a user page is mapped can be seen from its contents. -/
theorem present_iff_userPage {s : Mem} {d v : ℕ} :
    Present (s.pte d v) ↔ s.userPage d v ≠ none := by
  unfold Mem.userPage
  split_ifs with hp
  · simp [hp]
  · simp [hp]

theorem pte_of_userPage {s : Mem} {d v e : ℕ} {b : Bytes PGSIZE}
    (h : s.userPage d v = some (e, b)) :
    s.pte d v = e := by
  unfold Mem.userPage at h
  split_ifs at h
  exact congrArg Prod.fst (Option.some.inj h)

theorem kept_of_page {s t : Mem} (hpage : t.page = s.page) (others changed : Set ℕ) (d : ℕ) :
    Kept others d changed s t := by
  have hpte : ∀ v < NPAGES, t.pte d v = s.pte d v := fun v hv =>
    pte_congr (fun _ _ => Mem.word_congr (by rw [hpage])) (fun _ _ _ => by rw [hpage]) hv
  refine ⟨fun v hv _ => ?_, fun v hv _ _ => hpte v hv, fun f _ => by rw [hpage]⟩
  exact userPage_congr (hpte v (hv.trans_le NUSER_le)) fun _ => by rw [hpage]

/-- The new pages of a process: writeable, for the user, and zero. -/
def NewPage (x : Option (ℕ × Bytes PGSIZE)) : Prop :=
  ∃ f, x = some (f * PGSIZE ||| (PTE_W ||| PTE_U ||| PTE_P), Bytes.zero PGSIZE)

/-- The page directory has a page table for page `v` now. If it had none, a free page is gone. -/
structure Tabled (d v : ℕ) (s t : Mem) : Prop where
  table : Present (t.word d (v / 1024))
  same : Present (s.word d (v / 1024)) → t.word d (v / 1024) = s.word d (v / 1024)
  fresh : ¬ Present (s.word d (v / 1024)) → t.word d (v / 1024) &&& PTE_W ≠ 0
  words : ∀ i < NPDENTRIES, i ≠ v / 1024 → t.word d i = s.word d i
  free : ∀ f ∈ t.free, f ∈ s.free
  length : t.free.length + (if Present (s.word d (v / 1024)) then 0 else 1) = s.free.length

theorem Tabled.congr {d v : ℕ} {s t u : Mem} (h : Tabled d v s t)
    (hw : ∀ i < NPDENTRIES, u.word d i = t.word d i) (hfree : u.free = t.free)
    (hv : v / 1024 < NPDENTRIES) : Tabled d v s u where
  table := (hw _ hv).symm ▸ h.table
  same := fun hp => (hw _ hv).trans (h.same hp)
  fresh := (hw _ hv).symm ▸ h.fresh
  words := fun i hi hne => (hw i hi).trans (h.words i hi hne)
  free := hfree.symm ▸ h.free
  length := hfree.symm ▸ h.length

/-! ### The free pages that are needed -/

/-- The page tables that are missing for the pages from `v` on up to `n`. -/
def missing (s : Mem) (d v n : ℕ) : Finset ℕ :=
  ((Finset.Ico v n).image (· / 1024)).filter fun i => ¬ Present (s.word d i)

/-- The free pages that `allocuvm` needs for the pages from `v` on up to `n`: one for each of them,
and one for each page table that is missing. -/
def need (s : Mem) (d v n : ℕ) : ℕ := (n - v) + (missing s d v n).card

section Need

variable {s t : Mem} {d v n i : ℕ}

theorem mem_missing : i ∈ missing s d v n ↔
    i ∈ (Finset.Ico v n).image (· / 1024) ∧ ¬ Present (s.word d i) := Finset.mem_filter

theorem lt_of_mem_image (hn : n ≤ NPAGES) (hi : i ∈ (Finset.Ico v n).image (· / 1024)) :
    i < NPDENTRIES := by
  obtain ⟨w, hw, rfl⟩ := Finset.mem_image.mp hi
  exact div_lt ((Finset.mem_Ico.mp hw).2.trans_le hn)

theorem need_congr (hn : n ≤ NPAGES) (hw : ∀ i < NPDENTRIES, t.word d i = s.word d i) :
    need t d v n = need s d v n := by
  have hmissing : missing t d v n = missing s d v n := by
    ext i
    rw [mem_missing, mem_missing]
    exact and_congr_right fun hi => by rw [hw i (lt_of_mem_image hn hi)]
  rw [need, need, hmissing]

theorem need_le (s : Mem) (d v n : ℕ) : need s d v n ≤ 2 * (n - v) := by
  have hcard : (missing s d v n).card ≤ n - v :=
    (Finset.card_filter_le ..).trans (Finset.card_image_le.trans_eq (Nat.card_Ico v n))
  unfold need
  omega

theorem need_self (s : Mem) (d : ℕ) (h : n ≤ v) : need s d v n = 0 := by
  rw [need, missing, Nat.sub_eq_zero_of_le h, Finset.Ico_eq_empty (by omega)]
  rfl

/-- With each page the need becomes less by what was taken. -/
theorem need_succ (hv : v < n) (hn : n ≤ NPAGES) (h : Tabled d v s t) :
    need s d v n = need t d (v + 1) n + 1 + if Present (s.word d (v / 1024)) then 0 else 1 := by
  have hpages : (Finset.Ico v n).image (· / 1024) =
      insert (v / 1024) ((Finset.Ico (v + 1) n).image (· / 1024)) := by
    rw [← Finset.insert_Ico_add_one_left_eq_Ico hv, Finset.image_insert]
  -- the tables that are missing afterwards
  have hmissing : missing t d (v + 1) n = (missing s d v n).erase (v / 1024) := by
    ext i
    rw [Finset.mem_erase, mem_missing, mem_missing, hpages, Finset.mem_insert]
    by_cases hi : i = v / 1024
    · subst hi
      simp [h.table]
    · simp only [hi, false_or, ne_eq, not_false_eq_true, true_and]
      exact and_congr_right fun hmem => by rw [h.words i (lt_of_mem_image hn hmem) hi]
  unfold need
  rw [hmissing]
  split_ifs with hp
  · rw [Finset.erase_eq_of_notMem fun hc => (mem_missing.mp hc).2 hp]
    omega
  · have hmem : v / 1024 ∈ missing s d v n :=
      mem_missing.mpr ⟨hpages ▸ Finset.mem_insert_self .., hp⟩
    have := Finset.card_erase_add_one hmem
    omega

end Need

namespace Space

variable {im : Image} {others : Set ℕ} {s t : Mem} {d f i j v : ℕ}

/-- A page table may change where its entries stay, and so may pages that are nobody's. -/
theorem kept {o o' changed : Set ℕ} (h : Space im o s d) (h' : Space im o' t d)
    (ho : others ⊆ o) (ho' : others ⊆ o')
    (hpte : ∀ v < NPAGES, v ∉ changed → t.pte d v = s.pte d v)
    (hpage : ∀ g, g ≠ d → (∀ i < NPDENTRIES, Present (t.word d i) → g ≠ frame (t.word d i)) →
      (∀ v ∈ changed, v < NUSER → Present (s.pte d v) → g ≠ frame (s.pte d v)) → g ∉ s.free →
        t.page g = s.page g) :
    Kept others d changed s t := by
  refine ⟨fun v hv hvc => ?_, fun v hv _ hvc => hpte v hv hvc, fun g hg => ?_⟩
  · have heq := hpte v (hv.trans_le NUSER_le) hvc
    refine userPage_congr heq fun hp => ?_
    have hp' : Present (t.pte d v) := heq ▸ hp
    refine hpage _ (h.user_ne_dir hv hp) (fun i hi hpi => heq ▸ h'.user_ne_table hv hp' hi hpi)
      (fun w hw hwu hpw hfw => ?_) (h.user_not_mem_free hv hp)
    exact hvc (h.user_inj hv hwu hp hpw hfw ▸ hw)
  · refine hpage g ?_ (fun i hi hpi => ?_) (fun v _ hv hp => ?_) fun hmem =>
      (h.free g hmem).2 (ho hg)
    · rintro rfl
      exact h.dir_not_mem_others (ho hg)
    · rintro rfl
      exact h'.table_not_mem_others hi hpi (ho' hg)
    · rintro rfl
      exact h.user_not_mem_others hv hp (ho hg)

/-- `walkpgdir` with allocation: at most there is an empty page table more. -/
theorem walkpgdir_spec (h : Space im others s d) (hv : v < NPAGES) :
    Wp (walkpgdir d (v * PGSIZE) true) s
      (fun r t => Space im others t d ∧ (∀ w < NPAGES, t.pte d w = s.pte d w) ∧
        Kept others d ∅ s t ∧ match r with
          | none => t = s ∧ s.free = [] ∧ ¬ Present (s.word d (v / 1024))
          | some x => x = (frame (t.word d (v / 1024)), v % 1024) ∧ Tabled d v s t)
      fun _ => False := by
  unfold walkpgdir
  rw [Wp.bind_iff, Wp.get_iff, PDX_page hv, PTX_page]
  dsimp only
  -- the page table is there, or one is made
  by_cases hp : s.word d (v / 1024) &&& PTE_P ≠ 0
  · rw [if_pos hp]
    refine ⟨h, fun _ _ => rfl, .refl .., rfl, hp, fun _ => rfl, fun hc => absurd hp hc,
      fun _ _ _ => rfl, fun _ hf => hf, ?_⟩
    rw [if_pos (show Present _ from hp), Nat.add_zero]
  · rw [if_neg hp, if_neg (by decide)]
    refine h.kalloc_spec.bind fun r u hr => ?_
    cases r with
    | none =>
      obtain ⟨rfl, hfree⟩ := hr
      exact ⟨h, fun _ _ => rfl, .refl .., rfl, hfree, hp⟩
    | some f =>
      obtain ⟨hu, hf, ha, hfree, hpage⟩ := hr
      simp only [Wp.bind_iff, Wp.modify_iff, Wp.pure_iff]
      have hword : ∀ i, u.word d i = s.word d i := fun i => Mem.word_congr (by rw [hpage])
      obtain ⟨ht, hpte, hpresent, hentry⟩ := hu.newTable hf ha (div_lt hv) (hword _ ▸ hp) rfl
      have hpte' : ∀ w < NPAGES, u.pte d w = s.pte d w := fun w hw =>
        pte_congr (fun i _ => hword i) (fun i _ _ => by rw [hpage]) hw
      have hfd : f ≠ d := by
        rintro rfl
        exact hu.dir_not_mem_others (Set.mem_insert _ _)
      refine ⟨ht, fun w hw => (hpte w hw).trans (hpte' w hw), ?_, ?_, hpresent,
        fun hc => absurd hc hp, fun _ => ?_, fun i _ hi => ?_, fun g hg => ?_, ?_⟩
      · refine h.kept ht subset_rfl subset_rfl (fun w hw _ => (hpte w hw).trans (hpte' w hw))
          fun g hgd _ _ hgf => ?_
        have hne : g ≠ f := by
          rintro rfl
          exact hgf (hfree ▸ List.mem_cons_self)
        rw [Mem.page_setWord_of_ne hgd, Mem.page_setPage_of_ne hne, hpage]
      · rw [hentry, frame_entry (by decide)]
      · rw [hentry, entry_and (by decide)]
        decide
      · rw [Mem.word_setWord_of_ne (.inr hi), ← hword i]
        exact Mem.word_congr (Mem.page_setPage_of_ne hfd.symm)
      · exact hfree ▸ List.mem_cons_of_mem f hg
      · rw [if_neg (show ¬ Present _ from hp), hfree]
        rfl

/-- One page of user memory is mapped to a page that was in use elsewhere. -/
theorem mappages_spec (h : Space im (insert f others) s d) (hf : f ∉ others) (ha : im.Avail f)
    (hv : v < NUSER) (hnot : s.userPage d v = none) {perm : ℕ} (hperm : perm < PGSIZE) :
    Wp (mappages d (v * PGSIZE) PGSIZE (f * PGSIZE) perm) s
      (fun r t =>
        r = 0 ∧ Space im others t d ∧ Kept others d {v} s t ∧ Tabled d v s t ∧
            t.userPage d v = some (f * PGSIZE ||| (perm ||| PTE_P), s.page f) ∨
          r = -1 ∧ t = s ∧ s.free = [] ∧ ¬ Present (s.word d (v / 1024)))
      fun _ => False := by
  have hv' := hv.trans_le NUSER_le
  -- `last` is the page of the only address, so that the loop ends after one pass
  have hlast : PGROUNDDOWN ((v * PGSIZE + PGSIZE + (2 ^ 32 - 1)) % 2 ^ 32) = v * PGSIZE := by
    unfold NPAGES at hv'
    unfold PGROUNDDOWN PGSIZE
    omega
  have hfirst : PGROUNDDOWN (v * PGSIZE) = v * PGSIZE := by
    unfold PGROUNDDOWN PGSIZE
    omega
  rw [mappages, hlast, hfirst, show 2 ^ 20 = 1048575 + 1 by rfl, mapLoop]
  refine (h.walkpgdir_spec hv').bind fun r u hr => ?_
  obtain ⟨hu, hpte, hkept, hr⟩ := hr
  cases r with
  | none => exact .inr ⟨rfl, hr⟩
  | some x =>
    obtain ⟨rfl, htabled⟩ := hr
    have hp := htabled.table
    have hnot' : ¬ Present (u.pte d v) := by
      rw [hpte v hv', present_iff_userPage]
      exact fun hne => hne hnot
    have hentry : u.word (frame (u.word d (v / 1024))) (v % 1024) = u.pte d v :=
      (if_pos hp).symm
    simp only [Wp.bind_iff, Wp.get_iff, hentry]
    rw [if_neg (show ¬ (u.pte d v &&& PTE_P ≠ 0) from hnot')]
    simp only [Wp.bind_iff, Wp.modify_iff, if_true, Wp.pure_iff]
    obtain ⟨ht, hpv, hptew⟩ := hu.map hf ha hv hp hnot' hperm rfl
    have hmem := Set.mem_insert f others
    have hsub := Set.subset_insert f others
    have hw := (hu.tables.pte_setWord hv' hp (f * PGSIZE ||| perm ||| PTE_P) rfl).1
    refine .inl ⟨trivial, ht, ?_, htabled.congr hw rfl (div_lt hv'), ?_⟩
    · refine (hkept.mono (Set.empty_subset _) hsub).trans (hu.kept ht hsub subset_rfl
        (fun w hw hwv => hptew w hw hwv) fun g _ htab _ _ => ?_)
      have hg := htab _ (div_lt hv') (by rwa [hw _ (div_lt hv')])
      rw [hw _ (div_lt hv')] at hg
      exact Mem.page_setWord_of_ne hg
    · have hne : f ≠ frame (u.word d (v / 1024)) := by
        intro heq
        exact hu.table_not_mem_others (div_lt hv') hp (heq ▸ hmem)
      rw [Mem.userPage, hpv, if_pos (present_entry _ _), frame_entry (perm_lt hperm),
        Mem.page_setWord_of_ne hne, hkept.other f hmem]

/-- What `deallocuvm` does to one page that is mapped. -/
theorem unmap_kept (h : Space im others s d) (hv : v < NUSER) (hp : Present (s.pte d v))
    {b : Bytes PGSIZE}
    (ht : t = Mem.setWord { s.setPage (frame (s.pte d v)) b with
      free := frame (s.pte d v) :: s.free } (frame (s.word d (v / 1024))) (v % 1024) 0) :
    Space im others t d ∧ Kept others d {v} s t ∧ t.userPage d v = none := by
  obtain ⟨hspace, hpv, hpte⟩ := h.unmap hv hp ht
  refine ⟨hspace, ?_, ?_⟩
  · refine h.kept hspace subset_rfl subset_rfl (fun w hw hwv => hpte w hw hwv)
      fun g _ htab hch _ => ?_
    have hi := div_lt (hv.trans_le NUSER_le)
    have hword : t.word d (v / 1024) = s.word d (v / 1024) := by
      rw [ht, Mem.word_setWord_of_ne (.inl (h.table_ne_dir hi (present_table hp)).symm)]
      exact Mem.word_congr (Mem.page_setPage_of_ne (h.user_ne_dir hv hp).symm)
    have hg := htab _ hi (hword ▸ present_table hp)
    rw [ht, Mem.page_setWord_of_ne (hword ▸ hg)]
    exact Mem.page_setPage_of_ne (hch v rfl hv hp)
  · rw [Mem.userPage, hpv, if_neg not_present_zero]

/-- Freeing one page. -/
theorem freePage_spec (h : Space im others s d) (hv : v < NUSER) :
    Wp (freePage im d v) s
      (fun _ t => Space im others t d ∧ Kept others d {v} s t ∧ t.userPage d v = none)
      fun _ => False := by
  unfold freePage
  rw [Wp.bind_iff, Wp.of_eq (walkpgdir_page s d (hv.trans_le NUSER_le))]
  by_cases htable : Present (s.word d (v / 1024))
  swap
  · rw [if_neg htable]
    exact ⟨h, .refl .., if_neg fun hp => htable (present_table hp)⟩
  have hentry : s.word (frame (s.word d (v / 1024))) (v % 1024) = s.pte d v := (if_pos htable).symm
  rw [if_pos htable, Wp.bind_iff, Wp.get_iff, hentry]
  dsimp only
  by_cases hp : s.pte d v &&& PTE_P ≠ 0
  · rw [if_pos hp, if_neg (h.user v hv hp), Wp.bind_iff, Wp.of_eq (kfree_eq (h.user_avail hv hp) s),
      Wp.modify_iff]
    exact h.unmap_kept hv hp rfl
  · rw [if_neg hp]
    exact ⟨h, .refl .., if_neg hp⟩

/-- Freeing some pages. -/
theorem freePages_spec {l : List ℕ} (h : Space im others s d) (hl : ∀ v ∈ l, v < NUSER) :
    Wp (l.forM (freePage im d)) s
      (fun _ t => Space im others t d ∧ Kept others d {w | w ∈ l} s t ∧
        ∀ w ∈ l, t.userPage d w = none)
      fun _ => False := by
  induction l generalizing s with
  | nil => exact ⟨h, .refl .., by simp⟩
  | cons v l ih =>
    obtain ⟨hv, hl⟩ := List.forall_mem_cons.mp hl
    rw [List.forM]
    refine (h.freePage_spec hv).bind ?_
    rintro - t ⟨ht, hkept, hnone⟩
    refine (ih ht hl).post ?_
    rintro - u ⟨hu, hkept', hnone'⟩
    refine ⟨hu, ?_, fun w hw => ?_⟩
    · exact (hkept.mono (by simp) subset_rfl).trans
        (hkept'.mono (fun w hw => List.mem_cons_of_mem v hw) subset_rfl)
    · by_cases hwl : w ∈ l
      · exact hnone' w hwl
      · obtain rfl : w = v := (List.mem_cons.mp hw).resolve_right hwl
        rw [hkept'.user w hv hwl, hnone]

/-- `deallocuvm` unmaps the pages between the two sizes. -/
theorem deallocuvm_spec {oldsz newsz : ℕ} (h : Space im others s d) (hold : oldsz ≤ KERNBASE)
    (hlt : newsz < oldsz) :
    Wp (deallocuvm im d oldsz newsz) s
      (fun r t => r = newsz ∧ Space im others t d ∧
        Kept others d {w | npages newsz ≤ w ∧ w < npages oldsz} s t ∧
          ∀ w < NUSER, npages newsz ≤ w → w < npages oldsz → t.userPage d w = none)
      fun _ => False := by
  have hmem : ∀ {v}, v ∈ pagesBetween newsz oldsz ↔ npages newsz ≤ v ∧ v < npages oldsz :=
    mem_pagesBetween hold hlt.le
  have hpages : ∀ v ∈ pagesBetween newsz oldsz, v < NUSER := fun v hv =>
    (hmem.mp hv).2.trans_le (npages_le hold)
  unfold Wp
  rw [deallocuvm_eq im d hold hlt s]
  refine (h.freePages_spec hpages).bind fun _ t ⟨ht, hkept, hnone⟩ => ?_
  simp only [hmem] at hkept
  exact ⟨rfl, ht, hkept, fun w _ hle hlt' => hnone w (hmem.mpr ⟨hle, hlt'⟩)⟩

/-! ### Pages that are being set up -/

/-- The contents of a page in use elsewhere do not matter. -/
theorem setPage_kept (h : Space im (insert f others) s d) (hf : f ∉ others) (b : Bytes PGSIZE) :
    Space im (insert f others) (s.setPage f b) d ∧ Kept others d ∅ s (s.setPage f b) := by
  have hmem := Set.mem_insert f others
  obtain ⟨h', hpte⟩ := h.setPage_other (b := b) hmem
  refine ⟨h', fun v hv _ => ?_, fun v hv _ _ => hpte v hv, fun g hg => ?_⟩
  · refine userPage_congr (hpte v (hv.trans_le NUSER_le)) fun hp => ?_
    refine Mem.page_setPage_of_ne ?_
    rintro rfl
    exact h.user_not_mem_others hv hp hmem
  · refine Mem.page_setPage_of_ne ?_
    rintro rfl
    exact hf hg

/-- A page that was set up for nothing is freed. -/
theorem kfree_kept (h : Space im (insert f others) s d) (hf : f ∉ others) (ha : im.Avail f) :
    Wp (kfree im f) s (fun _ t => Space im others t d ∧ Kept others d ∅ s t) fun _ => False := by
  rw [Wp.of_eq (kfree_eq ha s)]
  obtain ⟨-, hkept⟩ := h.setPage_kept hf fun _ => 1
  exact ⟨(h.kfree_other hf ha).1, hkept.user, hkept.kernel, hkept.other⟩

/-- `deallocuvm` after a failure: what was there before is left. -/
theorem undo_spec {s₀ : Mem} {oldsz newsz : ℕ} {o : Set ℕ} (h : Space im o s d)
    (hnew : newsz < KERNBASE) (hlt : oldsz < newsz) (ho : others ⊆ o)
    (hnone₀ : ∀ w < NUSER, npages oldsz ≤ w → s₀.userPage d w = none)
    (hkept : Kept others d {w | npages oldsz ≤ w ∧ w < npages newsz} s₀ s) :
    Wp (deallocuvm im d newsz oldsz) s
      (fun _ t => Space im o t d ∧ Kept others d ∅ s₀ t ∧ ∀ f ∈ o, t.page f = s.page f)
      fun _ => False := by
  refine (h.deallocuvm_spec hnew.le hlt).post fun _ t ⟨_, ht, hkept', hnone⟩ => ⟨ht, ?_, ?_⟩
  · have hall := hkept.trans (hkept'.mono subset_rfl ho)
    have hle := npages_le hnew.le
    refine ⟨fun w hw _ => ?_, fun w hw hk _ => hall.kernel w hw hk fun hmem => ?_, hall.other⟩
    swap
    · exact absurd hmem.2 (by omega)
    by_cases hmem : w ∈ {w | npages oldsz ≤ w ∧ w < npages newsz}
    · rw [hnone w hw hmem.1 hmem.2, hnone₀ w hw hmem.1]
    · exact hall.user w hw hmem
  · exact hkept'.other

/-- The loop of `allocuvm` at page `v`, when it began in `s₀`. -/
theorem allocLoop_spec {s₀ : Mem} {oldsz newsz : ℕ} (hnew : newsz < KERNBASE)
    (hle : oldsz ≤ newsz) (hnone₀ : ∀ w < NUSER, npages oldsz ≤ w → s₀.userPage d w = none)
    (n : ℕ) (h : Space im others s d) (hv₀ : npages oldsz ≤ v) (hn : NUSER < v + n)
    (hv : v ≤ npages newsz) (hfree : ∀ f ∈ s.free, f ∈ s₀.free)
    (hkept : Kept others d {w | npages oldsz ≤ w ∧ w < npages newsz} s₀ s)
    (hpages : ∀ w < NUSER, npages oldsz ≤ w → w < v →
      NewPage (s.userPage d w) ∧ frame (s.pte d w) ∈ s₀.free)
    (hnone : ∀ w < NUSER, v ≤ w → s.userPage d w = none) :
    Wp (allocLoop im d oldsz newsz n (v * PGSIZE)) s
      (fun r t => Space im others t d ∧
        (r = newsz ∧ need s d v (npages newsz) ≤ s.free.length ∧
            Kept others d {w | npages oldsz ≤ w ∧ w < npages newsz} s₀ t ∧
            (∀ w < NUSER, npages oldsz ≤ w → w < npages newsz →
              NewPage (t.userPage d w) ∧ frame (t.pte d w) ∈ s₀.free) ∨
          r = 0 ∧ s.free.length < need s d v (npages newsz) ∧ Kept others d ∅ s₀ t))
      fun _ => False := by
  induction n generalizing v s with
  | zero =>
    have := npages_le hnew.le
    omega
  | succ n ih =>
    unfold allocLoop
    split_ifs with hlt
    swap
    · rw [← lt_npages_iff hnew.le] at hlt
      refine ⟨h, .inl ⟨rfl, ?_, hkept, fun w hw hw₀ hwn => hpages w hw hw₀ (by omega)⟩⟩
      rw [need_self s d (by omega)]
      exact Nat.zero_le _
    have hvn := (lt_npages_iff hnew.le).mpr hlt
    have hnle := npages_le hnew.le
    have hvu : v < NUSER := hvn.trans_le hnle
    have hlt' : oldsz < newsz := by
      have hole : oldsz ≤ npages oldsz * PGSIZE := by
        by_contra hcon
        exact absurd ((lt_npages_iff (hle.trans hnew.le)).mpr (Nat.lt_of_not_le hcon))
          (Nat.lt_irrefl _)
      have := Nat.mul_le_mul_right PGSIZE hv₀
      omega
    -- a page for the contents, then its entry; each may fail for want of memory
    refine h.kalloc_spec.bind fun r u hr => ?_
    cases r with
    | none =>
      obtain ⟨rfl, hempty⟩ := hr
      refine (h.undo_spec hnew hlt' subset_rfl hnone₀ hkept).bind fun _ t ⟨ht, hkept', _⟩ => ?_
      refine ⟨ht, .inr ⟨rfl, ?_, hkept'⟩⟩
      rw [hempty, need, List.length_nil]
      omega
    | some f =>
      obtain ⟨hu, hf, ha, hfirst, hpage⟩ := hr
      rw [Wp.bind_iff, Wp.modify_iff, next_page hvu]
      obtain ⟨hw, hkw⟩ := hu.setPage_kept hf (Bytes.zero PGSIZE)
      have hsw : Kept others d ∅ s (u.setPage f (Bytes.zero PGSIZE)) :=
        (kept_of_page hpage ..).trans hkw
      have hnone' := (hsw.user v hvu (Set.notMem_empty v)).trans (hnone v hvu le_rfl)
      have hperm : PTE_W ||| PTE_U < PGSIZE := by decide
      have hword : ∀ i, (u.setPage f (Bytes.zero PGSIZE)).word d i = s.word d i := fun i => by
        have hfd : d ≠ f := by
          rintro rfl
          exact hu.dir_not_mem_others (Set.mem_insert _ _)
        rw [Mem.word_congr (Mem.page_setPage_of_ne hfd)]
        exact Mem.word_congr (by rw [hpage])
      have hneed := need_congr (v := v) (hnle.trans NUSER_le) fun i (_ : i < NPDENTRIES) => hword i
      have hlength : s.free.length = (u.setPage f (Bytes.zero PGSIZE)).free.length + 1 := by
        rw [hfirst]
        rfl
      refine (hw.mappages_spec hf ha hvu hnone' hperm).bind fun r t hr => ?_
      rcases hr with ⟨rfl, ht, hkt, htabled, hnew'⟩ | ⟨rfl, rfl, hempty, htable⟩
      · -- one page more
        have hst : Kept others d {v} s t := (hsw.mono (Set.empty_subset _) subset_rfl).trans hkt
        have hneed' := need_succ hvn (hnle.trans NUSER_le) htabled
        have hlength' := htabled.length
        rw [if_neg (by decide)]
        refine (ih (v := v + 1) ht (by omega) (by omega) hvn (fun g hg => ?_)
          ?_ (fun w hwu hw₀ hwv => ?_)
          fun w hwu hwv => ?_).post fun r x ⟨hx, hr⟩ => ⟨hx, ?_⟩
        · exact hfree g (hfirst ▸ List.mem_cons_of_mem f (htabled.free g hg))
        · exact hkept.trans (hst.mono (Set.singleton_subset_iff.mpr ⟨hv₀, hvn⟩) subset_rfl)
        · rcases Nat.eq_or_lt_of_le (Nat.le_of_lt_succ hwv) with rfl | hwv
          · refine ⟨⟨f, by rw [hnew', Mem.page_setPage_self]⟩, ?_⟩
            rw [pte_of_userPage hnew', frame_entry (by decide)]
            exact hfree f (hfirst ▸ List.mem_cons_self)
          · have hsame := hst.user w hwu (by simp; omega)
            obtain ⟨hpage', hfrom⟩ := hpages w hwu hw₀ hwv
            obtain ⟨g, hg⟩ := hpage'
            rw [pte_of_userPage hg] at hfrom
            rw [hsame, pte_of_userPage (hsame.trans hg)]
            exact ⟨⟨g, hg⟩, hfrom⟩
        · rw [hst.user w hwu (by simp; omega)]
          exact hnone w hwu (by omega)
        · exact hr.imp (fun ⟨hr, hle, hrest⟩ => ⟨hr, by omega, hrest⟩)
            fun ⟨hr, hlt, hrest⟩ => ⟨hr, by omega, hrest⟩
      · -- no memory for a page table
        rw [if_pos (by decide)]
        refine (hw.undo_spec hnew hlt' (Set.subset_insert ..) hnone₀
          (hkept.trans (hsw.mono (Set.empty_subset _) subset_rfl))).bind fun _ x ⟨hx, hkx, _⟩ => ?_
        refine (hx.kfree_kept hf ha).bind fun _ y ⟨hy, hky⟩ => ?_
        refine ⟨hy, .inr ⟨rfl, ?_, hkx.trans hky⟩⟩
        have hmem : v / 1024 ∈ missing (u.setPage f (Bytes.zero PGSIZE)) d v (npages newsz) :=
          mem_missing.mpr ⟨Finset.mem_image_of_mem _ (Finset.mem_Ico.mpr ⟨le_rfl, hvn⟩), htable⟩
        have hcard := Finset.card_pos.mpr ⟨_, hmem⟩
        rw [← hneed, hlength, hempty, List.length_nil, need]
        omega

/-- `allocuvm` gives the process new pages up to the new size, or leaves it as it was. -/
theorem allocuvm_spec {oldsz newsz : ℕ} (h : Space im others s d) (hle : oldsz ≤ newsz)
    (hnone : ∀ w < NUSER, npages oldsz ≤ w → s.userPage d w = none) :
    Wp (allocuvm im d oldsz newsz) s
      (fun r t => Space im others t d ∧
        (r = newsz ∧ newsz < KERNBASE ∧
            need s d (npages oldsz) (npages newsz) ≤ s.free.length ∧
            Kept others d {w | npages oldsz ≤ w ∧ w < npages newsz} s t ∧
            (∀ w < NUSER, npages oldsz ≤ w → w < npages newsz →
              NewPage (t.userPage d w) ∧ frame (t.pte d w) ∈ s.free) ∨
          r = 0 ∧ (newsz < KERNBASE → s.free.length < need s d (npages oldsz) (npages newsz)) ∧
            Kept others d ∅ s t))
      fun _ => False := by
  unfold allocuvm
  split_ifs with hbig hsmall
  · exact ⟨h, .inr ⟨rfl, fun hc => absurd hc (by omega), .refl ..⟩⟩
  · omega
  · have hnew : newsz < KERNBASE := Nat.lt_of_not_le hbig
    have hrounds : NUSER < npages oldsz + (2 ^ 20 + 1) := by
      unfold NUSER KERNBASE PGSIZE
      omega
    rw [PGROUNDUP_eq]
    refine (h.allocLoop_spec hnew hle hnone _ le_rfl hrounds (npages_mono hle hnew.le)
      (fun _ hf => hf) (.refl ..) (fun w _ hw₀ hwv => absurd hwv (by omega)) hnone).post
      fun r t ⟨ht, hr⟩ => ⟨ht, ?_⟩
    rcases hr with ⟨hr, hk⟩ | ⟨hr, hneed, hk⟩
    · exact .inl ⟨hr, hnew, hk⟩
    · exact .inr ⟨hr, fun _ => hneed, hk⟩

end Space

end Xv6.Vm
