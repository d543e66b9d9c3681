import Mathlib.Data.List.Range
import Xv6.Vm.Space

/-!
# Unmapping pages

`deallocuvm` goes from page to page, and where the page directory has no page table it goes on at
the next 4 MB boundary. The pages that it passes over in this way are not mapped, so that the loop
does what a loop over all pages would do, on every memory whatsoever: also on one in which a page
that is freed is itself a page table.
-/

namespace Xv6.Vm

open Lib

/-! ### Page numbers and sizes -/

section Pages

variable {v : ℕ}

theorem PDX_page (hv : v < NPAGES) : PDX (v * PGSIZE) = v / 1024 := by
  unfold NPAGES at hv
  unfold PDX PGSIZE
  omega

theorem PTX_page (v : ℕ) : PTX (v * PGSIZE) = v % 1024 := by
  unfold PTX PGSIZE
  omega

theorem next_page (hv : v < NUSER) : (v * PGSIZE + PGSIZE) % 2 ^ 32 = (v + 1) * PGSIZE := by
  unfold NUSER KERNBASE PGSIZE at *
  omega

/-- Where `deallocuvm` goes on when there is no page table: at the next one. -/
theorem next_table (hv : v < NUSER) :
    ((PGADDR (PDX (v * PGSIZE) + 1) 0 0 + (2 ^ 32 - PGSIZE)) % 2 ^ 32 + PGSIZE) % 2 ^ 32 =
      (v / 1024 + 1) * 1024 * PGSIZE := by
  rw [PDX_page (hv.trans_le NUSER_le), PGADDR, Nat.shiftLeft_eq, Nat.zero_shiftLeft, Nat.or_zero,
    Nat.or_zero]
  unfold NUSER KERNBASE PGSIZE at *
  omega

/-- The number of pages of a process of size `sz`. -/
def npages (sz : ℕ) : ℕ := PGROUNDUP sz / PGSIZE

theorem PGROUNDUP_eq (sz : ℕ) : PGROUNDUP sz = npages sz * PGSIZE := by
  unfold npages PGROUNDUP PGSIZE
  omega

theorem lt_npages_iff {sz : ℕ} (h : sz ≤ KERNBASE) : v < npages sz ↔ v * PGSIZE < sz := by
  unfold KERNBASE at h
  unfold npages PGROUNDUP PGSIZE
  omega

theorem npages_le {sz : ℕ} (h : sz ≤ KERNBASE) : npages sz ≤ NUSER := by
  unfold KERNBASE at h
  unfold npages NUSER PGROUNDUP PGSIZE KERNBASE
  omega

theorem npages_mono {sz sz' : ℕ} (h : sz ≤ sz') (h' : sz' ≤ KERNBASE) : npages sz ≤ npages sz' := by
  unfold KERNBASE at h'
  unfold npages PGROUNDUP PGSIZE
  omega

end Pages

/-- `walkpgdir` without allocation, by page number. -/
theorem walkpgdir_page (s : Mem) (d : ℕ) (hv : v < NPAGES) :
    walkpgdir d (v * PGSIZE) false s =
      .ok (if Present (s.word d (v / 1024)) then some (frame (s.word d (v / 1024)), v % 1024)
        else none, s) := by
  have htable : HasTable s d (v * PGSIZE) ↔ Present (s.word d (v / 1024)) := by
    rw [HasTable, PDX_page hv]
    exact Iff.rfl
  simp only [walkpgdir_look, htable, PDX_page hv, PTX_page]

/-! ### The loop over all pages -/

/-- Free page `v` if it is mapped, and clear its entry. -/
def freePage (im : Image) (pgdir v : ℕ) : Kern Unit := do
  match ← walkpgdir pgdir (v * PGSIZE) false with
  | none => pure ()
  | some (pgtab, i) =>
    let pte := (← get).word pgtab i
    if pte &&& PTE_P ≠ 0 then
      if frame pte = 0 then
        throw (.panic .kfree)
      kfree im (frame pte)
      modify (·.setWord pgtab i 0)

section Loop

variable {im : Image} {s : Mem} {d v w : ℕ}

/-- Nothing happens to a page without a page table. -/
theorem freePage_of_not_present (hv : v < NPAGES) (hp : ¬ Present (s.word d (v / 1024))) :
    freePage im d v s = .ok ((), s) := by
  rw [freePage, bind_run_ok (walkpgdir_page s d hv), if_neg hp]
  rfl

theorem freePages_of_not_present {l : List ℕ} (hl : ∀ v ∈ l, v < NPAGES)
    (hp : ∀ v ∈ l, ¬ Present (s.word d (v / 1024))) :
    l.forM (freePage im d) s = .ok ((), s) := by
  induction l with
  | nil => rfl
  | cons v l ih =>
    rw [List.forM, bind_run_ok (freePage_of_not_present (hl v List.mem_cons_self)
      (hp v List.mem_cons_self))]
    exact ih (fun w hw => hl w (List.mem_cons_of_mem v hw))
      fun w hw => hp w (List.mem_cons_of_mem v hw)

/-- The pages from `v` on up to the end of a page table that does not exist. -/
theorem freePages_skip {N : ℕ} (hN : N ≤ NPAGES) (hp : ¬ Present (s.word d (v / 1024))) :
    (List.range' (v + 1) (N - (v + 1))).forM (freePage im d) s =
      (List.range' ((v / 1024 + 1) * 1024) (N - (v / 1024 + 1) * 1024)).forM (freePage im d) s := by
  have hskip : ∀ k, v + 1 + k ≤ N → v + 1 + k ≤ (v / 1024 + 1) * 1024 →
      (List.range' (v + 1) k).forM (freePage im d) s = .ok ((), s) := fun k hkN hk => by
    refine freePages_of_not_present (fun w hw => ?_) fun w hw => ?_
    · have := List.mem_range'_1.mp hw
      omega
    · have := List.mem_range'_1.mp hw
      rwa [show w / 1024 = v / 1024 by omega]
  rcases Nat.lt_or_ge N ((v / 1024 + 1) * 1024) with hlt | hle
  · -- there are no pages behind the table
    rw [Nat.sub_eq_zero_of_le hlt.le]
    by_cases hvN : v + 1 ≤ N
    · exact hskip _ (by omega) (by omega)
    · rw [Nat.sub_eq_zero_of_le (by omega)]
      rfl
  · have hsplit : List.range' (v + 1) (N - (v + 1)) =
        List.range' (v + 1) ((v / 1024 + 1) * 1024 - (v + 1)) ++
          List.range' ((v / 1024 + 1) * 1024) (N - (v / 1024 + 1) * 1024) := by
      rw [show N - (v + 1) = ((v / 1024 + 1) * 1024 - (v + 1)) +
        (N - (v / 1024 + 1) * 1024) by omega,
        ← List.range'_append_1, show v + 1 + ((v / 1024 + 1) * 1024 - (v + 1)) =
          (v / 1024 + 1) * 1024 by omega]
    rw [hsplit, List.forM_eq_forM, List.forM_append]
    exact bind_run_ok (hskip _ (by omega) (by omega))

/-- The loop of `deallocuvm` from page `v` on. -/
theorem deallocLoop_eq (im : Image) (d : ℕ) {oldsz : ℕ} (hold : oldsz ≤ KERNBASE)
    (n : ℕ) (hv : v ≤ NUSER)
    (hn : NUSER < v + n) (s : Mem) :
    deallocLoop im d oldsz n (v * PGSIZE) s =
      (List.range' v (npages oldsz - v)).forM (freePage im d) s := by
  have hN := (npages_le hold).trans NUSER_le
  induction n generalizing v s with
  | zero => omega
  | succ n ih =>
    unfold deallocLoop
    by_cases hlt : v * PGSIZE < oldsz
    swap
    · rw [if_neg hlt, Nat.sub_eq_zero_of_le (Nat.le_of_not_lt (mt (lt_npages_iff hold).mp hlt))]
      rfl
    have hvn := (lt_npages_iff hold).mpr hlt
    have hvu : v < NUSER := hvn.trans_le (npages_le hold)
    rw [if_pos hlt, show npages oldsz - v = (npages oldsz - (v + 1)) + 1 by omega, List.range'_succ,
      List.forM, bind_run_ok (walkpgdir_page s d (hvu.trans_le NUSER_le)), freePage, bind_assoc,
      bind_run_ok (walkpgdir_page s d (hvu.trans_le NUSER_le))]
    by_cases hp : Present (s.word d (v / 1024))
    · rw [if_pos hp]
      dsimp only
      rw [next_page hvu, bind_assoc]
      refine bind_run_congr fun m t => ?_
      by_cases hpv : m.word (frame (s.word d (v / 1024))) (v % 1024) &&& PTE_P ≠ 0
      · rw [if_pos hpv, if_pos hpv]
        by_cases hzero : frame (m.word (frame (s.word d (v / 1024))) (v % 1024)) = 0
        · rw [if_pos hzero, if_pos hzero, bind_assoc, throw_bind_run, throw_bind_run]
        · rw [if_neg hzero, if_neg hzero, bind_assoc]
          refine bind_run_congr fun _ t => ?_
          exact bind_run_congr fun _ t => ih hvu (by omega) t
      · rw [if_neg hpv, if_neg hpv, pure_bind]
        exact ih hvu (by omega) t
    · rw [if_neg hp]
      dsimp only
      have hnext : (v / 1024 + 1) * 1024 ≤ NUSER := by
        clear ih
        unfold NUSER KERNBASE PGSIZE at *
        omega
      rw [next_table hvu, ih hnext (by omega), pure_bind, freePages_skip hN hp]

/-- The pages between two sizes. -/
def pagesBetween (newsz oldsz : ℕ) : List ℕ :=
  List.range' (npages newsz) (npages oldsz - npages newsz)

theorem mem_pagesBetween {newsz oldsz : ℕ} (hold : oldsz ≤ KERNBASE) (hle : newsz ≤ oldsz) :
    v ∈ pagesBetween newsz oldsz ↔ npages newsz ≤ v ∧ v < npages oldsz := by
  have := npages_mono hle hold
  rw [pagesBetween, List.mem_range'_1]
  omega

/-- `deallocuvm` frees every page between the two sizes. -/
theorem deallocuvm_eq (im : Image) (d : ℕ) {oldsz newsz : ℕ} (hold : oldsz ≤ KERNBASE)
    (hlt : newsz < oldsz) (s : Mem) :
    deallocuvm im d oldsz newsz s =
      (do
        (pagesBetween newsz oldsz).forM (freePage im d)
        pure newsz) s := by
  have hle := npages_le (hlt.le.trans hold)
  have hrounds : NUSER < npages newsz + (2 ^ 20 + 1) := by
    unfold NUSER KERNBASE PGSIZE
    omega
  have hloop : deallocLoop im d oldsz (2 ^ 20 + 1) (npages newsz * PGSIZE) =
      (pagesBetween newsz oldsz).forM (freePage im d) :=
    funext (deallocLoop_eq im d hold (2 ^ 20 + 1) hle hrounds)
  rw [deallocuvm, if_neg (by omega), PGROUNDUP_eq, hloop]

end Loop

/-! ### The effect on a page table -/

/-- The directory, its page tables and the frames of the pages in `l` are different frames. -/
structure Tree (s : Mem) (d : ℕ) (l : List ℕ) : Prop extends Tables s d where
  page_ne_dir : ∀ v ∈ l, Present (s.pte d v) → frame (s.pte d v) ≠ d
  page_ne_table : ∀ v ∈ l, Present (s.pte d v) → ∀ i < NPDENTRIES, Present (s.word d i) →
    frame (s.pte d v) ≠ frame (s.word d i)

/-- The frames of the pages in `l` that are mapped. -/
def freed (s : Mem) (d : ℕ) (l : List ℕ) : List ℕ :=
  (l.filter fun v => Present (s.pte d v)).map fun v => frame (s.pte d v)

/-- The mapped pages in `l` are freed, in this order: their frames are on the free list, their
entries are 0, and no other entry, directory entry or frame has changed. -/
structure Freed (s : Mem) (d : ℕ) (l : List ℕ) (t : Mem) : Prop where
  free : t.free = (freed s d l).reverse ++ s.free
  dir : ∀ i < NPDENTRIES, t.word d i = s.word d i
  pte : ∀ v < NPAGES, t.pte d v = if v ∈ l ∧ Present (s.pte d v) then 0 else s.pte d v
  page : ∀ g, g ∉ freed s d l → (∀ i < NPDENTRIES, Present (s.word d i) → g ≠ frame (s.word d i)) →
    t.page g = s.page g

section Effect

variable {im : Image} {s t : Mem} {d v : ℕ} {l : List ℕ}

/-- `kfree` panics for every other frame. -/
theorem kfree_panic {f : ℕ} (hf : f < NPAGES) (ha : ¬ im.Avail f) (s : Mem) :
    kfree im f s = .error (.panic .kfree) := by
  have hcheck : P2V (f * PGSIZE) % PGSIZE ≠ 0 ∨ P2V (f * PGSIZE) < im.kend ∨
      PHYSTOP ≤ V2P (P2V (f * PGSIZE)) := by
    unfold Image.Avail at ha
    unfold NPAGES at hf
    unfold P2V V2P KERNBASE PHYSTOP PGSIZE at *
    omega
  refine Wp.eq_error_of ?_
  unfold kfree
  rw [if_pos hcheck]
  rfl

theorem frame_pte_lt (s : Mem) (d v : ℕ) : frame (s.pte d v) < NPAGES := by
  have hlt : s.pte d v < 2 ^ 32 := by
    unfold Mem.pte
    split_ifs
    · exact Mem.word_lt
    · decide
  unfold frame PGSIZE NPAGES
  omega

/-- A page that is not mapped needs no freeing. -/
theorem Freed.refl (hp : ¬ Present (s.pte d v)) : Freed s d [v] s := by
  refine ⟨by simp [freed, hp], fun _ _ => rfl, fun w _ => (if_neg ?_).symm, fun _ _ _ => rfl⟩
  rintro ⟨hw, hpw⟩
  rw [List.mem_singleton.mp hw] at hpw
  exact hp hpw

/-- A mapped page is freed and its entry cleared. -/
theorem Tree.freed_page (h : Tree s d (v :: l)) (hv : v < NPAGES) (hp : Present (s.pte d v))
    {b : Bytes PGSIZE}
    (ht : t = Mem.setWord { s.setPage (frame (s.pte d v)) b with
      free := frame (s.pte d v) :: s.free } (frame (s.word d (v / 1024))) (v % 1024) 0) :
    Freed s d [v] t := by
  have htable := present_table hp
  have hmem := List.mem_cons_self (a := v) (l := l)
  -- the frame is no part of the tables
  have hw : ∀ i < NPDENTRIES, (s.setPage (frame (s.pte d v)) b).word d i = s.word d i := fun i _ =>
    Mem.word_congr (Mem.page_setPage_of_ne (h.page_ne_dir v hmem hp).symm)
  have hpte : ∀ w < NPAGES, (s.setPage (frame (s.pte d v)) b).pte d w = s.pte d w := fun w hwlt =>
    pte_congr hw (fun i hi hpi =>
      Mem.page_setPage_of_ne (h.page_ne_table v hmem hp i hi hpi).symm) hwlt
  have htables : Tables (s.setPage (frame (s.pte d v)) b) d := by
    refine ⟨fun i hi => ?_, fun i hi j hj => ?_⟩
    · rw [hw i hi]
      exact h.ne_dir i hi
    · rw [hw i hi, hw j hj]
      exact h.inj i hi j hj
  obtain ⟨hword, hzero, hkeep⟩ := htables.pte_setWord hv (by rwa [hw _ (div_lt hv)]) 0 rfl
  rw [hw _ (div_lt hv)] at hword hzero hkeep
  refine ⟨by rw [ht]; simp [freed, hp], fun i hi => ?_, fun w hwlt => ?_, fun g hg hgt => ?_⟩
  · rw [ht]
    exact (hword i hi).trans (hw i hi)
  · by_cases hwv : w = v
    · subst hwv
      rw [if_pos ⟨List.mem_singleton_self w, hp⟩, ht]
      exact hzero
    · rw [if_neg fun hc => hwv (List.mem_singleton.mp hc.1), ht]
      exact (hkeep w hwlt hwv).trans (hpte w hwlt)
  · have hne : g ≠ frame (s.pte d v) := by simpa [freed, hp] using hg
    rw [ht, Mem.page_setWord_of_ne (hgt _ (div_lt hv) htable)]
    exact Mem.page_setPage_of_ne hne

/-- One page is freed, unless `kfree` panics. -/
theorem Tree.freePage_spec (h : Tree s d (v :: l)) (hv : v < NPAGES) :
    Wp (freePage im d v) s (fun _ t => Freed s d [v] t)
      fun e => e = .panic .kfree ∧ Present (s.pte d v) ∧ ¬ im.Avail (frame (s.pte d v)) := by
  unfold freePage
  rw [Wp.bind_iff, Wp.of_eq (walkpgdir_page s d hv)]
  by_cases htable : Present (s.word d (v / 1024))
  swap
  · rw [if_neg htable]
    exact .refl fun hp => htable (present_table hp)
  have hentry : s.word (frame (s.word d (v / 1024))) (v % 1024) = s.pte d v := (if_pos htable).symm
  rw [if_pos htable, Wp.bind_iff, Wp.get_iff, hentry]
  dsimp only
  by_cases hp : s.pte d v &&& PTE_P ≠ 0
  swap
  · rw [if_neg hp]
    exact .refl hp
  rw [if_pos hp]
  by_cases hzero : frame (s.pte d v) = 0
  · rw [if_pos hzero]
    exact ⟨rfl, hp, fun ha => ha.ne_zero hzero⟩
  rw [if_neg hzero, Wp.bind_iff]
  by_cases ha : im.Avail (frame (s.pte d v))
  · rw [Wp.of_eq (Space.kfree_eq ha s), Wp.modify_iff]
    exact h.freed_page hv hp rfl
  · exact Wp.of_eq_error (kfree_panic (frame_pte_lt s d v) ha s) ⟨rfl, hp, ha⟩

theorem Freed.pte_of_ne (h : Freed s d [v] t) {w : ℕ} (hw : w < NPAGES) (hwv : w ≠ v) :
    t.pte d w = s.pte d w := by
  rw [h.pte w hw, if_neg fun hc => hwv (List.mem_singleton.mp hc.1)]

/-- The frames of other pages are the same. -/
theorem Freed.freed_eq (h : Freed s d [v] t) (hv : v ∉ l) (hl : ∀ w ∈ l, w < NPAGES) :
    freed t d l = freed s d l := by
  have hpte : ∀ w ∈ l, t.pte d w = s.pte d w := fun w hw =>
    h.pte_of_ne (hl w hw) fun hwv => hv (hwv ▸ hw)
  unfold freed
  rw [List.filter_congr fun w hw => by rw [hpte w hw]]
  exact List.map_congr_left fun w hw => by rw [hpte w (List.mem_filter.mp hw).1]

theorem freed_cons (s : Mem) (d v : ℕ) (l : List ℕ) :
    freed s d (v :: l) = freed s d [v] ++ freed s d l := by
  unfold freed
  rw [← List.map_append, ← List.filter_append, List.singleton_append]

/-- Freeing one page and then others. -/
theorem Freed.cons {u : Mem} (h : Freed s d [v] t) (h' : Freed t d l u) (hv : v ∉ l)
    (hvlt : v < NPAGES) (hl : ∀ w ∈ l, w < NPAGES) : Freed s d (v :: l) u := by
  have heq := h.freed_eq hv hl
  refine ⟨?_, fun i hi => (h'.dir i hi).trans (h.dir i hi), fun w hw => ?_, fun g hg hgt => ?_⟩
  · rw [h'.free, h.free, heq, freed_cons s d v l, List.reverse_append, List.append_assoc]
  · rw [h'.pte w hw]
    by_cases hwv : w = v
    · subst hwv
      rw [if_neg fun hc => hv hc.1, h.pte w hw]
      simp
    · rw [h.pte_of_ne hw hwv]
      simp [hwv]
  · rw [freed_cons s d v l, List.mem_append, not_or] at hg
    rw [h'.page g (heq ▸ hg.2) fun i hi hp => ?_, h.page g hg.1 hgt]
    rw [h.dir i hi] at hp ⊢
    exact hgt i hi hp

theorem Tree.of_freed (h : Tree s d (v :: l)) (hl : ∀ w ∈ l, w < NPAGES) (hv : v ∉ l)
    (ht : Freed s d [v] t) : Tree t d l := by
  have hpte : ∀ w ∈ l, t.pte d w = s.pte d w := fun w hw =>
    ht.pte_of_ne (hl w hw) fun hwv => hv (hwv ▸ hw)
  refine ⟨⟨fun i hi => ?_, fun i hi j hj => ?_⟩, fun w hw => ?_, fun w hw hp i hi => ?_⟩
  · rw [ht.dir i hi]
    exact h.ne_dir i hi
  · rw [ht.dir i hi, ht.dir j hj]
    exact h.inj i hi j hj
  · rw [hpte w hw]
    exact h.page_ne_dir w (List.mem_cons_of_mem v hw)
  · rw [hpte w hw] at hp ⊢
    rw [ht.dir i hi]
    exact h.page_ne_table w (List.mem_cons_of_mem v hw) hp i hi

/-- All pages are freed, unless `kfree` panics. -/
theorem Tree.freePages_spec (im : Image) (h : Tree s d l)
    (hl : ∀ v ∈ l, v < NPAGES) (hnodup : l.Nodup) :
    Wp (l.forM (freePage im d)) s (fun _ t => Freed s d l t)
      fun e => e = .panic .kfree ∧ ∃ v ∈ l, Present (s.pte d v) ∧
      ¬ im.Avail (frame (s.pte d v)) := by
  induction l generalizing s with
  | nil => exact ⟨rfl, fun _ _ => rfl, fun v _ => by simp, fun _ _ _ => rfl⟩
  | cons v l ih =>
    obtain ⟨hv, hnodup⟩ := List.nodup_cons.mp hnodup
    obtain ⟨hvlt, hl⟩ := List.forall_mem_cons.mp hl
    rw [List.forM, Wp.bind_iff]
    refine (h.freePage_spec hvlt).mono (fun _ t ht => ?_) fun e ⟨he, hp⟩ =>
      ⟨he, v, List.mem_cons_self, hp⟩
    refine (ih (h.of_freed hl hv ht) hl hnodup).mono
      (fun _ u hu => ht.cons hu hv hvlt hl) fun e ⟨he, w, hw, hp, ha⟩ => ?_
    rw [ht.pte_of_ne (hl w hw) fun hwv => hv (hwv ▸ hw)] at hp ha
    exact ⟨he, w, List.mem_cons_of_mem v hw, hp, ha⟩

/-- Whatever is in memory, only `kfree` can panic. -/
theorem freePages_panic (hl : ∀ v ∈ l, v < NPAGES) (s : Mem) :
    Wp (l.forM (freePage im d)) s (fun _ _ => True) (· = .panic .kfree) := by
  induction l generalizing s with
  | nil => trivial
  | cons v l ih =>
    obtain ⟨hv, hl⟩ := List.forall_mem_cons.mp hl
    rw [List.forM]
    refine Wp.bind (Q := fun _ _ => True) ?_ fun _ t _ => ih hl t
    unfold freePage
    rw [Wp.bind_iff, Wp.of_eq (walkpgdir_page s d hv)]
    split_ifs with htable
    · rw [Wp.bind_iff, Wp.get_iff]
      dsimp only
      split_ifs with hp hzero
      · rfl
      · unfold kfree
        dsimp only
        split_ifs with hcheck
        · rfl
        · trivial
      · trivial
    · trivial

end Effect

/-- Whatever is in the page directory and in memory, `deallocuvm` runs like the loop that frees
every page whose address is at least `PGROUNDUP(newsz)` and below `oldsz`, and ends unless `kfree`
panics. If the page tables and the pages are different frames, exactly these pages are freed, each
once, and no other entry, directory entry or frame changes; `kfree` panics only for a frame that is
none of the allocator's. -/
theorem deallocuvm_every_page (im : Image) (d : ℕ) {oldsz newsz : ℕ} (hlt : newsz < oldsz)
    (hold : oldsz ≤ KERNBASE) (s : Mem) :
    (∀ v, v ∈ pagesBetween newsz oldsz ↔ PGROUNDUP newsz ≤ v * PGSIZE ∧ v * PGSIZE < oldsz) ∧
    deallocuvm im d oldsz newsz s =
      (do
        (pagesBetween newsz oldsz).forM (freePage im d)
        pure newsz) s ∧
    (∀ e, deallocuvm im d oldsz newsz s = .error e → e = .panic .kfree) ∧
    (Tree s d (pagesBetween newsz oldsz) →
      (∃ t, deallocuvm im d oldsz newsz s = .ok (newsz, t) ∧
        Freed s d (pagesBetween newsz oldsz) t) ∨
      deallocuvm im d oldsz newsz s = .error (.panic .kfree) ∧
        ∃ v ∈ pagesBetween newsz oldsz, Present (s.pte d v) ∧ ¬ im.Avail (frame (s.pte d v))) := by
  have hmem : ∀ {v}, v ∈ pagesBetween newsz oldsz ↔ npages newsz ≤ v ∧ v < npages oldsz :=
    mem_pagesBetween hold hlt.le
  have hpages : ∀ v ∈ pagesBetween newsz oldsz, v < NPAGES := fun v hv =>
    ((hmem.mp hv).2.trans_le (npages_le hold)).trans_le NUSER_le
  have heq := deallocuvm_eq im d hold hlt s
  refine ⟨fun v => ?_, heq, fun e he => ?_, fun htree => ?_⟩
  · rw [hmem, lt_npages_iff hold, PGROUNDUP_eq, Nat.mul_le_mul_right_iff (by decide)]
  · rw [heq] at he
    refine Wp.of_error (Q := fun _ _ => True) (E := (· = .panic .kfree)) ?_ he
    exact (freePages_panic hpages s).bind fun _ _ _ => trivial
  · rw [heq]
    rcases (htree.freePages_spec im hpages List.nodup_range').cases with
      ⟨_, t, hrun, ht⟩ | ⟨e, hrun, rfl, hpanic⟩
    · exact .inl ⟨t, bind_run_ok hrun, ht⟩
    · exact .inr ⟨bind_run_error hrun, hpanic⟩

/-- A kernel whose pages begin at frame 300. -/
def smallImage : Image where
  kend := KERNBASE + 300 * PGSIZE
  data := KERNLINK + PGSIZE
  kend_gt := by decide
  data_gt := by decide
  data_lt := by decide
  data_align := by decide

theorem smallImage_avail_iff {f : ℕ} :
    smallImage.Avail f ↔ 300 ≤ f ∧ f < PHYSTOP / PGSIZE := by
  simp only [Image.Avail, smallImage, KERNBASE, PHYSTOP, PGSIZE]
  omega

/-- A page directory in frame 300 with one page table, in frame 301 for the second four megabytes,
and one page, in frame 302. -/
def oneMapped : Mem :=
  (Mem.setWord ⟨fun _ => Bytes.zero PGSIZE, []⟩ 300 1 (301 * PGSIZE ||| 7)).setWord 301 0
    (302 * PGSIZE ||| 7)

theorem oneMapped_table {i : ℕ} (hp : Present (oneMapped.word 300 i)) : i = 1 := by
  by_contra hi
  rw [oneMapped, Mem.word_setWord_of_ne (.inl (by decide)),
    Mem.word_setWord_of_ne (.inr hi), Mem.word,
    Bytes.readLE_zero] at hp
  exact not_present_zero hp

/-- The last page without a page table, and the first one with it. -/
theorem pagesBetween_missing : pagesBetween (1023 * PGSIZE) (1025 * PGSIZE) = [1023, 1024] := by
  decide

theorem oneMapped_tree :
    Tree oneMapped 300 (pagesBetween (1023 * PGSIZE) (1025 * PGSIZE)) := by
  have htable : frame (oneMapped.word 300 1) = 301 := by decide +kernel
  have hpage : frame (oneMapped.pte 300 1024) = 302 := by decide +kernel
  have honly : ∀ v ∈ [1023, 1024], Present (oneMapped.pte 300 v) → v = 1024 := by decide +kernel
  rw [pagesBetween_missing]
  refine ⟨⟨fun i _ hp => ?_, fun i _ j _ hpi hpj _ => ?_⟩, fun v hv hpv => ?_,
    fun v hv hpv i _ hp => ?_⟩
  · rw [oneMapped_table hp, htable]
    decide
  · rw [oneMapped_table hpi, oneMapped_table hpj]
  · rw [honly v hv hpv, hpage]
    decide
  · rw [honly v hv hpv, oneMapped_table hp, htable, hpage]
    decide

/-- In a range that begins where there is no page table, the page is freed, and its page table
stays. -/
theorem deallocuvm_every_page_missing_table :
    ∃ t, deallocuvm smallImage 300 (1025 * PGSIZE) (1023 * PGSIZE) oneMapped =
        .ok (1023 * PGSIZE, t) ∧ ¬ Present (oneMapped.word 300 0) ∧ t.free = [302] ∧
      t.pte 300 1024 = 0 ∧ Present (t.word 300 1) := by
  have hfreed : freed oneMapped 300 [1023, 1024] = [302] := by decide +kernel
  have hp : Present (oneMapped.pte 300 1024) := by decide +kernel
  have htable : Present (oneMapped.word 300 1) := by decide +kernel
  obtain ⟨-, -, -, htree⟩ := deallocuvm_every_page smallImage 300
    (show 1023 * PGSIZE < 1025 * PGSIZE by decide) (by decide) oneMapped
  rcases htree oneMapped_tree with ⟨t, hrun, ht⟩ | ⟨-, v, hv, hpv, ha⟩
  · rw [pagesBetween_missing] at ht
    refine ⟨t, hrun, fun hc => absurd (oneMapped_table hc) (by decide), ?_, ?_, ?_⟩
    · rw [ht.free, hfreed]
      rfl
    · rw [ht.pte 1024 (by decide), if_pos ⟨by simp, hp⟩]
    · rwa [ht.dir 1 (by decide)]
  · rw [pagesBetween_missing] at hv
    have havail : ∀ v ∈ [1023, 1024], Present (oneMapped.pte 300 v) →
      smallImage.Avail (frame (oneMapped.pte 300 v)) := by decide +kernel
    exact absurd (havail v hv hpv) ha

end Xv6.Vm
