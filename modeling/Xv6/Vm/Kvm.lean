import Xv6.Vm.Uvm

/-!
# The kernel part of an address space

`freevm` and `setupkvm`. A new page directory is built out of free pages, range by range; where the
memory runs out, `freevm` gives back each page taken so far. The ranges of `kmap` lie one after the
other, so that no page is mapped twice.
-/

namespace Xv6.Vm

open Lib

/-! ### Freeing an address space -/

/-- The frames that make up the address space of `d`. -/
def frames (s : Mem) (d : ℕ) : Set ℕ := {f | f ≠ 0 ∧ ∃ k, part s d k = f}

/-- The free pages are those that the allocator works with, but for the `others` in use. -/
structure AllFree (im : Image) (others : Set ℕ) (s : Mem) : Prop where
  nodup : s.free.Nodup
  mem_iff : ∀ f, f ∈ s.free ↔ im.Avail f ∧ f ∉ others

namespace Space

variable {im : Image} {others : Set ℕ} {s t : Mem} {d f v : ℕ}

/-- The frames that are free are those in use neither by the address space nor elsewhere. -/
theorem allFree (h : Space im others s d) : AllFree im (others ∪ frames s d) s := by
  refine ⟨h.nodup, fun f => ⟨fun hf => ?_, fun ⟨ha, hf⟩ => ?_⟩⟩
  · obtain ⟨ha, hfo⟩ := h.free f hf
    refine ⟨ha, fun hc => hc.elim hfo ?_⟩
    rintro ⟨hf0, k, rfl⟩
    exact h.not_mem_free hf0 hf
  · by_contra hnot
    have hused := (h.owns.used_iff f ⟨ha, fun hc => hf (.inl hc)⟩).mp (decide_eq_true hnot)
    exact hf (.inr ⟨ha.ne_zero, hused⟩)

/-- An address space with at most `n` user pages: what is neither free nor in use elsewhere is the
page directory, a page table or one of these pages. -/
theorem length_le {n : ℕ} (h : Space im others s d) (hn : ∀ v < NUSER, Present (s.pte d v) → v < n)
    {l : List ℕ} (hl : l.Nodup) (hmem : ∀ f ∈ l, im.Avail f ∧ f ∉ others) :
    l.length ≤ s.free.length + (1 + NPDENTRIES + n) := by
  have hsub : l ⊆ s.free ++ (d :: (List.range NPDENTRIES).map (part s d <| .table ·) ++
      (List.range n).map (part s d <| .user ·)) := fun f hf => by
    have hne := (hmem f hf).1.ne_zero
    by_cases hfree : f ∈ s.free
    · exact List.mem_append_left _ hfree
    obtain ⟨k, rfl⟩ := (h.owns.used_iff f (hmem f hf)).mp (decide_eq_true hfree)
    refine List.mem_append_right _ ?_
    cases k with
    | dir => exact List.mem_cons_self
    | table i =>
      have hi : i < NPDENTRIES := by
        by_contra hc
        exact hne (if_neg fun hp => hc hp.1)
      exact List.mem_append_left _ (List.mem_cons_of_mem _
        (List.mem_map_of_mem (List.mem_range.mpr hi)))
    | user v =>
      have hv : v < NUSER ∧ Present (s.pte d v) := by
        by_contra hc
        exact hne (if_neg hc)
      exact List.mem_append_right _ (List.mem_map_of_mem (List.mem_range.mpr (hn v hv.1 hv.2)))
  have hlen := (hl.subperm hsub).length_le
  simp only [List.length_append, List.length_cons, List.length_map, List.length_range] at hlen
  omega

/-- The frames of an address space are not in use elsewhere. -/
theorem not_mem_of_frames (h : Space im others s d) (hf : f ∈ frames s d) : f ∉ others := by
  obtain ⟨hf0, k, rfl⟩ := hf
  exact (h.owns.avail_addr k hf0).2

theorem dir_mem_frames (h : Space im others s d) : d ∈ frames s d := ⟨h.dir, .dir, rfl⟩

theorem table_mem_frames {i : ℕ} (h : Space im others s d) (hi : i < NPDENTRIES)
    (hp : Present (s.word d i)) : frame (s.word d i) ∈ frames s d :=
  ⟨h.table i hi hp, .table i, part_table hi hp⟩

theorem user_mem_frames (h : Space im others s d) (hv : v < NUSER) (hp : Present (s.pte d v)) :
    frame (s.pte d v) ∈ frames s d :=
  ⟨h.user v hv hp, .user v, part_user hv hp⟩

/-- As long as its frames keep their contents, an address space keeps its entries. -/
theorem pte_kept (h : Space im others s d) (hpage : ∀ f ∈ frames s d, t.page f = s.page f)
    (hv : v < NPAGES) : t.pte d v = s.pte d v :=
  pte_congr (fun _ _ => Mem.word_congr (hpage d h.dir_mem_frames))
    (fun _ hi hp => hpage _ (h.table_mem_frames hi hp)) hv

theorem frames_kept (h : Space im others s d) (hpage : ∀ f ∈ frames s d, t.page f = s.page f) :
    frames t d = frames s d := by
  have hpart := part_congr (fun _ _ => Mem.word_congr (hpage d h.dir_mem_frames)) fun v hv =>
    h.pte_kept hpage (hv.trans_le NUSER_le)
  simp only [frames, hpart]

theorem table_avail {i : ℕ} (h : Space im others s d) (hi : i < NPDENTRIES)
    (hp : Present (s.word d i)) : im.Avail (frame (s.word d i)) := by
  have hpart := part_table hi hp
  exact hpart ▸ (h.owns.avail_addr (.table i) (hpart ▸ h.table i hi hp)).1

/-- The loop of `freevm` frees the page tables that `s` has for the entries in `l`. -/
theorem freeTables_spec (h : Space im others s d) (l : List ℕ) (hl : l.Nodup)
    (hlt : ∀ i ∈ l, i < NPDENTRIES) {u : Mem} (hdir : u.page d = s.page d) (hnodup : u.free.Nodup)
    (hfree : ∀ i ∈ l, Present (s.word d i) → frame (s.word d i) ∉ u.free) :
    Wp (l.forM fun i => do
        let pde := (← get).word d i
        if pde &&& PTE_P ≠ 0 then
          kfree im (frame pde) : Kern PUnit) u
      (fun _ t => t.page d = s.page d ∧ (∀ f ∈ others, t.page f = u.page f) ∧ t.free.Nodup ∧
        ∀ f, f ∈ t.free ↔ f ∈ u.free ∨ ∃ i ∈ l, Present (s.word d i) ∧ frame (s.word d i) = f)
      fun _ => False := by
  -- the directory stays as in `s` while its tables are freed one by one
  induction l generalizing u with
  | nil => exact ⟨hdir, fun _ _ => rfl, hnodup, fun f => by simp⟩
  | cons i l ih =>
    obtain ⟨hi, hl⟩ := List.nodup_cons.mp hl
    have hilt := hlt i List.mem_cons_self
    have hlt' : ∀ j ∈ l, j < NPDENTRIES := fun j hj => hlt j (List.mem_cons_of_mem i hj)
    rw [List.forM, Wp.bind_iff, Wp.bind_iff, Wp.get_iff]
    dsimp only
    rw [Mem.word_congr hdir]
    by_cases hp : s.word d i &&& PTE_P ≠ 0
    · rw [if_pos hp, Wp.of_eq (kfree_eq (h.table_avail hilt hp) u)]
      have hne : d ≠ frame (s.word d i) := (h.table_ne_dir hilt hp).symm
      refine (ih hl hlt' ?_ ?_ fun j hj hpj hmem => ?_).post fun _ t ht => ?_
      · exact (Mem.page_setPage_of_ne hne).trans hdir
      · exact List.nodup_cons.mpr ⟨hfree i List.mem_cons_self hp, hnodup⟩
      · -- another entry has another table
        rcases List.mem_cons.mp hmem with heq | hmem
        · have hji := h.table_inj (hlt' j hj) hilt hpj hp heq
          exact hi (hji ▸ hj)
        · exact hfree j (List.mem_cons_of_mem i hj) hpj hmem
      · obtain ⟨hdir', hother, hnodup', hmem⟩ := ht
        refine ⟨hdir', fun f hf => (hother f hf).trans (Mem.page_setPage_of_ne ?_), hnodup',
          fun f => ?_⟩
        · rintro rfl
          exact h.table_not_mem_others hilt hp hf
        · rw [hmem, List.mem_cons, List.exists_mem_cons_iff]
          constructor
          · rintro ((rfl | hf) | hf)
            · exact .inr (.inl ⟨hp, rfl⟩)
            · exact .inl hf
            · exact .inr (.inr hf)
          · rintro (hf | ⟨-, rfl⟩ | hf)
            · exact .inl (.inr hf)
            · exact .inl (.inl rfl)
            · exact .inr hf
    · rw [if_neg hp, Wp.pure_iff]
      refine (ih hl hlt' hdir hnodup fun j hj => hfree j (List.mem_cons_of_mem i hj)).post
        fun _ t ht => ⟨ht.1, ht.2.1, ht.2.2.1, fun f => ?_⟩
      have hno : ¬ (Present (s.word d i) ∧ frame (s.word d i) = f) := fun hc => hp hc.1
      rw [ht.2.2.2, List.exists_mem_cons_iff, or_iff_right hno]

/-- `freevm` gives every page of the address space back. -/
theorem freevm_spec (h : Space im others s d) :
    Wp (freevm im d) s
      (fun _ t => AllFree im others t ∧ ∀ f ∈ others, t.page f = s.page f) fun _ => False := by
  have hpos : 0 < KERNBASE := by
    unfold KERNBASE
    omega
  obtain ⟨l, hl, hlnodup, hmeml⟩ : ∃ l, List.range NPDENTRIES = l ∧ l.Nodup ∧
      ∀ i, i ∈ l ↔ i < NPDENTRIES := ⟨_, rfl, List.nodup_range, fun _ => List.mem_range⟩
  unfold freevm
  rw [hl]
  -- the user pages first, then the tables, then the directory
  refine (h.deallocuvm_spec le_rfl hpos).bind fun _ u ⟨_, hu, hkept, hnone⟩ => ?_
  have hnone' : ∀ w < NUSER, ¬ Present (u.pte d w) := fun w hw => by
    rw [present_iff_userPage, not_not]
    refine hnone w hw ?_ ?_
    · rw [show npages 0 = 0 by decide]
      exact Nat.zero_le w
    · rwa [show npages KERNBASE = NUSER by decide]
  refine (hu.freeTables_spec l hlnodup (fun i hi => (hmeml i).mp hi) rfl hu.nodup
    fun i hi hp => ?_).bind fun _ x hx => ?_
  · exact hu.table_not_mem_free ((hmeml i).mp hi) hp
  obtain ⟨hdir, hother, hnodup, hmem⟩ := hx
  have hd : im.Avail d ∧ d ∉ others := hu.owns.avail_addr .dir hu.dir
  rw [Wp.of_eq (kfree_eq hd.1 x)]
  refine ⟨⟨List.nodup_cons.mpr ⟨?_, hnodup⟩, fun f => ?_⟩, fun f hf => ?_⟩
  · rw [hmem]
    rintro (hfree | ⟨i, hi, hp, heq⟩)
    · exact hu.dir_not_mem_free hfree
    · exact hu.table_ne_dir ((hmeml i).mp hi) hp heq
  · rw [List.mem_cons, hmem]
    constructor
    · rintro (rfl | hf | ⟨i, hi, hp, rfl⟩)
      · exact hd
      · exact hu.free f hf
      · exact ⟨hu.table_avail ((hmeml i).mp hi) hp,
          hu.table_not_mem_others ((hmeml i).mp hi) hp⟩
    · intro hf
      by_cases hfree : f ∈ u.free
      · exact .inr (.inl hfree)
      · -- a frame in use is the directory or a page table, since no user page is left
        obtain ⟨k, rfl⟩ := (hu.owns.used_iff f hf).mp (decide_eq_true hfree)
        have hk := hf.1.ne_zero
        cases k with
        | dir => exact .inl rfl
        | table i =>
          have hi : i < NPDENTRIES ∧ Present (u.word d i) := by
            by_contra hc
            exact hk (if_neg hc)
          exact .inr (.inr ⟨i, (hmeml i).mpr hi.1, hi.2, (part_table hi.1 hi.2).symm⟩)
        | user w => exact absurd (if_neg fun hc => hnone' w hc.1 hc.2) hk
  · have hne : f ≠ d := by
      rintro rfl
      exact hu.dir_not_mem_others hf
    exact (Mem.page_setPage_of_ne hne).trans ((hother f hf).trans (hkept.other f hf))

end Space

/-! ### A new page directory -/

/-- The entries of a directory let the kernel write. -/
def DirWritable (s : Mem) (d : ℕ) : Prop :=
  ∀ i < NPDENTRIES, Present (s.word d i) → s.word d i &&& PTE_W ≠ 0

theorem DirWritable.tabled {s t : Mem} {d v : ℕ} (h : DirWritable s d)
    (ht : Tabled d v s t) : DirWritable t d := by
  intro i hi hp
  by_cases hiv : i = v / 1024
  · subst hiv
    by_cases hps : Present (s.word d (v / 1024))
    · rw [ht.same hps]
      exact h _ hi hps
    · exact ht.fresh hps
  · rw [ht.words i hi hiv] at hp ⊢
    exact h i hi hp

/-- The pages from `v` up to `last` are mapped to the frames from `p` on. -/
def Ranged (t : Mem) (d v last p perm : ℕ) : Prop :=
  ∀ w, v ≤ w → w ≤ last → t.pte d w = (p + (w - v)) * PGSIZE ||| (perm ||| PTE_P)

namespace Space

variable {im : Image} {others : Set ℕ} {s t : Mem} {d f v : ℕ}

/-- An empty page directory, when the frames other than its own are free or in use elsewhere. -/
theorem empty (hzero : s.page d = Bytes.zero PGSIZE) (ha : im.Avail d) (hd : d ∉ others)
    (hnodup : (d :: s.free).Nodup) (hfree : ∀ g ∈ s.free, im.Avail g ∧ g ∉ others)
    (hall : ∀ g, im.Avail g → g ∉ others → g ∈ d :: s.free) :
    Space im others s d ∧ ∀ w, s.pte d w = 0 := by
  have hword : ∀ i, s.word d i = 0 := fun i => by rw [Mem.word, hzero, Bytes.readLE_zero]
  have hpte : ∀ w, s.pte d w = 0 := fun w => by
    rw [Mem.pte, hword, if_neg not_present_zero]
  have hpart : ∀ k, part s d k ≠ 0 → k = .dir := by
    intro k hk
    cases k with
    | dir => rfl
    | table i => exact absurd (if_neg fun hc => not_present_zero (hword i ▸ hc.2)) hk
    | user w => exact absurd (if_neg fun hc => not_present_zero (hpte w ▸ hc.2)) hk
  rw [List.nodup_cons] at hnodup
  refine ⟨⟨⟨fun g hg => hg.1.ne_zero, fun k hk => ?_, fun k k' hk heq => ?_, fun g hg => ?_⟩,
    ha.ne_zero, fun i _ hp => ?_, fun w _ hp => ?_, hnodup.2, hfree⟩, hpte⟩
  · obtain rfl := hpart k hk
    exact ⟨ha, hd⟩
  · rw [hpart k hk, hpart k' (heq ▸ hk)]
  · rw [decide_eq_true_iff]
    constructor
    · intro hgfree
      exact ⟨.dir, ((List.mem_cons.mp (hall g hg.1 hg.2)).resolve_right hgfree).symm⟩
    · rintro ⟨k, rfl⟩
      obtain rfl := hpart k hg.1.ne_zero
      exact hnodup.1
  · rw [hword] at hp
    exact absurd hp not_present_zero
  · rw [hpte] at hp
    exact absurd hp not_present_zero

/-- An empty page directory, made out of a free page while the `others` are in use. -/
theorem newDir (h : AllFree im others s) (hfree : s.free = f :: t.free) (hpage : t.page = s.page) :
    Space im others (t.setPage f (Bytes.zero PGSIZE)) f ∧
      (∀ w, (t.setPage f (Bytes.zero PGSIZE)).pte f w = 0) ∧
        ∀ g ∈ others, (t.setPage f (Bytes.zero PGSIZE)).page g = s.page g := by
  obtain ⟨ha, hfo⟩ := (h.mem_iff f).mp (hfree ▸ List.mem_cons_self)
  obtain ⟨hspace, hzero⟩ := empty (s := t.setPage f (Bytes.zero PGSIZE))
    Mem.page_setPage_self ha hfo (hfree ▸ h.nodup)
    (fun g hg => (h.mem_iff g).mp (hfree ▸ List.mem_cons_of_mem f hg)) fun g hga hgo => by
      rw [Mem.setPage_free, ← hfree]
      exact (h.mem_iff g).mpr ⟨hga, hgo⟩
  refine ⟨hspace, hzero, fun g hg => ?_⟩
  have hne : g ≠ f := by
    rintro rfl
    exact hfo hg
  rw [Mem.page_setPage_of_ne hne, hpage]

/-- The loop of `mappages` over pages of the kernel part that are not mapped yet. -/
theorem mapLoop_kernel {last perm : ℕ} (hlast : last < NPAGES) (hperm : perm < PGSIZE) (n : ℕ)
    (h : Space im others s d) (hdir : DirWritable s d) (hv : NUSER ≤ v) (hle : v ≤ last)
    (hn : last < v + n) (hnone : ∀ w, v ≤ w → w ≤ last → ¬ Present (s.pte d w)) {p : ℕ}
    (hp : p + (last - v) < NPAGES) :
    Wp (mapLoop d (last * PGSIZE) perm n (v * PGSIZE) (p * PGSIZE)) s
      (fun r t => (r = 0 ∧ Ranged t d v last p perm ∨ r = -1 ∧ t.free = []) ∧ Space im others t d ∧
        DirWritable t d ∧ Kept others d {w | v ≤ w ∧ w ≤ last} s t) fun _ => False := by
  induction n generalizing v s p with
  | zero => omega
  | succ n ih =>
    unfold mapLoop
    have hv' : v < NPAGES := by omega
    refine (h.walkpgdir_spec hv').bind fun r u hr => ?_
    obtain ⟨hu, hpte, hkept, hr⟩ := hr
    have hsu : Kept others d {w | v ≤ w ∧ w ≤ last} s u :=
      hkept.mono (Set.empty_subset _) subset_rfl
    cases r with
    | none =>
      obtain ⟨rfl, hfree, -⟩ := hr
      exact ⟨.inr ⟨rfl, hfree⟩, hu, hdir, hsu⟩
    | some x =>
      obtain ⟨rfl, htabled⟩ := hr
      have htable := htabled.table
      have hentry : u.word (frame (u.word d (v / 1024))) (v % 1024) = s.pte d v :=
        (if_pos htable).symm.trans (hpte v hv')
      rw [Wp.bind_iff, Wp.get_iff, hentry, if_neg (show ¬ (s.pte d v &&& PTE_P ≠ 0) from
        hnone v le_rfl hle)]
      simp only [Wp.bind_iff, Wp.modify_iff]
      obtain ⟨ht, hpv, hptew⟩ := hu.map_kernel hv' hv htable (p * PGSIZE ||| perm ||| PTE_P) rfl
      obtain ⟨t, htdef⟩ : ∃ t, t = u.setWord (frame (u.word d (v / 1024))) (v % 1024)
        (p * PGSIZE ||| perm ||| PTE_P) := ⟨_, rfl⟩
      have hw : ∀ i < NPDENTRIES, t.word d i = u.word d i :=
        (hu.tables.pte_setWord hv' htable (p * PGSIZE ||| perm ||| PTE_P) htdef).1
      rw [← htdef] at ht hpv hptew ⊢
      have hdir' : DirWritable t d :=
        hdir.tabled (htabled.congr hw (by rw [htdef]; rfl) (div_lt hv'))
      -- the entry fits into a word
      replace hpv : t.pte d v = p * PGSIZE ||| (perm ||| PTE_P) := by
        rw [hpv, Nat.lor_assoc, Nat.mod_eq_of_lt]
        rw [entry_eq (perm_lt hperm)]
        have := perm_lt hperm
        unfold NPAGES at hp
        unfold PGSIZE at *
        omega
      have hut : Kept others d {w | v ≤ w ∧ w ≤ last} u t := by
        refine hu.kept ht subset_rfl subset_rfl
          (fun w hw hwk => hptew w hw ?_) fun g _ htab _ _ => ?_
        · rintro rfl
          exact hwk ⟨le_rfl, hle⟩
        have hg := htab _ (div_lt hv') (by rwa [hw _ (div_lt hv')])
        rw [hw _ (div_lt hv')] at hg
        rw [htdef]
        exact Mem.page_setWord_of_ne hg
      have hst := hsu.trans hut
      split_ifs with hend
      · have heq : v = last := Nat.eq_of_mul_eq_mul_right (by decide) hend
        refine ⟨.inl ⟨rfl, fun w hvw hwl => ?_⟩, ht, hdir', hst⟩
        obtain rfl : w = v := by omega
        rw [hpv, Nat.sub_self, Nat.add_zero]
      · have hne : v ≠ last := fun hc => hend (hc ▸ rfl)
        have hnext : (v * PGSIZE + PGSIZE) % 2 ^ 32 = (v + 1) * PGSIZE := by
          unfold NPAGES at hlast
          unfold PGSIZE
          omega
        have hnext' : (p * PGSIZE + PGSIZE) % 2 ^ 32 = (p + 1) * PGSIZE := by
          unfold NPAGES at hp
          unfold PGSIZE
          omega
        rw [hnext, hnext']
        refine (ih ht hdir' (by omega) (by omega) (by omega) (fun w hw hwl => ?_) (by omega)).post
          fun r y ⟨hr, hy, hdiry, hky⟩ => ⟨?_, hy, hdiry,
            hst.trans (hky.mono (fun w hw => ?_) subset_rfl)⟩
        · rw [hptew w (by omega) (by omega), hpte w (by omega)]
          exact hnone w (by omega) hwl
        · refine hr.imp_left fun ⟨hr, hrange⟩ => ⟨hr, fun w hvw hwl => ?_⟩
          rcases Nat.eq_or_lt_of_le hvw with rfl | hvw
          · rw [hky.kernel v hv' hv fun hmem => absurd hmem.1 (by omega), hpv, Nat.sub_self,
              Nat.add_zero]
          · rw [hrange w hvw hwl, show p + 1 + (w - (v + 1)) = p + (w - v) by omega]
        · exact ⟨by have := hw.1; omega, hw.2⟩

/-- `mappages` for a range of the kernel part that is not mapped yet. -/
theorem mappages_kernel {va size pa perm : ℕ} (h : Space im others s d) (hdir : DirWritable s d)
    (hva : KERNBASE ≤ va) (hsize : 0 < size) (hend : va + size ≤ 2 ^ 32) (hperm : perm < PGSIZE)
    (hpa : pa % PGSIZE = 0) (hpaend : pa + size ≤ 2 ^ 32) (hva' : va % PGSIZE = 0)
    (hnone : ∀ w, va / PGSIZE ≤ w → w ≤ (va + size - 1) / PGSIZE → ¬ Present (s.pte d w)) :
    Wp (mappages d va size pa perm) s
      (fun r t => (r = 0 ∧ Ranged t d (va / PGSIZE) ((va + size - 1) / PGSIZE) (pa / PGSIZE) perm ∨
          r = -1 ∧ t.free = []) ∧ Space im others t d ∧ DirWritable t d ∧
        Kept others d {w | va / PGSIZE ≤ w ∧ w ≤ (va + size - 1) / PGSIZE} s t) fun _ => False := by
  have hmod : (va + size + (2 ^ 32 - 1)) % 2 ^ 32 = va + size - 1 := by omega
  have hpa' : pa = pa / PGSIZE * PGSIZE := by
    unfold PGSIZE at *
    omega
  rw [mappages, hmod, PGROUNDDOWN, PGROUNDDOWN]
  nth_rewrite 1 [hpa']
  refine h.mapLoop_kernel ?_ hperm _ hdir ?_ ?_ ?_ hnone ?_ <;>
  · simp only [NPAGES, NUSER, KERNBASE, PGSIZE] at hva hva' hpa ⊢
    omega

end Space

/-- The size of a range of `kmap`. -/
def Kmap.size (k : Kmap) : ℕ := (k.phys_end + (2 ^ 32 - k.phys_start)) % 2 ^ 32

theorem V2P_eq {a : ℕ} (h : KERNBASE ≤ a) (h' : a < 2 ^ 32) : V2P a = a - KERNBASE := by
  unfold KERNBASE at h
  unfold V2P KERNBASE
  omega

/-- A range of `kmap` begins with a page of the kernel part. -/
structure Kmap.Ok (k : Kmap) : Prop where
  ge : KERNBASE ≤ k.virt
  pos : 0 < k.size
  le : k.virt + k.size ≤ 2 ^ 32
  align : k.virt % PGSIZE = 0

/-- The pages of a range of `kmap`. -/
def Kmap.Covers (k : Kmap) (w : ℕ) : Prop :=
  k.virt / PGSIZE ≤ w ∧ w ≤ (k.virt + k.size - 1) / PGSIZE

theorem Kmap.Ok.bounds {k : Kmap} (h : k.Ok) {w : ℕ} (hw : k.Covers w) :
    w < NPAGES ∧ NUSER ≤ w := by
  obtain ⟨hge, hpos, hle, -⟩ := h
  obtain ⟨hw₁, hw₂⟩ := hw
  unfold KERNBASE at hge
  unfold PGSIZE at hw₁ hw₂
  unfold NPAGES NUSER KERNBASE PGSIZE
  omega

section Kmap

variable (im : Image)

theorem V2P_KERNLINK : V2P KERNLINK = EXTMEM := V2P_eq (by decide) (by decide)

theorem V2P_data : V2P im.data = im.data - KERNBASE := by
  have hgt := im.data_gt
  have hlt := im.data_lt
  unfold KERNLINK at hgt
  refine V2P_eq (by omega) ?_
  unfold KERNBASE PHYSTOP at hlt
  omega

theorem size_text : Kmap.size ⟨KERNLINK, V2P KERNLINK, V2P im.data, 0⟩ = im.data - KERNLINK := by
  have hgt := im.data_gt
  have hlt := im.data_lt
  unfold KERNLINK KERNBASE EXTMEM at hgt
  unfold KERNBASE PHYSTOP at hlt
  simp only [Kmap.size, V2P_data, V2P_KERNLINK]
  simp only [KERNLINK, KERNBASE, EXTMEM]
  omega

theorem size_data :
    Kmap.size ⟨im.data, V2P im.data, PHYSTOP, PTE_W⟩ = KERNBASE + PHYSTOP - im.data := by
  have hgt := im.data_gt
  have hlt := im.data_lt
  unfold KERNLINK KERNBASE EXTMEM at hgt
  unfold KERNBASE PHYSTOP at hlt
  simp only [Kmap.size, V2P_data, KERNBASE, PHYSTOP]
  omega

/-- The ranges of `kmap` lie in the kernel part, one after the other. -/
theorem kmap_ranges :
    (∀ k ∈ kmap im, k.Ok) ∧ (kmap im).Pairwise fun k k' => k.virt + k.size ≤ k'.virt := by
  have hgt := im.data_gt
  have hlt := im.data_lt
  have halign := im.data_align
  unfold KERNLINK KERNBASE EXTMEM at hgt
  unfold KERNBASE PHYSTOP at hlt
  constructor
  · intro k hk
    simp only [kmap, List.mem_cons, List.not_mem_nil, or_false] at hk
    rcases hk with rfl | rfl | rfl | rfl
    · exact ⟨by decide, by decide, by decide, by decide⟩
    · refine ⟨show KERNBASE ≤ KERNLINK by decide, ?_, ?_, show KERNLINK % PGSIZE = 0 by decide⟩ <;>
        rw [size_text] <;> simp only [KERNLINK, KERNBASE, EXTMEM] <;> omega
    · refine ⟨?_, ?_, ?_, halign⟩
      · simp only [KERNBASE]
        omega
      all_goals
        rw [size_data]
        simp only [KERNBASE, PHYSTOP]
        omega
    · exact ⟨by decide, by decide, by decide, by decide⟩
  · have hsize₁ : Kmap.size ⟨KERNBASE, 0, EXTMEM, PTE_W⟩ = EXTMEM := by decide
    simp only [kmap, List.pairwise_cons, List.mem_cons, List.not_mem_nil,
      or_false, forall_eq_or_imp,
      forall_eq, hsize₁, size_text, size_data]
    simp only [KERNLINK, KERNBASE, EXTMEM, PHYSTOP, DEVSPACE]
    refine ⟨⟨?_, ?_, ?_⟩, ⟨?_, ?_⟩, ?_, fun _ hk => hk.elim, List.Pairwise.nil⟩ <;> omega

/-- The frames of a range of `kmap`. -/
structure Kmap.Backed (k : Kmap) : Prop where
  align : k.phys_start % PGSIZE = 0
  size : k.size % PGSIZE = 0
  le : k.phys_start + k.size ≤ 2 ^ 32
  perm : k.perm < PGSIZE

theorem kmap_backed : ∀ k ∈ kmap im, k.Backed := by
  have hgt := im.data_gt
  have hlt := im.data_lt
  have halign := im.data_align
  unfold KERNLINK KERNBASE EXTMEM at hgt
  unfold KERNBASE PHYSTOP at hlt
  unfold PGSIZE at halign
  intro k hk
  simp only [kmap, List.mem_cons, List.not_mem_nil, or_false] at hk
  rcases hk with rfl | rfl | rfl | rfl
  · exact ⟨by decide, by decide, by decide, by decide⟩
  · refine ⟨?_, ?_, ?_, show 0 < PGSIZE by decide⟩
    · dsimp only
      rw [V2P_KERNLINK]
      decide
    · rw [size_text]
      simp only [KERNLINK, KERNBASE, EXTMEM, PGSIZE]
      omega
    · rw [size_text, V2P_KERNLINK]
      simp only [KERNLINK, KERNBASE, EXTMEM]
      omega
  · refine ⟨?_, ?_, ?_, show PTE_W < PGSIZE by decide⟩
    · simp only [V2P_data, KERNBASE, PGSIZE]
      omega
    all_goals
      rw [size_data]
      simp only [V2P_data, KERNBASE, PHYSTOP, PGSIZE]
      omega
  · exact ⟨by decide, by decide, by decide, by decide⟩

end Kmap

/-- A range of `kmap` is mapped. -/
def Kmap.Mapped (k : Kmap) (t : Mem) (d : ℕ) : Prop :=
  Ranged t d (k.virt / PGSIZE) ((k.virt + k.size - 1) / PGSIZE) (k.phys_start / PGSIZE) k.perm

/-- A page of a later range is none of an earlier one. -/
theorem Kmap.Ok.apart {k k' : Kmap} (h : k.Ok) (h' : k'.Ok) (hle : k.virt + k.size ≤ k'.virt)
    {w : ℕ} (hw' : k'.Covers w) : ¬ k.Covers w := fun hw => by
  have halign := h'.align
  have hpos := h.pos
  have hw₁ := hw'.1
  have hw₂ := hw.2
  unfold PGSIZE at *
  omega

/-- The loop of `setupkvm`, over ranges whose pages are not mapped yet. -/
theorem Space.kmapLoop_spec {im : Image} {others : Set ℕ} {d : ℕ} (ks : List Kmap)
    (hok : ∀ k ∈ ks, k.Ok) (hbacked : ∀ k ∈ ks, k.Backed)
    (hpair : ks.Pairwise fun k k' => k.virt + k.size ≤ k'.virt) {s : Mem}
    (h : Space im others s d) (hdir : DirWritable s d)
    (hnone : ∀ k ∈ ks, ∀ w, k.Covers w → ¬ Present (s.pte d w)) :
    Wp (kmapLoop im d ks) s
      (fun r t => (∀ f ∈ others, t.page f = s.page f) ∧
        match r with
        | some d' => d' = d ∧ Space im others t d ∧
            Kept others d {w | ∃ k ∈ ks, k.Covers w} s t ∧ DirWritable t d ∧
            ∀ k ∈ ks, k.Mapped t d
        | none => AllFree im others t ∧ ∃ u, Space im others u d ∧ u.free = [] ∧
            ∀ w < NUSER, u.userPage d w = s.userPage d w) fun _ => False := by
  -- the pages of a range are none of the user
  have huser : ∀ {k : Kmap} {s u : Mem}, k.Ok → Kept others d {w | k.Covers w} s u →
      ∀ w < NUSER, u.userPage d w = s.userPage d w := fun hk hkept w hw =>
    hkept.user w hw fun hc => absurd hw (Nat.not_lt.mpr (hk.bounds hc).2)
  induction ks generalizing s with
  | nil => exact ⟨fun _ _ => rfl, rfl, h, .refl .., hdir, by simp⟩
  | cons k ks ih =>
    obtain ⟨hk, hok⟩ := List.forall_mem_cons.mp hok
    obtain ⟨hbk, hbacked⟩ := List.forall_mem_cons.mp hbacked
    obtain ⟨hfirst, hpair⟩ := List.pairwise_cons.mp hpair
    unfold kmapLoop
    refine (h.mappages_kernel hdir hk.ge hk.pos hk.le hbk.perm hbk.align hbk.le hk.align
      fun w hw hwl => hnone k List.mem_cons_self w ⟨hw, hwl⟩).bind
        fun r u ⟨hr, hu, hdiru, hku⟩ => ?_
    rcases hr with ⟨rfl, hrange⟩ | ⟨rfl, hempty⟩
    · rw [if_neg (by decide)]
      refine (ih hok hbacked hpair hu hdiru fun k' hk' w hw => ?_).post fun r t ⟨hother, ht⟩ =>
          ⟨fun f hf => (hother f hf).trans (hku.other f hf), ?_⟩
      · -- the pages of a later range lie behind those of this one
        obtain ⟨hlt, hge⟩ := (hok k' hk').bounds hw
        rw [hku.kernel w hlt hge (hk.apart (hok k' hk') (hfirst k' hk') hw)]
        exact hnone k' (List.mem_cons_of_mem k hk') w hw
      · cases r with
        | none =>
          obtain ⟨hall, y, hy, hempty, hsame⟩ := ht
          exact ⟨hall, y, hy, hempty, fun w hw => (hsame w hw).trans (huser hk hku w hw)⟩
        | some d' =>
          obtain ⟨hd, ht, hkt, hdirt, hmapped⟩ := ht
          have hmine : k.Mapped t d := fun w hw hwl => by
            obtain ⟨hlt, hge⟩ := hk.bounds ⟨hw, hwl⟩
            rw [hkt.kernel w hlt hge]
            · exact hrange w hw hwl
            · rintro ⟨k', hk', hw'⟩
              exact hk.apart (hok k' hk') (hfirst k' hk') hw' ⟨hw, hwl⟩
          have hkept : Kept others d {w | ∃ k' ∈ k :: ks, k'.Covers w} s t :=
            (hku.mono (show _ ⊆ {w | ∃ k' ∈ k :: ks, k'.Covers w} from
              fun w hw => ⟨k, List.mem_cons_self, hw⟩) subset_rfl).trans
              (hkt.mono (fun w ⟨k', hk', hw⟩ => ⟨k', List.mem_cons_of_mem k hk', hw⟩) subset_rfl)
          exact ⟨hd, ht, hkept, hdirt, List.forall_mem_cons.mpr ⟨hmine, hmapped⟩⟩
    · rw [if_pos (by decide)]
      exact hu.freevm_spec.bind fun _ t ⟨hall, hother⟩ =>
        ⟨fun f hf => (hother f hf).trans (hku.other f hf), hall, u, hu, hempty, huser hk hku⟩

/-- The entries of a page directory are those of `kmap`. -/
structure KernelMap (im : Image) (t : Mem) (d : ℕ) : Prop where
  mapped : ∀ k ∈ kmap im, k.Mapped t d
  rest : ∀ w < NPAGES, (∀ k ∈ kmap im, ¬ k.Covers w) → ¬ Present (t.pte d w)
  dir : DirWritable t d

theorem kalloc_nil {s : Mem} (h : s.free = []) : kalloc s = .ok (none, s) := by
  refine Wp.eq_ok_of ?_
  unfold kalloc
  rw [Wp.bind_iff, Wp.get_iff, h]
  exact ⟨rfl, rfl⟩

theorem kalloc_cons {s : Mem} {f : ℕ} {l : List ℕ} (h : s.free = f :: l) :
    kalloc s = .ok (some f, { s with free := l }) := by
  refine Wp.eq_ok_of ?_
  unfold kalloc
  rw [Wp.bind_iff, Wp.get_iff, h]
  exact ⟨rfl, rfl⟩

/-- `setupkvm`, when the pages that are not free are the `others`: a page directory with no user
pages; or nothing, for want of pages. -/
theorem AllFree.setupkvm_spec {im : Image} {others : Set ℕ} {s : Mem} (h : AllFree im others s) :
    Wp (setupkvm im) s
      (fun r t => (∀ f ∈ others, t.page f = s.page f) ∧
        match r with
        | some d => Space im others t d ∧ (∀ w < NUSER, t.userPage d w = none) ∧ KernelMap im t d
        | none => AllFree im others t ∧ s.free.length ≤ 1 + NPDENTRIES) fun _ => False := by
  unfold setupkvm
  rw [Wp.bind_iff]
  cases hfree : s.free with
  | nil =>
    rw [Wp.of_eq (kalloc_nil hfree)]
    exact ⟨fun _ _ => rfl, h, by simp⟩
  | cons f l =>
    -- the test of `PHYSTOP` against `DEVSPACE` never panics
    have htop : ¬ DEVSPACE < P2V PHYSTOP := by
      unfold P2V
      decide
    obtain ⟨hnew, hzero, hother⟩ := Space.newDir (t := { s with free := l }) h hfree rfl
    obtain ⟨hok, hpair⟩ := kmap_ranges im
    rw [Wp.of_eq (kalloc_cons hfree)]
    dsimp only
    rw [Wp.bind_iff, Wp.modify_iff, if_neg htop]
    have hdir : DirWritable (Mem.setPage { s with free := l } f (Bytes.zero PGSIZE)) f := by
      intro i _ hp
      rw [Mem.word, Mem.page_setPage_self, Bytes.readLE_zero] at hp
      exact absurd hp not_present_zero
    refine (hnew.kmapLoop_spec _ hok (kmap_backed im) hpair hdir fun k _ w _ => ?_).post ?_
    · rw [hzero]
      exact not_present_zero
    · rintro r t ⟨hkept, ht⟩
      refine ⟨fun g hg => (hkept g hg).trans (hother g hg), ?_⟩
      cases r with
      | none =>
        obtain ⟨hall, u, hu, hempty, hsame⟩ := ht
        have hle := hu.length_le (n := 0) (fun v hv hp => ?_)
          h.nodup fun g hg => (h.mem_iff g).mp hg
        · rw [hempty, List.length_nil] at hle
          exact ⟨hall, hfree ▸ by omega⟩
        · rw [present_iff_userPage, hsame v hv, Mem.userPage, hzero, if_neg not_present_zero] at hp
          exact absurd rfl hp
      | some d =>
        obtain ⟨rfl, ht, hkt, hdirt, hmapped⟩ := ht
        have hnone : ∀ w < NUSER, t.userPage d w = none := fun w hw => by
          rw [hkt.user w hw, Mem.userPage, hzero, if_neg not_present_zero]
          rintro ⟨k, hk, hw'⟩
          exact absurd hw (Nat.not_lt.mpr ((hok k hk).bounds hw').2)
        refine ⟨ht, hnone, hmapped, fun w hw hcover => ?_, hdirt⟩
        rcases Nat.lt_or_ge w NUSER with hwu | hwu
        · rw [present_iff_userPage, not_not]
          exact hnone w hwu
        · rw [hkt.kernel w hw hwu fun hx => hx.elim fun k hk => hcover k hk.1 hk.2, hzero]
          exact not_present_zero

/-- A page in use is given back. -/
theorem AllFree.kfree_spec {im : Image} {others : Set ℕ} {s : Mem} {f : ℕ}
    (h : AllFree im (insert f others) s) (hf : f ∉ others) (ha : im.Avail f) :
    Wp (kfree im f) s (fun _ t => AllFree im others t ∧ ∀ g ∈ others, t.page g = s.page g)
      fun _ => False := by
  rw [Wp.of_eq (Space.kfree_eq ha s)]
  refine ⟨⟨List.nodup_cons.mpr ⟨fun hmem => ?_, h.nodup⟩, fun g => ?_⟩, fun g hg => ?_⟩
  · exact ((h.mem_iff f).mp hmem).2 (Set.mem_insert f others)
  · rw [List.mem_cons, h.mem_iff, Set.mem_insert_iff, not_or]
    refine ⟨fun hg => ?_, fun ⟨hga, hgo⟩ => ?_⟩
    · rcases hg with rfl | hg
      · exact ⟨ha, hf⟩
      · exact ⟨hg.1, hg.2.2⟩
    · by_cases hgf : g = f
      · exact .inl hgf
      · exact .inr ⟨hga, hgf, hgo⟩
  · refine Mem.page_setPage_of_ne ?_
    rintro rfl
    exact hf hg

/-! ### The kernel map, address by address -/

namespace Mem

/-- The physical address that the hardware finds for an address. -/
def translate (s : Mem) (d va : ℕ) : Option ℕ :=
  if Present (s.pte d (va / PGSIZE)) then some
    (frame (s.pte d (va / PGSIZE)) * PGSIZE + va % PGSIZE)
  else none

/-- The hardware lets the kernel write: both entries have `PTE_W`. -/
def Writable (s : Mem) (d va : ℕ) : Prop :=
  s.word d (va / PGSIZE / 1024) &&& PTE_W ≠ 0 ∧ s.pte d (va / PGSIZE) &&& PTE_W ≠ 0

end Mem

/-- What a range that is mapped means for the hardware. -/
theorem Kmap.Mapped.translate {k : Kmap} {t : Mem} {d va : ℕ} (h : k.Mapped t d) (hok : k.Ok)
    (hbacked : k.Backed) (hdir : DirWritable t d) (hlo : k.virt ≤ va) (hhi : va < k.virt + k.size) :
    t.translate d va = some (va - k.virt + k.phys_start) ∧
      (t.Writable d va ↔ k.perm &&& PTE_W ≠ 0) ∧
      t.pte d (va / PGSIZE) &&& PTE_U = k.perm &&& PTE_U := by
  have hcovers : k.Covers (va / PGSIZE) := by
    unfold Kmap.Covers PGSIZE
    omega
  have hpte := h _ hcovers.1 hcovers.2
  have hperm := perm_lt hbacked.perm
  have hpresent : Present (t.pte d (va / PGSIZE)) := hpte ▸ present_entry _ _
  have hflag : ∀ m < PGSIZE, t.pte d (va / PGSIZE) &&& m = (k.perm ||| PTE_P) &&& m := by
    intro m hm
    rw [hpte, entry_and hm]
  refine ⟨?_, ?_, ?_⟩
  · rw [Mem.translate, if_pos hpresent, hpte, frame_entry hperm]
    have halign := hok.align
    have halign' := hbacked.align
    unfold PGSIZE at *
    congr 1
    omega
  · have htable := hdir _ (div_lt (hok.bounds hcovers).1) (present_table hpresent)
    rw [Mem.Writable, hflag PTE_W (by decide), Nat.and_or_distrib_right]
    rw [show PTE_P &&& PTE_W = 0 by decide, Nat.or_zero]
    exact and_iff_right htable
  · rw [hflag PTE_U (by decide), Nat.and_or_distrib_right, show PTE_P &&& PTE_U = 0 by decide,
      Nat.or_zero]

/-- Outside the ranges nothing is mapped. -/
theorem KernelMap.translate_none {im : Image} {t : Mem} {d va : ℕ} (h : KernelMap im t d)
    (hva : va < 2 ^ 32) (hout : ∀ k ∈ kmap im, va < k.virt ∨ k.virt + k.size ≤ va) :
    t.translate d va = none := by
  refine if_neg (h.rest _ ?_ fun k hk hc => ?_)
  · unfold NPAGES PGSIZE
    omega
  · obtain ⟨-, hpos, -, halign⟩ := (kmap_ranges im).1 k hk
    have hsize := (kmap_backed im k hk).size
    have hside := hout k hk
    obtain ⟨h₁, h₂⟩ := hc
    unfold PGSIZE at *
    omega

/-- The kernel map, by the range that an address is in. -/
theorem KernelMap.exact {im : Image} {t : Mem} {d va : ℕ} (h : KernelMap im t d)
    (hva : va < 2 ^ 32) :
    t.translate d va =
      (if KERNBASE ≤ va ∧ va < KERNBASE + PHYSTOP then some (va - KERNBASE)
      else if DEVSPACE ≤ va then some va else none) ∧
    (t.translate d va ≠ none →
      (t.Writable d va ↔ ¬ (KERNLINK ≤ va ∧ va < im.data)) ∧
        t.pte d (va / PGSIZE) &&& PTE_U = 0) := by
  have hgt := im.data_gt
  have hlt := im.data_lt
  have hrange := fun k hk (hlo : k.virt ≤ va) => (h.mapped k hk).translate ((kmap_ranges im).1 k hk)
    (kmap_backed im k hk) h.dir hlo
  have hlow := hrange ⟨KERNBASE, 0, EXTMEM, PTE_W⟩ (by simp [kmap])
  have htext := hrange ⟨KERNLINK, V2P KERNLINK, V2P im.data, 0⟩ (by simp [kmap])
  have hdata := hrange ⟨im.data, V2P im.data, PHYSTOP, PTE_W⟩ (by simp [kmap])
  have hdev := hrange ⟨DEVSPACE, DEVSPACE, 0, PTE_W⟩ (by simp [kmap])
  rw [size_text, V2P_KERNLINK] at htext
  rw [size_data, V2P_data] at hdata
  rw [show Kmap.size ⟨KERNBASE, 0, EXTMEM, PTE_W⟩ = EXTMEM by decide] at hlow
  rw [show Kmap.size ⟨DEVSPACE, DEVSPACE, 0, PTE_W⟩ = 2 ^ 32 - DEVSPACE by decide] at hdev
  dsimp only at hlow htext hdata hdev
  have hlink : KERNLINK = KERNBASE + EXTMEM := rfl
  -- physical memory is mapped in three pieces, of which the middle one is read-only
  by_cases hphys : KERNBASE ≤ va ∧ va < KERNBASE + PHYSTOP
  · rw [if_pos hphys]
    by_cases hbelow : va < KERNLINK
    · obtain ⟨htr, hw, hu⟩ := hlow hphys.1 (by omega)
      refine ⟨by rw [htr, Nat.add_zero], fun _ => ⟨hw.trans (iff_of_true (by decide) ?_), hu⟩⟩
      omega
    · by_cases hro : va < im.data
      · obtain ⟨htr, hw, hu⟩ := htext (by omega) (by omega)
        rw [htr, show va - KERNLINK + EXTMEM = va - KERNBASE by omega]
        refine ⟨rfl, fun _ => ⟨hw.trans (iff_of_false (by decide) ?_), ?_⟩⟩
        · omega
        · rw [hu, Nat.zero_and]
      · obtain ⟨htr, hw, hu⟩ := hdata (by omega) (by omega)
        rw [htr, show va - im.data + (im.data - KERNBASE) = va - KERNBASE by omega]
        refine ⟨rfl, fun _ => ⟨hw.trans (iff_of_true (by decide) ?_), hu⟩⟩
        omega
  · rw [if_neg hphys]
    have hroom : KERNBASE + PHYSTOP ≤ DEVSPACE := by decide
    by_cases hdevice : DEVSPACE ≤ va
    · obtain ⟨htr, hw, hu⟩ := hdev hdevice (by omega)
      rw [if_pos hdevice, htr, Nat.sub_add_cancel hdevice]
      refine ⟨rfl, fun _ => ⟨hw.trans (iff_of_true (by decide) ?_), hu⟩⟩
      omega
    · have hnone : t.translate d va = none := h.translate_none hva fun k hk => ?_
      · rw [if_neg hdevice]
        exact ⟨hnone, fun hc => absurd hnone hc⟩
      · simp only [kmap, List.mem_cons, List.not_mem_nil, or_false] at hk
        rcases hk with rfl | rfl | rfl | rfl
        · rw [show Kmap.size ⟨KERNBASE, 0, EXTMEM, PTE_W⟩ = EXTMEM by decide]
          have : EXTMEM ≤ PHYSTOP := by decide
          dsimp only
          omega
        · rw [size_text]
          dsimp only
          omega
        · rw [size_data]
          dsimp only
          omega
        · exact .inl (Nat.lt_of_not_le hdevice)

/-- `setupkvm` returns a page directory that maps `[KERNBASE, KERNBASE+PHYSTOP)` to physical memory
and the addresses from `DEVSPACE` on to themselves, or 0 with the same pages free as before. Only
the kernel's text is not writeable, and nothing is for the user. The result is 0 only if there are
not more free pages than a page directory has entries, and one. -/
theorem setupkvm_exact {im : Image} {s : Mem} (hnodup : s.free.Nodup)
    (hfree : ∀ f ∈ s.free, im.Avail f) :
    ∃ r t, setupkvm im s = .ok (r, t) ∧ match r with
      | none => t.free.Perm s.free ∧ s.free.length ≤ 1 + NPDENTRIES
      | some d => ∀ va < 2 ^ 32,
          t.translate d va =
            (if KERNBASE ≤ va ∧ va < KERNBASE + PHYSTOP then some (va - KERNBASE)
            else if DEVSPACE ≤ va then some va else none) ∧
          (t.translate d va ≠ none →
            (t.Writable d va ↔ ¬ (KERNLINK ≤ va ∧ va < im.data)) ∧
              t.pte d (va / PGSIZE) &&& PTE_U = 0) := by
  have hall : AllFree im {f | f ∉ s.free} s :=
    ⟨hnodup, fun f => ⟨fun hf => ⟨hfree f hf, fun hc => hc hf⟩, fun hf => not_not.mp hf.2⟩⟩
  obtain ⟨r, t, hrun, -, hr⟩ := hall.setupkvm_spec.exists_ok fun _ => id
  refine ⟨r, t, hrun, ?_⟩
  cases r with
  | none =>
    obtain ⟨ht, hshort⟩ := hr
    refine ⟨(List.perm_ext_iff_of_nodup ht.nodup hnodup).mpr fun f => ?_, hshort⟩
    rw [ht.mem_iff]
    exact ⟨fun hf => not_not.mp hf.2, fun hf => ⟨hfree f hf, fun hc => hc hf⟩⟩
  | some d =>
    obtain ⟨-, -, hmap⟩ := hr
    exact fun va hva => hmap.exact hva

/-- One free page is not enough, and it is free again. With two thousand there is a kernel map. -/
theorem setupkvm_exact_pages :
    (∃ t, setupkvm smallImage ⟨fun _ => Bytes.zero PGSIZE, [301]⟩ = .ok (none, t) ∧
      t.free.Perm [301]) ∧
    ∃ d t, setupkvm smallImage ⟨fun _ => Bytes.zero PGSIZE, List.range' 301 2000⟩ =
      .ok (some d, t) ∧
      t.translate d KERNBASE = some 0 ∧ t.translate d 0 = none := by
  constructor
  · obtain ⟨r, t, hrun, hr⟩ := @setupkvm_exact smallImage ⟨fun _ => Bytes.zero PGSIZE, [301]⟩
      (by decide) (by decide)
    have hnone : (setupkvm smallImage ⟨fun _ => Bytes.zero PGSIZE, [301]⟩).toOption.map Prod.fst =
        some none := by decide +kernel
    rw [hrun] at hnone
    obtain rfl : r = none := Option.some.inj hnone
    exact ⟨t, hrun, hr.1⟩
  · obtain ⟨r, t, hrun, hr⟩ := @setupkvm_exact smallImage
      ⟨fun _ => Bytes.zero PGSIZE, List.range' 301 2000⟩ List.nodup_range' fun f hf =>
        smallImage_avail_iff.mpr (by have := List.mem_range'_1.mp hf; unfold PHYSTOP PGSIZE; omega)
    cases r with
    | none => exact absurd hr.2 (by rw [List.length_range']; decide)
    | some d => exact ⟨d, t, hrun, (hr KERNBASE (by decide)).1, (hr 0 (by decide)).1⟩

end Xv6.Vm
