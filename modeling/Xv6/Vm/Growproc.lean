import Xv6.Lib.Transition
import Xv6.Vm.Copyuvm

/-!
# Growing and shrinking a process

`growproc` on a process whose page table maps exactly its pages. Whatever `kalloc` returns, a
growth that fails leaves the process as it was. A shrink is exact as long as something is left:
for `n = -sz` the pages are freed and the new size 0 is taken for a failure, and below that the
sum wraps around and the call does nothing but report success.
-/

namespace Xv6.Vm

open Lib

/-- The page table of a process of size `sz` maps exactly its pages. -/
structure Sized (im : Image) (others : Set ℕ) (s : Mem) (d sz : ℕ) : Prop where
  space : Space im others s d
  le : sz ≤ KERNBASE
  mapped : ∀ v < NUSER, Present (s.pte d v) ↔ v < npages sz

namespace Sized

variable {im : Image} {others : Set ℕ} {s t : Mem} {d sz : ℕ}

theorem userPage_none (h : Sized im others s d sz) {v : ℕ} (hv : v < NUSER) (hn : npages sz ≤ v) :
    s.userPage d v = none :=
  if_neg fun hp => absurd ((h.mapped v hv).mp hp) (by omega)

theorem present (h : Sized im others s d sz) : ∀ v < npages sz, Present (s.pte d v) :=
  fun v hv => (h.mapped v (hv.trans_le (npages_le h.le))).mpr hv

theorem of_kept (h : Sized im others s d sz) (ht : Space im others t d)
    (hkept : Kept others d ∅ s t) : Sized im others t d sz := by
  refine ⟨ht, h.le, fun v hv => ?_⟩
  rw [← h.mapped v hv, present_iff_userPage, present_iff_userPage,
    hkept.user v hv (Set.notMem_empty v)]

/-- With new pages up to a larger size. -/
theorem grown (h : Sized im others s d sz) {newsz : ℕ} (hle : sz ≤ newsz) (hnew : newsz < KERNBASE)
    (ht : Space im others t d) (hkept : Kept others d {w | npages sz ≤ w ∧ w < npages newsz} s t)
    (hpages : ∀ w < NUSER, npages sz ≤ w → w < npages newsz → NewPage (t.userPage d w)) :
    Sized im others t d newsz := by
  refine ⟨ht, hnew.le, fun v hv => ?_⟩
  have hmono := npages_mono hle hnew.le
  rw [present_iff_userPage]
  rcases Nat.lt_or_ge v (npages sz) with hv₀ | hv₀
  · -- a page that was there before
    rw [hkept.user v hv fun hmem => absurd hmem.1 (by omega), ← present_iff_userPage, h.mapped v hv]
    omega
  · rcases Nat.lt_or_ge v (npages newsz) with hvn | hvn
    · obtain ⟨f, hf⟩ := hpages v hv hv₀ hvn
      simp [hf, hvn]
    · rw [hkept.user v hv fun hmem => absurd hmem.2 (by omega), h.userPage_none hv hv₀]
      simp [hvn]

/-- A growth of `n > 0` bytes. -/
theorem allocuvm_spec (h : Sized im others s d sz) {newsz : ℕ} (hlt : sz < newsz) :
    Wp (allocuvm im d sz newsz) s
      (fun r t => r = newsz ∧ Sized im others t d newsz ∨
        r = 0 ∧ Sized im others t d sz ∧ Kept others d ∅ s t)
      fun _ => False := by
  refine (h.space.allocuvm_spec hlt.le fun w hw => h.userPage_none hw).post ?_
  rintro r t ⟨ht, ⟨rfl, hnew, -, hkept, hpages⟩ | ⟨rfl, -, hkept⟩⟩
  · exact .inl ⟨rfl, h.grown hlt.le hnew ht hkept fun w hw hw₀ hwn => (hpages w hw hw₀ hwn).1⟩
  · exact .inr ⟨rfl, h.of_kept ht hkept, hkept⟩

/-- A shrink to a smaller size. -/
theorem deallocuvm_spec (h : Sized im others s d sz) {newsz : ℕ} (hlt : newsz < sz) :
    Wp (deallocuvm im d sz newsz) s (fun r t => r = newsz ∧ Sized im others t d newsz)
      fun _ => False := by
  refine (h.space.deallocuvm_spec h.le hlt).post ?_
  rintro r t ⟨rfl, ht, hkept, hnone⟩
  refine ⟨rfl, ht, hlt.le.trans h.le, fun v hv => ?_⟩
  have hmono := npages_mono hlt.le h.le
  rw [present_iff_userPage]
  by_cases hmem : npages r ≤ v ∧ v < npages sz
  · rw [hnone v hv hmem.1 hmem.2]
    simp [hmem.1]
  · rw [hkept.user v hv hmem, ← present_iff_userPage, h.mapped v hv]
    omega

end Sized

/-! ### A small process -/

/-- `n` free pages, and an empty page directory in frame 300. -/
def freshMem (n : ℕ) : Mem where
  page _ := Bytes.zero PGSIZE
  free := List.range' 301 n

/-- The other frames are in use elsewhere. -/
theorem freshMem_sized {n : ℕ} (hn : 300 + n < PHYSTOP / PGSIZE) :
    Sized smallImage {f | 300 + n < f} (freshMem n) 300 0 := by
  have hmem : ∀ {f}, f ∈ (freshMem n).free ↔ 301 ≤ f ∧ f ≤ 300 + n := by
    intro f
    rw [freshMem, List.mem_range'_1]
    omega
  have hempty : Space smallImage {f | 300 + n < f} (freshMem n) 300 ∧
      ∀ w, (freshMem n).pte 300 w = 0 := by
    refine Space.empty rfl (by decide) (by simp) ?_ (fun g hg => ?_) fun g hg hgo => ?_
    · exact List.nodup_cons.mpr ⟨fun hc => absurd (hmem.mp hc).1 (by decide), List.nodup_range'⟩
    · obtain ⟨hlo, hhi⟩ := hmem.mp hg
      exact ⟨smallImage_avail_iff.mpr ⟨by omega, by omega⟩, Nat.not_lt.mpr hhi⟩
    · have hlo := (smallImage_avail_iff.mp hg).1
      have hhi : g ≤ 300 + n := Nat.not_lt.mp hgo
      rw [List.mem_cons, hmem]
      omega
  refine ⟨hempty.1, by decide, fun v hv => ?_⟩
  rw [hempty.2, show npages 0 = 0 by decide]
  simp [not_present_zero]

/-- Three free pages. -/
def smallMem : Mem := freshMem 3

/-- The other frames are in use elsewhere. -/
theorem smallMem_sized : Sized smallImage {f | 303 < f} smallMem 300 0 :=
  freshMem_sized (n := 3) (by decide)

/-! ### Growing -/

/-- If no user page has changed, a page that was free is free or has become a page table. -/
theorem Space.free_or_table {im : Image} {others : Set ℕ} {s t : Mem} {d f : ℕ}
    (h : Space im others s d) (ht : Space im others t d) (hkept : Kept others d ∅ s t)
    (hf : f ∈ s.free) :
    f ∈ t.free ∨ ∃ i < NPDENTRIES, Present (t.word d i) ∧ frame (t.word d i) = f := by
  by_contra hcon
  rw [not_or] at hcon
  obtain ⟨k, hk⟩ := (ht.owns.used_iff f (h.free f hf)).mp (decide_eq_true hcon.1)
  have hne : f ≠ 0 := (h.free f hf).1.ne_zero
  cases k with
  | dir => exact h.dir_not_mem_free ((show d = f from hk) ▸ hf)
  | table i =>
    have hi : i < NPDENTRIES ∧ Present (t.word d i) := by
      by_contra hc
      exact hne (hk.symm.trans (if_neg hc))
    exact hcon.2 ⟨i, hi.1, hi.2, (Space.part_table hi.1 hi.2).symm.trans hk⟩
  | user v =>
    have hv : v < NUSER ∧ Present (t.pte d v) := by
      by_contra hc
      exact hne (hk.symm.trans (if_neg hc))
    -- the page was mapped before, so that its frame was not free
    have hsame := hkept.user v hv.1 (Set.notMem_empty v)
    have hpte : s.pte d v = t.pte d v := by
      refine pte_of_userPage (b := t.page (frame (t.pte d v))) ?_
      rw [← hsame, Mem.userPage, if_pos hv.2]
    have hframe : frame (s.pte d v) = f := by rw [hpte, ← Space.part_user hv.1 hv.2, hk]
    exact h.user_not_mem_free hv.1 (hpte ▸ hv.2) (hframe ▸ hf)

/-- `allocuvm` on a process whose page table maps exactly its pages. If there are enough free pages
below `KERNBASE` for the new pages and for the page tables that are missing, exactly the pages of
the new size are mapped: the old ones as before, the new ones on free pages, filled with zero, for
the user and writeable. Otherwise the result is 0, no user page has changed, and a page that was
free is free again or has become a page table. -/
theorem allocuvm_exact {im : Image} {others : Set ℕ} {s : Mem} {d oldsz newsz : ℕ}
    (h : Sized im others s d oldsz) (hle : oldsz ≤ newsz) :
    ∃ r t, allocuvm im d oldsz newsz s = .ok (r, t) ∧
      if newsz < KERNBASE ∧ need s d (npages oldsz) (npages newsz) ≤ s.free.length then
        r = newsz ∧ (∀ v < NUSER, Present (t.pte d v) ↔ v < npages newsz) ∧
          (∀ v < npages oldsz, t.userPage d v = s.userPage d v) ∧
          ∀ v, npages oldsz ≤ v → v < npages newsz → ∃ f ∈ s.free, t.userPage d v =
            some (f * PGSIZE ||| (PTE_W ||| PTE_U ||| PTE_P), Bytes.zero PGSIZE)
      else
        r = 0 ∧ (∀ v < NUSER, t.userPage d v = s.userPage d v) ∧
          ∀ f ∈ s.free, f ∈ t.free ∨
            ∃ i < NPDENTRIES, Present (t.word d i) ∧ frame (t.word d i) = f := by
  obtain ⟨r, t, hrun, ht, hcase⟩ :=
    (h.space.allocuvm_spec hle fun w hw => h.userPage_none hw).exists_ok fun _ => id
  refine ⟨r, t, hrun, ?_⟩
  rcases hcase with ⟨rfl, hnew, hneed, hkept, hpages⟩ | ⟨rfl, hneed, hkept⟩
  · have hgrown := h.grown hle hnew ht hkept fun w hw hw₀ hwn => (hpages w hw hw₀ hwn).1
    have hnle := npages_le hnew.le
    rw [if_pos ⟨hnew, hneed⟩]
    refine ⟨rfl, hgrown.mapped, fun v hv => ?_, fun v hv hvn => ?_⟩
    · have := npages_mono hle hnew.le
      exact hkept.user v (by omega) fun hmem => absurd hmem.1 (by omega)
    · obtain ⟨⟨f, hf⟩, hfree⟩ := hpages v (by omega) hv hvn
      rw [pte_of_userPage hf, frame_entry (by decide)] at hfree
      exact ⟨f, hfree, hf⟩
  · have hcond : ¬ (newsz < KERNBASE ∧
        need s d (npages oldsz) (npages newsz) ≤ s.free.length) := fun hc => by
      have := hneed hc.1
      omega
    rw [if_neg hcond]
    exact ⟨rfl, fun v hv => hkept.user v hv (Set.notMem_empty v),
      fun f hf => h.space.free_or_table ht hkept hf⟩

/-- With three free pages there are two for new pages and one for their page table. -/
theorem allocuvm_exact_two_pages :
    (∃ t, allocuvm smallImage 300 0 8192 smallMem = .ok (8192, t) ∧
      ∀ v < NUSER, Present (t.pte 300 v) ↔ v < npages 8192) ∧
    ∃ t, allocuvm smallImage 300 0 12288 smallMem = .ok (0, t) ∧
      ∀ v < NUSER, t.userPage 300 v = smallMem.userPage 300 v := by
  have hneed : need smallMem 300 (npages 0) (npages 8192) = 3 := by decide +kernel
  have hneed' : need smallMem 300 (npages 0) (npages 12288) = 4 := by decide +kernel
  have hlength : smallMem.free.length = 3 := rfl
  obtain ⟨r, t, hrun, hcase⟩ := allocuvm_exact smallMem_sized (Nat.zero_le 8192)
  obtain ⟨r', t', hrun', hcase'⟩ := allocuvm_exact smallMem_sized (Nat.zero_le 12288)
  rw [hneed, hlength, if_pos (by decide)] at hcase
  rw [hneed', hlength, if_neg (by decide)] at hcase'
  obtain ⟨rfl, hmapped, -⟩ := hcase
  obtain ⟨rfl, hsame, -⟩ := hcase'
  exact ⟨⟨t, hrun, hmapped⟩, t', hrun', hsame⟩

/-! ### `growproc` -/

/-- The sum of the size and `n` is the new size: `n` is not negative, or something is left; or
there is nothing to shrink. -/
def GrowGuard (x : Mem × ℕ) (n : Int32) : Prop :=
  0 ≤ n.toInt ∨ 0 < (x.2 : ℤ) + n.toInt ∨ x.2 = 0

/-- What `growproc` does to a process under that condition. -/
theorem Sized.growproc_spec {im : Image} {others : Set ℕ} {s : Mem} {d sz : ℕ}
    (h : Sized im others s d sz) {n : Int32} (hg : GrowGuard (s, sz) n) :
    Wp (growproc im d sz n.toInt) s
      (fun r t => r.1 = 0 ∧ (r.2 : ℤ) = sz + n.toInt ∧ Sized im others t d r.2 ∨
        r.1 = -1 ∧ r.2 = sz ∧ Sized im others t d sz ∧ Kept others d ∅ s t)
      fun _ => False := by
  have hsz := h.le
  have hlo := n.le_toInt
  have hhi := n.toInt_lt
  unfold GrowGuard at hg
  generalize n.toInt = k at hg hlo hhi
  unfold KERNBASE at hsz
  unfold growproc
  dsimp only at hg ⊢
  rcases lt_trichotomy k 0 with hk | rfl | hk
  · rw [if_neg (by omega), if_pos hk]
    rcases hg with hg | hg | rfl
    · omega
    · -- something is left
      have hnew : ((sz + k) % 2 ^ 32).toNat < sz := by omega
      refine (h.deallocuvm_spec hnew).bind fun r t hr => ?_
      obtain ⟨rfl, ht⟩ := hr
      rw [if_neg (by omega)]
      exact .inl ⟨rfl, by dsimp only; omega, ht⟩
    · -- nothing to shrink
      rw [deallocuvm, if_pos (Nat.zero_le _), Wp.bind_iff, Wp.pure_iff, if_pos rfl]
      exact .inr ⟨rfl, rfl, h, .refl ..⟩
  · rw [if_neg (by omega), if_neg (by omega)]
    exact .inl ⟨rfl, (add_zero _).symm, h⟩
  · have hnew : sz < ((sz + k) % 2 ^ 32).toNat := by omega
    rw [if_pos hk]
    refine (h.allocuvm_spec hnew).bind fun r t hr => ?_
    rcases hr with ⟨rfl, ht⟩ | ⟨rfl, ht, hkept⟩
    · rw [if_neg (by omega)]
      exact .inl ⟨rfl, by dsimp only; omega, ht⟩
    · rw [if_pos rfl]
      exact .inr ⟨rfl, rfl, ht, hkept⟩

/-- A call of `growproc` that returns. -/
def GrowStep (im : Image) (d : ℕ) (x : Mem × ℕ) (n : Int32) (y : Mem × ℕ) : Prop :=
  ∃ r, growproc im d x.2 n.toInt x.1 = .ok ((r, y.2), y.1)

theorem Sized.step {im : Image} {others : Set ℕ} {d : ℕ} {x y : Mem × ℕ} {n : Int32}
    (h : Sized im others x.1 d x.2) (hg : GrowGuard x n) (hstep : GrowStep im d x n y) :
    Sized im others y.1 d y.2 := by
  obtain ⟨r, hr⟩ := hstep
  rcases (h.growproc_spec hg).of_ok hr with ⟨-, -, hy⟩ | ⟨-, hsz, hy, -⟩
  · exact hy
  · dsimp only at hsz
    rwa [hsz]

/-- Without that condition, a call does not do what it should: it returns 0 with the size as it was,
or -1 with all pages freed. -/
theorem Sized.growproc_wrong {im : Image} {others : Set ℕ} {s : Mem} {d sz : ℕ}
    (h : Sized im others s d sz) {n : Int32} (hg : ¬ GrowGuard (s, sz) n) :
    Wp (growproc im d sz n.toInt) s
      (fun r t => r.1 = 0 ∧ (r.2 : ℤ) ≠ sz + n.toInt ∨ r.1 = -1 ∧ t.userPage d 0 ≠ s.userPage d 0)
      fun _ => False := by
  have hsz := h.le
  have hlo := n.le_toInt
  have hpos : 0 < npages sz := by
    unfold GrowGuard at hg
    exact (lt_npages_iff hsz).mpr (by dsimp only at hg; omega)
  unfold GrowGuard at hg
  generalize n.toInt = k at hg hlo
  dsimp only at hg
  have hbase : sz ≤ 2 ^ 31 := hsz
  unfold growproc
  rw [if_neg (by omega), if_pos (by omega)]
  by_cases hk : (sz : ℤ) + k = 0
  · -- the pages are freed, and 0 is the size that stands for an error
    have hnew : ((sz + k) % 2 ^ 32).toNat = 0 := by omega
    rw [hnew]
    refine (h.space.deallocuvm_spec h.le (by omega)).bind ?_
    rintro r t ⟨rfl, -, -, hnone⟩
    rw [if_pos rfl]
    refine .inr ⟨rfl, ?_⟩
    rw [hnone 0 (by decide) (Nat.zero_le _) hpos]
    exact (present_iff_userPage.mp (h.present 0 hpos)).symm
  · -- the sum wraps around to a size that is not smaller
    have hge : sz ≤ ((sz + k) % 2 ^ 32).toNat := by omega
    rw [deallocuvm, if_pos hge, Wp.bind_iff, Wp.pure_iff, if_neg (by omega)]
    exact .inl ⟨rfl, by dsimp only; omega⟩

/-- After any sequence of calls under that condition, the page table of the process maps exactly its
pages, and `copyuvm` finds each page it copies. Exactly under the condition the next call returns 0
and leaves a process of size `sz + n` with exactly its pages mapped, or -1 and leaves size and pages
as they are. -/
theorem growproc_exact {im : Image} {others : Set ℕ} {d : ℕ} {s₀ s : Mem} {sz₀ sz : ℕ}
    (h₀ : Sized im others s₀ d sz₀) {labels : List Int32}
    (hrun : Run (Guarded (GrowStep im d) GrowGuard) (s₀, sz₀) labels (s, sz)) :
    (∀ v < NUSER, Present (s.pte d v) ↔ v < PGROUNDUP sz / PGSIZE) ∧
      (∀ n, GrowGuard (s, sz) n ↔ ∃ r sz' t, growproc im d sz n.toInt s = .ok ((r, sz'), t) ∧
        (r = 0 ∧ (sz' : ℤ) = sz + n.toInt ∧
            (∀ v < NUSER, Present (t.pte d v) ↔ v < PGROUNDUP sz' / PGSIZE) ∨
          r = -1 ∧ sz' = sz ∧ ∀ v < NUSER, t.userPage d v = s.userPage d v)) ∧
      ∀ e, copyuvm im d sz s = .error e →
        e ≠ .panic .copyuvmPte ∧ e ≠ .panic .copyuvmPage := by
  have h : Sized im others s d sz := hrun.invariant_of_guard
    (I := fun x => Sized im others x.1 d x.2) h₀ fun _ _ _ hx hg hst => hx.step hg hst
  refine ⟨h.mapped, fun n => ⟨fun hn => ?_, fun hr => ?_⟩, fun e he => ?_⟩
  · obtain ⟨⟨r, sz'⟩, t, hret, hcase⟩ := (h.growproc_spec hn).exists_ok fun _ => id
    refine ⟨r, sz', t, hret, ?_⟩
    rcases hcase with ⟨hr, hsz, ht⟩ | ⟨hr, hsz, -, hkept⟩
    · exact .inl ⟨hr, hsz, ht.mapped⟩
    · exact .inr ⟨hr, hsz, fun v hv => hkept.user v hv (Set.notMem_empty v)⟩
  · by_contra hn
    obtain ⟨r, sz', t, hret, hcase⟩ := hr
    rcases (h.growproc_wrong hn).of_ok hret with ⟨hr, hsz⟩ | ⟨hr, hpage⟩
    · rcases hcase with ⟨-, hsz', -⟩ | ⟨hr', -⟩
      · exact hsz hsz'
      · exact absurd (hr.symm.trans hr') (by decide)
    · rcases hcase with ⟨hr', -⟩ | ⟨-, -, hsame⟩
      · exact absurd (hr.symm.trans hr') (by decide)
      · exact hpage (hsame 0 (by decide))
  · exact ((h.space.copyuvm_spec h.le h.present).of_error he).elim

/-- The first page of a process, and one byte less. -/
theorem growproc_exact_first_page :
    ∃ s t, growproc smallImage 300 0 4096 smallMem = .ok ((0, 4096), s) ∧
      (∀ v < NUSER, Present (s.pte 300 v) ↔ v < PGROUNDUP 4096 / PGSIZE) ∧
        growproc smallImage 300 4096 (-1) s = .ok ((0, 4095), t) := by
  have heval : (growproc smallImage 300 0 4096 smallMem).toOption.bind (fun x =>
      (growproc smallImage 300 4096 (-1) x.2).toOption.map fun y => (x.1, y.1)) =
        some ((0, 4096), (0, 4095)) := by decide +kernel
  obtain ⟨⟨r, s⟩, hs, hrest⟩ := Option.bind_eq_some_iff.mp heval
  obtain ⟨⟨r', t⟩, ht, heq⟩ := Option.map_eq_some_iff.mp hrest
  obtain ⟨rfl, rfl⟩ := Prod.mk.inj heq
  have hstep : GrowStep smallImage 300 (smallMem, 0) 4096 (s, 4096) :=
    ⟨0, eq_ok_of_toOption hs⟩
  have hmapped := (growproc_exact smallMem_sized
    (.single ⟨.inl (by decide), hstep⟩)).1
  exact ⟨s, t, eq_ok_of_toOption hs, hmapped, eq_ok_of_toOption ht⟩

/-- A process of one page. For `n = -sz` its page is freed, and the call returns -1. For
`n = -2 * sz` it returns 0, and the size stays as it is. -/
theorem growproc_to_zero :
    ∃ (s : Mem) (t u : Mem), Sized smallImage {f | 303 < f} s 300 4096 ∧
      growproc smallImage 300 4096 (-4096) s = .ok ((-1, 4096), t) ∧
        Present (s.pte 300 0) ∧ ¬ Present (t.pte 300 0) ∧
          growproc smallImage 300 4096 (-8192) s = .ok ((0, 4096), u) := by
  have heval : (growproc smallImage 300 0 4096 smallMem).toOption.bind (fun x =>
      (growproc smallImage 300 4096 (-4096) x.2).toOption.bind fun y =>
        (growproc smallImage 300 4096 (-8192) x.2).toOption.map fun z =>
          (x.1, y.1, z.1, decide (Present (x.2.pte 300 0)), decide (Present (y.2.pte 300 0)))) =
        some ((0, 4096), (-1, 4096), (0, 4096), true, false) := by decide +kernel
  obtain ⟨⟨r, s⟩, hs, hrest⟩ := Option.bind_eq_some_iff.mp heval
  obtain ⟨⟨r', t⟩, ht, hrest⟩ := Option.bind_eq_some_iff.mp hrest
  obtain ⟨⟨r'', u⟩, hu, heq⟩ := Option.map_eq_some_iff.mp hrest
  simp only [Prod.mk.injEq, decide_eq_true_eq, decide_eq_false_iff_not] at heq
  obtain ⟨rfl, rfl, rfl, hp, hnp⟩ := heq
  have hstep : GrowStep smallImage 300 (smallMem, 0) 4096 (s, 4096) :=
    ⟨0, eq_ok_of_toOption hs⟩
  exact ⟨s, t, u, smallMem_sized.step (.inl (by decide)) hstep, eq_ok_of_toOption ht, hp, hnp,
    eq_ok_of_toOption hu⟩

end Xv6.Vm
