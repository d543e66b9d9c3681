import Xv6.Lib.Ownership
import Xv6.Vm.Model

/-!
# Address spaces in memory

A page directory in memory stands for a map from page numbers to entries. As long as the pages
that make it up are its own (the directory, its page tables and the user pages that it maps are
different frames, and none of them is free or in use elsewhere), an operation on it changes this
map where it means to and nowhere else.
-/

namespace Xv6.Vm

open Lib

/-! ### Words and pages -/

namespace Mem

variable {s : Mem} {f g i j v : ℕ} {b : Bytes PGSIZE}

@[simp] theorem setPage_free : (s.setPage f b).free = s.free := rfl

@[simp] theorem setWord_free : (s.setWord f i v).free = s.free := rfl

@[simp] theorem page_setPage_self : (s.setPage f b).page f = b := Function.update_self ..

theorem page_setPage_of_ne (h : g ≠ f) : (s.setPage f b).page g = s.page g :=
  Function.update_of_ne h ..

theorem page_setWord_of_ne (h : g ≠ f) : (s.setWord f i v).page g = s.page g :=
  page_setPage_of_ne h

theorem word_congr {t : Mem} (h : t.page g = s.page g) : t.word g i = s.word g i := by
  rw [word, word, h]

theorem word_lt : s.word f i < 2 ^ 32 := (s.page f).readLE_lt (4 * i) 4

theorem word_setWord_self (hi : i < 1024) : (s.setWord f i v).word f i = v % 2 ^ 32 := by
  rw [word, setWord, page_setPage_self, Bytes.readLE_writeLE_self _ _ (by unfold PGSIZE; omega)]
  exact congrArg (v % ·) (by decide)

theorem word_setWord_of_ne (h : g ≠ f ∨ j ≠ i) : (s.setWord f i v).word g j = s.word g j := by
  by_cases hg : g = f
  · subst hg
    rw [word, setWord, page_setPage_self, Bytes.readLE_writeLE_of_disjoint _ _ (by omega), word]
  · exact word_congr (page_setWord_of_ne hg)

/-! ### Entries -/

end Mem

/-- `PTE_P` is set. -/
def Present (e : ℕ) : Prop := e &&& PTE_P ≠ 0

instance (e : ℕ) : Decidable (Present e) := inferInstanceAs (Decidable (_ ≠ _))

theorem present_iff (e : ℕ) : Present e ↔ e % 2 = 1 := by
  rw [Present, PTE_P, Nat.and_one_is_mod]
  omega

@[simp] theorem not_present_zero : ¬ Present 0 := by decide

/-- An entry made of a frame and flags. -/
theorem entry_eq {f perm : ℕ} (hperm : perm < PGSIZE) :
    f * PGSIZE ||| perm = f * PGSIZE + perm := by
  rw [PGSIZE, Nat.mul_comm]
  exact (Nat.two_pow_add_eq_or_of_lt (i := 12) hperm f).symm

theorem frame_entry {f perm : ℕ} (hperm : perm < PGSIZE) : frame (f * PGSIZE ||| perm) = f := by
  rw [entry_eq hperm, frame, Nat.mul_comm, Nat.mul_add_div (by decide), Nat.div_eq_of_lt hperm,
    Nat.add_zero]

/-- The flags of an entry. -/
theorem entry_and {f perm m : ℕ} (hm : m < PGSIZE) : (f * PGSIZE ||| perm) &&& m = perm &&& m := by
  refine Nat.eq_of_testBit_eq fun i => ?_
  rw [Nat.testBit_and, Nat.testBit_or, Nat.testBit_and, PGSIZE, show 4096 = 2 ^ 12 by rfl,
    Nat.testBit_mul_two_pow]
  by_cases hi : 12 ≤ i
  · have hbit : m.testBit i = false :=
      Nat.testBit_lt_two_pow (hm.trans_le (Nat.pow_le_pow_right (n := 2) (by decide) hi))
    simp [hbit]
  · simp [hi]

/-- An entry made with `PTE_P` is present. -/
theorem present_entry (e perm : ℕ) : Present (e ||| (perm ||| PTE_P)) := by
  have hbit : (e ||| (perm ||| PTE_P)).testBit 0 = true := by simp [PTE_P]
  rw [Nat.testBit_zero] at hbit
  exact (present_iff _).mpr (of_decide_eq_true hbit)

theorem perm_lt {perm : ℕ} (hperm : perm < PGSIZE) : perm ||| PTE_P < PGSIZE :=
  Nat.or_lt_two_pow (n := 12) hperm (by decide)

namespace Mem

/-- The entry of page `v` in the page directory `d`, 0 if it has no page table for it. -/
def pte (s : Mem) (d v : ℕ) : ℕ :=
  if Present (s.word d (v / 1024)) then s.word (frame (s.word d (v / 1024))) (v % 1024) else 0

/-- The user page `v`: its entry and its contents. -/
def userPage (s : Mem) (d v : ℕ) : Option (ℕ × Bytes PGSIZE) :=
  if Present (s.pte d v) then some (s.pte d v, s.page (frame (s.pte d v))) else none

end Mem

/-- A page that is mapped has a page table. -/
theorem present_table {s : Mem} {d v : ℕ} (hp : Present (s.pte d v)) :
    Present (s.word d (v / 1024)) := by
  by_contra hne
  rw [Mem.pte, if_neg hne] at hp
  exact not_present_zero hp

/-! ### The parts of an address space -/

/-- The number of pages. -/
def NPAGES : ℕ := 2 ^ 20

/-- The number of user pages. -/
def NUSER : ℕ := KERNBASE / PGSIZE

theorem NUSER_le : NUSER ≤ NPAGES := by decide

theorem div_lt {v : ℕ} (hv : v < NPAGES) : v / 1024 < NPDENTRIES := by
  unfold NPAGES at hv
  unfold NPDENTRIES
  omega

/-- A page directory, one of its page tables, or a user page. -/
inductive Part
  | dir
  | table (i : ℕ)
  | user (v : ℕ)
  deriving DecidableEq

/-- The frame of a part of the address space of directory `d`, 0 if there is none. -/
def part (s : Mem) (d : ℕ) : Part → ℕ
  | .dir => d
  | .table i => if i < NPDENTRIES ∧ Present (s.word d i) then frame (s.word d i) else 0
  | .user v => if v < NUSER ∧ Present (s.pte d v) then frame (s.pte d v) else 0

/-- The page frames that the allocator works with, from `end` to `PHYSTOP`. -/
def Image.Avail (im : Image) (f : ℕ) : Prop :=
  im.kend ≤ KERNBASE + f * PGSIZE ∧ f * PGSIZE < PHYSTOP

instance (im : Image) (f : ℕ) : Decidable (im.Avail f) := inferInstanceAs (Decidable (_ ∧ _))

theorem Image.Avail.ne_zero {im : Image} {f : ℕ} (h : im.Avail f) : f ≠ 0 := by
  rintro rfl
  have := im.kend_gt
  obtain ⟨h, -⟩ := h
  omega

/-- The frames of the address space of directory `d` are its own: each of them is one part of
it, and is neither free nor among the `others` in use. All other available frames are free. -/
structure Space (im : Image) (others : Set ℕ) (s : Mem) (d : ℕ) : Prop where
  owns : Owns (part s d) (fun f => decide (f ∉ s.free)) fun f => im.Avail f ∧ f ∉ others
  dir : d ≠ 0
  table : ∀ i < NPDENTRIES, Present (s.word d i) → frame (s.word d i) ≠ 0
  user : ∀ v < NUSER, Present (s.pte d v) → frame (s.pte d v) ≠ 0
  nodup : s.free.Nodup
  free : ∀ f ∈ s.free, im.Avail f ∧ f ∉ others

section Congr

variable {s t : Mem} {d f v : ℕ}

theorem pte_congr (hw : ∀ i < NPDENTRIES, t.word d i = s.word d i)
    (htable : ∀ i < NPDENTRIES, Present (s.word d i) →
      t.page (frame (s.word d i)) = s.page (frame (s.word d i)))
    (hv : v < NPAGES) : t.pte d v = s.pte d v := by
  have hi := div_lt hv
  simp only [Mem.pte, hw _ hi]
  split_ifs with hp
  · exact Mem.word_congr (htable _ hi hp)
  · rfl

theorem userPage_congr (hpte : t.pte d v = s.pte d v)
    (hpage : Present (s.pte d v) → t.page (frame (s.pte d v)) = s.page (frame (s.pte d v))) :
    t.userPage d v = s.userPage d v := by
  simp only [Mem.userPage, hpte]
  split_ifs with hp
  · rw [hpage hp]
  · rfl

theorem part_congr (hw : ∀ i < NPDENTRIES, t.word d i = s.word d i)
    (hpte : ∀ v < NUSER, t.pte d v = s.pte d v) (k : Part) : part t d k = part s d k := by
  cases k with
  | dir => rfl
  | table i =>
    by_cases hi : i < NPDENTRIES
    · simp only [part, hw i hi]
    · simp only [part, hi, false_and, if_false]
  | user v =>
    by_cases hv : v < NUSER
    · simp only [part, hpte v hv]
    · simp only [part, hv, false_and, if_false]

/-- One user entry changes. -/
theorem part_update_user {x : ℕ} (hw : ∀ i < NPDENTRIES, t.word d i = s.word d i)
    (hpte : ∀ w < NPAGES, w ≠ v → t.pte d w = s.pte d w) (hx : part t d (.user v) = x) (k : Part) :
    part t d k = Function.update (part s d) (.user v) x k := by
  by_cases hk : k = .user v
  · subst hk
    rw [Function.update_self, hx]
  · rw [Function.update_of_ne hk]
    cases k with
    | dir => rfl
    | table i =>
      by_cases hi : i < NPDENTRIES
      · simp only [part, hw i hi]
      · simp only [part, hi, false_and, if_false]
    | user w =>
      by_cases hwlt : w < NUSER
      · simp only [part, hpte w (hwlt.trans_le NUSER_le) fun hwv => hk (hwv ▸ rfl)]
      · simp only [part, hwlt, false_and, if_false]

end Congr

/-- The page directory and its page tables are different frames. -/
structure Tables (s : Mem) (d : ℕ) : Prop where
  ne_dir : ∀ i < NPDENTRIES, Present (s.word d i) → frame (s.word d i) ≠ d
  inj : ∀ i < NPDENTRIES, ∀ j < NPDENTRIES, Present (s.word d i) → Present (s.word d j) →
    frame (s.word d i) = frame (s.word d j) → i = j

/-- A word of a page table is the entry of one page. -/
theorem Tables.pte_setWord {s t : Mem} {d v : ℕ} (h : Tables s d) (hv : v < NPAGES)
    (hp : Present (s.word d (v / 1024))) (e : ℕ)
    (ht : t = s.setWord (frame (s.word d (v / 1024))) (v % 1024) e) :
    (∀ i < NPDENTRIES, t.word d i = s.word d i) ∧ t.pte d v = e % 2 ^ 32 ∧
      ∀ w < NPAGES, w ≠ v → t.pte d w = s.pte d w := by
  have hi := div_lt hv
  have hw : ∀ i < NPDENTRIES, t.word d i = s.word d i := fun i _ => by
    rw [ht, Mem.word_setWord_of_ne (.inl (h.ne_dir _ hi hp).symm)]
  refine ⟨hw, ?_, fun w hwlt hwv => ?_⟩
  · rw [Mem.pte, hw _ hi, if_pos hp, ht, Mem.word_setWord_self (Nat.mod_lt _ (by decide))]
  · simp only [Mem.pte, hw _ (div_lt hwlt)]
    split_ifs with hpw
    · rw [ht]
      refine Mem.word_setWord_of_ne ?_
      -- another table, or another word of this one
      by_cases hdiv : w / 1024 = v / 1024
      · exact .inr (by omega)
      · exact .inl fun heq => hdiv (h.inj _ (div_lt hwlt) _ hi hpw hp heq)
    · rfl

namespace Space

variable {im : Image} {others : Set ℕ} {s t : Mem} {d f i j v : ℕ}

theorem part_table (hi : i < NPDENTRIES) (hp : Present (s.word d i)) :
    part s d (.table i) = frame (s.word d i) := if_pos ⟨hi, hp⟩

theorem part_user (hv : v < NUSER) (hp : Present (s.pte d v)) :
    part s d (.user v) = frame (s.pte d v) := if_pos ⟨hv, hp⟩

theorem not_mem_free (h : Space im others s d) {k : Part} (hk : part s d k ≠ 0) :
    part s d k ∉ s.free := by
  simpa using h.owns.used_of_ne_zero hk

theorem table_ne_dir (h : Space im others s d) (hi : i < NPDENTRIES)
    (hp : Present (s.word d i)) : frame (s.word d i) ≠ d := by
  intro heq
  have hpart := part_table hi hp
  have := h.owns.inj (.table i) .dir (hpart ▸ h.table i hi hp) (hpart.trans heq)
  cases this

theorem table_inj (h : Space im others s d) (hi : i < NPDENTRIES) (hj : j < NPDENTRIES)
    (hpi : Present (s.word d i)) (hpj : Present (s.word d j))
    (heq : frame (s.word d i) = frame (s.word d j)) : i = j := by
  have hpart := part_table hi hpi
  have hk := h.owns.inj (.table i) (.table j) (hpart ▸ h.table i hi hpi)
    (hpart.trans (heq.trans (part_table hj hpj).symm))
  exact Part.table.inj hk

theorem tables (h : Space im others s d) : Tables s d :=
  ⟨fun _ hi hp => h.table_ne_dir hi hp, fun _ hi _ hj hpi hpj heq => h.table_inj hi hj hpi hpj heq⟩

/-- Changes elsewhere. -/
theorem congr (h : Space im others s d) (hfree : t.free = s.free)
    (hw : ∀ i < NPDENTRIES, t.word d i = s.word d i)
    (hpte : ∀ v < NUSER, t.pte d v = s.pte d v) : Space im others t d := by
  refine ⟨?_, h.dir, fun i hi => ?_, fun v hv => ?_, ?_, ?_⟩
  · exact h.owns.congr (part_congr hw hpte) fun f _ => by rw [hfree]
  · rw [hw i hi]
    exact h.table i hi
  · rw [hpte v hv]
    exact h.user v hv
  · rw [hfree]
    exact h.nodup
  · rw [hfree]
    exact h.free

theorem dir_not_mem_others (h : Space im others s d) : d ∉ others :=
  (h.owns.avail_addr .dir h.dir).2

theorem dir_not_mem_free (h : Space im others s d) : d ∉ s.free :=
  h.not_mem_free (k := .dir) h.dir

theorem table_not_mem_others (h : Space im others s d) (hi : i < NPDENTRIES)
    (hp : Present (s.word d i)) : frame (s.word d i) ∉ others := by
  have hpart := part_table hi hp
  exact hpart ▸ (h.owns.avail_addr (.table i) (hpart ▸ h.table i hi hp)).2

theorem table_not_mem_free (h : Space im others s d) (hi : i < NPDENTRIES)
    (hp : Present (s.word d i)) : frame (s.word d i) ∉ s.free := by
  have hpart := part_table hi hp
  exact hpart ▸ h.not_mem_free (hpart ▸ h.table i hi hp)

theorem user_not_mem_others (h : Space im others s d) (hv : v < NUSER)
    (hp : Present (s.pte d v)) : frame (s.pte d v) ∉ others := by
  have hpart := part_user hv hp
  exact hpart ▸ (h.owns.avail_addr (.user v) (hpart ▸ h.user v hv hp)).2

theorem user_not_mem_free (h : Space im others s d) (hv : v < NUSER)
    (hp : Present (s.pte d v)) : frame (s.pte d v) ∉ s.free := by
  have hpart := part_user hv hp
  exact hpart ▸ h.not_mem_free (hpart ▸ h.user v hv hp)

theorem user_avail (h : Space im others s d) (hv : v < NUSER) (hp : Present (s.pte d v)) :
    im.Avail (frame (s.pte d v)) := by
  have hpart := part_user hv hp
  exact hpart ▸ (h.owns.avail_addr (.user v) (hpart ▸ h.user v hv hp)).1

theorem user_ne_dir (h : Space im others s d) (hv : v < NUSER) (hp : Present (s.pte d v)) :
    frame (s.pte d v) ≠ d := by
  intro heq
  have hpart := part_user hv hp
  have := h.owns.inj (.user v) .dir (hpart ▸ h.user v hv hp) (hpart.trans heq)
  cases this

theorem user_ne_table (h : Space im others s d) (hv : v < NUSER) (hp : Present (s.pte d v))
    (hi : i < NPDENTRIES) (hpi : Present (s.word d i)) :
    frame (s.pte d v) ≠ frame (s.word d i) := by
  intro heq
  have hpart := part_user hv hp
  have := h.owns.inj (.user v) (.table i) (hpart ▸ h.user v hv hp)
    (hpart.trans (heq.trans (part_table hi hpi).symm))
  cases this

theorem user_inj {w : ℕ} (h : Space im others s d) (hv : v < NUSER) (hw : w < NUSER)
    (hp : Present (s.pte d v)) (hpw : Present (s.pte d w))
    (heq : frame (s.pte d v) = frame (s.pte d w)) : v = w := by
  have hpart := part_user hv hp
  have hk := h.owns.inj (.user v) (.user w) (hpart ▸ h.user v hv hp)
    (hpart.trans (heq.trans (part_user hw hpw).symm))
  exact Part.user.inj hk

/-- A page outside the directory and its tables may change. -/
theorem setPage (h : Space im others s d) {b : Bytes PGSIZE} (hd : f ≠ d)
    (ht : ∀ i < NPDENTRIES, Present (s.word d i) → f ≠ frame (s.word d i)) :
    Space im others (s.setPage f b) d ∧ ∀ v < NPAGES, (s.setPage f b).pte d v = s.pte d v := by
  have hw : ∀ i < NPDENTRIES, (s.setPage f b).word d i = s.word d i := fun i _ =>
    Mem.word_congr (Mem.page_setPage_of_ne hd.symm)
  have hpte : ∀ v < NPAGES, (s.setPage f b).pte d v = s.pte d v := fun v hv =>
    pte_congr hw (fun i hi hp => Mem.page_setPage_of_ne (ht i hi hp).symm) hv
  exact ⟨h.congr rfl hw fun v hv => hpte v (hv.trans_le NUSER_le), hpte⟩

/-- The page of somebody else may change. -/
theorem setPage_other (h : Space im others s d) {b : Bytes PGSIZE} (hf : f ∈ others) :
    Space im others (s.setPage f b) d ∧ ∀ v < NPAGES, (s.setPage f b).pte d v = s.pte d v := by
  refine h.setPage ?_ fun i hi hp => ?_
  · rintro rfl
    exact h.dir_not_mem_others hf
  · rintro rfl
    exact h.table_not_mem_others hi hp hf

/-! ### The allocator -/

theorem avail_insert (im : Image) (others : Set ℕ) (f : ℕ) :
    (fun g => im.Avail g ∧ g ∉ insert f others) =
      fun g => (im.Avail g ∧ g ∉ others) ∧ g ≠ f := by
  funext g
  rw [Set.mem_insert_iff, not_or, and_comm (a := g ≠ f), and_assoc]

/-- A page that `kalloc` returns is in use elsewhere. -/
theorem kalloc_spec (h : Space im others s d) :
    Wp kalloc s
      (fun r t => match r with
        | none => t = s ∧ s.free = []
        | some f => Space im (insert f others) t d ∧ f ∉ others ∧ im.Avail f ∧
            s.free = f :: t.free ∧ t.page = s.page)
      fun _ => False := by
  unfold kalloc
  rw [Wp.bind_iff, Wp.get_iff]
  split
  case h_1 hfree => exact ⟨rfl, hfree⟩
  case h_2 f free hfree =>
    rw [Wp.bind_iff, Wp.set_iff, Wp.pure_iff]
    obtain ⟨havail, hother⟩ := h.free f (hfree ▸ List.mem_cons_self)
    have hnodup := h.nodup
    rw [hfree, List.nodup_cons] at hnodup
    refine ⟨⟨?_, h.dir, h.table, h.user, hnodup.2, fun g hg => ?_⟩, hother, havail, hfree, rfl⟩
    · have htake := h.owns.take (b := f) (by simp [hfree])
      rw [avail_insert]
      refine htake.congr (fun _ => rfl) fun g hg => ?_
      rw [Function.update_of_ne hg.2, hfree, decide_eq_decide, List.mem_cons, not_or]
      exact ⟨fun hg' => ⟨hg.2, hg'⟩, And.right⟩
    · obtain ⟨hga, hgo⟩ := h.free g (hfree ▸ List.mem_cons_of_mem f hg)
      refine ⟨hga, fun hmem => ?_⟩
      rcases Set.mem_insert_iff.mp hmem with rfl | hmem
      · exact hnodup.1 hg
      · exact hgo hmem

/-- `kfree` takes every page that the allocator works with. -/
theorem kfree_eq (h : im.Avail f) (s : Mem) :
    kfree im f s = .ok ((), { s.setPage f fun _ => 1 with free := f :: s.free }) := by
  have hlt := h.2
  have hle := h.1
  have hv : P2V (f * PGSIZE) = KERNBASE + f * PGSIZE := by
    unfold P2V KERNBASE PHYSTOP at *
    omega
  have hp : V2P (KERNBASE + f * PGSIZE) = f * PGSIZE := by
    unfold V2P KERNBASE PHYSTOP at *
    omega
  have hcheck : ¬ (P2V (f * PGSIZE) % PGSIZE ≠ 0 ∨ P2V (f * PGSIZE) < im.kend ∨
      PHYSTOP ≤ V2P (P2V (f * PGSIZE))) := by
    rw [hv, hp]
    unfold KERNBASE PGSIZE at *
    omega
  refine Wp.eq_ok_of ?_
  unfold kfree
  simp only [if_neg hcheck, Wp.modify_iff]
  exact ⟨trivial, trivial⟩

/-- A page in use elsewhere is given back. -/
theorem kfree_other (h : Space im (insert f others) s d) (hf : f ∉ others) (ha : im.Avail f)
    {b : Bytes PGSIZE} :
    Space im others { s.setPage f b with free := f :: s.free } d ∧
      ∀ v < NPAGES, (s.setPage f b).pte d v = s.pte d v := by
  obtain ⟨h', hpte⟩ := h.setPage_other (b := b) (Set.mem_insert f others)
  refine ⟨⟨?_, h'.dir, h'.table, h'.user, ?_, fun g hg => ?_⟩, hpte⟩
  · have hput := (avail_insert im others f ▸ h'.owns).put ha.ne_zero
    refine hput.congr (fun _ => rfl) fun g _ => ?_
    by_cases hg : g = f
    · subst hg
      simp
    · rw [Function.update_of_ne hg, decide_eq_decide, List.mem_cons, not_or]
      exact ⟨And.right, fun hg' => ⟨hg, hg'⟩⟩
  · exact List.nodup_cons.mpr ⟨fun hmem => (h'.free f hmem).2 (Set.mem_insert f others), h'.nodup⟩
  · rcases List.mem_cons.mp hg with rfl | hg
    · exact ⟨ha, hf⟩
    · obtain ⟨hga, hgo⟩ := h'.free g hg
      exact ⟨hga, fun hmem => hgo (Set.mem_insert_of_mem f hmem)⟩

/-! ### Entries -/

theorem avail_lt (ha : im.Avail f) : f < NPAGES := by
  have := ha.2
  unfold PGSIZE PHYSTOP at this
  unfold NPAGES
  omega

/-- The entry for a page of the allocator fits into a word. -/
theorem entry_lt (ha : im.Avail f) {perm : ℕ} (hperm : perm < PGSIZE) :
    f * PGSIZE ||| perm < 2 ^ 32 := by
  have := avail_lt ha
  rw [entry_eq hperm]
  unfold PGSIZE NPAGES at *
  omega

/-- The space has room for the page `f` as a new part. -/
theorem adopt (h : Space im (insert f others) s d) (hf : f ∉ others) (ha : im.Avail f) {k : Part}
    (hk : part s d k = 0) (hfree : t.free = s.free)
    (hpart : ∀ k', part t d k' = Function.update (part s d) k f k') :
    Owns (part t d) (fun g => decide (g ∉ t.free)) fun g => im.Avail g ∧ g ∉ others := by
  have hused : f ∉ s.free := fun hmem => (h.free f hmem).2 (Set.mem_insert f others)
  have howns := (avail_insert im others f ▸ h.owns).adopt hk ⟨ha, hf⟩ ha.ne_zero
    (decide_eq_true hused)
  exact howns.congr hpart fun g _ => by rw [hfree]

theorem free_of_insert (h : Space im (insert f others) s d) {g : ℕ} (hg : g ∈ s.free) :
    im.Avail g ∧ g ∉ others := by
  obtain ⟨hga, hgo⟩ := h.free g hg
  exact ⟨hga, fun hmem => hgo (Set.mem_insert_of_mem f hmem)⟩

/-- An empty page table maps nothing. -/
theorem newTable (h : Space im (insert f others) s d) (hf : f ∉ others) (ha : im.Avail f)
    (hi : i < NPDENTRIES) (hp : ¬ Present (s.word d i))
    (ht : t = (s.setPage f (Bytes.zero PGSIZE)).setWord d i
      (f * PGSIZE ||| PTE_P ||| PTE_W ||| PTE_U)) :
    Space im others t d ∧ (∀ v < NPAGES, t.pte d v = s.pte d v) ∧ Present (t.word d i) ∧
      t.word d i = f * PGSIZE ||| 7 := by
  have hfd : f ≠ d := by
    rintro rfl
    exact h.dir_not_mem_others (Set.mem_insert _ _)
  have hft : ∀ j < NPDENTRIES, Present (s.word d j) → frame (s.word d j) ≠ f := by
    rintro j hj hpj rfl
    exact h.table_not_mem_others hj hpj (Set.mem_insert _ _)
  have hpage : ∀ g, g ≠ d → g ≠ f → t.page g = s.page g := fun g hgd hgf => by
    rw [ht, Mem.page_setWord_of_ne hgd, Mem.page_setPage_of_ne hgf]
  have hpagef : t.page f = Bytes.zero PGSIZE := by
    rw [ht, Mem.page_setWord_of_ne hfd, Mem.page_setPage_self]
  have hword : t.word d i = f * PGSIZE ||| 7 := by
    rw [ht, Mem.word_setWord_self hi, Nat.lor_assoc, Nat.lor_assoc]
    exact Nat.mod_eq_of_lt (entry_lt ha (by decide))
  have hwordj : ∀ j, j ≠ i → t.word d j = s.word d j := fun j hj => by
    rw [ht, Mem.word_setWord_of_ne (.inr hj)]
    exact Mem.word_congr (Mem.page_setPage_of_ne hfd.symm)
  have hpresent : Present (t.word d i) := by
    rw [hword, present_iff, entry_eq (by decide)]
    unfold PGSIZE
    omega
  have hframe : frame (t.word d i) = f := by rw [hword, frame_entry (by decide)]
  have hpte : ∀ v < NPAGES, t.pte d v = s.pte d v := by
    intro v hv
    by_cases hvi : v / 1024 = i
    · -- the new table is all zero
      rw [Mem.pte, Mem.pte, hvi, if_pos hpresent, if_neg hp, hframe, Mem.word, hpagef,
        Bytes.readLE_zero]
    · simp only [Mem.pte, hwordj _ hvi]
      split_ifs with hpv
      · exact Mem.word_congr (hpage _ (h.table_ne_dir (div_lt hv) hpv) (hft _ (div_lt hv) hpv))
      · rfl
  -- the new table maps nothing, so that only the part `table i` is new
  refine ⟨⟨?_, h.dir, fun j hj hpj => ?_, fun v hv => ?_, ?_, fun g hg => ?_⟩, hpte, hpresent,
    hword⟩
  · refine h.adopt hf ha (k := .table i) (if_neg fun hc => hp hc.2) (by rw [ht]; rfl) fun k => ?_
    by_cases hk : k = .table i
    · subst hk
      rw [Function.update_self, part_table hi hpresent, hframe]
    · rw [Function.update_of_ne hk]
      cases k with
      | dir => rfl
      | table j => simp only [part, hwordj j fun hj => hk (hj ▸ rfl)]
      | user v =>
        by_cases hv : v < NUSER
        · simp only [part, hpte v (hv.trans_le NUSER_le)]
        · simp only [part, hv, false_and, if_false]
  · by_cases hji : j = i
    · subst hji
      rw [hframe]
      exact ha.ne_zero
    · rw [hwordj j hji] at hpj ⊢
      exact h.table j hj hpj
  · rw [hpte v (hv.trans_le NUSER_le)]
    exact h.user v hv
  · rw [ht]
    exact h.nodup
  · rw [ht] at hg
    exact h.free_of_insert hg

/-- A user page more: `f` was in use elsewhere. -/
theorem map (h : Space im (insert f others) s d) (hf : f ∉ others) (ha : im.Avail f)
    (hv : v < NUSER) (hp : Present (s.word d (v / 1024))) (hnot : ¬ Present (s.pte d v))
    {perm : ℕ} (hperm : perm < PGSIZE)
    (ht : t = s.setWord (frame (s.word d (v / 1024))) (v % 1024) (f * PGSIZE ||| perm ||| PTE_P)) :
    Space im others t d ∧ t.pte d v = f * PGSIZE ||| (perm ||| PTE_P) ∧
      ∀ w < NPAGES, w ≠ v → t.pte d w = s.pte d w := by
  have hperm' := perm_lt hperm
  obtain ⟨hw, hpv, hpte⟩ := h.tables.pte_setWord (hv.trans_le NUSER_le) hp _ ht
  rw [Nat.lor_assoc, Nat.mod_eq_of_lt (entry_lt ha hperm')] at hpv
  have hframe : frame (t.pte d v) = f := by rw [hpv, frame_entry hperm']
  have hpresent : Present (t.pte d v) := hpv ▸ present_entry _ _
  refine ⟨⟨?_, h.dir, fun i hi => ?_, fun w hwlt => ?_, ?_, fun g hg => ?_⟩, hpv, hpte⟩
  · exact h.adopt hf ha (k := .user v) (if_neg fun hc => hnot hc.2) (by rw [ht]; rfl)
      (part_update_user hw hpte ((part_user hv hpresent).trans hframe))
  · rw [hw i hi]
    exact h.table i hi
  · by_cases hwv : w = v
    · subst hwv
      rw [hframe]
      exact fun _ => ha.ne_zero
    · rw [hpte w (hwlt.trans_le NUSER_le) hwv]
      exact h.user w hwlt
  · rw [ht]
    exact h.nodup
  · rw [ht] at hg
    exact h.free_of_insert hg

/-- An entry outside the user part may change. -/
theorem map_kernel (h : Space im others s d) (hv : v < NPAGES) (hk : NUSER ≤ v)
    (hp : Present (s.word d (v / 1024))) (e : ℕ)
    (ht : t = s.setWord (frame (s.word d (v / 1024))) (v % 1024) e) :
    Space im others t d ∧ t.pte d v = e % 2 ^ 32 ∧
      ∀ w < NPAGES, w ≠ v → t.pte d w = s.pte d w := by
  obtain ⟨hw, hpv, hpte⟩ := h.tables.pte_setWord hv hp _ ht
  refine ⟨h.congr (by rw [ht]; rfl) hw fun w hwlt => ?_, hpv, hpte⟩
  exact hpte w (hwlt.trans_le NUSER_le) (by omega)

/-- A user page less: its frame is freed, then the entry cleared. -/
theorem unmap (h : Space im others s d) (hv : v < NUSER) (hp : Present (s.pte d v))
    {b : Bytes PGSIZE}
    (ht : t = Mem.setWord { s.setPage (frame (s.pte d v)) b with
      free := frame (s.pte d v) :: s.free } (frame (s.word d (v / 1024))) (v % 1024) 0) :
    Space im others t d ∧ t.pte d v = 0 ∧ ∀ w < NPAGES, w ≠ v → t.pte d w = s.pte d w := by
  have hv' := hv.trans_le NUSER_le
  obtain ⟨h', hpte'⟩ := h.setPage (b := b) (h.user_ne_dir hv hp) fun i hi hpi =>
    h.user_ne_table hv hp hi hpi
  have hw' : ∀ i, (s.setPage (frame (s.pte d v)) b).word d i = s.word d i := fun i =>
    Mem.word_congr (Mem.page_setPage_of_ne (h.user_ne_dir hv hp).symm)
  have htable : Present ((s.setPage (frame (s.pte d v)) b).word d (v / 1024)) := by
    rw [hw']
    exact present_table hp
  obtain ⟨hw, hpv, hpte⟩ := h'.tables.pte_setWord hv' htable 0 rfl
  rw [hw'] at hw hpv hpte
  -- the free list is no part of the tables
  replace hw : ∀ i < NPDENTRIES, t.word d i = s.word d i := fun i hi => by
    rw [ht]
    exact (hw i hi).trans (hw' i)
  replace hpv : t.pte d v = 0 := by
    rw [ht]
    exact hpv
  replace hpte : ∀ w < NPAGES, w ≠ v → t.pte d w = s.pte d w := fun w hwlt hwv => by
    rw [ht]
    exact (hpte w hwlt hwv).trans (hpte' w hwlt)
  have hfree : t.free = frame (s.pte d v) :: s.free := by rw [ht]; rfl
  have hpart := part_user hv hp
  refine ⟨⟨?_, h.dir, fun i hi => ?_, fun w hwlt => ?_, ?_, fun g hg => ?_⟩, hpv, hpte⟩
  · refine (h.owns.free (k := .user v) (hpart ▸ h.user v hv hp)).congr
      (part_update_user hw hpte (if_neg fun hc => not_present_zero (hpv ▸ hc.2))) fun g _ => ?_
    · rw [hpart, hfree]
      by_cases hg : g = frame (s.pte d v)
      · subst hg
        simp
      · rw [Function.update_of_ne hg, decide_eq_decide, List.mem_cons, not_or]
        exact ⟨And.right, fun hg' => ⟨hg, hg'⟩⟩
  · rw [hw i hi]
    exact h.table i hi
  · by_cases hwv : w = v
    · subst hwv
      rw [hpv]
      exact fun hc => absurd hc not_present_zero
    · rw [hpte w (hwlt.trans_le NUSER_le) hwv]
      exact h.user w hwlt
  · rw [hfree]
    exact List.nodup_cons.mpr ⟨h.user_not_mem_free hv hp, h.nodup⟩
  · rw [hfree] at hg
    rcases List.mem_cons.mp hg with rfl | hg
    · exact ⟨h.user_avail hv hp, h.user_not_mem_others hv hp⟩
    · exact h.free g hg

end Space

end Xv6.Vm
