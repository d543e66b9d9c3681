import Xv6.Vm.Copyout
import Xv6.Vm.Kvm

/-!
# Access by user address

What a process reads at an address, and `copyout` on an address space whose frames are its own. The
copy goes to user pages, which are no page tables, so that the entries it meets are those of the
start: it ends at the first address of the range that is not mapped for the user.
-/

namespace Xv6.Vm

open Lib

/-! ### What a process reads -/

/-- The byte that a process reads at an address. -/
def userByte (m : Mem) (d va : ℕ) : Option UInt8 :=
  (translate m d va).map fun f => (m.page f).get (va % PGSIZE)

/-- The word that a process reads at an address. -/
def userWord (m : Mem) (d va : ℕ) : Option ℕ := do
  let b₀ ← userByte m d va
  let b₁ ← userByte m d (va + 1)
  let b₂ ← userByte m d (va + 2)
  let b₃ ← userByte m d (va + 3)
  return leValue [b₀, b₁, b₂, b₃]

/-- The bytes from an address on. -/
def BytesAt (m : Mem) (d va : ℕ) (l : List UInt8) : Prop :=
  ∀ i < l.length, userByte m d (va + i) = some (l.getD i 0)

/-- The C string at an address. -/
def StringAt (m : Mem) (d va : ℕ) (s : List UInt8) : Prop := 0 ∉ s ∧ BytesAt m d va (s ++ [0])

theorem BytesAt.append {m : Mem} {d va : ℕ} {l l' : List UInt8} (h : BytesAt m d va (l ++ l')) :
    BytesAt m d va l ∧ BytesAt m d (va + l.length) l' := by
  refine ⟨fun i hi => ?_, fun i hi => ?_⟩
  · rw [h i (by rw [List.length_append]; omega), List.getD_append _ _ _ _ hi]
  · rw [Nat.add_assoc, h (l.length + i) (by rw [List.length_append]; omega),
      List.getD_append_right _ _ _ _ (Nat.le_add_right ..), Nat.add_sub_cancel_left]

theorem BytesAt.word {m : Mem} {d va w : ℕ} (h : BytesAt m d va (leBytes 4 w)) :
    userWord m d va = some (w % 2 ^ 32) := by
  have hbyte : ∀ i < 4, userByte m d (va + i) = some ((leBytes 4 w).getD i 0) := fun i hi =>
    h i (by rwa [leBytes_length])
  have hvalue := leValue_leBytes 4 w
  rw [userWord, hbyte 1 (by decide), hbyte 2 (by decide), hbyte 3 (by decide),
    show userByte m d va = some ((leBytes 4 w).getD 0 0) from hbyte 0 (by decide)]
  exact congrArg some hvalue

/-- The words of a list, one after the other. -/
theorem BytesAt.words {m : Mem} {d va : ℕ} {ws : List ℕ}
    (h : BytesAt m d va (ws.flatMap (leBytes 4))) {j : ℕ} (hj : j < ws.length) :
    userWord m d (va + 4 * j) = some (ws[j] % 2 ^ 32) := by
  induction ws generalizing va j with
  | nil => cases hj
  | cons w ws ih =>
    rw [List.flatMap_cons] at h
    obtain ⟨hw, hws⟩ := h.append
    cases j with
    | zero => exact hw.word
    | succ j =>
      rw [leBytes_length] at hws
      rw [show va + 4 * (j + 1) = va + 4 + 4 * j by omega]
      exact ih hws (Nat.lt_of_succ_lt_succ hj)

theorem PDX_eq {va : ℕ} (hva : va < 2 ^ 32) : PDX va = va / PGSIZE / 1024 := by
  unfold PDX PGSIZE
  omega

theorem PTX_eq (va : ℕ) : PTX va = va / PGSIZE % 1024 := rfl

theorem hasTable_iff {m : Mem} {d va : ℕ} (hva : va < 2 ^ 32) :
    HasTable m d va ↔ Present (m.word d (va / PGSIZE / 1024)) := by
  rw [HasTable, PDX_eq hva]
  exact Iff.rfl

/-- An address is mapped for the user by the entry of its page. -/
theorem translate_eq_some_iff {m : Mem} {d va f : ℕ} (hva : va < 2 ^ 32) :
    translate m d va = some f ↔ Present (m.pte d (va / PGSIZE)) ∧
      m.pte d (va / PGSIZE) &&& PTE_U ≠ 0 ∧ frame (m.pte d (va / PGSIZE)) = f := by
  have hentry : HasTable m d va → entry m d va = m.pte d (va / PGSIZE) := fun ht => by
    rw [entry, PDX_eq hva, PTX_eq, Mem.pte, if_pos ((hasTable_iff hva).mp ht)]
  unfold translate
  constructor
  · intro h
    split_ifs at h with hc
    obtain ⟨ht, hp, hu⟩ := hc
    rw [hentry ht] at hp hu h
    exact ⟨hp, hu, Option.some.inj h⟩
  · rintro ⟨hp, hu, hf⟩
    have ht := (hasTable_iff hva).mpr (present_table hp)
    rw [hentry ht, if_pos ⟨ht, hp, hu⟩, hf]

theorem translate_congr_pte {m m' : Mem} {d va : ℕ} (hva : va < 2 ^ 32)
    (h : m'.pte d (va / PGSIZE) = m.pte d (va / PGSIZE)) :
    translate m' d va = translate m d va := by
  refine Option.ext fun f => ?_
  rw [translate_eq_some_iff hva, translate_eq_some_iff hva, h]

/-- What a process reads in a page depends on the entry and the contents of the page. -/
theorem userByte_eq {m : Mem} {d va : ℕ} (hva : va < 2 ^ 32) :
    userByte m d va = (m.userPage d (va / PGSIZE)).bind fun p =>
      if p.1 &&& PTE_U ≠ 0 then some (p.2.get (va % PGSIZE)) else none := by
  unfold Mem.userPage userByte
  by_cases hc : Present (m.pte d (va / PGSIZE)) ∧ m.pte d (va / PGSIZE) &&& PTE_U ≠ 0
  · rw [(translate_eq_some_iff hva).mpr ⟨hc.1, hc.2, rfl⟩, if_pos hc.1, Option.bind_some,
      if_pos hc.2, Option.map_some]
  · have hnone : translate m d va = none := by
      refine Option.eq_none_iff_forall_ne_some.mpr fun f hf => hc ?_
      obtain ⟨hp, hu, -⟩ := (translate_eq_some_iff hva).mp hf
      exact ⟨hp, hu⟩
    rw [hnone, Option.map_none]
    split_ifs with hp
    · rw [Option.bind_some, if_neg fun hu => hc ⟨hp, hu⟩]
    · rfl

/-- The byte at an address of an address space, also in a page that is not for the user. -/
def mappedByte (m : Mem) (d va : ℕ) : Option UInt8 :=
  (m.userPage d (va / PGSIZE)).map fun p => p.2.get (va % PGSIZE)

theorem mappedByte_of_userByte {m : Mem} {d va : ℕ} {b : UInt8} (hva : va < 2 ^ 32)
    (h : userByte m d va = some b) : mappedByte m d va = some b := by
  rw [userByte_eq hva] at h
  obtain ⟨p, hp, hb⟩ := Option.bind_eq_some_iff.mp h
  rw [mappedByte, hp, Option.map_some]
  split_ifs at hb
  exact hb

/-! ### `copyout` -/

theorem page_lt {va : ℕ} (hva : va < 2 ^ 32) : va / PGSIZE < NPAGES := by
  unfold PGSIZE NPAGES
  omega

/-- An address in the pages of a process. -/
theorem addr_lt {a sz : ℕ} (hsz : sz ≤ KERNBASE) (ha : a < npages sz * PGSIZE) :
    a < 2 ^ 32 ∧ a / PGSIZE < npages sz := by
  have := npages_le hsz
  unfold NUSER KERNBASE PGSIZE at *
  omega

/-- No page of the kernel is mapped for the user. -/
def KernelHidden (m : Mem) (d : ℕ) : Prop :=
  ∀ v < NPAGES, NUSER ≤ v → Present (m.pte d v) → m.pte d v &&& PTE_U = 0

theorem KernelHidden.congr {m m' : Mem} {d : ℕ} (h : KernelHidden m d)
    (hpte : ∀ v < NPAGES, NUSER ≤ v → m'.pte d v = m.pte d v) : KernelHidden m' d := by
  intro v hv hk hp
  rw [hpte v hv hk] at hp ⊢
  exact h v hv hk hp

/-- An address that is mapped for the user lies in a user page. -/
theorem KernelHidden.user {m : Mem} {d va f : ℕ} (h : KernelHidden m d) (hva : va < 2 ^ 32)
    (hf : translate m d va = some f) : va / PGSIZE < NUSER := by
  obtain ⟨hp, hu, -⟩ := (translate_eq_some_iff hva).mp hf
  by_contra hk
  exact hu (h _ (page_lt hva) (Nat.le_of_not_lt hk) hp)

namespace Space

variable {im : Image} {others : Set ℕ} {s t : Mem} {d v : ℕ}

/-- The contents of a user page may change. -/
theorem setPage_user (h : Space im others s d) (hv : v < NUSER) (hp : Present (s.pte d v))
    (b : Bytes PGSIZE) :
    Space im others (s.setPage (frame (s.pte d v)) b) d ∧
      (∀ w < NPAGES, (s.setPage (frame (s.pte d v)) b).pte d w = s.pte d w) ∧
      ∀ f ∈ insert d others, (s.setPage (frame (s.pte d v)) b).page f = s.page f := by
  obtain ⟨hspace, hpte⟩ := h.setPage (b := b) (h.user_ne_dir hv hp) fun i hi hpi =>
    h.user_ne_table hv hp hi hpi
  refine ⟨hspace, hpte, fun f hf => Mem.page_setPage_of_ne ?_⟩
  rintro rfl
  rcases Set.mem_insert_iff.mp hf with hd | hf
  · exact h.user_ne_dir hv hp hd
  · exact h.user_not_mem_others hv hp hf

/-- After a change of the page in frame `f`, the page `v` in it has the new bytes, and the others
are as they were. -/
theorem userByte_setPage {f va : ℕ} (h : Space im others s d) (hker : KernelHidden s d)
    (hv : v < NUSER) (hf : translate s d (v * PGSIZE) = some f) (b : Bytes PGSIZE)
    (hva : va < 2 ^ 32) :
    userByte (s.setPage f b) d va =
      if va / PGSIZE = v then some (b.get (va % PGSIZE)) else userByte s d va := by
  have hlt : v * PGSIZE < 2 ^ 32 := by
    unfold NUSER KERNBASE PGSIZE at *
    omega
  have hdiv : v * PGSIZE / PGSIZE = v := Nat.mul_div_cancel v (by decide)
  obtain ⟨hp, hu, rfl⟩ := (translate_eq_some_iff hlt).mp hf
  rw [hdiv] at hp hu
  obtain ⟨-, hpte, -⟩ := h.setPage_user hv hp b
  have htr : translate (s.setPage (frame (s.pte d v)) b) d va = translate s d va :=
    translate_congr_pte hva (hpte _ (page_lt hva))
  rw [hdiv, userByte, userByte, htr]
  split_ifs with hpage
  · rw [(translate_eq_some_iff hva).mpr ⟨hpage.symm ▸ hp, hpage.symm ▸ hu, rfl⟩, hpage,
      Option.map_some, Mem.page_setPage_self]
  · cases hg : translate s d va with
    | none => rfl
    | some g =>
      have hvu := hker.user hva hg
      obtain ⟨hp', -, rfl⟩ := (translate_eq_some_iff hva).mp hg
      have hne : frame (s.pte d (va / PGSIZE)) ≠ frame (s.pte d v) := fun heq =>
        hpage (h.user_inj hvu hv hp' hp heq)
      rw [Option.map_some, Option.map_some, Mem.page_setPage_of_ne hne]

/-- The rounds of `copyout` keep the entries of an address space. -/
theorem rounds_spec {va len k off : ℕ} {buf : Mem → ℕ → UInt8} (h : Space im others s d)
    (hker : KernelHidden s d) (hk : rounds d va buf len s k = some (t, off)) :
    Space im others t d ∧ (∀ w < NPAGES, t.pte d w = s.pte d w) ∧
      (∀ f ∈ insert d others, t.page f = s.page f) ∧
      ∀ x < off, ∃ f, translate s d ((va + x) % 2 ^ 32) = some f := by
  induction k generalizing t off with
  | zero =>
    obtain ⟨rfl, rfl⟩ : s = t ∧ 0 = off := by simpa [rounds] using hk
    exact ⟨h, fun _ _ => rfl, fun _ _ => rfl, fun x hx => absurd hx (Nat.not_lt_zero x)⟩
  | succ k ih =>
    obtain ⟨⟨m, o⟩, hm, hround⟩ := Option.bind_eq_some_iff.mp hk
    obtain ⟨hspace, hpte, hother, hbefore⟩ := ih hm
    unfold round at hround
    dsimp only at hround
    split_ifs at hround with hlt
    obtain ⟨f, hf, heq⟩ := Option.map_eq_some_iff.mp hround
    obtain ⟨rfl, rfl⟩ := Prod.mk.inj heq
    -- the page of this round is a user page
    have hva : (va + o) % 2 ^ 32 < 2 ^ 32 := Nat.mod_lt _ (by decide)
    have hker' : KernelHidden m d := hker.congr fun v hv _ => hpte v hv
    have hv := hker'.user hva hf
    obtain ⟨hp, -, rfl⟩ := (translate_eq_some_iff hva).mp hf
    obtain ⟨hspace', hpte', hother'⟩ := hspace.setPage_user hv hp
      ((m.page (frame (m.pte d ((va + o) % 2 ^ 32 / PGSIZE)))).splice ((va + o) % PGSIZE)
        ((List.range (chunk va len o)).map fun i => buf m (o + i)))
    refine ⟨hspace', fun w hw => (hpte' w hw).trans (hpte w hw),
      fun g hg => (hother' g hg).trans (hother g hg), fun x hx => ?_⟩
    rcases Nat.lt_or_ge x o with hxo | hxo
    · exact hbefore x hxo
    · refine ⟨_, Eq.trans ?_ hf⟩
      rw [translate_congr (page_of_chunk hxo hx).1]
      exact (translate_congr_pte hva (hpte _ (page_lt hva))).symm

/-- `copyout` keeps an address space, and comes back with 0 only if the whole range is mapped for
the user. -/
theorem copyout_spec {va : ℕ} (h : Space im others s d)
    (hker : KernelHidden s d) (hva : va < 2 ^ 32)
    (buf : Mem → ℕ → UInt8) (len : ℕ) :
    Wp (copyout d va buf len) s
      (fun r t => Space im others t d ∧ (∀ w < NPAGES, t.pte d w = s.pte d w) ∧
        (∀ f ∈ insert d others, t.page f = s.page f) ∧
        (r = 0 ∧ (∀ x < len, ∃ f, translate s d ((va + x) % 2 ^ 32) = some f) ∨ r = -1))
      fun e => e = .nullPte ∧ ∃ x < len, ¬ HasTable s d ((va + x) % 2 ^ 32) ∧
        ∀ y < x, ∃ f, translate s d ((va + y) % 2 ^ 32) = some f := by
  refine (Vm.copyout_spec d buf len s hva).mono (fun r t ⟨k, off, hk, hr⟩ => ?_)
    fun e ⟨he, k, m, off, hk, hlt, hno⟩ => ⟨he, off, hlt, ?_⟩
  · obtain ⟨hspace, hpte, hother, hbefore⟩ := h.rounds_spec hker hk
    refine ⟨hspace, hpte, hother, ?_⟩
    rcases hr with ⟨rfl, rfl⟩ | ⟨-, -, -, rfl⟩
    · exact .inl ⟨rfl, hbefore⟩
    · exact .inr rfl
  · obtain ⟨-, -, hother, hbefore⟩ := h.rounds_spec hker hk
    refine ⟨fun hc => hno ?_, hbefore⟩
    rw [HasTable, Mem.word_congr (hother d (Set.mem_insert d others))]
    exact hc

theorem pte_lt (s : Mem) (d v : ℕ) : s.pte d v < 2 ^ 32 := by
  unfold Mem.pte
  split_ifs
  · exact Mem.word_lt
  · decide

/-- `*pte &= ~PTE_U`: the frame of the page stays, and it is no longer for the user. -/
theorem clear_user (h : Space im others s d) (hv : v < NUSER) (hp : Present (s.pte d v))
    (ht : t = s.setWord (frame (s.word d (v / 1024))) (v % 1024)
      (s.pte d v &&& (2 ^ 32 - 1 - PTE_U))) :
    Space im others t d ∧ Present (t.pte d v) ∧ t.pte d v &&& PTE_U = 0 ∧
      frame (t.pte d v) = frame (s.pte d v) ∧ (∀ w < NPAGES, w ≠ v → t.pte d w = s.pte d w) ∧
      ∀ f, (∀ i < NPDENTRIES, Present (s.word d i) → f ≠ frame (s.word d i)) →
        t.page f = s.page f := by
  have hv' := hv.trans_le NUSER_le
  have htable := present_table hp
  obtain ⟨hw, hpv, hpte⟩ := h.tables.pte_setWord hv' htable _ ht
  rw [Nat.mod_eq_of_lt (Nat.and_le_left.trans_lt (pte_lt s d v))] at hpv
  -- the mask keeps every bit but `PTE_U`
  have hpresent : Present (t.pte d v) := by
    rw [hpv, Present, Nat.and_assoc, show 2 ^ 32 - 1 - PTE_U &&& PTE_P = PTE_P by decide]
    exact hp
  have huser : t.pte d v &&& PTE_U = 0 := by
    rw [hpv, Nat.and_assoc, show 2 ^ 32 - 1 - PTE_U &&& PTE_U = 0 by decide, Nat.and_zero]
  have hframe : frame (t.pte d v) = frame (s.pte d v) := by
    have hlt : s.pte d v / 2 ^ 12 < 2 ^ 20 := by
      have := pte_lt s d v
      omega
    rw [hpv, frame, frame, show PGSIZE = 2 ^ 12 from rfl, ← Nat.shiftRight_eq_div_pow,
      Nat.shiftRight_and_distrib, Nat.shiftRight_eq_div_pow,
      show (2 ^ 32 - 1 - PTE_U) >>> 12 = 2 ^ 20 - 1 by decide, Nat.and_two_pow_sub_one_eq_mod,
      Nat.mod_eq_of_lt hlt]
  have hpart : ∀ k, part t d k = part s d k := by
    intro k
    rw [part_update_user hw hpte (part_user hv hpresent) k]
    by_cases hk : k = .user v
    · subst hk
      rw [Function.update_self, hframe, part_user hv hp]
    · rw [Function.update_of_ne hk]
  have hfree : t.free = s.free := by rw [ht]; rfl
  refine ⟨⟨?_, h.dir, fun i hi => ?_, fun w hwlt => ?_, ?_, ?_⟩, hpresent, huser, hframe, hpte,
    fun f hf => ?_⟩
  · exact h.owns.congr hpart fun f _ => by rw [hfree]
  · rw [hw i hi]
    exact h.table i hi
  · by_cases hwv : w = v
    · subst hwv
      rw [hframe]
      exact fun _ => h.user w hwlt hp
    · rw [hpte w (hwlt.trans_le NUSER_le) hwv]
      exact h.user w hwlt
  · rw [hfree]
    exact h.nodup
  · rw [hfree]
    exact h.free
  · rw [ht]
    exact Mem.page_setWord_of_ne (hf _ (div_lt hv') htable)

/-- Another address space, built out of pages that were free: seen from the first one, its frames
are in use elsewhere. -/
theorem beside {d' : ℕ} (h : Space im others s d) (h' : Space im (others ∪ frames s d) t d')
    (hpage : ∀ f ∈ others ∪ frames s d, t.page f = s.page f) :
    Space im (others ∪ frames t d') t d := by
  have hkept : ∀ f ∈ frames s d, t.page f = s.page f := fun f hf => hpage f (.inr hf)
  have hw : ∀ i < NPDENTRIES, t.word d i = s.word d i := fun _ _ =>
    Mem.word_congr (hkept d h.dir_mem_frames)
  have hpte : ∀ v < NUSER, t.pte d v = s.pte d v := fun v hv =>
    h.pte_kept hkept (hv.trans_le NUSER_le)
  have hpart := part_congr hw hpte
  have hapart : ∀ f ∈ frames s d, f ∉ frames t d' := fun f hf hf' =>
    h'.not_mem_of_frames hf' (.inr hf)
  refine ⟨⟨fun f hf => hf.1.ne_zero, fun k hk => ?_, fun k k' hk heq => ?_, fun f hf => ?_⟩, h.dir,
    fun i hi => ?_, fun v hv => ?_, h'.nodup, fun f hf => ?_⟩
  · rw [hpart] at hk ⊢
    obtain ⟨ha, ho⟩ := h.owns.avail_addr k hk
    exact ⟨ha, fun hc => hc.elim ho (hapart _ ⟨hk, k, rfl⟩)⟩
  · rw [hpart] at hk
    rw [hpart, hpart] at heq
    exact h.owns.inj k k' hk heq
  · rw [decide_eq_true_iff, h'.allFree.mem_iff]
    simp only [hpart]
    constructor
    · intro hused
      by_contra hno
      refine hused ⟨hf.1, ?_⟩
      rintro ((ho | ⟨-, hk⟩) | hf')
      · exact hf.2 (.inl ho)
      · exact hno hk
      · exact hf.2 (.inr hf')
    · rintro ⟨k, rfl⟩ ⟨-, hno⟩
      exact hno (.inl (.inr ⟨hf.1.ne_zero, k, rfl⟩))
  · rw [hw i hi]
    exact h.table i hi
  · rw [hpte v hv]
    exact h.user v hv
  · obtain ⟨ha, hfree⟩ := (h'.allFree.mem_iff f).mp hf
    refine ⟨ha, fun hc => hfree ?_⟩
    exact hc.elim (fun ho => .inl (.inl ho)) .inr

end Space

/-- In one page that the process may write, `copyout` succeeds. -/
theorem copyout_page {s : Mem} {d va f : ℕ} {l : List UInt8} (hva : va < 2 ^ 32)
    (hpos : 0 < l.length) (hpage : va % PGSIZE + l.length ≤ PGSIZE)
    (hf : translate s d va = some f) :
    copyout d va (fun _ i => l.getD i 0) l.length s =
      .ok (0, s.setPage f ((s.page f).splice (va % PGSIZE) l)) := by
  have hchunk : chunk va l.length 0 = l.length := by
    rw [chunk, Nat.add_zero, Nat.sub_zero]
    omega
  have hbytes : ((List.range l.length).map fun i => l.getD (0 + i) 0) = l := by
    refine List.ext_getElem (by simp) fun i hi hi' => ?_
    simp [hi']
  have hone : rounds d va (fun _ i => l.getD i 0) l.length s 1 =
      some (s.setPage f ((s.page f).splice (va % PGSIZE) l), l.length) := by
    rw [rounds, rounds, Option.bind_some, round, if_pos hpos, Nat.add_zero,
      Nat.mod_eq_of_lt hva, hf,
      Option.map_some, copyChunk, hchunk, hbytes, Nat.zero_add, Nat.add_zero]
  have hend : ∀ m, round d va (fun _ i => l.getD i 0) l.length (m, l.length) = none := fun m =>
    if_neg (Nat.lt_irrefl _)
  -- the rounds do not end before the last byte
  have hlast : ∀ {k m off}, rounds d va (fun _ i => l.getD i 0) l.length s k = some (m, off) →
      off < l.length → translate m d ((va + off) % 2 ^ 32) ≠ none := by
    intro k m off hk hlt hnone
    have hstop : round d va (fun _ i => l.getD i 0) l.length (m, off) = none := by
      rw [round, if_pos hlt, hnone, Option.map_none]
    have hoff := congrArg Prod.snd (rounds_unique hk hone hstop (hend _))
    dsimp only at hoff
    omega
  refine Wp.eq_ok_of ((copyout_spec d _ _ s hva).mono ?_ ?_)
  · rintro r t ⟨k, off, hk, ⟨rfl, rfl⟩ | ⟨hlt, -, hnone, -⟩⟩
    · exact ⟨rfl, congrArg Prod.fst (rounds_unique hk hone (hend t) (hend _))⟩
    · exact absurd hnone (hlast hk hlt)
  · rintro e ⟨-, k, m, off, hk, hlt, hno⟩
    exact hlast hk hlt (if_neg fun hc => hno hc.1)

end Xv6.Vm
