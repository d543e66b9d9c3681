import Xv6.Exec.File

/-!
# The program in memory

What a program finds after `exec`: the segments of its file at their addresses, zeros everywhere
else below the stack, and exactly the pages of its size, one of which it may not touch; and on the
stack its arguments, as they were given.
-/

namespace Xv6.Exec

open Lib Vm

/-! ### The file -/

/-- The `n` program headers from offset `off` of a file on. -/
def proghdrs (c : List UInt8) : ℕ → ℕ → List Proghdr
  | 0, _ => []
  | n + 1, off => .parse ((c.drop off).take Fs.PROGHDR) :: proghdrs c n (off + Fs.PROGHDR)

/-- The segments of a file that are to be loaded. -/
def segments (c : List UInt8) : List Proghdr :=
  (proghdrs c (Fs.field c 44 2) (Fs.field c 28 4)).filter (·.type = Fs.ELF_PROG_LOAD)

/-- The segment `p` ends before the page in which the segment `q` begins. -/
def Proghdr.Before (p q : Proghdr) : Prop := PGROUNDUP (p.vaddr + p.memsz) ≤ q.vaddr

/-- A field of a structure at the beginning of a file. -/
theorem field_take {c : List UInt8} {off n m : ℕ} (h : off + n ≤ m) :
    Fs.field (c.take m) off n = Fs.field c off n := by
  rw [Fs.field, Fs.field, List.drop_take, List.take_take, Nat.min_eq_left (by omega)]

/-- A read of all that was asked for. -/
theorem fileRead_full {c b : List UInt8} {off n : ℕ} (h : some b = fileRead c off n)
    (hlen : b.length = n) : off + n ≤ c.length ∧ b = (c.drop off).take n := by
  unfold fileRead at h
  split_ifs at h with hrej
  obtain rfl := Option.some.inj h
  rw [List.length_take, List.length_drop] at hlen
  have hmin : min n (c.length - off) = n := by omega
  exact ⟨by omega, by rw [hmin]⟩

theorem fileRead_of_le {c : List UInt8} {off n : ℕ} (hc : c.length < 2 ^ 32)
    (h : off + n ≤ c.length) : fileRead c (off % 2 ^ 32) n = some ((c.drop off).take n) := by
  rw [Nat.mod_eq_of_lt (by omega), fileRead, if_neg (by omega), Nat.min_eq_left (by omega)]

section File

variable {R : ℕ → ℕ → Option (List UInt8) → Prop} {c : List UInt8}

/-- The bytes that `loaduvm` reads are those of the file. -/
theorem Chunks.eq_take (hR : ∀ off n r, R off n r → r = fileRead c (off % 2 ^ 32) n)
    (hc : c.length < 2 ^ 32) {off : ℕ} {l : List UInt8} (h : Chunks R off l) (hoff : off < 2 ^ 32) :
    l = (c.drop off).take l.length := by
  induction h with
  | nil => rfl
  | @cons off b l hread hpage _ ih =>
    have hfile := hR _ _ _ hread
    rw [Nat.mod_eq_of_lt hoff] at hfile
    obtain ⟨hle, hb⟩ := fileRead_full hfile rfl
    rcases hpage with hpage | ⟨-, rfl⟩
    · -- a whole page: the next one begins inside the file
      rw [List.length_append, List.take_add, ← hb, List.drop_drop, hpage]
      exact congrArg (b ++ ·) (ih (by omega))
    · rw [List.append_nil]
      exact hb

/-- The segments that `exec` loads are those of the file, with the bytes of the file. -/
theorem Headers.segments_eq (hR : ∀ off n r, R off n r → r = fileRead c (off % 2 ^ 32) n)
    (hc : c.length < 2 ^ 32) {n off : ℕ} {segs : List (Proghdr × List UInt8)}
    (h : Headers R n off segs) (hoff : off < 2 ^ 32) :
    segs.map Prod.fst = (proghdrs c n off).filter (·.type = Fs.ELF_PROG_LOAD) ∧
      ∀ x ∈ segs, x.2 = (c.drop x.1.off).take x.1.filesz ∧ x.2.length = x.1.filesz ∧
        x.1.filesz ≤ x.1.memsz ∧ x.1.vaddr + x.1.memsz < KERNBASE := by
  -- a header that is read lies in the file
  have hhead : ∀ {off : ℕ} {b : List UInt8}, off < 2 ^ 32 → R off Fs.PROGHDR (some b) →
      b.length = Fs.PROGHDR → off + Fs.PROGHDR < 2 ^ 32 ∧ b = (c.drop off).take Fs.PROGHDR :=
    fun hoff hread hlen => by
      have hfile := hR _ _ _ hread
      rw [Nat.mod_eq_of_lt hoff] at hfile
      obtain ⟨hle, hb⟩ := fileRead_full hfile hlen
      exact ⟨by omega, hb⟩
  induction h with
  | nil => exact ⟨rfl, fun _ hx => absurd hx List.not_mem_nil⟩
  | skip hread hlen htype _ ih =>
    obtain ⟨hnext, rfl⟩ := hhead hoff hread hlen
    obtain ⟨hmap, hdata⟩ := ih hnext
    refine ⟨?_, hdata⟩
    rw [hmap, proghdrs, List.filter_cons_of_neg (by simpa using htype)]
  | @load n off b data segs hread hlen htype hsize htop hdata hchunks _ ih =>
    obtain ⟨hnext, rfl⟩ := hhead hoff hread hlen
    obtain ⟨hmap, hrest⟩ := ih hnext
    refine ⟨?_, fun x hx => ?_⟩
    · rw [List.map_cons, hmap, proghdrs, List.filter_cons_of_pos (by simpa using htype)]
    · rcases List.mem_cons.mp hx with rfl | hx
      · have htake := hchunks.eq_take hR hc (field_lt _ _)
        rw [hdata] at htake
        exact ⟨htake, hdata, hsize, htop⟩
      · exact hrest x hx

/-- The program that `exec` loads is that of the file. -/
theorem Program.segments_eq (hR : ∀ off n r, R off n r → r = fileRead c (off % 2 ^ 32) n)
    (hc : c.length < 2 ^ 32) {elf : List UInt8} {segs : List (Proghdr × List UInt8)}
    (h : Program R elf segs) :
    Fs.field elf 24 4 = Fs.field c 24 4 ∧ segs.map Prod.fst = segments c ∧
      ∀ x ∈ segs, x.2 = (c.drop x.1.off).take x.1.filesz ∧ x.2.length = x.1.filesz ∧
        x.1.filesz ≤ x.1.memsz ∧ x.1.vaddr + x.1.memsz < KERNBASE := by
  obtain ⟨-, helf⟩ := fileRead_full (hR _ _ _ h.read) h.length
  rw [Nat.zero_mod, List.drop_zero] at helf
  have hfield : ∀ {off n : ℕ}, off + n ≤ Fs.ELFHDR → Fs.field elf off n = Fs.field c off n :=
    fun hle => by rw [helf, field_take hle]
  have hheaders := h.headers
  rw [hfield (by decide), hfield (by decide)] at hheaders
  exact ⟨hfield (by decide), hheaders.segments_eq hR hc (field_lt _ _)⟩

end File

/-! ### The bytes of the segments -/

section Place

variable {g : ℕ → UInt8} {segs : List (Proghdr × List UInt8)} {a : ℕ}

theorem placeAll_of_not_mem
    (h : ∀ x ∈ segs, a < x.1.vaddr ∨ x.1.vaddr + x.2.length ≤ a) : placeAll g segs a = g a := by
  induction segs generalizing g with
  | nil => rfl
  | cons x segs ih =>
    have hx := h x (List.mem_cons_self ..)
    rw [placeAll, List.foldl_cons]
    exact (ih fun y hy => h y (List.mem_cons_of_mem x hy)).trans (if_neg (by omega))

/-- Segments that do not overlap each keep their bytes. -/
theorem placeAll_of_mem (hpair : segs.Pairwise fun x y => x.1.vaddr + x.2.length ≤ y.1.vaddr)
    {x : Proghdr × List UInt8} (hx : x ∈ segs) {i : ℕ} (hi : i < x.2.length) :
    placeAll g segs (x.1.vaddr + i) = x.2.getD i 0 := by
  induction segs generalizing g with
  | nil => exact absurd hx List.not_mem_nil
  | cons y segs ih =>
    obtain ⟨hy, hpair⟩ := List.pairwise_cons.mp hpair
    rcases List.mem_cons.mp hx with rfl | hx
    · rw [placeAll, List.foldl_cons]
      refine (placeAll_of_not_mem fun z hz => ?_).trans ?_
      · have := hy z hz
        omega
      · rw [place, if_pos (by omega), Nat.add_sub_cancel_left]
    · exact ih hpair hx

/-- Segments in order do not overlap. -/
theorem pairwise_of_before {l : List Proghdr} (h : l.IsChain Proghdr.Before)
    (htop : ∀ p ∈ l, p.vaddr + p.memsz < KERNBASE) :
    l.Pairwise fun p q => p.vaddr + p.memsz ≤ q.vaddr := by
  let R : Proghdr → Proghdr → Prop := fun p q => p.vaddr + p.memsz ≤ q.vaddr
  have htrans : Trans R R R := ⟨fun h h' => h.trans ((Nat.le_add_right ..).trans h')⟩
  refine (List.isChain_iff_pairwise (R := R)).mp (h.imp_of_mem_imp fun p q hp _ hpq => ?_)
  -- rounding up does not wrap around below the kernel
  have hlt := htop p hp
  unfold Proghdr.Before PGROUNDUP PGSIZE at hpq
  unfold KERNBASE at hlt
  change p.vaddr + p.memsz ≤ q.vaddr
  omega

/-- The end of the program is not below the end of a segment. -/
theorem le_sizeAll {sz : ℕ} {x : Proghdr × List UInt8} (hx : x ∈ segs) :
    x.1.vaddr + x.1.memsz ≤ sizeAll sz segs := by
  have hmono : ∀ (segs : List (Proghdr × List UInt8)) (sz : ℕ), sz ≤ sizeAll sz segs := by
    intro segs
    induction segs with
    | nil => exact fun sz => le_rfl
    | cons y segs ih => exact fun sz => (Nat.le_max_left ..).trans (ih _)
  induction segs generalizing sz with
  | nil => exact absurd hx List.not_mem_nil
  | cons y segs ih =>
    rcases List.mem_cons.mp hx with rfl | hx
    · exact (Nat.le_max_right ..).trans (hmono segs _)
    · exact ih hx

theorem sizeAll_lt {sz b : ℕ} (hsz : sz < b) (h : ∀ x ∈ segs, x.1.vaddr + x.1.memsz < b) :
    sizeAll sz segs < b := by
  induction segs generalizing sz with
  | nil => exact hsz
  | cons y segs ih =>
    exact ih (Nat.max_lt.mpr ⟨hsz, h y (List.mem_cons_self ..)⟩) fun x hx =>
      h x (List.mem_cons_of_mem y hx)

end Place

/-! ### The program in memory -/

/-- A page other than that of the stack is as it was before the arguments were pushed. -/
theorem Executed.userPage_eq {im : Image} {used : Set ℕ} {argv : List (List UInt8)} {u t : State}
    {g : ℕ → UInt8} {f sp v : ℕ} {ptrs : List ℕ} {b' : Bytes PGSIZE}
    (h : Executed im used argv u t g f sp ptrs b') (hv : v < NUSER)
    (hne : v ≠ (t.proc.sz - PGSIZE) / PGSIZE) :
    t.mem.userPage t.proc.pgdir v = u.mem.userPage t.proc.pgdir v := by
  obtain ⟨-, -, hpte, -⟩ := h.started.setStack h.stack (b'.splice
    (t.proc.esp - (t.proc.sz - PGSIZE)) ((ustack sp ptrs).flatMap (leBytes 4)))
  have hlt : t.proc.sz - PGSIZE < 2 ^ 32 := by
    have hle := h.started.sized.le
    unfold KERNBASE at hle
    omega
  have hstack := h.started.hidden.user hlt h.stack
  obtain ⟨hp, -, hf⟩ := (translate_eq_some_iff hlt).mp h.stack
  rw [h.pages v hv]
  refine userPage_congr (hpte v (hv.trans_le NUSER_le)) fun hpv => Mem.page_setPage_of_ne ?_
  rw [← hf]
  exact fun hc => hne (h.started.sized.space.user_inj hv hstack hpv hp hc)

/-- The same pages are mapped as before the arguments were pushed. -/
theorem Executed.mapped {im : Image} {used : Set ℕ} {argv : List (List UInt8)} {u t : State}
    {g : ℕ → UInt8} {f sp v : ℕ} {ptrs : List ℕ} {b' : Bytes PGSIZE}
    (h : Executed im used argv u t g f sp ptrs b') (hv : v < NUSER) :
    Present (t.mem.pte t.proc.pgdir v) ↔ v < npages t.proc.sz := by
  obtain ⟨-, -, hpte, -⟩ := h.started.setStack h.stack (b'.splice
    (t.proc.esp - (t.proc.sz - PGSIZE)) ((ustack sp ptrs).flatMap (leBytes 4)))
  rw [present_iff_userPage, h.pages v hv, ← present_iff_userPage, hpte v (hv.trans_le NUSER_le)]
  exact h.started.sized.mapped v hv

/-- Below the stack pointer all bytes are as they were before the arguments were pushed. -/
theorem Executed.mappedByte_eq {im : Image} {used : Set ℕ} {argv : List (List UInt8)} {u t : State}
    {g : ℕ → UInt8} {f sp a : ℕ} {ptrs : List ℕ} {b' : Bytes PGSIZE}
    (h : Executed im used argv u t g f sp ptrs b') (ha : a < t.proc.esp) :
    mappedByte t.mem t.proc.pgdir a = mappedByte u.mem t.proc.pgdir a := by
  have hle := h.started.sized.le
  have halign := h.started.align
  have hesp := h.esp
  have hle' := h.pushed.le
  have ha' : a < t.proc.sz := by omega
  have halt : a < 2 ^ 32 := by
    unfold KERNBASE at hle
    omega
  by_cases hin : t.proc.sz - PGSIZE ≤ a
  · -- a byte of the page of the stack
    have hlo := h.lo
    have hbyte := h.userByte_eq ha'
    have hsame := h.started.userByte_setStack h.stack (u.mem.page f) ha'
    rw [if_pos hin, Mem.setPage, Function.update_eq_self] at hsame
    rw [if_pos hin, Bytes.get_splice_of_disjoint _ _ _ (by omega),
      h.pushed.rest _ (by omega)] at hbyte
    rw [mappedByte_of_userByte halt hbyte, mappedByte_of_userByte halt hsame]
  · have hpage : a / PGSIZE < NUSER := by
      unfold NUSER KERNBASE PGSIZE at *
      omega
    rw [mappedByte, mappedByte, h.userPage_eq hpage (by unfold PGSIZE at *; omega)]

/-- The program of a file with the bytes `data` in the memory of a process. -/
structure Loaded (data : List UInt8) (m : Mem) (p : Caller) : Prop where
  file : ∀ ph ∈ segments data, ∀ i < ph.filesz, userByte m p.pgdir
    (ph.vaddr + i) = data[ph.off + i]?
  zero : ∀ ph ∈ segments data, ∀ i, ph.filesz ≤ i → i < ph.memsz →
    userByte m p.pgdir (ph.vaddr + i) = some 0
  /-- Outside the segments all is zero below the page of the stack. -/
  rest : ∀ a < p.sz - PGSIZE, (∀ ph ∈ segments data, a < ph.vaddr ∨ ph.vaddr + ph.memsz ≤ a) →
    mappedByte m p.pgdir a = some 0
  mapped : ∀ v < NUSER, Present (m.pte p.pgdir v) ↔ v * PGSIZE < p.sz
  /-- The page below that of the stack is not for the user. -/
  guard : ∀ a < 2 ^ 32, a / PGSIZE = (p.sz - 2 * PGSIZE) / PGSIZE → userByte m p.pgdir a = none
  user : ∀ a < p.sz, a / PGSIZE ≠ (p.sz - 2 * PGSIZE) / PGSIZE → userByte m p.pgdir a ≠ none
  eip : p.eip = Fs.field data 24 4

theorem lt_of_not_guard {a sz : ℕ} (halign : sz % PGSIZE = 0) (hroom : 2 * PGSIZE ≤ sz)
    (ha : a < sz - PGSIZE) (hg : ¬ a / PGSIZE = sz / PGSIZE - 2) : a < sz - 2 * PGSIZE := by
  by_contra hle
  obtain ⟨k, rfl⟩ := Nat.dvd_of_mod_eq_zero halign
  refine hg ?_
  rw [Nat.mul_div_cancel_left k (by decide)]
  unfold PGSIZE at *
  omega

/-- The address space that `exec` leaves behind has the segments in it. -/
theorem Executed.loaded {im : Image} {used : Set ℕ} {argv : List (List UInt8)} {u t : State}
    {segs : List (Proghdr × List UInt8)} {f sp : ℕ} {ptrs : List ℕ} {b' : Bytes PGSIZE}
    (h : Executed im used argv u t (placeAll (fun _ => 0) segs) f sp ptrs b') {c : List UInt8}
    (hsz : t.proc.sz = PGROUNDUP (sizeAll 0 segs) + 2 * PGSIZE)
    (heip : t.proc.eip = Fs.field c 24 4)
    (hsegs : segs.map Prod.fst = segments c)
    (hdata : ∀ x ∈ segs, x.2 = (c.drop x.1.off).take x.1.filesz ∧ x.2.length = x.1.filesz ∧
      x.1.filesz ≤ x.1.memsz ∧ x.1.vaddr + x.1.memsz < KERNBASE)
    (hordered : (segments c).IsChain Proghdr.Before) : Loaded c t.mem t.proc := by
  have hle := h.started.sized.le
  have hroom := h.started.room
  have halign := h.started.align
  have hguard : (t.proc.sz - 2 * PGSIZE) / PGSIZE = t.proc.sz / PGSIZE - 2 := by
    unfold PGSIZE
    omega
  have hmem : ∀ ph ∈ segments c, ∃ l, (ph, l) ∈ segs := fun ph hph => by
    rw [← hsegs] at hph
    obtain ⟨x, hx, rfl⟩ := List.mem_map.mp hph
    exact ⟨x.2, hx⟩
  -- the segments do not overlap
  have hpair : segs.Pairwise fun x y => x.1.vaddr + x.1.memsz ≤ y.1.vaddr := by
    refine List.pairwise_map.mp (hsegs ▸ pairwise_of_before hordered fun p hp => ?_)
    obtain ⟨l, hl⟩ := hmem p hp
    exact (hdata _ hl).2.2.2
  have hpair' : segs.Pairwise fun x y => x.1.vaddr + x.2.length ≤ y.1.vaddr :=
    hpair.imp_of_mem fun {x y} hx _ hxy => by
      have := hdata x hx
      omega
  have hapart : ∀ x ∈ segs, ∀ y ∈ segs, x ≠ y →
      x.1.vaddr + x.1.memsz ≤ y.1.vaddr ∨ y.1.vaddr + y.1.memsz ≤ x.1.vaddr :=
    fun x hx y hy hne => by
      have : Std.Symm fun x y : Proghdr × List UInt8 =>
        x.1.vaddr + x.1.memsz ≤ y.1.vaddr ∨ y.1.vaddr + y.1.memsz ≤ x.1.vaddr :=
          ⟨fun _ _ => Or.symm⟩
      have hpair₂ : segs.Pairwise fun x y =>
        x.1.vaddr + x.1.memsz ≤ y.1.vaddr ∨ y.1.vaddr + y.1.memsz ≤ x.1.vaddr := hpair.imp Or.inl
      exact hpair₂.forall hx hy hne
  -- what the process reads below the two pages at the end
  have hlow : ∀ a < t.proc.sz - 2 * PGSIZE,
      userByte t.mem t.proc.pgdir a = some (placeAll (fun _ => 0) segs a) := fun a ha => by
    rw [h.userByte_eq (by omega), if_neg (by unfold PGSIZE at *; omega)]
    exact h.started.bytes a (by omega) (by unfold PGSIZE at *; omega)
  have hin : ∀ x ∈ segs, x.1.vaddr + x.1.memsz ≤ t.proc.sz - 2 * PGSIZE := fun x hx => by
    have hsize : x.1.vaddr + x.1.memsz ≤ sizeAll 0 segs := le_sizeAll hx
    have hlt : sizeAll 0 segs < KERNBASE := sizeAll_lt (by decide) fun y hy => (hdata y hy).2.2.2
    rw [hsz, Nat.add_sub_cancel]
    unfold PGROUNDUP PGSIZE
    unfold KERNBASE at hlt
    omega
  refine ⟨fun ph hph i hi => ?_, fun ph hph i hlo hi => ?_, fun a ha hout => ?_, fun v hv => ?_,
    fun a ha hdiv => ?_, fun a ha hdiv => ?_, heip⟩
  · obtain ⟨l, hl⟩ := hmem ph hph
    obtain ⟨hfile, hlen, hfit, -⟩ := hdata _ hl
    have hend := hin _ hl
    dsimp only at *
    rw [hlow _ (by omega), placeAll_of_mem hpair' hl (hlen ▸ hi)]
    have hi' : i < l.length := hlen ▸ hi
    rw [List.getD_eq_getElem _ _ hi', ← List.getElem?_eq_getElem hi', hfile,
      List.getElem?_take_of_lt hi,
      List.getElem?_drop]
  · obtain ⟨l, hl⟩ := hmem ph hph
    obtain ⟨-, hlen, hfit, -⟩ := hdata _ hl
    have hend := hin _ hl
    dsimp only at *
    rw [hlow _ (by omega), placeAll_of_not_mem fun y hy => ?_]
    by_cases hy' : y = (ph, l)
    · subst hy'
      dsimp only
      omega
    · have hyapart := hapart y hy _ hl hy'
      have hydata := hdata y hy
      dsimp only at *
      omega
  · by_cases hg : a / PGSIZE = t.proc.sz / PGSIZE - 2
    · -- a byte of the page below that of the stack
      have hau : a / PGSIZE < NUSER := by
        unfold NUSER KERNBASE PGSIZE at *
        omega
      rw [mappedByte, h.userPage_eq hau (by unfold PGSIZE at *; omega)]
      exact h.started.below a (by unfold KERNBASE at hle; omega) hg
    · have hlow' := lt_of_not_guard halign hroom ha hg
      refine mappedByte_of_userByte (by unfold KERNBASE at hle; omega) ((hlow a hlow').trans ?_)
      rw [placeAll_of_not_mem fun y hy => ?_]
      have hyout := hout y.1 (hsegs ▸ List.mem_map_of_mem hy)
      have hydata := hdata y hy
      omega
  · rw [h.mapped hv, lt_npages_iff hle]
  · rw [hguard] at hdiv
    have hau : a / PGSIZE < NUSER := by
      unfold NUSER KERNBASE PGSIZE at *
      omega
    have hnone := h.started.guard a ha hdiv
    rw [Vm.userByte_eq ha, h.userPage_eq hau (by unfold PGSIZE at *; omega), ← Vm.userByte_eq ha,
      userByte, hnone, Option.map_none]
  · rw [hguard] at hdiv
    rw [h.userByte_eq ha]
    split_ifs
    · exact Option.some_ne_none _
    · rw [h.started.bytes a ha hdiv]
      exact Option.some_ne_none _

/-! ### A program that is loaded -/

theorem segments_tinyProgram : segments tinyProgram = [⟨1, 84, 0, 2, 4⟩] := by decide +kernel

/-- The process, and the program that its path leads to. -/
theorem programState_ready {e : Fs.Env} {s : State} {n : ℕ} (he : ⟨Fs.smallSb, fun _ => none⟩ = e)
    (hs : programState n = s) (hn : 300 + n < PHYSTOP / PGSIZE) :
    Fs.WellFormed e.sb s.kern ∧ Space smallImage {f | 300 + n < f} s.mem s.proc.pgdir ∧
      Fs.resolve (Fs.nodes e.sb s.kern.ic.disk) (s.kern.ic.icache s.kern.cwd).inum [0x61] false =
          some (2, []) ∧
        Fs.nodes e.sb s.kern.ic.disk 2 = some ⟨Fs.T_FILE, 0, 0, 1, tinyProgram⟩ := by
  have hsb : e.sb = Fs.smallSb := he ▸ rfl
  have hnodes : Fs.nodes e.sb s.kern.ic.disk = Fs.listed programNodes :=
    hsb ▸ hs ▸ wellFormed_programKern.2
  have hinum : (s.kern.ic.icache s.kern.cwd).inum = Fs.ROOTINO := hs ▸ rfl
  refine ⟨hsb ▸ hs ▸ wellFormed_programKern.1, hs ▸ (freshMem_sized hn).space, ?_, ?_⟩
  · rw [hnodes, hinum]
    decide +kernel
  · rw [hnodes]
    rfl

section Run

variable {e : Fs.Env} {im : Image} {used : Set ℕ} {ip : Fs.Ip} {J : Fs.Kern → Prop}
  {R : ℕ → ℕ → Option (List UInt8) → Prop} {EF : Fs.Fault → Prop} {s : State} {c : List UInt8}

/-- A structure that lies in the file is read. -/
theorem readStruct_file (hread : Reads e ip J R EF) (hJ : J s.kern)
    (hR : ∀ off n r, R off n r → r = fileRead c (off % 2 ^ 32) n) (hc : c.length < 2 ^ 32)
    {off n : ℕ} (h : off + n ≤ c.length) :
    Wp (readStruct e ip off n) s
      (fun r t => t.mem = s.mem ∧ t.proc = s.proc ∧ J t.kern ∧ r = some ((c.drop off).take n))
      (FsFault EF) := by
  unfold readStruct
  refine (readi_spec hread hJ off (by omega)).bind fun r t ⟨hmem, hproc, hkern, hr⟩ => ?_
  obtain rfl := (hR _ _ _ hr).trans (fileRead_of_le hc h)
  dsimp only
  rw [if_pos (by rw [List.length_take, List.length_drop]; omega)]
  exact ⟨hmem, hproc, hkern, rfl⟩

theorem not_short (hR : ∀ off n r, R off n r → r = fileRead c (off % 2 ^ 32) n)
    (hc : c.length < 2 ^ 32) {off n : ℕ} (h : off + n ≤ c.length) : ¬ Short R off n := by
  rintro ⟨r, hr, hlen⟩
  refine hlen _ ((hR _ _ _ hr).trans (fileRead_of_le hc h)) ?_
  rw [List.length_take, List.length_drop]
  omega

variable {m₀ m : Mem} {d sz : ℕ} {g : ℕ → UInt8}

/-- With enough free pages at the start, `allocuvm` gives the process its new size. -/
theorem Built.allocuvm_ok (h : Built im used m d sz g) (hall : AllFree im used m₀) (newsz : ℕ)
    (hle : sz ≤ newsz) (hbase : newsz < KERNBASE)
    (hroom : 1 + NPDENTRIES + 2 * npages newsz ≤ m₀.free.length) :
    Wp (allocuvm im d sz newsz) m (fun r t => r = newsz ∧ Built im used t d newsz g)
      fun _ => False := by
  have htotal := h.space.length_le (fun v hv hp => (h.sized.mapped v hv).mp hp) hall.nodup
    fun f hf => (hall.mem_iff f).mp hf
  have hneed := need_le m d (npages sz) (npages newsz)
  have hmono := npages_mono hle hbase.le
  refine (h.allocuvm_spec newsz).post fun r t ⟨_, hr⟩ => ?_
  rcases hr with ⟨-, -, hshort⟩ | ⟨rfl, -, hbuilt⟩
  · have := hshort hbase
    omega
  · rw [Nat.max_eq_right hle] at hbuilt ⊢
    exact ⟨rfl, hbuilt⟩

/-- The one segment of the small program is loaded. -/
theorem loadLoop_tinyProgram (hread : Reads e ip J R EF)
    (hR : ∀ off n r, R off n r → r = fileRead tinyProgram (off % 2 ^ 32) n)
    (hall : AllFree im used m₀) (hroom : 1 + NPDENTRIES + 2 ≤ m₀.free.length) (hJ : J s.kern)
    (h : Built im used s.mem d 0 g) :
    Wp (loadLoop e im d ip 1 Fs.ELFHDR 0) s
      (fun r t => r = some 4 ∧ J t.kern ∧ ∃ g, Built im used t.mem d 4 g) (FsFault EF) := by
  have hc : tinyProgram.length < 2 ^ 32 := by decide
  have hparse : Proghdr.parse ((tinyProgram.drop Fs.ELFHDR).take Fs.PROGHDR) =
    ⟨1, 84, 0, 2, 4⟩ := by
    decide
  unfold loadLoop
  refine (readStruct_file hread hJ hR hc (by decide)).bind ?_
  rintro r t ⟨hmem, -, hkern, rfl⟩
  rw [← hmem] at h
  dsimp only
  rw [hparse, if_neg (by decide), if_neg (by decide), if_neg (by decide), Wp.bind_iff, onMem_iff]
  refine (h.allocuvm_ok hall 4 (by decide) (by decide) hroom).mono ?_ fun _ => False.elim
  rintro r m ⟨rfl, hbuilt⟩
  rw [if_neg (by decide), if_neg (by decide)]
  refine (loaduvm_spec (s := { t with mem := m }) hread (by decide) (by decide) hbuilt hkern).bind
    ?_
  rintro r u ⟨hu, ⟨rfl, l, -, -, hbuilt'⟩ | ⟨-, -, x, n, hx, hshort⟩⟩
  · exact ⟨rfl, hu.kern, _, hbuilt'⟩
  · have hlen : tinyProgram.length = 86 := by decide
    have hx' : x + n ≤ 2 := hx
    refine absurd hshort (not_short hR hc ?_)
    rw [hlen]
    change 84 + x + n ≤ 86
    omega

/-- The address space of the small program is built. -/
theorem image_tinyProgram {path : List UInt8} {k : Fs.Kern} (hread : Reads e ip J R EF)
    (hR : ∀ off n r, R off n r → r = fileRead tinyProgram (off % 2 ^ 32) n)
    (hopen : openInode e path s.kern = .ok (some ip, k)) (hJ : J k)
    (hclose : ∀ k, J k → Wp (closeInode e ip) k (fun _ _ => True) EF)
    (hall : AllFree im used s.mem) (hroom : 1 + NPDENTRIES + 6 ≤ s.mem.free.length) :
    Wp (image e im path) s (fun r _ => r ≠ none) (FsFault EF) := by
  have hc : tinyProgram.length < 2 ^ 32 := by decide
  have hload : Wp (loadImage e im ip) { s with kern := k }
      (fun r t => J t.kern ∧ ∃ d entry g, r = some (d, 4, entry) ∧ Built im used t.mem d 4 g)
      (FsFault EF) := by
    unfold loadImage
    refine (readStruct_file (s := { s with kern := k }) hread hJ hR hc (by decide)).bind
      fun r t ⟨hmem, _, hkern, hr⟩ => ?_
    subst hr
    have hmagic : Fs.field ((tinyProgram.drop 0).take Fs.ELFHDR) 0 4 = Fs.ELF_MAGIC := by decide
    have hcount : Fs.field ((tinyProgram.drop 0).take Fs.ELFHDR) 44 2 = 1 := by decide
    have hoff : Fs.field ((tinyProgram.drop 0).take Fs.ELFHDR) 28 4 = Fs.ELFHDR := by decide
    dsimp only
    rw [if_neg (not_not_intro hmagic), Wp.bind_iff, onMem_iff, hmem, hcount, hoff]
    refine hall.setupkvm_spec.mono (fun r m ⟨_, hr⟩ => ?_) fun _ => False.elim
    cases r with
    | none => exact absurd hr.2 (by omega)
    | some d =>
      obtain ⟨hspace, hnone, hmap⟩ := hr
      refine (loadLoop_tinyProgram (s := { t with mem := m }) hread hR hall (by omega) hkern
        (built_setupkvm hspace hnone hmap)).bind ?_
      rintro r u ⟨rfl, hu, g, hbuilt⟩
      exact ⟨hu, d, _, g, rfl, hbuilt⟩
  have himage : Wp (openImage e im path) s
      (fun r t => ∃ d entry g, r = some (d, 4, entry) ∧
        Built im used t.mem d 4 g) (FsFault EF) := by
    unfold openImage
    rw [Wp.bind_iff, onKern_iff, Wp.of_eq hopen]
    refine hload.bind fun r t ⟨ht, hr⟩ => ?_
    rw [Wp.bind_iff, onKern_iff]
    exact (hclose t.kern ht).mono (fun _ _ _ => hr) fun f hf => ⟨f, rfl, hf⟩
  unfold image
  refine himage.bind ?_
  rintro _ t ⟨d, entry, g, rfl, hbuilt⟩
  have hround : PGROUNDUP 4 = PGSIZE := by decide
  have hpages : npages ((PGSIZE + 2 * PGSIZE) % 2 ^ 32) = 3 := by decide
  have hbuilt' := hbuilt.round
  rw [hround] at hbuilt'
  dsimp only
  rw [hround, Wp.bind_iff, onMem_iff]
  refine (hbuilt'.allocuvm_ok hall ((PGSIZE + 2 * PGSIZE) % 2 ^ 32) (by decide) (by decide)
    (by rw [hpages]; exact hroom)).mono ?_ fun _ => False.elim
  rintro r m ⟨rfl, hnew⟩
  rw [if_neg (by decide)]
  refine Wp.bind (Q := fun _ _ => True) ((clearpteu_spec (s := { t with mem := m }) hnew (by decide)
    (by decide) fun a ha => hbuilt.zero a ?_).mono (fun _ _ _ => trivial) fun _ => False.elim)
      fun _ _ _ => Option.some_ne_none _
  exact ha

end Run

/-- With two thousand free pages, the program `a` runs with the arguments `a` and `bc`. -/
theorem exec_programState : ∃ t, exec ⟨Fs.smallSb, fun _ => none⟩ smallImage [0x61]
    [[0x61], [0x62, 0x63]] (programState 2000) = .ok (0, t) := by
  obtain ⟨e, he⟩ : ∃ e : Fs.Env, ⟨Fs.smallSb, fun _ => none⟩ = e := ⟨_, rfl⟩
  obtain ⟨s, hs⟩ : ∃ s, programState 2000 = s := ⟨_, rfl⟩
  obtain ⟨hwf, hspace, hpath, hfile⟩ := programState_ready he hs (by decide)
  have hlength : s.mem.free.length = 2000 := hs ▸ List.length_range'
  have heval : (openInode ⟨Fs.smallSb, fun _ => none⟩ [0x61]
      (programState 2000).kern).toOption.any (fun r => r.1.isSome) = true := by decide +kernel
  rw [he, hs] at heval ⊢
  obtain ⟨⟨r, k⟩, hk, hr⟩ := (Option.any_eq_true _ _).mp heval
  obtain ⟨ip, rfl⟩ := Option.isSome_iff_exists.mp hr
  have hopen := eq_ok_of_toOption hk
  have hlocked := (openInode_spec hwf.holds (fun _ => rfl) hwf.cwd [0x61]).of_ok hopen
  have himage : Wp (image e smallImage [0x61]) s (fun r _ => r ≠ none)
      (FsFault fun _ => False) :=
    image_tinyProgram reads_locked (fun off n r hr => hr 2 [] _ hpath hfile (by decide)) hopen
      hlocked (fun k hk => (closeInode_spec rfl hk).mono (fun _ _ _ => trivial) fun _ => id)
      hspace.allFree (by rw [hlength]; decide)
  have hshort : ∀ a ∈ ([[0x61], [0x62, 0x63]] : List (List UInt8)), a.length < 2 ^ 25 := by decide
  have hexec := exec_spec (e := e) (K := fun _ => True) (E := fun _ => False)
    [[0x61], [0x62, 0x63]] (fun ip => reads_locked) (by rw [Wp.of_eq hopen]; exact hlocked)
    (fun ip k hk => (closeInode_spec rfl hk).mono (fun _ _ _ => trivial) fun _ => id) hspace
  obtain ⟨r, t, hrun, hr⟩ := hexec.exists_ok fun x hx => hx.elim (fun ⟨_, _, hf⟩ => hf)
    fun ⟨_, a, ha, hlong⟩ => absurd (hshort a ha) (Nat.not_lt.mpr hlong)
  rcases hr with ⟨-, -, -, ⟨u, hu⟩ | hfit⟩ | ⟨rfl, -⟩
  · exact absurd rfl (himage.of_ok hu)
  · exact absurd (by decide) hfit
  · exact ⟨t, hrun⟩

/-! ### What the new program finds -/

/-- If `exec` returns 0 for a file whose segments lie in order in different pages, the program of
the file is in memory. -/
theorem exec_loads_program {e : Fs.Env} {im : Image} {others orphans : Set ℕ} {s : State}
    (h : Space im others s.mem s.proc.pgdir)
    (hfs : Fs.Holds e.sb orphans (s.kern.ghost e.sb) s.kern.ic)
    (hcwd : 0 < (s.kern.ic.icache s.kern.cwd).ref) {path name : List UInt8} {n : ℕ} {nd : Fs.Node}
    (hpath : Fs.resolve (Fs.nodes e.sb s.kern.ic.disk) (s.kern.ic.icache s.kern.cwd).inum path
      false = some (n, name))
    (hnode : Fs.nodes e.sb s.kern.ic.disk n = some nd) (hdev : nd.type ≠ Fs.T_DEV)
    (hordered : (segments nd.data).IsChain Proghdr.Before) (argv : List (List UInt8)) :
    Wp (exec e im path argv) s (fun r t => r = 0 → Loaded nd.data t.mem t.proc) fun _ => True := by
  have hlength : nd.data.length < 2 ^ 32 :=
    (hfs.data_length_le hnode).trans_lt (by decide)
  refine (exec_spec (K := fun k => Fs.Returned e.sb orphans (s.kern.ghost e.sb) k.ic) argv
    (fun ip => reads_locked) (openInode_spec hfs (fun _ => rfl) hcwd path)
    (fun ip k hk => (closeInode_spec rfl hk).mono (fun _ _ => id) fun _ _ => trivial) h).mono
      (fun r t hr hzero => ?_) fun _ _ => trivial
  rcases hr with ⟨rfl, -⟩ | ⟨-, -, -, u, ip, elf, segs, f, sp, ptrs, b', -, hprog, heip, hsz, hexec⟩
  · cases hzero
  obtain ⟨hentry, hsegs, hdata⟩ := hprog.segments_eq
    (fun off k r hr => hr n name nd hpath hnode hdev) hlength
  exact hexec.loaded hsz (heip.trans hentry) hsegs hdata hordered

/-- The program `a` in the root is loaded, and it is given two arguments. -/
theorem exec_loads_program_tiny :
    ∃ t, exec ⟨Fs.smallSb, fun _ => none⟩ smallImage [0x61] [[0x61], [0x62, 0x63]]
      (programState 2000) = .ok (0, t) ∧ Loaded tinyProgram t.mem t.proc := by
  obtain ⟨t, hrun⟩ := exec_programState
  refine ⟨t, hrun, ?_⟩
  obtain ⟨e, he⟩ : ∃ e : Fs.Env, ⟨Fs.smallSb, fun _ => none⟩ = e := ⟨_, rfl⟩
  obtain ⟨s, hs⟩ : ∃ s, programState 2000 = s := ⟨_, rfl⟩
  obtain ⟨hwf, hspace, hpath, hfile⟩ := programState_ready he hs (by decide)
  have hordered : (segments tinyProgram).IsChain Proghdr.Before := by
    rw [segments_tinyProgram]
    exact .singleton _
  rw [he, hs] at hrun
  exact (exec_loads_program hspace hwf.holds hwf.cwd hpath hfile (by decide) hordered
    [[0x61], [0x62, 0x63]]).of_ok hrun rfl

/-- If `exec` returns 0, the new program finds the strings: the word at `esp+4` is their number and
the one at `esp+8` the address `esp+12`, where there are as many pointers and a null pointer, and
each of them points to a C string that is the argument. All of it lies apart in the page of the
stack. No byte below `esp`, also of the page that is not for the user, is written after the address
space of the program is ready. -/
theorem arguments_survive {e : Fs.Env} {im : Image} {others : Set ℕ} {s : State}
    (h : Space im others s.mem s.proc.pgdir) (path : List UInt8) {argv : List (List UInt8)}
    (hnul : ∀ a ∈ argv, 0 ∉ a) :
    Wp (exec e im path argv) s
      (fun r t => r = 0 →
        (∃ ptrs, ArgumentsAt t.mem t.proc.pgdir t.proc.sz t.proc.esp argv ptrs) ∧
          ∃ u, image e im path s = .ok (some (t.proc.pgdir, t.proc.sz, t.proc.eip), u) ∧
            ∀ a < t.proc.esp, mappedByte t.mem t.proc.pgdir a = mappedByte u.mem t.proc.pgdir a)
      fun _ => True := by
  -- nothing is asked of the file system
  refine (exec_spec (K := fun _ => True) (J := fun _ _ => True) (R := fun _ _ _ _ => True) argv
    (fun ip k off n _ _ => (Wp.true _ k).post fun _ _ _ => ⟨trivial, trivial⟩)
    ((Wp.true _ _).post fun r _ _ => ?_) (fun ip k _ => Wp.true _ k) h).mono
    (fun r t hr hzero => ?_) fun _ _ => trivial
  · cases r <;> trivial
  rcases hr with ⟨rfl, -⟩ | ⟨-, -, -, u, ip, elf, segs, f, sp, ptrs, b', hrun, -, -, -, hexec⟩
  · cases hzero
  have hroom := hexec.started.room
  have hesp := hexec.esp
  have hle := hexec.pushed.le
  refine ⟨⟨ptrs, hexec.pushed.argumentsAt hexec.started.sized.le (by omega) hexec.count hexec.lo
    hexec.esp hnul fun a hlo ha => ?_⟩, u, hrun, fun a ha => ?_⟩
  · rw [hexec.userByte_eq ha, if_pos hlo]
  · exact hexec.mappedByte_eq ha

/-- The program `a` finds the arguments `a` and `bc`. -/
theorem arguments_survive_two :
    ∃ t, exec ⟨Fs.smallSb, fun _ => none⟩ smallImage [0x61] [[0x61], [0x62, 0x63]]
        (programState 2000) = .ok (0, t) ∧
      (∃ ptrs, ArgumentsAt t.mem t.proc.pgdir t.proc.sz t.proc.esp [[0x61], [0x62, 0x63]] ptrs) ∧
        ∃ u, image ⟨Fs.smallSb, fun _ => none⟩ smallImage [0x61] (programState 2000) =
            .ok (some (t.proc.pgdir, t.proc.sz, t.proc.eip), u) ∧
          ∀ a < t.proc.esp, mappedByte t.mem t.proc.pgdir a = mappedByte u.mem t.proc.pgdir a := by
  obtain ⟨t, hrun⟩ := exec_programState
  refine ⟨t, hrun, ?_⟩
  obtain ⟨e, he⟩ : ∃ e : Fs.Env, ⟨Fs.smallSb, fun _ => none⟩ = e := ⟨_, rfl⟩
  obtain ⟨s, hs⟩ : ∃ s, programState 2000 = s := ⟨_, rfl⟩
  obtain ⟨-, hspace, -⟩ := programState_ready he hs (by decide)
  rw [he, hs] at hrun ⊢
  exact (arguments_survive hspace [0x61] (by decide)).of_ok hrun rfl

end Xv6.Exec
