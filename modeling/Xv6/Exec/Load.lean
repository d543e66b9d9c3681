import Xv6.Exec.Model
import Xv6.Vm.Access

/-!
# Loading a program

The address space that `exec` builds. Beside the memory it is a function from addresses to bytes:
`allocuvm` gives zero bytes up to the new size, and `loaduvm` puts the bytes of a segment over them.
What the file system delivers is a parameter: a property that the reads keep, and a relation between
the arguments of a read and its result.
-/

namespace Xv6.Exec

open Lib Vm

theorem onMem_iff {α : Type} {y : Vm.Kern α} {s : State} {Q : α → State → Prop}
    {E : ExecFault → Prop} :
    Wp (onMem y) s Q E ↔
      Wp y s.mem (fun a m => Q a { s with mem := m }) fun e => E (.vm e) := by
  rw [onMem, Wp.zoom_iff, Wp.rethrow_iff]

theorem onKern_iff {α : Type} {y : Fs.KernM α} {s : State} {Q : α → State → Prop}
    {E : ExecFault → Prop} :
    Wp (onKern y) s Q E ↔
      Wp y s.kern (fun a k => Q a { s with kern := k }) fun e => E (.fs e) := by
  rw [onKern, Wp.zoom_iff, Wp.rethrow_iff]

/-! ### Bytes by address -/

/-- The bytes `l` over those of `g`, from address `a` on. -/
def place (g : ℕ → UInt8) (a : ℕ) (l : List UInt8) : ℕ → UInt8 := fun x =>
  if a ≤ x ∧ x < a + l.length then l.getD (x - a) 0 else g x

theorem place_nil (g : ℕ → UInt8) (a : ℕ) : place g a [] = g := by
  funext x
  refine if_neg ?_
  rw [List.length_nil]
  omega

theorem place_append (g : ℕ → UInt8) (a : ℕ) (b l : List UInt8) :
    place (place g a b) (a + b.length) l = place g a (b ++ l) := by
  funext x
  unfold place
  rw [List.length_append]
  by_cases hb : a ≤ x ∧ x < a + b.length
  · rw [if_neg (by omega), if_pos hb, if_pos (by omega), List.getD_append _ _ _ _ (by omega)]
  · rw [if_neg hb]
    split_ifs with h h' h'
    · rw [List.getD_append_right _ _ _ _ (by omega), Nat.sub_add_eq]
    · omega
    · omega
    · rfl

/-! ### The address space under construction -/

/-- An address space beside the pages `used` that are in use elsewhere. Exactly the pages of size
`sz` are mapped below the kernel; they are for the user and hold the bytes `g`. -/
structure Built (im : Image) (used : Set ℕ) (m : Mem) (d sz : ℕ) (g : ℕ → UInt8) : Prop where
  sized : Sized im used m d sz
  hidden : KernelHidden m d
  devices : ∀ v < NPAGES, DEVSPACE / PGSIZE ≤ v → Present (m.pte d v)
  bytes : ∀ a < npages sz * PGSIZE, userByte m d a = some (g a)
  zero : ∀ a, npages sz * PGSIZE ≤ a → g a = 0

namespace Built

variable {im : Image} {used : Set ℕ} {m t : Mem} {d sz v : ℕ} {g : ℕ → UInt8}

theorem space (h : Built im used m d sz g) : Space im used m d := h.sized.space

/-- A page is mapped for the user. -/
theorem translate (h : Built im used m d sz g) (hv : v < npages sz) :
    Vm.translate m d (v * PGSIZE) = some (frame (m.pte d v)) := by
  have ha : v * PGSIZE < npages sz * PGSIZE := Nat.mul_lt_mul_of_pos_right hv (by decide)
  obtain ⟨f, hf, -⟩ := Option.map_eq_some_iff.mp (h.bytes _ ha)
  obtain ⟨-, -, rfl⟩ := (translate_eq_some_iff (addr_lt h.sized.le ha).1).mp hf
  rwa [Nat.mul_div_cancel v (by decide)] at hf

/-- What a page holds. -/
theorem byte (h : Built im used m d sz g) {a : ℕ} (ha : a < npages sz * PGSIZE) :
    (m.page (frame (m.pte d (a / PGSIZE)))).get (a % PGSIZE) = g a := by
  have htr : Vm.translate m d a = some (frame (m.pte d (a / PGSIZE))) := by
    rw [← h.translate (addr_lt h.sized.le ha).2]
    exact translate_congr (Nat.mul_div_cancel _ (by decide)).symm
  have hbyte := h.bytes a ha
  rw [userByte, htr, Option.map_some] at hbyte
  exact Option.some.inj hbyte

/-- The kernel part stays as it is. -/
theorem congr_kernel {sz' : ℕ} {g' : ℕ → UInt8} (h : Built im used m d sz g)
    (hsized : Sized im used t d sz') (hpte : ∀ v < NPAGES, NUSER ≤ v → t.pte d v = m.pte d v)
    (hbytes : ∀ a < npages sz' * PGSIZE, userByte t d a = some (g' a))
    (hzero : ∀ a, npages sz' * PGSIZE ≤ a → g' a = 0) : Built im used t d sz' g' := by
  refine ⟨hsized, h.hidden.congr hpte, fun v hv hdev => ?_, hbytes, hzero⟩
  rw [hpte v hv ((show NUSER ≤ DEVSPACE / PGSIZE by decide).trans hdev)]
  exact h.devices v hv hdev

/-- `allocuvm` gives zero bytes up to the new size. -/
theorem allocuvm_spec (h : Built im used m d sz g) (newsz : ℕ) :
    Wp (allocuvm im d sz newsz) m
      (fun r t => (∀ f ∈ used, t.page f = m.page f) ∧
        (r = 0 ∧ Space im used t d ∧
            (newsz < KERNBASE → m.free.length < need m d (npages sz) (npages newsz)) ∨
          r = max sz newsz ∧ newsz < KERNBASE ∧ Built im used t d r g))
      fun _ => False := by
  rcases Nat.lt_or_ge newsz sz with hlt | hle
  · -- a segment below the size changes nothing
    have hbase : newsz < KERNBASE := hlt.trans_le h.sized.le
    rw [allocuvm, if_neg (Nat.not_le_of_lt hbase), if_pos hlt]
    refine ⟨fun _ _ => rfl, .inr ⟨(Nat.max_eq_left hlt.le).symm, hbase, h⟩⟩
  · refine (h.space.allocuvm_spec hle fun w hw => h.sized.userPage_none hw).post ?_
    rintro r t ⟨ht, ⟨rfl, hnew, -, hkept, hpages⟩ | ⟨rfl, hneed, hkept⟩⟩
    swap
    · exact ⟨hkept.other, .inl ⟨rfl, ht, hneed⟩⟩
    have hmono := npages_mono hle hnew.le
    have hnle := npages_le hnew.le
    have hsized := h.sized.grown hle hnew ht hkept fun w hw hw₀ hwn => (hpages w hw hw₀ hwn).1
    refine ⟨hkept.other, .inr ⟨(Nat.max_eq_right hle).symm, hnew, h.congr_kernel hsized
      (fun v hv hk => hkept.kernel v hv hk fun hmem => absurd hmem.2 (by omega)) (fun a ha => ?_)
      fun a ha => h.zero a ((Nat.mul_le_mul_right PGSIZE hmono).trans ha)⟩⟩
    obtain ⟨halt, hpage⟩ := addr_lt hnew.le ha
    rw [userByte_eq halt]
    rcases Nat.lt_or_ge (a / PGSIZE) (npages sz) with hold | hnewpage
    · rw [hkept.user _ (by omega) fun hmem => absurd hmem.1 (by omega), ← userByte_eq halt]
      exact h.bytes a ((Nat.div_lt_iff_lt_mul (by decide)).mp hold)
    · obtain ⟨⟨f, hf⟩, -⟩ := hpages _ (by omega) hnewpage hpage
      rw [hf, Option.bind_some, if_pos (by rw [entry_and (by decide)]; decide), Bytes.get_zero,
        h.zero a ((Nat.le_div_iff_mul_le (by decide)).mp hnewpage)]

/-- The pages of a size are those of the size rounded up. -/
theorem round (h : Built im used m d sz g) : Built im used m d (PGROUNDUP sz) g := by
  have hle := h.sized.le
  have hnpages : npages (PGROUNDUP sz) = npages sz := by
    unfold npages PGROUNDUP KERNBASE PGSIZE at *
    omega
  refine ⟨⟨h.space, ?_, fun v hv => ?_⟩, h.hidden, h.devices, ?_, ?_⟩
  · unfold PGROUNDUP KERNBASE PGSIZE at *
    omega
  · rw [hnpages]
    exact h.sized.mapped v hv
  · rw [hnpages]
    exact h.bytes
  · rw [hnpages]
    exact h.zero

/-- The beginning of a page is overwritten. -/
theorem write (h : Built im used m d sz g) (hv : v < npages sz) {b : List UInt8}
    (hb : b.length ≤ PGSIZE) :
    Built im used (m.setPage (frame (m.pte d v)) ((m.page (frame (m.pte d v))).splice 0 b)) d sz
      (place g (v * PGSIZE) b) := by
  have hvu : v < NUSER := hv.trans_le (npages_le h.sized.le)
  obtain ⟨hspace, hpte, -⟩ := h.space.setPage_user hvu (h.sized.present v hv)
    ((m.page (frame (m.pte d v))).splice 0 b)
  refine h.congr_kernel ⟨hspace, h.sized.le, fun w hw => ?_⟩
    (fun w hw _ => hpte w hw) (fun a ha => ?_)
    fun a ha => ?_
  · rw [hpte w (hw.trans_le NUSER_le)]
    exact h.sized.mapped w hw
  · obtain ⟨halt, hpage⟩ := addr_lt h.sized.le ha
    have hdiv : a / PGSIZE * PGSIZE + a % PGSIZE = a := Nat.div_add_mod' a PGSIZE
    have hmod : a % PGSIZE < PGSIZE := Nat.mod_lt a (by decide)
    rw [h.space.userByte_setPage h.hidden hvu (h.translate hv) _ halt, place]
    split_ifs with hin hseg hseg
    · subst hin
      rw [Bytes.get_splice _ _ _ hmod, if_pos (by omega), Nat.sub_zero]
      congr 2
      omega
    · subst hin
      rw [Bytes.get_splice _ _ _ hmod, if_neg (by omega), h.byte ha]
    · exact absurd (by rw [Nat.div_eq_iff (by decide)]; omega) hin
    · exact h.bytes a ha
  · have hnext : (v + 1) * PGSIZE ≤ npages sz * PGSIZE := Nat.mul_le_mul_right PGSIZE hv
    rw [place, if_neg (by rw [Nat.succ_mul] at hnext; omega)]
    exact h.zero a ha

end Built

/-! ### Reading -/

/-- What is outside the new address space: the process and the pages in use are as they were, and
the file system is as `J` says. -/
structure Rest (J : Fs.Kern → Prop) (used : Set ℕ) (s t : State) : Prop where
  proc : t.proc = s.proc
  page : ∀ f ∈ used, t.mem.page f = s.mem.page f
  kern : J t.kern

theorem Rest.refl {J : Fs.Kern → Prop} {s : State} (used : Set ℕ)
    (h : J s.kern) : Rest J used s s :=
  ⟨rfl, fun _ _ => rfl, h⟩

theorem Rest.trans {J J' : Fs.Kern → Prop} {used : Set ℕ} {s t u : State} (h : Rest J used s t)
    (h' : Rest J' used t u) : Rest J' used s u :=
  ⟨h'.proc.trans h.proc, fun f hf => (h'.page f hf).trans (h.page f hf), h'.kern⟩

/-- A read from the inode keeps `J`, and its result is as `R` says. -/
def Reads (e : Fs.Env) (ip : Fs.Ip) (J : Fs.Kern → Prop)
    (R : ℕ → ℕ → Option (List UInt8) → Prop) (EF : Fs.Fault → Prop) : Prop :=
  ∀ k off n, n < 2 ^ 32 → J k →
    Wp (Fs.inIc (Fs.onInode ip fun i => Fs.readi e i.din (off % 2 ^ 32) n)) k
      (fun r k' => J k' ∧ R off n r) EF

/-- The faults of the file system. -/
def FsFault (EF : Fs.Fault → Prop) (e : ExecFault) : Prop := ∃ f, e = .fs f ∧ EF f

/-- The bytes of a segment, as `loaduvm` reads them page by page from offset `off` on. -/
inductive Chunks (R : ℕ → ℕ → Option (List UInt8) → Prop) : ℕ → List UInt8 → Prop
  | nil (off : ℕ) : Chunks R off []
  | cons {off : ℕ} {b l : List UInt8} (hread : R off b.length (some b))
    (hpage : b.length = PGSIZE ∨ b.length < PGSIZE ∧ l = []) (hl : Chunks R (off + PGSIZE) l) :
    Chunks R off (b ++ l)

/-- The segments that `n` program headers from offset `off` on describe, with their bytes. -/
inductive Headers (R : ℕ → ℕ → Option (List UInt8) → Prop) :
    ℕ → ℕ → List (Proghdr × List UInt8) → Prop
  | nil (off : ℕ) : Headers R 0 off []
  | skip {n off : ℕ} {b : List UInt8} {segs : List (Proghdr × List UInt8)}
    (hread : R off Fs.PROGHDR (some b)) (hlen : b.length = Fs.PROGHDR)
    (htype : (Proghdr.parse b).type ≠ Fs.ELF_PROG_LOAD)
    (hsegs : Headers R n (off + Fs.PROGHDR) segs) : Headers R (n + 1) off segs
  | load {n off : ℕ} {b data : List UInt8} {segs : List (Proghdr × List UInt8)}
    (hread : R off Fs.PROGHDR (some b)) (hlen : b.length = Fs.PROGHDR)
    (htype : (Proghdr.parse b).type = Fs.ELF_PROG_LOAD)
    (hsize : (Proghdr.parse b).filesz ≤ (Proghdr.parse b).memsz)
    (htop : (Proghdr.parse b).vaddr + (Proghdr.parse b).memsz < KERNBASE)
    (hdata : data.length = (Proghdr.parse b).filesz) (hchunks : Chunks R (Proghdr.parse b).off data)
    (hsegs : Headers R n (off + Fs.PROGHDR) segs) :
    Headers R (n + 1) off ((Proghdr.parse b, data) :: segs)

/-- The bytes of the segments, one after the other over those of `g`. -/
def placeAll (g : ℕ → UInt8) (segs : List (Proghdr × List UInt8)) : ℕ → UInt8 :=
  segs.foldl (fun g x => place g x.1.vaddr x.2) g

/-- The size of a program, from that of its first segments on. -/
def sizeAll (sz : ℕ) (segs : List (Proghdr × List UInt8)) : ℕ :=
  segs.foldl (fun sz x => max sz (x.1.vaddr + x.1.memsz)) sz

section Load

variable {e : Fs.Env} {im : Image} {used : Set ℕ} {ip : Fs.Ip} {J : Fs.Kern → Prop}
  {R : ℕ → ℕ → Option (List UInt8) → Prop} {EF : Fs.Fault → Prop} {s : State} {d sz : ℕ}
  {g : ℕ → UInt8}

/-- A read from the file of the program. -/
theorem readi_spec (hread : Reads e ip J R EF) (hJ : J s.kern) (off : ℕ) {n : ℕ} (hn : n < 2 ^ 32) :
    Wp (readi e ip off n) s (fun r t => t.mem = s.mem ∧ t.proc = s.proc ∧ J t.kern ∧ R off n r)
      (FsFault EF) := by
  rw [readi, onKern_iff]
  exact (hread s.kern off n hn hJ).mono (fun r k ⟨hk, hr⟩ => ⟨rfl, rfl, hk, hr⟩)
    fun f hf => ⟨f, rfl, hf⟩

theorem readStruct_spec (hread : Reads e ip J R EF) (hJ : J s.kern) (off : ℕ) {n : ℕ}
    (hn : n < 2 ^ 32) :
    Wp (readStruct e ip off n) s
      (fun r t => t.mem = s.mem ∧ t.proc = s.proc ∧ J t.kern ∧
        ∀ b, r = some b → R off n (some b) ∧ b.length = n)
      (FsFault EF) := by
  unfold readStruct
  refine (readi_spec hread hJ off hn).bind fun r t ⟨hmem, hproc, hkern, hr⟩ => ?_
  cases r with
  | none => exact ⟨hmem, hproc, hkern, fun b hb => by cases hb⟩
  | some b =>
    dsimp only
    split_ifs with hlen
    · refine ⟨hmem, hproc, hkern, fun b' hb' => ?_⟩
      obtain rfl := Option.some.inj hb'
      exact ⟨hr, hlen⟩
    · exact ⟨hmem, hproc, hkern, fun b hb => by cases hb⟩

/-- A read delivers less than `n` bytes. -/
def Short (R : ℕ → ℕ → Option (List UInt8) → Prop) (off n : ℕ) : Prop :=
  ∃ r, R off n r ∧ ∀ b, r = some b → b.length ≠ n

/-- The loop of `loaduvm` at byte `i`: the rest of the segment goes over the bytes of `g`. -/
theorem loaduvmLoop_spec (hread : Reads e ip J R EF) {vaddr offset filesz : ℕ}
    (halign : vaddr % PGSIZE = 0) (hroom : vaddr + filesz ≤ sz) (k : ℕ) {i : ℕ}
    (h : Built im used s.mem d sz g) (hJ : J s.kern) (hi : i % PGSIZE = 0)
    (hlt : i < filesz + PGSIZE) (hk : filesz + PGSIZE ≤ i + k * PGSIZE) :
    Wp (loaduvmLoop e d vaddr ip offset filesz k i) s
      (fun r t => Rest J used s t ∧
        (r = true ∧ (∃ l, l.length = filesz - i ∧ Chunks R (offset + i) l ∧
            Built im used t.mem d sz (place g (vaddr + i) l)) ∨
          r = false ∧ Space im used t.mem d ∧ ∃ x n, i ≤ x ∧ x + n ≤ filesz ∧
          Short R (offset + x) n))
      (FsFault EF) := by
  induction k generalizing i s g with
  | zero => omega
  | succ k ih =>
    unfold loaduvmLoop
    by_cases hmore : i < filesz
    swap
    · rw [if_neg hmore]
      refine ⟨.refl used hJ, .inl ⟨rfl, [], ?_, .nil _, ?_⟩⟩
      · rw [List.length_nil]
        omega
      · rw [place_nil]
        exact h
    rw [if_pos hmore]
    -- the page of byte `i`
    have hle := h.sized.le
    obtain ⟨v, hv⟩ : ∃ v, vaddr + i = v * PGSIZE :=
      ⟨(vaddr + i) / PGSIZE, by unfold PGSIZE at *; omega⟩
    have hvn : v < npages sz := (lt_npages_iff hle).mpr (by omega)
    have hvu := hvn.trans_le (npages_le hle)
    have haddr : (vaddr + i) % 2 ^ 32 = v * PGSIZE := by
      rw [hv]
      unfold NUSER KERNBASE PGSIZE at *
      omega
    have hp := h.sized.present v hvn
    have htable := present_table hp
    have hentry : s.mem.word (frame (s.mem.word d (v / 1024))) (v % 1024) = s.mem.pte d v :=
      (if_pos htable).symm
    rw [Wp.bind_iff, onMem_iff, haddr, Wp.of_eq (walkpgdir_page s.mem d (hvu.trans_le NUSER_le)),
      if_pos htable]
    dsimp only
    rw [Wp.bind_iff, Wp.get_iff, hentry]
    obtain ⟨n, hn⟩ : ∃ n, (if filesz - i < PGSIZE then filesz - i else PGSIZE) = n := ⟨_, rfl⟩
    rw [hn]
    have hnlt : n < 2 ^ 32 := by
      unfold PGSIZE at hn
      split_ifs at hn <;> omega
    refine (readi_spec hread hJ (offset + i) hnlt).bind fun r t ⟨hmem, hproc, hkern, hr⟩ => ?_
    have hrest : Rest J used s t := ⟨hproc, fun f _ => by rw [hmem], hkern⟩
    cases r with
    | none =>
      exact ⟨hrest, .inr ⟨rfl, hmem ▸ h.space, i, n, le_rfl, by split_ifs at hn <;> omega, none, hr,
        fun _ hb => by cases hb⟩⟩
    | some b =>
      dsimp only
      rw [Wp.bind_iff, onMem_iff, Wp.modify_iff, hmem]
      obtain ⟨hspace, -, hother⟩ := h.space.setPage_user hvu hp
        ((s.mem.page (frame (s.mem.pte d v))).splice 0 b)
      have hwrite := h.write hvn (b := b)
      obtain ⟨m, hm⟩ : ∃ m, s.mem.setPage (frame (s.mem.pte d v))
        ((s.mem.page (frame (s.mem.pte d v))).splice 0 b) = m := ⟨_, rfl⟩
      rw [hm] at hspace hother hwrite ⊢
      have hrest' : Rest J used s { t with mem := m } :=
        ⟨hproc, fun f hf => hother f (Set.mem_insert_of_mem d hf), hkern⟩
      by_cases hlen : b.length = n
      swap
      · rw [if_pos hlen]
        refine ⟨hrest', .inr ⟨rfl, hspace, i, n, le_rfl, by split_ifs at hn <;> omega, some b, hr,
          fun b' hb' => ?_⟩⟩
        obtain rfl := Option.some.inj hb'
        exact hlen
      have hnle : n ≤ PGSIZE ∧ (n = PGSIZE ∧ n ≤ filesz - i ∨ n < PGSIZE ∧ n = filesz - i) := by
        split_ifs at hn <;> omega
      have hnext : (i + PGSIZE) % 2 ^ 32 = i + PGSIZE := by
        unfold KERNBASE PGSIZE at *
        omega
      rw [if_neg (not_not_intro hlen), hnext]
      refine (ih (s := { t with mem := m }) (hwrite (hlen.trans_le hnle.1)) hkern
        ((Nat.add_mod_right ..).trans hi) (by omega) ?_).post fun r u hu => ?_
      · rw [Nat.succ_mul] at hk
        omega
      obtain ⟨hu, ⟨rfl, l, hl, hchunks, hbuilt⟩ | ⟨rfl, hspace', x, k, hx, hshort⟩⟩ := hu
      swap
      · exact ⟨hrest'.trans hu, .inr ⟨rfl, hspace', x, k, (Nat.le_add_right ..).trans hx, hshort⟩⟩
      have hsum : (b ++ l).length = filesz - i := by
        rw [List.length_append, hlen, hl]
        omega
      rw [← Nat.add_assoc] at hchunks hbuilt
      refine ⟨hrest'.trans hu, .inl ⟨rfl, b ++ l, hsum, .cons (hlen.symm ▸ hr) ?_ hchunks, ?_⟩⟩
      · refine hnle.2.imp (fun hfull => hlen.trans hfull.1) fun ⟨hshort, hlast⟩ =>
          ⟨hlen.trans_lt hshort, ?_⟩
        exact List.length_eq_zero_iff.mp (by omega)
      · rw [← hv] at hbuilt
        rcases hnle.2 with ⟨hfull, -⟩ | ⟨hshort, hlast⟩
        · rwa [← place_append, hlen, hfull]
        · obtain rfl : l = [] := List.length_eq_zero_iff.mp (by omega)
          rwa [place_nil, ← List.append_nil b] at hbuilt

/-- `loaduvm` puts the bytes of a segment into the pages at `vaddr`. -/
theorem loaduvm_spec (hread : Reads e ip J R EF) {vaddr offset filesz : ℕ}
    (halign : vaddr % PGSIZE = 0) (hroom : vaddr + filesz ≤ sz) (h : Built im used s.mem d sz g)
    (hJ : J s.kern) :
    Wp (loaduvm e d vaddr ip offset filesz) s
      (fun r t => Rest J used s t ∧
        (r = true ∧ (∃ l, l.length = filesz ∧ Chunks R offset l ∧
            Built im used t.mem d sz (place g vaddr l)) ∨
          r = false ∧ Space im used t.mem d ∧ ∃ x n, x + n ≤ filesz ∧ Short R (offset + x) n))
      (FsFault EF) := by
  have hle := h.sized.le
  have hfuel : filesz + PGSIZE ≤ 0 + (2 ^ 20 + 1) * PGSIZE := by
    unfold KERNBASE PGSIZE at *
    omega
  unfold loaduvm
  rw [if_neg (not_not_intro halign)]
  refine (loaduvmLoop_spec hread halign hroom _ h hJ (Nat.zero_mod _)
    (Nat.add_pos_right _ (by decide)) hfuel).post fun r t ⟨ht, hr⟩ => ⟨ht, hr.imp_right ?_⟩
  rintro ⟨hfalse, hspace, x, n, -, hshort⟩
  exact ⟨hfalse, hspace, x, n, hshort⟩

theorem field_lt (b : List UInt8) (off : ℕ) : Fs.field b off 4 < 2 ^ 32 := by
  have hle : ((b.drop off).take 4).length ≤ 4 := List.length_take_le _ _
  exact (leValue_lt _).trans_le (Nat.pow_le_pow_right (n := 256) (by decide) hle)

/-- The loop over the program headers. -/
theorem loadLoop_spec (hread : Reads e ip J R EF) (n : ℕ) {off : ℕ} (h : Built im used s.mem d sz g)
    (hJ : J s.kern) :
    Wp (loadLoop e im d ip n off sz) s
      (fun r t => Rest J used s t ∧ match r with
        | none => Space im used t.mem d
        | some sz' => ∃ segs, Headers R n off segs ∧ sz' = sizeAll sz segs ∧
            Built im used t.mem d sz' (placeAll g segs))
      (FsFault EF) := by
  induction n generalizing s off sz g with
  | zero => exact ⟨.refl used hJ, [], .nil off, rfl, h⟩
  | succ n ih =>
    unfold loadLoop
    refine (readStruct_spec hread hJ off (by decide)).bind fun r t ⟨hmem, hproc, hkern, hr⟩ => ?_
    have hrest : Rest J used s t := ⟨hproc, fun f _ => by rw [hmem], hkern⟩
    rw [← hmem] at h
    cases r with
    | none => exact ⟨hrest, h.space⟩
    | some b =>
      obtain ⟨hR, hlen⟩ := hr b rfl
      dsimp only
      by_cases htype : (Proghdr.parse b).type = Fs.ELF_PROG_LOAD
      swap
      · rw [if_pos htype]
        refine (ih h hkern).post fun r u ⟨hu, hr⟩ => ⟨hrest.trans hu, ?_⟩
        cases r with
        | none => exact hr
        | some sz' =>
          obtain ⟨segs, hsegs, hbuilt⟩ := hr
          exact ⟨segs, .skip hR hlen htype hsegs, hbuilt⟩
      rw [if_neg (not_not_intro htype)]
      by_cases hsize : (Proghdr.parse b).memsz < (Proghdr.parse b).filesz
      · rw [if_pos hsize]
        exact ⟨hrest, h.space⟩
      rw [if_neg hsize]
      by_cases hwrap : ((Proghdr.parse b).vaddr + (Proghdr.parse b).memsz) % 2 ^ 32 <
          (Proghdr.parse b).vaddr
      · rw [if_pos hwrap]
        exact ⟨hrest, h.space⟩
      rw [if_neg hwrap]
      -- the sum has not wrapped around
      have htop : ((Proghdr.parse b).vaddr + (Proghdr.parse b).memsz) % 2 ^ 32 =
          (Proghdr.parse b).vaddr + (Proghdr.parse b).memsz := by
        have hv : (Proghdr.parse b).vaddr < 2 ^ 32 := field_lt b 8
        have hm : (Proghdr.parse b).memsz < 2 ^ 32 := field_lt b 20
        omega
      rw [htop, Wp.bind_iff, onMem_iff]
      refine (h.allocuvm_spec _).mono (fun r m ⟨hpage, hr⟩ => ?_) fun _ => False.elim
      have hrest' : Rest J used s { t with mem := m } := hrest.trans ⟨rfl, hpage, hkern⟩
      have hspace : Space im used m d := hr.elim (·.2.1) fun hb => hb.2.2.space
      by_cases hzero : r = 0
      · rw [if_pos hzero]
        exact ⟨hrest', hspace⟩
      rw [if_neg hzero]
      obtain ⟨rfl, hbase, hbuilt⟩ := hr.resolve_left fun hc => hzero hc.1
      by_cases halign : (Proghdr.parse b).vaddr % PGSIZE = 0
      swap
      · rw [if_pos halign]
        exact ⟨hrest', hspace⟩
      rw [if_neg (not_not_intro halign)]
      refine (loaduvm_spec (s := { t with mem := m }) hread halign ?_ hbuilt hkern).bind
        fun r u ⟨hu, hr⟩ => ?_
      · omega
      rcases hr with ⟨rfl, l, hl, hchunks, hbuilt'⟩ | ⟨rfl, hspace', -⟩
      swap
      · exact ⟨hrest'.trans hu, hspace'⟩
      refine (ih hbuilt' hu.kern).post fun r w ⟨hw, hr⟩ => ⟨(hrest'.trans hu).trans hw, ?_⟩
      cases r with
      | none => exact hr
      | some sz' =>
        obtain ⟨segs, hsegs, hsz', hbuilt⟩ := hr
        exact ⟨(Proghdr.parse b, l) :: segs,
          .load hR hlen htype (Nat.le_of_not_lt hsize) hbase hl hchunks hsegs, hsz', hbuilt⟩

end Load

/-! ### The image -/

/-- A program whose segments are `segs`, in a file that is read as `R` says. -/
structure Program (R : ℕ → ℕ → Option (List UInt8) → Prop) (elf : List UInt8)
    (segs : List (Proghdr × List UInt8)) : Prop where
  read : R 0 Fs.ELFHDR (some elf)
  length : elf.length = Fs.ELFHDR
  magic : Fs.field elf 0 4 = Fs.ELF_MAGIC
  headers : Headers R (Fs.field elf 44 2) (Fs.field elf 28 4) segs

/-- An address space with the bytes `g`, but for the page below the stack, which is not for the
user. -/
structure Started (im : Image) (used : Set ℕ) (m : Mem) (d sz : ℕ) (g : ℕ → UInt8) : Prop where
  sized : Sized im used m d sz
  hidden : KernelHidden m d
  devices : ∀ v < NPAGES, DEVSPACE / PGSIZE ≤ v → Present (m.pte d v)
  align : sz % PGSIZE = 0
  room : 2 * PGSIZE ≤ sz
  guard : ∀ a < 2 ^ 32, a / PGSIZE = sz / PGSIZE - 2 → Vm.translate m d a = none
  below : ∀ a < 2 ^ 32, a / PGSIZE = sz / PGSIZE - 2 → mappedByte m d a = some 0
  bytes : ∀ a < sz, a / PGSIZE ≠ sz / PGSIZE - 2 → userByte m d a = some (g a)
  zero : ∀ a, sz - 2 * PGSIZE ≤ a → g a = 0

section Image

variable {e : Fs.Env} {im : Image} {used : Set ℕ} {J₀ : Fs.Kern → Prop}
  {J : Fs.Ip → Fs.Kern → Prop} {R : Fs.Ip → ℕ → ℕ → Option (List UInt8) → Prop}
  {EF : Fs.Fault → Prop} {s : State} {d sz : ℕ} {g : ℕ → UInt8}

/-- A page directory from `setupkvm`. -/
theorem built_setupkvm {m : Mem} (hspace : Space im used m d)
    (hnone : ∀ w < NUSER, m.userPage d w = none)
    (hmap : KernelMap im m d) : Built im used m d 0 fun _ => 0 := by
  have hpage : ∀ v < NPAGES, v * PGSIZE < 2 ^ 32 ∧ v * PGSIZE / PGSIZE = v := fun v hv => by
    unfold NPAGES at hv
    unfold PGSIZE
    omega
  have hnpages : npages 0 = 0 := by decide
  refine ⟨⟨hspace, Nat.zero_le _, fun v hv => ?_⟩, fun v hv _ hp => ?_, fun v hv hdev => ?_,
    fun a ha => ?_, fun _ _ => rfl⟩
  · rw [present_iff_userPage, hnone v hv, hnpages]
    simp
  · obtain ⟨hlt, hdiv⟩ := hpage v hv
    obtain ⟨-, hflags⟩ := hmap.exact hlt
    rw [Mem.translate, hdiv, if_pos hp] at hflags
    exact (hflags (Option.some_ne_none _)).2
  · obtain ⟨hlt, hdiv⟩ := hpage v hv
    obtain ⟨htr, -⟩ := hmap.exact hlt
    have hlo : DEVSPACE ≤ v * PGSIZE := by
      unfold DEVSPACE PGSIZE at *
      omega
    rw [if_neg fun hc => absurd hc.2 (by unfold KERNBASE PHYSTOP DEVSPACE at *; omega), if_pos hlo,
      Mem.translate, hdiv] at htr
    by_contra hp
    rw [if_neg hp] at htr
    cases htr
  · rw [hnpages, Nat.zero_mul] at ha
    exact absurd ha (Nat.not_lt_zero a)

/-- The part of `exec` that works on the locked inode. -/
theorem loadImage_spec {ip : Fs.Ip} (hread : Reads e ip (J ip) (R ip) EF)
    (hall : AllFree im used s.mem) (hJ : J ip s.kern) :
    Wp (loadImage e im ip) s
      (fun r t => Rest (J ip) used s t ∧ match r with
        | none => AllFree im used t.mem
        | some (d, sz, entry) => ∃ elf segs, Program (R ip) elf segs ∧ entry = Fs.field elf 24 4 ∧
            sz = sizeAll 0 segs ∧ Built im used t.mem d sz (placeAll (fun _ => 0) segs))
      (FsFault EF) := by
  unfold loadImage
  refine (readStruct_spec hread hJ 0 (by decide)).bind fun r t ⟨hmem, hproc, hkern, hr⟩ => ?_
  have hrest : Rest (J ip) used s t := ⟨hproc, fun f _ => by rw [hmem], hkern⟩
  rw [← hmem] at hall
  cases r with
  | none => exact ⟨hrest, hall⟩
  | some elf =>
    obtain ⟨hR, hlen⟩ := hr elf rfl
    dsimp only
    by_cases hmagic : Fs.field elf 0 4 = Fs.ELF_MAGIC
    swap
    · rw [if_pos hmagic]
      exact ⟨hrest, hall⟩
    rw [if_neg (not_not_intro hmagic), Wp.bind_iff, onMem_iff]
    refine hall.setupkvm_spec.mono (fun r m ⟨hpage, hr⟩ => ?_) fun _ => False.elim
    have hrest' : Rest (J ip) used s { t with mem := m } := hrest.trans ⟨rfl, hpage, hkern⟩
    cases r with
    | none => exact ⟨hrest', hr.1⟩
    | some d =>
      obtain ⟨hspace, hnone, hmap⟩ := hr
      refine (loadLoop_spec (s := { t with mem := m }) hread _ (built_setupkvm hspace hnone hmap)
        hkern).bind fun r u ⟨hu, hr⟩ => ?_
      cases r with
      | none =>
        dsimp only
        rw [Wp.bind_iff, onMem_iff]
        refine (show Space im used u.mem d from hr).freevm_spec.mono
          (fun _ m' ⟨hfree, hother⟩ => ?_)
          fun _ => False.elim
        exact ⟨(hrest'.trans hu).trans ⟨rfl, hother, hu.kern⟩, hfree⟩
      | some sz =>
        obtain ⟨segs, hsegs, hsz, hbuilt⟩ := hr
        exact ⟨hrest'.trans hu, elf, segs, ⟨hR, hlen, hmagic, hsegs⟩, rfl, hsz, hbuilt⟩

/-- The transaction of `exec`, when the file system is as `J₀` says outside and as `J ip` says while
the inode is locked. -/
theorem openImage_spec {path : List UInt8} (hread : ∀ ip, Reads e ip (J ip) (R ip) EF)
    (hopen : Wp (openInode e path) s.kern
      (fun r k => match r with | none => J₀ k | some ip => J ip k) EF)
    (hclose : ∀ ip k, J ip k → Wp (closeInode e ip) k (fun _ k' => J₀ k') EF)
    (hall : AllFree im used s.mem) :
    Wp (openImage e im path) s
      (fun r t => Rest J₀ used s t ∧
        (AllFree im used t.mem ∧ r = none ∨ ∃ ip elf segs d, Program (R ip) elf segs ∧
          Built im used t.mem d (sizeAll 0 segs) (placeAll (fun _ => 0) segs) ∧
            r = some (d, sizeAll 0 segs, Fs.field elf 24 4)))
      (FsFault EF) := by
  unfold openImage
  rw [Wp.bind_iff, onKern_iff]
  refine hopen.mono (fun r k hk => ?_) fun f hf => ⟨f, rfl, hf⟩
  cases r with
  | none => exact ⟨⟨rfl, fun _ _ => rfl, hk⟩, .inl ⟨hall, rfl⟩⟩
  | some ip =>
    refine (loadImage_spec (s := { s with kern := k }) (hread ip) hall hk).bind
      fun r t ⟨ht, hr⟩ => ?_
    rw [Wp.bind_iff, onKern_iff]
    refine (hclose ip t.kern ht.kern).mono (fun _ k' hk' => ?_) fun f hf => ⟨f, rfl, hf⟩
    refine ⟨⟨ht.proc, ht.page, hk'⟩, ?_⟩
    cases r with
    | none => exact .inl ⟨hr, rfl⟩
    | some x =>
      obtain ⟨elf, segs, hprog, hentry, hsz, hbuilt⟩ := hr
      refine .inr ⟨ip, elf, segs, x.1, hprog, hsz ▸ hbuilt, ?_⟩
      rw [← hsz, ← hentry]

/-- `clearpteu` on the page below the stack. -/
theorem clearpteu_spec (h : Built im used s.mem d sz g) (halign : sz % PGSIZE = 0)
    (hroom : 2 * PGSIZE ≤ sz) (hzero : ∀ a, sz - 2 * PGSIZE ≤ a → g a = 0) :
    Wp (clearpteu d ((sz + (2 ^ 32 - 2 * PGSIZE)) % 2 ^ 32)) s
      (fun _ t => t.kern = s.kern ∧ t.proc = s.proc ∧ (∀ f ∈ used, t.mem.page f = s.mem.page f) ∧
        Started im used t.mem d sz g)
      fun _ => False := by
  have hle := h.sized.le
  obtain ⟨v, hv⟩ : ∃ v, sz / PGSIZE - 2 = v := ⟨_, rfl⟩
  have haddr : (sz + (2 ^ 32 - 2 * PGSIZE)) % 2 ^ 32 = v * PGSIZE := by
    unfold KERNBASE PGSIZE at *
    omega
  have hvn : v < npages sz := (lt_npages_iff hle).mpr (by unfold PGSIZE at *; omega)
  have hvu := hvn.trans_le (npages_le hle)
  have hp := h.sized.present v hvn
  have htable := present_table hp
  have hentry : s.mem.word (frame (s.mem.word d (v / 1024))) (v % 1024) = s.mem.pte d v :=
    (if_pos htable).symm
  unfold clearpteu
  rw [haddr, Wp.bind_iff, onMem_iff, Wp.of_eq (walkpgdir_page s.mem d (hvu.trans_le NUSER_le)),
    if_pos htable]
  dsimp only
  rw [onMem_iff, Wp.modify_iff, hentry]
  obtain ⟨m, hm⟩ : ∃ m, s.mem.setWord (frame (s.mem.word d (v / 1024))) (v % 1024)
    (s.mem.pte d v &&& (2 ^ 32 - 1 - PTE_U)) = m := ⟨_, rfl⟩
  obtain ⟨hspace, hpresent, huser, hframe, hpte, hpage⟩ := h.space.clear_user hvu hp hm.symm
  rw [hm]
  have hker : ∀ w < NPAGES, NUSER ≤ w → m.pte d w = s.mem.pte d w := fun w hw hk =>
    hpte w hw (by omega)
  -- one bit of one entry has changed
  refine ⟨rfl, rfl, fun f hf => ?_, ⟨hspace, hle, fun w hw => ?_⟩, h.hidden.congr hker,
    fun w hw hdev => ?_, halign, hroom, fun a ha hdiv => ?_, fun a ha hdiv => ?_,
    fun a ha hdiv => ?_, hzero⟩
  · refine hpage f fun i hi hpi => ?_
    rintro rfl
    exact h.space.table_not_mem_others hi hpi hf
  · by_cases hwv : w = v
    · subst hwv
      exact iff_of_true hpresent hvn
    · rw [hpte w (hw.trans_le NUSER_le) hwv]
      exact h.sized.mapped w hw
  · rw [hker w hw ((show NUSER ≤ DEVSPACE / PGSIZE by decide).trans hdev)]
    exact h.devices w hw hdev
  · refine Option.eq_none_iff_forall_ne_some.mpr fun f hf => ?_
    obtain ⟨-, hu, -⟩ := (translate_eq_some_iff ha).mp hf
    rw [hdiv, hv] at hu
    exact hu huser
  · -- the page itself is as it was, and it lies above the program
    have ha' : a < npages sz * PGSIZE := by
      unfold PGSIZE at *
      omega
    have hsame : m.page (frame (s.mem.pte d v)) = s.mem.page (frame (s.mem.pte d v)) :=
      hpage _ fun i hi hpi => h.space.user_ne_table hvu hp hi hpi
    have hbyte := mappedByte_of_userByte ha (h.bytes a ha')
    rw [mappedByte, Mem.userPage, hdiv, hv, if_pos hp, Option.map_some] at hbyte
    rw [mappedByte, Mem.userPage, hdiv, hv, if_pos hpresent, hframe, hsame, Option.map_some, hbyte,
      hzero a (by unfold PGSIZE at *; omega)]
  · -- another page is as it was
    have ha' : a < npages sz * PGSIZE := by
      rw [← PGROUNDUP_eq]
      unfold PGROUNDUP KERNBASE PGSIZE at *
      omega
    obtain ⟨halt, hapage⟩ := addr_lt hle ha'
    have hau := hapage.trans_le (npages_le hle)
    rw [hv] at hdiv
    rw [← h.bytes a ha', userByte_eq halt, userByte_eq halt]
    rw [userPage_congr (hpte _ (page_lt halt) hdiv) fun hpa => hpage _ fun i hi hpi =>
      h.space.user_ne_table hau hpa hi hpi]

/-- The address space that `exec` builds is that of a program, with a page that is not for the user
and the page of the stack above it; or all of it is given back. -/
theorem image_spec {path : List UInt8} (hread : ∀ ip, Reads e ip (J ip) (R ip) EF)
    (hopen : Wp (openInode e path) s.kern
      (fun r k => match r with | none => J₀ k | some ip => J ip k) EF)
    (hclose : ∀ ip k, J ip k → Wp (closeInode e ip) k (fun _ k' => J₀ k') EF)
    (hall : AllFree im used s.mem) :
    Wp (image e im path) s
      (fun r t => Rest J₀ used s t ∧ match r with
        | none => AllFree im used t.mem
        | some (d, sz, entry) => ∃ ip elf segs, Program (R ip) elf segs ∧
            entry = Fs.field elf 24 4 ∧ sz = PGROUNDUP (sizeAll 0 segs) + 2 * PGSIZE ∧
              Started im used t.mem d sz (placeAll (fun _ => 0) segs))
      (FsFault EF) := by
  unfold image
  refine (openImage_spec hread hopen hclose hall).bind fun r t ⟨ht, hr⟩ => ?_
  rcases hr with ⟨hfree, rfl⟩ | ⟨ip, elf, segs, d, hprog, hbuilt, rfl⟩
  · exact ⟨ht, hfree⟩
  · generalize hsz : sizeAll 0 segs = sz at hbuilt ⊢
    have hround := hbuilt.round
    have hle := hround.sized.le
    dsimp only
    generalize hnewsz : PGROUNDUP sz + 2 * PGSIZE = newsz
    have hwrap : newsz % 2 ^ 32 = newsz := by
      unfold KERNBASE at hle
      unfold PGSIZE at hnewsz
      omega
    have halign : newsz % PGSIZE = 0 := by
      rw [← hnewsz]
      unfold PGROUNDUP PGSIZE
      omega
    rw [Wp.bind_iff, onMem_iff, hwrap]
    refine (hround.allocuvm_spec newsz).mono (fun r m hr => ?_) fun _ => False.elim
    obtain ⟨hpage, hr⟩ := hr
    have hspace : Space im used m d := hr.elim (·.2.1) fun hb => hb.2.2.space
    by_cases hzero : r = 0
    · rw [if_pos hzero, Wp.bind_iff, onMem_iff]
      refine hspace.freevm_spec.mono (fun _ m' ⟨hfree, hother⟩ => ?_) fun _ => False.elim
      exact ⟨ht.trans ⟨rfl, fun f hf => (hother f hf).trans (hpage f hf), ht.kern⟩, hfree⟩
    rw [if_neg hzero]
    obtain ⟨hmax, -, hnew⟩ := hr.resolve_left fun hc => hzero hc.1
    obtain rfl : r = newsz := hmax.trans (Nat.max_eq_right (hnewsz ▸ Nat.le_add_right ..))
    refine Wp.bind (Q := fun _ u => Rest J₀ used s u ∧ Started im used u.mem d r
      (placeAll (fun _ => 0) segs)) ?_ fun _ u ⟨hu, hstarted⟩ =>
        ⟨hu, ip, elf, segs, hprog, rfl, by rw [hsz, hnewsz], hstarted⟩
    refine (clearpteu_spec (s := { t with mem := m }) hnew halign (hnewsz ▸ Nat.le_add_left ..)
      fun a ha => ?_).mono (fun _ u ⟨hkern, hproc, hother, hstarted⟩ => ⟨?_, hstarted⟩)
        fun _ => False.elim
    · rw [← hnewsz, Nat.add_sub_cancel, PGROUNDUP_eq] at ha
      exact hbuilt.zero a ha
    · exact ht.trans ⟨hproc, fun f hf => (hother f hf).trans (hpage f hf), hkern.symm ▸ ht.kern⟩

end Image

end Xv6.Exec
