import Xv6.Exec.Load
import Xv6.Lib.Segments

/-!
# The arguments on the stack

`exec` pushes the argument strings onto the page of the stack of the new program, below them the
array of pointers to them, and below that the frame of `main`. A push that would leave the page runs
into the page below it, which is not for the user, and then `copyout` fails: so that a push that
succeeds is a change of this one page.
-/

namespace Xv6.Exec

open Lib Vm

/-! ### One push -/

/-- A push that does not meet the page below the stack stays in the page of the stack. -/
theorem push_inside {base sp n : ℕ} (halign : base % PGSIZE = 0) (hlo : PGSIZE ≤ base)
    (hhi : base + PGSIZE ≤ KERNBASE) (hsp : base ≤ sp) (hsp' : sp ≤ base + PGSIZE) (hn : 0 < n)
    (hguard : ∀ x < n, (pushed sp n + x) % 2 ^ 32 / PGSIZE ≠ base / PGSIZE - 1) :
    base ≤ pushed sp n ∧ pushed sp n + n ≤ sp := by
  by_contra hcon
  have hx := hguard ((base + (2 ^ 32 - 4) - pushed sp n) % 2 ^ 32)
  unfold pushed KERNBASE PGSIZE at *
  omega

section Stack

variable {im : Image} {used : Set ℕ} {m : Mem} {d sz f sp : ℕ} {g : ℕ → UInt8} {b : Bytes PGSIZE}

/-- The page of the stack has a frame of its own. -/
theorem Started.stack (h : Started im used m d sz g) :
    ∃ f, Vm.translate m d (sz - PGSIZE) = some f := by
  have hroom := h.room
  have hlt : sz - PGSIZE < sz := Nat.sub_lt (by unfold PGSIZE at hroom; omega) (by decide)
  have hdiv : (sz - PGSIZE) / PGSIZE ≠ sz / PGSIZE - 2 := by
    unfold PGSIZE at *
    omega
  obtain ⟨f, hf, -⟩ := Option.map_eq_some_iff.mp (h.bytes _ hlt hdiv)
  exact ⟨f, hf⟩

/-- With other bytes in the page of the stack, an address space is as before otherwise. -/
theorem Started.setStack (h : Started im used m d sz g)
    (hf : Vm.translate m d (sz - PGSIZE) = some f) (b : Bytes PGSIZE) :
    Space im used (m.setPage f b) d ∧ KernelHidden (m.setPage f b) d ∧
      (∀ w < NPAGES, (m.setPage f b).pte d w = m.pte d w) ∧
      ∀ g ∈ insert d used, (m.setPage f b).page g = m.page g := by
  have hroom := h.room
  have hle := h.sized.le
  have hlt : sz - PGSIZE < 2 ^ 32 := by
    unfold KERNBASE at hle
    omega
  have hvu := h.hidden.user hlt hf
  obtain ⟨hp, -, rfl⟩ := (translate_eq_some_iff hlt).mp hf
  obtain ⟨hspace, hpte, hother⟩ := h.sized.space.setPage_user hvu hp b
  exact ⟨hspace, h.hidden.congr fun v hv _ => hpte v hv, hpte, hother⟩

/-- What a process reads, with the bytes `b` in the page of the stack. -/
theorem Started.userByte_setStack {a : ℕ} (h : Started im used m d sz g)
    (hf : Vm.translate m d (sz - PGSIZE) = some f) (b : Bytes PGSIZE) (ha : a < sz) :
    userByte (m.setPage f b) d a =
      if sz - PGSIZE ≤ a then some (b.get (a - (sz - PGSIZE))) else userByte m d a := by
  have hroom := h.room
  have halign := h.align
  have hle := h.sized.le
  obtain ⟨v, hv⟩ : ∃ v, sz - PGSIZE = v * PGSIZE := ⟨(sz - PGSIZE) / PGSIZE, by
    unfold PGSIZE at *
    omega⟩
  have hvu : v < NUSER := by
    unfold NUSER KERNBASE PGSIZE at *
    omega
  have halt : a < 2 ^ 32 := by
    unfold KERNBASE at hle
    omega
  rw [h.sized.space.userByte_setPage h.hidden hvu (hv ▸ hf) b halt]
  by_cases hin : sz - PGSIZE ≤ a
  · have hmod : a % PGSIZE = a - (sz - PGSIZE) := by
      unfold PGSIZE at *
      omega
    rw [if_pos hin, if_pos (by unfold PGSIZE at *; omega), hmod]
  · rw [if_neg hin, if_neg (by unfold PGSIZE at *; omega)]

/-- A push of some bytes is a change of the page of the stack, or it fails since they do not fit
there. Only more than 32 megabytes reach down to addresses that have no page table. -/
theorem Started.push_spec (h : Started im used m d sz g)
    (hf : Vm.translate m d (sz - PGSIZE) = some f) (b : Bytes PGSIZE) (hlo : sz - PGSIZE ≤ sp)
    (hhi : sp ≤ sz) {l : List UInt8} (hl : 0 < l.length) :
    Wp (copyout d (pushed sp l.length) (buffer l) l.length) (m.setPage f b)
      (fun r t =>
        r = 0 ∧ sz - PGSIZE ≤ pushed sp l.length ∧ pushed sp l.length + l.length ≤ sp ∧
            t = m.setPage f (b.splice (pushed sp l.length - (sz - PGSIZE)) l) ∨
          r = -1 ∧ Space im used t d ∧ (∀ g ∈ used, t.page g = m.page g) ∧
            sp < sz - PGSIZE + l.length)
      fun e => e = .nullPte ∧ 2 ^ 25 < l.length := by
  have hroom := h.room
  have halign := h.align
  have hle := h.sized.le
  obtain ⟨hspace, hhidden, hpte, hother⟩ := h.setStack hf b
  have htr : ∀ a < 2 ^ 32, Vm.translate (m.setPage f b) d a = Vm.translate m d a := fun a ha =>
    translate_congr_pte ha (hpte _ (page_lt ha))
  have hp : pushed sp l.length < 2 ^ 32 := by
    unfold pushed
    omega
  have hbase : (sz - PGSIZE) % PGSIZE = 0 := by
    unfold PGSIZE at *
    omega
  -- the copy, if the bytes lie in the page
  have hcopy : sz - PGSIZE ≤ pushed sp l.length → pushed sp l.length + l.length ≤ sp →
      copyout d (pushed sp l.length) (buffer l) l.length (m.setPage f b) =
        .ok (0, m.setPage f (b.splice (pushed sp l.length - (sz - PGSIZE)) l)) := fun hin hend => by
    have hmod : pushed sp l.length % PGSIZE = pushed sp l.length - (sz - PGSIZE) := by
      unfold PGSIZE at *
      omega
    have hframe : Vm.translate (m.setPage f b) d (pushed sp l.length) = some f := by
      rw [htr _ hp, ← hf]
      refine translate_congr ?_
      unfold PGSIZE at *
      omega
    have htwice : ∀ b', (m.setPage f b).setPage f b' = m.setPage f b' := fun b' =>
      congrArg (Mem.mk · m.free) (Function.update_idem ..)
    refine (copyout_page hp hl (by rw [hmod]; omega) hframe).trans ?_
    rw [Mem.page_setPage_self, hmod, htwice]
  refine (hspace.copyout_spec hhidden hp (buffer l) l.length).run.mono ?_ ?_
  · rintro r t ⟨⟨ht, -, hkept, hr⟩, hrun⟩
    rcases hr with ⟨rfl, hall⟩ | rfl
    swap
    · refine .inr ⟨rfl, ht, fun g hg => (hkept g (Set.mem_insert_of_mem d hg)).trans
        (hother g (Set.mem_insert_of_mem d hg)), Nat.lt_of_not_le fun hroom => ?_⟩
      have hok := hcopy (by unfold pushed KERNBASE PGSIZE at *; omega)
        (by unfold pushed KERNBASE PGSIZE at *; omega)
      rw [hrun] at hok
      cases hok
    -- no byte of the range is in the page below
    have hin := push_inside hbase (by omega) (by omega) hlo (by omega) hl fun x hx hpage => by
        have ha : (pushed sp l.length + x) % 2 ^ 32 < 2 ^ 32 := Nat.mod_lt _ (by decide)
        obtain ⟨g, hg⟩ := hall x hx
        rw [htr _ ha, h.guard _ ha (by rw [hpage]; unfold PGSIZE at *; omega)] at hg
        cases hg
    have hok := hcopy hin.1 hin.2
    rw [hrun] at hok
    exact .inl ⟨rfl, hin.1, hin.2, congrArg Prod.snd (Except.ok.inj hok)⟩
  · rintro x ⟨rfl, y, hy, hno, hbefore⟩
    refine ⟨rfl, Nat.lt_of_not_le fun hsmall => hno ?_⟩
    have ha : (pushed sp l.length + y) % 2 ^ 32 < 2 ^ 32 := Nat.mod_lt _ (by decide)
    have hpresent : Present (m.pte d ((pushed sp l.length + y) % 2 ^ 32 / PGSIZE)) := by
      rcases Nat.lt_or_ge sp l.length with hwrap | hle'
      · -- the address is one of a device, and the copy ends at once
        have hdev : DEVSPACE / PGSIZE ≤ pushed sp l.length / PGSIZE := by
          unfold pushed DEVSPACE PGSIZE at *
          omega
        cases y with
        | zero =>
          rw [Nat.add_zero, Nat.mod_eq_of_lt hp]
          exact h.devices _ (page_lt hp) hdev
        | succ y =>
          obtain ⟨g, hg⟩ := hbefore 0 (Nat.succ_pos y)
          rw [Nat.add_zero, Nat.mod_eq_of_lt hp] at hg
          have huser := hhidden.user hp hg
          unfold NUSER KERNBASE DEVSPACE PGSIZE at *
          omega
      · -- the address is one of the process
        have haddr : (pushed sp l.length + y) % 2 ^ 32 < sz := by
          unfold pushed KERNBASE at *
          omega
        have hv := (lt_npages_iff (v := (pushed sp l.length + y) % 2 ^ 32 / PGSIZE) hle).mpr
          ((Nat.div_mul_le_self ..).trans_lt haddr)
        exact h.sized.present _ hv
    rw [← hpte _ (page_lt ha)] at hpresent
    exact (hasTable_iff ha).mpr (present_table hpresent)

end Stack

/-! ### The strings -/

/-- The segment of a string at an address. -/
def segment (p : ℕ) (a : List UInt8) : ℕ × ℕ := (p, a.length + 1)

/-- The strings `argv` were pushed onto the page `b` from `sp` on down to `sp'`; that made it `b'`.
The page begins at `base`. -/
structure Pushed (base sp : ℕ) (b : Bytes PGSIZE) (argv : List (List UInt8)) (sp' : ℕ)
    (ptrs : List ℕ) (b' : Bytes PGSIZE) : Prop where
  lo : base ≤ sp'
  le : sp' ≤ sp
  align : sp' % 4 = 0
  rest : ∀ i, i < sp' - base ∨ sp - base ≤ i → b'.get i = b.get i
  strings : List.Forall₂ (fun p a => sp' ≤ p ∧ p + (a.length + 1) ≤ sp ∧
    ∀ i < a.length + 1, b'.get (p - base + i) = (a ++ [0]).getD i 0) ptrs argv
  apart : (List.zipWith segment ptrs argv).Pairwise Apart

namespace Pushed

variable {base sp sp' p : ℕ} {b b' : Bytes PGSIZE} {a : List UInt8} {argv : List (List UInt8)}
  {ptrs : List ℕ}

theorem nil (hlo : base ≤ sp) (halign : sp % 4 = 0) (b : Bytes PGSIZE) :
    Pushed base sp b [] sp [] b :=
  ⟨hlo, le_rfl, halign, fun _ _ => rfl, .nil, .nil⟩

/-- The strings lie between the stack pointers. -/
theorem segment_mem (h : Pushed base sp b argv sp' ptrs b') {x : ℕ × ℕ}
    (hx : x ∈ List.zipWith segment ptrs argv) : sp' ≤ x.1 ∧ x.1 + x.2 ≤ sp := by
  have hall : (List.zipWith segment ptrs argv).Forall fun x => sp' ≤ x.1 ∧ x.1 + x.2 ≤ sp :=
    (List.forall_zipWith h.strings.length_eq).mpr (h.strings.imp fun p a hp => ⟨hp.1, hp.2.1⟩)
  exact List.forall_iff_forall_mem.mp hall x hx

/-- One string before the others. -/
theorem cons (hp : base ≤ p) (hle : p + (a.length + 1) ≤ sp) (hsp : sp ≤ base + PGSIZE)
    (h : Pushed base p (b.splice (p - base) (a ++ [0])) argv sp' ptrs b') :
    Pushed base sp b (a :: argv) sp' (p :: ptrs) b' := by
  have hlen : (a ++ [0]).length = a.length + 1 := by simp
  have hlo := h.lo
  have hle' := h.le
  refine ⟨h.lo, by omega, h.align, fun i hi => ?_, .cons ⟨hle', hle, fun i hi => ?_⟩ ?_, ?_⟩
  · rw [h.rest i (by omega), Bytes.get_splice_of_disjoint _ _ _ (by omega)]
  · rw [h.rest _ (by omega), Bytes.get_splice _ _ _ (by omega), if_pos (by omega),
      Nat.add_sub_cancel_left]
  · exact h.strings.imp fun q c hq => ⟨hq.1, by omega, hq.2.2⟩
  · refine List.pairwise_cons.mpr ⟨fun x hx => ?_, h.apart⟩
    obtain ⟨-, hx'⟩ := h.segment_mem hx
    rintro y ⟨hy, -, -, hy'⟩
    change p ≤ y at hy
    omega

end Pushed

section Pushes

variable {im : Image} {used : Set ℕ} {m : Mem} {d sz f sp : ℕ} {g : ℕ → UInt8} {b : Bytes PGSIZE}
  {s : State}

/-- The bytes of the stack that strings take, each rounded up to words. -/
def stringsRoom (argv : List (List UInt8)) : ℕ :=
  (argv.map fun a => (a.length + 1 + 3) / 4 * 4).sum

theorem stringsRoom_cons (a : List UInt8) (argv : List (List UInt8)) :
    stringsRoom (a :: argv) = (a.length + 1 + 3) / 4 * 4 + stringsRoom argv := List.sum_cons ..

/-- The arguments fit: there are not too many, and they and the array `ustack` fit into a page. -/
def ArgsFit (argv : List (List UInt8)) : Prop :=
  argv.length ≤ MAXARG ∧ stringsRoom argv + 4 * (argv.length + 4) ≤ PGSIZE

instance (argv : List (List UInt8)) : Decidable (ArgsFit argv) :=
  inferInstanceAs (Decidable (_ ∧ _))

theorem pushed_mod (sp n : ℕ) : pushed sp n % 4 = 0 := Nat.mul_mod_left ..

/-- The loop over the arguments. -/
theorem Started.pushArgs_spec (h : Started im used m d sz g)
    (hf : Vm.translate m d (sz - PGSIZE) = some f) (argv : List (List UInt8)) {argc : ℕ}
    (hargc : argc ≤ MAXARG) (hmem : s.mem = m.setPage f b) (hlo : sz - PGSIZE ≤ sp) (hhi : sp ≤ sz)
    (halign : sp % 4 = 0) :
    Wp (pushArgs d argc sp argv) s
      (fun r t => t.kern = s.kern ∧ t.proc = s.proc ∧ match r with
        | none => Space im used t.mem d ∧ (∀ g ∈ used, t.mem.page g = m.page g) ∧
            ¬ (argc + argv.length ≤ MAXARG ∧ sz - PGSIZE + stringsRoom argv ≤ sp)
        | some (sp', ptrs) => argc + argv.length ≤ MAXARG ∧ sp' + stringsRoom argv = sp ∧
            ∃ b', t.mem = m.setPage f b' ∧ Pushed (sz - PGSIZE) sp b argv sp' ptrs b')
      fun e => e = .vm .nullPte ∧ ∃ a ∈ argv, 2 ^ 25 ≤ a.length := by
  induction argv generalizing argc sp b s with
  | nil => exact ⟨rfl, rfl, hargc, rfl, b, hmem, .nil hlo halign b⟩
  | cons a argv ih =>
    unfold pushArgs
    -- `argc >= MAXARG` is tested before the string is copied
    by_cases hmax : MAXARG ≤ argc
    · rw [if_pos hmax]
      obtain ⟨hspace, -, -, hother⟩ := h.setStack hf b
      refine ⟨rfl, rfl, hmem ▸ hspace, fun g hg => hmem ▸ hother g (Set.mem_insert_of_mem d hg),
        fun hfit => ?_⟩
      have := hfit.1
      rw [List.length_cons] at this
      omega
    have hle := h.sized.le
    have hlen : (a ++ [0]).length = a.length + 1 := by simp
    have hpush := h.push_spec hf b hlo hhi (l := a ++ [0]) (by omega)
    rw [hlen] at hpush
    rw [if_neg hmax, Wp.bind_iff, onMem_iff, hmem]
    refine hpush.mono (fun r t hr => ?_) fun x ⟨hx, hbig⟩ => ?_
    swap
    · exact ⟨hx ▸ rfl, a, List.mem_cons_self, by omega⟩
    rcases hr with ⟨rfl, hin, hend, rfl⟩ | ⟨rfl, hspace, hother, hshort⟩
    swap
    · refine ⟨rfl, rfl, hspace, hother, fun hfit => ?_⟩
      have hroom := hfit.2
      rw [stringsRoom_cons] at hroom
      omega
    have hsp : pushed sp (a.length + 1) + (a.length + 1 + 3) / 4 * 4 = sp := by
      unfold pushed KERNBASE at *
      omega
    rw [if_neg (by decide)]
    refine Wp.bind ((ih (show argc + 1 ≤ MAXARG by omega) rfl hin (by omega) (pushed_mod ..)).mono
      (fun r t hr => hr) fun x ⟨hx, c, hc, hbig⟩ => ⟨hx, c, List.mem_cons_of_mem a hc, hbig⟩)
      fun r t ⟨hkern, hproc, hr⟩ => ?_
    cases r with
    | none =>
      obtain ⟨hspace, hother, hfit⟩ := hr
      refine ⟨hkern, hproc, hspace, hother, fun hc => hfit ?_⟩
      rw [List.length_cons, stringsRoom_cons] at hc
      omega
    | some x =>
      obtain ⟨hcount, hroom, b', hmem', hpushed⟩ := hr
      refine ⟨hkern, hproc, ?_, ?_, b', hmem', hpushed.cons hin hend (by omega)⟩
      · rw [List.length_cons]
        omega
      · rw [stringsRoom_cons]
        omega

theorem ustack_length (sp : ℕ) (ptrs : List ℕ) : (ustack sp ptrs).length = ptrs.length + 4 := by
  simp [ustack]

theorem words_length (ws : List ℕ) : (ws.flatMap (leBytes 4)).length = 4 * ws.length := by
  induction ws with
  | nil => rfl
  | cons w ws ih =>
    rw [List.flatMap_cons, List.length_append, ih, leBytes_length, List.length_cons]
    omega

/-- The stack of the new program: the strings, and below them the array `ustack`. -/
theorem Started.pushStack_spec (h : Started im used m d sz g)
    (hf : Vm.translate m d (sz - PGSIZE) = some f) (argv : List (List UInt8))
    (hmem : s.mem = m.setPage f b) :
    Wp (pushStack d sz argv) s
      (fun r t => t.kern = s.kern ∧ t.proc = s.proc ∧ match r with
        | none => Space im used t.mem d ∧ (∀ g ∈ used, t.mem.page g = m.page g) ∧ ¬ ArgsFit argv
        | some esp => ∃ sp ptrs b', Pushed (sz - PGSIZE) sz b argv sp ptrs b' ∧
            ptrs.length ≤ MAXARG ∧ sz - PGSIZE ≤ esp ∧ esp + 4 * (ptrs.length + 4) = sp ∧
              t.mem = m.setPage f
                (b'.splice (esp - (sz - PGSIZE)) ((ustack sp ptrs).flatMap (leBytes 4))))
      fun e => e = .vm .nullPte ∧ ∃ a ∈ argv, 2 ^ 25 ≤ a.length := by
  have halign : sz % 4 = 0 := by
    have := h.align
    unfold PGSIZE at this
    omega
  unfold pushStack
  refine (h.pushArgs_spec hf argv (Nat.zero_le _) hmem (Nat.sub_le ..) le_rfl halign).bind
    fun r t ⟨hkern, hproc, hr⟩ => ?_
  have hroom := h.room
  cases r with
  | none =>
    obtain ⟨hspace, hother, hfit⟩ := hr
    refine ⟨hkern, hproc, hspace, hother, fun hc => hfit ?_⟩
    unfold ArgsFit at hc
    omega
  | some x =>
    obtain ⟨sp, ptrs⟩ := x
    obtain ⟨hcount, hstrings, b', hmem', hpushed⟩ := hr
    have hlength := hpushed.strings.length_eq
    have hlo := hpushed.lo
    have hsp := hpushed.align
    have hle := h.sized.le
    have hwords : ((ustack sp ptrs).flatMap (leBytes 4)).length = (3 + ptrs.length + 1) * 4 := by
      rw [words_length, ustack_length]
      omega
    have hmax : ptrs.length ≤ 32 := by
      unfold MAXARG at hcount
      omega
    have hesp : (sp + (2 ^ 32 - (3 + ptrs.length + 1) * 4)) % 2 ^ 32 =
        pushed sp ((3 + ptrs.length + 1) * 4) := by
      unfold pushed
      omega
    have hpush := h.push_spec hf b' hlo hpushed.le (l := (ustack sp ptrs).flatMap (leBytes 4))
      (by omega)
    rw [hwords] at hpush
    dsimp only
    rw [Wp.bind_iff, onMem_iff, hmem', hesp]
    refine hpush.mono (fun r u hr => ?_) fun x ⟨_, hbig⟩ => absurd hbig (by omega)
    rcases hr with ⟨rfl, hin, hend, rfl⟩ | ⟨rfl, hspace, hother, hshort⟩
    swap
    · refine ⟨hkern, hproc, hspace, hother, fun hc => ?_⟩
      unfold ArgsFit at hc
      omega
    refine ⟨hkern, hproc, sp, ptrs, b', hpushed, hmax, hin, ?_, rfl⟩
    have hle' := hpushed.le
    unfold pushed at hend ⊢
    unfold KERNBASE at hle
    omega

end Pushes

/-! ### The whole call -/

/-- What `exec` does when it returns 0: `u` is the state in which the address space of the program
is ready, and `t` the state at the end. -/
structure Executed (im : Image) (used : Set ℕ) (argv : List (List UInt8))
    (u t : State) (g : ℕ → UInt8)
    (f sp : ℕ) (ptrs : List ℕ) (b' : Bytes PGSIZE) : Prop where
  started : Started im used u.mem t.proc.pgdir t.proc.sz g
  stack : Vm.translate u.mem t.proc.pgdir (t.proc.sz - PGSIZE) = some f
  pushed : Pushed (t.proc.sz - PGSIZE) t.proc.sz (u.mem.page f) argv sp ptrs b'
  count : ptrs.length ≤ MAXARG
  lo : t.proc.sz - PGSIZE ≤ t.proc.esp
  esp : t.proc.esp + 4 * (ptrs.length + 4) = sp
  pages : ∀ v < NUSER, t.mem.userPage t.proc.pgdir v =
    (u.mem.setPage f (b'.splice (t.proc.esp - (t.proc.sz - PGSIZE))
      ((ustack sp ptrs).flatMap (leBytes 4)))).userPage t.proc.pgdir v

section Exec

variable {e : Fs.Env} {im : Image} {others : Set ℕ} {K : Fs.Kern → Prop}
  {J : Fs.Ip → Fs.Kern → Prop} {R : Fs.Ip → ℕ → ℕ → Option (List UInt8) → Prop}
  {E : Fs.Fault → Prop} {s : State}

/-- `exec` replaces the address space of the process by that of a program with its arguments, or
leaves everything as it was. It fails where the address space cannot be built, or where the
arguments do not fit. -/
theorem exec_spec {path : List UInt8} (argv : List (List UInt8))
    (hread : ∀ ip, Reads e ip (J ip) (R ip) E)
    (hopen : Wp (openInode e path) s.kern
      (fun r k => match r with | none => K k | some ip => J ip k) E)
    (hclose : ∀ ip k, J ip k → Wp (closeInode e ip) k (fun _ k' => K k') E)
    (h : Space im others s.mem s.proc.pgdir) :
    Wp (exec e im path argv) s
      (fun r t =>
        r = -1 ∧ Rest K (others ∪ frames s.mem s.proc.pgdir) s t ∧
            AllFree im (others ∪ frames s.mem s.proc.pgdir) t.mem ∧
              ((∃ u, image e im path s = .ok (none, u)) ∨ ¬ ArgsFit argv) ∨
          r = 0 ∧ K t.kern ∧ (∀ f ∈ others, t.mem.page f = s.mem.page f) ∧
            ∃ u ip elf segs f sp ptrs b',
              image e im path s = .ok (some (t.proc.pgdir, t.proc.sz, t.proc.eip), u) ∧
                Program (R ip) elf segs ∧ t.proc.eip = Fs.field elf 24 4 ∧
                  t.proc.sz = PGROUNDUP (sizeAll 0 segs) + 2 * PGSIZE ∧
                    Executed im (others ∪ frames s.mem s.proc.pgdir) argv u t
                      (placeAll (fun _ => 0) segs) f sp ptrs b')
      fun x => FsFault E x ∨ x = .vm .nullPte ∧ ∃ a ∈ argv, 2 ^ 25 ≤ a.length := by
  unfold exec
  refine Wp.bind ((image_spec hread hopen hclose h.allFree).run.mono (fun _ _ hu => hu)
    fun _ => .inl) fun r u hu => ?_
  obtain ⟨⟨hrest, hr⟩, hrun⟩ := hu
  cases r with
  | none => exact .inl ⟨rfl, hrest, hr, .inl ⟨u, hrun⟩⟩
  | some x =>
    obtain ⟨d, sz, entry⟩ := x
    obtain ⟨ip, elf, segs, hprog, hentry, hsz, hstarted⟩ := hr
    obtain ⟨f, hf⟩ := hstarted.stack
    have hmem : u.mem = u.mem.setPage f (u.mem.page f) := by
      rw [Mem.setPage, Function.update_eq_self]
    refine Wp.bind ((hstarted.pushStack_spec hf argv hmem).mono (fun _ _ hv => hv) fun _ => .inr)
      fun r v hv => ?_
    obtain ⟨hkern, hproc, hr⟩ := hv
    cases r with
    | none =>
      obtain ⟨hspace, hother, hfit⟩ := hr
      dsimp only
      rw [Wp.bind_iff, onMem_iff]
      refine hspace.freevm_spec.mono ?_ fun _ => False.elim
      rintro - m ⟨hfree, hother'⟩
      refine .inl ⟨rfl, hrest.trans ⟨hproc, fun g hg => ?_, hkern.symm ▸ hrest.kern⟩, hfree,
        .inr hfit⟩
      exact (hother' g hg).trans (hother g hg)
    | some esp =>
      obtain ⟨sp, ptrs, b', hpushed, hcount, hlo, hesp, hmem'⟩ := hr
      obtain ⟨hspace, -, -, hother⟩ := hstarted.setStack hf
        (b'.splice (esp - (sz - PGSIZE)) ((ustack sp ptrs).flatMap (leBytes 4)))
      rw [← hmem'] at hspace hother
      have hpage : ∀ g ∈ others ∪ frames s.mem s.proc.pgdir, v.mem.page g = s.mem.page g :=
        fun g hg => (hother g (Set.mem_insert_of_mem d hg)).trans (hrest.page g hg)
      have hold := h.beside hspace hpage
      dsimp only
      rw [Wp.bind_iff, Wp.get_iff, Wp.bind_iff, Wp.modify_iff, Wp.bind_iff, onMem_iff, hproc,
        hrest.proc]
      refine hold.freevm_spec.mono ?_ fun _ => False.elim
      rintro - m ⟨hfree, hother'⟩
      have hframes : ∀ g ∈ frames v.mem d, m.page g = v.mem.page g := fun g hg =>
        hother' g (.inr hg)
      refine .inr ⟨rfl, hkern.symm ▸ hrest.kern, fun g hg => ?_, u, ip, elf, segs, f, sp, ptrs, b',
        hrun, hprog, hentry, hsz, hstarted, hf, hpushed, hcount, hlo, hesp, fun w hw => ?_⟩
      · exact (hother' g (.inl hg)).trans (hpage g (.inl hg))
      · rw [← hmem']
        exact userPage_congr (hspace.pte_kept hframes (hw.trans_le NUSER_le)) fun hp =>
          hframes _ (hspace.user_mem_frames hw hp)

end Exec

/-! ### What the new program finds -/

/-- The stack that `main` expects at `esp`, in the page of the stack of a process of size `sz`. -/
structure ArgumentsAt (m : Mem) (d sz esp : ℕ) (argv : List (List UInt8))
    (ptrs : List ℕ) : Prop where
  align : esp % 4 = 0
  count : userWord m d (esp + 4) = some argv.length
  array : userWord m d (esp + 8) = some (esp + 12)
  length : ptrs.length = argv.length
  pointer : ∀ i (h : i < ptrs.length), userWord m d (esp + 12 + 4 * i) = some ptrs[i]
  null : userWord m d (esp + 12 + 4 * argv.length) = some 0
  strings : List.Forall₂ (StringAt m d) ptrs argv
  /-- The frame of `main`, the array of pointers and the strings do not overlap. -/
  apart : ((esp, 12) :: (esp + 12, 4 * (argv.length + 1)) ::
    List.zipWith segment ptrs argv).Pairwise Apart
  /-- All of them lie in the page of the stack. -/
  inside : ∀ x ∈ (esp, 12) :: (esp + 12, 4 * (argv.length + 1)) :: List.zipWith segment ptrs argv,
    sz - PGSIZE ≤ x.1 ∧ x.1 + x.2 ≤ sz

/-- The page of the stack after the pushes. -/
theorem Pushed.argumentsAt {m : Mem} {d sz sp esp : ℕ} {b b' : Bytes PGSIZE}
    {argv : List (List UInt8)} {ptrs : List ℕ}
    (h : Pushed (sz - PGSIZE) sz b argv sp ptrs b') (hsz : sz ≤ KERNBASE) (hroom : PGSIZE ≤ sz)
    (hcount : ptrs.length ≤ MAXARG) (hlo : sz - PGSIZE ≤ esp)
    (hesp : esp + 4 * (ptrs.length + 4) = sp) (hnul : ∀ a ∈ argv, 0 ∉ a)
    (hread : ∀ a, sz - PGSIZE ≤ a → a < sz → userByte m d a =
      some ((b'.splice (esp - (sz - PGSIZE)) ((ustack sp ptrs).flatMap (leBytes 4))).get
        (a - (sz - PGSIZE)))) :
    ArgumentsAt m d sz esp argv ptrs := by
  have hlength := h.strings.length_eq
  have hle := h.le
  have hwords : ((ustack sp ptrs).flatMap (leBytes 4)).length = 4 * (ptrs.length + 4) := by
    rw [words_length, ustack_length]
  have hbytes : BytesAt m d esp ((ustack sp ptrs).flatMap (leBytes 4)) := by
    intro i hi
    rw [hread _ (by omega) (by omega), Bytes.get_splice _ _ _ (by omega), if_pos (by omega),
      show esp + i - (sz - PGSIZE) - (esp - (sz - PGSIZE)) = i by omega]
  have hword : ∀ j (hj : j < (ustack sp ptrs).length), userWord m d (esp + 4 * j) =
      some ((ustack sp ptrs)[j] % 2 ^ 32) := fun j hj => hbytes.words hj
  unfold KERNBASE at hsz
  unfold MAXARG at hcount
  have hptrs : ∀ x ∈ List.zipWith segment ptrs argv, sp ≤ x.1 ∧ x.1 + x.2 ≤ sz := fun x hx =>
    h.segment_mem hx
  have hstring := (List.forall₂_iff_get.mp h.strings).2
  -- the words of the frame, then the strings, then that all of it lies apart
  refine ⟨?_, ?_, ?_, hlength, fun i hi => ?_, ?_, ?_, ?_, ?_⟩
  · have := h.align
    omega
  · rw [hword 1 (by rw [ustack_length]; omega), ← hlength]
    exact congrArg some (Nat.mod_eq_of_lt (show ptrs.length < 2 ^ 32 by omega))
  · rw [hword 2 (by rw [ustack_length]; omega)]
    refine congrArg some ?_
    change (sp + (2 ^ 32 - (ptrs.length + 1) * 4)) % 2 ^ 32 % 2 ^ 32 = esp + 12
    omega
  · have hi' : i + 3 < (ustack sp ptrs).length := by
      rw [ustack_length]
      omega
    have hget : (ustack sp ptrs)[i + 3] = ptrs[i] := by
      simp [ustack, hi]
    have hlt : ptrs[i] < 2 ^ 32 := by
      have hp : ptrs[i] + _ ≤ sz := (hstring i hi (hlength ▸ hi)).2.1
      omega
    rw [show esp + 12 + 4 * i = esp + 4 * (i + 3) by omega, hword _ hi', hget, Nat.mod_eq_of_lt hlt]
  · have hi' : ptrs.length + 3 < (ustack sp ptrs).length := by
      rw [ustack_length]
      omega
    have hget : (ustack sp ptrs)[ptrs.length + 3] = 0 := by
      simp [ustack]
    rw [← hlength, show esp + 12 + 4 * ptrs.length = esp + 4 * (ptrs.length + 3) by omega,
      hword _ hi', hget, Nat.zero_mod]
  · refine List.forall₂_iff_get.mpr ⟨hlength, fun i hi hi' => ⟨hnul _ (List.get_mem ..), ?_⟩⟩
    obtain ⟨hlo', hhi', hget⟩ := hstring i hi hi'
    intro j hj
    rw [List.length_append, List.length_singleton] at hj
    rw [hread _ (by omega) (by omega), Bytes.get_splice_of_disjoint _ _ _ (by omega), ← hget j hj,
      Nat.sub_add_comm (by omega)]
  · refine List.pairwise_cons.mpr ⟨fun x hx y hy => ?_, List.pairwise_cons.mpr
      ⟨fun x hx y hy => ?_, h.apart⟩⟩
    · rcases List.mem_cons.mp hx with rfl | hx
      · dsimp only at hy
        omega
      · have := hptrs x hx
        dsimp only at hy
        omega
    · have := hptrs x hx
      dsimp only at hy
      omega
  · intro x hx
    simp only [List.mem_cons] at hx
    rcases hx with rfl | rfl | hx
    · dsimp only
      omega
    · dsimp only
      omega
    · have := hptrs x hx
      omega

/-- What the process reads after `exec`. -/
theorem Executed.userByte_eq {im : Image} {used : Set ℕ} {argv : List (List UInt8)} {u t : State}
    {g : ℕ → UInt8} {f sp : ℕ} {ptrs : List ℕ} {b' : Bytes PGSIZE}
    (h : Executed im used argv u t g f sp ptrs b') {a : ℕ} (ha : a < t.proc.sz) :
    userByte t.mem t.proc.pgdir a = if t.proc.sz - PGSIZE ≤ a then
        some ((b'.splice (t.proc.esp - (t.proc.sz - PGSIZE))
          ((ustack sp ptrs).flatMap (leBytes 4))).get (a - (t.proc.sz - PGSIZE)))
      else userByte u.mem t.proc.pgdir a := by
  have hle := h.started.sized.le
  have halt : a < 2 ^ 32 := by
    unfold KERNBASE at hle
    omega
  have hpage : a / PGSIZE < NUSER := by
    unfold NUSER KERNBASE PGSIZE at *
    omega
  rw [← h.started.userByte_setStack h.stack _ ha, Vm.userByte_eq halt, Vm.userByte_eq halt,
    h.pages _ hpage]

end Xv6.Exec
