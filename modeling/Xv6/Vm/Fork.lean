import Xv6.Proc.Schedule
import Xv6.Vm.Growproc

/-!
# Fork

`allocproc` and `fork` on the memory of the processes and on the reference counts that `fork`
takes. Whatever page `kalloc` could not give, what was allocated before it is given back: the
pages of the copy by `copyuvm`, the kernel stack by `fork`.
-/

namespace Xv6.Vm

open Lib Ptable

/-- `sizeof (struct trapframe)`, and the offset of its field `eax`. -/
def TRAPFRAME : ℕ := 76
def TF_EAX : ℕ := 28

/-- `sizeof (struct context)`, and the offset of its field `eip`. -/
def CONTEXT : ℕ := 20
def CONTEXT_EIP : ℕ := 16

/-- Size of the kernel stack of a process. -/
def KSTACKSIZE : ℕ := 4096

/-- The addresses at which a new process starts. -/
structure Text where
  forkret : ℕ
  trapret : ℕ

/-- The fields of `struct proc` that `fork` uses. The kernel stack is a frame, 0 for the null
pointer; the trap frame and the context are a frame and an offset in it. -/
structure Proc where
  sz : ℕ
  pgdir : ℕ
  kstack : ℕ
  state : ProcState
  pid : Int32
  parent : Option Slot
  tf : ℕ × ℕ
  context : ℕ × ℕ
  ofile : Fin NOFILE → Option (Fin NFILE)
  cwd : Fin NINODE
  name : Bytes 16

/-- The memory, the process table, and the reference counts of files and inodes. -/
structure Sys where
  mem : Mem
  proc : Slot → Proc
  nextpid : Int32
  fref : Fin NFILE → ℕ
  iref : Fin NINODE → ℕ

/-- Why `fork` does not come back: memory, or the panic "filedup". -/
inductive ForkFault
  | mem (e : Fault)
  | filedup
  deriving DecidableEq

abbrev ForkM := Prog ForkFault Sys

/-- Run code that works on physical memory. -/
def onMem {α : Type} (x : Kern α) : ForkM α :=
  zoom Sys.mem (fun m s => { s with mem := m }) (rethrow .mem x)

/-- Assign fields of a process. -/
def setProc (p : Slot) (f : Proc → Proc) : ForkM Unit :=
  modify fun s => { s with proc := Function.update s.proc p (f (s.proc p)) }

/-- The loop of `allocproc` over the table. -/
def unusedSlot (proc : Slot → Proc) : Option Slot :=
  (List.finRange NPROC).find? fun p => (proc p).state = .unused

/-- What `allocproc` writes to a new kernel stack, below the place of the trap frame. -/
def initStack (x : Text) (b : Bytes PGSIZE) : Bytes PGSIZE :=
  let sp := KSTACKSIZE - TRAPFRAME - 4
  let b := b.writeLE sp 4 x.trapret
  let sp := sp - CONTEXT
  let b := b.splice sp (List.replicate CONTEXT 0)
  b.writeLE (sp + CONTEXT_EIP) 4 x.forkret

/-- A slot for a new process, with a kernel stack. -/
def allocproc (x : Text) : ForkM (Option Slot) := do
  let s ← get
  match unusedSlot s.proc with
  | none => pure none
  | some p =>
    setProc p fun y => { y with state := .embryo, pid := s.nextpid }
    modify fun s => { s with nextpid := s.nextpid + 1 }
    match ← onMem kalloc with
    | none =>
      setProc p fun y => { y with kstack := 0, state := .unused }
      pure none
    | some k =>
      setProc p fun y =>
        { y with
          kstack := k
          tf := (k, KSTACKSIZE - TRAPFRAME)
          context := (k, KSTACKSIZE - TRAPFRAME - 4 - CONTEXT) }
      onMem (modify fun m => m.setPage k (initStack x (m.page k)))
      pure (some p)

/-- One more reference to a file. -/
def filedup (f : Fin NFILE) : ForkM Unit := do
  let s ← get
  if s.fref f < 1 then
    throw .filedup
  set { s with fref := Function.update s.fref f (s.fref f + 1) }

/-- One more reference to an inode. -/
def idup (ip : Fin NINODE) : ForkM Unit :=
  modify fun s => { s with iref := Function.update s.iref ip (s.iref ip + 1) }

/-- The loop of `safestrcpy`, at index `i` with `n` left. The null byte is copied before the loop
ends, and another one is written behind it. -/
def safestrcpyLoop {m : ℕ} (t : Bytes m) : ℕ → ℕ → Bytes m → Bytes m
  | 0, i, s => s.splice i [0]
  | n + 1, i, s =>
    let s := s.splice i [t.get i]
    if t.get i ≠ 0 then safestrcpyLoop t n (i + 1) s else s.splice (i + 1) [0]

/-- Copy a string into an array of the same size. -/
def safestrcpy {m : ℕ} (s t : Bytes m) : Bytes m :=
  if m = 0 then s else safestrcpyLoop t (m - 1) 0 s

/-- A descriptor of the parent goes to the child. -/
def dupFile (curproc np : Slot) (i : Fin NOFILE) : ForkM Unit := do
  match ((← get).proc curproc).ofile i with
  | none => pure ()
  | some f =>
    filedup f
    setProc np fun y => { y with ofile := Function.update y.ofile i (some f) }

/-- The child's trap frame is the parent's, but for `eax`. -/
def copyTrapframe (curproc np : Slot) : ForkM Unit := do
  let s ← get
  let src := (s.proc curproc).tf
  let dst := (s.proc np).tf
  onMem (modify fun m =>
    m.setPage dst.1 ((m.page dst.1).splice dst.2 ((m.page src.1).slice src.2 TRAPFRAME)))
  onMem (modify fun m => m.setPage dst.1 ((m.page dst.1).writeLE (dst.2 + TF_EAX) 4 0))

/-- The end of `fork`: the child gets its references and can run. -/
def forkReady (curproc np : Slot) : ForkM Int32 := do
  (List.finRange NOFILE).forM (dupFile curproc np)
  let cwd := ((← get).proc curproc).cwd
  idup cwd
  setProc np fun y => { y with cwd := cwd }
  let name := ((← get).proc curproc).name
  setProc np fun y => { y with name := safestrcpy y.name name }
  let pid := ((← get).proc np).pid
  setProc np fun y => { y with state := .runnable }
  pure pid

/-- A new process as a copy of `curproc`: its pid, or `none` where `fork` returns -1. -/
def fork (im : Image) (x : Text) (curproc : Slot) : ForkM (Option Int32) := do
  match ← allocproc x with
  | none => pure none
  | some np =>
    let s ← get
    match ← onMem (copyuvm im (s.proc curproc).pgdir (s.proc curproc).sz) with
    | none =>
      onMem (kfree im (s.proc np).kstack)
      setProc np fun y => { y with pgdir := 0, kstack := 0, state := .unused }
      pure none
    | some d =>
      setProc np fun y =>
        { y with pgdir := d, sz := (s.proc curproc).sz, parent := some curproc }
      copyTrapframe curproc np
      let pid ← forkReady curproc np
      pure (some pid)

/-! ### The slot -/

theorem onMem_iff {α : Type} {y : Kern α} {s : Sys} {Q : α → Sys → Prop} {E : ForkFault → Prop} :
    Wp (onMem y) s Q E ↔
      Wp y s.mem (fun a m => Q a { s with mem := m }) fun e => E (.mem e) := by
  rw [onMem, Wp.zoom_iff, Wp.rethrow_iff]

theorem setProc_iff {p : Slot} {f : Proc → Proc} {s : Sys} {Q : Unit → Sys → Prop}
    {E : ForkFault → Prop} :
    Wp (setProc p f) s Q E ↔ Q () { s with proc := Function.update s.proc p (f (s.proc p)) } :=
  Iff.rfl

theorem unusedSlot_some {proc : Slot → Proc} {p : Slot} (h : unusedSlot proc = some p) :
    (proc p).state = .unused := by
  simpa using List.find?_some h

theorem unusedSlot_none {proc : Slot → Proc} (h : unusedSlot proc = none) (p : Slot) :
    (proc p).state ≠ .unused := by
  simpa using List.find?_eq_none.mp h p (List.mem_finRange p)

/-- The processes but for the slot `np` are as they were, and so are the references. -/
structure OnlySlot (np : Slot) (s t : Sys) : Prop where
  proc : ∀ q, q ≠ np → t.proc q = s.proc q
  fref : t.fref = s.fref
  iref : t.iref = s.iref

/-- Nothing is left of a new process: no slot was taken, or it is free again. -/
def Undone (s t : Sys) : Prop :=
  t = s ∨ ∃ np, OnlySlot np s t ∧ (s.proc np).state = .unused ∧ (t.proc np).state = .unused ∧
    (t.proc np).kstack = 0

/-- `allocproc` beside the address space of a process. -/
theorem allocproc_spec {im : Image} {others : Set ℕ} {x : Text} {s : Sys} {d : ℕ}
    (h : Space im others s.mem d) :
    Wp (allocproc x) s
      (fun r t => match r with
        | none => t.mem = s.mem ∧ Undone s t ∧
            ((∀ q, (s.proc q).state ≠ .unused) ∨ s.mem.free = [])
        | some np => (s.proc np).state = .unused ∧ OnlySlot np s t ∧
            (t.proc np).tf.1 = (t.proc np).kstack ∧ im.Avail (t.proc np).kstack ∧
              (t.proc np).kstack ∉ others ∧ Space im (insert (t.proc np).kstack others) t.mem d ∧
                s.mem.free.length = t.mem.free.length + 1 ∧
                  ∀ f ∈ others ∪ frames s.mem d, t.mem.page f = s.mem.page f)
      fun _ => False := by
  unfold allocproc
  rw [Wp.bind_iff, Wp.get_iff]
  cases hslot : unusedSlot s.proc with
  | none => exact ⟨rfl, .inl rfl, .inl (unusedSlot_none hslot)⟩
  | some np =>
    have hunused := unusedSlot_some hslot
    dsimp only
    rw [Wp.bind_iff, setProc_iff, Wp.bind_iff, Wp.modify_iff, Wp.bind_iff, onMem_iff]
    refine h.kalloc_spec.mono (fun r m hm => ?_) fun _ => id
    cases r with
    | none =>
      obtain ⟨rfl, hempty⟩ := hm
      rw [Wp.bind_iff, setProc_iff, Wp.pure_iff]
      exact ⟨rfl, .inr ⟨np, ⟨fun q hq => by simp [hq], rfl, rfl⟩, hunused, by simp, by simp⟩,
        .inr hempty⟩
    | some k =>
      obtain ⟨hm, hk, ha, hfree, hpage⟩ := hm
      rw [Wp.bind_iff, setProc_iff, Wp.bind_iff, onMem_iff, Wp.modify_iff, Wp.pure_iff]
      dsimp only
      simp only [Function.update_self]
      refine ⟨hunused, ⟨fun q hq => by simp [hq], rfl, rfl⟩, trivial, ha, hk,
        (hm.setPage_other (Set.mem_insert k others)).1, ?_, fun f hf => ?_⟩
      · rw [hfree]
        rfl
      rw [Mem.page_setPage_of_ne, hpage]
      rintro rfl
      have hfr : frames m d = frames s.mem d := h.frames_kept fun g _ => congrFun hpage g
      rcases hf with hf | hf
      · exact hk hf
      · exact hm.not_mem_of_frames (hfr ▸ hf) (Set.mem_insert f others)

/-- The trap frame lies in the kernel stack, in frame `k`. -/
theorem copyTrapframe_spec {im : Image} {used : Set ℕ} {s : Sys} {k d : ℕ} (p np : Slot)
    (h : Space im (insert k used) s.mem d) (hk : k ∉ used) (htf : (s.proc np).tf.1 = k) :
    Wp (copyTrapframe p np) s
      (fun _ t => t.proc = s.proc ∧ t.fref = s.fref ∧ t.iref = s.iref ∧
        Space im (insert k used) t.mem d ∧ Kept used d ∅ s.mem t.mem)
      fun _ => False := by
  subst htf
  unfold copyTrapframe
  rw [Wp.bind_iff, Wp.get_iff]
  dsimp only
  rw [Wp.bind_iff, onMem_iff, Wp.modify_iff, onMem_iff, Wp.modify_iff]
  obtain ⟨h₁, hk₁⟩ := h.setPage_kept hk (((s.mem.page (s.proc np).tf.1).splice (s.proc np).tf.2
    ((s.mem.page (s.proc p).tf.1).slice (s.proc p).tf.2 TRAPFRAME)))
  obtain ⟨h₂, hk₂⟩ := h₁.setPage_kept hk _
  exact ⟨rfl, rfl, rfl, h₂, hk₁.trans hk₂⟩

/-! ### The descriptors -/

/-- The loop over the descriptors changes reference counts and the child's descriptors. It panics
if a file of the parent has no reference. -/
theorem dupFiles_spec {p np : Slot} (hne : p ≠ np) (l : List (Fin NOFILE)) (s : Sys) :
    Wp (l.forM (dupFile p np)) s
      (fun _ t => t.mem = s.mem ∧ (∀ q, q ≠ np → t.proc q = s.proc q) ∧
        (t.proc np).pgdir = (s.proc np).pgdir)
      fun e => e = .filedup ∧ ∃ i f, (s.proc p).ofile i = some f ∧ s.fref f = 0 := by
  induction l generalizing s with
  | nil => exact ⟨rfl, fun _ _ => rfl, rfl⟩
  | cons i l ih =>
    rw [List.forM, Wp.bind_iff, dupFile, Wp.bind_iff, Wp.get_iff]
    cases hf : (s.proc p).ofile i with
    | none => exact ih s
    | some f =>
      dsimp only
      rw [Wp.bind_iff, filedup, Wp.bind_iff, Wp.get_iff]
      split_ifs with href
      · exact ⟨rfl, i, f, hf, by omega⟩
      · rw [Wp.set_iff, setProc_iff]
        refine (ih _).mono ?_ ?_
        · rintro - t ⟨hmem, hproc, hpgdir⟩
          refine ⟨hmem, fun q hq => (hproc q hq).trans ?_, hpgdir.trans ?_⟩
          · exact Function.update_of_ne hq ..
          · simp
        · -- the count of a file only grows
          rintro e ⟨he, j, g, hg, href'⟩
          dsimp only at hg href'
          rw [Function.update_of_ne hne] at hg
          refine ⟨he, j, g, hg, ?_⟩
          by_cases hgf : g = f
          · subst hgf
            simp at href'
          · rwa [Function.update_of_ne hgf] at href'

theorem forkReady_spec {p np : Slot} (hne : p ≠ np) (s : Sys) :
    Wp (forkReady p np) s
      (fun pid t => t.mem = s.mem ∧ (∀ q, q ≠ np → t.proc q = s.proc q) ∧
        (t.proc np).pgdir = (s.proc np).pgdir ∧ (t.proc np).state = .runnable ∧
          (t.proc np).pid = pid)
      fun e => e = .filedup ∧ ∃ i f, (s.proc p).ofile i = some f ∧ s.fref f = 0 := by
  unfold forkReady
  refine (dupFiles_spec hne _ s).bind fun _ t ⟨hmem, hproc, hpgdir⟩ => ?_
  simp only [idup, Wp.bind_iff, Wp.modify_iff, setProc_iff, Wp.get_iff, Wp.pure_iff,
    Function.update_self, Function.update_idem]
  refine ⟨hmem, fun q hq => ?_, hpgdir, trivial, trivial⟩
  rw [Function.update_of_ne hq, hproc q hq]

/-! ### The child -/

/-- The process `p` maps exactly its pages, its frames are its own, and the frames of the other
processes are in use elsewhere. -/
structure Sys.Apart (im : Image) (others : Set ℕ) (s : Sys) (p : Slot) : Prop where
  isProc : (s.proc p).state.IsProc
  sized : Sized im others s.mem (s.proc p).pgdir (s.proc p).sz
  rest : ∀ q, q ≠ p → (s.proc q).state.IsProc →
    (∃ o, Space im o s.mem (s.proc q).pgdir) ∧ frames s.mem (s.proc q).pgdir ⊆ others

theorem Sys.Apart.frames_subset {im : Image} {others : Set ℕ} {s : Sys} {p : Slot}
    (h : s.Apart im others p) {q : Slot} (hq : (s.proc q).state.IsProc) :
    (∃ o, Space im o s.mem (s.proc q).pgdir) ∧
      frames s.mem (s.proc q).pgdir ⊆ others ∪ frames s.mem (s.proc p).pgdir := by
  by_cases hqp : q = p
  · subst hqp
    exact ⟨⟨others, h.sized.space⟩, Set.subset_union_right⟩
  · obtain ⟨hspace, hsub⟩ := h.rest q hqp hq
    exact ⟨hspace, hsub.trans Set.subset_union_left⟩

/-- Page `v` of the process `np` in `t` is a copy of page `v` of `p` in `s`, with the same flags and
in a frame that no other process maps. -/
structure CopiedPage (s t : Sys) (p np : Slot) (v : ℕ) : Prop where
  present : Present (t.mem.pte (t.proc np).pgdir v)
  flags : PTE_FLAGS (t.mem.pte (t.proc np).pgdir v) = PTE_FLAGS (s.mem.pte (s.proc p).pgdir v)
  contents : t.mem.page (frame (t.mem.pte (t.proc np).pgdir v)) =
    s.mem.page (frame (s.mem.pte (s.proc p).pgdir v))
  own : ∀ q, q ≠ np → (t.proc q).state.IsProc →
    ∀ w < NUSER, Present (t.mem.pte (t.proc q).pgdir w) →
      frame (t.mem.pte (t.proc q).pgdir w) ≠ frame (t.mem.pte (t.proc np).pgdir v)

theorem userPage_eq_some {s : Mem} {d v e : ℕ} {b : Bytes PGSIZE}
    (h : s.userPage d v = some (e, b)) :
    Present (s.pte d v) ∧ s.pte d v = e ∧ s.page (frame (s.pte d v)) = b := by
  unfold Mem.userPage at h
  split_ifs at h with hp
  obtain ⟨he, hb⟩ := Prod.mk.inj (Option.some.inj h)
  exact ⟨hp, he, hb⟩

theorem flags_entry {f perm : ℕ} (hperm : perm < PGSIZE) :
    PTE_FLAGS (f * PGSIZE ||| perm) = perm := by
  rw [entry_eq hperm, PTE_FLAGS, Nat.mul_comm, Nat.mul_add_mod, Nat.mod_eq_of_lt hperm]

/-- A present entry has `PTE_P` among its flags. -/
theorem flags_or_present {e : ℕ} (hp : Present e) : PTE_FLAGS e ||| PTE_P = PTE_FLAGS e := by
  have hodd : PTE_FLAGS e % 2 = 1 := by
    have := (present_iff e).mp hp
    unfold PTE_FLAGS PGSIZE
    omega
  refine Nat.eq_of_testBit_eq fun i => ?_
  cases i with
  | zero => simp [PTE_P, hodd]
  | succ i =>
    rw [Nat.testBit_or]
    simp [PTE_P, Nat.testBit_succ]

/-- The memory after `copyuvm`, with the child's kernel stack in frame `k`, seen from the state
before the call. -/
theorem Sys.Apart.copied {im : Image} {others : Set ℕ} {s u t : Sys} {p np : Slot} {k : ℕ}
    (h : s.Apart im others p) (hu : ∀ f ∈ others ∪ frames s.mem (s.proc p).pgdir,
      u.mem.page f = s.mem.page f)
    (ht : ∀ f ∈ others ∪ frames s.mem (s.proc p).pgdir, t.mem.page f = s.mem.page f)
    (hspace : Space im (insert k (others ∪ frames s.mem (s.proc p).pgdir)) t.mem (t.proc np).pgdir)
    (hcopy : CopyOf u.mem (s.proc p).pgdir (npages (s.proc p).sz) t.mem (t.proc np).pgdir)
    (hproc : ∀ q, q ≠ np → t.proc q = s.proc q) {v : ℕ} (hv : v < npages (s.proc p).sz) :
    CopiedPage s t p np v := by
  have hvu := hv.trans_le (npages_le h.sized.le)
  have hspace₀ := h.sized.space
  have hpresent := h.sized.present v hv
  obtain ⟨f, hf⟩ := hcopy.copied v hv
  obtain ⟨hp, hpte, hpage⟩ := userPage_eq_some hf
  rw [hspace₀.pte_kept (fun g hg => hu g (.inr hg)) (hvu.trans_le NUSER_le)] at hpte hpage
  refine ⟨hp, ?_, ?_, fun q hq hqproc w hw hpw heq => ?_⟩
  · rw [hpte, flags_or_present hpresent, flags_entry (PTE_FLAGS_lt _)]
  · rw [hpage, hu _ (.inr (hspace₀.user_mem_frames hvu hpresent))]
  · -- a frame that another process maps was in use before
    rw [hproc q hq] at hqproc hpw heq
    obtain ⟨⟨o, hspaceq⟩, hsub⟩ := h.frames_subset hqproc
    have hpteq := hspaceq.pte_kept (fun g hg => ht g (hsub hg)) (hw.trans_le NUSER_le)
    rw [hpteq] at hpw heq
    have hmem := hsub (hspaceq.user_mem_frames hw hpw)
    exact hspace.not_mem_of_frames (hspace.user_mem_frames hvu hp)
      (Set.mem_insert_of_mem k (heq ▸ hmem))

/-- `fork` makes a copy of the process, page by page, with frames of its own and nothing else below
`KERNBASE`; or it returns -1, and the free pages, the reference counts and the process are as they
were, and so is the table but for a slot that is unused again. The rest of the memory is as it was
in both cases. It returns -1 only if every slot is in use or the free pages are too few. The only
panic is that of a file without references. -/
theorem fork_copies_or_undoes {im : Image} {others : Set ℕ} {x : Text} {s : Sys} {p : Slot}
    (h : s.Apart im others p) :
    Wp (fork im x p) s
      (fun r t => t.proc p = s.proc p ∧
        (∀ f ∈ others ∪ frames s.mem (s.proc p).pgdir, t.mem.page f = s.mem.page f) ∧
          match r with
          | some pid => ∃ np, (t.proc np).pid = pid ∧ (s.proc np).state = .unused ∧
              (t.proc np).state = .runnable ∧
                (∀ v < NUSER, v * PGSIZE < (s.proc p).sz → CopiedPage s t p np v) ∧
                  ∀ v < NUSER, (s.proc p).sz ≤ v * PGSIZE →
                    ¬ Present (t.mem.pte (t.proc np).pgdir v)
          | none => t.mem.free.Perm s.mem.free ∧ t.fref = s.fref ∧ t.iref = s.iref ∧
              (t.proc = s.proc ∨ ∃ np, (∀ q, q ≠ np → t.proc q = s.proc q) ∧
                (t.proc np).state = .unused ∧ (t.proc np).kstack = 0) ∧
                ((∀ q, (s.proc q).state ≠ .unused) ∨
                  s.mem.free.length ≤ 3 + NPDENTRIES + npages (s.proc p).sz))
      fun e => e = .filedup ∧ ∃ i f, (s.proc p).ofile i = some f ∧ s.fref f = 0 := by
  have hspace := h.sized.space
  unfold fork
  refine Wp.bind_iff.mpr ((allocproc_spec hspace).mono (fun r u hu => ?_) fun _ => False.elim)
  cases r with
  | none =>
    obtain ⟨hmem, hundone, hreason⟩ := hu
    replace hreason : (∀ q, (s.proc q).state ≠ .unused) ∨
        s.mem.free.length ≤ 3 + NPDENTRIES + npages (s.proc p).sz :=
      hreason.imp_right fun hempty => by simp [hempty]
    rcases hundone with rfl | ⟨np, honly, hunused, hstate, hkstack⟩
    · exact ⟨rfl, fun _ _ => rfl, .refl _, rfl, rfl, .inl rfl, hreason⟩
    · rw [Wp.pure_iff, hmem]
      refine ⟨honly.proc p ?_, fun _ _ => rfl, .refl _, honly.fref, honly.iref,
        .inr ⟨np, honly.proc, hstate, hkstack⟩, hreason⟩
      rintro rfl
      exact h.isProc.1 hunused
  | some np =>
    obtain ⟨hunused, honly, htf, ha, hk, hspaceu, hlength, hpageu⟩ := hu
    have hne : p ≠ np := by
      rintro rfl
      exact h.isProc.1 hunused
    dsimp only
    rw [Wp.bind_iff, Wp.get_iff, Wp.bind_iff, onMem_iff, honly.proc p hne]
    -- the address space of the parent is the same in `s` and `u`
    have hframes := hspace.frames_kept fun f hf => hpageu f (.inr hf)
    have hpresent : ∀ v < npages (s.proc p).sz, Present (u.mem.pte (s.proc p).pgdir v) := by
      intro v hv
      rw [hspace.pte_kept (fun f hf => hpageu f (.inr hf))
        ((hv.trans_le (npages_le h.sized.le)).trans_le NUSER_le)]
      exact h.sized.present v hv
    have hcopy := hspaceu.copyuvm_spec h.sized.le hpresent
    rw [hframes, Set.insert_union] at hcopy
    have hkO : (u.proc np).kstack ∉ others ∪ frames s.mem (s.proc p).pgdir := by
      rintro (hmem | hmem)
      · exact hk hmem
      · exact hspaceu.not_mem_of_frames (hframes ▸ hmem) (Set.mem_insert ..)
    refine hcopy.mono (fun r m ⟨hpage, hm⟩ => ?_) fun _ => False.elim
    have hpagem : ∀ f ∈ others ∪ frames s.mem (s.proc p).pgdir, m.page f = s.mem.page f :=
      fun f hf => (hpage f (Set.mem_insert_of_mem _ hf)).trans (hpageu f hf)
    cases r with
    | none =>
      obtain ⟨hm, hshort⟩ := hm
      dsimp only
      rw [Wp.bind_iff, onMem_iff]
      refine (hm.kfree_spec hkO ha).mono (fun _ n ⟨hn, hpagen⟩ => ?_) fun _ => False.elim
      rw [Wp.bind_iff, setProc_iff, Wp.pure_iff]
      refine ⟨?_, fun f hf => (hpagen f hf).trans (hpagem f hf), ?_, honly.fref, honly.iref,
        .inr ⟨np, fun q hq => ?_, ?_, ?_⟩, .inr (by omega)⟩
      · exact (Function.update_of_ne hne ..).trans (honly.proc p hne)
      · refine (List.perm_ext_iff_of_nodup hn.nodup hspace.nodup).mpr fun f => ?_
        rw [hn.mem_iff, hspace.allFree.mem_iff]
      · exact (Function.update_of_ne hq ..).trans (honly.proc q hq)
      · simp
      · simp
    | some d =>
      obtain ⟨hm, hcopied⟩ := hm
      dsimp only
      rw [Wp.bind_iff, setProc_iff]
      have htrap := copyTrapframe_spec p np (s := { u with
        mem := m
        proc := Function.update u.proc np { u.proc np with
          pgdir := d, sz := (s.proc p).sz, parent := some p } }) hm hkO (by simpa using htf)
      refine Wp.bind_iff.mpr (htrap.mono (fun _ w hw => ?_) fun _ => False.elim)
      obtain ⟨hprocw, hfrefw, -, hspacew, hkeptw⟩ := hw
      dsimp only at hprocw hfrefw hkeptw
      have hchild : (w.proc np).pgdir = d := by simp [hprocw]
      have hrest : ∀ q, q ≠ np → w.proc q = s.proc q := fun q hq => by
        rw [hprocw, Function.update_of_ne hq, honly.proc q hq]
      refine Wp.bind_iff.mpr ((forkReady_spec hne w).mono (fun pid t ht => ?_) fun e he => ?_)
      · obtain ⟨hmemt, hproct, hpgdirt, hstate, hpid⟩ := ht
        have hpaget : ∀ f ∈ others ∪ frames s.mem (s.proc p).pgdir,
            t.mem.page f = s.mem.page f := fun f hf => by
          rw [hmemt, hkeptw.other f hf, hpagem f hf]
        have hprocs : ∀ q, q ≠ np → t.proc q = s.proc q := fun q hq =>
          (hproct q hq).trans (hrest q hq)
        have hspacet : Space im (insert (u.proc np).kstack (others ∪ frames s.mem (s.proc p).pgdir))
            t.mem (t.proc np).pgdir := by rwa [hmemt, hpgdirt, hchild]
        have hcopyt : CopyOf u.mem (s.proc p).pgdir (npages (s.proc p).sz) t.mem
            (t.proc np).pgdir := by
          rw [hmemt, hpgdirt, hchild]
          exact hcopied.congr (npages_le h.sized.le) fun v hv =>
            hkeptw.user v hv (Set.notMem_empty v)
        refine ⟨hprocs p hne, hpaget, np, hpid, hunused, hstate, fun v hv hlt => ?_,
          fun v hv hle => ?_⟩
        · exact h.copied hpageu hpaget hspacet hcopyt hprocs ((lt_npages_iff h.sized.le).mpr hlt)
        · have hn := (lt_npages_iff h.sized.le).not.mpr (Nat.not_lt.mpr hle)
          rw [present_iff_userPage, hcopyt.rest v hv (Nat.not_lt.mp hn), not_not]
      · obtain ⟨he, i, f, hf, href⟩ := he
        rw [hrest p hne] at hf
        exact ⟨he, i, f, hf, by rw [← honly.fref, ← hfrefw, href]⟩

/-- A process of one page in slot 0, with its kernel stack in frame 50000, and no other one. -/
def smallSys (m : Mem) : Sys where
  mem := m
  proc q :=
    { sz := 4096
      pgdir := 300
      kstack := 50000
      state := if q = initproc then .running else .unused
      pid := 1
      parent := none
      tf := (304, KSTACKSIZE - TRAPFRAME)
      context := (304, 0)
      ofile := fun _ => none
      cwd := ⟨0, NINODE_pos⟩
      name := Bytes.zero 16 }
  nextpid := 2
  fref _ := 0
  iref _ := 1

theorem smallSys_apart {m : Mem} {n : ℕ} (h : Sized smallImage {f | 300 + n < f} m 300 4096) :
    (smallSys m).Apart smallImage {f | 300 + n < f} initproc := by
  refine ⟨⟨by simp [smallSys], by simp [smallSys]⟩, h, fun q hq hproc => absurd ?_ hproc.1⟩
  exact if_neg hq

/-- A process of one page, with `n` free pages before it got the page. -/
theorem exists_smallSys {n : ℕ} (hn : 300 + n < PHYSTOP / PGSIZE) {l : List ℕ}
    (heval : (growproc smallImage 300 0 4096 (freshMem n)).toOption.map
      (fun x => (x.1, x.2.free)) = some ((0, 4096), l)) :
    ∃ m, growproc smallImage 300 0 4096 (freshMem n) = .ok ((0, 4096), m) ∧ m.free = l ∧
      (smallSys m).Apart smallImage {f | 300 + n < f} initproc := by
  obtain ⟨⟨r, m⟩, hm, heq⟩ := Option.map_eq_some_iff.mp heval
  obtain ⟨rfl, hfree⟩ := Prod.mk.inj heq
  have hstep : GrowStep smallImage 300 (freshMem n, 0) 4096 (m, 4096) := ⟨0, eq_ok_of_toOption hm⟩
  exact ⟨m, eq_ok_of_toOption hm, hfree,
    smallSys_apart ((freshMem_sized hn).step (.inl (by decide)) hstep)⟩

/-- If one page is left, there is one for the kernel stack of the child but not for its page
directory. With two thousand the child has a page of its own with the same bytes. -/
theorem fork_copies_or_undoes_pages :
    (∃ m t, fork smallImage ⟨0, 0⟩ initproc (smallSys m) = .ok (none, t) ∧ m.free = [303] ∧
      t.mem.free.Perm m.free) ∧
    ∃ m pid t np, fork smallImage ⟨0, 0⟩ initproc (smallSys m) = .ok (some pid, t) ∧
      (t.proc np).state = .runnable ∧ CopiedPage (smallSys m) t initproc np 0 := by
  constructor
  · obtain ⟨m, hgrow, hfree, hapart⟩ := exists_smallSys (n := 3) (l := [303]) (by decide)
      (by decide +kernel)
    have heval : ((growproc smallImage 300 0 4096 (freshMem 3)).toOption.bind fun x =>
        (fork smallImage ⟨0, 0⟩ initproc (smallSys x.2)).toOption.map Prod.fst) = some none := by
      decide +kernel
    rw [hgrow] at heval
    obtain ⟨⟨r, t⟩, ht, rfl⟩ := Option.map_eq_some_iff.mp heval
    have hfork := eq_ok_of_toOption ht
    obtain ⟨-, -, hperm, -⟩ := (fork_copies_or_undoes hapart).of_ok hfork
    exact ⟨m, t, hfork, hfree, hperm⟩
  · obtain ⟨m, hgrow, hfree, hapart⟩ := exists_smallSys (n := 2000) (l := List.range' 303 1998)
      (by decide) (by decide +kernel)
    obtain ⟨r, t, hfork, -, -, hr⟩ := (fork_copies_or_undoes (x := ⟨0, 0⟩) hapart).exists_ok
      fun e ⟨_, i, f, hf, _⟩ => by cases hf
    cases r with
    | none =>
      obtain ⟨-, -, -, -, hfull | hshort⟩ := hr
      · exact absurd rfl (hfull ⟨1, by decide⟩)
      · change m.free.length ≤ 3 + NPDENTRIES + npages 4096 at hshort
        rw [hfree, List.length_range'] at hshort
        exact absurd hshort (by decide)
    | some pid =>
      obtain ⟨np, -, -, hstate, hcopied, -⟩ := hr
      refine ⟨m, pid, t, np, hfork, hstate, hcopied 0 (by decide) ?_⟩
      change 0 * PGSIZE < 4096
      decide

end Xv6.Vm
