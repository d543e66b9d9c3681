import Xv6.Lib.Bytes
import Xv6.Lib.Wp

/-!
# Physical memory and page tables

`kalloc.c` and the page tables of `vm.c`. Physical memory is a page of bytes for each frame
number, and a page directory or a page table is a page of 32-bit words in it: nothing keeps
two of them apart except what the code does. The kernel reaches the physical address `pa` at
`P2V(pa)`, so that a pointer to a page is the number of its frame, and a pointer to an entry
of a table is a frame with an index.

Addresses and sizes are 32-bit unsigned integers; where the source can overflow the model
computes modulo `2 ^ 32`.
-/

namespace Xv6.Vm

open Lib

/-- Bytes mapped by a page. -/
def PGSIZE : ℕ := 4096

/-- Entries of a page directory. -/
def NPDENTRIES : ℕ := 1024

/-- First kernel virtual address. -/
def KERNBASE : ℕ := 0x80000000

/-- Start of extended memory. -/
def EXTMEM : ℕ := 0x100000

/-- Address where the kernel is linked. -/
def KERNLINK : ℕ := KERNBASE + EXTMEM

/-- Top of physical memory. -/
def PHYSTOP : ℕ := 0xE000000

/-- Other devices are at high addresses. -/
def DEVSPACE : ℕ := 0xFE000000

/-- Entry flags: present, writeable, user. -/
def PTE_P : ℕ := 0x001
def PTE_W : ℕ := 0x002
def PTE_U : ℕ := 0x004

/-- `V2P`. -/
@[irreducible] def V2P (a : ℕ) : ℕ := (a + (2 ^ 32 - KERNBASE)) % 2 ^ 32

/-- `P2V`. -/
@[irreducible] def P2V (a : ℕ) : ℕ := (a + KERNBASE) % 2 ^ 32

/-- Page directory index. -/
def PDX (va : ℕ) : ℕ := va / 2 ^ 22 % 1024

/-- Page table index. -/
def PTX (va : ℕ) : ℕ := va / 2 ^ 12 % 1024

/-- The virtual address made of two indexes and an offset. -/
def PGADDR (d t o : ℕ) : ℕ := (d <<< 22 ||| t <<< 12 ||| o) % 2 ^ 32

/-- `PGROUNDUP`. -/
def PGROUNDUP (sz : ℕ) : ℕ := (sz + (PGSIZE - 1)) % 2 ^ 32 / PGSIZE * PGSIZE

/-- `PGROUNDDOWN`. -/
def PGROUNDDOWN (a : ℕ) : ℕ := a / PGSIZE * PGSIZE

/-- The frame of `PTE_ADDR`. -/
def frame (e : ℕ) : ℕ := e / PGSIZE

/-- `PTE_FLAGS`. -/
def PTE_FLAGS (e : ℕ) : ℕ := e % PGSIZE

/-- The panics of `kalloc.c` and `vm.c`. -/
inductive Panic
  /-- "kfree" -/
  | kfree
  /-- "remap" -/
  | remap
  /-- "PHYSTOP too high" -/
  | phystop
  /-- "copyuvm: pte should exist" -/
  | copyuvmPte
  /-- "copyuvm: page not present" -/
  | copyuvmPage
  deriving DecidableEq

/-- Why a function does not come back: a panic, the use of a null pointer that `walkpgdir`
returned, or a loop that does not end. -/
inductive Fault
  | panic (p : Panic)
  | nullPte
  | hang
  deriving DecidableEq

/-- The addresses that `kernel.ld` fixes: `end` and `data`. The kernel is linked at `KERNLINK`,
and `data` is the start of a page. -/
structure Image where
  kend : ℕ
  data : ℕ
  kend_gt : KERNBASE < kend
  data_gt : KERNLINK < data
  data_lt : data < KERNBASE + PHYSTOP
  data_align : data % PGSIZE = 0

/-- Physical memory by frame number, and the free list, first page first. -/
structure Mem where
  page : ℕ → Bytes PGSIZE
  free : List ℕ

namespace Mem

variable (s : Mem)

/-- The contents of a frame. -/
def setPage (f : ℕ) (b : Bytes PGSIZE) : Mem := { s with page := Function.update s.page f b }

/-- The `i`-th word of the page table in frame `f`. -/
def word (f i : ℕ) : ℕ := (s.page f).readLE (4 * i) 4

/-- Store the `i`-th word of the page table in frame `f`. -/
def setWord (f i v : ℕ) : Mem := s.setPage f ((s.page f).writeLE (4 * i) 4 v)

end Mem

/-- Kernel code that works on physical memory. -/
abbrev Kern := Prog Fault Mem

/-- Take the first page of the free list. -/
def kalloc : Kern (Option ℕ) := do
  let s ← get
  match s.free with
  | [] => pure none
  | r :: free =>
    set { s with free := free }
    pure (some r)

/-- Fill a page with junk and put it on the free list. -/
def kfree (im : Image) (f : ℕ) : Kern Unit := do
  let v := P2V (f * PGSIZE)
  if v % PGSIZE ≠ 0 ∨ v < im.kend ∨ PHYSTOP ≤ V2P v then
    throw (.panic .kfree)
  modify fun s => { s.setPage f fun _ => 1 with free := f :: s.free }

/-- The address of the entry for `va`: the frame of its table and its index there. -/
def walkpgdir (pgdir va : ℕ) (alloc : Bool) : Kern (Option (ℕ × ℕ)) := do
  let pde := (← get).word pgdir (PDX va)
  if pde &&& PTE_P ≠ 0 then
    pure (some (frame pde, PTX va))
  else if alloc = false then
    pure none
  else
    match ← kalloc with
    | none => pure none
    | some pgtab =>
      modify (·.setPage pgtab (Bytes.zero PGSIZE))
      modify (·.setWord pgdir (PDX va) (pgtab * PGSIZE ||| PTE_P ||| PTE_W ||| PTE_U))
      pure (some (pgtab, PTX va))

/-- The loop of `mappages`, with `n` pages of the address space to go. -/
def mapLoop (pgdir last perm : ℕ) : ℕ → ℕ → ℕ → Kern ℤ
  | 0, _, _ => throw .hang
  | n + 1, a, pa => do
    match ← walkpgdir pgdir a true with
    | none => pure (-1)
    | some (pgtab, i) =>
      if (← get).word pgtab i &&& PTE_P ≠ 0 then
        throw (.panic .remap)
      modify (·.setWord pgtab i (pa ||| perm ||| PTE_P))
      if a = last then pure 0
      else mapLoop pgdir last perm n ((a + PGSIZE) % 2 ^ 32) ((pa + PGSIZE) % 2 ^ 32)

/-- Map the addresses from `va` on to the physical addresses from `pa` on. -/
def mappages (pgdir va size pa perm : ℕ) : Kern ℤ :=
  mapLoop pgdir (PGROUNDDOWN ((va + size + (2 ^ 32 - 1)) % 2 ^ 32)) perm (2 ^ 20)
    (PGROUNDDOWN va) pa

/-- The loop of `deallocuvm`. -/
def deallocLoop (im : Image) (pgdir oldsz : ℕ) : ℕ → ℕ → Kern Unit
  | 0, _ => throw .hang
  | n + 1, a => do
    if a < oldsz then
      match ← walkpgdir pgdir a false with
      | none =>
        let a := (PGADDR (PDX a + 1) 0 0 + (2 ^ 32 - PGSIZE)) % 2 ^ 32
        deallocLoop im pgdir oldsz n ((a + PGSIZE) % 2 ^ 32)
      | some (pgtab, i) =>
        let pte := (← get).word pgtab i
        if pte &&& PTE_P ≠ 0 then
          if frame pte = 0 then
            throw (.panic .kfree)
          kfree im (frame pte)
          modify (·.setWord pgtab i 0)
        deallocLoop im pgdir oldsz n ((a + PGSIZE) % 2 ^ 32)

/-- Unmap and free the user pages from `newsz` up to `oldsz`. -/
def deallocuvm (im : Image) (pgdir oldsz newsz : ℕ) : Kern ℕ := do
  if oldsz ≤ newsz then
    pure oldsz
  else
    deallocLoop im pgdir oldsz (2 ^ 20 + 1) (PGROUNDUP newsz)
    pure newsz

/-- The loop of `allocuvm`. -/
def allocLoop (im : Image) (pgdir oldsz newsz : ℕ) : ℕ → ℕ → Kern ℕ
  | 0, _ => throw .hang
  | n + 1, a => do
    if a < newsz then
      match ← kalloc with
      | none =>
        let _ ← deallocuvm im pgdir newsz oldsz
        pure 0
      | some mem =>
        modify (·.setPage mem (Bytes.zero PGSIZE))
        if (← mappages pgdir a PGSIZE (mem * PGSIZE) (PTE_W ||| PTE_U)) < 0 then
          let _ ← deallocuvm im pgdir newsz oldsz
          kfree im mem
          pure 0
        else
          allocLoop im pgdir oldsz newsz n ((a + PGSIZE) % 2 ^ 32)
    else
      pure newsz

/-- Give the process pages from `oldsz` up to `newsz`; 0 on error. -/
def allocuvm (im : Image) (pgdir oldsz newsz : ℕ) : Kern ℕ :=
  if KERNBASE ≤ newsz then pure 0
  else if newsz < oldsz then pure oldsz
  else allocLoop im pgdir oldsz newsz (2 ^ 20 + 1) (PGROUNDUP oldsz)

/-- Free a page table and the user pages that it maps. A frame is never a null pointer, so
the test for one is left out. -/
def freevm (im : Image) (pgdir : ℕ) : Kern Unit := do
  let _ ← deallocuvm im pgdir KERNBASE 0
  (List.range NPDENTRIES).forM fun i => do
    let pde := (← get).word pgdir i
    if pde &&& PTE_P ≠ 0 then
      kfree im (frame pde)
  kfree im pgdir

/-- An entry of `kmap`. -/
structure Kmap where
  virt : ℕ
  phys_start : ℕ
  phys_end : ℕ
  perm : ℕ

/-- The kernel's mappings, present in every page table. -/
def kmap (im : Image) : List Kmap :=
  [⟨KERNBASE, 0, EXTMEM, PTE_W⟩,
    ⟨KERNLINK, V2P KERNLINK, V2P im.data, 0⟩,
    ⟨im.data, V2P im.data, PHYSTOP, PTE_W⟩,
    ⟨DEVSPACE, DEVSPACE, 0, PTE_W⟩]

/-- The loop of `setupkvm`. -/
def kmapLoop (im : Image) (pgdir : ℕ) : List Kmap → Kern (Option ℕ)
  | [] => pure (some pgdir)
  | k :: ks => do
    if (← mappages pgdir k.virt ((k.phys_end + (2 ^ 32 - k.phys_start)) % 2 ^ 32) k.phys_start
        k.perm) < 0 then
      freevm im pgdir
      pure none
    else
      kmapLoop im pgdir ks

/-- A page directory with the kernel part of a page table. -/
def setupkvm (im : Image) : Kern (Option ℕ) := do
  match ← kalloc with
  | none => pure none
  | some pgdir =>
    modify (·.setPage pgdir (Bytes.zero PGSIZE))
    if DEVSPACE < P2V PHYSTOP then
      throw (.panic .phystop)
    kmapLoop im pgdir (kmap im)

/-- The loop of `copyuvm`. -/
def copyLoop (im : Image) (pgdir sz d : ℕ) : ℕ → ℕ → Kern (Option ℕ)
  | 0, _ => throw .hang
  | n + 1, i => do
    if i < sz then
      match ← walkpgdir pgdir i false with
      | none => throw (.panic .copyuvmPte)
      | some (pgtab, j) =>
        let pte := (← get).word pgtab j
        if pte &&& PTE_P = 0 then
          throw (.panic .copyuvmPage)
        match ← kalloc with
        | none =>
          freevm im d
          pure none
        | some mem =>
          modify fun s => s.setPage mem (s.page (frame pte))
          if (← mappages d i PGSIZE (mem * PGSIZE) (PTE_FLAGS pte)) < 0 then
            kfree im mem
            freevm im d
            pure none
          else
            copyLoop im pgdir sz d n ((i + PGSIZE) % 2 ^ 32)
    else
      pure (some d)

/-- A copy of the memory of a process for its child. -/
def copyuvm (im : Image) (pgdir sz : ℕ) : Kern (Option ℕ) := do
  match ← setupkvm im with
  | none => pure none
  | some d => copyLoop im pgdir sz d (2 ^ 20 + 1) 0

/-- The page that a user address lies in. The entry is read through the pointer that
`walkpgdir` returned, whether it is null or not. -/
def uva2ka (pgdir uva : ℕ) : Kern (Option ℕ) := do
  match ← walkpgdir pgdir uva false with
  | none => throw .nullPte
  | some (pgtab, i) =>
    let pte := (← get).word pgtab i
    if pte &&& PTE_P = 0 then pure none
    else if pte &&& PTE_U = 0 then pure none
    else pure (some (frame pte))

/-- The loop of `copyout`: `len` bytes are left, the next one is byte `off` of the buffer. Byte
`i` of the buffer is `buf s i` in the memory `s`, since the buffer may lie in memory that the
copy changes. -/
def copyoutLoop (pgdir : ℕ) (buf : Mem → ℕ → UInt8) : ℕ → ℕ → ℕ → ℕ → Kern ℤ
  | 0, _, _, _ => pure 0
  | k + 1, va, off, len => do
    if 0 < len then
      let va0 := PGROUNDDOWN va
      match ← uva2ka pgdir va0 with
      | none => pure (-1)
      | some pa0 =>
        let n := min (PGSIZE - (va - va0)) len
        modify fun s => s.setPage pa0
          ((s.page pa0).splice (va - va0) ((List.range n).map fun i => buf s (off + i)))
        copyoutLoop pgdir buf k ((va0 + PGSIZE) % 2 ^ 32) (off + n) (len - n)
    else
      pure 0

/-- Copy `len` bytes to the user address `va`. Each round copies at least one byte. -/
def copyout (pgdir va : ℕ) (buf : Mem → ℕ → UInt8) (len : ℕ) : Kern ℤ :=
  copyoutLoop pgdir buf len va 0 len

/-- The change of a process's size by `n`: what `growproc` returns, and the size it leaves. -/
def growproc (im : Image) (pgdir sz : ℕ) (n : ℤ) : Kern (ℤ × ℕ) := do
  let newsz := ((sz + n) % 2 ^ 32).toNat
  if 0 < n then
    let r ← allocuvm im pgdir sz newsz
    if r = 0 then pure (-1, sz) else pure (0, r)
  else if n < 0 then
    let r ← deallocuvm im pgdir sz newsz
    if r = 0 then pure (-1, sz) else pure (0, r)
  else
    pure (0, sz)

/-! ### Lookups -/

/-- The page directory has a page table for the address. -/
def HasTable (m : Mem) (pgdir va : ℕ) : Prop := m.word pgdir (PDX va) &&& PTE_P ≠ 0

instance (m : Mem) (pgdir va : ℕ) : Decidable (HasTable m pgdir va) :=
  inferInstanceAs (Decidable (_ ≠ _))

/-- `walkpgdir` without allocation only looks. -/
theorem walkpgdir_look (pgdir va : ℕ) (m : Mem) :
    walkpgdir pgdir va false m =
      .ok (if HasTable m pgdir va then some (frame (m.word pgdir (PDX va)), PTX va) else none,
        m) := by
  refine Wp.eq_ok_of ?_
  unfold walkpgdir
  simp only [Wp.bind_iff, Wp.get_iff]
  split_ifs with h ht ht
  · exact ⟨rfl, rfl⟩
  · exact absurd h ht
  · exact absurd ht h
  · exact ⟨rfl, rfl⟩

end Xv6.Vm
