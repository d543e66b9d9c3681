import Xv6.Fs.NameCalls
import Xv6.Vm.Fork

/-!
# Exec

`exec.c`, with `loaduvm` and `clearpteu` of `vm.c`. The program is read from the file system while
a new address space is built in memory; the call works on both, and on the process that makes it.
The argument strings lie in the memory of the calling process, and that memory is only given back at
the end, so that they are lists of bytes here.
-/

namespace Xv6.Exec

open Lib Vm

/-- Most arguments of a program. -/
def MAXARG : ℕ := 32

/-- Why `exec` does not come back: the file system, the memory, or a panic of its own part of
`vm.c`. -/
inductive ExecFault
  | fs (e : Fs.Fault)
  | vm (e : Vm.Fault)
  /-- "loaduvm: addr must be page aligned" -/
  | loaduvmAligned
  /-- "loaduvm: address should exist" -/
  | loaduvmExist
  /-- "clearpteu" -/
  | clearpteu
  deriving DecidableEq

/-- The fields of the calling process and of its trap frame that `exec` changes. -/
structure Caller where
  pgdir : ℕ
  sz : ℕ
  eip : ℕ
  esp : ℕ
  name : Bytes 16

/-- The file system as the process sees it, the memory, and the process. -/
structure State where
  kern : Fs.Kern
  mem : Mem
  proc : Caller

abbrev ExecM := Prog ExecFault State

/-- Run code that works on physical memory. -/
def onMem {α : Type} (x : Vm.Kern α) : ExecM α :=
  zoom State.mem (fun m s => { s with mem := m }) (rethrow .vm x)

/-- Run code that works on the file system. -/
def onKern {α : Type} (x : Fs.KernM α) : ExecM α :=
  zoom State.kern (fun k s => { s with kern := k }) (rethrow .fs x)

section Load

variable (e : Fs.Env) (im : Image)

/-- `readi` of `n` bytes at offset `off` of `*ip`; `none` stands for -1. -/
def readi (ip : Fs.Ip) (off n : ℕ) : ExecM (Option (List UInt8)) :=
  onKern (Fs.inIc (Fs.onInode ip fun i => Fs.readi e i.din (off % 2 ^ 32) n))

/-- `readi` of a whole structure of `n` bytes. -/
def readStruct (ip : Fs.Ip) (off n : ℕ) : ExecM (Option (List UInt8)) := do
  match ← readi e ip off n with
  | none => pure none
  | some b => if b.length = n then pure (some b) else pure none

/-- The loop of `loaduvm` at byte `i` of the segment. What `readi` delivers is in the page also if
it is less than what was asked for. -/
def loaduvmLoop (pgdir addr : ℕ) (ip : Fs.Ip) (offset sz : ℕ) : ℕ → ℕ → ExecM Bool
  | 0, _ => throw (.vm .hang)
  | k + 1, i => do
    if i < sz then
      match ← onMem (walkpgdir pgdir ((addr + i) % 2 ^ 32) false) with
      | none => throw .loaduvmExist
      | some (pgtab, j) =>
        let pa := frame ((← get).mem.word pgtab j)
        let n := if sz - i < PGSIZE then sz - i else PGSIZE
        match ← readi e ip (offset + i) n with
        | none => pure false
        | some b =>
          onMem (modify fun m => m.setPage pa ((m.page pa).splice 0 b))
          if b.length ≠ n then pure false
          else loaduvmLoop pgdir addr ip offset sz k ((i + PGSIZE) % 2 ^ 32)
    else
      pure true

/-- Load a segment of a program into pages that are mapped; `false` stands for -1. -/
def loaduvm (pgdir addr : ℕ) (ip : Fs.Ip) (offset sz : ℕ) : ExecM Bool := do
  if addr % PGSIZE ≠ 0 then
    throw .loaduvmAligned
  loaduvmLoop e pgdir addr ip offset sz (2 ^ 20 + 1) 0

/-- `struct proghdr`, the fields that `exec` reads. -/
structure Proghdr where
  type : ℕ
  off : ℕ
  vaddr : ℕ
  filesz : ℕ
  memsz : ℕ
  deriving DecidableEq

/-- The fields of a `struct proghdr` in a file. -/
def Proghdr.parse (b : List UInt8) : Proghdr where
  type := Fs.field b 0 4
  off := Fs.field b 4 4
  vaddr := Fs.field b 8 4
  filesz := Fs.field b 16 4
  memsz := Fs.field b 20 4

/-- The loop of `exec` over the program headers, for the `n` of them from offset `off` on: the size
of the program, or `none` where the source goes to `bad`. -/
def loadLoop (pgdir : ℕ) (ip : Fs.Ip) : ℕ → ℕ → ℕ → ExecM (Option ℕ)
  | 0, _, sz => pure (some sz)
  | n + 1, off, sz => do
    match ← readStruct e ip off Fs.PROGHDR with
    | none => pure none
    | some b =>
      let ph := Proghdr.parse b
      if ph.type ≠ Fs.ELF_PROG_LOAD then loadLoop pgdir ip n (off + Fs.PROGHDR) sz
      else if ph.memsz < ph.filesz then pure none
      else if (ph.vaddr + ph.memsz) % 2 ^ 32 < ph.vaddr then pure none
      else
        let sz ← onMem (allocuvm im pgdir sz ((ph.vaddr + ph.memsz) % 2 ^ 32))
        if sz = 0 then pure none
        else if ph.vaddr % PGSIZE ≠ 0 then pure none
        else if ← loaduvm e pgdir ph.vaddr ip ph.off ph.filesz then
          loadLoop pgdir ip n (off + Fs.PROGHDR) sz
        else pure none

/-- The part of `exec` that works on the locked inode: the page directory, the size of the program
and its entry point. -/
def loadImage (ip : Fs.Ip) : ExecM (Option (ℕ × ℕ × ℕ)) := do
  match ← readStruct e ip 0 Fs.ELFHDR with
  | none => pure none
  | some elf =>
    if Fs.field elf 0 4 ≠ Fs.ELF_MAGIC then pure none
    else
      match ← onMem (setupkvm im) with
      | none => pure none
      | some pgdir =>
        match ← loadLoop e im pgdir ip (Fs.field elf 44 2) (Fs.field elf 28 4) 0 with
        | none =>
          onMem (freevm im pgdir)
          pure none
        | some sz => pure (some (pgdir, sz, Fs.field elf 24 4))

/-- The beginning of the transaction of `exec`: the inode of the program, locked. -/
def openInode (path : List UInt8) : Fs.KernM (Option Fs.Ip) := do
  Fs.beginOp
  let cwd := (← get).cwd
  match ← Fs.inIc (Fs.namei e cwd path) with
  | none =>
    Fs.endOp
    pure none
  | some ip =>
    Fs.inIc (Fs.ilock e ip)
    pure (some ip)

/-- The end of the transaction. -/
def closeInode (ip : Fs.Ip) : Fs.KernM Unit := do
  Fs.inIc (Fs.iunlockput e ip)
  Fs.endOp

/-- The transaction of `exec`, from `begin_op` to `end_op`. -/
def openImage (path : List UInt8) : ExecM (Option (ℕ × ℕ × ℕ)) := do
  match ← onKern (openInode e path) with
  | none => pure none
  | some ip =>
    let r ← loadImage e im ip
    onKern (closeInode e ip)
    pure r

/-- Clear `PTE_U` of a page. -/
def clearpteu (pgdir uva : ℕ) : ExecM Unit := do
  match ← onMem (walkpgdir pgdir uva false) with
  | none => throw .clearpteu
  | some (pgtab, i) =>
    onMem (modify fun m => m.setWord pgtab i (m.word pgtab i &&& (2 ^ 32 - 1 - PTE_U)))

/-- The address space that `exec` builds: the program, an inaccessible page and the page of the
stack, with its size and the entry point. -/
def image (path : List UInt8) : ExecM (Option (ℕ × ℕ × ℕ)) := do
  match ← openImage e im path with
  | none => pure none
  | some (pgdir, sz, entry) =>
    let sz := PGROUNDUP sz
    let sz ← onMem (allocuvm im pgdir sz ((sz + 2 * PGSIZE) % 2 ^ 32))
    if sz = 0 then
      onMem (freevm im pgdir)
      pure none
    else
      clearpteu pgdir ((sz + (2 ^ 32 - 2 * PGSIZE)) % 2 ^ 32)
      pure (some (pgdir, sz, entry))

end Load

/-- A buffer of the kernel for `copyout`. -/
def buffer (l : List UInt8) : Mem → ℕ → UInt8 := fun _ i => l.getD i 0

/-- The stack pointer after a push of `n` bytes: `(sp - n) & ~3`. -/
def pushed (sp n : ℕ) : ℕ := (sp + (2 ^ 32 - n % 2 ^ 32)) % 2 ^ 32 / 4 * 4

/-- The loop of `exec` over the arguments: the stack pointer, and the pointers to the strings. -/
def pushArgs (pgdir : ℕ) : ℕ → ℕ → List (List UInt8) → ExecM (Option (ℕ × List ℕ))
  | _, sp, [] => pure (some (sp, []))
  | argc, sp, s :: argv => do
    if MAXARG ≤ argc then pure none
    else
      let sp := pushed sp (s.length + 1)
      if (← onMem (copyout pgdir sp (buffer (s ++ [0])) (s.length + 1))) < 0 then pure none
      else
        match ← pushArgs pgdir (argc + 1) sp argv with
        | none => pure none
        | some (sp', ptrs) => pure (some (sp', sp :: ptrs))

/-- The array `ustack`: the return address, the arguments of `main`, and `argv`. -/
def ustack (sp : ℕ) (ptrs : List ℕ) : List ℕ :=
  [0xffffffff, ptrs.length, (sp + (2 ^ 32 - (ptrs.length + 1) * 4)) % 2 ^ 32] ++ ptrs ++ [0]

/-- The stack of the new program: its stack pointer. -/
def pushStack (pgdir sp : ℕ) (argv : List (List UInt8)) : ExecM (Option ℕ) := do
  match ← pushArgs pgdir 0 sp argv with
  | none => pure none
  | some (sp, ptrs) =>
    let n := (3 + ptrs.length + 1) * 4
    let words := (ustack sp ptrs).flatMap (leBytes 4)
    let sp := (sp + (2 ^ 32 - n)) % 2 ^ 32
    if (← onMem (copyout pgdir sp (buffer words) n)) < 0 then pure none
    else pure (some sp)

/-- The part of a path after its last slash, the loop of `exec` at `s`. -/
def lastName : List UInt8 → List UInt8 → List UInt8
  | last, [] => last
  | last, c :: s => if c = Fs.slash then lastName s s else lastName last s

/-- Replace the memory of the process by a program with its arguments. -/
def exec (e : Fs.Env) (im : Image) (path : List UInt8) (argv : List (List UInt8)) : ExecM ℤ := do
  match ← image e im path with
  | none => pure (-1)
  | some (pgdir, sz, entry) =>
    match ← pushStack pgdir sz argv with
    | none =>
      onMem (freevm im pgdir)
      pure (-1)
    | some sp =>
      let last := lastName path path
      let oldpgdir := (← get).proc.pgdir
      modify fun s =>
        { s with
          proc :=
            { pgdir := pgdir, sz := sz, eip := entry, esp := sp,
              name := safestrcpy s.proc.name fun i => last.getD i 0 } }
      onMem (freevm im oldpgdir)
      pure 0

end Xv6.Exec
