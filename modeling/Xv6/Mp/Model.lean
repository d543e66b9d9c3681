import Xv6.Lib.Bytes
import Xv6.Lib.Loop
import Xv6.Str.Memmove

/-!
# The multiprocessor table

`mp.c`. The firmware leaves a floating structure in one of three places of low memory, and it points
to a configuration table: a header and behind it entries of several types and sizes. `mpinit` walks
over the entries and registers the processors it finds. The table is bytes of physical memory, read
through the kernel's addresses; the variables of the kernel lie elsewhere.
-/

namespace Xv6.Mp

open Lib Str

/-- Maximum number of CPUs. -/
def NCPU : ℕ := 8

/-- The kernel's address of a physical address. -/
def P2V (a : Addr) : Addr := a + 0x80000000#32

/-- The little-endian value of the `w` bytes at offset `off` of a structure at `p`. -/
def field (m : Memory) (p : Addr) (off w : ℕ) : ℕ :=
  leValue ((List.range w).map fun i => m (p + BitVec.ofNat 32 (off + i)))

/-- `memcmp` of the bytes at `p` with a string. -/
def memcmp (m : Memory) : Addr → List UInt8 → ℤ
  | _, [] => 0
  | p, c :: s => if m p ≠ c then (m p).toNat - c.toNat else memcmp m (p + 1) s

/-- The sum of `len` bytes as an `uchar`. -/
def sum (m : Memory) (addr : Addr) (len : ℕ) : UInt8 :=
  UInt8.ofNat ((List.range len).map fun i => (m (addr + BitVec.ofNat 32 i)).toNat).sum

/-- `sizeof(struct mp)` -/
def MP : ℕ := 16

/-- `sizeof(struct mpconf)` -/
def MPCONF : ℕ := 44

/-- "_MP_" -/
def mpSignature : List UInt8 := [0x5F, 0x4D, 0x50, 0x5F]

/-- "PCMP" -/
def confSignature : List UInt8 := [0x50, 0x43, 0x4D, 0x50]

/-- The loop of `mpsearch1` at `p`, for at most so many structures. -/
def mpsearchLoop (m : Memory) (e : Addr) : ℕ → Addr → Option Addr
  | 0, _ => none
  | k + 1, p =>
    if p < e then
      if memcmp m p mpSignature = 0 ∧ sum m p MP = 0 then some p
      else mpsearchLoop m e k (p + BitVec.ofNat 32 MP)
    else none

/-- Look for an MP structure in the `len` bytes at `a`. The ranges that are searched do not reach
the end of the address space, so that there are no more structures than fit into `len` bytes. -/
def mpsearch1 (m : Memory) (a : Addr) (len : ℕ) : Option Addr :=
  mpsearchLoop m (P2V a + BitVec.ofNat 32 len) (len / MP + 1) (P2V a)

/-- Search for the MP floating structure. -/
def mpsearch (m : Memory) : Option Addr :=
  let bda := P2V 0x400
  let ebda := field m bda 0x0E 2 * 16
  let first :=
    if ebda ≠ 0 then mpsearch1 m (BitVec.ofNat 32 ebda) 1024
    else mpsearch1 m (BitVec.ofNat 32 (field m bda 0x13 2 * 1024) - 1024) 1024
  match first with
  | some mp => some mp
  | none => mpsearch1 m 0xF0000 0x10000

/-- `conf->length` -/
def confLength (m : Memory) (conf : Addr) : ℕ := field m conf 4 2

/-- Search for an MP configuration table: the floating structure and the table. -/
def mpconfig (m : Memory) : Option (Addr × Addr) :=
  match mpsearch m with
  | none => none
  | some mp =>
    if field m mp 4 4 = 0 then none
    else
      let conf := P2V (BitVec.ofNat 32 (field m mp 4 4))
      if memcmp m conf confSignature ≠ 0 then none
      else if field m conf 6 1 ≠ 1 ∧ field m conf 6 1 ≠ 4 then none
      else if sum m conf (confLength m conf) ≠ 0 then none
      else some (mp, conf)

/-- The variables of the kernel that `mpinit` sets, and the interrupt mode register behind ports
0x22 and 0x23. -/
structure Globals where
  ncpu : ℕ
  /-- `cpus[i].apicid` -/
  apicid : Fin NCPU → UInt8
  ioapicid : UInt8
  lapic : Addr
  imcr : UInt8

/-- Entry types. -/
def MPPROC : UInt8 := 0
def MPBUS : UInt8 := 1
def MPIOAPIC : UInt8 := 2
def MPIOINTR : UInt8 := 3
def MPLINTR : UInt8 := 4

/-- `sizeof(struct mpproc)` -/
def MPPROCSIZE : ℕ := 20

/-- `sizeof(struct mpioapic)` -/
def MPIOAPICSIZE : ℕ := 8

/-- The variables of the loop of `mpinit`. -/
structure Cursor where
  p : Addr
  ismp : Bool
  globals : Globals

/-- Register a processor. -/
def register (g : Globals) (apicid : UInt8) : Globals :=
  if h : g.ncpu < NCPU then
    { g with apicid := Function.update g.apicid ⟨g.ncpu, h⟩ apicid, ncpu := g.ncpu + 1 }
  else g

/-- The body of the loop of `mpinit`. The `break` of its last case leaves the `switch`. -/
def entry (m : Memory) (c : Cursor) : Cursor :=
  if m c.p = MPPROC then
    { c with
      globals := register c.globals (m (c.p + 1))
      p := c.p + BitVec.ofNat 32 MPPROCSIZE }
  else if m c.p = MPIOAPIC then
    { c with
      globals := { c.globals with ioapicid := m (c.p + 1) }
      p := c.p + BitVec.ofNat 32 MPIOAPICSIZE }
  else if m c.p = MPBUS ∨ m c.p = MPIOINTR ∨ m c.p = MPLINTR then
    { c with p := c.p + 8 }
  else
    { c with ismp := false }

/-- Why `mpinit` does not return. -/
inductive Fault
  /-- "Expect to run on an SMP" -/
  | expectSmp
  /-- "Didn't find a suitable machine" -/
  | unsuitable
  /-- The loop is still running. -/
  | running
  deriving DecidableEq

/-- The variables of the loop when it begins. -/
def start (m : Memory) (conf : Addr) (g : Globals) : Cursor where
  p := conf + BitVec.ofNat 32 MPCONF
  ismp := true
  globals := { g with lapic := BitVec.ofNat 32 (field m conf 36 4) }

/-- The condition of the loop. -/
def more (m : Memory) (conf : Addr) (c : Cursor) : Bool :=
  c.p < conf + BitVec.ofNat 32 (confLength m conf)

/-- Read the table, with at most `k` tests of the condition of the loop. -/
def mpinit (m : Memory) (k : ℕ) (g : Globals) : Except Fault Globals :=
  match mpconfig m with
  | none => .error .expectSmp
  | some (mp, conf) =>
    match whileLoop (more m conf) (entry m) k (start m conf g) with
    | none => .error .running
    | some c =>
      if !c.ismp then .error .unsuitable
      else if field m mp 12 1 ≠ 0 then .ok { c.globals with imcr := c.globals.imcr ||| 1 }
      else .ok c.globals

end Xv6.Mp
