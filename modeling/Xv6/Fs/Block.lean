import Xv6.Fs.Layout
import Xv6.Lib.Loop
import Xv6.Lib.Wp

/-!
# Blocks and inode contents

The lower half of `fs.c`: the block allocator, the inode records on disk, and the contents
of an inode through its direct and indirect blocks. Block contents are those the buffer
cache presents, so `bread` is a look at the disk and `log_write` a change of it; that the
log has room for the blocks is left to `Xv6.Fs.Logged`, which has the same routines with
the log. A function on `struct inode *ip` takes the fields of `ip` it uses as a value and
returns them as it leaves them.
-/

namespace Xv6.Fs

open Lib

/-- File types: directory, file, device. -/
def T_DIR : Int16 := 1
def T_FILE : Int16 := 2
def T_DEV : Int16 := 3

/-- The panics of `fs.c`, `file.c`, `sysfile.c` and `exit`. -/
inductive Panic
  | balloc | bfree | ialloc | iget | ilock | ilockNoType | iunlock | bmap
  | dirlookupNotDir | dirlookupRead | dirlinkRead | dirlink
  | isdiremptyReadi | unlinkNlink | unlinkWritei
  | createDots | createDirlink
  | filedup | fileclose | fileread | filewrite | shortFilewrite | initExiting
  deriving DecidableEq

/-- Why a call does not come back: a panic, or it sleeps until another process does something,
which includes a lock that its own process holds. -/
inductive Fault
  | panic (p : Panic)
  | hang
  deriving DecidableEq

/-- A device driver: what it delivers for a read of `n` bytes, and what a write returns;
`none` stands for -1. -/
structure Device where
  read : ℕ → Option (List UInt8)
  write : List UInt8 → Option ℕ

/-- What is fixed after boot: the superblock in memory and the table of device drivers. -/
structure Env where
  sb : SuperBlock
  devsw : ℕ → Option Device

/-- The driver for a major device number, if it is in range and has one. -/
def Env.driver (e : Env) (major : Int16) : Option Device :=
  if major.toInt < 0 ∨ major.toInt ≥ NDEV then none else e.devsw major.toInt.toNat

/-- Programs on the disk. -/
abbrev DiskM := Prog Fault Disk

section Blocks

variable (sb : SuperBlock)

/-- The inner loop of `balloc`: the first free block of the part of the map from `b` on. -/
def freeFrom (d : Disk) (b : ℕ) : Option ℕ :=
  (firstFrom (fun bi => !(d (sb.BBLOCK b)).testBit bi) (min BPB (sb.size - b)) 0).map (b + ·)

/-- The outer loop of `balloc`, over at most `n` blocks of the map. -/
def freeBlock (d : Disk) : ℕ → ℕ → Option ℕ
  | 0, _ => none
  | n + 1, b =>
    if b < sb.size then
      match freeFrom sb d b with
      | some r => some r
      | none => freeBlock d n (b + BPB)
    else none

/-- Zero a block. -/
def bzero (bno : ℕ) : DiskM Unit := modify fun d => Function.update d bno (Bytes.zero BSIZE)

/-- Allocate a zeroed disk block. -/
def balloc : DiskM ℕ := do
  let d ← get
  match freeBlock sb d (sb.size / BPB + 1) 0 with
  | some b =>
    set (putBit sb d b true)
    bzero b
    return b
  | none => throw (.panic .balloc)

/-- Free a disk block. -/
def bfree (b : ℕ) : DiskM Unit := do
  let d ← get
  if getBit sb d b then set (putBit sb d b false) else throw (.panic .bfree)

/-- Copy the fields of inode `inum` to its record on disk. -/
def iupdate (inum : ℕ) (ip : Dinode) : DiskM Unit := modify fun d => putDinode sb d inum ip

/-- The record that `ialloc` fills in, up to the `iget` that follows. -/
def iallocDisk (type : Int16) : DiskM ℕ := do
  let d ← get
  match firstFrom (fun inum => (getDinode sb d inum).type == 0) (sb.ninodes - 1) 1 with
  | some inum =>
    set (putDinode sb d inum (.blank type))
    return inum
  | none => throw (.panic .ialloc)

/-- The part of `bmap` that allocates the indirect block if there is none. -/
def loadIndirect (ip : Dinode) : DiskM Dinode :=
  if ip.addr NDIRECT = 0 then do
    let addr ← balloc sb
    return ip.setAddr NDIRECT addr
  else return ip

/-- The disk block address of block `bn` of inode `ip`, allocated if there is none. -/
def bmap (ip : Dinode) (bn : ℕ) : DiskM (ℕ × Dinode) :=
  if bn < NDIRECT then
    if ip.addr bn = 0 then do
      let addr ← balloc sb
      return (addr, ip.setAddr bn addr)
    else return (ip.addr bn, ip)
  else if bn - NDIRECT < NINDIRECT then do
    let ip ← loadIndirect sb ip
    let d ← get
    if getWord (d (ip.addr NDIRECT)) (bn - NDIRECT) = 0 then do
      let addr ← balloc sb
      modify fun d => Function.update d (ip.addr NDIRECT)
        (putWord (d (ip.addr NDIRECT)) (bn - NDIRECT) addr)
      return (addr, ip)
    else return (getWord (d (ip.addr NDIRECT)) (bn - NDIRECT), ip)
  else throw (.panic .bmap)

/-- The loop of `itrunc` over the direct blocks from `i` on. -/
def truncDirect : ℕ → ℕ → Dinode → DiskM Dinode
  | 0, _, ip => return ip
  | n + 1, i, ip =>
    if ip.addr i = 0 then truncDirect n (i + 1) ip
    else do
      bfree sb (ip.addr i)
      truncDirect n (i + 1) (ip.setAddr i 0)

/-- The loop of `itrunc` over the entries of the indirect block from `j` on. -/
def truncIndirect (a : Block) : ℕ → ℕ → DiskM Unit
  | 0, _ => return
  | n + 1, j =>
    if getWord a j = 0 then truncIndirect a n (j + 1)
    else do
      bfree sb (getWord a j)
      truncIndirect a n (j + 1)

/-- The part of `itrunc` that frees the indirect block and what it lists. -/
def truncPtr (ip : Dinode) : DiskM Dinode :=
  if ip.addr NDIRECT = 0 then return ip
  else do
    let d ← get
    truncIndirect sb (d (ip.addr NDIRECT)) NINDIRECT 0
    bfree sb (ip.addr NDIRECT)
    return ip.setAddr NDIRECT 0

/-- Discard the contents of inode `inum`. -/
def itrunc (inum : ℕ) (ip : Dinode) : DiskM Dinode := do
  let ip ← truncDirect sb NDIRECT 0 ip
  let ip ← truncPtr sb ip
  iupdate sb inum { ip with size := 0 }
  return { ip with size := 0 }

/-- The loop of `readi`; every pass moves at least one byte, so `fuel` is the count `n`. -/
def readLoop : ℕ → Dinode → ℕ → ℕ → DiskM (List UInt8 × Dinode)
  | 0, ip, _, _ => return ([], ip)
  | fuel + 1, ip, off, n =>
    if n = 0 then return ([], ip)
    else do
      let (addr, ip) ← bmap sb ip (off / BSIZE)
      let bp := (← get) addr
      let m := min n (BSIZE - off % BSIZE)
      let (rest, ip) ← readLoop fuel ip (off + m) (n - m)
      return (bp.slice (off % BSIZE) m ++ rest, ip)

/-- The loop of `writei`. -/
def writeLoop : ℕ → Dinode → List UInt8 → ℕ → DiskM Dinode
  | 0, ip, _, _ => return ip
  | fuel + 1, ip, src, off =>
    if src.length = 0 then return ip
    else do
      let (addr, ip) ← bmap sb ip (off / BSIZE)
      let m := min src.length (BSIZE - off % BSIZE)
      modify fun d => Function.update d addr ((d addr).splice (off % BSIZE) (src.take m))
      writeLoop fuel ip (src.drop m) (off + m)

end Blocks

section Contents

variable (e : Env)

/-- Read `n` bytes at offset `off` of an inode; `none` stands for -1. -/
def readi (ip : Dinode) (off n : ℕ) : DiskM (Option (List UInt8) × Dinode) :=
  if ip.type = T_DEV then
    match e.driver ip.major with
    | some dev => return (dev.read n, ip)
    | none => return (none, ip)
  else if off > ip.size ∨ (off + n) % 2 ^ 32 < off then return (none, ip)
  else do
    let n := if (off + n) % 2 ^ 32 > ip.size then ip.size - off else n
    let (bytes, ip) ← readLoop e.sb n ip off n
    return (some bytes, ip)

/-- Write the bytes `src` at offset `off` of inode `inum`; `none` stands for -1. -/
def writei (inum : ℕ) (ip : Dinode) (src : List UInt8) (off : ℕ) : DiskM (Option ℕ × Dinode) :=
  let n := src.length
  if ip.type = T_DEV then
    match e.driver ip.major with
    | some dev => return (dev.write src, ip)
    | none => return (none, ip)
  else if off > ip.size ∨ (off + n) % 2 ^ 32 < off then return (none, ip)
  else if (off + n) % 2 ^ 32 > MAXFILE * BSIZE then return (none, ip)
  else do
    let ip ← writeLoop e.sb n ip src off
    if n > 0 ∧ off + n > ip.size then do
      iupdate e.sb inum { ip with size := off + n }
      return (some n, { ip with size := off + n })
    else return (some n, ip)

end Contents

end Xv6.Fs
