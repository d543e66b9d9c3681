import Xv6.Fs.Block

/-!
# The inode cache, directories and path names

The upper half of `fs.c`: references to inodes in memory, directories as sequences of
fixed-size entries, and the lookup of path names. One call runs at a time, so a sleep lock
that is taken is held by the running call itself, and waiting for it would never end.
-/

namespace Xv6.Fs

open Lib

/-- What the cache knows of an inode besides its fields on disk. -/
structure Entry where
  inum : ℕ
  ref : ℕ
  lock : Bool
  valid : Bool

/-- `struct inode`. -/
structure Inode extends Entry where
  din : Dinode

/-- An entry of the cache, as a `struct inode *` refers to it. -/
abbrev Ip := Fin NINODE

/-- The disk and the inode cache. -/
structure Ic where
  disk : Disk
  icache : Ip → Inode

/-- Store an entry of the cache. -/
def Ic.set (s : Ic) (ip : Ip) (i : Inode) : Ic :=
  { s with icache := Function.update s.icache ip i }

/-- Programs on the disk and the cache. -/
abbrev IcM := Prog Fault Ic

/-- The entry that `ip` points to. -/
def inode (ip : Ip) : IcM Inode := do return (← get).icache ip

/-- Assign to fields of `*ip`. -/
def modifyInode (ip : Ip) (f : Inode → Inode) : IcM Unit :=
  modify fun s => s.set ip (f (s.icache ip))

/-- Run a routine of the lower half on the fields of `*ip`, which it may change. -/
def onInode {α : Type} (ip : Ip) (f : Inode → DiskM (α × Dinode)) : IcM α := fun s =>
  match f (s.icache ip) s.disk with
  | .ok ((a, din), d) =>
    .ok (a, ({ s with disk := d } : Ic).set ip { s.icache ip with din := din })
  | .error e => .error e

section References

variable (e : Env)

/-- Find the entry for inode `inum`, or recycle one; its fields are not read. -/
def iget (inum : ℕ) : IcM Ip := do
  let s ← get
  match (List.finRange NINODE).find? fun ip =>
      0 < (s.icache ip).ref ∧ (s.icache ip).inum = inum with
  | some ip =>
    modifyInode ip fun i => { i with ref := i.ref + 1 }
    return ip
  | none =>
    match (List.finRange NINODE).find? fun ip => (s.icache ip).ref = 0 with
    | some ip =>
      modifyInode ip fun i => { i with inum := inum, ref := 1, valid := false }
      return ip
    | none => throw (.panic .iget)

/-- Allocate an inode and take a reference to it. -/
def ialloc (type : Int16) : IcM Ip := do
  let inum ← zoom Ic.disk (fun d s => { s with disk := d }) (iallocDisk e.sb type)
  iget inum

/-- Another reference to the same inode. -/
def idup (ip : Ip) : IcM Ip := do
  modifyInode ip fun i => { i with ref := i.ref + 1 }
  return ip

/-- Copy the fields of `*ip` to disk. -/
def iupdateIp (ip : Ip) : IcM Unit :=
  onInode ip fun i => do
    iupdate e.sb i.inum i.din
    return ((), i.din)

/-- The part of `ilock` that reads the inode from disk. -/
def iread (ip : Ip) : IcM Unit := do
  let s ← get
  let din := getDinode e.sb s.disk (s.icache ip).inum
  modifyInode ip fun i => { i with din := din, valid := true }
  if din.type = 0 then throw (.panic .ilockNoType) else return

/-- Lock an inode, reading it from disk if necessary. -/
def ilock (ip : Ip) : IcM Unit := do
  let i ← inode ip
  if i.ref < 1 then throw (.panic .ilock)
  else if i.lock then throw .hang
  else do
    modifyInode ip fun i => { i with lock := true }
    if i.valid then return else iread e ip

/-- Unlock an inode. -/
def iunlock (ip : Ip) : IcM Unit := do
  let i ← inode ip
  if ¬ i.lock ∨ i.ref < 1 then throw (.panic .iunlock)
  else modifyInode ip fun i => { i with lock := false }

/-- The part of `iput` that frees an inode without links at its last reference. -/
def ifree (ip : Ip) : IcM Unit := do
  let i ← inode ip
  if i.valid ∧ i.din.nlink = 0 ∧ i.ref = 1 then do
    onInode ip fun i => do
      let din ← itrunc e.sb i.inum i.din
      return ((), din)
    modifyInode ip fun i => { i with din := { i.din with type := 0 } }
    iupdateIp e ip
    modifyInode ip fun i => { i with valid := false }
  else return

/-- Drop a reference. -/
def iput (ip : Ip) : IcM Unit := do
  let i ← inode ip
  if i.lock then throw .hang
  else do
    modifyInode ip fun i => { i with lock := true }
    ifree e ip
    modifyInode ip fun i => { i with lock := false }
    modifyInode ip fun i => { i with ref := i.ref - 1 }

/-- Unlock, then drop the reference. -/
def iunlockput (ip : Ip) : IcM Unit := do
  iunlock ip
  iput e ip

end References

/-! ### Directories -/

/-- `strncmp` on strings that end at a zero byte or at the end of the list. -/
def strncmp : ℕ → List UInt8 → List UInt8 → ℤ
  | 0, _, _ => 0
  | n + 1, p, q =>
    if p.headD 0 ≠ 0 ∧ p.headD 0 = q.headD 0 then strncmp n p.tail q.tail
    else (p.headD 0).toNat - (q.headD 0).toNat

/-- `strncpy`: the string, cut or padded with zeros to `n` bytes. -/
def strncpy : ℕ → List UInt8 → List UInt8
  | 0, _ => []
  | n + 1, t => if t.headD 0 = 0 then List.replicate (n + 1) 0 else t.headD 0 :: strncpy n t.tail

/-- Compare two names. -/
def namecmp (s t : List UInt8) : ℤ := strncmp DIRSIZ s t

/-- Size of a `struct dirent`. -/
def DIRENT : ℕ := 2 + DIRSIZ

/-- The bytes of a `struct dirent`. -/
def direntBytes (inum : ℕ) (name : List UInt8) : List UInt8 := leBytes 2 inum ++ strncpy DIRSIZ name

/-- The `inum` and `name` fields of a `struct dirent`. -/
def direntInum (de : List UInt8) : ℕ := leValue (de.take 2)
def direntName (de : List UInt8) : List UInt8 := de.drop 2

section Directories

variable (e : Env)

/-- Read the directory entry at offset `off`, or panic. -/
def readDirent (p : Panic) (dp : Ip) (off : ℕ) : IcM (List UInt8) := do
  match ← onInode dp fun i => readi e i.din off DIRENT with
  | some de => if de.length = DIRENT then return de else throw (.panic p)
  | none => throw (.panic p)

/-- The loop of `dirlookup` from offset `off` on. -/
def lookupLoop (dp : Ip) (name : List UInt8) : ℕ → ℕ → IcM (Option (Ip × ℕ))
  | 0, _ => return none
  | fuel + 1, off => do
    let i ← inode dp
    if off < i.din.size then do
      let de ← readDirent e .dirlookupRead dp off
      if direntInum de ≠ 0 ∧ namecmp name (direntName de) = 0 then do
        let ip ← iget (direntInum de)
        return some (ip, off)
      else lookupLoop dp name fuel (off + DIRENT)
    else return none

/-- Look for a name in a directory: a reference to the inode, and the offset of the entry. -/
def dirlookup (dp : Ip) (name : List UInt8) : IcM (Option (Ip × ℕ)) := do
  let i ← inode dp
  if i.din.type ≠ T_DIR then throw (.panic .dirlookupNotDir)
  else lookupLoop e dp name (i.din.size / DIRENT + 1) 0

/-- The loop of `dirlink` that looks for an empty entry, or the end of the directory. -/
def emptyLoop (dp : Ip) : ℕ → ℕ → IcM ℕ
  | 0, off => return off
  | fuel + 1, off => do
    let i ← inode dp
    if off < i.din.size then do
      let de ← readDirent e .dirlinkRead dp off
      if direntInum de = 0 then return off else emptyLoop dp fuel (off + DIRENT)
    else return off

/-- Write a new entry into a directory; `false` stands for -1. -/
def dirlink (dp : Ip) (name : List UInt8) (inum : ℕ) : IcM Bool := do
  match ← dirlookup e dp name with
  | some (ip, _) => do
    iput e ip
    return false
  | none => do
    let i ← inode dp
    let off ← emptyLoop e dp (i.din.size / DIRENT + 1) 0
    let r ← onInode dp fun i => writei e i.inum i.din (direntBytes inum name) off
    if r = some DIRENT then return true else throw (.panic .dirlink)

end Directories

/-! ### Path names -/

/-- The character `/`. -/
def slash : UInt8 := 47

/-- The next element of a path and the path after it, without leading slashes. -/
def skipelem (path : List UInt8) : Option (List UInt8 × List UInt8) :=
  match path.dropWhile (· = slash) with
  | [] => none
  | c :: s =>
    some (((c :: s).takeWhile (· ≠ slash)).take DIRSIZ,
      ((c :: s).dropWhile (· ≠ slash)).dropWhile (· = slash))

section Paths

variable (e : Env)

/-- The loop of `namex`: the inode reached, with the last name if the parent is wanted. -/
def namexLoop (nameiparent : Bool) : ℕ → Ip → List UInt8 → IcM (Option (Ip × List UInt8))
  | 0, ip, _ => return some (ip, [])
  | fuel + 1, ip, path =>
    match skipelem path with
    | none =>
      if nameiparent then do
        iput e ip
        return none
      else return some (ip, [])
    | some (name, path) => do
      ilock e ip
      let i ← inode ip
      if i.din.type ≠ T_DIR then do
        iunlockput e ip
        return none
      else if nameiparent ∧ path = [] then do
        iunlock ip
        return some (ip, name)
      else do
        match ← dirlookup e ip name with
        | none => do
          iunlockput e ip
          return none
        | some (next, _) => do
          iunlockput e ip
          namexLoop nameiparent fuel next path

/-- Look up a path name from the root or from the working directory `cwd`. -/
def namex (cwd : Ip) (path : List UInt8) (nameiparent : Bool) :
    IcM (Option (Ip × List UInt8)) := do
  let ip ← if path.head? = some slash then iget ROOTINO else idup cwd
  namexLoop e nameiparent (path.length + 1) ip path

/-- The inode of a path. -/
def namei (cwd : Ip) (path : List UInt8) : IcM (Option Ip) := do
  return (← namex e cwd path false).map Prod.fst

/-- The inode of the parent of a path, and the last name. -/
def nameiparent (cwd : Ip) (path : List UInt8) : IcM (Option (Ip × List UInt8)) :=
  namex e cwd path true

end Paths

end Xv6.Fs
