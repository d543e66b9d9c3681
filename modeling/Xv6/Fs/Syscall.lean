import Xv6.Fs.Icache
import Xv6.Pipe.Model

/-!
# File system calls

`file.c` and `sysfile.c`: the table of open files, the descriptors and working directories
of processes, and the system calls on them. A call runs to its end before the next one
starts, and arguments have been fetched. Of `pipe.c` there is what a call does that need not
wait; of `exec` what it does to the inode of the program.
-/

namespace Xv6.Fs

open Lib

section Directories

variable (e : Env)

/-- The names of the two entries every directory starts with. -/
def dot : List UInt8 := [46]
def dotdot : List UInt8 := [46, 46]

/-- `ip->nlink += k; iupdate(ip);` -/
def addLink (ip : Ip) (k : Int16) : IcM Unit := do
  modifyInode ip fun i => { i with din := { i.din with nlink := i.din.nlink + k } }
  iupdateIp e ip

/-- The part of `create` that makes the entries of a new directory `ip` in `dp`. -/
def createDots (dp ip : Ip) : IcM Unit := do
  addLink e dp 1
  let i ← inode ip
  if ← dirlink e ip dot i.inum then do
    let d ← inode dp
    if ← dirlink e ip dotdot d.inum then return else throw (.panic .createDots)
  else throw (.panic .createDots)

/-- The part of `create` that allocates the inode, locks it and gives it its first link. -/
def createInode (type major minor : Int16) : IcM Ip := do
  let ip ← ialloc e type
  ilock e ip
  modifyInode ip fun i =>
    { i with din := { i.din with major := major, minor := minor, nlink := 1 } }
  iupdateIp e ip
  return ip

/-- The part of `create` that makes a new inode and its entry in `dp`. -/
def createNew (dp : Ip) (name : List UInt8) (type major minor : Int16) : IcM Ip := do
  let ip ← createInode e type major minor
  (if type = T_DIR then createDots e dp ip else pure ())
  let i ← inode ip
  if ← dirlink e dp name i.inum then do
    iunlockput e dp
    return ip
  else throw (.panic .createDirlink)

/-- Open or make the inode of a path; it is returned locked. -/
def create (cwd : Ip) (path : List UInt8) (type major minor : Int16) : IcM (Option Ip) := do
  match ← nameiparent e cwd path with
  | none => return none
  | some (dp, name) => do
    ilock e dp
    match ← dirlookup e dp name with
    | some (ip, _) => do
      iunlockput e dp
      ilock e ip
      let i ← inode ip
      if type = T_FILE ∧ i.din.type = T_FILE then return some ip
      else do
        iunlockput e ip
        return none
    | none => do
      let ip ← createNew e dp name type major minor
      return some ip

/-- The end of `sys_link` on failure: undo the increment of the link count. -/
def linkBad (ip : Ip) : IcM Bool := do
  ilock e ip
  addLink e ip (-1)
  iunlockput e ip
  return false

/-- The part of `sys_link` after the link count has been incremented. -/
def linkEntry (cwd ip : Ip) (new : List UInt8) : IcM Bool := do
  match ← nameiparent e cwd new with
  | none => linkBad e ip
  | some (dp, name) => do
    ilock e dp
    let i ← inode ip
    if ← dirlink e dp name i.inum then do
      iunlockput e dp
      iput e ip
      return true
    else do
      iunlockput e dp
      linkBad e ip

/-- Create the path `new` as a link to the inode of `old`; `false` stands for -1. -/
def sysLink (cwd : Ip) (old new : List UInt8) : IcM Bool := do
  match ← namei e cwd old with
  | none => return false
  | some ip => do
    ilock e ip
    let i ← inode ip
    if i.din.type = T_DIR then do
      iunlockput e ip
      return false
    else do
      addLink e ip 1
      iunlock ip
      linkEntry e cwd ip new

/-- The loop of `isdirempty` from offset `off` on. -/
def emptyDirLoop (dp : Ip) : ℕ → ℕ → IcM Bool
  | 0, _ => return true
  | fuel + 1, off => do
    let i ← inode dp
    if off < i.din.size then do
      let de ← readDirent e .isdiremptyReadi dp off
      if direntInum de ≠ 0 then return false else emptyDirLoop dp fuel (off + DIRENT)
    else return true

/-- Is a directory empty except for its first two entries? -/
def isdirempty (dp : Ip) : IcM Bool := do
  let i ← inode dp
  emptyDirLoop e dp (i.din.size / DIRENT + 1) (2 * DIRENT)

/-- The part of `sys_unlink` that clears the entry at `off` of `dp` for `ip`. -/
def eraseEntry (dp ip : Ip) (off : ℕ) : IcM Unit := do
  let r ← onInode dp fun d => writei e d.inum d.din (List.replicate DIRENT 0) off
  if r ≠ some DIRENT then throw (.panic .unlinkWritei)
  else do
    let i ← inode ip
    if i.din.type = T_DIR then addLink e dp (-1) else return

/-- The part of `sys_unlink` that removes the link. -/
def unlinkEntry (dp ip : Ip) (off : ℕ) : IcM Bool := do
  eraseEntry e dp ip off
  iunlockput e dp
  addLink e ip (-1)
  iunlockput e ip
  return true

/-- The part of `sys_unlink` after the entry was found. -/
def unlinkFound (dp ip : Ip) (off : ℕ) : IcM Bool := do
  ilock e ip
  let i ← inode ip
  if i.din.nlink < 1 then throw (.panic .unlinkNlink)
  else do
    if ← (if i.din.type = T_DIR then isdirempty e ip else pure true) then unlinkEntry e dp ip off
    else do
      iunlockput e ip
      iunlockput e dp
      return false

/-- Remove a path; `false` stands for -1. -/
def sysUnlink (cwd : Ip) (path : List UInt8) : IcM Bool := do
  match ← nameiparent e cwd path with
  | none => return false
  | some (dp, name) => do
    ilock e dp
    if namecmp name dot = 0 ∨ namecmp name dotdot = 0 then do
      iunlockput e dp
      return false
    else do
      match ← dirlookup e dp name with
      | none => do
        iunlockput e dp
        return false
      | some (ip, off) => unlinkFound e dp ip off

/-- `sys_mkdir` and `sys_mknod`: make an inode and let go of it. -/
def sysMknod (cwd : Ip) (path : List UInt8) (type major minor : Int16) : IcM Bool := do
  match ← create e cwd path type major minor with
  | none => return false
  | some ip => do
    iunlockput e ip
    return true

/-- Open modes. -/
def O_WRONLY : UInt32 := 0x001
def O_RDWR : UInt32 := 0x002
def O_CREATE : UInt32 := 0x200

/-- The part of `sys_open` that finds the inode; it is returned locked. -/
def openInode (cwd : Ip) (path : List UInt8) (omode : UInt32) : IcM (Option Ip) :=
  if omode &&& O_CREATE ≠ 0 then create e cwd path T_FILE 0 0
  else do
    match ← namei e cwd path with
    | none => return none
    | some ip => do
      ilock e ip
      let i ← inode ip
      if i.din.type = T_DIR ∧ omode ≠ 0 then do
        iunlockput e ip
        return none
      else return some ip

/-- The part of `sys_chdir` that finds the directory and lets go of the old one. -/
def chdirInode (cwd : Ip) (path : List UInt8) : IcM (Option Ip) := do
  match ← namei e cwd path with
  | none => return none
  | some ip => do
    ilock e ip
    let i ← inode ip
    if i.din.type ≠ T_DIR then do
      iunlockput e ip
      return none
    else do
      iunlock ip
      iput e cwd
      return some ip

end Directories

/-! ### Programs -/

/-- Sizes of `struct elfhdr` and `struct proghdr`. -/
def ELFHDR : ℕ := 52
def PROGHDR : ℕ := 32

def ELF_MAGIC : ℕ := 0x464C457F
def ELF_PROG_LOAD : ℕ := 1

/-- The field of `n` bytes at `off`. -/
def field (b : List UInt8) (off n : ℕ) : ℕ := leValue ((b.drop off).take n)

/-- What `exec` does to inodes; `ok` says whether there is memory and the file is a program. Reading
it leaves the inode as it is. -/
def exec (e : Env) (cwd : Ip) (path : List UInt8) (ok : Bool) : IcM Bool := do
  match ← namei e cwd path with
  | none => return false
  | some ip => do
    ilock e ip
    iunlockput e ip
    return ok

/-! ### Open files and processes -/

/-- The kinds of open files. -/
inductive FdType
  | none
  | pipe
  | inode
  deriving DecidableEq

/-- `struct file`. -/
structure File where
  type : FdType
  ref : ℕ
  readable : Bool
  writable : Bool
  /-- The page of the pipe. -/
  pipe : ℕ
  ip : Ip
  off : ℕ

/-- A page of memory as a pipe. Beside its contents there is how often `pipealloc` got it from the
allocator, and how often it was given back. -/
structure Page where
  pipe : Pipes.Pipe
  allocs : ℕ
  frees : ℕ

/-- The page belongs to a pipe. -/
def Page.InUse (a : Page) : Prop := a.frees < a.allocs

instance (a : Page) : Decidable a.InUse := inferInstanceAs (Decidable (_ < _))

/-- The descriptors and the working directory of a process; a process without a working
directory is not running. -/
structure Proc where
  cwd : Option Ip
  ofile : Fin NOFILE → Option (Fin NFILE)

/-- The state of the file system and of the processes that use it. -/
structure Sys (P : Type) where
  ic : Ic
  ftable : Fin NFILE → File
  page : ℕ → Page
  proc : P → Proc

/-- Programs on the whole state. -/
abbrev SysM (P : Type) := Prog Fault (Sys P)

section Files

variable {P : Type} [DecidableEq P] (e : Env)

/-- Run a routine on the disk and the inode cache. -/
def onIc {α : Type} (x : IcM α) : SysM P α := zoom Sys.ic (fun ic s => { s with ic := ic }) x

/-- Assign to fields of `*f`. -/
def modifyFile (f : Fin NFILE) (g : File → File) : SysM P Unit :=
  modify fun s => { s with ftable := Function.update s.ftable f (g (s.ftable f)) }

/-- Assign to fields of a process. -/
def modifyProc (p : P) (g : Proc → Proc) : SysM P Unit :=
  modify fun s => { s with proc := Function.update s.proc p (g (s.proc p)) }

/-- Assign `ofile[fd]`. -/
def setOfile (p : P) (fd : Fin NOFILE) (v : Option (Fin NFILE)) : SysM P Unit :=
  modifyProc p fun q => { q with ofile := Function.update q.ofile fd v }

/-- Assign to a page. -/
def modifyPage (a : ℕ) (g : Page → Page) : SysM P Unit :=
  modify fun s => { s with page := Function.update s.page a (g (s.page a)) }

/-- Allocate a file structure. -/
def filealloc : SysM P (Option (Fin NFILE)) := do
  let s ← get
  match (List.finRange NFILE).find? fun f => (s.ftable f).ref = 0 with
  | some f => do
    modifyFile f fun x => { x with ref := 1 }
    return some f
  | none => return none

/-- Another reference to an open file. -/
def filedup (f : Fin NFILE) : SysM P Unit := do
  let s ← get
  if (s.ftable f).ref < 1 then throw (.panic .filedup)
  else modifyFile f fun x => { x with ref := x.ref + 1 }

/-- Close one end of a pipe; its page is freed with the second one. -/
def pipeclose (a : ℕ) (writable : Bool) : SysM P Unit := do
  (if writable then modifyPage a fun x => { x with pipe := { x.pipe with writeopen := false } }
  else modifyPage a fun x => { x with pipe := { x.pipe with readopen := false } })
  let s ← get
  if (s.page a).pipe.readopen = false ∧ (s.page a).pipe.writeopen = false then
    modifyPage a fun x => { x with frees := x.frees + 1 }
  else return

/-- Drop a reference to an open file; close it at the last one. -/
def fileclose (f : Fin NFILE) : SysM P Unit := do
  let s ← get
  let ff := s.ftable f
  if ff.ref < 1 then throw (.panic .fileclose)
  else if ff.ref - 1 > 0 then modifyFile f fun x => { x with ref := x.ref - 1 }
  else do
    modifyFile f fun x => { x with ref := 0, type := .none }
    match ff.type with
    | .pipe => pipeclose ff.pipe ff.writable
    | .inode => onIc (iput e ff.ip)
    | .none => return

/-- Take the first free descriptor for a file. -/
def fdalloc (p : P) (f : Fin NFILE) : SysM P (Option (Fin NOFILE)) := do
  let s ← get
  match (List.finRange NOFILE).find? fun fd => (s.proc p).ofile fd = none with
  | some fd => do
    setOfile p fd (some f)
    return some fd
  | none => return none

/-- The loop of `piperead` that copies at most `n` bytes. -/
def pipeCopy (a : ℕ) : ℕ → SysM P (List UInt8)
  | 0 => return []
  | n + 1 => do
    let s ← get
    if (s.page a).pipe.Empty then return []
    else do
      modifyPage a fun x => { x with pipe := x.pipe.advance }
      let rest ← pipeCopy a n
      return (s.page a).pipe.front :: rest

/-- Read from a pipe. -/
def piperead (a n : ℕ) : SysM P (List UInt8) := do
  let s ← get
  if (s.page a).pipe.Empty ∧ (s.page a).pipe.writeopen then throw .hang else pipeCopy a n

/-- Write to a pipe; `false` stands for -1. -/
def pipewrite (a : ℕ) : List UInt8 → SysM P Bool
  | [] => return true
  | x :: src => do
    let s ← get
    if (s.page a).pipe.Full then
      if (s.page a).pipe.readopen = false then return false else throw .hang
    else do
      modifyPage a fun y => { y with pipe := y.pipe.put x }
      pipewrite a src

/-- Read from an open file; `none` stands for -1. -/
def fileread (f : Fin NFILE) (n : ℕ) : SysM P (Option (List UInt8)) := do
  let s ← get
  let ff := s.ftable f
  if ff.readable = false then return none
  else match ff.type with
    | .none => throw (.panic .fileread)
    | .pipe => return some (← piperead ff.pipe n)
    | .inode => do
      onIc (ilock e ff.ip)
      let r ← onIc (onInode ff.ip fun i => readi e i.din ff.off n)
      modifyFile f fun x => { x with off := (x.off + (r.getD []).length) % 2 ^ 32 }
      onIc (iunlock ff.ip)
      return r

/-- The bytes that `filewrite` writes in one transaction. -/
def writeMax : ℕ := (MAXOPBLOCKS - 1 - 1 - 2) / 2 * 512

/-- One pass of the loop of `filewrite`. -/
def writeChunk (f : Fin NFILE) (ip : Ip) (chunk : List UInt8) : SysM P (Option ℕ) := do
  onIc (ilock e ip)
  let off := ((← get).ftable f).off
  let r ← onIc (onInode ip fun i => writei e i.inum i.din chunk off)
  modifyFile f fun x => { x with off := (x.off + r.getD 0) % 2 ^ 32 }
  onIc (iunlock ip)
  return r

/-- The loop of `filewrite`; `true` if all bytes were written. -/
def filewriteLoop (f : Fin NFILE) (ip : Ip) : ℕ → List UInt8 → SysM P Bool
  | 0, src => return decide (src = [])
  | fuel + 1, src =>
    if src = [] then return true
    else do
      match ← writeChunk e f ip (src.take writeMax) with
      | none => return false
      | some r =>
        if r ≠ (src.take writeMax).length then throw (.panic .shortFilewrite)
        else filewriteLoop f ip fuel (src.drop writeMax)

/-- Write to an open file; `false` stands for -1. -/
def filewrite (f : Fin NFILE) (src : List UInt8) : SysM P Bool := do
  let s ← get
  let ff := s.ftable f
  if ff.writable = false then return false
  else match ff.type with
    | .none => throw (.panic .filewrite)
    | .pipe => pipewrite ff.pipe src
    | .inode => filewriteLoop e f ff.ip src.length src

/-! ### System calls -/

/-- The part of `sys_open` that makes the descriptor for a locked inode. -/
def openFile (p : P) (ip : Ip) (omode : UInt32) : SysM P (Option (Fin NOFILE)) := do
  match ← filealloc with
  | none => do
    onIc (iunlockput e ip)
    return none
  | some f => do
    match ← fdalloc p f with
    | none => do
      fileclose e f
      onIc (iunlockput e ip)
      return none
    | some fd => do
      onIc (iunlock ip)
      modifyFile f fun x => { x with
        type := .inode, ip := ip, off := 0, readable := omode &&& O_WRONLY = 0,
        writable := omode &&& O_WRONLY ≠ 0 ∨ omode &&& O_RDWR ≠ 0 }
      return some fd

/-- Open a path; `none` stands for -1. -/
def sysOpen (p : P) (cwd : Ip) (path : List UInt8) (omode : UInt32) :
    SysM P (Option (Fin NOFILE)) := do
  match ← onIc (openInode e cwd path omode) with
  | none => return none
  | some ip => openFile e p ip omode

/-- The file of a descriptor. -/
def argfd (p : P) (fd : Fin NOFILE) : SysM P (Option (Fin NFILE)) := do
  return ((← get).proc p).ofile fd

def sysDup (p : P) (fd : Fin NOFILE) : SysM P (Option (Fin NOFILE)) := do
  match ← argfd p fd with
  | none => return none
  | some f => do
    match ← fdalloc p f with
    | none => return none
    | some fd' => do
      filedup f
      return some fd'

def sysRead (p : P) (fd : Fin NOFILE) (n : ℕ) : SysM P (Option (List UInt8)) := do
  match ← argfd p fd with
  | none => return none
  | some f => fileread e f n

def sysWrite (p : P) (fd : Fin NOFILE) (src : List UInt8) : SysM P Bool := do
  match ← argfd p fd with
  | none => return false
  | some f => filewrite e f src

def sysClose (p : P) (fd : Fin NOFILE) : SysM P Bool := do
  match ← argfd p fd with
  | none => return false
  | some f => do
    setOfile p fd none
    fileclose e f
    return true

def sysChdir (p : P) (cwd : Ip) (path : List UInt8) : SysM P Bool := do
  match ← onIc (chdirInode e cwd path) with
  | none => return false
  | some ip => do
    modifyProc p fun q => { q with cwd := some ip }
    return true

/-- The allocator's answer: the page `a`, or none if it is in use. -/
def kalloc (a : ℕ) : SysM P (Option ℕ) := do
  let s ← get
  if (s.page a).InUse then return none
  else do
    modifyPage a fun x => { x with allocs := x.allocs + 1 }
    return some a

/-- The part of `pipealloc` that sets up the two files of a pipe. -/
def pipeFiles (a : ℕ) (f0 f1 : Fin NFILE) : SysM P Unit := do
  modifyPage a fun x =>
    { x with pipe := { x.pipe with readopen := true, writeopen := true, nwrite := 0, nread := 0 } }
  modifyFile f0 fun x => { x with type := .pipe, readable := true, writable := false, pipe := a }
  modifyFile f1 fun x => { x with type := .pipe, readable := false, writable := true, pipe := a }

/-- Make a pipe and its two files, with the page `a` if there is memory. -/
def pipealloc (a : Option ℕ) : SysM P (Option (Fin NFILE × Fin NFILE)) := do
  match ← filealloc with
  | none => return none
  | some f0 => do
    match ← filealloc with
    | none => do
      fileclose e f0
      return none
    | some f1 => do
      match ← (match a with | none => pure none | some a => kalloc a) with
      | none => do
        fileclose e f0
        fileclose e f1
        return none
      | some a => do
        pipeFiles a f0 f1
        return some (f0, f1)

/-- Make a pipe and two descriptors for it; `none` stands for -1. -/
def sysPipe (p : P) (a : Option ℕ) : SysM P (Option (Fin NOFILE × Fin NOFILE)) := do
  match ← pipealloc e a with
  | none => return none
  | some (rf, wf) => do
    match ← fdalloc p rf with
    | none => do
      fileclose e rf
      fileclose e wf
      return none
    | some fd0 => do
      match ← fdalloc p wf with
      | none => do
        setOfile p fd0 none
        fileclose e rf
        fileclose e wf
        return none
      | some fd1 => return some (fd0, fd1)

/-- The loop of `fork` over the descriptors. -/
def dupFiles (p q : P) : List (Fin NOFILE) → SysM P Unit
  | [] => return
  | fd :: fds => do
    match ← argfd p fd with
    | none => dupFiles p q fds
    | some f => do
      filedup f
      setOfile q fd (some f)
      dupFiles p q fds

/-- What `fork` does to files and working directory, for the child `q`. It fails if there is
no process free or no memory; here, if `q` is running. -/
def fork (p : P) (cwd : Ip) (q : P) : SysM P Bool := do
  let s ← get
  if (s.proc q).cwd ≠ none then return false
  else do
    dupFiles p q (List.finRange NOFILE)
    let ip ← onIc (idup cwd)
    modifyProc q fun x => { x with cwd := some ip }
    return true

/-- The loop of `exit` over the descriptors. -/
def closeFiles (p : P) : List (Fin NOFILE) → SysM P Unit
  | [] => return
  | fd :: fds => do
    match ← argfd p fd with
    | none => closeFiles p fds
    | some f => do
      fileclose e f
      setOfile p fd none
      closeFiles p fds

/-- What `exit` does to files and working directory. -/
def exit (initproc p : P) (cwd : Ip) : SysM P Unit :=
  if p = initproc then throw (.panic .initExiting)
  else do
    closeFiles e p (List.finRange NOFILE)
    onIc (iput e cwd)
    modifyProc p fun x => { x with cwd := none }

end Files

/-! ### The system -/

/-- A file system call with its arguments. -/
inductive Call (P : Type)
  | open (path : List UInt8) (omode : UInt32)
  | mkdir (path : List UInt8)
  | mknod (path : List UInt8) (major minor : Int16)
  | link (old new : List UInt8)
  | unlink (path : List UInt8)
  | chdir (path : List UInt8)
  | read (fd : Fin NOFILE) (n : Fin (2 ^ 31))
  | write (fd : Fin NOFILE) (src : List UInt8)
  | close (fd : Fin NOFILE)
  | dup (fd : Fin NOFILE)
  /-- The argument is the page that the allocator has for the pipe. -/
  | pipe (page : Option ℕ)
  | exec (path : List UInt8) (ok : Bool)
  | fork (child : P)
  | exit
  deriving DecidableEq

section System

variable {P : Type} [DecidableEq P] (e : Env) (initproc : P)

/-- A string argument ends at its first zero byte. -/
def cstr (s : List UInt8) : List UInt8 := s.takeWhile (· ≠ 0)

/-- Run a call of process `p`, whose working directory is `cwd`. -/
def call (p : P) (cwd : Ip) : Call P → SysM P Unit
  | .open path omode => do let _ ← sysOpen e p cwd (cstr path) omode
  | .mkdir path => do let _ ← onIc (sysMknod e cwd (cstr path) T_DIR 0 0)
  | .mknod path major minor => do let _ ← onIc (sysMknod e cwd (cstr path) T_DEV major minor)
  | .link old new => do let _ ← onIc (sysLink e cwd (cstr old) (cstr new))
  | .unlink path => do let _ ← onIc (sysUnlink e cwd (cstr path))
  | .chdir path => do let _ ← sysChdir e p cwd (cstr path)
  | .read fd n => do let _ ← sysRead e p fd n
  | .write fd src => do let _ ← sysWrite e p fd src
  | .close fd => do let _ ← sysClose e p fd
  | .dup fd => do let _ ← sysDup p fd
  | .pipe page => do let _ ← sysPipe e p page
  | .exec path ok => do let _ ← onIc (exec e cwd (cstr path) ok)
  | .fork child => do let _ ← fork p cwd child
  | .exit => exit e initproc p cwd

/-- The result of a call of a running process: a call that hangs never completes. -/
def next (s : Sys P) (l : P × Call P) : Outcome Panic (Sys P) :=
  match (s.proc l.1).cwd with
  | none => .blocked
  | some cwd =>
    match call e initproc l.1 cwd l.2 s with
    | .ok (_, t) => .ok t
    | .error (.panic p) => .panic p
    | .error .hang => .blocked

/-- A process makes a call, and the call completes. -/
def Step (s : Sys P) (l : P × Call P) (t : Sys P) : Prop := next e initproc s l = .ok t

/-- The first entry of the inode cache. -/
def firstIp : Ip := ⟨0, NINODE_pos⟩

/-- The state after `userinit`: the only reference is the working directory of the first
process, whose inode has not been read. -/
def boot (d : Disk) : Sys P where
  ic :=
    { disk := d
      icache := fun ip =>
        { inum := if ip = firstIp then ROOTINO else 0, ref := if ip = firstIp then 1 else 0,
          lock := false, valid := false, din := .blank 0 } }
  ftable _ := ⟨.none, 0, false, false, 0, firstIp, 0⟩
  page _ := ⟨⟨fun _ => 0, 0, 0, false, false⟩, 0, 0⟩
  proc p := ⟨if p = initproc then some firstIp else none, fun _ => none⟩

end System

end Xv6.Fs
