import Xv6.Lib.Bytes

/-!
# Kernel parameters

The constants of `param.h` and of the on-disk format in `fs.h`, under their source
names, and the type of a disk block.
-/

namespace Xv6

open Lib

/-- Maximum number of processes. -/
def NPROC : ℕ := 64

/-- Open files per process. -/
def NOFILE : ℕ := 16

/-- Open files per system. -/
def NFILE : ℕ := 100

/-- Maximum number of active inodes. -/
def NINODE : ℕ := 50

theorem NINODE_pos : 0 < NINODE := by decide

/-- Maximum major device number. -/
def NDEV : ℕ := 10

/-- Device number of the file system root disk. -/
def ROOTDEV : ℕ := 1

/-- Maximum number of blocks any file system operation writes. -/
def MAXOPBLOCKS : ℕ := 10

/-- Maximum number of data blocks in the on-disk log. -/
def LOGSIZE : ℕ := MAXOPBLOCKS * 3

/-- Size of the disk block cache. -/
def NBUF : ℕ := MAXOPBLOCKS * 3

instance : NeZero NBUF := ⟨by decide⟩

/-- Size of the file system in blocks. -/
def FSSIZE : ℕ := 1000

/-- Block size in bytes. -/
def BSIZE : ℕ := 512

/-- A disk block. -/
abbrev Block := Bytes BSIZE

/-- The contents of a disk, by block number. -/
abbrev Disk := ℕ → Block

end Xv6
