import Xv6.Param

/-!
# The on-disk format

The layout of a file system image: the superblock, the blocks that hold inodes and the
free map, the inode record and the bits of the free map, read from and written to the
bytes of disk blocks as `fs.h` lays them out.
-/

namespace Xv6.Fs

open Lib

/-- Inode number of the root directory. -/
def ROOTINO : ℕ := 1

/-- Direct block addresses in an inode. -/
def NDIRECT : ℕ := 12

/-- Block addresses in an indirect block. -/
def NINDIRECT : ℕ := BSIZE / 4

/-- Largest number of blocks of a file. -/
def MAXFILE : ℕ := NDIRECT + NINDIRECT

/-- Inodes per block. -/
def IPB : ℕ := BSIZE / 64

/-- Bitmap bits per block. -/
def BPB : ℕ := BSIZE * 8

/-- Length of a name in a directory entry. -/
def DIRSIZ : ℕ := 14

/-- `struct superblock`. -/
structure SuperBlock where
  size : ℕ
  nblocks : ℕ
  ninodes : ℕ
  nlog : ℕ
  logstart : ℕ
  inodestart : ℕ
  bmapstart : ℕ

namespace SuperBlock

variable (sb : SuperBlock)

/-- Block containing inode `i`. -/
def IBLOCK (i : ℕ) : ℕ := i / IPB + sb.inodestart

/-- Block of the free map containing the bit for block `b`. -/
def BBLOCK (b : ℕ) : ℕ := b / BPB + sb.bmapstart

/-- The blocks set aside for inodes. -/
def InodeBlock (b : ℕ) : Prop :=
  sb.inodestart ≤ b ∧ b < sb.inodestart + (sb.ninodes / IPB + 1)

/-- The blocks set aside for the free map. -/
def BitmapBlock (b : ℕ) : Prop :=
  sb.bmapstart ≤ b ∧ b < sb.bmapstart + (sb.size / BPB + 1)

/-- The blocks of the log. -/
def LogBlock (b : ℕ) : Prop := sb.logstart ≤ b ∧ b < sb.logstart + sb.nlog

/-- Boot block, superblock, log, inodes and free map. -/
def MetaBlock (b : ℕ) : Prop :=
  b < 2 ∨ sb.LogBlock b ∨ sb.InodeBlock b ∨ sb.BitmapBlock b

/-- The blocks that files and directories may use. -/
def DataBlock (b : ℕ) : Prop := b < sb.size ∧ ¬ sb.MetaBlock b

/-- The layout is consistent: inodes and free map do not overlap, block numbers fit the
`int`s of `balloc`, inode numbers the `ushort` of a directory entry, and there is an inode
for the root. -/
structure Ok : Prop where
  disjoint : ∀ b, sb.InodeBlock b → ¬ sb.BitmapBlock b
  size_lt : sb.size < 2 ^ 31
  ninodes_le : sb.ninodes ≤ 2 ^ 16
  root_lt : ROOTINO < sb.ninodes

instance (b : ℕ) : Decidable (sb.InodeBlock b) := inferInstanceAs (Decidable (_ ∧ _))
instance (b : ℕ) : Decidable (sb.BitmapBlock b) := inferInstanceAs (Decidable (_ ∧ _))
instance (b : ℕ) : Decidable (sb.LogBlock b) := inferInstanceAs (Decidable (_ ∧ _))
instance (b : ℕ) : Decidable (sb.MetaBlock b) := inferInstanceAs (Decidable (_ ∨ _ ∨ _ ∨ _))
instance (b : ℕ) : Decidable (sb.DataBlock b) := inferInstanceAs (Decidable (_ ∧ _))

variable {sb}

theorem inodeBlock_IBLOCK {i : ℕ} (hi : i < sb.ninodes) : sb.InodeBlock (sb.IBLOCK i) := by
  have hdiv : i / IPB ≤ sb.ninodes / IPB := Nat.div_le_div_right hi.le
  exact ⟨Nat.le_add_left _ _, by rw [IBLOCK, Nat.add_comm]; omega⟩

theorem bitmapBlock_BBLOCK {b : ℕ} (hb : b < sb.size) : sb.BitmapBlock (sb.BBLOCK b) := by
  have hdiv : b / BPB ≤ sb.size / BPB := Nat.div_le_div_right hb.le
  exact ⟨Nat.le_add_left _ _, by rw [BBLOCK, Nat.add_comm]; omega⟩

theorem DataBlock.not_inode {b : ℕ} (h : sb.DataBlock b) : ¬ sb.InodeBlock b :=
  fun hi => h.2 (.inr (.inr (.inl hi)))

theorem DataBlock.not_bitmap {b : ℕ} (h : sb.DataBlock b) : ¬ sb.BitmapBlock b :=
  fun hi => h.2 (.inr (.inr (.inr hi)))

theorem DataBlock.pos {b : ℕ} (h : sb.DataBlock b) : b ≠ 0 := by
  rintro rfl
  exact h.2 (.inl (by omega))

end SuperBlock

/-! ### Inode records -/

/-- `struct dinode`, and the part of `struct inode` that is a copy of it. -/
@[ext]
structure Dinode where
  type : Int16
  major : Int16
  minor : Int16
  nlink : Int16
  size : ℕ
  addrs : Fin (NDIRECT + 1) → ℕ

namespace Dinode

/-- `addrs[i]`. -/
def addr (ip : Dinode) (i : ℕ) : ℕ := if h : i < NDIRECT + 1 then ip.addrs ⟨i, h⟩ else 0

/-- Assign `addrs[i]`. -/
def setAddr (ip : Dinode) (i a : ℕ) : Dinode :=
  { ip with addrs := fun j => if j = i then a else ip.addrs j }

/-- An inode record of zeros but for its type. -/
def blank (type : Int16) : Dinode := ⟨type, 0, 0, 0, 0, fun _ => 0⟩

/-- The numbers fit their 32-bit fields. -/
def Fits (ip : Dinode) : Prop := ip.size < 256 ^ 4 ∧ ∀ i, ip.addrs i < 256 ^ 4

/-- A `short` stored in two bytes. -/
def shortOf (v : ℕ) : Int16 := (UInt16.ofNat v).toInt16

/-- Read the inode record at byte offset `o` of a block. -/
def read (blk : Block) (o : ℕ) : Dinode where
  type := shortOf (blk.readLE o 2)
  major := shortOf (blk.readLE (o + 2) 2)
  minor := shortOf (blk.readLE (o + 4) 2)
  nlink := shortOf (blk.readLE (o + 6) 2)
  size := blk.readLE (o + 8) 4
  addrs i := blk.readLE (o + 12 + 4 * i) 4

/-- Write an inode record at byte offset `o` of a block. -/
def write (ip : Dinode) (blk : Block) (o : ℕ) : Block :=
  (((((blk.writeLE o 2 ip.type.toUInt16.toNat).writeLE (o + 2) 2 ip.major.toUInt16.toNat).writeLE
    (o + 4) 2 ip.minor.toUInt16.toNat).writeLE (o + 6) 2 ip.nlink.toUInt16.toNat).writeLE
    (o + 8) 4 ip.size).writeWords (o + 12) (List.ofFn ip.addrs)

@[simp] theorem addr_setAddr_self (ip : Dinode) {i : ℕ} (hi : i < NDIRECT + 1) (a : ℕ) :
    (ip.setAddr i a).addr i = a := by
  simp [addr, setAddr, hi]

theorem addr_setAddr_of_ne (ip : Dinode) {i j : ℕ} (h : j ≠ i) (a : ℕ) :
    (ip.setAddr i a).addr j = ip.addr j := by
  unfold addr setAddr
  split_ifs <;> simp_all

@[simp] theorem setAddr_size (ip : Dinode) (i a : ℕ) : (ip.setAddr i a).size = ip.size := rfl

@[simp] theorem setAddr_type (ip : Dinode) (i a : ℕ) : (ip.setAddr i a).type = ip.type := rfl

theorem addr_of_lt (ip : Dinode) {i : ℕ} (hi : i < NDIRECT + 1) : ip.addr i = ip.addrs ⟨i, hi⟩ := by
  simp [addr, hi]

theorem shortOf_toNat (x : Int16) : shortOf (x.toUInt16.toNat % 256 ^ 2) = x := by
  rw [Nat.mod_eq_of_lt (lt_of_lt_of_eq x.toUInt16.toNat_lt (by norm_num)), shortOf]
  simp

/-- Reading back an inode record that was written. -/
theorem read_write_self {ip : Dinode} (hfit : ip.Fits) (blk : Block) {o : ℕ}
    (ho : o + 64 ≤ BSIZE) : read (ip.write blk o) o = ip := by
  have hlen : (List.ofFn ip.addrs).length = 13 := by rw [List.length_ofFn]; rfl
  have hbelow : ∀ pos len, pos + len ≤ o + 12 →
      (ip.write blk o).readLE pos len =
        (((((blk.writeLE o 2 ip.type.toUInt16.toNat).writeLE (o + 2) 2
          ip.major.toUInt16.toNat).writeLE (o + 4) 2 ip.minor.toUInt16.toNat).writeLE (o + 6) 2
          ip.nlink.toUInt16.toNat).writeLE (o + 8) 4 ip.size).readLE pos len := fun pos len h =>
    Bytes.readLE_writeWords_of_disjoint _ _ (.inl h)
  ext i
  · simp only [read, hbelow o 2 (by omega)]
    iterate 4 rw [Bytes.readLE_writeLE_of_disjoint _ _ (by omega)]
    rw [Bytes.readLE_writeLE_self _ _ (by omega), shortOf_toNat]
  · simp only [read, hbelow (o + 2) 2 (by omega)]
    iterate 3 rw [Bytes.readLE_writeLE_of_disjoint _ _ (by omega)]
    rw [Bytes.readLE_writeLE_self _ _ (by omega), shortOf_toNat]
  · simp only [read, hbelow (o + 4) 2 (by omega)]
    iterate 2 rw [Bytes.readLE_writeLE_of_disjoint _ _ (by omega)]
    rw [Bytes.readLE_writeLE_self _ _ (by omega), shortOf_toNat]
  · simp only [read, hbelow (o + 6) 2 (by omega)]
    rw [Bytes.readLE_writeLE_of_disjoint _ _ (by omega), Bytes.readLE_writeLE_self _ _ (by omega),
      shortOf_toNat]
  · simp only [read, hbelow (o + 8) 4 (by omega)]
    rw [Bytes.readLE_writeLE_self _ _ (by omega), Nat.mod_eq_of_lt hfit.1]
  · have hi : i.val < (List.ofFn ip.addrs).length := by
      rw [List.length_ofFn]
      exact i.isLt
    simp only [read, write]
    rw [Bytes.readLE_writeWords _ (by omega) hi, List.getElem_ofFn, Nat.mod_eq_of_lt (hfit.2 _)]

/-- Writing one inode record leaves a record elsewhere in the block alone. -/
theorem readLE_write_of_disjoint (ip : Dinode) (blk : Block) {o pos len : ℕ}
    (h : pos + len ≤ o ∨ o + 64 ≤ pos) : (ip.write blk o).readLE pos len = blk.readLE pos len := by
  have hlen : (List.ofFn ip.addrs).length = 13 := by rw [List.length_ofFn]; rfl
  rw [write, Bytes.readLE_writeWords_of_disjoint _ _ (by omega)]
  iterate 5 rw [Bytes.readLE_writeLE_of_disjoint _ _ (by omega)]

theorem read_write_of_disjoint (ip : Dinode) (blk : Block) {o o' : ℕ}
    (h : o' + 64 ≤ o ∨ o + 64 ≤ o') : read (ip.write blk o) o' = read blk o' := by
  ext i
  case addrs =>
    have := i.isLt
    simp only [NDIRECT] at this
    exact readLE_write_of_disjoint ip blk (by omega)
  all_goals
    simp only [read]
    rw [readLE_write_of_disjoint ip blk (by omega)]

end Dinode

section Accessors

variable (sb : SuperBlock)

/-- The inode record of inode number `i`. -/
def getDinode (d : Disk) (i : ℕ) : Dinode := Dinode.read (d (sb.IBLOCK i)) (64 * (i % IPB))

/-- Store the inode record of inode number `i`. -/
def putDinode (d : Disk) (i : ℕ) (ip : Dinode) : Disk :=
  Function.update d (sb.IBLOCK i) (ip.write (d (sb.IBLOCK i)) (64 * (i % IPB)))

variable {sb}

/-- An inode that was stored. -/
theorem getDinode_putDinode_self {d : Disk} {i : ℕ} {ip : Dinode} (hfit : ip.Fits) :
    getDinode sb (putDinode sb d i ip) i = ip := by
  have : i % IPB < 8 := Nat.mod_lt i (by decide)
  rw [getDinode, putDinode, Function.update_self, Dinode.read_write_self hfit]
  simp only [BSIZE]
  omega

/-- The other inodes are as they were. -/
theorem getDinode_putDinode_of_ne {d : Disk} {i j : ℕ} (ip : Dinode) (h : j ≠ i) :
    getDinode sb (putDinode sb d i ip) j = getDinode sb d j := by
  unfold getDinode putDinode
  by_cases hb : sb.IBLOCK j = sb.IBLOCK i
  · -- two records of one block lie at different places in it
    have hdiv : j / IPB = i / IPB := by
      unfold SuperBlock.IBLOCK at hb
      omega
    have hmod : j % IPB ≠ i % IPB := by
      intro hmod
      apply h
      rw [← Nat.div_add_mod j IPB, ← Nat.div_add_mod i IPB, hdiv, hmod]
    rw [hb, Function.update_self, Dinode.read_write_of_disjoint]
    omega
  · rw [Function.update_of_ne hb]

/-- The inode records do not depend on the blocks outside the inode area. -/
theorem getDinode_congr {d d' : Disk} {i : ℕ} (hi : i < sb.ninodes)
    (h : ∀ b, sb.InodeBlock b → d' b = d b) : getDinode sb d' i = getDinode sb d i := by
  rw [getDinode, getDinode, h _ (SuperBlock.inodeBlock_IBLOCK hi)]

theorem putDinode_of_ne {d : Disk} {i b : ℕ} (ip : Dinode) (hi : i < sb.ninodes)
    (hb : ¬ sb.InodeBlock b) : putDinode sb d i ip b = d b := by
  rw [putDinode, Function.update_of_ne]
  rintro rfl
  exact hb (SuperBlock.inodeBlock_IBLOCK hi)

/-! ### The free map -/

variable (sb)

/-- The bit of block `b` in the free map: set if the block is in use. -/
def getBit (d : Disk) (b : ℕ) : Bool := (d (sb.BBLOCK b)).testBit (b % BPB)

/-- Set or clear the bit of block `b` in the free map. -/
def putBit (d : Disk) (b : ℕ) (v : Bool) : Disk :=
  Function.update d (sb.BBLOCK b)
    (if v then (d (sb.BBLOCK b)).setBit (b % BPB) else (d (sb.BBLOCK b)).clearBit (b % BPB))

variable {sb}

/-- A bit of the free map that was stored. -/
theorem getBit_putBit (d : Disk) (b b' : ℕ) (v : Bool) :
    getBit sb (putBit sb d b v) b' = if b' = b then v else getBit sb d b' := by
  have hmod : b % BPB < 8 * BSIZE := by
    rw [Nat.mul_comm]
    exact Nat.mod_lt b (by decide)
  unfold getBit putBit
  by_cases hb : sb.BBLOCK b' = sb.BBLOCK b
  · have hdiv : b' / BPB = b / BPB := by
      unfold SuperBlock.BBLOCK at hb
      omega
    -- within one block of the map the bits differ as the block numbers do
    have hiff : b' % BPB = b % BPB ↔ b' = b := by
      constructor
      · intro h
        rw [← Nat.div_add_mod b' BPB, ← Nat.div_add_mod b BPB, hdiv, h]
      · intro h
        rw [h]
    rw [hb, Function.update_self]
    cases v with
    | true =>
      rw [if_pos rfl, Bytes.testBit_setBit _ hmod]
      by_cases h : b' = b <;> simp [hiff, h]
    | false =>
      rw [if_neg (by simp), Bytes.testBit_clearBit _ hmod]
      by_cases h : b' = b <;> simp [hiff, h]
  · have hne : b' ≠ b := fun h => hb (by rw [h])
    rw [Function.update_of_ne hb, if_neg hne]

/-- The free map does not depend on the blocks outside it. -/
theorem getBit_congr {d d' : Disk} {b : ℕ} (hb : b < sb.size)
    (h : ∀ c, sb.BitmapBlock c → d' c = d c) : getBit sb d' b = getBit sb d b := by
  rw [getBit, getBit, h _ (SuperBlock.bitmapBlock_BBLOCK hb)]

theorem putBit_of_ne {d : Disk} {b c : ℕ} (v : Bool) (hb : b < sb.size)
    (hc : ¬ sb.BitmapBlock c) : putBit sb d b v c = d c := by
  rw [putBit, Function.update_of_ne]
  rintro rfl
  exact hc (SuperBlock.bitmapBlock_BBLOCK hb)

/-! ### Indirect blocks -/

/-- Entry `j` of an indirect block. -/
def getWord (blk : Block) (j : ℕ) : ℕ := blk.readLE (4 * j) 4

/-- Assign entry `j` of an indirect block. -/
def putWord (blk : Block) (j v : ℕ) : Block := blk.writeLE (4 * j) 4 v

/-- An entry of an indirect block that was stored. -/
theorem getWord_putWord (blk : Block) {i j v : ℕ} (hi : i < NINDIRECT) (hv : v < 256 ^ 4) :
    getWord (putWord blk i v) j = if j = i then v else getWord blk j := by
  unfold getWord putWord
  split_ifs with h
  · subst h
    have : 4 * j + 4 ≤ BSIZE := by
      simp only [NINDIRECT, BSIZE] at hi ⊢
      omega
    rw [Bytes.readLE_writeLE_self _ _ this, Nat.mod_eq_of_lt hv]
  · rw [Bytes.readLE_writeLE_of_disjoint _ _ (by omega)]

@[simp] theorem getWord_zero (j : ℕ) : getWord (Bytes.zero BSIZE) j = 0 :=
  Bytes.readLE_zero _ _

end Accessors

end Xv6.Fs
