import Xv6.Fs.Contents
import Xv6.Log.Protocol

/-!
# Writing through the log

`balloc`, `bmap`, `iupdate`, `readi` and `writei` once more, now with the calls of `log_write` that
they make inside a transaction. A call of `log_write` panics if the header has no entry left, so
that a `writei` of many blocks does not come back, although each of its blocks could be written. As
long as the blocks of a call fit into the log, it does on the disk what it does without the log;
this is the case for each of the chunks in which `filewrite` writes. -/

namespace Xv6.Fs

open Lib
open Log (LogState)

/-- The log, and the disk as it is with the buffers of the transaction. -/
structure Tx where
  log : LogState
  disk : Disk

/-- Why a call inside a transaction does not come back. -/
inductive TxFault
  | fs (e : Fault)
  | log (p : Log.Panic)
  deriving DecidableEq

abbrev TxM := Prog TxFault Tx

/-- Run code that does not write to the log. -/
def onDisk {α : Type} (x : DiskM α) : TxM α :=
  zoom Tx.disk (fun d s => { s with disk := d }) (rethrow .fs x)

/-- `log_write` of block `b`. -/
def logWrite (b : ℕ) : TxM Unit := fun s =>
  match s.log.logWrite b with
  | .ok log => .ok ((), { s with log := log })
  | .error p => .error (.log p)

/-- Change the buffer of block `b` and pass it to `log_write`. -/
def change (b : ℕ) (x : DiskM Unit) : TxM Unit := do
  onDisk x
  logWrite b

namespace Logged

section Blocks

variable (sb : SuperBlock)

/-- Zero a block. -/
def bzero (bno : ℕ) : TxM Unit := change bno (Fs.bzero bno)

/-- Allocate a zeroed disk block. -/
def balloc : TxM ℕ := do
  let d ← onDisk get
  match freeBlock sb d (sb.size / BPB + 1) 0 with
  | some b =>
    change (sb.BBLOCK b) (set (putBit sb d b true))
    bzero b
    return b
  | none => throw (.fs (.panic .balloc))

/-- Copy the fields of inode `inum` to its record on disk. -/
def iupdate (inum : ℕ) (ip : Dinode) : TxM Unit := change (sb.IBLOCK inum) (Fs.iupdate sb inum ip)

/-- The part of `bmap` that allocates the indirect block if there is none. -/
def loadIndirect (ip : Dinode) : TxM Dinode :=
  if ip.addr NDIRECT = 0 then do
    let addr ← balloc sb
    return ip.setAddr NDIRECT addr
  else return ip

/-- The disk block address of block `bn` of inode `ip`, allocated if there is none. -/
def bmap (ip : Dinode) (bn : ℕ) : TxM (ℕ × Dinode) :=
  if bn < NDIRECT then
    if ip.addr bn = 0 then do
      let addr ← balloc sb
      return (addr, ip.setAddr bn addr)
    else return (ip.addr bn, ip)
  else if bn - NDIRECT < NINDIRECT then do
    let ip ← loadIndirect sb ip
    let d ← onDisk get
    if getWord (d (ip.addr NDIRECT)) (bn - NDIRECT) = 0 then do
      let addr ← balloc sb
      change (ip.addr NDIRECT) (modify fun d => Function.update d (ip.addr NDIRECT)
        (putWord (d (ip.addr NDIRECT)) (bn - NDIRECT) addr))
      return (addr, ip)
    else return (getWord (d (ip.addr NDIRECT)) (bn - NDIRECT), ip)
  else throw (.fs (.panic .bmap))

/-- The loop of `readi`. -/
def readLoop : ℕ → Dinode → ℕ → ℕ → TxM (List UInt8 × Dinode)
  | 0, ip, _, _ => return ([], ip)
  | fuel + 1, ip, off, n =>
    if n = 0 then return ([], ip)
    else do
      let (addr, ip) ← bmap sb ip (off / BSIZE)
      let bp := (← onDisk get) addr
      let m := min n (BSIZE - off % BSIZE)
      let (rest, ip) ← readLoop fuel ip (off + m) (n - m)
      return (bp.slice (off % BSIZE) m ++ rest, ip)

/-- The loop of `writei`. -/
def writeLoop : ℕ → Dinode → List UInt8 → ℕ → TxM Dinode
  | 0, ip, _, _ => return ip
  | fuel + 1, ip, src, off =>
    if src.length = 0 then return ip
    else do
      let (addr, ip) ← bmap sb ip (off / BSIZE)
      let m := min src.length (BSIZE - off % BSIZE)
      change addr (modify fun d =>
        Function.update d addr ((d addr).splice (off % BSIZE) (src.take m)))
      writeLoop fuel ip (src.drop m) (off + m)

end Blocks

section Contents

variable (e : Env)

/-- Read `n` bytes at offset `off` of an inode; `none` stands for -1. -/
def readi (ip : Dinode) (off n : ℕ) : TxM (Option (List UInt8) × Dinode) :=
  if ip.type = T_DEV then
    match e.driver ip.major with
    | some dev => return (dev.read n, ip)
    | none => return (none, ip)
  else if off > ip.size ∨ (off + n) % 2 ^ 32 < off then return (none, ip)
  else do
    let n := if (off + n) % 2 ^ 32 > ip.size then ip.size - off else n
    let (bytes, ip) ← readLoop e.sb n ip off n
    return (some bytes, ip)

/-- Write the bytes `src` at offset `off` of inode `inum`; `none` stands for -1. -/
def writei (inum : ℕ) (ip : Dinode) (src : List UInt8) (off : ℕ) : TxM (Option ℕ × Dinode) :=
  let n := src.length
  if ip.type = T_DEV then
    match e.driver ip.major with
    | some dev => return (dev.write src, ip)
    | none => return (none, ip)
  else if off > ip.size ∨ (off + n) % 2 ^ 32 < off then return (none, ip)
  else if (off + n) % 2 ^ 32 > MAXFILE * BSIZE then return (none, ip)
  else do
    let ip ← writeLoop e.sb n ip src off
    if n > 0 ∧ off + n > ip.size then do
      iupdate e.sb inum { ip with size := off + n }
      return (some n, { ip with size := off + n })
    else return (some n, ip)

end Contents

end Logged

/-! ### Room in the log -/

/-- Besides the blocks in `B`, which may be in the header already, the header has room for `k`
blocks and one more. -/
structure HasRoom (log : LogState) (B : Finset ℕ) (k : ℕ) : Prop where
  nodup : log.lh.Nodup
  outstanding : 1 ≤ log.outstanding
  header : (log.lh.toFinset ∪ B).card + k < LOGSIZE
  size : (log.lh.toFinset ∪ B).card + k + 1 < log.size

namespace HasRoom

variable {log : LogState} {B B' : Finset ℕ} {k k' b : ℕ}

theorem mono (h : HasRoom log B k) (hB : B' ⊆ B) (hk : k' ≤ k) : HasRoom log B' k' := by
  have hcard := Finset.card_le_card (Finset.union_subset_union_right (s := log.lh.toFinset) hB)
  have hheader := h.header
  have hsize := h.size
  exact ⟨h.nodup, h.outstanding, by omega, by omega⟩

/-- Room for one more block is room for the block `b`. -/
theorem insert (h : HasRoom log B (k + 1)) (b : ℕ) : HasRoom log (insert b B) k := by
  have hcard := Finset.card_insert_le b (log.lh.toFinset ∪ B)
  rw [← Finset.union_insert] at hcard
  have hheader := h.header
  have hsize := h.size
  exact ⟨h.nodup, h.outstanding, by omega, by omega⟩

/-- A block that there is room for is logged, and leaves room for the others. -/
theorem logWrite (h : HasRoom log B k) (hb : b ∈ B) :
    log.logWrite b = .ok (log.logAppend b) ∧ HasRoom (log.logAppend b) B k := by
  have hlen : log.lh.length ≤ (log.lh.toFinset ∪ B).card := by
    rw [← List.toFinset_card_of_nodup h.nodup]
    exact Finset.card_le_card Finset.subset_union_left
  have hheader := h.header
  have hsize := h.size
  have hsame : (LogState.absorb log.lh b).toFinset ∪ B = log.lh.toFinset ∪ B := by
    ext c
    simp only [Finset.mem_union, List.mem_toFinset, LogState.mem_absorb]
    constructor
    · rintro ((rfl | hc) | hc)
      · exact .inr hb
      · exact .inl hc
      · exact .inr hc
    · exact Or.imp_left .inr
  constructor
  · have hout := h.outstanding
    rw [LogState.logWrite, LogState.logTest, if_neg (by omega), if_neg (by omega)]
  · exact ⟨LogState.nodup_absorb b h.nodup, h.outstanding,
      hsame.symm ▸ h.header, hsame.symm ▸ h.size⟩

end HasRoom

/-! ### With and without the log -/

/-- From `s`, the program `x` does on the disk what `y` does there, and `Q` holds of its result and
of the log afterwards. -/
def Agrees {α : Type} (x : TxM α) (y : DiskM α) (s : Tx) (Q : α → LogState → Prop) : Prop :=
  Wp x s (fun a t => y s.disk = .ok (a, t.disk) ∧ Q a t.log)
    fun err => ∃ e, err = .fs e ∧ y s.disk = .error e

namespace Agrees

variable {α β : Type} {x : TxM α} {y : DiskM α} {f : α → TxM β} {g : α → DiskM β} {s : Tx}
  {Q Q' : α → LogState → Prop} {R : β → LogState → Prop} {B : Finset ℕ} {k b : ℕ}

theorem pure {a : α} (h : Q a s.log) : Agrees (pure a) (pure a) s Q := ⟨rfl, h⟩

theorem throw (e : Fault) : Agrees (throw (.fs e)) (throw e) s Q := ⟨e, rfl, rfl⟩

theorem post (h : Agrees x y s Q) (hQ : ∀ a log, Q a log → Q' a log) : Agrees x y s Q' :=
  Wp.post h fun a _ ht => ⟨ht.1, hQ a _ ht.2⟩

/-- One program after the other. -/
theorem bind (h : Agrees x y s Q) (hf : ∀ a t, y s.disk = .ok (a, t.disk) → Q a t.log →
    Agrees (f a) (g a) t R) : Agrees (x >>= f) (y >>= g) s R := by
  unfold Agrees
  rw [Wp.bind_iff]
  refine Wp.mono h (fun a t ⟨hrun, hQ⟩ => ?_) ?_
  · refine (hf a t hrun hQ).mono (fun b u ⟨hb, hR⟩ => ?_) ?_
    · exact ⟨(bind_run_ok hrun).trans hb, hR⟩
    · rintro _ ⟨e, rfl, he⟩
      exact ⟨e, rfl, (bind_run_ok hrun).trans he⟩
  · rintro _ ⟨e, rfl, he⟩
    exact ⟨e, rfl, bind_run_error he⟩

/-- The run with the log, from the run without. -/
theorem of_run {a : α} {d : Disk} (h : Agrees x y s Q) (hrun : y s.disk = .ok (a, d)) :
    ∃ t, x s = .ok (a, t) ∧ t.disk = d ∧ Q a t.log := by
  obtain ⟨a', t, hx, hy, hQ⟩ := Wp.exists_ok h fun err herr => by
    obtain ⟨e, -, he⟩ := herr
    exact absurd (hrun.symm.trans he) nofun
  obtain ⟨rfl, rfl⟩ := Prod.mk.inj (Except.ok.inj (hrun.symm.trans hy))
  exact ⟨t, hx, rfl, hQ⟩

/-- Two runs that are known. -/
theorem of_eq {a : α} {t : Tx} (hx : x s = .ok (a, t)) (hy : y s.disk = .ok (a, t.disk))
    (hQ : Q a t.log) : Agrees x y s Q :=
  (Wp.of_eq hx).mpr ⟨hy, hQ⟩

/-- Code that does not write to the log. -/
theorem onDisk (y : DiskM α) (s : Tx) : Agrees (onDisk y) y s fun _ log => log = s.log := by
  unfold Agrees Fs.onDisk
  rw [Wp.zoom_iff, Wp.rethrow_iff]
  unfold Wp
  split
  case h_1 a d hd => exact ⟨hd, rfl⟩
  case h_2 e he => exact ⟨e, rfl, he⟩

/-- A block among those that the log has room for. -/
theorem change {y : DiskM Unit} (h : HasRoom s.log B k) (hb : b ∈ B) :
    Agrees (change b y) y s fun _ log => HasRoom log B k := by
  unfold Agrees Fs.change
  rw [Wp.bind_iff]
  refine Wp.mono (onDisk y s) (fun a t ⟨hrun, hlog⟩ => ?_) fun _ => id
  obtain ⟨hok, hroom⟩ := h.logWrite hb
  have hwrite : logWrite b t = .ok ((), { t with log := t.log.logAppend b }) := by
    unfold logWrite
    rw [hlog, hok]
  rw [Wp.of_eq hwrite]
  exact ⟨hrun, by rw [hlog]; exact hroom⟩

end Agrees

/-! ### The routines -/

/-- The blocks of the free map. -/
def SuperBlock.bitmapBlocks (sb : SuperBlock) : Finset ℕ :=
  (Finset.range (sb.size / BPB + 1)).image (· + sb.bmapstart)

/-- The block with the bit of `b`. -/
theorem SuperBlock.BBLOCK_mem {sb : SuperBlock} {b : ℕ} (hb : b < sb.size) :
    sb.BBLOCK b ∈ sb.bitmapBlocks :=
  Finset.mem_image_of_mem _
    (Finset.mem_range.mpr (Nat.lt_succ_of_le (Nat.div_le_div_right hb.le)))

/-- The log has room for the indirect block of `ip`, which it has or may get, and for `k` blocks. -/
def Ready (log : LogState) (B : Finset ℕ) (ip : Dinode) (k : ℕ) : Prop :=
  ip.addr NDIRECT ≠ 0 ∧ HasRoom log (insert (ip.addr NDIRECT) B) k ∨
    ip.addr NDIRECT = 0 ∧ HasRoom log B (k + 1)

section Routines

variable {sb : SuperBlock} {ino : ℕ → Dinode} {s : Tx} {B : Finset ℕ} {n k : ℕ} {log : LogState}
  {ip : Dinode}

theorem Ready.hasRoom (h : Ready log B ip k) : HasRoom log B k := by
  rcases h with ⟨-, h⟩ | ⟨-, h⟩
  · exact h.mono (Finset.subset_insert ..) le_rfl
  · exact h.mono subset_rfl (Nat.le_succ k)

theorem Ready.mono {B' : Finset ℕ} (h : Ready log B ip k) (hB : B' ⊆ B) : Ready log B' ip k :=
  h.imp (fun h => ⟨h.1, h.2.mono (Finset.insert_subset_insert _ hB) le_rfl⟩)
    fun h => ⟨h.1, h.2.mono hB le_rfl⟩

theorem Ready.change {b : ℕ} {y : DiskM Unit} (h : Ready s.log B ip k) (hb : b ∈ B) :
    Agrees (change b y) y s fun _ log => Ready log B ip k := by
  rcases h with ⟨hptr, h⟩ | ⟨hptr, h⟩
  · exact (Agrees.change h (Finset.mem_insert_of_mem hb)).post fun _ _ hlog => .inl ⟨hptr, hlog⟩
  · exact (Agrees.change h hb).post fun _ _ hlog => .inr ⟨hptr, hlog⟩

/-- `balloc` logs a block of the free map and the block that it zeroes. -/
theorem balloc_agrees (hmap : sb.bitmapBlocks ⊆ B) (h : HasRoom s.log B (k + 1)) :
    Agrees (Logged.balloc sb) (balloc sb) s fun b log => HasRoom log (insert b B) k := by
  unfold Logged.balloc balloc
  refine (Agrees.onDisk get s).bind fun d t _ hlog => ?_
  cases hfree : freeBlock sb d (sb.size / BPB + 1) 0 with
  | none => exact .throw _
  | some b =>
    have hlt := (freeBlock_eq_some (k := 0) (by simpa using hfree)).2.1
    have hroom : HasRoom t.log (insert b B) k := by
      rw [hlog]
      exact h.insert b
    refine (Agrees.change hroom (Finset.mem_insert_of_mem (hmap (sb.BBLOCK_mem hlt)))).bind
      fun _ u _ hu => ?_
    exact (Agrees.change hu (Finset.mem_insert_self ..)).bind fun _ v _ hv => .pure hv

/-- The indirect block is allocated, or it is there. -/
theorem loadIndirect_agrees (hmap : sb.bitmapBlocks ⊆ B) (hgood : Good sb ino s.disk)
    (h : Ready s.log B (ino n) k) :
    Agrees (Logged.loadIndirect sb (ino n)) (loadIndirect sb (ino n)) s fun ip log =>
      ip.addr NDIRECT ≠ 0 ∧ HasRoom log (insert (ip.addr NDIRECT) B) k := by
  unfold Logged.loadIndirect loadIndirect
  rcases h with ⟨hptr, h⟩ | ⟨hptr, h⟩
  · rw [if_neg hptr, if_neg hptr]
    exact .pure ⟨hptr, h⟩
  · rw [if_pos hptr, if_pos hptr]
    refine (balloc_agrees hmap h).bind fun b t hrun ht => .pure ?_
    have hf := hgood.balloc_spec.of_ok hrun
    rw [Dinode.addr_setAddr_self _ NDIRECT_lt]
    exact ⟨(hgood.dataBlock_of_free hf.lt hf.free).pos, ht⟩

/-- `bmap` logs the free map, the indirect block, and the block that it returns. -/
theorem bmap_agrees (hmap : sb.bitmapBlocks ⊆ B) (hgood : Good sb ino s.disk)
    (h : Ready s.log B (ino n) (k + 1)) (bn : ℕ) :
    Agrees (Logged.bmap sb (ino n) bn) (bmap sb (ino n) bn) s fun r log =>
      Ready log (insert r.1 B) r.2 k := by
  -- room for one block more is room for the block that is returned
  have hinsert : ∀ {log : LogState} {ip : Dinode}, ip.addr NDIRECT ≠ 0 →
      HasRoom log (insert (ip.addr NDIRECT) B) (k + 1) → ∀ b, Ready log (insert b B) ip k :=
    fun hptr hroom b => .inl ⟨hptr, Finset.insert_comm b _ B ▸ hroom.insert b⟩
  unfold Logged.bmap bmap
  by_cases hbn : bn < NDIRECT
  · rw [if_pos hbn, if_pos hbn]
    by_cases hzero : (ino n).addr bn = 0
    · rw [if_pos hzero, if_pos hzero]
      have hsame : ∀ b, ((ino n).setAddr bn b).addr NDIRECT = (ino n).addr NDIRECT := fun b =>
        Dinode.addr_setAddr_of_ne _ (by omega) _
      rcases h with ⟨hptr, h⟩ | ⟨hptr, h⟩
      · refine (balloc_agrees (hmap.trans (Finset.subset_insert ..)) h).bind fun b t _ ht =>
          .pure (.inl ⟨by rwa [hsame], ?_⟩)
        dsimp only
        rw [hsame, Finset.insert_comm]
        exact ht
      · exact (balloc_agrees hmap h).bind fun b t _ ht => .pure (.inr ⟨by rwa [hsame], ht⟩)
    · rw [if_neg hzero, if_neg hzero]
      refine .pure ?_
      rcases h with ⟨hptr, h⟩ | ⟨hptr, h⟩
      · exact hinsert hptr h _
      · exact .inr ⟨hptr, h.insert _⟩
  · rw [if_neg hbn, if_neg hbn]
    by_cases hlt : bn - NDIRECT < NINDIRECT
    swap
    · rw [if_neg hlt, if_neg hlt]
      exact .throw _
    rw [if_pos hlt, if_pos hlt]
    refine (loadIndirect_agrees hmap hgood h).bind fun ip t _ ⟨hptr, hroom⟩ => ?_
    refine (Agrees.onDisk get t).bind fun d u _ hlog => ?_
    rw [← hlog] at hroom
    by_cases hword : getWord (d (ip.addr NDIRECT)) (bn - NDIRECT) = 0
    · rw [if_pos hword, if_pos hword]
      refine (balloc_agrees (hmap.trans (Finset.subset_insert ..)) hroom).bind fun b v _ hv => ?_
      refine (Agrees.change hv (Finset.mem_insert_of_mem (Finset.mem_insert_self ..))).bind
        fun _ w _ hw => .pure (.inl ⟨hptr, ?_⟩)
      dsimp only
      rw [Finset.insert_comm]
      exact hw
    · rw [if_neg hword, if_neg hword]
      exact .pure (hinsert hptr hroom _)

/-- The loop of `writei` logs one block for each pass, besides the free map and the indirect
block. -/
theorem writeLoop_agrees (hok : sb.Ok) (hmap : sb.bitmapBlocks ⊆ B) (hn : n < sb.ninodes)
    {fuel off : ℕ} {src : List UInt8} (hmax : off + src.length ≤ MAXFILE * BSIZE)
    (hgood : Good sb ino s.disk) (ht : (ino n).type ≠ 0) (h : Ready s.log B (ino n) k)
    (hk : 0 < src.length → off % BSIZE + src.length ≤ k * BSIZE) :
    Agrees (Logged.writeLoop sb fuel (ino n) src off) (writeLoop sb fuel (ino n) src off) s
      fun _ log => HasRoom log B 0 := by
  induction fuel generalizing ino s src off k with
  | zero => exact .pure (h.hasRoom.mono subset_rfl (Nat.zero_le k))
  | succ fuel ih =>
    unfold Logged.writeLoop writeLoop
    by_cases hlen : src.length = 0
    · rw [if_pos hlen, if_pos hlen]
      exact .pure (h.hasRoom.mono subset_rfl (Nat.zero_le k))
    rw [if_neg hlen, if_neg hlen]
    have hmaxbn : off / BSIZE < MAXFILE := div_lt_MAXFILE (by omega)
    have hmod := Nat.mod_lt off (show 0 < BSIZE by decide)
    have hpos := hk (by omega)
    obtain ⟨k, rfl⟩ : ∃ k', k = k' + 1 := Nat.exists_eq_succ_of_ne_zero (by rintro rfl; omega)
    refine (bmap_agrees hmap hgood h _).bind ?_
    rintro ⟨addr, ip⟩ t hrun hready
    obtain ⟨hg, haddr, hne⟩ := (bmap_spec hgood hok hn ht hmaxbn).of_ok hrun
    dsimp only at hg haddr hne hready ⊢
    subst haddr
    obtain ⟨m, hm⟩ : ∃ m, m = min src.length (BSIZE - off % BSIZE) := ⟨_, rfl⟩
    rw [← hm]
    have hw := hg.toExtends.write hn ht hmaxbn hne
      ((t.disk (blockAddr t.disk ip (off / BSIZE))).splice (off % BSIZE) (src.take m))
    have hself : Function.update ino n ip n = ip := Function.update_self ..
    have hdrop : (src.drop m).length = src.length - m := List.length_drop
    refine (hready.change (Finset.mem_insert_self ..)).bind fun _ u hu hlog => ?_
    have hdisk : u.disk = Function.update t.disk (blockAddr t.disk ip (off / BSIZE))
        ((t.disk (blockAddr t.disk ip (off / BSIZE))).splice (off % BSIZE) (src.take m)) :=
      (congrArg Prod.snd (Except.ok.inj hu)).symm
    rw [← hdisk] at hw
    have hrest := @ih (Function.update ino n ip) u k (off + m) (src.drop m) (by omega) hw.good
      (hw.type_ne_zero ht) (hself.symm ▸ hlog.mono (Finset.subset_insert ..)) fun hlt => by
        have hmod' : (off + m) % BSIZE = 0 := by
          unfold BSIZE at *
          omega
        rw [Nat.succ_mul] at hpos
        omega
    rwa [hself] at hrest

end Routines

/-! ### Reading and writing -/

section Contents

variable {e : Env} {s : Tx} {n off : ℕ}

/-- The blocks of the range from `off` on, an indirect block, the record of the inode and the free
map fit into the log. -/
def LogFits (sb : SuperBlock) (log : LogState) (off len : ℕ) : Prop :=
  1 ≤ log.outstanding ∧
    log.lh.length + (off % BSIZE + len + (BSIZE - 1)) / BSIZE + (sb.size / BPB + 1) + 2 <
      min LOGSIZE (log.size - 1)

instance (sb : SuperBlock) (log : LogState) (off len : ℕ) : Decidable (LogFits sb log off len) :=
  inferInstanceAs (Decidable (_ ∧ _))

theorem LogFits.hasRoom {sb : SuperBlock} {log : LogState} {len : ℕ} (h : LogFits sb log off len)
    (hnodup : log.lh.Nodup) (b : ℕ) : HasRoom log (insert b sb.bitmapBlocks)
      ((off % BSIZE + len + (BSIZE - 1)) / BSIZE + 1) := by
  have hmap : sb.bitmapBlocks.card ≤ sb.size / BPB + 1 :=
    Finset.card_image_le.trans_eq (Finset.card_range _)
  have hinsert := Finset.card_insert_le b sb.bitmapBlocks
  have hunion := Finset.card_union_le log.lh.toFinset (insert b sb.bitmapBlocks)
  rw [List.toFinset_card_of_nodup hnodup] at hunion
  obtain ⟨hout, hroom⟩ := h
  generalize (off % BSIZE + len + (BSIZE - 1)) / BSIZE = k at hroom ⊢
  generalize sb.size / BPB = j at hroom hmap
  exact ⟨hnodup, hout, by omega, by omega⟩

/-- With room in the log, `writei` does what it does without the log. -/
theorem writei_agrees (hok : e.sb.Ok) (h : Sound e.sb s.disk) (hn : n < e.sb.ninodes)
    (ht : (getDinode e.sb s.disk n).type ≠ 0) {src : List UInt8} (hlen : src.length < 2 ^ 31)
    (hnodup : s.log.lh.Nodup) (hfits : LogFits e.sb s.log off src.length) :
    Agrees (Logged.writei e n (getDinode e.sb s.disk n) src off)
      (writei e n (getDinode e.sb s.disk n) src off) s fun _ _ => True := by
  have hle := Good.size_le h n hn ht
  have hmaxfile : MAXFILE * BSIZE < 2 ^ 31 := by decide
  have hroom := hfits.hasRoom hnodup (e.sb.IBLOCK n)
  have hready : Ready s.log (insert (e.sb.IBLOCK n) e.sb.bitmapBlocks) (getDinode e.sb s.disk n)
      ((off % BSIZE + src.length + (BSIZE - 1)) / BSIZE) := by
    by_cases hptr : (getDinode e.sb s.disk n).addr NDIRECT = 0
    · exact .inr ⟨hptr, hroom⟩
    · exact .inl ⟨hptr, hroom.insert _⟩
  unfold Logged.writei writei
  dsimp only
  split_ifs with hdev hoff hbig
  · cases e.driver (getDinode e.sb s.disk n).major <;> exact .pure trivial
  · exact .pure trivial
  · exact .pure trivial
  · refine (writeLoop_agrees hok (Finset.subset_insert ..) hn (by omega)
      (show Good e.sb (getDinode e.sb s.disk) s.disk from h) ht hready fun _ => ?_).bind
      fun ip t _ hlog => ?_
    · unfold BSIZE
      omega
    · split_ifs
      · exact (Agrees.change hlog (Finset.mem_insert_self ..)).bind fun _ _ _ _ => .pure trivial
      · exact .pure trivial

end Contents

/-! ### A file system with one file -/

section OneFile

/-- A layout with 194 blocks for files. -/
def wideSb : SuperBlock := ⟨228, 194, 7, 30, 2, 32, 33⟩

theorem wideSb_ok : wideSb.Ok := by
  refine ⟨fun b hi hm => ?_, by decide, by decide, by decide⟩
  simp only [SuperBlock.InodeBlock, SuperBlock.BitmapBlock, wideSb, IPB, BPB, BSIZE] at hi hm
  omega

/-- The record of an empty file with one link. -/
def emptyFile : Dinode := { Dinode.blank T_FILE with nlink := 1 }

/-- A disk with an empty file, inode 2. -/
def fileDisk : Disk := putDinode wideSb (emptyDisk wideSb) 2 emptyFile

theorem getDinode_fileDisk : getDinode wideSb fileDisk 2 = emptyFile :=
  getDinode_putDinode_self (Dinode.fits_blank T_FILE)

/-- No file needs more blocks than the largest one. -/
theorem card_missingIn_le (d : Disk) (ip : Dinode) (off len : ℕ) :
    (missingIn d ip off len).card ≤ MAXFILE + 1 := by
  have hsub : missingIn d ip off len ⊆ insert .ptr (Finset.univ.image Slot.block) := fun sl _ => by
    cases sl with
    | ptr => exact Finset.mem_insert_self _ _
    | block bn => exact Finset.mem_insert_of_mem (Finset.mem_image_of_mem _ (Finset.mem_univ bn))
  calc (missingIn d ip off len).card
      ≤ (insert Slot.ptr (Finset.univ.image Slot.block)).card := Finset.card_le_card hsub
    _ ≤ (Finset.univ.image Slot.block).card + 1 := Finset.card_insert_le _ _
    _ ≤ MAXFILE + 1 := Nat.add_le_add_right (Finset.card_image_le.trans_eq (Finset.card_fin _)) 1

/-- There are blocks for the largest file. -/
theorem room_fileDisk (off len : ℕ) : Room wideSb fileDisk 2 off len := by
  refine (card_missingIn_le _ _ _ _).trans ?_
  have hfree : freeBlocks wideSb fileDisk =
      (Finset.range 228).filter fun b => ¬ wideSb.MetaBlock b := by
    refine Finset.filter_congr fun b hb => ?_
    have hb : b < wideSb.size := Finset.mem_range.mp hb
    have hsame : getBit wideSb fileDisk b = getBit wideSb (emptyDisk wideSb) b :=
      getBit_congr hb fun c hc =>
        putDinode_of_ne emptyFile (by decide) fun hi => wideSb_ok.disjoint c hi hc
    rw [hsame, getBit_emptyDisk hb, decide_eq_false_iff_not]
  rw [hfree]
  decide +kernel

end OneFile

section ByteArray

variable {e : Env} {s : Tx} {n : ℕ}

/-- A write that is refused. -/
theorem Logged.writei_eq_of_rejected {ip : Dinode} {src : List UInt8} {off : ℕ}
    (hdev : ip.type ≠ T_DEV) (hlen : src.length < 2 ^ 32)
    (hrej : WriteRejected ip off src.length) :
    Logged.writei e n ip src off = pure (none, ip) := by
  unfold Logged.writei
  rw [if_neg hdev]
  by_cases hfirst : off > ip.size ∨ (off + src.length) % 2 ^ 32 < off
  · rw [if_pos hfirst]
  · rw [if_neg hfirst, if_pos]
    unfold WriteRejected at hrej
    omega

/-- An empty log, in a transaction of one system call. -/
def oneOp : LogState := { LogState.init 30 with outstanding := 1 }

end ByteArray

end Xv6.Fs
