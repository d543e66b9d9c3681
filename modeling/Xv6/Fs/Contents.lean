import Xv6.Fs.Owner

/-!
# Inode contents as byte arrays

The contents of an inode are the bytes below its size, block by block through `bmap`'s
table. `readi` and `writei` read and write this byte array, whatever the alignment of the
range and whichever of its blocks are direct, indirect or not there yet, and leave the
contents of every other inode alone.
-/

namespace Xv6.Fs

open Lib

/-- Byte `k` of an inode whose block is there. -/
def byteAt (d : Disk) (ip : Dinode) (k : ℕ) : UInt8 :=
  (d (blockAddr d ip (k / BSIZE))).get (k % BSIZE)

/-- The contents of an inode. -/
def contents (d : Disk) (ip : Dinode) : List UInt8 := (List.range ip.size).map (byteAt d ip)

/-- The blocks that the `len` bytes from `off` on lie in. -/
def touched (off len : ℕ) : Finset ℕ :=
  (Finset.range MAXFILE).filter fun bn =>
    0 < len ∧ off < (bn + 1) * BSIZE ∧ bn * BSIZE < off + len

/-- The slots without a block that are needed for the `len` bytes from `off` on. -/
def missingIn (d : Disk) (ip : Dinode) (off len : ℕ) : Finset Slot :=
  (touched off len).biUnion (missing d ip)

@[simp] theorem contents_length (d : Disk) (ip : Dinode) : (contents d ip).length = ip.size := by
  simp [contents]

theorem getElem_contents (d : Disk) (ip : Dinode) {k : ℕ} (hk : k < (contents d ip).length) :
    (contents d ip)[k] = byteAt d ip k := by
  simp [contents]

section Arith

variable {off m k bn : ℕ}

theorem div_of_chunk (hk : off ≤ k) (hk' : k < off + m) (hm : m ≤ BSIZE - off % BSIZE) :
    k / BSIZE = off / BSIZE ∧ k % BSIZE = off % BSIZE + (k - off) := by
  simp only [BSIZE] at *
  omega

theorem chunk_of_div (hdiv : k / BSIZE = off / BSIZE) (hlo : off % BSIZE ≤ k % BSIZE)
    (hhi : k % BSIZE < off % BSIZE + m) : off ≤ k ∧ k < off + m := by
  simp only [BSIZE] at *
  omega

theorem div_lt_MAXFILE (h : k < MAXFILE * BSIZE) : k / BSIZE < MAXFILE :=
  Nat.div_lt_of_lt_mul (by rwa [Nat.mul_comm])

/-- The first block of a range, and the blocks of what is left of it. -/
theorem mem_touched_of_first {len : ℕ} (hlen : 0 < len) (hmax : off + len ≤ MAXFILE * BSIZE) :
    off / BSIZE ∈ touched off len := by
  have hlt : off / BSIZE < MAXFILE := div_lt_MAXFILE (by omega)
  simp only [touched, Finset.mem_filter, Finset.mem_range]
  refine ⟨hlt, ?_⟩
  simp only [BSIZE]
  omega

theorem touched_rest {len : ℕ} (hm : m = min len (BSIZE - off % BSIZE)) {bn : ℕ}
    (h : bn ∈ touched (off + m) (len - m)) : bn ∈ touched off len ∧ bn ≠ off / BSIZE := by
  simp only [touched, Finset.mem_filter, Finset.mem_range] at h ⊢
  obtain ⟨hbn, hpos, hlo, hhi⟩ := h
  simp only [BSIZE] at *
  exact ⟨⟨hbn, by omega, by omega, by omega⟩, by omega⟩

theorem touched_of_ne_first {len : ℕ} (hm : m = min len (BSIZE - off % BSIZE)) {bn : ℕ}
    (h : bn ∈ touched off len) (hne : bn ≠ off / BSIZE) : bn ∈ touched (off + m) (len - m) := by
  simp only [touched, Finset.mem_filter, Finset.mem_range] at h ⊢
  obtain ⟨hbn, hpos, hlo, hhi⟩ := h
  simp only [BSIZE] at *
  exact ⟨hbn, by omega, by omega, by omega⟩

/-- The blocks of a range and of the range after it. -/
theorem mem_touched_append {len : ℕ} :
    bn ∈ touched off (m + len) ↔ bn ∈ touched off m ∨ bn ∈ touched (off + m) len := by
  simp only [touched, Finset.mem_filter, Finset.mem_range]
  simp only [BSIZE]
  omega

end Arith

@[simp] theorem missingIn_zero (d : Disk) (ip : Dinode) (off : ℕ) : missingIn d ip off 0 = ∅ := by
  simp [missingIn, touched]

theorem slotAddr_of_mem_missingIn {d : Disk} {ip : Dinode} {off len : ℕ} {sl : Slot}
    (h : sl ∈ missingIn d ip off len) : slotAddr d ip sl = 0 := by
  obtain ⟨bn, -, hsl⟩ := Finset.mem_biUnion.mp h
  exact (Finset.mem_filter.mp hsl).2

section Leaf

variable {sb : SuperBlock} {ino : ℕ → Dinode} {d : Disk} {n bn : ℕ} (blk : Block)

/-- Writing a block of a file changes no slot of any inode. -/
theorem Good.slotAddr_write (h : Good sb ino d) (hn : n < sb.ninodes) (ht : (ino n).type ≠ 0)
    (hbn : bn < MAXFILE) {m : ℕ} (hm : m < sb.ninodes)
    (htm : (ino m).type ≠ 0) (sl : Slot) :
    slotAddr (Function.update d (blockAddr d (ino n) bn) blk) (ino m) sl =
      slotAddr d (ino m) sl := by
  refine slotAddr_congr (fun hp => Function.update_of_ne (fun heq => ?_) _ _) sl
  -- the indirect block of an inode is not a block of a file
  have hp' : slotAddr d (ino m) .ptr ≠ 0 := hp
  have heq' : slotAddr d (ino m) .ptr = slotAddr d (ino n) (.block ⟨bn, hbn⟩) := heq
  cases (h.inj hm htm hn ht hp' heq').2

theorem Good.dataBlock_blockAddr (h : Good sb ino d) (hn : n < sb.ninodes)
    (ht : (ino n).type ≠ 0) (hbn : bn < MAXFILE) (hne : blockAddr d (ino n) bn ≠ 0) :
    sb.DataBlock (blockAddr d (ino n) bn) :=
  h.data hn ht (show slotAddr d (ino n) (.block ⟨bn, hbn⟩) ≠ 0 from hne)

theorem Good.getBit_write (h : Good sb ino d) (hn : n < sb.ninodes) (ht : (ino n).type ≠ 0)
    (hbn : bn < MAXFILE) (hne : blockAddr d (ino n) bn ≠ 0) {b : ℕ} (hb : b < sb.size) :
    getBit sb (Function.update d (blockAddr d (ino n) bn) blk) b = getBit sb d b := by
  refine getBit_congr hb fun c hc => Function.update_of_ne ?_ _ _
  rintro rfl
  exact (h.dataBlock_blockAddr hn ht hbn hne).not_bitmap hc

theorem Good.write (h : Good sb ino d) (hn : n < sb.ninodes) (ht : (ino n).type ≠ 0)
    (hbn : bn < MAXFILE) (hne : blockAddr d (ino n) bn ≠ 0) :
    Good sb ino (Function.update d (blockAddr d (ino n) bn) blk) := by
  refine ⟨h.owns.congr (fun k => ?_) fun b hb => h.getBit_write blk hn ht hbn hne hb.1, ?_, ?_,
    h.size_le⟩
  · unfold ownerAddr
    split_ifs with hk
    · exact h.slotAddr_write blk hn ht hbn hk.1 hk.2 k.2
    · rfl
  · intro b hb hmeta
    rw [h.getBit_write blk hn ht hbn hne hb]
    exact h.metas b hb hmeta
  · intro i hi hti bn' hbn'
    change slotAddr _ (ino i) (.block ⟨bn', h.lt_MAXFILE hi hti hbn'⟩) ≠ 0
    rw [h.slotAddr_write blk hn ht hbn hi hti]
    exact h.present i hi hti bn' hbn'

theorem Good.freeBlocks_write (h : Good sb ino d) (hn : n < sb.ninodes) (ht : (ino n).type ≠ 0)
    (hbn : bn < MAXFILE) (hne : blockAddr d (ino n) bn ≠ 0) :
    freeBlocks sb (Function.update d (blockAddr d (ino n) bn) blk) = freeBlocks sb d := by
  refine Finset.filter_congr fun b hb => ?_
  rw [h.getBit_write blk hn ht hbn hne (Finset.mem_range.mp hb)]

theorem Good.getDinode_write (h : Good sb ino d) (hn : n < sb.ninodes) (ht : (ino n).type ≠ 0)
    (hbn : bn < MAXFILE) (hne : blockAddr d (ino n) bn ≠ 0) {i : ℕ} (hi : i < sb.ninodes) :
    getDinode sb (Function.update d (blockAddr d (ino n) bn) blk) i = getDinode sb d i := by
  refine getDinode_congr hi fun c hc => Function.update_of_ne ?_ _ _
  rintro rfl
  exact (h.dataBlock_blockAddr hn ht hbn hne).not_inode hc

/-- Writing one block of a file leaves the other blocks of all files alone. -/
theorem Good.block_write_of_ne (h : Good sb ino d) (hn : n < sb.ninodes) (ht : (ino n).type ≠ 0)
    (hbn : bn < MAXFILE) (hne : blockAddr d (ino n) bn ≠ 0) {m bn' : ℕ} (hm : m < sb.ninodes)
    (htm : (ino m).type ≠ 0) (hbn' : bn' < MAXFILE) (hne' : blockAddr d (ino m) bn' ≠ 0)
    (hdiff : (m, bn') ≠ (n, bn)) :
    Function.update d (blockAddr d (ino n) bn) blk (blockAddr d (ino m) bn') =
      d (blockAddr d (ino m) bn') := by
  refine Function.update_of_ne (fun heq => hdiff ?_) _ _
  have heq' : slotAddr d (ino m) (.block ⟨bn', hbn'⟩) = slotAddr d (ino n) (.block ⟨bn, hbn⟩) := heq
  obtain ⟨rfl, hsl⟩ := h.inj hm htm hn ht
    (show slotAddr d (ino m) (.block ⟨bn', hbn'⟩) ≠ 0 from hne') heq'
  simpa using hsl

end Leaf

/-! ### The loop of `writei` -/

/-- The bytes `src` were written at offset `off` of inode `n`, whose slots `S` were given
blocks for it: the bytes are there, and every other byte of a file is as it was. -/
structure Wrote (sb : SuperBlock) (ino : ℕ → Dinode) (n : ℕ) (d : Disk) (S : Finset Slot)
    (src : List UInt8) (off : ℕ) (ip' : Dinode) (d' : Disk) : Prop
    extends Extends sb ino n d S ip' d' where
  inside : ∀ k, off ≤ k → k < off + src.length →
    blockAddr d' ip' (k / BSIZE) ≠ 0 ∧ byteAt d' ip' k = src.getD (k - off) 0
  outside : ∀ m < sb.ninodes, (ino m).type ≠ 0 → ∀ k < MAXFILE * BSIZE,
    (m = n → ¬ (off ≤ k ∧ k < off + src.length)) → blockAddr d (ino m) (k / BSIZE) ≠ 0 →
    byteAt d' (Function.update ino n ip' m) k = byteAt d (ino m) k

section WriteLoop

variable {sb : SuperBlock} {ino : ℕ → Dinode} {d d' d₁ : Disk} {n off bn : ℕ} {ip' ip : Dinode}
  {S T : Finset Slot}

theorem Wrote.refl (h : Good sb ino d) : Wrote sb ino n d ∅ [] off (ino n) d where
  toExtends := (Grows.refl h).toExtends
  inside k hk hk' := by
    simp only [List.length_nil] at hk'
    omega
  outside m _ _ k _ _ _ := by rw [Function.update_eq_self]

/-- Writing into a block of the inode keeps its slots. -/
theorem Extends.write (h : Extends sb ino n d S ip d') (hn : n < sb.ninodes)
    (ht : (ino n).type ≠ 0) (hbn : bn < MAXFILE) (hne : blockAddr d' ip bn ≠ 0) (blk : Block) :
    Extends sb ino n d S ip (Function.update d' (blockAddr d' ip bn) blk) := by
  have hself : Function.update ino n ip n = ip := Function.update_self ..
  have ht' := h.type_ne_zero ht
  have hne' : blockAddr d' (Function.update ino n ip n) bn ≠ 0 := by rwa [hself]
  have hslot : ∀ m < sb.ninodes, (ino m).type ≠ 0 → ∀ sl,
      slotAddr (Function.update d' (blockAddr d' ip bn) blk) (Function.update ino n ip m) sl =
        slotAddr d' (Function.update ino n ip m) sl := by
    intro m hm htm sl
    have := h.good.slotAddr_write blk hn ht' hbn hm (h.type_ne_zero htm) sl
    rwa [hself] at this
  have hslotn : ∀ sl, slotAddr (Function.update d' (blockAddr d' ip bn) blk) ip sl =
      slotAddr d' ip sl := by
    intro sl
    have := hslot n hn ht sl
    rwa [hself] at this
  refine ⟨?_, h.head, ?_, ?_, h.absent, ?_, ?_, ?_⟩
  · have := h.good.write blk hn ht' hbn hne'
    rwa [hself] at this
  · intro i hi
    have := h.good.getDinode_write blk hn ht' hbn hne' hi
    rw [hself] at this
    rw [this, h.dinodes i hi]
  · intro m hm htm hmn sl
    have := hslot m hm htm sl
    rw [Function.update_of_ne hmn] at this
    rw [this, h.others m hm htm hmn]
  · intro sl hsl
    rw [hslotn]
    exact h.fresh sl hsl
  · intro sl hsl
    rw [hslotn]
    exact h.slots sl hsl
  · have := h.good.freeBlocks_write blk hn ht' hbn hne'
    rw [hself] at this
    rw [this, h.free]

/-- One pass of the loop: `bmap` gives the block, the chunk is copied into it. -/
theorem wrote_chunk (hn : n < sb.ninodes) (ht : (ino n).type ≠ 0)
    (chunk : List UInt8) (hmax : off / BSIZE < MAXFILE)
    (hfit : chunk.length ≤ BSIZE - off % BSIZE) (hg : Grows sb ino n d S ip d')
    (hne : blockAddr d' ip (off / BSIZE) ≠ 0) :
    Wrote sb ino n d S chunk off ip (Function.update d' (blockAddr d' ip (off / BSIZE))
      ((d' (blockAddr d' ip (off / BSIZE))).splice (off % BSIZE) chunk)) := by
  set a := blockAddr d' ip (off / BSIZE) with ha
  set blk := (d' a).splice (off % BSIZE) chunk with hblk
  have hself : Function.update ino n ip n = ip := Function.update_self ..
  have hofs : off % BSIZE < BSIZE := Nat.mod_lt _ (by decide)
  -- the block that is written holds contents, so that no address changes
  have hslot : ∀ m < sb.ninodes, (ino m).type ≠ 0 → ∀ bn' < MAXFILE,
      blockAddr (Function.update d' a blk) (Function.update ino n ip m) bn' =
        blockAddr d' (Function.update ino n ip m) bn' := by
    intro m hm htm bn' hbn'
    have := hg.good.slotAddr_write blk hn (hg.type_ne_zero ht) hmax hm (hg.type_ne_zero htm)
      (.block ⟨bn', hbn'⟩)
    rwa [hself] at this
  refine ⟨hg.toExtends.write hn ht hmax hne blk, ?_, ?_⟩
  · intro k hk hk'
    obtain ⟨hdiv, hmod⟩ := div_of_chunk hk hk' hfit
    have hblock : blockAddr (Function.update d' a blk) ip (k / BSIZE) = a := by
      have := hslot n hn ht _ hmax
      rw [hself] at this
      rw [hdiv, this]
    refine ⟨by rwa [hblock], ?_⟩
    rw [byteAt, hblock, Function.update_self, hblk, Bytes.get_splice _ _ _ (by omega), hmod,
      if_pos (by omega), Nat.add_sub_cancel_left]
  · intro m hm htm k hk hout hpres
    have hbn' : k / BSIZE < MAXFILE := div_lt_MAXFILE hk
    have hsame := hg.blockAddr_eq hm htm hbn' hpres
    rw [byteAt, hslot m hm htm _ hbn', hsame, byteAt]
    by_cases hdiff : (m, k / BSIZE) = (n, off / BSIZE)
    · -- the same block, outside the chunk
      obtain ⟨rfl, hdiv⟩ := Prod.mk.inj hdiff
      rw [hself] at hsame
      have haddr : blockAddr d (ino m) (k / BSIZE) = a := by rw [← hsame, hdiv]
      have hdata := hg.blocks m hm htm _ hbn' hpres
      rw [haddr] at hdata ⊢
      rw [Function.update_self, hblk, Bytes.get_splice_of_disjoint, hdata]
      by_contra hin
      push Not at hin
      exact hout rfl (chunk_of_div hdiv hin.1 hin.2)
    · have := hg.good.block_write_of_ne blk hn (hg.type_ne_zero ht) hmax (by rwa [hself]) hm
        (hg.type_ne_zero htm) hbn' (by rwa [hsame]) hdiff
      rw [hself, hsame] at this
      rw [this, hg.blocks m hm htm _ hbn' hpres]

/-- A chunk, then the rest of the bytes after it. -/
theorem Wrote.trans {chunk rest : List UInt8} (hn : n < sb.ninodes) (ht : (ino n).type ≠ 0)
    (hmax : off + (chunk ++ rest).length ≤ MAXFILE * BSIZE)
    (h₁ : Wrote sb ino n d S chunk off ip d')
    (h₂ : Wrote sb (Function.update ino n ip) n d' T rest (off + chunk.length) ip' d₁) :
    Wrote sb ino n d (S ∪ T) (chunk ++ rest) off ip' d₁ := by
  have hself : Function.update ino n ip n = ip := Function.update_self ..
  rw [List.length_append] at hmax
  -- the second round leaves alone what the first one wrote
  have hkeep : ∀ m < sb.ninodes, (ino m).type ≠ 0 → ∀ k < MAXFILE * BSIZE,
      (m = n → ¬ (off + chunk.length ≤ k ∧ k < off + chunk.length + rest.length)) →
      blockAddr d' (Function.update ino n ip m) (k / BSIZE) ≠ 0 →
      byteAt d₁ (Function.update ino n ip' m) k = byteAt d' (Function.update ino n ip m) k := by
    intro m hm htm k hk hout hpres
    have := h₂.outside m hm (h₁.type_ne_zero htm) k hk hout hpres
    rwa [Function.update_idem] at this
  refine ⟨h₁.toExtends.trans h₂.toExtends, ?_, ?_⟩
  · intro k hk hk'
    rw [List.length_append] at hk'
    by_cases hin : k < off + chunk.length
    · obtain ⟨hpres, hbyte⟩ := h₁.inside k hk hin
      have hbn' : k / BSIZE < MAXFILE := div_lt_MAXFILE (by omega)
      have haddr := h₂.blockAddr_eq hn (h₁.type_ne_zero ht) hbn' (by rwa [hself])
      rw [Function.update_self, hself] at haddr
      refine ⟨by rwa [haddr], ?_⟩
      have := hkeep n hn ht k (by omega) (fun _ => by omega) (by rwa [hself])
      rw [Function.update_self, hself] at this
      rw [this, hbyte, List.getD_append _ _ _ _ (by omega)]
    · obtain ⟨hpres, hbyte⟩ := h₂.inside k (by omega) (by omega)
      refine ⟨hpres, ?_⟩
      rw [hbyte, List.getD_append_right _ _ _ _ (by omega), Nat.sub_add_eq]
  · intro m hm htm k hk hout hpres
    rw [List.length_append] at hout
    have hbn' : k / BSIZE < MAXFILE := div_lt_MAXFILE hk
    have haddr := h₁.blockAddr_eq hm htm hbn' hpres
    rw [hkeep m hm htm k hk (fun h => by have := hout h; omega) (by rwa [haddr]),
      h₁.outside m hm htm k hk (fun h => by have := hout h; omega) hpres]

/-- The slots a range needs: those of its first block, then those of what is left. -/
theorem missingIn_step {len m : ℕ} (hlen : 0 < len) (hmax : off + len ≤ MAXFILE * BSIZE)
    (hm : m = min len (BSIZE - off % BSIZE))
    (h : Extends sb ino n d (missing d (ino n) (off / BSIZE)) ip d') :
    missingIn d (ino n) off len =
      missing d (ino n) (off / BSIZE) ∪ missingIn d' ip (off + m) (len - m) := by
  ext sl
  simp only [missingIn, Finset.mem_union, Finset.mem_biUnion]
  constructor
  · rintro ⟨bn, hbn, hsl⟩
    by_cases hS : sl ∈ missing d (ino n) (off / BSIZE)
    · exact .inl hS
    · -- the slot has no block after the first pass either
      have hne : bn ≠ off / BSIZE := by
        rintro rfl
        exact hS hsl
      obtain ⟨hneed, hzero⟩ := Finset.mem_filter.mp hsl
      refine .inr ⟨bn, touched_of_ne_first hm hbn hne, Finset.mem_filter.mpr ⟨hneed, ?_⟩⟩
      rw [h.slots sl hS, hzero]
  · rintro (hS | ⟨bn, hbn, hsl⟩)
    · exact ⟨_, mem_touched_of_first hlen hmax, hS⟩
    · obtain ⟨hneed, hzero⟩ := Finset.mem_filter.mp hsl
      refine ⟨bn, (touched_rest hm hbn).1, Finset.mem_filter.mpr ⟨hneed, ?_⟩⟩
      rw [← h.slots sl fun hS => h.fresh sl hS hzero, hzero]

/-- Once a range has its blocks, the slots that it and the range after it needed are those of the
second range. -/
theorem missingIn_append {len m : ℕ} (h : Extends sb ino n d (missingIn d (ino n) off m) ip d') :
    missingIn d (ino n) off (m + len) =
      missingIn d (ino n) off m ∪ missingIn d' ip (off + m) len := by
  ext sl
  rw [Finset.mem_union]
  constructor
  · intro hsl
    by_cases hS : sl ∈ missingIn d (ino n) off m
    · exact .inl hS
    · obtain ⟨bn, hbn, hmiss⟩ := Finset.mem_biUnion.mp hsl
      obtain ⟨hneed, hzero⟩ := Finset.mem_filter.mp hmiss
      rcases mem_touched_append.mp hbn with hfirst | hrest
      · exact absurd (Finset.mem_biUnion.mpr ⟨bn, hfirst, hmiss⟩) hS
      · refine .inr (Finset.mem_biUnion.mpr ⟨bn, hrest, Finset.mem_filter.mpr ⟨hneed, ?_⟩⟩)
        rw [h.slots sl hS, hzero]
  · rintro (hS | hT)
    · obtain ⟨bn, hbn, hmiss⟩ := Finset.mem_biUnion.mp hS
      exact Finset.mem_biUnion.mpr ⟨bn, mem_touched_append.mpr (.inl hbn), hmiss⟩
    · obtain ⟨bn, hbn, hmiss⟩ := Finset.mem_biUnion.mp hT
      obtain ⟨hneed, hzero⟩ := Finset.mem_filter.mp hmiss
      refine Finset.mem_biUnion.mpr ⟨bn, mem_touched_append.mpr (.inr hbn),
        Finset.mem_filter.mpr ⟨hneed, ?_⟩⟩
      rw [← h.slots sl fun hS => h.fresh sl hS hzero, hzero]

/-- Blocks that are free for two ranges: what the first one takes, the second one does not need. -/
theorem Extends.card_missingIn {len m : ℕ}
    (h : Extends sb ino n d (missingIn d (ino n) off m) ip d')
    (hroom : (missingIn d (ino n) off (m + len)).card ≤ (freeBlocks sb d).card) :
    (missingIn d' ip (off + m) len).card ≤ (freeBlocks sb d').card := by
  have hdisj : Disjoint (missingIn d (ino n) off m) (missingIn d' ip (off + m) len) := by
    rw [Finset.disjoint_left]
    intro sl hS hT
    exact h.fresh sl hS (slotAddr_of_mem_missingIn hT)
  have hfree := h.free
  rw [missingIn_append h, Finset.card_union_of_disjoint hdisj] at hroom
  omega

/-- The loop of `writei` writes its bytes, or runs out of blocks. -/
theorem writeLoop_spec (hok : sb.Ok) (hn : n < sb.ninodes) {fuel : ℕ} {src : List UInt8}
    (hfuel : src.length ≤ fuel) (hmax : off + src.length ≤ MAXFILE * BSIZE)
    (h : Good sb ino d) (ht : (ino n).type ≠ 0) :
    Wp (writeLoop sb fuel (ino n) src off) d
      (fun ip d' => Wrote sb ino n d (missingIn d (ino n) off src.length) src off ip d')
      (OutOf sb d (missingIn d (ino n) off src.length).card) := by
  -- each pass writes up to the end of a block, and the missing blocks split in the same way
  induction fuel generalizing ino d src off with
  | zero =>
    obtain rfl : src = [] := List.eq_nil_of_length_eq_zero (Nat.le_zero.mp hfuel)
    rw [List.length_nil, missingIn_zero]
    exact Wrote.refl h
  | succ fuel ih =>
    rw [writeLoop]
    split_ifs with hlen
    · obtain rfl : src = [] := List.eq_nil_of_length_eq_zero hlen
      rw [List.length_nil, missingIn_zero]
      exact Wrote.refl h
    have hmaxbn : off / BSIZE < MAXFILE := div_lt_MAXFILE (by omega)
    have hpos : 0 < src.length := Nat.pos_of_ne_zero hlen
    set m := min src.length (BSIZE - off % BSIZE) with hm
    have hmpos : 0 < m := Nat.lt_min.mpr ⟨hpos, Nat.sub_pos_of_lt (Nat.mod_lt _ (by decide))⟩
    have hmle : m ≤ src.length := Nat.min_le_left _ _
    have htake : (src.take m).length = m := List.length_take_of_le hmle
    have hdrop : (src.drop m).length = src.length - m := List.length_drop
    refine ((bmap_spec h hok hn ht hmaxbn).mono (fun _ _ => id) ?_).bind ?_
    · rintro e ⟨rfl, hlt⟩
      refine ⟨rfl, hlt.trans_le (Finset.card_le_card ?_)⟩
      exact Finset.subset_biUnion_of_mem (missing d (ino n)) (mem_touched_of_first hpos hmax)
    · rintro ⟨a, ip⟩ d' ⟨hg, haddr, hne⟩
      dsimp only at hg haddr hne
      subst haddr
      rw [Wp.bind_iff, Wp.modify_iff]
      have hw := wrote_chunk hn ht (src.take m) hmaxbn (by rw [htake]; omega) hg hne
      generalize Function.update d' (blockAddr d' ip (off / BSIZE)) _ = d₂ at hw ⊢
      have hself : Function.update ino n ip n = ip := Function.update_self ..
      have hstep := missingIn_step hpos hmax hm hw.toExtends
      have hcard := hw.free
      have hrest := @ih (Function.update ino n ip) _ (off + m) (src.drop m) (by omega) (by omega)
        hw.good (hw.type_ne_zero ht)
      rw [hself, hdrop] at hrest
      have hdisj : Disjoint (missing d (ino n) (off / BSIZE))
          (missingIn d₂ ip (off + m) (src.length - m)) := by
        rw [Finset.disjoint_left]
        intro sl hS hT
        exact hw.fresh sl hS (slotAddr_of_mem_missingIn hT)
      rw [hstep]
      refine hrest.mono (fun ip' d₁ hw' => ?_) ?_
      · have := hw.trans hn ht (by rwa [List.take_append_drop]) (by rwa [htake])
        rwa [List.take_append_drop] at this
      · rintro e ⟨rfl, hlt⟩
        refine ⟨rfl, ?_⟩
        rw [Finset.card_union_of_disjoint hdisj]
        omega

end WriteLoop

/-! ### Inode records on disk -/

/-- A disk whose own inode records account for its blocks. -/
def Sound (sb : SuperBlock) (d : Disk) : Prop := Good sb (getDinode sb d) d

section Records

variable {sb : SuperBlock} {ino ino' : ℕ → Dinode} {d d' : Disk} {n m : ℕ} {ip : Dinode}

/-- The slots of an inode do not depend on the metadata. -/
theorem Good.slotAddr_eq (h : Good sb ino d) (hd : ∀ b, sb.DataBlock b → d' b = d b)
    (hm : m < sb.ninodes) (ht : (ino m).type ≠ 0) (sl : Slot) :
    slotAddr d' (ino m) sl = slotAddr d (ino m) sl := by
  refine slotAddr_congr (fun hp => hd _ ?_) sl
  exact h.data hm ht (show slotAddr d (ino m) .ptr ≠ 0 from hp)

theorem Good.congr (h : Good sb ino d) (hok : sb.Ok) (hino : ∀ i < sb.ninodes, ino' i = ino i)
    (hd : ∀ b, ¬ sb.InodeBlock b → d' b = d b) : Good sb ino' d' := by
  have hbit : ∀ b < sb.size, getBit sb d' b = getBit sb d b := fun b hb =>
    getBit_congr hb fun c hc => hd c fun hi => hok.disjoint c hi hc
  have hdata : ∀ b, sb.DataBlock b → d' b = d b := fun b hb => hd b hb.not_inode
  refine ⟨h.owns.congr (fun k => ?_) fun b hb => hbit b hb.1, ?_, ?_, ?_⟩
  · unfold ownerAddr
    by_cases hk : k.1 < sb.ninodes
    · rw [hino k.1 hk]
      split_ifs with hk'
      · exact h.slotAddr_eq hdata hk hk'.2 k.2
      · rfl
    · rw [if_neg fun h => hk h.1, if_neg fun h => hk h.1]
  · intro b hb hmeta
    rw [hbit b hb]
    exact h.metas b hb hmeta
  · intro i hi hti bn hbn
    rw [hino i hi] at hti hbn ⊢
    change slotAddr d' (ino i) (.block ⟨bn, h.lt_MAXFILE hi hti hbn⟩) ≠ 0
    rw [h.slotAddr_eq hdata hi hti]
    exact h.present i hi hti bn hbn
  · intro i hi hti
    rw [hino i hi] at hti ⊢
    exact h.size_le i hi hti

/-- The bytes of an inode do not depend on the metadata. -/
theorem Good.contents_eq (h : Good sb ino d) (hd : ∀ b, sb.DataBlock b → d' b = d b)
    (hm : m < sb.ninodes) (ht : (ino m).type ≠ 0) :
    contents d' (ino m) = contents d (ino m) := by
  refine List.map_congr_left fun k hk => ?_
  rw [List.mem_range] at hk
  have hk' : k / BSIZE * BSIZE < (ino m).size := lt_of_le_of_lt (Nat.div_mul_le_self _ _) hk
  have hbn : k / BSIZE < MAXFILE := h.lt_MAXFILE hm ht hk'
  have hpres := h.present m hm ht _ hk'
  have hslot : blockAddr d' (ino m) (k / BSIZE) = blockAddr d (ino m) (k / BSIZE) :=
    h.slotAddr_eq hd hm ht (.block ⟨k / BSIZE, hbn⟩)
  rw [byteAt, byteAt, hslot, hd _ (h.dataBlock_blockAddr hm ht hbn hpres)]

/-- Change the fields of an allocated inode other than its block addresses. -/
theorem Good.set_head (h : Good sb ino d) (ip : Dinode) (ht : (ino n).type ≠ 0)
    (haddrs : ip.addrs = (ino n).addrs) (htype : ip.type ≠ 0)
    (hpresent : ∀ bn, bn * BSIZE < ip.size → blockAddr d (ino n) bn ≠ 0)
    (hsize : ip.size ≤ MAXFILE * BSIZE) : Good sb (Function.update ino n ip) d := by
  have haddr : ∀ i, ip.addr i = (ino n).addr i := fun i => by
    unfold Dinode.addr
    rw [haddrs]
  have hblock : ∀ bn, blockAddr d ip bn = blockAddr d (ino n) bn := fun bn => by
    simp only [blockAddr, haddr]
  refine ⟨h.owns.congr (fun k => ?_) fun _ _ => rfl, h.metas, ?_, ?_⟩
  · unfold ownerAddr
    by_cases hk : k.1 = n
    · rw [hk, Function.update_self]
      simp only [ne_eq, htype, ht, not_false_eq_true, and_true]
      split_ifs with hn
      · cases k.2 with
        | ptr => exact haddr NDIRECT
        | block bn => exact hblock bn
      · rfl
    · rw [Function.update_of_ne hk]
  · intro i hi hti bn hbn
    by_cases hin : i = n
    · subst hin
      rw [Function.update_self] at hbn ⊢
      rw [hblock]
      exact hpresent bn hbn
    · rw [Function.update_of_ne hin] at hti hbn ⊢
      exact h.present i hi hti bn hbn
  · intro i hi hti
    by_cases hin : i = n
    · subst hin
      rwa [Function.update_self]
    · rw [Function.update_of_ne hin] at hti ⊢
      exact h.size_le i hi hti

/-- The numbers in the record of an allocated inode fit their fields. -/
theorem Good.fits (h : Good sb ino d) (hok : sb.Ok) (hn : n < sb.ninodes)
    (ht : (ino n).type ≠ 0) : (ino n).Fits := by
  have hdata : ∀ sl, slotAddr d (ino n) sl < 256 ^ 4 := by
    intro sl
    by_cases hsl : slotAddr d (ino n) sl = 0
    · rw [hsl]
      norm_num
    · have := (h.data hn ht hsl).1
      have := hok.size_lt
      omega
  have hsize := h.size_le n hn ht
  refine ⟨lt_of_le_of_lt hsize (by decide), fun i => ?_⟩
  rw [← Dinode.addr_of_lt _ i.isLt]
  by_cases hi : i.val < NDIRECT
  · have hmax : i.val < MAXFILE := Nat.lt_add_right _ hi
    have := hdata (.block ⟨i.val, hmax⟩)
    simpa [slotAddr, blockAddr, hi] using this
  · have hlast : i.val = NDIRECT := by
      have := i.isLt
      omega
    rw [hlast]
    exact hdata .ptr

theorem getDinode_putDinode (hfit : ip.Fits) (i : ℕ) :
    getDinode sb (putDinode sb d n ip) i = Function.update (getDinode sb d) n ip i := by
  by_cases hi : i = n
  · subst hi
    rw [getDinode_putDinode_self hfit, Function.update_self]
  · rw [getDinode_putDinode_of_ne _ hi, Function.update_of_ne hi]

/-- Copying the record of an inode to disk: the disk now accounts for its own blocks. -/
theorem Good.sound_putDinode (h : Good sb (Function.update (getDinode sb d) n ip) d)
    (hok : sb.Ok) (hn : n < sb.ninodes) (hfit : ip.Fits) : Sound sb (putDinode sb d n ip) :=
  h.congr hok (fun i _ => getDinode_putDinode hfit i) fun _ hb => putDinode_of_ne _ hn hb

/-- Replace the record of an inode that owns no block by one without blocks: `ialloc` takes a
free inode, `iput` frees a truncated one. -/
theorem Good.set_empty (h : Good sb ino d) (hnone : ∀ sl, ownerAddr sb ino d (n, sl) = 0)
    (haddrs : ∀ i, ip.addrs i = 0) (hsize : ip.size = 0) :
    Good sb (Function.update ino n ip) d := by
  have haddr : ∀ i, ip.addr i = 0 := fun i => by
    unfold Dinode.addr
    split_ifs
    · exact haddrs _
    · rfl
  have hslot : ∀ sl, slotAddr d ip sl = 0 := fun sl => by
    cases sl with
    | ptr => exact haddr _
    | block bn => simp [slotAddr, blockAddr, haddr]
  refine ⟨h.owns.congr (fun k => ?_) fun _ _ => rfl, h.metas, ?_, ?_⟩
  · obtain ⟨m, sl⟩ := k
    by_cases hk : m = n
    · subst hk
      rw [hnone]
      unfold ownerAddr
      rw [Function.update_self, hslot, ite_self]
    · unfold ownerAddr
      rw [Function.update_of_ne hk]
  · intro i hi hti bn hbn
    by_cases hin : i = n
    · subst hin
      rw [Function.update_self, hsize] at hbn
      omega
    · rw [Function.update_of_ne hin] at hti hbn ⊢
      exact h.present i hi hti bn hbn
  · intro i hi hti
    by_cases hin : i = n
    · subst hin
      rw [Function.update_self, hsize]
      exact Nat.zero_le _
    · rw [Function.update_of_ne hin] at hti ⊢
      exact h.size_le i hi hti

theorem Dinode.fits_blank (type : Int16) : (Dinode.blank type).Fits :=
  ⟨by simp [blank], fun _ => by simp [blank]⟩

/-- Taking a free inode. -/
theorem Sound.putDinode_empty (h : Sound sb d) (hok : sb.Ok) (hn : n < sb.ninodes)
    (hfree : (getDinode sb d n).type = 0) (haddrs : ∀ i, ip.addrs i = 0) (hsize : ip.size = 0) :
    Sound sb (putDinode sb d n ip) := by
  refine (h.set_empty (fun sl => ?_) haddrs hsize).sound_putDinode hok hn ⟨?_, fun i => ?_⟩
  · exact if_neg fun hk => hk.2 hfree
  · rw [hsize]
    decide
  · rw [haddrs]
    decide

/-! ### A disk without files -/

/-- A disk with no inode in use: the metadata is marked in the free map, all else is zero. -/
def emptyDisk (sb : SuperBlock) : Disk :=
  (List.range sb.size).foldl (fun d b => if sb.MetaBlock b then putBit sb d b true else d)
    fun _ => Bytes.zero BSIZE

theorem getBit_emptyDisk {b : ℕ} (hb : b < sb.size) :
    getBit sb (emptyDisk sb) b = decide (sb.MetaBlock b) := by
  have hall : ∀ k, getBit sb ((List.range k).foldl
      (fun d b => if sb.MetaBlock b then putBit sb d b true else d) fun _ => Bytes.zero BSIZE) b =
      decide (sb.MetaBlock b ∧ b < k) := by
    intro k
    induction k with
    | zero => simp [getBit, Bytes.testBit]
    | succ k ih =>
      rw [List.range_succ, List.foldl_append, List.foldl_cons, List.foldl_nil]
      split_ifs with hmeta
      · rw [getBit_putBit, ih]
        split_ifs with hbk
        · simp [hbk, hmeta]
        · rw [decide_eq_decide]
          exact and_congr_right fun _ => by omega
      · rw [ih, decide_eq_decide]
        constructor
        · rintro ⟨h, hlt⟩
          exact ⟨h, by omega⟩
        · rintro ⟨h, hlt⟩
          refine ⟨h, lt_of_le_of_ne (Nat.lt_succ_iff.mp hlt) ?_⟩
          rintro rfl
          exact hmeta h
  rw [emptyDisk, hall sb.size]
  simp [hb]

theorem emptyDisk_of_not_bitmap {b : ℕ} (hb : ¬ sb.BitmapBlock b) :
    emptyDisk sb b = Bytes.zero BSIZE := by
  have hall : ∀ l : List ℕ, (∀ c ∈ l, c < sb.size) → ∀ d : Disk, d b = Bytes.zero BSIZE →
      l.foldl (fun d b => if sb.MetaBlock b then putBit sb d b true else d) d b =
        Bytes.zero BSIZE := by
    intro l
    induction l with
    | nil => exact fun _ _ h => h
    | cons c l ih =>
      intro hl d hd
      refine ih (fun x hx => hl x (List.mem_cons_of_mem _ hx)) _ ?_
      dsimp only
      split_ifs
      · rw [putBit_of_ne _ (hl c List.mem_cons_self) hb, hd]
      · exact hd
  exact hall _ (fun c hc => List.mem_range.mp hc) _ rfl

theorem type_emptyDisk (hok : sb.Ok) (hn : n < sb.ninodes) :
    (getDinode sb (emptyDisk sb) n).type = 0 := by
  rw [getDinode, emptyDisk_of_not_bitmap (hok.disjoint _ (SuperBlock.inodeBlock_IBLOCK hn))]
  simp [Dinode.read, Dinode.shortOf]

/-- Without an inode in use the free map marks the metadata only. -/
theorem sound_of_empty (hfree : ∀ i < sb.ninodes, (getDinode sb d i).type = 0)
    (hbits : ∀ b < sb.size, getBit sb d b = decide (sb.MetaBlock b)) : Sound sb d := by
  have hnone : ∀ k, ownerAddr sb (getDinode sb d) d k = 0 :=
    fun k => if_neg fun hk => hk.2 (hfree k.1 hk.1)
  refine ⟨⟨fun b hb => hb.pos, fun k hk => absurd (hnone k) hk,
    fun k _ hk => absurd (hnone k) hk, fun b hb => ?_⟩, fun b hb hmeta => ?_,
    fun i hi ht => absurd (hfree i hi) ht, fun i hi ht => absurd (hfree i hi) ht⟩
  · rw [hbits b hb.1, decide_eq_true_iff]
    constructor
    · exact fun hmeta => absurd hmeta hb.2
    · rintro ⟨k, hk⟩
      rw [hnone k] at hk
      exact absurd hk.symm hb.pos
  · rw [hbits b hb, decide_eq_true_iff]
    exact hmeta

theorem sound_emptyDisk (hok : sb.Ok) : Sound sb (emptyDisk sb) :=
  sound_of_empty (fun _ hi => type_emptyDisk hok hi) fun _ hb => getBit_emptyDisk hb

end Records

/-! ### Reading -/

section Read

variable {sb : SuperBlock} {ino : ℕ → Dinode} {d : Disk} {n off len : ℕ}

/-- Below the size of an inode nothing is missing. -/
theorem Good.missing_eq_empty (h : Good sb ino d) (hn : n < sb.ninodes) (ht : (ino n).type ≠ 0)
    {bn : ℕ} (hbn : bn * BSIZE < (ino n).size) : missing d (ino n) bn = ∅ := by
  have hpres := h.present n hn ht bn hbn
  rw [missing, Finset.filter_eq_empty_iff]
  intro sl hsl
  unfold needs at hsl
  split_ifs at hsl with hmax hdir
  · rw [Finset.mem_singleton.mp hsl]
    exact hpres
  · rcases Finset.mem_insert.mp hsl with rfl | hsl
    · -- an indirect block is only found through the pointer
      intro hp
      exact hpres (by rw [blockAddr, if_neg hdir, if_pos (show (ino n).addr NDIRECT = 0 from hp)])
    · rw [Finset.mem_singleton.mp hsl]
      exact hpres
  · simp at hsl

theorem Good.missingIn_eq_empty (h : Good sb ino d) (hn : n < sb.ninodes) (ht : (ino n).type ≠ 0)
    (hlen : off + len ≤ (ino n).size) : missingIn d (ino n) off len = ∅ := by
  rw [Finset.eq_empty_iff_forall_notMem]
  intro sl hsl
  obtain ⟨bn, hbn, hmiss⟩ := Finset.mem_biUnion.mp hsl
  simp only [touched, Finset.mem_filter] at hbn
  rw [h.missing_eq_empty hn ht (by omega)] at hmiss
  exact Finset.notMem_empty sl hmiss

theorem not_outOf_zero {e : Fault} : ¬ OutOf sb d 0 e := fun h => Nat.not_lt_zero _ h.2

/-- Part of one block as part of the contents. -/
theorem slice_eq_contents {ip : Dinode} {m : ℕ} (hm : m ≤ BSIZE - off % BSIZE)
    (hlen : off + m ≤ ip.size) :
    (d (blockAddr d ip (off / BSIZE))).slice (off % BSIZE) m =
      ((contents d ip).drop off).take m := by
  refine List.ext_getElem ?_ fun k hk hk' => ?_
  · rw [Bytes.slice_length, List.length_take, List.length_drop, contents_length]
    omega
  · rw [Bytes.slice_length] at hk
    obtain ⟨hdiv, hmod⟩ := div_of_chunk (k := off + k) (Nat.le_add_right _ _)
      (Nat.add_lt_add_left hk _) hm
    rw [List.getElem_take, List.getElem_drop, getElem_contents, byteAt, hdiv, hmod,
      Nat.add_sub_cancel_left]
    simp [Bytes.slice]

/-- The loop of `readi` below the size of the inode: the bytes, and nothing has changed. -/
theorem readLoop_spec (h : Good sb ino d) (hok : sb.Ok) (hn : n < sb.ninodes)
    (ht : (ino n).type ≠ 0) {fuel : ℕ} (hfuel : len ≤ fuel) (hlen : off + len ≤ (ino n).size) :
    Wp (readLoop sb fuel (ino n) off len) d
      (fun r d' => r = (((contents d (ino n)).drop off).take len, ino n) ∧ d' = d)
      fun _ => False := by
  induction fuel generalizing off len with
  | zero =>
    obtain rfl := Nat.le_zero.mp hfuel
    exact ⟨by simp, rfl⟩
  | succ fuel ih =>
    rw [readLoop]
    split_ifs with hzero
    · subst hzero
      exact ⟨by simp, rfl⟩
    have hbn : off / BSIZE * BSIZE < (ino n).size := by
      have := Nat.div_mul_le_self off BSIZE
      omega
    set m := min len (BSIZE - off % BSIZE) with hm
    have hmpos : 0 < m :=
      Nat.lt_min.mpr ⟨Nat.pos_of_ne_zero hzero, Nat.sub_pos_of_lt (Nat.mod_lt _ (by decide))⟩
    have hspec := bmap_spec h hok hn ht (h.lt_MAXFILE hn ht hbn)
    rw [h.missing_eq_empty hn ht hbn, Finset.card_empty] at hspec
    refine (hspec.mono (fun _ _ => id) fun _ => not_outOf_zero).bind ?_
    rintro ⟨a, ip⟩ d' ⟨hg, haddr, -⟩
    dsimp only at hg haddr
    obtain rfl := hg.eq_of_empty
    obtain rfl := hg.same rfl
    subst haddr
    rw [Wp.bind_iff, Wp.get_iff]
    refine (ih (by omega) (by omega)).bind ?_
    rintro ⟨rest, ip⟩ d' ⟨hrest, rfl⟩
    obtain ⟨rfl, rfl⟩ := Prod.mk.inj hrest
    rw [Wp.pure_iff, slice_eq_contents (Nat.min_le_right _ _) (by omega), ← List.drop_drop,
      ← List.take_add, Nat.add_sub_cancel' (Nat.min_le_left _ _)]
    exact ⟨rfl, rfl⟩

end Read

/-! ### `readi` and `writei` -/

/-- The bytes `src` were written at offset `off` of inode `n` and its record on disk is up to
date: its contents are the old ones with the bytes replaced, every other inode is as it was. -/
structure Written (sb : SuperBlock) (d : Disk) (n : ℕ) (src : List UInt8) (off : ℕ)
    (ip' : Dinode) (d' : Disk) : Prop where
  sound : Sound sb d'
  record : getDinode sb d' n = ip'
  head : ip' = { getDinode sb d n with
    size := max (getDinode sb d n).size (off + src.length), addrs := ip'.addrs }
  contents_eq : contents d' ip' = (contents d (getDinode sb d n)).take off ++ src ++
    (contents d (getDinode sb d n)).drop (off + src.length)
  others : ∀ m < sb.ninodes, m ≠ n → getDinode sb d' m = getDinode sb d m
  contents_others : ∀ m < sb.ninodes, m ≠ n → (getDinode sb d m).type ≠ 0 →
    contents d' (getDinode sb d m) = contents d (getDinode sb d m)

section Write

variable {sb : SuperBlock} {ino : ℕ → Dinode} {d d' : Disk} {n off : ℕ} {S : Finset Slot}
  {src : List UInt8} {ip : Dinode}

theorem Good.present_byte (h : Good sb ino d) {m k : ℕ} (hm : m < sb.ninodes)
    (ht : (ino m).type ≠ 0) (hk : k < (ino m).size) : blockAddr d (ino m) (k / BSIZE) ≠ 0 :=
  h.present m hm ht _ (lt_of_le_of_lt (Nat.div_mul_le_self _ _) hk)

theorem Wrote.contents_of_ne (hw : Wrote sb ino n d S src off ip d') (h : Good sb ino d) {m : ℕ}
    (hm : m < sb.ninodes) (ht : (ino m).type ≠ 0) (hmn : m ≠ n) :
    contents d' (ino m) = contents d (ino m) := by
  refine List.map_congr_left fun k hk => ?_
  rw [List.mem_range] at hk
  have hmax := h.size_le m hm ht
  have := hw.outside m hm ht k (by omega) (fun h => absurd h hmn) (h.present_byte hm ht hk)
  rwa [Function.update_of_ne hmn] at this

/-- The bytes of the inode that was written, up to the larger of its size and the end of the
range. -/
theorem Wrote.contents_self (hw : Wrote sb ino n d S src off ip d') (h : Good sb ino d)
    (hn : n < sb.ninodes) (ht : (ino n).type ≠ 0) (hoff : off ≤ (ino n).size) :
    (List.range (max (ino n).size (off + src.length))).map (byteAt d' ip) =
      (contents d (ino n)).take off ++ src ++ (contents d (ino n)).drop (off + src.length) := by
  have hmax := h.size_le n hn ht
  have hold : ∀ k < (ino n).size, ¬ (off ≤ k ∧ k < off + src.length) →
      byteAt d' ip k = byteAt d (ino n) k := by
    intro k hk hout
    have := hw.outside n hn ht k (by omega) (fun _ => hout) (h.present_byte hn ht hk)
    rwa [Function.update_self] at this
  rw [List.append_assoc]
  refine List.ext_getElem ?_ fun k hk hk' => ?_
  · simp only [List.length_map, List.length_range, List.length_append, List.length_take,
      List.length_drop, contents_length]
    omega
  · have hleft : ((contents d (ino n)).take off).length = off := by
      rw [List.length_take, contents_length]
      omega
    rw [List.length_map, List.length_range] at hk
    rw [List.getElem_map, List.getElem_range]
    by_cases hlo : k < off
    · rw [List.getElem_append_left (by omega), List.getElem_take, getElem_contents]
      exact hold k (by omega) (by omega)
    · rw [List.getElem_append_right (by omega)]
      simp only [hleft]
      by_cases hhi : k < off + src.length
      · rw [List.getElem_append_left (by omega), (hw.inside k (by omega) hhi).2,
          List.getD_eq_getElem _ _ (by omega)]
      · rw [List.getElem_append_right (by omega), List.getElem_drop, getElem_contents,
          hold k (by omega) (by omega)]
        congr 1
        omega

/-- A write that stays within the size of the inode needs no new block, and the record on
disk is as it was. -/
theorem Wrote.written_of_le (hw : Wrote sb (getDinode sb d) n d
      (missingIn d (getDinode sb d n) off src.length) src off ip d') (h : Sound sb d)
    (hok : sb.Ok) (hn : n < sb.ninodes) (ht : (getDinode sb d n).type ≠ 0)
    (hle : off + src.length ≤ (getDinode sb d n).size) :
    Written sb d n src off ip d' := by
  have hempty := h.missingIn_eq_empty hn ht hle
  rw [hempty] at hw
  obtain rfl := hw.eq_of_empty
  have hgood := hw.good
  rw [Function.update_eq_self] at hgood
  refine ⟨?_, hw.dinodes n hn, ?_, ?_, fun m hm _ => hw.dinodes m hm, ?_⟩
  · exact hgood.congr hok hw.dinodes fun _ _ => rfl
  · rw [Nat.max_eq_left hle]
  · rw [← hw.contents_self h hn ht (by omega), Nat.max_eq_left hle]
    rfl
  · intro m hm hmn htm
    exact hw.contents_of_ne h hm htm hmn

/-- A write past the end of the inode, after its new size is stored. -/
theorem Wrote.written_of_lt (hw : Wrote sb (getDinode sb d) n d S src off ip d') (h : Sound sb d)
    (hok : sb.Ok) (hn : n < sb.ninodes) (ht : (getDinode sb d n).type ≠ 0)
    (hoff : off ≤ (getDinode sb d n).size)
    (hlt : (getDinode sb d n).size < off + src.length)
    (hmax : off + src.length ≤ MAXFILE * BSIZE) :
    Written sb d n src off { ip with size := off + src.length }
      (putDinode sb d' n { ip with size := off + src.length }) := by
  set ip' : Dinode := { ip with size := off + src.length } with hip'
  have hself : Function.update (getDinode sb d) n ip n = ip := Function.update_self ..
  have ht' : ip.type ≠ 0 := by rwa [hw.head]
  have hd : ∀ b, sb.DataBlock b → putDinode sb d' n ip' b = d' b := fun b hb =>
    putDinode_of_ne _ hn hb.not_inode
  -- every block below the new size is there: it was, or it has been written
  have hpresent : ∀ bn, bn * BSIZE < ip'.size → blockAddr d' ip bn ≠ 0 := by
    intro bn hbn
    have hdiv : bn * BSIZE / BSIZE = bn := Nat.mul_div_cancel _ (by decide)
    by_cases hlo : off ≤ bn * BSIZE
    · have := (hw.inside (bn * BSIZE) hlo hbn).1
      rwa [hdiv] at this
    · have hpres := h.present n hn ht bn (by omega)
      have := hw.blockAddr_eq hn ht (h.lt_MAXFILE hn ht (by omega)) hpres
      rw [hself] at this
      rwa [this]
  have hgood : Good sb (Function.update (getDinode sb d) n ip') d' := by
    have := hw.good.set_head ip' (n := n) (by rwa [hself]) (by rw [hself]) ht'
      (by rwa [hself]) hmax
    rwa [Function.update_idem] at this
  have hgood' : Good sb (Function.update (getDinode sb d') n ip') d' := by
    refine hgood.congr hok (fun i hi => ?_) fun _ _ => rfl
    by_cases hin : i = n
    · rw [hin, Function.update_self, Function.update_self]
    · rw [Function.update_of_ne hin, Function.update_of_ne hin, hw.dinodes i hi]
  have hself' : Function.update (getDinode sb d) n ip' n = ip' := Function.update_self ..
  have hfit : ip'.Fits := by
    have := hgood.fits hok hn (by rwa [hself'])
    rwa [hself'] at this
  refine ⟨hgood'.sound_putDinode hok hn hfit, getDinode_putDinode_self hfit, ?_, ?_, ?_, ?_⟩
  · rw [Nat.max_eq_right hlt.le, hip', hw.head]
  · have := hgood.contents_eq hd hn (by rwa [hself'])
    rw [hself'] at this
    rw [this, ← hw.contents_self h hn ht hoff, Nat.max_eq_right hlt.le]
    rfl
  · intro m hm hmn
    rw [getDinode_putDinode_of_ne _ hmn, hw.dinodes m hm]
  · intro m hm hmn htm
    have := hgood.contents_eq hd hm (by rwa [Function.update_of_ne hmn])
    rw [Function.update_of_ne hmn] at this
    rw [this, hw.contents_of_ne h hm htm hmn]

end Write

section Spec

variable {e : Env} {d : Disk} {n off : ℕ} {ip : Dinode}

/-- The cases in which `writei` refuses: a start past the end, a range that wraps around, one
past the largest size. -/
def WriteRejected (ip : Dinode) (off len : ℕ) : Prop :=
  ip.size < off ∨ 2 ^ 32 ≤ off + len ∨ MAXFILE * BSIZE < off + len

theorem writei_eq_of_rejected {src : List UInt8} (hdev : ip.type ≠ T_DEV)
    (hlen : src.length < 2 ^ 32) (hrej : WriteRejected ip off src.length) :
    writei e n ip src off = pure (none, ip) := by
  unfold writei
  rw [if_neg hdev]
  by_cases hfirst : off > ip.size ∨ (off + src.length) % 2 ^ 32 < off
  · rw [if_pos hfirst]
  · rw [if_neg hfirst, if_pos]
    unfold WriteRejected at hrej
    omega

/-- `writei` runs its loop and stores the new size if there is one, or runs out of blocks. -/
theorem writei_wrote {src : List UInt8} (hok : e.sb.Ok) (h : Sound e.sb d) (hn : n < e.sb.ninodes)
    (ht : (getDinode e.sb d n).type ≠ 0) (hdev : (getDinode e.sb d n).type ≠ T_DEV)
    (hrej : ¬ WriteRejected (getDinode e.sb d n) off src.length) :
    Wp (writei e n (getDinode e.sb d n) src off) d
      (fun r d' => r.1 = some src.length ∧ ∃ ip d₁, Wrote e.sb (getDinode e.sb d) n d
        (missingIn d (getDinode e.sb d n) off src.length) src off ip d₁ ∧
        (off + src.length ≤ (getDinode e.sb d n).size ∧ r.2 = ip ∧ d' = d₁ ∨
          (getDinode e.sb d n).size < off + src.length ∧
          r.2 = { ip with size := off + src.length } ∧
            d' = putDinode e.sb d₁ n { ip with size := off + src.length }))
      (OutOf e.sb d (missingIn d (getDinode e.sb d n) off src.length).card) := by
  unfold WriteRejected at hrej
  push Not at hrej
  obtain ⟨hoff, hwrap, hmax⟩ := hrej
  have hmod : (off + src.length) % 2 ^ 32 = off + src.length := Nat.mod_eq_of_lt hwrap
  unfold writei
  rw [if_neg hdev, if_neg (by omega), if_neg (by omega)]
  refine (writeLoop_spec hok hn le_rfl hmax h ht).bind fun ip d' hw => ?_
  have hsize : ip.size = (getDinode e.sb d n).size := by rw [hw.head]
  split_ifs with hgrow
  · rw [Wp.bind_iff, iupdate, Wp.modify_iff, Wp.pure_iff]
    exact ⟨rfl, ip, d', hw, .inr ⟨by omega, rfl, rfl⟩⟩
  · rw [Wp.pure_iff]
    exact ⟨rfl, ip, d', hw, .inl ⟨by omega, rfl, rfl⟩⟩

/-- `writei` writes its bytes, or runs out of blocks. -/
theorem writei_spec {src : List UInt8} (hok : e.sb.Ok) (h : Sound e.sb d) (hn : n < e.sb.ninodes)
    (ht : (getDinode e.sb d n).type ≠ 0) (hdev : (getDinode e.sb d n).type ≠ T_DEV)
    (hrej : ¬ WriteRejected (getDinode e.sb d n) off src.length) :
    Wp (writei e n (getDinode e.sb d n) src off) d
      (fun r d' => r.1 = some src.length ∧ Written e.sb d n src off r.2 d')
      (OutOf e.sb d (missingIn d (getDinode e.sb d n) off src.length).card) := by
  refine (writei_wrote hok h hn ht hdev hrej).post ?_
  rintro ⟨r, ip'⟩ d' ⟨hr, ip, d₁, hw, ⟨hle, rfl, rfl⟩ | ⟨hlt, rfl, rfl⟩⟩
  · exact ⟨hr, hw.written_of_le h hok hn ht hle⟩
  · refine ⟨hr, hw.written_of_lt h hok hn ht ?_ hlt ?_⟩
    · exact Nat.le_of_not_lt fun hoff => hrej (.inl hoff)
    · exact Nat.le_of_not_lt fun hmax => hrej (.inr (.inr hmax))

/-- There are free blocks for the `len` bytes from `off` on. -/
def Room (sb : SuperBlock) (d : Disk) (n off len : ℕ) : Prop :=
  (missingIn d (getDinode sb d n) off len).card ≤ (freeBlocks sb d).card

instance (sb : SuperBlock) (d : Disk) (n off len : ℕ) : Decidable (Room sb d n off len) :=
  inferInstanceAs (Decidable (_ ≤ _))

theorem Room.left {sb : SuperBlock} {len m : ℕ} (h : Room sb d n off (m + len)) :
    Room sb d n off m := by
  refine le_trans (Finset.card_le_card (Finset.biUnion_subset_biUnion_of_subset_left _ ?_)) h
  exact fun bn hbn => mem_touched_append.mpr (.inl hbn)

/-- After a write there is room for the range that follows if there was for both. -/
theorem Wrote.room {sb : SuperBlock} {src : List UInt8} {d₁ : Disk} {len : ℕ}
    (hw : Wrote sb (getDinode sb d) n d (missingIn d (getDinode sb d n) off src.length)
      src off ip d₁)
    (hok : sb.Ok) (hn : n < sb.ninodes) (ht : (getDinode sb d n).type ≠ 0)
    (hroom : Room sb d n off (src.length + len)) {ip' : Dinode} {d' : Disk}
    (hrec : getDinode sb d' n = ip') (haddrs : ip'.addrs = ip.addrs)
    (hd : ∀ b, ¬ sb.InodeBlock b → d' b = d₁ b) :
    Room sb d' n (off + src.length) len := by
  have hself : Function.update (getDinode sb d) n ip n = ip := Function.update_self ..
  have haddr : ip'.addr = ip.addr := by
    funext i
    simp only [Dinode.addr, haddrs]
  have hslot : ∀ sl, slotAddr d' ip' sl = slotAddr d₁ ip sl := fun sl => by
    have := hw.good.slotAddr_eq (fun b hb => hd b hb.not_inode) hn (hw.type_ne_zero ht) sl
    rw [hself] at this
    rw [← this]
    cases sl <;> simp only [slotAddr, blockAddr, haddr]
  have hfree : freeBlocks sb d' = freeBlocks sb d₁ := Finset.filter_congr fun b hb => by
    rw [getBit_congr (Finset.mem_range.mp hb) fun c hc => hd c fun hi => hok.disjoint c hi hc]
  have hmissing : missingIn d' ip' (off + src.length) len =
    missingIn d₁ ip (off + src.length) len :=
    Finset.biUnion_congr rfl fun bn _ => Finset.filter_congr fun sl _ => by rw [hslot]
  rw [Room, hrec, hmissing, hfree]
  exact hw.toExtends.card_missingIn hroom

/-- A write takes only the blocks it needs. -/
theorem writei_room {src : List UInt8} (hok : e.sb.Ok) (h : Sound e.sb d) (hn : n < e.sb.ninodes)
    (ht : (getDinode e.sb d n).type ≠ 0) (hdev : (getDinode e.sb d n).type ≠ T_DEV)
    (hrej : ¬ WriteRejected (getDinode e.sb d n) off src.length) :
    Wp (writei e n (getDinode e.sb d n) src off) d
      (fun r d' => r.1 = some src.length ∧ Written e.sb d n src off r.2 d' ∧
        ∀ len, Room e.sb d n off (src.length + len) → Room e.sb d' n (off + src.length) len)
      (OutOf e.sb d (missingIn d (getDinode e.sb d n) off src.length).card) := by
  refine ((writei_wrote hok h hn ht hdev hrej).and (writei_spec hok h hn ht hdev hrej)).mono ?_
    fun _ => And.left
  rintro ⟨r, ip'⟩ d' ⟨⟨-, ip, d₁, hw, hcase⟩, hr, hwritten⟩
  refine ⟨hr, hwritten, fun len hroom => ?_⟩
  rcases hcase with ⟨-, rfl, rfl⟩ | ⟨-, rfl, rfl⟩
  · exact hw.room hok hn ht hroom hwritten.record rfl fun _ _ => rfl
  · exact hw.room hok hn ht hroom hwritten.record rfl fun b hb => putDinode_of_ne _ hn hb

/-- `readi` reads the contents and changes nothing. -/
theorem Good.readi_eq {ino : ℕ → Dinode} {len : ℕ} (h : Good e.sb ino d) (hok : e.sb.Ok)
    (hn : n < e.sb.ninodes) (ht : (ino n).type ≠ 0) (hdev : (ino n).type ≠ T_DEV)
    (hlen : len < 2 ^ 32) :
    readi e (ino n) off len d =
      .ok ((if (ino n).size < off ∨ 2 ^ 32 ≤ off + len then none
        else some (((contents d (ino n)).drop off).take (min len ((ino n).size - off))),
        ino n), d) := by
  have hsize : (ino n).size ≤ MAXFILE * BSIZE := h.size_le n hn ht
  have hmax : MAXFILE * BSIZE < 2 ^ 32 := by decide
  unfold readi
  rw [if_neg hdev]
  by_cases hrej : (ino n).size < off ∨ 2 ^ 32 ≤ off + len
  · rw [if_pos (by omega), if_pos hrej]
    rfl
  · push Not at hrej
    have hmod : (off + len) % 2 ^ 32 = off + len := Nat.mod_eq_of_lt hrej.2
    have hrej' : ¬ (off > (ino n).size ∨ (off + len) % 2 ^ 32 < off) := by omega
    have hrej'' : ¬ ((ino n).size < off ∨ 2 ^ 32 ≤ off + len) := by omega
    rw [if_neg hrej', if_neg hrej'', hmod]
    have hcount : (if off + len > (ino n).size then (ino n).size - off else len) =
        min len ((ino n).size - off) := by
      split_ifs <;> omega
    have hroom : off + min len ((ino n).size - off) ≤ (ino n).size := by omega
    simp only [hcount]
    refine Wp.eq_ok_of ((readLoop_spec h hok hn ht le_rfl hroom).bind ?_)
    rintro ⟨bytes, ip'⟩ d' ⟨heq, rfl⟩
    obtain ⟨rfl, rfl⟩ := Prod.mk.inj heq
    exact ⟨rfl, rfl⟩

theorem readi_eq {len : ℕ} (hok : e.sb.Ok) (h : Sound e.sb d) (hn : n < e.sb.ninodes)
    (ht : (getDinode e.sb d n).type ≠ 0) (hdev : (getDinode e.sb d n).type ≠ T_DEV)
    (hlen : len < 2 ^ 32) :
    readi e (getDinode e.sb d n) off len d =
      .ok ((if (getDinode e.sb d n).size < off ∨ 2 ^ 32 ≤ off + len then none
        else some (((contents d (getDinode e.sb d n)).drop off).take
          (min len ((getDinode e.sb d n).size - off))), getDinode e.sb d n), d) :=
  Good.readi_eq h hok hn ht hdev hlen

end Spec

/-- A small layout: 30 log blocks, one block of inodes, one of free map. -/
def smallSb : SuperBlock := ⟨52, 18, 7, 30, 2, 32, 33⟩

theorem smallSb_ok : smallSb.Ok := by
  refine ⟨fun b hi hm => ?_, by decide, by decide, by decide⟩
  simp only [SuperBlock.InodeBlock, SuperBlock.BitmapBlock, smallSb, IPB, BPB, BSIZE] at hi hm
  omega

end Xv6.Fs
