import Mathlib.Data.Finset.Interval
import Xv6.Fs.Block
import Xv6.Lib.Ownership

/-!
# Block ownership

Every block in use belongs to exactly one slot of one inode: a direct or indirect entry, or
the pointer to the indirect block. `Good` says so of a disk together with a table of inode
records, which is the table on disk except for an inode whose copy in memory is ahead of
it.
-/

namespace Xv6.Fs

open Lib

section Alloc
variable {sb : SuperBlock} {d : Disk}

theorem BPB_pos : 0 < BPB := by decide

theorem testBit_eq_getBit (k : ℕ) {bi : ℕ} (h : bi < BPB) :
    (d (sb.BBLOCK (k * BPB))).testBit bi = getBit sb d (k * BPB + bi) := by
  have hdiv : (k * BPB + bi) / BPB = k := by
    rw [Nat.mul_comm, Nat.mul_add_div BPB_pos, Nat.div_eq_of_lt h, Nat.add_zero]
  have hmod : (k * BPB + bi) % BPB = bi := by
    rw [Nat.mul_comm, Nat.mul_add_mod, Nat.mod_eq_of_lt h]
  rw [getBit, hmod, SuperBlock.BBLOCK, SuperBlock.BBLOCK, hdiv, Nat.mul_div_cancel _ BPB_pos]

/-- The inner loop finds the first free block of its part of the map. -/
theorem freeFrom_eq_some {k r : ℕ} (h : freeFrom sb d (k * BPB) = some r) :
    k * BPB ≤ r ∧ r < sb.size ∧ getBit sb d r = false ∧
      ∀ b, k * BPB ≤ b → b < r → getBit sb d b = true := by
  obtain ⟨bi, hbi, rfl⟩ := Option.map_eq_some_iff.mp h
  obtain ⟨-, hlt, hfree, hall⟩ := firstFrom_eq_some_iff.mp hbi
  rw [Nat.zero_add, Nat.lt_min] at hlt
  refine ⟨Nat.le_add_right _ _, by omega, ?_, fun b hb hbr => ?_⟩
  · rw [← testBit_eq_getBit k hlt.1]
    simpa using hfree
  · have := hall (b - k * BPB) (Nat.zero_le _) (by omega)
    rw [testBit_eq_getBit k (by omega), Nat.add_sub_cancel' hb] at this
    simpa using this

theorem freeFrom_eq_none {k : ℕ} (h : freeFrom sb d (k * BPB) = none) {b : ℕ}
    (hb : k * BPB ≤ b) (hb' : b < (k + 1) * BPB) (hsize : b < sb.size) :
    getBit sb d b = true := by
  have hall := firstFrom_eq_none_iff.mp (Option.map_eq_none_iff.mp h)
  rw [Nat.add_mul, Nat.one_mul] at hb'
  have := hall (b - k * BPB) (Nat.zero_le _) (by rw [Nat.zero_add, Nat.lt_min]; omega)
  rw [testBit_eq_getBit k (by omega), Nat.add_sub_cancel' hb] at this
  simpa using this

/-- The outer loop finds the first free block from block `k * BPB` on. -/
theorem freeBlock_eq_some {n k r : ℕ} (h : freeBlock sb d n (k * BPB) = some r) :
    k * BPB ≤ r ∧ r < sb.size ∧ getBit sb d r = false ∧
      ∀ b, k * BPB ≤ b → b < r → getBit sb d b = true := by
  induction n generalizing k with
  | zero => cases h
  | succ n ih =>
    rw [freeBlock] at h
    split_ifs at h with hk
    split at h
    case h_1 r' hr =>
      obtain rfl := Option.some.inj h
      exact freeFrom_eq_some hr
    case h_2 hnone =>
      rw [← Nat.succ_mul] at h
      obtain ⟨hle, hlt, hfree, hall⟩ := ih h
      rw [Nat.succ_mul] at hle
      refine ⟨by omega, hlt, hfree, fun b hb hbr => ?_⟩
      by_cases hb' : b < (k + 1) * BPB
      · exact freeFrom_eq_none hnone hb hb' (by omega)
      · exact hall b (Nat.not_lt.mp hb') hbr

theorem freeBlock_eq_none {n k : ℕ} (h : freeBlock sb d n (k * BPB) = none)
    (hn : sb.size ≤ (k + n) * BPB) {b : ℕ} (hb : k * BPB ≤ b) (hsize : b < sb.size) :
    getBit sb d b = true := by
  induction n generalizing k with
  | zero => rw [Nat.add_zero] at hn; omega
  | succ n ih =>
    rw [freeBlock] at h
    split_ifs at h with hk
    · split at h
      case h_1 => cases h
      case h_2 hnone =>
        by_cases hb' : b < (k + 1) * BPB
        · exact freeFrom_eq_none hnone hb hb' hsize
        · rw [← Nat.succ_mul] at h
          refine ih h ?_ (Nat.not_lt.mp hb')
          rwa [Nat.succ_add_eq_add_succ]
    · omega

/-- What `balloc` does when it returns block `b`. -/
structure Fresh (sb : SuperBlock) (d : Disk) (b : ℕ) (d' : Disk) : Prop where
  lt : b < sb.size
  free : getBit sb d b = false
  least : ∀ c < b, getBit sb d c = true
  bits : ∀ c < sb.size, getBit sb d' c = if c = b then true else getBit sb d c
  zero : d' b = Bytes.zero BSIZE
  rest : ∀ c, ¬ sb.BitmapBlock c → c ≠ b → d' c = d c

theorem balloc_spec (hmap : ∀ b < sb.size, sb.BitmapBlock b → getBit sb d b = true) :
    Wp (balloc sb) d (Fresh sb d)
      fun e => e = .panic .balloc ∧ ∀ b < sb.size, getBit sb d b = true := by
  unfold balloc
  rw [Wp.bind_iff, Wp.get_iff]
  have hzero : 0 * BPB = 0 := Nat.zero_mul _
  split
  case h_1 b hb =>
    rw [← hzero] at hb
    obtain ⟨-, hlt, hfree, hall⟩ := freeBlock_eq_some hb
    have hnot : ¬ sb.BitmapBlock b := by
      intro h
      rw [hmap b hlt h] at hfree
      cases hfree
    simp only [Wp.bind_iff, Wp.set_iff, bzero, Wp.modify_iff, Wp.pure_iff]
    refine ⟨hlt, hfree, fun c hc => hall c (by omega) hc,
      fun c hc => ?_, by simp, fun c hc hne => ?_⟩
    · rw [← getBit_putBit]
      refine getBit_congr hc fun c' hc' => ?_
      rw [Function.update_of_ne]
      rintro rfl
      exact hnot hc'
    · rw [Function.update_of_ne hne, putBit_of_ne _ hlt hc]
  case h_2 hnone =>
    rw [← hzero] at hnone
    rw [Wp.throw_iff]
    refine ⟨rfl, fun b hb => freeBlock_eq_none hnone ?_ (by omega) hb⟩
    have := Nat.div_add_mod sb.size BPB
    have := Nat.mod_lt sb.size BPB_pos
    rw [Nat.zero_add, Nat.add_mul, Nat.one_mul, Nat.mul_comm]
    omega

/-- `bfree` of a block in use clears its bit and nothing else. -/
theorem bfree_spec {b : ℕ} (hused : getBit sb d b = true) :
    Wp (bfree sb b) d (fun _ d' => d' = putBit sb d b false) fun _ => False := by
  unfold bfree
  rw [Wp.bind_iff, Wp.get_iff, if_pos hused, Wp.set_iff]

end Alloc

/-! ### Slots and owners -/

/-- A place in an inode that names a block: the pointer to the indirect block, or the
entry, direct or indirect, for block `bn` of the file. -/
inductive Slot
  | ptr
  | block (bn : Fin MAXFILE)
  deriving DecidableEq

/-- The disk block of block `bn` of a file, 0 if there is none. -/
def blockAddr (d : Disk) (ip : Dinode) (bn : ℕ) : ℕ :=
  if bn < NDIRECT then ip.addr bn
  else if ip.addr NDIRECT = 0 then 0
  else getWord (d (ip.addr NDIRECT)) (bn - NDIRECT)

/-- The block a slot names, 0 if none. -/
def slotAddr (d : Disk) (ip : Dinode) : Slot → ℕ
  | .ptr => ip.addr NDIRECT
  | .block bn => blockAddr d ip bn

@[simp] theorem slotAddr_ptr (d : Disk) (ip : Dinode) : slotAddr d ip .ptr = ip.addr NDIRECT := rfl

/-- The block a slot of an allocated inode names. -/
def ownerAddr (sb : SuperBlock) (ino : ℕ → Dinode) (d : Disk) (k : ℕ × Slot) : ℕ :=
  if k.1 < sb.ninodes ∧ (ino k.1).type ≠ 0 then slotAddr d (ino k.1) k.2 else 0

/-- The free map marks exactly the metadata and the blocks with an owner, no block has two
owners, and every block below the size of an inode is there. -/
structure Good (sb : SuperBlock) (ino : ℕ → Dinode) (d : Disk) : Prop where
  owns : Owns (ownerAddr sb ino d) (getBit sb d) sb.DataBlock
  metas : ∀ b < sb.size, sb.MetaBlock b → getBit sb d b = true
  present : ∀ i < sb.ninodes, (ino i).type ≠ 0 → ∀ bn, bn * BSIZE < (ino i).size →
    blockAddr d (ino i) bn ≠ 0
  size_le : ∀ i < sb.ninodes, (ino i).type ≠ 0 → (ino i).size ≤ MAXFILE * BSIZE

section Good

variable {sb : SuperBlock} {ino : ℕ → Dinode} {d d' : Disk} {n m b : ℕ} {sl sl' : Slot}

theorem ownerAddr_of (hm : m < sb.ninodes) (ht : (ino m).type ≠ 0) (sl : Slot) :
    ownerAddr sb ino d (m, sl) = slotAddr d (ino m) sl := if_pos ⟨hm, ht⟩

theorem Good.data (h : Good sb ino d) (hm : m < sb.ninodes) (ht : (ino m).type ≠ 0)
    (hsl : slotAddr d (ino m) sl ≠ 0) : sb.DataBlock (slotAddr d (ino m) sl) := by
  have := h.owns.avail_addr (m, sl)
  rw [ownerAddr_of hm ht] at this
  exact this hsl

theorem Good.inj (h : Good sb ino d) (hm : m < sb.ninodes) (ht : (ino m).type ≠ 0)
    (hn : n < sb.ninodes) (htn : (ino n).type ≠ 0) (hsl : slotAddr d (ino m) sl ≠ 0)
    (heq : slotAddr d (ino m) sl = slotAddr d (ino n) sl') : m = n ∧ sl = sl' := by
  have := h.owns.inj (m, sl) (n, sl')
  rw [ownerAddr_of hm ht, ownerAddr_of hn htn] at this
  simpa using this hsl heq

theorem Good.dataBlock_of_free (h : Good sb ino d) (hb : b < sb.size)
    (hfree : getBit sb d b = false) : sb.DataBlock b := by
  refine ⟨hb, fun hmeta => ?_⟩
  rw [h.metas b hb hmeta] at hfree
  cases hfree

theorem Good.slotAddr_ne_of_free (h : Good sb ino d) (hb : b < sb.size)
    (hfree : getBit sb d b = false) (hm : m < sb.ninodes) (ht : (ino m).type ≠ 0) (sl : Slot) :
    slotAddr d (ino m) sl ≠ b := by
  have := h.owns.ne_of_free (h.dataBlock_of_free hb hfree) hfree (m, sl)
  rwa [ownerAddr_of hm ht] at this

theorem Good.lt_MAXFILE (h : Good sb ino d) (hn : n < sb.ninodes) (ht : (ino n).type ≠ 0) {bn : ℕ}
    (hbn : bn * BSIZE < (ino n).size) : bn < MAXFILE := by
  have hle := h.size_le n hn ht
  by_contra hge
  have := Nat.mul_le_mul_right BSIZE (Nat.not_lt.mp hge)
  omega

/-- The slots of an inode depend on the disk only through its indirect block. -/
theorem slotAddr_congr {ip : Dinode}
    (h : ip.addr NDIRECT ≠ 0 → d' (ip.addr NDIRECT) = d (ip.addr NDIRECT)) (sl : Slot) :
    slotAddr d' ip sl = slotAddr d ip sl := by
  cases sl with
  | ptr => rfl
  | block bn =>
    change blockAddr d' ip bn = blockAddr d ip bn
    unfold blockAddr
    split_ifs with hbn hptr
    · rfl
    · rfl
    · rw [h hptr]

end Good

/-! ### Giving blocks to slots -/

/-- The two copies of an inode differ at most in their block addresses. -/
def SameHead (ip ip' : Dinode) : Prop := ip' = { ip with addrs := ip'.addrs }

theorem SameHead.refl (ip : Dinode) : SameHead ip ip := rfl

/-- The blocks the free map shows as free. -/
def freeBlocks (sb : SuperBlock) (d : Disk) : Finset ℕ :=
  (Finset.range sb.size).filter fun b => getBit sb d b = false

/-- Blocks were given to the slots `S` of inode `n`, which had none; every other slot names
the block it named. -/
structure Extends (sb : SuperBlock) (ino : ℕ → Dinode) (n : ℕ) (d : Disk) (S : Finset Slot)
    (ip' : Dinode) (d' : Disk) : Prop where
  good : Good sb (Function.update ino n ip') d'
  head : SameHead (ino n) ip'
  dinodes : ∀ i < sb.ninodes, getDinode sb d' i = getDinode sb d i
  others : ∀ m < sb.ninodes, (ino m).type ≠ 0 → m ≠ n → ∀ sl,
    slotAddr d' (ino m) sl = slotAddr d (ino m) sl
  absent : ∀ sl ∈ S, slotAddr d (ino n) sl = 0
  fresh : ∀ sl ∈ S, slotAddr d' ip' sl ≠ 0
  slots : ∀ sl, sl ∉ S → slotAddr d' ip' sl = slotAddr d (ino n) sl
  free : (freeBlocks sb d').card + S.card = (freeBlocks sb d).card

/-- Blocks were given to the slots `S` of inode `n`, and the blocks that files had before
have the contents they had. -/
structure Grows (sb : SuperBlock) (ino : ℕ → Dinode) (n : ℕ) (d : Disk) (S : Finset Slot)
    (ip' : Dinode) (d' : Disk) : Prop extends Extends sb ino n d S ip' d' where
  blocks : ∀ m < sb.ninodes, (ino m).type ≠ 0 → ∀ bn < MAXFILE, blockAddr d (ino m) bn ≠ 0 →
    d' (blockAddr d (ino m) bn) = d (blockAddr d (ino m) bn)
  same : S = ∅ → d' = d

section Grows

variable {sb : SuperBlock} {ino : ℕ → Dinode} {d d' d₁ : Disk} {n b : ℕ} {sl : Slot}
  {ip' ip'' : Dinode} {S T : Finset Slot}

theorem Grows.refl (h : Good sb ino d) : Grows sb ino n d ∅ (ino n) d where
  good := by rwa [Function.update_eq_self]
  head := SameHead.refl _
  dinodes _ _ := rfl
  others _ _ _ _ _ := rfl
  absent := by simp
  fresh := by simp
  slots _ _ := rfl
  free := by simp
  blocks _ _ _ _ _ _ := rfl
  same _ := rfl

theorem card_freeBlocks (hf : Fresh sb d b d') :
    (freeBlocks sb d').card + 1 = (freeBlocks sb d).card := by
  have herase : freeBlocks sb d' = (freeBlocks sb d).erase b := by
    ext c
    simp only [freeBlocks, Finset.mem_erase, Finset.mem_filter, Finset.mem_range]
    constructor
    · rintro ⟨hc, hbit⟩
      rw [hf.bits c hc] at hbit
      split_ifs at hbit with hcb
      exact ⟨hcb, hc, hbit⟩
    · rintro ⟨hcb, hc, hbit⟩
      exact ⟨hc, by rw [hf.bits c hc, if_neg hcb, hbit]⟩
  have hmem : b ∈ freeBlocks sb d := by
    simp [freeBlocks, hf.lt, hf.free]
  rw [herase, Finset.card_erase_add_one hmem]

/-- Store a fresh block in an empty slot: the disk `d'` is that after `balloc`, but for an
update of the inode's own indirect block. -/
theorem Grows.single (h : Good sb ino d) (hok : sb.Ok) (hn : n < sb.ninodes)
    (ht : (ino n).type ≠ 0) (hempty : slotAddr d (ino n) sl = 0) (hf : Fresh sb d b d₁)
    (hhead : SameHead (ino n) ip')
    (hd : ∀ c, c ≠ slotAddr d (ino n) .ptr → d' c = d₁ c)
    (hptr : slotAddr d (ino n) .ptr = 0 → d' = d₁)
    (hslot : slotAddr d' ip' sl = b)
    (hslots : ∀ sl', sl' ≠ sl → slotAddr d' ip' sl' = slotAddr d (ino n) sl') :
    Grows sb ino n d {sl} ip' d' := by
  have hdata : sb.DataBlock b := h.dataBlock_of_free hf.lt hf.free
  -- the blocks that changed are the new one, the map and the inode's indirect block
  have hdisk : ∀ c, ¬ sb.BitmapBlock c → c ≠ b → c ≠ slotAddr d (ino n) .ptr → d' c = d c := by
    intro c hc hcb hcp
    rw [hd c hcp, hf.rest c hc hcb]
  have hptrData : slotAddr d (ino n) .ptr ≠ 0 → sb.DataBlock (slotAddr d (ino n) .ptr) :=
    fun hp => h.data hn ht hp
  have hnotptr : ∀ c, ¬ sb.DataBlock c → d' c = d₁ c := by
    intro c hc
    by_cases hp : slotAddr d (ino n) .ptr = 0
    · rw [hptr hp]
    · refine hd c ?_
      rintro rfl
      exact hc (hptrData hp)
  have hbits : ∀ c < sb.size, getBit sb d' c = if c = b then true else getBit sb d c := by
    intro c hc
    rw [← hf.bits c hc]
    refine getBit_congr hc fun c' hc' => hnotptr c' ?_
    exact fun hdata' => hdata'.not_bitmap hc'
  have htype : ip'.type = (ino n).type := by rw [hhead]
  have hsize : ip'.size = (ino n).size := by rw [hhead]
  have hothers : ∀ m < sb.ninodes, (ino m).type ≠ 0 → m ≠ n → ∀ sl,
      slotAddr d' (ino m) sl = slotAddr d (ino m) sl := by
    intro m hm htm hmn sl'
    refine slotAddr_congr (fun hp => ?_) sl'
    have hp' : slotAddr d (ino m) .ptr ≠ 0 := hp
    refine hdisk _ (h.data hm htm hp').not_bitmap ?_ ?_
    · exact h.slotAddr_ne_of_free hf.lt hf.free hm htm .ptr
    · intro heq
      exact hmn (h.inj hm htm hn ht hp' heq).1
  have howner : ∀ k, ownerAddr sb (Function.update ino n ip') d' k =
      Function.update (ownerAddr sb ino d) (n, sl) b k := by
    rintro ⟨m, sl'⟩
    by_cases hmn : m = n
    · subst hmn
      rw [ownerAddr_of hn (by rwa [Function.update_self, htype]), Function.update_self]
      by_cases hsl : sl' = sl
      · subst hsl; rw [hslot, Function.update_self]
      · rw [hslots sl' hsl, Function.update_of_ne (by simpa using hsl), ownerAddr_of hn ht]
    · have hne : (m, sl') ≠ (n, sl) := by
        rintro ⟨⟩
        exact hmn rfl
      rw [Function.update_of_ne hne]
      unfold ownerAddr
      simp only [Function.update_of_ne hmn]
      split_ifs with hm
      · exact hothers m hm.1 hm.2 hmn sl'
      · rfl
  refine ⟨⟨⟨?_, ?_, ?_, ?_⟩, hhead, ?_, hothers, ?_, ?_, ?_, ?_⟩, ?_, ?_⟩
  · have hempty' : ownerAddr sb ino d (n, sl) = 0 := by rw [ownerAddr_of hn ht, hempty]
    refine (h.owns.alloc hempty' hdata hf.free).congr howner fun c hc => ?_
    rw [hbits c hc.1]
    split_ifs with hcb
    · subst hcb; rw [Function.update_self]
    · rw [Function.update_of_ne hcb]
  · intro c hc hmeta
    rw [hbits c hc]
    split_ifs
    · rfl
    · exact h.metas c hc hmeta
  · intro i hi hti bn hbn
    by_cases hin : i = n
    · subst hin
      rw [Function.update_self] at hbn ⊢
      rw [hsize] at hbn
      have hlt : bn < MAXFILE := h.lt_MAXFILE hi ht hbn
      change slotAddr d' ip' (.block ⟨bn, hlt⟩) ≠ 0
      by_cases hsl : Slot.block ⟨bn, hlt⟩ = sl
      · rw [hsl, hslot]
        exact hdata.pos
      · rw [hslots _ hsl]
        exact h.present i hi ht bn hbn
    · rw [Function.update_of_ne hin] at hti hbn ⊢
      change slotAddr d' (ino i) (.block ⟨bn, h.lt_MAXFILE hi hti hbn⟩) ≠ 0
      rw [hothers i hi hti hin]
      exact h.present i hi hti bn hbn
  · intro i hi hti
    by_cases hin : i = n
    · subst hin
      rw [Function.update_self, hsize]
      exact h.size_le i hi ht
    · rw [Function.update_of_ne hin] at hti ⊢
      exact h.size_le i hi hti
  · intro i hi
    refine getDinode_congr hi fun c hc => ?_
    have hnd : ¬ sb.DataBlock c := fun hdata' => hdata'.not_inode hc
    rw [hnotptr c hnd, hf.rest c (hok.disjoint c hc)]
    rintro rfl
    exact hnd hdata
  · simpa using hempty
  · simpa [hslot] using hdata.pos
  · simpa using hslots
  · have hcard : (freeBlocks sb d').card = (freeBlocks sb d₁).card := by
      congr 1
      refine Finset.filter_congr fun c hc => ?_
      rw [hbits c (Finset.mem_range.mp hc), hf.bits c (Finset.mem_range.mp hc)]
    rw [hcard, Finset.card_singleton]
    exact card_freeBlocks hf
  · intro m hm htm bn hbn hne
    have hne' : slotAddr d (ino m) (.block ⟨bn, hbn⟩) ≠ 0 := hne
    refine hdisk _ (h.data hm htm hne').not_bitmap
      (h.slotAddr_ne_of_free hf.lt hf.free hm htm (.block ⟨bn, hbn⟩)) fun heq => ?_
    have := (h.inj hm htm hn ht hne' heq).2
    cases this
  · simp

/-- Two rounds of allocation. -/
theorem Extends.trans (h₁ : Extends sb ino n d S ip' d')
    (h₂ : Extends sb (Function.update ino n ip') n d' T ip'' d₁) :
    Extends sb ino n d (S ∪ T) ip'' d₁ := by
  have hself : Function.update ino n ip' n = ip' := Function.update_self ..
  have habsent : ∀ sl ∈ T, slotAddr d' ip' sl = 0 := fun sl hsl => hself ▸ h₂.absent sl hsl
  have hslots : ∀ sl, sl ∉ T → slotAddr d₁ ip'' sl = slotAddr d' ip' sl :=
    fun sl hsl => hself ▸ h₂.slots sl hsl
  -- a slot that was given a block first is not empty afterwards
  have hdisj : Disjoint S T := by
    rw [Finset.disjoint_left]
    intro sl hS hT
    exact h₁.fresh sl hS (habsent sl hT)
  refine ⟨?_, ?_, ?_, ?_, ?_, ?_, ?_, ?_⟩
  · have := h₂.good
    rwa [Function.update_idem] at this
  · have := h₂.head
    rw [hself] at this
    unfold SameHead at *
    rw [this, h₁.head]
  · intro i hi
    rw [h₂.dinodes i hi, h₁.dinodes i hi]
  · intro m hm htm hmn sl
    have := h₂.others m hm (by rwa [Function.update_of_ne hmn]) hmn sl
    rw [Function.update_of_ne hmn] at this
    rw [this, h₁.others m hm htm hmn sl]
  · intro sl hsl
    by_cases hS : sl ∈ S
    · exact h₁.absent sl hS
    · have hT : sl ∈ T := (Finset.mem_union.mp hsl).resolve_left hS
      rw [← h₁.slots sl hS]
      exact habsent sl hT
  · intro sl hsl
    by_cases hT : sl ∈ T
    · exact h₂.fresh sl hT
    · rw [hslots sl hT]
      exact h₁.fresh sl ((Finset.mem_union.mp hsl).resolve_right hT)
  · intro sl hsl
    rw [Finset.mem_union, not_or] at hsl
    rw [hslots sl hsl.2, h₁.slots sl hsl.1]
  · rw [Finset.card_union_of_disjoint hdisj]
    have := h₁.free
    have := h₂.free
    omega

/-- An inode that was allocated is, and its blocks are where they were. -/
theorem Extends.type_ne_zero (h : Extends sb ino n d S ip' d') {m : ℕ}
    (htm : (ino m).type ≠ 0) : (Function.update ino n ip' m).type ≠ 0 := by
  by_cases hmn : m = n
  · subst hmn
    rwa [Function.update_self, h.head]
  · rwa [Function.update_of_ne hmn]

theorem Extends.blockAddr_eq (h : Extends sb ino n d S ip' d') {m bn : ℕ} (hm : m < sb.ninodes)
    (htm : (ino m).type ≠ 0) (hbn : bn < MAXFILE) (hne : blockAddr d (ino m) bn ≠ 0) :
    blockAddr d' (Function.update ino n ip' m) bn = blockAddr d (ino m) bn := by
  by_cases hmn : m = n
  · subst hmn
    rw [Function.update_self]
    refine h.slots (.block ⟨bn, hbn⟩) fun hS => ?_
    exact hne (h.absent _ hS)
  · rw [Function.update_of_ne hmn]
    exact h.others m hm htm hmn (.block ⟨bn, hbn⟩)

/-- An inode whose slots were given no block is as it was. -/
theorem Extends.eq_of_empty (h : Extends sb ino n d ∅ ip' d') : ip' = ino n := by
  have haddr : ∀ i, ip'.addrs i = (ino n).addrs i := by
    intro i
    rw [← Dinode.addr_of_lt _ i.isLt, ← Dinode.addr_of_lt _ i.isLt]
    by_cases hi : i.val < NDIRECT
    · have hmax : i.val < MAXFILE := Nat.lt_add_right _ hi
      have := h.slots (.block ⟨i.val, hmax⟩) (by simp)
      simpa [slotAddr, blockAddr, hi] using this
    · have hlast : i.val = NDIRECT := by
        have := i.isLt
        omega
      rw [hlast]
      exact h.slots .ptr (by simp)
  rw [h.head, funext haddr]

theorem Grows.trans (h₁ : Grows sb ino n d S ip' d')
    (h₂ : Grows sb (Function.update ino n ip') n d' T ip'' d₁) :
    Grows sb ino n d (S ∪ T) ip'' d₁ := by
  refine ⟨h₁.toExtends.trans h₂.toExtends, ?_, ?_⟩
  · intro m hm htm bn hbn hne
    have hsame := h₁.blockAddr_eq hm htm hbn hne
    have := h₂.blocks m hm (h₁.type_ne_zero htm) bn hbn (by rwa [hsame])
    rw [hsame] at this
    rw [this, h₁.blocks m hm htm bn hbn hne]
  · intro hempty
    obtain ⟨hS, hT⟩ := Finset.union_eq_empty.mp hempty
    rw [h₂.same hT, h₁.same hS]

end Grows

/-! ### `bmap` -/

/-- The slots that `bmap` looks at for block `bn`. -/
def needs (bn : ℕ) : Finset Slot :=
  if h : bn < MAXFILE then
    if bn < NDIRECT then {.block ⟨bn, h⟩} else {.ptr, .block ⟨bn, h⟩}
  else ∅

/-- Those of them that name no block. -/
def missing (d : Disk) (ip : Dinode) (bn : ℕ) : Finset Slot :=
  (needs bn).filter fun sl => slotAddr d ip sl = 0

section Bmap

variable {sb : SuperBlock} {ino : ℕ → Dinode} {d : Disk} {n : ℕ}

/-- The only way an allocation fails, with more blocks missing than there are free. -/
def OutOf (sb : SuperBlock) (d : Disk) (k : ℕ) (e : Fault) : Prop :=
  e = .panic .balloc ∧ (freeBlocks sb d).card < k

theorem Good.balloc_spec (h : Good sb ino d) :
    Wp (balloc sb) d (Fresh sb d) (OutOf sb d 1) := by
  refine (Fs.balloc_spec fun b hb hmap => h.metas b hb (.inr (.inr (.inr hmap)))).mono
    (fun _ _ => id) ?_
  rintro e ⟨rfl, hall⟩
  refine ⟨rfl, ?_⟩
  rw [Nat.lt_one_iff, Finset.card_eq_zero, freeBlocks, Finset.filter_eq_empty_iff]
  intro b hb
  rw [hall b (Finset.mem_range.mp hb)]
  simp

theorem sameHead_setAddr (ip : Dinode) (i a : ℕ) : SameHead ip (ip.setAddr i a) := rfl

theorem NDIRECT_lt : NDIRECT < NDIRECT + 1 := Nat.lt_succ_self _

/-- A direct block. -/
theorem bmap_direct_spec (h : Good sb ino d) (hok : sb.Ok) (hn : n < sb.ninodes)
    (ht : (ino n).type ≠ 0) {bn : ℕ} (hbn : bn < NDIRECT) (hmax : bn < MAXFILE)
    (hzero : (ino n).addr bn = 0) :
    Wp (balloc sb) d (fun a d' => Grows sb ino n d {.block ⟨bn, hmax⟩} ((ino n).setAddr bn a) d' ∧
      blockAddr d' ((ino n).setAddr bn a) bn = a ∧ a ≠ 0) (OutOf sb d 1) := by
  refine h.balloc_spec.post fun a d' hf => ?_
  have hslot : blockAddr d' ((ino n).setAddr bn a) bn = a := by
    rw [blockAddr, if_pos hbn, Dinode.addr_setAddr_self _ (by omega)]
  have hptr : ((ino n).setAddr bn a).addr NDIRECT = (ino n).addr NDIRECT :=
    Dinode.addr_setAddr_of_ne _ (by omega) _
  refine ⟨Grows.single h hok hn ht ?_ hf (sameHead_setAddr _ _ _) (fun _ _ => rfl)
    (fun _ => rfl) hslot ?_, hslot, (h.dataBlock_of_free hf.lt hf.free).pos⟩
  · change blockAddr d (ino n) bn = 0
    rw [blockAddr, if_pos hbn, hzero]
  · intro sl hsl
    cases sl with
    | ptr => exact hptr
    | block bn' =>
      have hne : bn'.val ≠ bn := fun he => hsl (by congr; exact Fin.ext he)
      change blockAddr d' _ bn' = blockAddr d (ino n) bn'
      unfold blockAddr
      rw [hptr, Dinode.addr_setAddr_of_ne _ hne]
      split_ifs with h₁ h₂
      · rfl
      · rfl
      · -- the indirect block is neither the new block nor part of the map
        have hp : slotAddr d (ino n) .ptr ≠ 0 := h₂
        have hkept := hf.rest _ (h.data hn ht hp).not_bitmap
          (h.slotAddr_ne_of_free hf.lt hf.free hn ht .ptr)
        rw [slotAddr_ptr] at hkept
        rw [hkept]

/-- The pointer to the indirect block. -/
theorem loadIndirect_spec (h : Good sb ino d) (hok : sb.Ok) (hn : n < sb.ninodes)
    (ht : (ino n).type ≠ 0) :
    Wp (loadIndirect sb (ino n)) d
      (fun ip d' => Grows sb ino n d (({.ptr} : Finset Slot).filter fun sl =>
        slotAddr d (ino n) sl = 0) ip d' ∧ ip.addr NDIRECT ≠ 0)
      (OutOf sb d (({.ptr} : Finset Slot).filter fun sl => slotAddr d (ino n) sl = 0).card) := by
  unfold loadIndirect
  by_cases hp : (ino n).addr NDIRECT = 0
  · have hfilter : (({.ptr} : Finset Slot).filter fun sl => slotAddr d (ino n) sl = 0) =
      {.ptr} := by
      rw [Finset.filter_eq_self]
      simpa using hp
    rw [if_pos hp, hfilter, Finset.card_singleton]
    refine h.balloc_spec.bind fun a d' hf => ?_
    rw [Wp.pure_iff]
    have haddr : ((ino n).setAddr NDIRECT a).addr NDIRECT = a :=
      Dinode.addr_setAddr_self _ NDIRECT_lt _
    have hpos := (h.dataBlock_of_free hf.lt hf.free).pos
    refine ⟨Grows.single h hok hn ht hp hf (sameHead_setAddr _ _ _) (fun _ _ => rfl)
      (fun _ => rfl) haddr ?_, by rwa [haddr]⟩
    intro sl hsl
    cases sl with
    | ptr => exact absurd rfl hsl
    | block bn =>
      change blockAddr d' _ bn = blockAddr d (ino n) bn
      unfold blockAddr
      rw [haddr, if_pos hp, if_neg hpos]
      split_ifs with hbn
      · exact Dinode.addr_setAddr_of_ne _ (by omega) _
      · rw [hf.zero, getWord_zero]
  · have hfilter : (({.ptr} : Finset Slot).filter fun sl => slotAddr d (ino n) sl = 0) = ∅ := by
      rw [Finset.filter_eq_empty_iff]
      simpa using hp
    rw [if_neg hp, hfilter, Wp.pure_iff]
    exact ⟨Grows.refl h, hp⟩

/-- An entry of the indirect block. -/
theorem bmap_entry_spec (h : Good sb ino d) (hok : sb.Ok) (hn : n < sb.ninodes)
    (ht : (ino n).type ≠ 0) {bn : ℕ} (hbn : ¬ bn < NDIRECT) (hmax : bn < MAXFILE)
    (hp : (ino n).addr NDIRECT ≠ 0)
    (hzero : getWord (d ((ino n).addr NDIRECT)) (bn - NDIRECT) = 0) :
    Wp (balloc sb) d (fun a d₁ =>
      let d' := Function.update d₁ ((ino n).addr NDIRECT)
        (putWord (d₁ ((ino n).addr NDIRECT)) (bn - NDIRECT) a)
      Grows sb ino n d {.block ⟨bn, hmax⟩} (ino n) d' ∧ blockAddr d' (ino n) bn = a ∧ a ≠ 0)
      (OutOf sb d 1) := by
  refine h.balloc_spec.post fun a d₁ hf => ?_
  have hdata := h.dataBlock_of_free hf.lt hf.free
  have hptr : sb.DataBlock ((ino n).addr NDIRECT) :=
    h.data hn ht (show slotAddr d (ino n) .ptr ≠ 0 from hp)
  have hd₁ : d₁ ((ino n).addr NDIRECT) = d ((ino n).addr NDIRECT) :=
    hf.rest _ hptr.not_bitmap (h.slotAddr_ne_of_free hf.lt hf.free hn ht .ptr)
  have hfit : a < 256 ^ 4 := by
    have := hok.size_lt
    have := hdata.1
    omega
  have hroom : bn - NDIRECT < NINDIRECT := by
    unfold MAXFILE at hmax
    omega
  have hslot : blockAddr (Function.update d₁ ((ino n).addr NDIRECT)
      (putWord (d₁ ((ino n).addr NDIRECT)) (bn - NDIRECT) a)) (ino n) bn = a := by
    rw [blockAddr, if_neg hbn, if_neg hp, Function.update_self, getWord_putWord _ hroom hfit,
      if_pos rfl]
  refine ⟨Grows.single h hok hn ht ?_ hf rfl (fun c hc => Function.update_of_ne hc _ _)
    (fun h0 => absurd h0 hp) hslot ?_, hslot, hdata.pos⟩
  · change blockAddr d (ino n) bn = 0
    rw [blockAddr, if_neg hbn, if_neg hp, hzero]
  · intro sl hsl
    cases sl with
    | ptr => rfl
    | block bn' =>
      have hne : bn'.val ≠ bn := fun he => hsl (by congr; exact Fin.ext he)
      change blockAddr _ (ino n) bn' = blockAddr d (ino n) bn'
      unfold blockAddr
      split_ifs with h₁
      · rfl
      · rw [Function.update_self, getWord_putWord _ hroom hfit, if_neg (by omega), hd₁]

/-- `bmap` gives a block to each slot it needs that has none, and returns the block's
address. -/
theorem bmap_spec (h : Good sb ino d) (hok : sb.Ok) (hn : n < sb.ninodes)
    (ht : (ino n).type ≠ 0) {bn : ℕ} (hmax : bn < MAXFILE) :
    Wp (bmap sb (ino n) bn) d
      (fun r d' => Grows sb ino n d (missing d (ino n) bn) r.2 d' ∧ blockAddr d' r.2 bn = r.1 ∧
        r.1 ≠ 0)
      (OutOf sb d (missing d (ino n) bn).card) := by
  unfold bmap missing needs
  rw [dif_pos hmax]
  by_cases hbn : bn < NDIRECT
  · rw [if_pos hbn, if_pos hbn]
    have hslot : slotAddr d (ino n) (.block ⟨bn, hmax⟩) = (ino n).addr bn := if_pos hbn
    by_cases hzero : (ino n).addr bn = 0
    · have hfilter : (({.block ⟨bn, hmax⟩} : Finset Slot).filter fun sl =>
          slotAddr d (ino n) sl = 0) = {.block ⟨bn, hmax⟩} := by
        rw [Finset.filter_eq_self]
        simpa [hslot] using hzero
      rw [if_pos hzero, hfilter]
      exact (bmap_direct_spec h hok hn ht hbn hmax hzero).bind fun _ _ => id
    · have hfilter : (({.block ⟨bn, hmax⟩} : Finset Slot).filter fun sl =>
          slotAddr d (ino n) sl = 0) = ∅ := by
        rw [Finset.filter_eq_empty_iff]
        simpa [hslot] using hzero
      rw [if_neg hzero, hfilter, Wp.pure_iff]
      exact ⟨Grows.refl h, hslot, hzero⟩
  · have hroom : bn - NDIRECT < NINDIRECT := by
      unfold MAXFILE at hmax
      omega
    rw [if_neg hbn, if_neg hbn, if_pos hroom, Finset.insert_eq, Finset.filter_union]
    set P := ({.ptr} : Finset Slot).filter fun sl => slotAddr d (ino n) sl = 0 with hP
    set B := ({.block ⟨bn, hmax⟩} : Finset Slot).filter fun sl => slotAddr d (ino n) sl = 0 with hB
    have hdisj : Disjoint P B :=
      (Finset.disjoint_singleton.mpr (by simp)).mono (Finset.filter_subset _ _)
        (Finset.filter_subset _ _)
    have hcard : (P ∪ B).card = P.card + B.card := Finset.card_union_of_disjoint hdisj
    refine ((loadIndirect_spec h hok hn ht).mono (fun _ _ => id) ?_).bind ?_
    · rintro e ⟨rfl, hlt⟩
      exact ⟨rfl, lt_of_lt_of_le hlt (hcard ▸ Nat.le_add_right _ _)⟩
    · rintro ip d₁ ⟨hgrow, hptr⟩
      have hself : Function.update ino n ip n = ip := Function.update_self ..
      have ht' : (Function.update ino n ip n).type ≠ 0 := by
        rw [hself, hgrow.head]
        exact ht
      have hfree : (freeBlocks sb d₁).card + P.card = (freeBlocks sb d).card := hgrow.free
      -- the entry is as it was before the pointer was set
      have hentry : blockAddr d₁ ip bn = slotAddr d (ino n) (.block ⟨bn, hmax⟩) :=
        hgrow.slots (.block ⟨bn, hmax⟩) (by simp)
      have hword : blockAddr d₁ ip bn = getWord (d₁ (ip.addr NDIRECT)) (bn - NDIRECT) := by
        rw [blockAddr, if_neg hbn, if_neg hptr]
      rw [Wp.bind_iff, Wp.get_iff]
      by_cases hzero : getWord (d₁ (ip.addr NDIRECT)) (bn - NDIRECT) = 0
      · have hB' : B = {.block ⟨bn, hmax⟩} := by
          rw [hB, Finset.filter_eq_self]
          intro sl hsl
          rw [Finset.mem_singleton.mp hsl, ← hentry, hword, hzero]
        rw [if_pos hzero]
        have hspec := bmap_entry_spec hgrow.good hok hn ht' hbn hmax (by rwa [hself])
          (by rwa [hself])
        rw [hself] at hspec
        refine (hspec.mono (fun _ _ => id) ?_).bind ?_
        · rintro e ⟨rfl, hlt⟩
          refine ⟨rfl, ?_⟩
          rw [hcard, hB', Finset.card_singleton]
          omega
        · rintro a d₂ ⟨hgrow', haddr, hpos⟩
          rw [Wp.bind_iff, Wp.modify_iff, Wp.pure_iff]
          exact ⟨hB' ▸ hgrow.trans hgrow', haddr, hpos⟩
      · have hB' : B = ∅ := by
          rw [hB, Finset.filter_eq_empty_iff]
          intro sl hsl
          rw [Finset.mem_singleton.mp hsl, ← hentry, hword]
          exact hzero
        rw [if_neg hzero, Wp.pure_iff, hB', Finset.union_empty]
        exact ⟨hgrow, hword, hzero⟩

end Bmap

end Xv6.Fs
