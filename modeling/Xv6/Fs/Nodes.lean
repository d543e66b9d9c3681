import Xv6.Fs.Contents

/-!
# Inodes as nodes

What the rest of the file system sees of the disk: for each inode number in use a node with
its type, device numbers, link count and bytes. Every routine of the lower half of `fs.c`
changes one node and leaves the others alone.
-/

namespace Xv6.Fs

open Lib

/-! ### Truncation -/

/-- The blocks of the slots `F` of inode `n` were given back: only the free map changed, and
it is exact once these slots are not counted. -/
structure Freed (sb : SuperBlock) (ino : ℕ → Dinode) (n : ℕ) (d : Disk) (F : Slot → Prop)
    [DecidablePred F] (d' : Disk) : Prop where
  rest : ∀ c, ¬ sb.BitmapBlock c → d' c = d c
  owns : Owns (fun k => if k.1 = n ∧ F k.2 then 0 else ownerAddr sb ino d k) (getBit sb d')
    sb.DataBlock
  metas : ∀ b < sb.size, sb.MetaBlock b → getBit sb d' b = true

section Trunc

variable {sb : SuperBlock} {ino : ℕ → Dinode} {d d₁ : Disk} {n : ℕ} {F G : Slot → Prop}
  [DecidablePred F] [DecidablePred G]

theorem Good.freed_none (h : Good sb ino d) (hF : ∀ sl, ¬ F sl) : Freed sb ino n d F d where
  rest _ _ := rfl
  owns := h.owns.congr (fun k => if_neg fun hk => hF k.2 hk.2) fun _ _ => rfl
  metas := h.metas

/-- Slots without a block have nothing to give back. -/
theorem Freed.skip (h : Freed sb ino n d F d₁) (hn : n < sb.ninodes) (ht : (ino n).type ≠ 0)
    (hFG : ∀ sl, F sl → G sl) (hzero : ∀ sl, G sl → ¬ F sl → slotAddr d (ino n) sl = 0) :
    Freed sb ino n d G d₁ := by
  refine ⟨h.rest, h.owns.congr (fun k => ?_) fun _ _ => rfl, h.metas⟩
  obtain ⟨m, sl⟩ := k
  by_cases hnew : m = n ∧ G sl ∧ ¬ F sl
  · obtain ⟨rfl, hG, hF⟩ := hnew
    rw [if_pos ⟨rfl, hG⟩, ownerAddr_of hn ht, hzero sl hG hF, ite_self]
  · have hiff : m = n ∧ G sl ↔ m = n ∧ F sl :=
      and_congr_right fun hmn => ⟨fun hG => by_contra fun hF => hnew ⟨hmn, hG, hF⟩, hFG sl⟩
    simp only [hiff]

/-- Giving back the block of a slot. -/
theorem Freed.bfree (h : Freed sb ino n d F d₁) (sl : Slot) (hn : n < sb.ninodes)
    (ht : (ino n).type ≠ 0) (hne : slotAddr d (ino n) sl ≠ 0) (hF : ¬ F sl)
    (hG : ∀ sl', G sl' ↔ F sl' ∨ sl' = sl) :
    Wp (bfree sb (slotAddr d (ino n) sl)) d₁ (fun _ d' => Freed sb ino n d G d')
      fun _ => False := by
  have haddr : (if (n, sl).1 = n ∧ F (n, sl).2 then 0 else ownerAddr sb ino d (n, sl)) =
      slotAddr d (ino n) sl := by
    rw [if_neg fun hk => hF hk.2, ownerAddr_of hn ht]
  have hdata := h.owns.avail_addr (n, sl) (by rwa [haddr])
  have hused := h.owns.used_of_ne_zero (k := (n, sl)) (by rwa [haddr])
  rw [haddr] at hdata hused
  refine (bfree_spec hused).post fun _ d' hd' => ?_
  subst hd'
  refine ⟨fun c hc => ?_, ?_, fun b hb hmeta => ?_⟩
  · rw [putBit_of_ne _ hdata.1 hc, h.rest c hc]
  · have hfree := h.owns.free (k := (n, sl)) (by rwa [haddr])
    refine hfree.congr (fun k => ?_) fun b _ => ?_
    · by_cases hk : k = (n, sl)
      · subst hk
        rw [Function.update_self, if_pos ⟨rfl, (hG sl).mpr (.inr rfl)⟩]
      · have hiff : k.1 = n ∧ G k.2 ↔ k.1 = n ∧ F k.2 :=
          and_congr_right fun hkn => (hG k.2).trans (or_iff_left fun hsl => hk (Prod.ext hkn hsl))
        rw [Function.update_of_ne hk]
        simp only [hiff]
    · rw [getBit_putBit, haddr, Function.update_apply]
  · rw [getBit_putBit, h.metas b hb hmeta]
    refine if_neg ?_
    rintro rfl
    exact hdata.2 hmeta

end Trunc

/-- The entries for the blocks before `i`. -/
def Slot.Before (i : ℕ) : Slot → Prop
  | .ptr => False
  | .block bn => bn.val < i

instance (i : ℕ) : DecidablePred (Slot.Before i)
  | .ptr => inferInstanceAs (Decidable False)
  | .block bn => inferInstanceAs (Decidable (bn.val < i))

section Loops

variable {sb : SuperBlock} {ino : ℕ → Dinode} {d d₁ : Disk} {n : ℕ}

theorem Slot.before_succ {i : ℕ} (hi : i < MAXFILE) (sl : Slot) :
    sl.Before (i + 1) ↔ sl.Before i ∨ sl = .block ⟨i, hi⟩ := by
  cases sl with
  | ptr => simp [Before]
  | block bn =>
    simp only [Before, Slot.block.injEq, Fin.ext_iff]
    omega

/-- One pass of a loop of `itrunc`: the block of entry `i`, if there is one, is given back. -/
theorem Freed.step {i : ℕ} (h : Freed sb ino n d (Slot.Before i) d₁) (hn : n < sb.ninodes)
    (ht : (ino n).type ≠ 0) (hi : i < MAXFILE) :
    (slotAddr d (ino n) (.block ⟨i, hi⟩) = 0 → Freed sb ino n d (Slot.Before (i + 1)) d₁) ∧
    (slotAddr d (ino n) (.block ⟨i, hi⟩) ≠ 0 →
      Wp (Fs.bfree sb (slotAddr d (ino n) (.block ⟨i, hi⟩))) d₁
        (fun _ d' => Freed sb ino n d (Slot.Before (i + 1)) d') fun _ => False) := by
  refine ⟨fun hzero => h.skip hn ht (fun sl hsl => ?_) fun sl hsl hsl' => ?_, fun hne => ?_⟩
  · exact (Slot.before_succ hi sl).mpr (.inl hsl)
  · rw [((Slot.before_succ hi sl).mp hsl).resolve_left hsl', hzero]
  · exact h.bfree _ hn ht hne (by simp [Slot.Before]) (Slot.before_succ hi)

theorem truncDirect_spec (hn : n < sb.ninodes) (ht : (ino n).type ≠ 0) (k : ℕ) {i : ℕ}
    (hik : i + k = NDIRECT) {ip : Dinode} (hhead : SameHead (ino n) ip)
    (hlo : ∀ j < i, ip.addr j = 0) (hhi : ∀ j, i ≤ j → ip.addr j = (ino n).addr j)
    (h : Freed sb ino n d (Slot.Before i) d₁) :
    Wp (truncDirect sb k i ip) d₁
      (fun ip' d' => SameHead (ino n) ip' ∧ (∀ j < NDIRECT, ip'.addr j = 0) ∧
        ip'.addr NDIRECT = (ino n).addr NDIRECT ∧ Freed sb ino n d (Slot.Before NDIRECT) d')
      fun _ => False := by
  induction k generalizing i ip d₁ with
  | zero =>
    obtain rfl : i = NDIRECT := hik
    exact ⟨hhead, hlo, hhi _ le_rfl, h⟩
  | succ k ih =>
    have hmax : i < MAXFILE := by
      unfold MAXFILE
      omega
    have hdir : i < NDIRECT := by omega
    have hslot : slotAddr d (ino n) (.block ⟨i, hmax⟩) = ip.addr i := by
      rw [hhi i le_rfl]
      exact if_pos hdir
    obtain ⟨hskip, hfree⟩ := h.step hn ht hmax
    rw [hslot] at hskip hfree
    rw [truncDirect]
    split_ifs with hzero
    · refine ih (by omega) hhead (fun j hj => ?_) (fun j hj => hhi j (by omega)) (hskip hzero)
      by_cases hji : j = i
      · rw [hji, hzero]
      · exact hlo j (by omega)
    · refine (hfree hzero).bind fun _ d' hd' => ?_
      refine ih (by omega) ?_ (fun j hj => ?_) (fun j hj => ?_) hd'
      · rw [SameHead, hhead]
        rfl
      · by_cases hji : j = i
        · subst hji
          exact Dinode.addr_setAddr_self _ (by omega) _
        · rw [Dinode.addr_setAddr_of_ne _ hji]
          exact hlo j (by omega)
      · rw [Dinode.addr_setAddr_of_ne _ (by omega)]
        exact hhi j (by omega)

theorem truncIndirect_spec (hn : n < sb.ninodes) (ht : (ino n).type ≠ 0)
    (hp : (ino n).addr NDIRECT ≠ 0) (k : ℕ) {j : ℕ} (hjk : j + k = NINDIRECT)
    (h : Freed sb ino n d (Slot.Before (NDIRECT + j)) d₁) :
    Wp (truncIndirect sb (d ((ino n).addr NDIRECT)) k j) d₁
      (fun _ d' => Freed sb ino n d (Slot.Before MAXFILE) d') fun _ => False := by
  induction k generalizing j d₁ with
  | zero =>
    obtain rfl : j = NINDIRECT := hjk
    exact h
  | succ k ih =>
    have hmax : NDIRECT + j < MAXFILE := by
      unfold MAXFILE
      omega
    have hslot : slotAddr d (ino n) (.block ⟨NDIRECT + j, hmax⟩) =
        getWord (d ((ino n).addr NDIRECT)) j := by
      change blockAddr d (ino n) (NDIRECT + j) = _
      rw [blockAddr, if_neg (by omega), if_neg hp, Nat.add_sub_cancel_left]
    obtain ⟨hskip, hfree⟩ := h.step hn ht hmax
    rw [hslot] at hskip hfree
    rw [truncIndirect]
    split_ifs with hzero
    · exact ih (by omega) (hskip hzero)
    · exact (hfree hzero).bind fun _ d' hd' => ih (by omega) hd'

theorem truncPtr_spec (h : Good sb ino d) (hn : n < sb.ninodes) (ht : (ino n).type ≠ 0)
    {ip : Dinode} (hhead : SameHead (ino n) ip) (hlo : ∀ j < NDIRECT, ip.addr j = 0)
    (hptr : ip.addr NDIRECT = (ino n).addr NDIRECT)
    (hfreed : Freed sb ino n d (Slot.Before NDIRECT) d₁) :
    Wp (truncPtr sb ip) d₁
      (fun ip' d' => SameHead (ino n) ip' ∧ (∀ j ≤ NDIRECT, ip'.addr j = 0) ∧
        Freed sb ino n d (fun _ => True) d')
      fun _ => False := by
  unfold truncPtr
  rw [hptr]
  split_ifs with hp
  · -- without an indirect block the entries in it name nothing
    refine ⟨hhead, fun j hj => ?_, hfreed.skip hn ht (fun _ _ => trivial) fun sl _ hsl => ?_⟩
    · rcases Nat.lt_or_eq_of_le hj with hj | rfl
      · exact hlo j hj
      · rw [hptr, hp]
    · cases sl with
      | ptr => exact hp
      | block bn =>
        change blockAddr d (ino n) bn = 0
        rw [blockAddr, if_neg (show ¬ bn.val < NDIRECT from hsl), if_pos hp]
  · have hdata := h.data hn ht (show slotAddr d (ino n) .ptr ≠ 0 from hp)
    have hsame : d₁ ((ino n).addr NDIRECT) = d ((ino n).addr NDIRECT) :=
      hfreed.rest _ hdata.not_bitmap
    rw [Wp.bind_iff, Wp.get_iff, hsame]
    refine (truncIndirect_spec hn ht hp NINDIRECT (Nat.zero_add _) hfreed).bind fun _ d₂ h₂ => ?_
    have hall : ∀ sl : Slot, True ↔ sl.Before MAXFILE ∨ sl = .ptr := fun sl => by
      cases sl <;> simp [Slot.Before]
    refine (h₂.bfree .ptr hn ht hp (by simp [Slot.Before]) hall).bind fun _ d₃ h₃ => ?_
    refine ⟨?_, fun j hj => ?_, h₃⟩
    · rw [SameHead, hhead]
      rfl
    · rcases Nat.lt_or_eq_of_le hj with hj | rfl
      · rw [Dinode.addr_setAddr_of_ne _ (by omega)]
        exact hlo j hj
      · exact Dinode.addr_setAddr_self _ NDIRECT_lt _

/-- The record that `itrunc` leaves. -/
def Dinode.truncated (ip : Dinode) : Dinode := { ip with size := 0, addrs := fun _ => 0 }

/-- An inode whose blocks were all given back. -/
theorem Freed.good (hfreed : Freed sb ino n d (fun _ => True) d₁) (h : Good sb ino d)
    (ip : Dinode) (haddrs : ∀ i, ip.addrs i = 0) (hsize : ip.size = 0) :
    Good sb (Function.update ino n ip) d₁ := by
  have hd : ∀ b, sb.DataBlock b → d₁ b = d b := fun b hb => hfreed.rest b hb.not_bitmap
  have haddr : ∀ i, ip.addr i = 0 := fun i => by
    unfold Dinode.addr
    split_ifs
    · exact haddrs _
    · rfl
  refine ⟨hfreed.owns.congr (fun k => ?_) fun _ _ => rfl, hfreed.metas, ?_, ?_⟩
  · obtain ⟨m, sl⟩ := k
    by_cases hmn : m = n
    · subst hmn
      have hslot : slotAddr d₁ ip sl = 0 := by
        cases sl with
        | ptr => exact haddr _
        | block bn => simp [slotAddr, blockAddr, haddr]
      rw [if_pos ⟨rfl, trivial⟩, ownerAddr, Function.update_self, hslot, ite_self]
    · rw [if_neg fun hk => hmn hk.1]
      unfold ownerAddr
      rw [Function.update_of_ne hmn]
      split_ifs with hm
      · exact h.slotAddr_eq hd hm.1 hm.2 sl
      · rfl
  · intro i hi hti bn hbn
    by_cases hin : i = n
    · subst hin
      rw [Function.update_self, hsize] at hbn
      omega
    · rw [Function.update_of_ne hin] at hti hbn ⊢
      change slotAddr d₁ (ino i) (.block ⟨bn, h.lt_MAXFILE hi hti hbn⟩) ≠ 0
      rw [h.slotAddr_eq hd hi hti]
      exact h.present i hi hti bn hbn
  · intro i hi hti
    by_cases hin : i = n
    · subst hin
      rw [Function.update_self, hsize]
      exact Nat.zero_le _
    · rw [Function.update_of_ne hin] at hti ⊢
      exact h.size_le i hi hti

end Loops

section Itrunc

variable {sb : SuperBlock} {d : Disk} {n : ℕ}

theorem Dinode.addrs_eq_zero {ip : Dinode} (h : ∀ j ≤ NDIRECT, ip.addr j = 0)
    (i : Fin (NDIRECT + 1)) : ip.addrs i = 0 := by
  rw [← Dinode.addr_of_lt _ i.isLt]
  exact h i (Nat.lt_succ_iff.mp i.isLt)

theorem Dinode.fits_truncated (ip : Dinode) : ip.truncated.Fits :=
  ⟨by simp [truncated], fun _ => by simp [truncated]⟩

/-- Truncation gives back every block of the inode; the data of the other inodes stays. -/
theorem itrunc_spec (h : Sound sb d) (hok : sb.Ok) (hn : n < sb.ninodes)
    (ht : (getDinode sb d n).type ≠ 0) :
    Wp (itrunc sb n (getDinode sb d n)) d
      (fun ip' d' => ip' = (getDinode sb d n).truncated ∧ Sound sb d' ∧
        (∀ i < sb.ninodes, getDinode sb d' i =
          Function.update (getDinode sb d) n (getDinode sb d n).truncated i) ∧
        ∀ b, sb.DataBlock b → d' b = d b)
      fun _ => False := by
  unfold itrunc
  refine (truncDirect_spec hn ht NDIRECT (Nat.zero_add _) (SameHead.refl _)
    (fun j hj => by omega)
    (fun _ _ => rfl) (h.freed_none fun sl => by cases sl <;> simp [Slot.Before])).bind ?_
  rintro ip₁ d₁ ⟨hhead₁, hlo₁, hptr₁, hfreed₁⟩
  refine (truncPtr_spec h hn ht hhead₁ hlo₁ hptr₁ hfreed₁).bind ?_
  rintro ip₂ d₂ ⟨hhead₂, hzero, hfreed₂⟩
  have hip : { ip₂ with size := 0 } = (getDinode sb d n).truncated := by
    rw [hhead₂, Dinode.truncated, funext (Dinode.addrs_eq_zero hzero)]
  rw [Wp.bind_iff, iupdate, Wp.modify_iff, Wp.pure_iff, hip]
  have hfit := Dinode.fits_truncated (getDinode sb d n)
  have hino : ∀ i < sb.ninodes, getDinode sb d₂ i = getDinode sb d i := fun i hi =>
    getDinode_congr hi fun b hb => hfreed₂.rest b (hok.disjoint b hb)
  have hgood : Good sb (Function.update (getDinode sb d₂) n (getDinode sb d n).truncated) d₂ := by
    refine (hfreed₂.good h (getDinode sb d n).truncated (fun _ => rfl) rfl).congr hok
      (fun i hi => ?_) fun _ _ => rfl
    by_cases hin : i = n
    · rw [hin, Function.update_self, Function.update_self]
    · rw [Function.update_of_ne hin, Function.update_of_ne hin, hino i hi]
  refine ⟨rfl, hgood.sound_putDinode hok hn hfit, fun i hi => ?_, fun b hb => ?_⟩
  · rw [getDinode_putDinode hfit]
    by_cases hin : i = n
    · rw [hin, Function.update_self, Function.update_self]
    · rw [Function.update_of_ne hin, Function.update_of_ne hin, hino i hi]
  · rw [putDinode_of_ne _ hn hb.not_inode, hfreed₂.rest b hb.not_bitmap]

end Itrunc

/-! ### Nodes -/

/-- What an inode in use holds. -/
structure Node where
  type : Int16
  major : Int16
  minor : Int16
  nlink : Int16
  data : List UInt8
  deriving DecidableEq

/-- The node of an inode record. -/
def Dinode.node (ip : Dinode) (d : Disk) : Node :=
  ⟨ip.type, ip.major, ip.minor, ip.nlink, contents d ip⟩

/-- The nodes of a disk. -/
def nodes (sb : SuperBlock) (d : Disk) (n : ℕ) : Option Node :=
  if n < sb.ninodes ∧ (getDinode sb d n).type ≠ 0 then some ((getDinode sb d n).node d) else none

/-- Replace the bytes from offset `off` on by `src`. -/
def overwrite (c : List UInt8) (off : ℕ) (src : List UInt8) : List UInt8 :=
  c.take off ++ src ++ c.drop (off + src.length)

/-- The node of inode `n` became `v`: the disk accounts for its blocks, and the other inodes
are as they were. -/
structure Sets (sb : SuperBlock) (d : Disk) (n : ℕ) (v : Option Node) (d' : Disk) : Prop where
  sound : Sound sb d'
  others : ∀ i < sb.ninodes, i ≠ n → getDinode sb d' i = getDinode sb d i
  nodes_eq : nodes sb d' = Function.update (nodes sb d) n v

section Nodes

variable {sb : SuperBlock} {d d' : Disk} {n : ℕ} {ip : Dinode} {v : Option Node}

theorem nodes_of (hn : n < sb.ninodes) (ht : (getDinode sb d n).type ≠ 0) :
    nodes sb d n = some ((getDinode sb d n).node d) := if_pos ⟨hn, ht⟩

theorem nodes_eq_none_iff :
    nodes sb d n = none ↔ (n < sb.ninodes → (getDinode sb d n).type = 0) := by
  unfold nodes
  split_ifs with h
  · simpa [h.1] using h.2
  · simpa using h

theorem nodes_eq_some_iff {nd : Node} : nodes sb d n = some nd ↔
    n < sb.ninodes ∧ (getDinode sb d n).type ≠ 0 ∧ (getDinode sb d n).node d = nd := by
  unfold nodes
  split_ifs with h
  · simp [h.1, h.2]
  · simp only [false_iff]
    exact fun h' => h ⟨h'.1, h'.2.1⟩

theorem type_of_nodes {nd : Node} (h : nodes sb d n = some nd) :
    (getDinode sb d n).type = nd.type := by
  obtain ⟨-, -, rfl⟩ := nodes_eq_some_iff.mp h
  rfl

theorem contents_of_nodes {nd : Node} (h : nodes sb d n = some nd) :
    contents d (getDinode sb d n) = nd.data := by
  obtain ⟨-, -, rfl⟩ := nodes_eq_some_iff.mp h
  rfl

/-- One inode changed: the nodes of the others follow from their records and bytes. -/
theorem Sets.of_others (hsound : Sound sb d')
    (hothers : ∀ i < sb.ninodes, i ≠ n → getDinode sb d' i = getDinode sb d i)
    (hbytes : ∀ i < sb.ninodes, i ≠ n → (getDinode sb d i).type ≠ 0 →
      contents d' (getDinode sb d i) = contents d (getDinode sb d i))
    (hv : nodes sb d' n = v) : Sets sb d n v d' := by
  refine ⟨hsound, hothers, funext fun i => ?_⟩
  by_cases hin : i = n
  · rw [hin, hv, Function.update_self]
  · rw [Function.update_of_ne hin]
    unfold nodes
    by_cases hi : i < sb.ninodes
    · rw [hothers i hi hin]
      split_ifs with hti
      · rw [Dinode.node, Dinode.node, hbytes i hi hin hti.2]
      · rfl
    · rw [if_neg fun h => hi h.1, if_neg fun h => hi h.1]

/-- `iupdate` after a change of the fields other than size and addresses. -/
theorem Sets.iupdate (h : Sound sb d) (hok : sb.Ok) (hn : n < sb.ninodes)
    (ht : (getDinode sb d n).type ≠ 0) (ht' : ip.type ≠ 0)
    (hsize : ip.size = (getDinode sb d n).size) (haddrs : ip.addrs = (getDinode sb d n).addrs) :
    Sets sb d n (some (ip.node d)) (putDinode sb d n ip) ∧
      getDinode sb (putDinode sb d n ip) n = ip := by
  have hfit : ip.Fits := by
    have := Good.fits h hok hn ht
    unfold Dinode.Fits at *
    rwa [hsize, haddrs]
  have hdata : ∀ b, sb.DataBlock b → putDinode sb d n ip b = d b := fun b hb =>
    putDinode_of_ne _ hn hb.not_inode
  have hself : getDinode sb (putDinode sb d n ip) n = ip := getDinode_putDinode_self hfit
  have hcontents : contents (putDinode sb d n ip) ip = contents d ip := by
    have heq : ∀ dd, contents dd ip = contents dd (getDinode sb d n) := fun dd => by
      unfold contents byteAt blockAddr Dinode.addr
      rw [hsize, haddrs]
    rw [heq, heq]
    exact Good.contents_eq h hdata hn ht
  refine ⟨Sets.of_others ?_ ?_ ?_ ?_, hself⟩
  · refine Good.sound_putDinode ?_ hok hn hfit
    refine Good.set_head h ip ht haddrs ht' (fun bn hbn => ?_) ?_
    · exact h.present n hn ht bn (by omega)
    · rw [hsize]
      exact h.size_le n hn ht
  · exact fun i _ hin => getDinode_putDinode_of_ne _ hin
  · exact fun i hi _ hti => Good.contents_eq h hdata hi hti
  · rw [nodes_of hn (by rwa [hself]), hself, Dinode.node, Dinode.node, hcontents]

theorem Written.sets {src : List UInt8} {off : ℕ} (hw : Written sb d n src off ip d')
    (hn : n < sb.ninodes) (ht : (getDinode sb d n).type ≠ 0) :
    Sets sb d n (some { (getDinode sb d n).node d with
      data := overwrite (contents d (getDinode sb d n)) off src }) d' := by
  refine Sets.of_others hw.sound hw.others hw.contents_others ?_
  have htype : ip.type = (getDinode sb d n).type := by rw [hw.head]
  rw [nodes_of hn (by rw [hw.record, htype]; exact ht), hw.record, Dinode.node, hw.contents_eq,
    hw.head]
  rfl

/-- A free inode is given a record without blocks. -/
theorem Sets.fresh (h : Sound sb d) (hok : sb.Ok) (hn : n < sb.ninodes)
    (hfree : (getDinode sb d n).type = 0) (ip : Dinode) (htype : ip.type ≠ 0)
    (haddrs : ∀ i, ip.addrs i = 0) (hsize : ip.size = 0) :
    Sets sb d n (some ⟨ip.type, ip.major, ip.minor, ip.nlink, []⟩) (putDinode sb d n ip) := by
  have hfit : ip.Fits := ⟨by simp [hsize], fun i => by simp [haddrs i]⟩
  have hself : getDinode sb (putDinode sb d n ip) n = ip := getDinode_putDinode_self hfit
  refine Sets.of_others ?_ (fun j _ hjn => getDinode_putDinode_of_ne _ hjn) ?_ ?_
  · refine (Good.set_empty h (fun sl => ?_) haddrs hsize).sound_putDinode hok hn hfit
    exact if_neg fun hk => hk.2 hfree
  · exact fun j hj _ htj => Good.contents_eq h (fun b hb => putDinode_of_ne _ hn hb.not_inode)
      hj htj
  · rw [nodes_of hn (by rwa [hself]), hself, Dinode.node, contents, hsize]
    rfl

/-- `ialloc`: a free inode is given a type and no contents. -/
theorem iallocDisk_spec (h : Sound sb d) (hok : sb.Ok) {type : Int16} (htype : type ≠ 0) :
    Wp (iallocDisk sb type) d
      (fun i d' => 0 < i ∧ i < sb.ninodes ∧ nodes sb d i = none ∧
        Sets sb d i (some ⟨type, 0, 0, 0, []⟩) d')
      fun e => e = .panic .ialloc := by
  unfold iallocDisk
  rw [Wp.bind_iff, Wp.get_iff]
  split
  case h_2 => rfl
  case h_1 i hi =>
    obtain ⟨hpos, hlt, hfree, -⟩ := firstFrom_eq_some_iff.mp hi
    have hi' : i < sb.ninodes := by omega
    have hfree' : (getDinode sb d i).type = 0 := by simpa using hfree
    rw [Wp.bind_iff, Wp.set_iff, Wp.pure_iff]
    exact ⟨by omega, hi', nodes_eq_none_iff.mpr fun _ => hfree',
      Sets.fresh h hok hi' hfree' (.blank type) htype (fun _ => rfl) rfl⟩

/-- The end of `iput`: truncate the inode and give its record type 0. -/
theorem itrunc_free_spec (h : Sound sb d) (hok : sb.Ok) (hn : n < sb.ninodes)
    (ht : (getDinode sb d n).type ≠ 0) :
    Wp (itrunc sb n (getDinode sb d n)) d
      (fun ip' d' => Sets sb d n none (putDinode sb d' n { ip' with type := 0 }))
      fun _ => False := by
  refine (itrunc_spec h hok hn ht).post ?_
  rintro ip' d' ⟨rfl, hsound, hino, hdata⟩
  set ip' : Dinode := { (getDinode sb d n).truncated with type := 0 } with hip'
  have hfit : ip'.Fits := Dinode.fits_truncated (getDinode sb d n)
  have hself : getDinode sb (putDinode sb d' n ip') n = ip' := getDinode_putDinode_self hfit
  have hothers : ∀ i < sb.ninodes, i ≠ n →
      getDinode sb (putDinode sb d' n ip') i = getDinode sb d i := by
    intro i hi hin
    rw [getDinode_putDinode_of_ne _ hin, hino i hi, Function.update_of_ne hin]
  refine Sets.of_others ?_ hothers ?_ ?_
  · refine Good.sound_putDinode (Good.set_empty hsound (fun sl => ?_) (fun _ => rfl) rfl)
      hok hn hfit
    have htrunc : getDinode sb d' n = (getDinode sb d n).truncated := by
      rw [hino n hn, Function.update_self]
    rw [ownerAddr, htrunc]
    cases sl <;> simp [slotAddr, blockAddr, Dinode.addr, Dinode.truncated]
  · intro i hi hin hti
    refine Good.contents_eq h (fun b hb => ?_) hi hti
    rw [putDinode_of_ne _ hn hb.not_inode, hdata b hb]
  · rw [nodes_eq_none_iff]
    intro _
    rw [hself]

end Nodes

end Xv6.Fs
