import Xv6.Fs.Icache
import Xv6.Fs.Nodes

/-!
# References to inodes

Bookkeeping for the inode cache. A `Ghost` records, for each entry of the cache, how many
references the world outside the running call has to it (`held`) and how many the call has
(`own`), with the nodes on disk. `Holds` ties it to the cache: counts are exact, no inode is
cached twice, an entry that was read agrees with the disk, and an inode without links is in
use. Each routine of the cache then acts on the ghost as a simple update.
-/

namespace Xv6.Fs

open Lib

/-- The entry with index `i` of a directory with the bytes `c`. -/
def direntAt (c : List UInt8) (i : ℕ) : List UInt8 := (c.drop (DIRENT * i)).take DIRENT

/-- Every entry of the directory names an inode number below `m`. -/
def InodesBelow (m : ℕ) (c : List UInt8) : Prop :=
  ∀ i < c.length / DIRENT, direntInum (direntAt c i) < m

/-- Two disks with the same inode records and the same blocks outside the inode area. -/
structure SameDisk (sb : SuperBlock) (d d' : Disk) : Prop where
  record : ∀ i < sb.ninodes, getDinode sb d' i = getDinode sb d i
  block : ∀ b, ¬ sb.InodeBlock b → d' b = d b

theorem SameDisk.trans {sb : SuperBlock} {d d' d'' : Disk} (h : SameDisk sb d d')
    (h' : SameDisk sb d' d'') : SameDisk sb d d'' :=
  ⟨fun i hi => (h'.record i hi).trans (h.record i hi),
    fun b hb => (h'.block b hb).trans (h.block b hb)⟩

theorem SameDisk.refl (sb : SuperBlock) (d : Disk) : SameDisk sb d d :=
    ⟨fun _ _ => rfl, fun _ _ => rfl⟩

/-- The references to cache entries, and the nodes on disk. -/
@[ext]
structure Ghost where
  nodes : ℕ → Option Node
  /-- The disk, if it is known that nothing on it has changed. -/
  disk : Option Disk
  held : Ip → ℕ
  own : Ip → ℕ
  inum : Ip → ℕ
  lock : Ip → Bool
  /-- The type that some holder outside the call relies on. -/
  type : Ip → Option Int16

namespace Ghost

/-- References to an entry. -/
def refs (g : Ghost) (ip : Ip) : ℕ := g.held ip + g.own ip

/-- The node of the inode an entry stands for. -/
def node (g : Ghost) (ip : Ip) : Option Node := g.nodes (g.inum ip)

/-- No two entries in use stand for the same inode. -/
def Unique (g : Ghost) : Prop :=
  ∀ ip jp, 0 < g.refs ip → 0 < g.refs jp → g.inum ip = g.inum jp → ip = jp

/-- The call takes a reference to inode `n` at entry `ip`. -/
@[simps -fullyApplied]
def take (g : Ghost) (ip : Ip) (n : ℕ) : Ghost :=
  { g with own := Function.update g.own ip (g.own ip + 1), inum := Function.update g.inum ip n }

/-- The call drops a reference. -/
@[simps -fullyApplied]
def drop (g : Ghost) (ip : Ip) : Ghost :=
  { g with own := Function.update g.own ip (g.own ip - 1) }

/-- Lock or unlock an entry. -/
@[simps -fullyApplied]
def setLock (g : Ghost) (ip : Ip) (b : Bool) : Ghost :=
  { g with lock := Function.update g.lock ip b }

/-- Replace the node of an inode. -/
@[simps -fullyApplied]
def setNode (g : Ghost) (n : ℕ) (v : Option Node) : Ghost :=
  { g with
    nodes := Function.update g.nodes n v
    disk := none }

/-- Take note of the disk. -/
@[simps -fullyApplied]
def stamp (g : Ghost) (d : Disk) : Ghost := { g with disk := some d }

/-- A reference of the world outside the call is gone. -/
@[simps -fullyApplied]
def unhold (g : Ghost) (ip : Ip) : Ghost :=
  { g with held := Function.update g.held ip (g.held ip - 1) }

/-- Replace all nodes. -/
@[simps -fullyApplied]
def setNodes (g : Ghost) (N : ℕ → Option Node) : Ghost :=
  { g with
    nodes := N
    disk := none }

section Commute

variable (g : Ghost) (ip jp : Ip) (n m : ℕ) (b : Bool) (u v : Option Node)

-- the normal form of a ghost has its nodes changed first, then the references, then the locks
theorem setNode_take : (g.take ip n).setNode m v = (g.setNode m v).take ip n := rfl

theorem setNode_setLock : (g.setLock ip b).setNode m v = (g.setNode m v).setLock ip b := rfl

theorem setNode_setNode : (g.setNode n u).setNode n v = g.setNode n v := by
  ext1 <;> try rfl
  simp

variable {g m n}

/-- Changes of two different nodes commute. -/
theorem setNode_comm (hmn : m ≠ n) : (g.setNode m u).setNode n v = (g.setNode n v).setNode m u := by
  ext1 <;> try rfl
  simp [Function.update_comm hmn]

theorem setNode_eq_self (h : g.nodes n = v) (hdisk : g.disk = none) : g.setNode n v = g := by
  ext1 <;> try rfl
  · simp [← h]
  · exact hdisk.symm

end Commute

end Ghost

/-- What holds of one entry of the cache. -/
structure EntryOk (sb : SuperBlock) (d : Disk) (g : Ghost) (ip : Ip) (i : Inode) : Prop where
  ref : i.ref = g.refs ip
  lock : i.lock = g.lock ip
  inum : 0 < i.ref → i.inum = g.inum ip
  lt : 0 < i.ref → g.inum ip < sb.ninodes
  sync : 0 < i.ref → i.valid = true → i.din = getDinode sb d (g.inum ip) ∧ g.node ip ≠ none
  locked : i.lock = true → 0 < i.ref ∧ i.valid = true
  typed : ∀ t, 0 < g.held ip → g.type ip = some t →
    i.valid = true ∧ ∃ nd, g.node ip = some nd ∧ nd.type = t

/-- The state agrees with the ghost. An inode of the set `orphans` may be without links and
references, as a crash leaves it. -/
structure Holds (sb : SuperBlock) (orphans : Set ℕ) (g : Ghost) (s : Ic) : Prop where
  layout : sb.Ok
  sound : Sound sb s.disk
  nodes_eq : nodes sb s.disk = g.nodes
  disk_eq : ∀ d, g.disk = some d → SameDisk sb d s.disk
  entry : ∀ ip, EntryOk sb s.disk g ip (s.icache ip)
  unique : g.Unique
  dirs : ∀ n nd, g.nodes n = some nd → nd.type = T_DIR → InodesBelow sb.ninodes nd.data
  kept : ∀ n nd, g.nodes n = some nd → nd.nlink = 0 →
    n ∈ orphans ∨ ∃ ip, 0 < g.refs ip ∧ g.inum ip = n ∧ (s.icache ip).valid = true

section Set

variable (s : Ic) {ip jp : Ip} (i j : Inode)

@[simp] theorem Ic.set_disk : (s.set ip i).disk = s.disk := rfl

@[simp] theorem Ic.set_icache_self : (s.set ip i).icache ip = i := Function.update_self ..

theorem Ic.set_icache_of_ne (h : jp ≠ ip) : (s.set ip i).icache jp = s.icache jp :=
  Function.update_of_ne h _ _

theorem Ic.set_eq_self (ip : Ip) : s.set ip (s.icache ip) = s := by
  simp [Ic.set]

@[simp] theorem Ic.set_disk_set (d : Disk) :
    Ic.set ⟨d, (s.set ip i).icache⟩ ip j = Ic.set { s with disk := d } ip j := by
  simp [Ic.set]

@[simp] theorem Ic.set_set : (s.set ip i).set ip j = s.set ip j := by
  simp [Ic.set]

end Set

section Entry

variable {sb : SuperBlock} {orphans : Set ℕ} {g g' : Ghost} {s : Ic} {ip : Ip} {i : Inode}

/-- Change one entry of the cache, and the ghost for that entry only. -/
theorem Holds.set_entry (h : Holds sb orphans g s) (hnodes : g'.nodes = g.nodes)
    (hdisk : g'.disk = g.disk)
    (hg : ∀ jp, jp ≠ ip → g'.held jp = g.held jp ∧ g'.own jp = g.own jp ∧
      g'.inum jp = g.inum jp ∧ g'.lock jp = g.lock jp ∧ g'.type jp = g.type jp)
    (hi : EntryOk sb s.disk g' ip i)
    (hunique : 0 < i.ref → ∀ jp, jp ≠ ip → 0 < g.refs jp → g.inum jp ≠ g'.inum ip)
    (hkept : ∀ nd, 0 < g.refs ip → (s.icache ip).valid = true → g.node ip = some nd →
      nd.nlink = 0 → 0 < i.ref ∧ i.valid = true ∧ g'.inum ip = g.inum ip) :
    Holds sb orphans g' (s.set ip i) := by
  have hrefs : ∀ jp, jp ≠ ip → g'.refs jp = g.refs jp := fun jp hjp => by
    obtain ⟨hheld, hown, -⟩ := hg jp hjp
    rw [Ghost.refs, hheld, hown, Ghost.refs]
  refine ⟨h.layout, h.sound, h.nodes_eq.trans hnodes.symm, hdisk ▸ h.disk_eq, fun jp => ?_,
    fun jp kp hj hk hjk => ?_, hnodes ▸ h.dirs, fun n nd hn hlink => ?_⟩
  -- the other entries are as before, and so is their ghost
  · by_cases hjp : jp = ip
    · subst hjp
      simpa using hi
    · obtain ⟨hheld, hown, hinum, hlock, htype⟩ := hg jp hjp
      have hnode : g'.node jp = g.node jp := by rw [Ghost.node, hnodes, hinum, Ghost.node]
      have he := h.entry jp
      rw [Ic.set_icache_of_ne _ _ hjp]
      refine ⟨by rw [he.ref, hrefs jp hjp], by rw [he.lock, hlock], ?_, ?_, ?_, he.locked, ?_⟩
      · rw [hinum]
        exact he.inum
      · rw [hinum]
        exact he.lt
      · rw [hinum, hnode]
        exact he.sync
      · rw [hheld, htype, hnode]
        exact he.typed
  · by_cases hjp : jp = ip <;> by_cases hkp : kp = ip
    · rw [hjp, hkp]
    · subst hjp
      rw [hrefs kp hkp] at hk
      rw [(hg kp hkp).2.2.1] at hjk
      exact absurd hjk.symm (hunique (by rwa [hi.ref]) kp hkp hk)
    · subst hkp
      rw [hrefs jp hjp] at hj
      rw [(hg jp hjp).2.2.1] at hjk
      exact absurd hjk (hunique (by rwa [hi.ref]) jp hjp hj)
    · rw [hrefs jp hjp] at hj
      rw [hrefs kp hkp] at hk
      rw [(hg jp hjp).2.2.1, (hg kp hkp).2.2.1] at hjk
      exact h.unique jp kp hj hk hjk
  · rw [hnodes] at hn
    refine (h.kept n nd hn hlink).imp_right ?_
    rintro ⟨jp, hpos, hinum, hvalid⟩
    refine ⟨jp, ?_⟩
    by_cases hjp : jp = ip
    · subst hjp
      obtain ⟨href, hv, heq⟩ := hkept nd hpos hvalid (by rwa [Ghost.node, hinum]) hlink
      rw [← hi.ref]
      rw [Ic.set_icache_self]
      exact ⟨href, heq.trans hinum, hv⟩
    · rw [hrefs jp hjp, (hg jp hjp).2.2.1]
      rw [Ic.set_icache_of_ne _ _ hjp]
      exact ⟨hpos, hinum, hvalid⟩

/-- References change hands. -/
theorem Holds.rehold (h : Holds sb orphans g s) (hnodes : g'.nodes = g.nodes)
    (hdisk : ∀ d, g'.disk = some d → SameDisk sb d s.disk) (hinum : g'.inum = g.inum)
    (hlock : g'.lock = g.lock) (hrefs : g'.refs = g.refs)
    (htyped : ∀ ip t, 0 < g'.held ip → g'.type ip = some t →
      (s.icache ip).valid = true ∧ ∃ nd, g.node ip = some nd ∧ nd.type = t) :
    Holds sb orphans g' s := by
  have hnode : g'.node = g.node := by
    funext ip
    rw [Ghost.node, hnodes, hinum, Ghost.node]
  refine ⟨h.layout, h.sound, h.nodes_eq.trans hnodes.symm, hdisk, fun ip => ?_, ?_, hnodes ▸ h.dirs,
    ?_⟩
  · have he := h.entry ip
    refine ⟨by rw [he.ref, hrefs], by rw [he.lock, hlock], ?_, ?_, ?_, he.locked, ?_⟩
    · rw [hinum]
      exact he.inum
    · rw [hinum]
      exact he.lt
    · rw [hinum, hnode]
      exact he.sync
    · rw [hnode]
      exact htyped ip
  · intro ip jp
    rw [hrefs, hinum]
    exact h.unique ip jp
  · rw [hnodes, hrefs, hinum]
    exact h.kept

/-- Take note of the disk. -/
theorem Holds.stamp (h : Holds sb orphans g s) : Holds sb orphans (g.stamp s.disk) s := by
  refine h.rehold rfl (fun d hd => ?_) rfl rfl rfl fun ip => (h.entry ip).typed
  obtain rfl := Option.some.inj hd
  exact .refl sb s.disk

theorem Holds.ref_eq (h : Holds sb orphans g s) (ip : Ip) : (s.icache ip).ref = g.refs ip :=
  (h.entry ip).ref

theorem Holds.node_lt (h : Holds sb orphans g s) {n : ℕ} (hn : g.nodes n ≠ none) :
    n < sb.ninodes := by
  rw [← h.nodes_eq] at hn
  by_contra hlt
  exact hn (nodes_eq_none_iff.mpr fun h => absurd h hlt)

/-- The record of an inode on the disk that was noted. -/
theorem Holds.fits_stamp (h : Holds sb orphans g s) {d : Disk} (hd : g.disk = some d) {n : ℕ}
    {nd : Node} (hnd : g.nodes n = some nd) : (getDinode sb d n).Fits := by
  rw [← h.nodes_eq] at hnd
  obtain ⟨hlt, htype, -⟩ := nodes_eq_some_iff.mp hnd
  rw [← (h.disk_eq d hd).record n hlt]
  exact Good.fits h.sound h.layout hlt htype

end Entry

/-! ### Running the cache -/

section Rules

variable {α : Type} {s : Ic} {ip : Ip} {E : Fault → Prop}

@[simp] theorem wp_inode {Q : Inode → Ic → Prop} : Wp (inode ip) s Q E ↔
    Q (s.icache ip) s := Iff.rfl

@[simp] theorem wp_modifyInode {f : Inode → Inode} {Q : Unit → Ic → Prop} :
    Wp (modifyInode ip f) s Q E ↔
      Q () (s.set ip (f (s.icache ip))) := Iff.rfl

theorem wp_onInode {f : Inode → DiskM (α × Dinode)} {Q : α → Ic → Prop} :
    Wp (onInode ip f) s Q E ↔ Wp (f (s.icache ip)) s.disk
      (fun r d => Q r.1 (({ s with disk := d } : Ic).set ip { s.icache ip with din := r.2 }))
      E := by
  unfold Wp onInode
  cases f (s.icache ip) s.disk <;> rfl

/-- Locking an inode whose entry has its fields on disk, or has not read them. -/
theorem wp_ilock_synced {e : Env} (href : 0 < (s.icache ip).ref)
    (hlock : (s.icache ip).lock = false)
    (hsync : (s.icache ip).valid = true →
      (s.icache ip).din = getDinode e.sb s.disk (s.icache ip).inum)
    (ht : (getDinode e.sb s.disk (s.icache ip).inum).type ≠ 0) {Q : Unit → Ic → Prop} :
    Wp (ilock e ip) s Q E ↔ Q () (s.set ip
      ⟨⟨(s.icache ip).inum, (s.icache ip).ref, true, true⟩,
        getDinode e.sb s.disk (s.icache ip).inum⟩) := by
  unfold ilock
  rw [Wp.bind_iff, wp_inode, if_neg (by omega), hlock, if_neg (by decide), Wp.bind_iff,
    wp_modifyInode]
  by_cases hvalid : (s.icache ip).valid = true
  · rw [if_pos hvalid, Wp.pure_iff, ← hsync hvalid, ← hvalid]
  · rw [if_neg hvalid, iread]
    simp only [Wp.bind_iff, Wp.get_iff, wp_modifyInode, Ic.set_disk, Ic.set_icache_self, Ic.set_set,
      if_neg ht, Wp.pure_iff]

end Rules

section References

variable {sb : SuperBlock} {orphans : Set ℕ} {g : Ghost} {s : Ic} {ip : Ip} {n : ℕ}

theorem Ghost.refs_take (g : Ghost) (ip jp : Ip) (n : ℕ) :
    (g.take ip n).refs jp = if jp = ip then g.refs ip + 1 else g.refs jp := by
  unfold Ghost.refs Ghost.take
  by_cases h : jp = ip
  · subst h
    simp [Nat.add_assoc]
  · simp [h]

/-- A further reference to an entry in use. -/
theorem Holds.take_held (h : Holds sb orphans g s) (hpos : 0 < g.refs ip) (hn : g.inum ip = n) :
    Holds sb orphans (g.take ip n)
      (s.set ip { s.icache ip with ref := (s.icache ip).ref + 1 }) := by
  have he := h.entry ip
  have hpos' : 0 < (s.icache ip).ref := by rwa [he.ref]
  have hinum : (g.take ip n).inum = g.inum := by
    simp only [Ghost.take, ← hn, Function.update_eq_self]
  refine h.set_entry rfl rfl (fun jp hjp => ?_)
    ⟨?_, he.lock, fun _ => ?_, fun _ => ?_, fun _ hv => ?_,
    fun hl => ⟨Nat.succ_pos _, (he.locked hl).2⟩, ?_⟩ (fun _ jp hjp hj => ?_) fun nd _ hv _ _ => ?_
  · rw [hinum]
    simp [Ghost.take, hjp]
  · simp [Ghost.refs_take, he.ref]
  · rw [hinum]
    exact he.inum hpos'
  · rw [hinum]
    exact he.lt hpos'
  · rw [Ghost.node, hinum]
    exact he.sync hpos' hv
  · rw [Ghost.node, hinum]
    exact he.typed
  · rw [hinum]
    exact fun heq => hjp (h.unique jp ip hj hpos heq)
  · exact ⟨Nat.succ_pos _, hv, by rw [hinum]⟩

/-- A first reference, at an entry that was not in use. -/
theorem Holds.take_fresh (h : Holds sb orphans g s) (hzero : g.refs ip = 0) (hn : n < sb.ninodes)
    (hnew : ∀ jp, 0 < g.refs jp → g.inum jp ≠ n) :
    Holds sb orphans (g.take ip n)
      (s.set ip { s.icache ip with inum := n, ref := 1, valid := false }) := by
  have he := h.entry ip
  have hinum : (g.take ip n).inum ip = n := by simp [Ghost.take]
  have hunlocked : (s.icache ip).lock ≠ true := fun hl => by
    have := (he.locked hl).1
    rw [he.ref, hzero] at this
    exact absurd this (Nat.lt_irrefl 0)
  refine h.set_entry rfl rfl (fun jp hjp => by simp [Ghost.take, hjp])
    ⟨?_, he.lock, fun _ => hinum.symm,
      fun _ => by rwa [hinum], fun _ hv => by simp at hv,
      fun hl => absurd hl hunlocked, fun t ht => ?_⟩
    (fun _ jp _ hj => ?_) fun nd hpos => by rw [hzero] at hpos; omega
  · simp [Ghost.refs_take, hzero]
  · have : g.held ip = 0 := by
      unfold Ghost.refs at hzero
      omega
    simp only [Ghost.take, this] at ht
    omega
  · rw [hinum]
    exact hnew jp hj

/-- Every entry of the cache is in use. -/
def Ghost.Full (g : Ghost) : Prop := ∀ ip, 0 < g.refs ip

/-- A reference to inode `n`: one more to the entry that has it, or a free entry that takes it. -/
theorem wp_iget (n : ℕ) (s : Ic) :
    Wp (iget n) s
      (fun ip s' =>
        (0 < (s.icache ip).ref ∧ (s.icache ip).inum = n ∧
          s' = s.set ip { s.icache ip with ref := (s.icache ip).ref + 1 }) ∨
        ((s.icache ip).ref = 0 ∧ (∀ jp, 0 < (s.icache jp).ref → (s.icache jp).inum ≠ n) ∧
          s' = s.set ip { s.icache ip with inum := n, ref := 1, valid := false }))
      fun e => e = .panic .iget ∧ (∀ ip, 0 < (s.icache ip).ref) ∧ ∀ ip, (s.icache ip).inum ≠ n := by
  unfold iget
  rw [Wp.bind_iff, Wp.get_iff]
  split
  case h_1 ip hip =>
    have hfound := List.find?_some hip
    simp only [decide_eq_true_eq] at hfound
    exact .inl ⟨hfound.1, hfound.2, rfl⟩
  case h_2 hnone =>
    have hnew : ∀ jp, 0 < (s.icache jp).ref → (s.icache jp).inum ≠ n := by
      intro jp hj heq
      exact List.find?_eq_none.mp hnone jp (List.mem_finRange jp) (decide_eq_true ⟨hj, heq⟩)
    split
    case h_1 ip hip => exact .inr ⟨by simpa using List.find?_some hip, hnew, rfl⟩
    case h_2 hfull =>
      have hpos : ∀ ip, 0 < (s.icache ip).ref := fun ip => Nat.pos_of_ne_zero fun hzero =>
        List.find?_eq_none.mp hfull ip (List.mem_finRange ip) (decide_eq_true hzero)
      exact ⟨rfl, hpos, fun ip => hnew ip (hpos ip)⟩

theorem iget_spec (h : Holds sb orphans g s) (hn : n < sb.ninodes) :
    Wp (iget n) s (fun ip s' => Holds sb orphans (g.take ip n) s' ∧ (0 < g.refs ip → g.inum ip = n))
      fun e => e = .panic .iget ∧ g.Full := by
  refine (wp_iget n s).mono ?_ ?_
  · rintro ip s' (⟨hpos, hinum, rfl⟩ | ⟨hzero, hnew, rfl⟩)
    · have hinum' : g.inum ip = n := by rwa [← (h.entry ip).inum hpos]
      rw [h.ref_eq] at hpos
      exact ⟨h.take_held hpos hinum', fun _ => hinum'⟩
    · have hnew' : ∀ jp, 0 < g.refs jp → g.inum jp ≠ n := by
        intro jp hj
        rw [← h.ref_eq] at hj
        rw [← (h.entry jp).inum hj]
        exact hnew jp hj
      rw [h.ref_eq] at hzero
      exact ⟨h.take_fresh hzero hn hnew', fun hpos => by omega⟩
  · rintro err ⟨rfl, hfull, -⟩
    refine ⟨rfl, fun ip => ?_⟩
    rw [← h.ref_eq]
    exact hfull ip

theorem idup_spec (h : Holds sb orphans g s) (hpos : 0 < g.refs ip) :
    Wp (idup ip) s (fun jp s' => jp = ip ∧ Holds sb orphans (g.take ip (g.inum ip)) s')
      fun _ => False := by
  unfold idup
  rw [Wp.bind_iff, wp_modifyInode, Wp.pure_iff]
  exact ⟨rfl, h.take_held hpos rfl⟩

end References

section Locks

variable {e : Env} {orphans : Set ℕ} {g : Ghost} {s : Ic} {ip : Ip}

/-- Lock an entry whose fields have been read. -/
theorem Holds.lock_entry {sb : SuperBlock} (h : Holds sb orphans g s) (hpos : 0 < g.refs ip)
    (hnode : g.node ip ≠ none) :
    Holds sb orphans (g.setLock ip true) (s.set ip { s.icache ip with
      lock := true, din := getDinode sb s.disk (g.inum ip), valid := true }) := by
  have he := h.entry ip
  refine h.set_entry rfl rfl (fun jp hjp => by simp [Ghost.setLock, hjp])
    ⟨he.ref, ?_, he.inum, he.lt,
    fun _ _ => ⟨rfl, hnode⟩, fun _ => ⟨by rwa [he.ref], rfl⟩, fun t ht htype => ?_⟩
    (fun _ jp hjp hj heq => ?_) fun nd _ _ _ _ => ⟨by rwa [he.ref], rfl, rfl⟩
  · simp [Ghost.setLock]
  · exact ⟨rfl, (he.typed t ht htype).2⟩
  · exact hjp (h.unique jp ip hj hpos heq)

theorem ilock_spec (h : Holds e.sb orphans g s) (hpos : 0 < g.refs ip) :
    Wp (ilock e ip) s
      (fun _ s' => Holds e.sb orphans (g.setLock ip true) s' ∧ g.node ip ≠ none ∧ g.lock ip = false)
      fun err => err = .hang ∧ g.lock ip = true ∨
        err = .panic .ilockNoType ∧ g.node ip = none := by
  have he := h.entry ip
  have hpos' : 0 < (s.icache ip).ref := by rwa [he.ref]
  unfold ilock
  rw [Wp.bind_iff, wp_inode, if_neg (by omega)]
  by_cases hlock : (s.icache ip).lock = true
  · rw [if_pos hlock]
    exact .inl ⟨rfl, by rw [← he.lock]; exact hlock⟩
  · have hfree : g.lock ip = false := by rwa [← he.lock, ← Bool.not_eq_true]
    rw [if_neg hlock, Wp.bind_iff, wp_modifyInode]
    by_cases hvalid : (s.icache ip).valid = true
    · rw [if_pos hvalid]
      obtain ⟨hdin, hnode⟩ := he.sync hpos' hvalid
      have := h.lock_entry hpos hnode
      rw [← hdin] at this
      rw [Wp.pure_iff, hvalid]
      exact ⟨this, hnode, hfree⟩
    · -- the fields are read from disk
      rw [if_neg hvalid]
      unfold iread
      have hread : getDinode e.sb s.disk (s.icache ip).inum =
        getDinode e.sb s.disk (g.inum ip) := by
        rw [he.inum hpos']
      simp only [Wp.bind_iff, Wp.get_iff, wp_modifyInode, Ic.set_disk,
        Ic.set_icache_self, Ic.set_set,
        hread]
      have hiff : g.node ip = none ↔ (getDinode e.sb s.disk (g.inum ip)).type = 0 := by
        rw [Ghost.node, ← h.nodes_eq, nodes_eq_none_iff]
        simp [he.lt hpos']
      split_ifs with htype
      · exact .inr ⟨rfl, hiff.mpr htype⟩
      · have hnode : g.node ip ≠ none := fun hnone => htype (hiff.mp hnone)
        exact ⟨h.lock_entry hpos hnode, hnode, hfree⟩

theorem iunlock_spec {sb : SuperBlock} (h : Holds sb orphans g s) (hlock : g.lock ip = true) :
    Wp (iunlock ip) s (fun _ s' => Holds sb orphans (g.setLock ip false) s') fun _ => False := by
  have he := h.entry ip
  have hlock' : (s.icache ip).lock = true := by rw [he.lock, hlock]
  obtain ⟨hpos, hvalid⟩ := he.locked hlock'
  unfold iunlock
  rw [Wp.bind_iff, wp_inode, if_neg (by rw [hlock']; simp; omega), wp_modifyInode]
  refine h.set_entry rfl rfl (fun jp hjp => by simp [Ghost.setLock, hjp])
    ⟨he.ref, ?_, he.inum, he.lt,
    he.sync, fun hl => by simp at hl, he.typed⟩ (fun _ jp hjp hj heq => ?_)
    fun nd _ hv _ _ => ⟨hpos, hv, rfl⟩
  · simp [Ghost.setLock]
  · exact hjp (h.unique jp ip hj (by rwa [← he.ref]) heq)

/-- The fields of a locked entry are those on disk. -/
theorem Holds.locked_node {sb : SuperBlock} (h : Holds sb orphans g s) (hlock : g.lock ip = true) :
    (s.icache ip).inum = g.inum ip ∧ g.inum ip < sb.ninodes ∧
      (s.icache ip).din = getDinode sb s.disk (g.inum ip) ∧
      (getDinode sb s.disk (g.inum ip)).type ≠ 0 ∧
      g.node ip = some ((getDinode sb s.disk (g.inum ip)).node s.disk) := by
  have he := h.entry ip
  obtain ⟨hpos, hvalid⟩ := he.locked (by rw [he.lock, hlock])
  obtain ⟨hdin, hnode⟩ := he.sync hpos hvalid
  obtain ⟨nd, hnd⟩ := Option.ne_none_iff_exists'.mp hnode
  have hnd' : nodes sb s.disk (g.inum ip) = some nd := by rw [h.nodes_eq]; exact hnd
  obtain ⟨hlt, htype, rfl⟩ := nodes_eq_some_iff.mp hnd'
  exact ⟨he.inum hpos, hlt, hdin, htype, hnd⟩

theorem Holds.locked_eq {sb : SuperBlock} (h : Holds sb orphans g s) (hlock : g.lock ip = true)
    {nd : Node} (hnd : g.node ip = some nd) :
    (s.icache ip).inum = g.inum ip ∧ g.inum ip < sb.ninodes ∧
      (s.icache ip).din = getDinode sb s.disk (g.inum ip) ∧
      (getDinode sb s.disk (g.inum ip)).type ≠ 0 ∧
      (getDinode sb s.disk (g.inum ip)).node s.disk = nd := by
  obtain ⟨hinum, hlt, hdin, htype, hnode⟩ := h.locked_node hlock
  rw [hnd] at hnode
  exact ⟨hinum, hlt, hdin, htype, (Option.some.inj hnode).symm⟩

theorem Holds.refs_of_lock {sb : SuperBlock} (h : Holds sb orphans g s) (hlock : g.lock ip = true) :
    0 < g.refs ip := by
  have he := h.entry ip
  rw [← he.ref]
  exact (he.locked (by rw [he.lock, hlock])).1

end Locks

/-! ### Changing a node -/

section SetNode

variable {sb : SuperBlock} {orphans : Set ℕ} {g g' : Ghost} {s : Ic} {ip : Ip}
    {i : Inode} {d' : Disk}
  {v : Option Node}

/-- The node of one inode changes on disk, together with the entry of the cache for it. -/
theorem Holds.set_node (h : Holds sb orphans g s) (hpos : 0 < g.refs ip)
    (hsets : Sets sb s.disk (g.inum ip) v d')
    (hnodes : g'.nodes = Function.update g.nodes (g.inum ip) v) (hdisk : g'.disk = none)
    (hinum : g'.inum = g.inum)
    (hg : ∀ jp, jp ≠ ip → g'.held jp = g.held jp ∧ g'.own jp = g.own jp ∧
      g'.lock jp = g.lock jp ∧ g'.type jp = g.type jp)
    (hi : EntryOk sb d' g' ip i)
    (hdirs : ∀ nd, v = some nd → nd.type = T_DIR → InodesBelow sb.ninodes nd.data)
    (hkept : ∀ nd, v = some nd → nd.nlink = 0 → 0 < i.ref ∧ i.valid = true) :
    Holds sb orphans g' (({ s with disk := d' } : Ic).set ip i) := by
  have hrefs : ∀ jp, jp ≠ ip → g'.refs jp = g.refs jp := fun jp hjp => by
    obtain ⟨hheld, hown, -⟩ := hg jp hjp
    rw [Ghost.refs, hheld, hown, Ghost.refs]
  have hne : ∀ jp, jp ≠ ip → 0 < g.refs jp → g.inum jp ≠ g.inum ip := fun jp hjp hj heq =>
    hjp (h.unique jp ip hj hpos heq)
  -- only the entry `ip` and the node of its inode change
  refine ⟨h.layout, hsets.sound, ?_, fun d hd => ?_, fun jp => ?_, fun jp kp hj hk hjk => ?_,
    fun n nd hn ht => ?_, fun n nd hn hlink => ?_⟩
  · rw [hnodes, ← h.nodes_eq]
    exact hsets.nodes_eq
  · rw [hdisk] at hd
    cases hd
  · by_cases hjp : jp = ip
    · subst hjp
      simpa using hi
    · obtain ⟨hheld, hown, hlock, htype⟩ := hg jp hjp
      have he := h.entry jp
      have hnode : 0 < g.refs jp → g'.node jp = g.node jp := fun hj => by
        rw [Ghost.node, hnodes, hinum, Function.update_of_ne (hne jp hjp hj), Ghost.node]
      rw [Ic.set_icache_of_ne _ _ hjp]
      refine ⟨by rw [he.ref, hrefs jp hjp], by rw [he.lock, hlock], ?_, ?_, fun hj hv => ?_,
        he.locked, fun t ht => ?_⟩
      · rw [hinum]
        exact he.inum
      · rw [hinum]
        exact he.lt
      · have hj' : 0 < g.refs jp := by rwa [← he.ref]
        rw [hnode hj', hinum, Ic.set_disk, hsets.others _ (he.lt hj) (hne jp hjp hj')]
        exact he.sync hj hv
      · rw [hheld] at ht
        rw [htype, hnode (Nat.add_pos_left ht _)]
        exact he.typed t ht
  · have hback : ∀ jp, 0 < g'.refs jp → 0 < g.refs jp := fun jp hj => by
      by_cases hjp : jp = ip
      · rwa [hjp]
      · rwa [← hrefs jp hjp]
    rw [hinum] at hjk
    exact h.unique jp kp (hback jp hj) (hback kp hk) hjk
  · rw [hnodes] at hn
    by_cases hnip : n = g.inum ip
    · rw [hnip, Function.update_self] at hn
      exact hdirs nd hn ht
    · rw [Function.update_of_ne hnip] at hn
      exact h.dirs n nd hn ht
  · rw [hnodes] at hn
    by_cases hnip : n = g.inum ip
    · rw [hnip, Function.update_self] at hn
      obtain ⟨href, hvalid⟩ := hkept nd hn hlink
      refine .inr ⟨ip, ?_, by rw [hinum, hnip], by rwa [Ic.set_icache_self]⟩
      rwa [← hi.ref]
    · rw [Function.update_of_ne hnip] at hn
      refine (h.kept n nd hn hlink).imp_right ?_
      rintro ⟨jp, hj, hjn, hvalid⟩
      have hjp : jp ≠ ip := by
        rintro rfl
        exact hnip hjn.symm
      exact ⟨jp, by rwa [hrefs jp hjp], by rw [hinum, hjn], by rwa [Ic.set_icache_of_ne _ _ hjp]⟩

end SetNode

section Update

variable {e : Env} {orphans : Set ℕ} {g : Ghost} {s : Ic} {ip : Ip} {nd nd' : Node}

/-- Change the node of a locked entry on disk and its fields in the cache alike. -/
theorem Holds.set_locked {d' : Disk} (h : Holds e.sb orphans g s) (hlock : g.lock ip = true)
    (hnd : g.node ip = some nd) (hsets : Sets e.sb s.disk (g.inum ip) (some nd') d')
    (htype : nd'.type = nd.type)
    (hdirs : nd'.type = T_DIR → InodesBelow e.sb.ninodes nd'.data) :
    Holds e.sb orphans (g.setNode (g.inum ip) (some nd'))
      (({ s with disk := d' } : Ic).set ip
        { s.icache ip with din := getDinode e.sb d' (g.inum ip) }) := by
  have he := h.entry ip
  obtain ⟨hpos, hvalid⟩ := he.locked (by rw [he.lock, hlock])
  have hnode : (g.setNode (g.inum ip) (some nd')).node ip = some nd' := by
    simp [Ghost.setNode, Ghost.node]
  refine h.set_node (h.refs_of_lock hlock) hsets rfl rfl rfl
    (fun jp _ => ⟨rfl, rfl, rfl, rfl⟩) ⟨he.ref, he.lock, he.inum, he.lt,
      fun _ _ => ⟨rfl, by rw [hnode]; simp⟩, he.locked, fun t ht htype' => ⟨hvalid, nd', hnode, ?_⟩⟩
    (fun nd'' hnd'' => ?_) fun nd'' _ _ => ⟨hpos, hvalid⟩
  · obtain ⟨-, nd₀, hnd₀, rfl⟩ := he.typed t ht htype'
    rw [hnd] at hnd₀
    rw [htype, Option.some.inj hnd₀]
  · obtain rfl := Option.some.inj hnd''
    exact hdirs

/-- Assign to fields of a locked inode other than type, size and addresses, then
`iupdate`. -/
theorem iupdate_ip_spec (h : Holds e.sb orphans g s) (hlock : g.lock ip = true)
    (hnd : g.node ip = some nd) (f : Dinode → Dinode)
    (hf : ∀ i, (f i).type = i.type ∧ (f i).size = i.size ∧ (f i).addrs = i.addrs)
    (hnode' : ∀ i d, Dinode.node i d = nd → (f i).node d = nd') :
    Wp (do
        modifyInode ip fun i => { i with din := f i.din }
        iupdateIp e ip) s
      (fun _ s' => Holds e.sb orphans (g.setNode (g.inum ip) (some nd')) s') fun _ => False := by
  obtain ⟨hinum, hlt, hdin, htype, rfl⟩ := h.locked_eq hlock hnd
  obtain ⟨hftype, hfsize, hfaddrs⟩ := hf (getDinode e.sb s.disk (g.inum ip))
  obtain ⟨hsets, hrec⟩ := Sets.iupdate h.sound h.layout hlt htype (by rwa [hftype]) hfsize hfaddrs
  have hnd' := hnode' _ s.disk rfl
  rw [hnd'] at hsets
  have htype' : nd'.type = (getDinode e.sb s.disk (g.inum ip)).type := by rw [← hnd', ← hftype]; rfl
  have hdata : nd'.data = ((getDinode e.sb s.disk (g.inum ip)).node s.disk).data := by
    rw [← hnd']
    unfold Dinode.node contents byteAt blockAddr Dinode.addr
    rw [hfsize, hfaddrs]
  have hgoal := h.set_locked hlock hnd hsets htype' fun ht => by
    rw [hdata]
    exact h.dirs _ _ hnd (htype'.symm.trans ht)
  rw [hrec] at hgoal
  rw [Wp.bind_iff, wp_modifyInode, iupdateIp, wp_onInode, Wp.bind_iff, iupdate, Wp.modify_iff,
    Wp.pure_iff]
  simp only [Ic.set_icache_self, Ic.set_disk, Ic.set_disk_set]
  rw [hinum, hdin]
  exact hgoal

/-- Reading through a locked entry: the bytes of the node, and nothing changes. -/
theorem readi_ip_spec (h : Holds e.sb orphans g s) (hlock : g.lock ip = true)
    (hnd : g.node ip = some nd) (hdev : nd.type ≠ T_DEV) {off len : ℕ} (hlen : len < 2 ^ 32) :
    Wp (onInode ip fun i => readi e i.din off len) s
      (fun r s' => s' = s ∧ r = if nd.data.length < off ∨ 2 ^ 32 ≤ off + len then none
        else some ((nd.data.drop off).take (min len (nd.data.length - off))))
      fun _ => False := by
  obtain ⟨-, hlt, hdin, htype, rfl⟩ := h.locked_eq hlock hnd
  rw [wp_onInode, hdin, Wp, readi_eq h.layout h.sound hlt htype hdev hlen]
  refine ⟨?_, ?_⟩
  · rw [← hdin]
    exact Ic.set_eq_self s ip
  · simp only [Dinode.node, contents_length]

/-- Writing through a locked entry. -/
theorem writei_ip_spec (h : Holds e.sb orphans g s) (hlock : g.lock ip = true)
    (hnd : g.node ip = some nd) (hdev : nd.type ≠ T_DEV) {src : List UInt8} {off : ℕ}
    (hoff : off ≤ nd.data.length) (hmax : off + src.length ≤ MAXFILE * BSIZE)
    (hdirs : nd.type = T_DIR → InodesBelow e.sb.ninodes (overwrite nd.data off src)) :
    Wp (onInode ip fun i => writei e i.inum i.din src off) s
      (fun r s' => r = some src.length ∧ Holds e.sb orphans
        (g.setNode (g.inum ip) (some { nd with data := overwrite nd.data off src })) s')
      fun err => err = .panic .balloc := by
  obtain ⟨hinum, hlt, hdin, htype, rfl⟩ := h.locked_eq hlock hnd
  have hlen : ((getDinode e.sb s.disk (g.inum ip)).node s.disk).data.length =
      (getDinode e.sb s.disk (g.inum ip)).size := contents_length _ _
  have hrej : ¬ WriteRejected (getDinode e.sb s.disk (g.inum ip)) off src.length := by
    have : MAXFILE * BSIZE < 2 ^ 32 := by decide
    unfold WriteRejected
    omega
  rw [wp_onInode, hdin, hinum]
  refine (writei_spec h.layout h.sound hlt htype hdev hrej).mono ?_ fun _ herr => herr.1
  rintro ⟨r, ip'⟩ d' ⟨hr, hw⟩
  refine ⟨hr, ?_⟩
  have hgoal := h.set_locked hlock hnd (hw.sets hlt htype) rfl hdirs
  rw [hw.record] at hgoal
  exact hgoal

/-- A write that is refused leaves all as it was. -/
theorem writei_ip_rejected (h : Holds e.sb orphans g s) (hlock : g.lock ip = true)
    (hnd : g.node ip = some nd) (hdev : nd.type ≠ T_DEV) {src : List UInt8} {off : ℕ}
    (hlen : src.length < 2 ^ 32)
    (hrej : nd.data.length < off ∨ 2 ^ 32 ≤ off + src.length ∨
      MAXFILE * BSIZE < off + src.length) :
    Wp (onInode ip fun i => writei e i.inum i.din src off) s
      (fun r s' => r = none ∧ s' = s) fun _ => False := by
  obtain ⟨-, -, hdin, -, rfl⟩ := h.locked_eq hlock hnd
  have hrej' : WriteRejected (s.icache ip).din off src.length := by
    rw [Dinode.node, contents_length] at hrej
    rw [hdin]
    exact hrej
  rw [wp_onInode, writei_eq_of_rejected (by rw [hdin]; exact hdev) hlen hrej', Wp.pure_iff]
  exact ⟨rfl, Ic.set_eq_self s ip⟩

theorem readi_ip_device (h : Holds e.sb orphans g s) (hlock : g.lock ip = true)
    (hnd : g.node ip = some nd) (hdev : nd.type = T_DEV) {off len : ℕ} :
    Wp (onInode ip fun i => readi e i.din off len) s (fun _ s' => s' = s) fun _ => False := by
  obtain ⟨-, -, hdin, -, rfl⟩ := h.locked_eq hlock hnd
  have htype : (s.icache ip).din.type = T_DEV := by
    rw [hdin]
    exact hdev
  rw [wp_onInode, readi, if_pos htype]
  split
  · exact Ic.set_eq_self s ip
  · exact Ic.set_eq_self s ip

end Update

/-! ### Dropping a reference -/

section Put

variable {e : Env} {orphans : Set ℕ} {g : Ghost} {s : Ic} {ip : Ip}

theorem Ghost.refs_drop (g : Ghost) {ip : Ip} (hown : 0 < g.own ip) :
    (g.drop ip).refs ip = g.refs ip - 1 := by
  simp only [Ghost.refs, Ghost.drop, Function.update_self]
  omega

/-- What dropping the reference of a call to `ip` does to the nodes: nothing, or the inode
had no links and this was its last reference. -/
inductive Ghost.Puts (g : Ghost) (ip : Ip) : Ghost → Prop
  | stays : g.Puts ip (g.drop ip)
  | dies (nd : Node) (hnd : g.node ip = some nd) (hlink : nd.nlink = 0) (hlast : g.refs ip = 1) :
    g.Puts ip ((g.drop ip).setNode (g.inum ip) none)

/-- The reference is dropped and the inode stays. -/
theorem Holds.put_stays {sb : SuperBlock} (h : Holds sb orphans g s) (hown : 0 < g.own ip)
    (hlock : g.lock ip = false)
    (hlive : (s.icache ip).valid = true → (s.icache ip).din.nlink = 0 → (s.icache ip).ref ≠ 1) :
    Holds sb orphans (g.drop ip)
      (s.set ip { s.icache ip with lock := false, ref := (s.icache ip).ref - 1 }) := by
  have he := h.entry ip
  have hpos : 0 < g.refs ip := Nat.add_pos_right _ hown
  have hpos' : 0 < (s.icache ip).ref := by rwa [he.ref]
  refine h.set_entry rfl rfl (fun jp hjp => by simp [Ghost.drop, hjp]) ⟨?_, hlock.symm,
    fun _ => he.inum hpos', fun _ => he.lt hpos', fun _ => he.sync hpos', fun hl => by simp at hl,
    he.typed⟩ (fun _ jp hjp hj heq => hjp (h.unique jp ip hj hpos heq)) fun nd _ hv hnd hlink => ?_
  · simp only [Ghost.refs_drop g hown, he.ref]
  · -- an inode without links has another reference
    obtain ⟨hdin, -⟩ := he.sync hpos' hv
    have hnd' : nodes sb s.disk (g.inum ip) = some nd := by rw [h.nodes_eq]; exact hnd
    obtain ⟨-, -, rfl⟩ := nodes_eq_some_iff.mp hnd'
    have := hlive hv (by rw [hdin]; exact hlink)
    exact ⟨by simp only; omega, hv, rfl⟩

/-- The last reference to an inode without links is dropped. -/
theorem Holds.put_dies {sb : SuperBlock} {d' : Disk} {i : Inode} (h : Holds sb orphans g s)
    (hown : 0 < g.own ip) (hlock : g.lock ip = false) (hlast : g.refs ip = 1)
    (hsets : Sets sb s.disk (g.inum ip) none d') (href : i.ref = 0) (hunlocked : i.lock = false) :
    Holds sb orphans ((g.drop ip).setNode (g.inum ip) none)
      (({ s with disk := d' } : Ic).set ip i) := by
  have hheld : g.held ip = 0 := by
    unfold Ghost.refs at hlast
    omega
  have hnot : ¬ 0 < i.ref := by omega
  refine h.set_node (by omega) hsets rfl rfl rfl
    (fun jp hjp => by simp [Ghost.drop, Ghost.setNode, hjp])
    ⟨?_, hunlocked.trans hlock.symm, fun hpos => absurd hpos hnot, fun hpos => absurd hpos hnot,
      fun hpos => absurd hpos hnot, fun hl => ?_, fun t ht => ?_⟩ (fun nd hnd => by simp at hnd)
    fun nd hnd => by simp at hnd
  · change _ = (g.drop ip).refs ip
    rw [Ghost.refs_drop g hown, href, hlast]
  · rw [hunlocked] at hl
    cases hl
  · simp only [Ghost.setNode, Ghost.drop, hheld] at ht
    omega

theorem iput_spec (h : Holds e.sb orphans g s) (hown : 0 < g.own ip) (hlock : g.lock ip = false) :
    Wp (iput e ip) s (fun _ s' => ∃ g', g.Puts ip g' ∧ Holds e.sb orphans g' s') fun _ =>
      False := by
  have he := h.entry ip
  have hpos : 0 < g.refs ip := Nat.add_pos_right _ hown
  have hpos' : 0 < (s.icache ip).ref := by rwa [he.ref]
  have hlock' : (s.icache ip).lock = false := by rw [he.lock, hlock]
  unfold iput
  rw [Wp.bind_iff, wp_inode, if_neg (by simp [hlock']), Wp.bind_iff, wp_modifyInode, Wp.bind_iff,
    ifree, Wp.bind_iff, wp_inode]
  simp only [Ic.set_icache_self]
  by_cases hfree : (s.icache ip).valid = true ∧ (s.icache ip).din.nlink = 0 ∧ (s.icache ip).ref = 1
  · obtain ⟨hvalid, hlink, hlast⟩ := hfree
    obtain ⟨hdin, hnode⟩ := he.sync hpos' hvalid
    obtain ⟨nd, hnd⟩ := Option.ne_none_iff_exists'.mp hnode
    have hnd' : nodes e.sb s.disk (g.inum ip) = some nd := by rw [h.nodes_eq]; exact hnd
    obtain ⟨hlt, htype, rfl⟩ := nodes_eq_some_iff.mp hnd'
    rw [if_pos ⟨hvalid, hlink, hlast⟩, Wp.bind_iff, wp_onInode, Wp.bind_iff]
    simp only [Ic.set_icache_self, Ic.set_disk, he.inum hpos', hdin]
    refine (itrunc_free_spec h.sound h.layout hlt htype).post fun din d' hsets => ?_
    simp only [Wp.pure_iff, Wp.bind_iff, wp_modifyInode, iupdateIp, wp_onInode,
      iupdate, Wp.modify_iff,
      Ic.set_icache_self, Ic.set_disk, Ic.set_set, Ic.set_disk_set]
    rw [he.ref] at hlast
    refine ⟨_, .dies _ hnd (by rw [← hlink, hdin]; rfl) hlast, ?_⟩
    exact h.put_dies hown hlock hlast hsets (by rw [he.ref, hlast]) rfl
  · rw [if_neg hfree, Wp.pure_iff, Wp.bind_iff, wp_modifyInode, wp_modifyInode]
    simp only [Ic.set_icache_self, Ic.set_set]
    exact ⟨_, .stays, h.put_stays hown hlock fun hv hl hr => hfree ⟨hv, hl, hr⟩⟩

/-- Dropping a reference to an entry that the call may have locked itself. -/
theorem iput_or_hang_spec (h : Holds e.sb orphans g s) (hown : 0 < g.own ip) :
    Wp (iput e ip) s (fun _ s' => ∃ g', g.Puts ip g' ∧ Holds e.sb orphans g' s')
      fun err => err = .hang := by
  by_cases hlock : g.lock ip = true
  · have hlock' : (s.icache ip).lock = true := by rw [(h.entry ip).lock, hlock]
    unfold iput
    rw [Wp.bind_iff, wp_inode, if_pos hlock']
    rfl
  · exact (iput_spec h hown (by simpa using hlock)).mono (fun _ _ => id) fun _ => False.elim

/-- Unlock, then drop the reference. -/
theorem iunlockput_spec (h : Holds e.sb orphans g s) (hown : 0 < g.own ip)
    (hlock : g.lock ip = true) :
    Wp (iunlockput e ip) s
      (fun _ s' => ∃ g', (g.setLock ip false).Puts ip g' ∧ Holds e.sb orphans g' s')
      fun _ => False := by
  unfold iunlockput
  refine (iunlock_spec h hlock).bind fun _ s' hs' => ?_
  exact iput_spec hs' hown (Function.update_self ..)

end Put

/-! ### New inodes -/

section Alloc

variable {e : Env} {orphans : Set ℕ} {g : Ghost} {s : Ic} {n : ℕ}

/-- An inode with links is not an orphan. -/
theorem Holds.adopt {sb : SuperBlock} (h : Holds sb (insert n orphans) g s)
    (hlink : ∀ nd, g.nodes n = some nd → nd.nlink ≠ 0) : Holds sb orphans g s := by
  refine { h with kept := fun m nd hm hl => ?_ }
  rcases h.kept m nd hm hl with hmem | hheld
  · rcases Set.mem_insert_iff.mp hmem with rfl | hmem
    · exact absurd hl (hlink nd hm)
    · exact .inl hmem
  · exact .inr hheld

/-- A free inode is given a node without contents. -/
theorem Holds.alloc {sb : SuperBlock} {d' : Disk} {nd : Node} (h : Holds sb orphans g s)
    (hfree : g.nodes n = none) (hsets : Sets sb s.disk n (some nd) d') (hdata : nd.data = []) :
    Holds sb (insert n orphans) (g.setNode n (some nd)) { s with disk := d' } := by
  have hother : ∀ ip, g.node ip ≠ none → g.inum ip ≠ n := by
    rintro ip hnode rfl
    exact hnode hfree
  have hnode : ∀ ip, g.inum ip ≠ n → (g.setNode n (some nd)).node ip = g.node ip := fun ip hip =>
    Function.update_of_ne hip _ _
  refine ⟨h.layout, hsets.sound, ?_, fun d hd => ?_, fun ip => ?_, h.unique, fun m md hm ht => ?_,
    fun m md hm hl => ?_⟩
  · rw [hsets.nodes_eq, h.nodes_eq]
    rfl
  · cases hd
  · have he := h.entry ip
    refine ⟨he.ref, he.lock, he.inum, he.lt, fun hpos hv => ?_, he.locked, fun t ht htype => ?_⟩
    · obtain ⟨hdin, hnd⟩ := he.sync hpos hv
      have hne := hother ip hnd
      rw [hnode ip hne]
      exact ⟨hdin.trans (hsets.others _ (he.lt hpos) hne).symm, hnd⟩
    · obtain ⟨hv, md, hmd, rfl⟩ := he.typed t ht htype
      refine ⟨hv, md, ?_, rfl⟩
      rw [hnode ip (hother ip (by rw [hmd]; simp)), hmd]
  · by_cases hmn : m = n
    · subst hmn
      obtain rfl : nd = md := by simpa [Ghost.setNode] using hm
      intro i hi
      rw [hdata] at hi
      exact absurd hi (Nat.not_lt_zero i)
    · exact h.dirs m md (by rwa [Ghost.setNode_nodes, Function.update_of_ne hmn] at hm) ht
  · by_cases hmn : m = n
    · exact .inl (Set.mem_insert_iff.mpr (.inl hmn))
    · refine (h.kept m md (by rwa [Ghost.setNode_nodes, Function.update_of_ne hmn] at hm)
        hl).imp_left ?_
      exact fun hmem => Set.mem_insert_of_mem n hmem

/-- `ialloc`: the new inode has no links yet, so it counts as an orphan. -/
theorem ialloc_spec (h : Holds e.sb orphans g s) {type : Int16} (htype : type ≠ 0) :
    Wp (ialloc e type) s
      (fun ip s' => ∃ n, 0 < n ∧ g.nodes n = none ∧ (0 < g.refs ip → g.inum ip = n) ∧
        Holds e.sb (insert n orphans) ((g.setNode n (some ⟨type, 0, 0, 0, []⟩)).take ip n) s')
      fun err => err = .panic .ialloc ∨ err = .panic .iget := by
  unfold ialloc
  rw [Wp.bind_iff, Wp.zoom_iff]
  refine (iallocDisk_spec h.sound h.layout htype).mono ?_ fun err herr => .inl herr
  rintro n d' ⟨hpos, hlt, hfree, hsets⟩
  rw [h.nodes_eq] at hfree
  refine (iget_spec (h.alloc hfree hsets rfl) hlt).mono ?_ fun err herr => .inr herr.1
  rintro ip s' ⟨hs', hinum⟩
  exact ⟨n, hpos, hfree, hinum, hs'⟩

end Alloc

end Xv6.Fs
