import Mathlib.Algebra.BigOperators.Group.Finset.Piecewise
import Mathlib.Algebra.Order.BigOperators.Group.Finset
import Xv6.Fs.Icache
import Xv6.Fs.Nodes
import Xv6.Lib.Transition

/-!
# The inode cache under interleaving

`iget`, `idup`, `ilock`, `iunlock`, `iput`, `iupdate` and `ialloc` by any number of processes. One
step is a critical section of `icache.lock`, with what comes before it outside the locks, or a part
of one of `ip->lock`. Between `ilock` and `iunlock` a process may assign to fields, which it has to
copy to disk with `iupdate`, and call `writei`, which changes addresses and calls `iupdate` itself.
There is one device.

`iput` looks at the count, lets go of `icache.lock`, and frees the inode afterwards. In between
another process may take a handle: `dirlookup` of ".." in a directory that was removed may come to a
parent that was removed after it (`iput_frees_shared_inode`). If `iget` is not called for inodes
that are in the cache without links, or only with a handle of the caller, then `iput` frees what
nobody else has (`inode_cache_invariant`).
-/

namespace Xv6.Icache

open Lib Fs

/-- The next step of `iput`, in the order of the source. -/
inductive Stage
  | testing
  | freeing
  | releasing
  | dropping
  deriving DecidableEq

/-- Where a process is: between calls, or in `iput`. -/
inductive Pc
  | user
  | iput (stage : Stage) (ip : Ip)
  deriving DecidableEq

/-- `struct inode`; the holder is the process that has its lock. -/
structure Inode (P : Type) where
  inum : ℕ
  ref : ℕ
  holder : Option P
  valid : Bool
  din : Dinode

/-- The disk, the cache and the processes. The handles of a process are those that it was given and
has not dropped. -/
structure Sys (P : Type) where
  disk : Disk
  icache : Ip → Inode P
  handles : P → Ip → ℕ
  pc : P → Pc

/-- What a process may do: a call, the assignment to fields of a locked inode, or the next step of
the call that it is in. -/
inductive Act
  | iget (inum : ℕ)
  | idup (ip : Ip)
  | ialloc (type : Int16)
  | ilock (ip : Ip)
  | assign (ip : Ip) (major minor nlink : Int16)
  | iupdate (ip : Ip)
  | writei (ip : Ip) (src : List UInt8) (off : ℕ)
  | iunlock (ip : Ip)
  | iput (ip : Ip)
  | go

section Steps

variable {P : Type} [DecidableEq P] (e : Env) (s : Sys P) (p : P)

/-- A step of process `p` that leaves `*ip` as `i`. -/
def Sys.put (ip : Ip) (i : Inode P) (pc : Pc) (d : Disk) : Sys P :=
  { s with
    disk := d
    icache := Function.update s.icache ip i
    pc := Function.update s.pc p pc }

/-- A step of process `p` after which it has `k` handles to `*ip`. -/
def Sys.own (ip : Ip) (i : Inode P) (k : ℕ) : Sys P :=
  { s.put p ip i .user s.disk with
    handles := Function.update s.handles p (Function.update (s.handles p) ip k) }

/-- Find the entry for an inode, or recycle one that is not in use. -/
def Sys.iget (inum : ℕ) : Outcome Panic (Sys P) :=
  match (List.finRange NINODE).find? fun ip =>
      0 < (s.icache ip).ref ∧ (s.icache ip).inum = inum with
  | some ip =>
    .ok (s.own p ip { s.icache ip with ref := (s.icache ip).ref + 1 } (s.handles p ip + 1))
  | none =>
    match (List.finRange NINODE).find? fun ip => (s.icache ip).ref = 0 with
    | some ip =>
      .ok (s.own p ip { s.icache ip with inum := inum, ref := 1, valid := false }
        (s.handles p ip + 1))
    | none => .panic .iget

/-- Run routines of the lower half on the fields of `*ip`. -/
def Sys.run (ip : Ip) (valid : Bool) (pc : Pc) (x : DiskM Dinode) : Outcome Panic (Sys P) :=
  match x s.disk with
  | .ok (din, d) => .ok (s.put p ip { s.icache ip with din := din, valid := valid } pc d)
  | .error (.panic m) => .panic m
  | .error .hang => .blocked

/-- A call, up to its first critical section if it has several. -/
def Sys.call : Act → Outcome Panic (Sys P)
  | .iget inum => s.iget p inum
  | .idup ip =>
    .ok (s.own p ip { s.icache ip with ref := (s.icache ip).ref + 1 } (s.handles p ip + 1))
  | .ialloc type =>
    match iallocDisk e.sb type s.disk with
    | .ok (inum, d) => ({ s with disk := d } : Sys P).iget p inum
    | .error (.panic m) => .panic m
    | .error .hang => .blocked
  | .ilock ip =>
    if (s.icache ip).ref < 1 then .panic .ilock
    else if (s.icache ip).holder ≠ none then .blocked
    else if (s.icache ip).valid then
      .ok (s.put p ip { s.icache ip with holder := some p } .user s.disk)
    else if (getDinode e.sb s.disk (s.icache ip).inum).type = 0 then .panic .ilockNoType
    else .ok (s.put p ip { s.icache ip with
      holder := some p, valid := true, din := getDinode e.sb s.disk (s.icache ip).inum } .user
      s.disk)
  | .assign ip major minor nlink =>
    .ok (s.put p ip { s.icache ip with
      din := { (s.icache ip).din with major := major, minor := minor, nlink := nlink } } .user
      s.disk)
  | .iupdate ip =>
    s.run p ip (s.icache ip).valid .user do
      iupdate e.sb (s.icache ip).inum (s.icache ip).din
      return (s.icache ip).din
  | .writei ip src off =>
    s.run p ip (s.icache ip).valid .user do
      return (← writei e (s.icache ip).inum (s.icache ip).din src off).2
  | .iunlock ip =>
    if (s.icache ip).holder ≠ some p ∨ (s.icache ip).ref < 1 then .panic .iunlock
    else .ok (s.put p ip { s.icache ip with holder := none } .user s.disk)
  | .iput ip =>
    if (s.icache ip).holder ≠ none then .blocked
    else .ok (s.put p ip { s.icache ip with holder := some p } (.iput .testing ip) s.disk)
  | .go => .blocked

/-- The next step of `iput`. -/
def Sys.go : Pc → Outcome Panic (Sys P)
  | .user => .blocked
  | .iput .testing ip =>
    .ok (s.put p ip (s.icache ip)
      (.iput (if (s.icache ip).valid ∧ (s.icache ip).din.nlink = 0 ∧ (s.icache ip).ref = 1 then
        .freeing else .releasing) ip) s.disk)
  | .iput .freeing ip =>
    s.run p ip false (.iput .releasing ip) do
      let din ← itrunc e.sb (s.icache ip).inum (s.icache ip).din
      iupdate e.sb (s.icache ip).inum { din with type := 0 }
      return { din with type := 0 }
  | .iput .releasing ip =>
    .ok (s.put p ip { s.icache ip with holder := none } (.iput .dropping ip) s.disk)
  | .iput .dropping ip =>
    .ok (s.own p ip { s.icache ip with ref := (s.icache ip).ref - 1 } (s.handles p ip - 1))

end Steps

section System

variable {P : Type} [DecidableEq P] (e : Env)

/-- A process between calls makes one, or a process in a call goes on. -/
def Sys.next (s : Sys P) (l : P × Act) : Outcome Panic (Sys P) :=
  if s.pc l.1 = .user then s.call e l.1 l.2
  else match l.2 with
    | .go => s.go e l.1 (s.pc l.1)
    | _ => .blocked

def Step (s : Sys P) (l : P × Act) (t : Sys P) : Prop := s.next e l = .ok t

/-- After `iinit` no entry is in use. -/
def Sys.boot (d : Disk) : Sys P where
  disk := d
  icache _ := ⟨0, 0, none, false, .blank 0⟩
  handles _ _ := 0
  pc _ := .user

/-- The fields of `*ip` are those on disk. -/
def Sys.Synced (s : Sys P) (ip : Ip) : Prop :=
  (s.icache ip).din = getDinode e.sb s.disk (s.icache ip).inum

/-- The rules for handles: a call needs a handle, the fields of an inode need its lock, and changes
are copied to disk before anything else is done. -/
def Prescribed (s : Sys P) (l : P × Act) : Prop :=
  match l.2 with
  | .iget inum => inum < e.sb.ninodes
  | .idup ip | .ilock ip | .iput ip => 0 < s.handles l.1 ip
  | .ialloc type => type ≠ 0
  | .assign ip _ _ _ | .iupdate ip => (s.icache ip).holder = some l.1
  | .writei ip src _ => (s.icache ip).holder = some l.1 ∧ s.Synced e ip ∧ src.length < 2 ^ 32
  | .iunlock ip => (s.icache ip).holder = some l.1 ∧ s.Synced e ip
  | .go => True

/-- `iget` is called for an inode in use that is not in the cache without links, or for one to which
the caller has a handle. -/
def Linked (s : Sys P) (l : P × Act) : Prop :=
  match l.2 with
  | .iget inum =>
    (getDinode e.sb s.disk inum).type ≠ 0 ∧ (∀ ip, 0 < (s.icache ip).ref →
        (s.icache ip).inum = inum → (s.icache ip).valid = true → (s.icache ip).din.nlink ≠ 0) ∨
      ∃ ip, 0 < s.handles l.1 ip ∧ (s.icache ip).inum = inum
  | _ => True

end System

/-! ### The invariant of an entry -/

/-- At the end of `iput`, where the inode is not looked at any more. -/
abbrev Stage.Leaves (stage : Stage) : Prop := stage = .releasing ∨ stage = .dropping

/-- Two records that differ only in fields a process may assign to. -/
def Near (a b : Dinode) : Prop := a.type = b.type ∧ a.size = b.size ∧ a.addrs = b.addrs

theorem near_of_eq {a b : Dinode} (h : a = b) : Near a b := h ▸ ⟨rfl, rfl, rfl⟩

section Entry

variable {P : Type}

/-- The only handle to an entry is about to be dropped; `stages` says where processes are in calls
on it. -/
def Last (i : Inode P) (stages : P → Option Stage) : Prop :=
  i.ref = 1 ∧ ∃ q stage, stages q = some stage ∧ stage.Leaves

/-- What holds of an entry at each stage of `iput` of process `p`, which has `k` handles; `r` is the
record on disk. -/
def At (i : Inode P) (r : Dinode) (k : ℕ) (p : P) : Stage → Prop
  | .testing | .releasing => i.holder = some p ∧ (i.valid = true → i.din = r)
  | .freeing => i.holder = some p ∧ i.valid = true ∧ i.din = r ∧ i.din.nlink = 0 ∧ i.ref = 1
  | .dropping => 0 < k ∧ i.holder ≠ some p

/-- An entry of the cache, the record of its inode, the handles to it and the calls on it. -/
structure Entry [Fintype P] (i : Inode P) (r : Dinode) (handles : P → ℕ)
    (stages : P → Option Stage) : Prop where
  count : i.ref = ∑ p, handles p
  held : ∀ p, i.holder = some p → 0 < handles p ∧ (i.valid = true ∨ stages p ≠ none)
  synced : 0 < i.ref → i.valid = true →
    Near i.din r ∧ r.type ≠ 0 ∧ (i.holder = none → i.din = r)
  dead : 0 < i.ref → r.type = 0 → Last i stages
  stage : ∀ p stage, stages p = some stage → At i r (handles p) p stage

namespace Entry

variable [Fintype P] {i j : Inode P} {r r' : Dinode} {handles : P → ℕ} {stages : P → Option Stage}
  {p q : P} {stage : Stage}

/-- There is a handle to an entry in use. -/
theorem ref_pos (h : Entry i r handles stages) (hp : 0 < handles p) : 0 < i.ref := by
  rw [h.count]
  exact hp.trans_le (Finset.single_le_sum (fun _ _ => Nat.zero_le _) (Finset.mem_univ p))

/-- One reference is one handle. -/
theorem sole (h : Entry i r handles stages) (href : i.ref = 1) (hp : 0 < handles p)
    (hq : 0 < handles q) : q = p := by
  classical
  by_contra hne
  have hle : handles q + handles p ≤ ∑ r, handles r :=
    Finset.add_le_sum (fun _ _ => Nat.zero_le _) (Finset.mem_univ q) (Finset.mem_univ p) hne
  rw [← h.count, href] at hle
  omega

theorem handle (h : Entry i r handles stages) (hq : stages q = some stage) : 0 < handles q := by
  have hat := h.stage q stage hq
  have hheld := h.held q
  cases stage <;> grind [At]

/-- The process of the last handle. -/
theorem leaves_of_last (h : Entry i r handles stages) (hlast : Last i stages) (hp : 0 < handles p) :
    ∃ stage, stages p = some stage ∧ stage.Leaves := by
  obtain ⟨href, q, stage, hq, hleaves⟩ := hlast
  exact ⟨stage, h.sole href hp (h.handle hq) ▸ hq, hleaves⟩

/-- An inode with a call on it that is not at its end is in use. -/
theorem type_ne_zero (h : Entry i r handles stages) (hq : stages q = some stage)
    (hnot : ¬ stage.Leaves) : r.type ≠ 0 := fun hzero => by
  have hp := h.handle hq
  obtain ⟨stage', hq', hleaves⟩ := h.leaves_of_last (h.dead (h.ref_pos hp) hzero) hp
  exact hnot (Option.some.inj (hq'.symm.trans hq) ▸ hleaves)

/-- Another process may only change the record of an inode that has no entry or is free. -/
theorem set_record (h : Entry i r handles stages) (hr : 0 < i.ref → r' = r ∨ r.type = 0) :
    Entry i r' handles stages := by
  by_cases hpos : 0 < i.ref
  · rcases hr hpos with rfl | hzero
    · exact h
    have hlast := h.dead hpos hzero
    have hinvalid : i.valid ≠ true := fun hvalid => (h.synced hpos hvalid).2.1 hzero
    refine ⟨h.count, h.held, fun _ hvalid => absurd hvalid hinvalid, fun _ _ => hlast,
      fun p stage hp => ?_⟩
    have hleaves := h.leaves_of_last hlast (h.handle hp)
    have hat := h.stage p stage hp
    cases stage <;> grind [At]
  · exact ⟨h.count, h.held, fun hpos' => absurd hpos' hpos, fun hpos' => absurd hpos' hpos,
      fun p stage hp => absurd (h.ref_pos (h.handle hp)) hpos⟩

variable [DecidableEq P]

/-- A step of process `p` on an entry that nobody else has locked. -/
theorem put (h : Entry i r handles stages) {c : Option Stage} (hp : 0 < handles p)
    (hfree : ∀ q, i.holder = some q → q = p) (href : j.ref = i.ref)
    (hj : j.holder = none ∨ j.holder = some p ∧ (j.valid = true ∨ c ≠ none))
    (hdead : r'.type = 0 → Last j (Function.update stages p c))
    (hsync : j.valid = true → Near j.din r' ∧ r'.type ≠ 0 ∧ (j.holder = none → j.din = r'))
    (hat : ∀ stage, c = some stage → At j r' (handles p) p stage) :
    Entry j r' handles (Function.update stages p c) := by
  refine ⟨href.trans h.count, fun q hq => ?_, fun _ => hsync, fun _ => hdead, fun q stage hq => ?_⟩
  · grind
  · have hold := h.stage q stage
    by_cases hqp : q = p
    · grind
    · cases stage <;> grind [At]

/-- A step of process `p` after which it has `k` handles to an entry, which is of the same inode as
before or was not in use. -/
theorem own (h : Entry i r handles stages) {k : ℕ} (hcount : j.ref + handles p = i.ref + k)
    (hj : 0 < i.ref ∧ j = { i with ref := j.ref } ∧ r' = r ∨
      i.ref = 0 ∧ j.valid = false ∧ j.holder = i.holder)
    (hk : i.holder = some p → 0 < k ∧ stages p = none)
    (hlive : 0 < j.ref → r'.type ≠ 0)
    (hfree : ∀ q, q ≠ p → stages q ≠ some .freeing) :
    Entry j r' (Function.update handles p k) (Function.update stages p none) := by
  have hsame : ∀ {q}, 0 < handles q → j = { i with ref := j.ref } ∧ r' = r := fun hq => by
    have := h.ref_pos hq
    exact (hj.resolve_right fun hfresh => by omega).2
  refine ⟨?_, fun q hq => ?_, fun hpos hvalid => ?_, fun hpos hzero => absurd hzero (hlive hpos),
    fun q stage hq => ?_⟩
  · have hold := h.count
    rw [Finset.sum_eq_add_sum_sdiff_singleton_of_mem (Finset.mem_univ p)] at hold
    rw [Finset.sum_update_of_mem (Finset.mem_univ p)]
    omega
  · have hold := h.held q
    grind
  · have hold := h.synced
    grind
  · have hqp : q ≠ p := by grind
    rw [Function.update_of_ne hqp] at hq ⊢
    have hold := h.stage q stage hq
    obtain ⟨hj', rfl⟩ := hsame (h.handle hq)
    rw [hj']
    cases stage with
    | freeing => exact absurd hq (hfree q hqp)
    | testing | releasing | dropping => exact hold

end Entry

end Entry

/-! ### The invariant of the system -/

/-- Where a process is in a call on `*ip`. -/
def Pc.stageOf (ip : Ip) : Pc → Option Stage
  | .iput stage jp => if jp = ip then some stage else none
  | .user => none

@[simp] theorem Pc.stageOf_eq_some {pc : Pc} {ip : Ip} {stage : Stage} :
    pc.stageOf ip = some stage ↔ pc = .iput stage ip := by
  cases pc with
  | iput stage' jp =>
    simp only [Pc.stageOf, Pc.iput.injEq]
    split_ifs with hjp <;> simp [hjp]
  | user => simp [Pc.stageOf]

/-- What `iput` does to the disk if it frees the inode. -/
theorem itrunc_clear_spec {sb : SuperBlock} {d : Disk} {n : ℕ} (hok : sb.Ok) (hd : Sound sb d)
    (hn : n < sb.ninodes) (ht : (getDinode sb d n).type ≠ 0) :
    Wp (do
        let din ← itrunc sb n (getDinode sb d n)
        iupdate sb n { din with type := 0 }
        return { din with type := 0 }) d
      (fun _ d' => Sets sb d n none d') fun _ => False := by
  refine (itrunc_free_spec hd hok hn ht).bind fun din d' hsets => ?_
  simp only [iupdate, Wp.bind_iff, Wp.modify_iff, Wp.pure_iff]
  exact hsets

/-- `writei` leaves the fields in memory as they are on disk: if `bmap` has added a block, then the
file was made longer. -/
theorem writei_synced {e : Env} {d : Disk} {n off : ℕ} {src : List UInt8} (hok : e.sb.Ok)
    (hd : Sound e.sb d) (hn : n < e.sb.ninodes) (ht : (getDinode e.sb d n).type ≠ 0)
    (hlen : src.length < 2 ^ 32) :
    Wp (do return (← writei e n (getDinode e.sb d n) src off).2) d
      (fun din d' => Sound e.sb d' ∧
        (∀ m < e.sb.ninodes, m ≠ n → getDinode e.sb d' m = getDinode e.sb d m) ∧
        getDinode e.sb d' n = din ∧ din.type = (getDinode e.sb d n).type) fun _ => True := by
  by_cases hdev : (getDinode e.sb d n).type = T_DEV
  · unfold writei
    rw [if_pos hdev]
    split <;> exact ⟨hd, fun _ _ _ => rfl, rfl, rfl⟩
  by_cases hrej : WriteRejected (getDinode e.sb d n) off src.length
  · rw [writei_eq_of_rejected hdev hlen hrej]
    exact ⟨hd, fun _ _ _ => rfl, rfl, rfl⟩
  refine ((writei_spec hok hd hn ht hdev hrej).mono (fun r d' hr => ?_) fun _ _ => trivial).bind
    fun _ _ hr => hr
  refine ⟨hr.2.sound, hr.2.others, hr.2.record, ?_⟩
  rw [hr.2.head]

section System

variable {P : Type} (e : Env)

/-- The calls on `*ip`. -/
def Sys.stages (s : Sys P) (ip : Ip) (p : P) : Option Stage := (s.pc p).stageOf ip

/-- What every step keeps. -/
structure Sys.Inv [Fintype P] (s : Sys P) : Prop where
  sound : Sound e.sb s.disk
  unique : ∀ ip jp, 0 < (s.icache ip).ref → 0 < (s.icache jp).ref →
    (s.icache ip).inum = (s.icache jp).inum → ip = jp
  lt : ∀ ip, 0 < (s.icache ip).ref → (s.icache ip).inum < e.sb.ninodes
  entry : ∀ ip, Entry (s.icache ip) (getDinode e.sb s.disk (s.icache ip).inum) (s.handles · ip)
    (s.stages ip)

/-- Process `p` may work on `*ip`: it has a handle, and nobody else has the lock. -/
structure Sys.Works (s : Sys P) (p : P) (ip : Ip) : Prop where
  handle : 0 < s.handles p ip
  alone : ∀ q, (s.icache ip).holder = some q → q = p
  focus : ∀ jp, jp ≠ ip → s.stages jp p = none

/-- The next state: entries in use stay with their inodes. -/
structure Sys.Next [Fintype P] (s t : Sys P) : Prop where
  inv : t.Inv e
  inum : ∀ ip, 0 < (s.icache ip).ref → (t.icache ip).inum = (s.icache ip).inum

namespace Sys.Inv

variable {e} [Fintype P] {s t : Sys P} {p q : P} {ip : Ip}

theorem boot {d : Disk} (hd : Sound e.sb d) : (Sys.boot d : Sys P).Inv e := by
  refine ⟨hd, by simp [Sys.boot], by simp [Sys.boot], fun ip => ?_⟩
  constructor <;> simp [Sys.boot, Sys.stages, Pc.stageOf]

/-- A process that is freeing an inode has the only handle. -/
theorem sole_of_freeing (h : s.Inv e) (hq : s.pc q = .iput .freeing ip) (hp : 0 < s.handles p ip) :
    q = p := by
  have hq := Pc.stageOf_eq_some.mpr hq
  exact (h.entry ip).sole ((h.entry ip).stage q _ hq).2.2.2.2 hp ((h.entry ip).handle hq)

/-- A process with a handle that it does not drop has an inode in use, which is not freed. -/
theorem in_use (h : s.Inv e) (hp : 0 < s.handles p ip) (hpc : s.stages ip p = none) :
    (getDinode e.sb s.disk (s.icache ip).inum).type ≠ 0 ∧ ∀ q, s.pc q ≠ .iput .freeing ip := by
  refine ⟨fun hzero => ?_, fun q hq => ?_⟩
  · obtain ⟨stage, hon, -⟩ :=
      (h.entry ip).leaves_of_last ((h.entry ip).dead ((h.entry ip).ref_pos hp) hzero) hp
    cases hpc.symm.trans hon
  · obtain rfl := h.sole_of_freeing hq hp
    cases hpc.symm.trans (Pc.stageOf_eq_some.mpr hq)

variable [DecidableEq P]

/-- A step of process `p` that changes nothing but `*ip`, the record of its inode, and what `p` has
and does. -/
theorem update (h : s.Inv e) {i : Inode P} {pc : Pc}
    (hicache : t.icache = Function.update s.icache ip i) (hpcs : t.pc = Function.update s.pc p pc)
    (hhandles : ∀ jp, jp ≠ ip → (t.handles · jp) = (s.handles · jp))
    (hfocus : ∀ jp, jp ≠ ip → s.stages jp p = none) (hpc : ∀ jp, jp ≠ ip → pc.stageOf jp = none)
    (hsound : Sound e.sb t.disk)
    (hrec : ∀ jp, jp ≠ ip → 0 < (s.icache jp).ref →
      getDinode e.sb t.disk (s.icache jp).inum = getDinode e.sb s.disk (s.icache jp).inum)
    (hi : 0 < (s.icache ip).ref ∧ i.inum = (s.icache ip).inum ∨ (s.icache ip).ref = 0 ∧
      i.inum < e.sb.ninodes ∧ ∀ jp, 0 < (s.icache jp).ref → (s.icache jp).inum ≠ i.inum)
    (hentry : Entry i (getDinode e.sb t.disk i.inum) (t.handles · ip)
      (Function.update (s.stages ip) p (pc.stageOf ip))) : s.Next e t := by
  have hself : t.icache ip = i := by rw [hicache, Function.update_self]
  have hne : ∀ jp, jp ≠ ip → t.icache jp = s.icache jp := fun jp hjp => by
    rw [hicache, Function.update_of_ne hjp]
  have hstages : ∀ jp, t.stages jp = Function.update (s.stages jp) p (pc.stageOf jp) := by
    intro jp
    funext q
    by_cases hqp : q = p <;> simp [Sys.stages, hpcs, hqp]
  refine ⟨⟨hsound, fun jp kp hj hk heq => ?_, fun jp hj => ?_, fun jp => ?_⟩, fun jp hpos => ?_⟩
  · have hold := h.unique jp kp
    have hjp := h.unique jp ip
    have hkp := h.unique kp ip
    grind
  · have hold := h.lt jp
    grind
  · by_cases hjp : jp = ip
    · rw [hjp, hself, hstages]
      exact hentry
    · -- the process is at no other entry, before and after the step
      rw [hne jp hjp, hstages, hpc jp hjp, Function.update_eq_self_iff.mpr (hfocus jp hjp).symm,
        hhandles jp hjp]
      exact (h.entry jp).set_record fun hpos => .inl (hrec jp hjp hpos)
  · grind

/-- A step of process `p` on `*ip` and on the record of its inode, which is `r` afterwards. -/
theorem put (h : s.Inv e) (hw : s.Works p ip) {holder : Option P} {valid : Bool} {din r : Dinode}
    {pc : Pc} {d : Disk} (hd : d = s.disk ∨ Sound e.sb d ∧ ∀ n < e.sb.ninodes,
      n ≠ (s.icache ip).inum → getDinode e.sb d n = getDinode e.sb s.disk n)
    (hr : getDinode e.sb d (s.icache ip).inum = r) (hholder : holder = none ∨ holder = some p)
    (hdead : r.type = 0 → (s.icache ip).ref = 1 ∧ ∃ stage, pc = .iput stage ip ∧ stage.Leaves)
    (hsync : valid = true → Near din r ∧ r.type ≠ 0 ∧ (holder = none → din = r))
    (hpc : pc = .user ∧ (holder = some p → valid = true) ∨ ∃ stage, pc = .iput stage ip ∧
      At { s.icache ip with holder, valid, din } r (s.handles p ip) p stage) :
    s.Next e (s.put p ip { s.icache ip with holder, valid, din } pc d) := by
  have hpos := (h.entry ip).ref_pos hw.handle
  refine h.update rfl rfl (fun _ _ => rfl) hw.focus (fun jp hjp => ?_) ?_ (fun jp hjp hj => ?_)
    (.inl ⟨hpos, rfl⟩) ?_
  · rcases hpc with ⟨rfl, -⟩ | ⟨stage, rfl, -⟩
    · rfl
    · exact if_neg hjp.symm
  · rcases hd with rfl | hd
    · exact h.sound
    · exact hd.1
  · rcases hd with rfl | hd
    · rfl
    · exact hd.2 _ (h.lt jp hj) fun heq => hjp (h.unique jp ip hj hpos heq)
  · refine hr ▸ (h.entry ip).put hw.handle hw.alone rfl (hholder.imp_right fun hp => ⟨hp, ?_⟩)
      (fun hzero => ?_) hsync fun stage hon => ?_
    · rcases hpc with hpc | ⟨stage, rfl, -⟩
      · exact .inl (hpc.2 hp)
      · exact .inr (by simp [Pc.stageOf])
    · obtain ⟨hone, stage, rfl, hstage⟩ := hdead hzero
      exact ⟨hone, p, stage, by rw [Function.update_self, Pc.stageOf_eq_some], hstage⟩
    · rw [Pc.stageOf_eq_some] at hon
      rcases hpc with hpc | ⟨stage', hon', hat⟩
      · cases hpc.1.symm.trans hon
      · cases hon'.symm.trans hon
        exact hat

/-- A step of process `p` after which it has `k` handles to `*ip`, which is of the same inode as
before or was not in use. -/
theorem own (h : s.Inv e) {i : Inode P} {k : ℕ}
    (hcount : i.ref + s.handles p ip = (s.icache ip).ref + k)
    (hi : 0 < (s.icache ip).ref ∧ i = { s.icache ip with ref := i.ref } ∨ (s.icache ip).ref = 0 ∧
      (i.inum < e.sb.ninodes ∧ ∀ jp, 0 < (s.icache jp).ref → (s.icache jp).inum ≠ i.inum) ∧
      i.valid = false ∧ i.holder = (s.icache ip).holder)
    (hfocus : ∀ jp, jp ≠ ip → s.stages jp p = none)
    (hk : (s.icache ip).holder = some p → 0 < k ∧ s.stages ip p = none)
    (hlive : 0 < i.ref → (getDinode e.sb s.disk i.inum).type ≠ 0)
    (hfree : ∀ q, q ≠ p → s.pc q ≠ .iput .freeing ip) :
    s.Next e (s.own p ip i k) := by
  have hinum : 0 < (s.icache ip).ref ∧ i = { s.icache ip with ref := i.ref } →
      i.inum = (s.icache ip).inum := fun hi => by rw [hi.2]
  have hhandles : ((s.own p ip i k).handles · ip) = Function.update (s.handles · ip) p k := by
    funext q
    by_cases hqp : q = p <;> simp [Sys.own, hqp]
  refine h.update rfl rfl (fun jp hjp => ?_) hfocus (fun _ _ => rfl) h.sound (fun _ _ _ => rfl)
    (hi.imp (fun hi => ⟨hi.1, hinum hi⟩) fun hi => ⟨hi.1, hi.2.1⟩) ?_
  · funext q
    by_cases hqp : q = p <;> simp [Sys.own, hqp, hjp]
  · rw [hhandles]
    exact (h.entry ip).own hcount
      (hi.imp (fun hi => ⟨hi.1, hi.2, by rw [hinum hi]; rfl⟩) fun hi => ⟨hi.1, hi.2.2⟩) hk hlive
      fun q hqp => mt Pc.stageOf_eq_some.mp (hfree q hqp)

omit [DecidableEq P] in
/-- A free record is filled in. -/
theorem fill (h : s.Inv e) {n : ℕ} {v : Option Node} {d : Disk}
    (hzero : (getDinode e.sb s.disk n).type = 0) (hsets : Sets e.sb s.disk n v d) :
    ({ s with disk := d } : Sys P).Inv e := by
  refine ⟨hsets.sound, h.unique, h.lt, fun ip => (h.entry ip).set_record fun hpos => ?_⟩
  by_cases hn : (s.icache ip).inum = n
  · exact .inr (hn ▸ hzero)
  · exact .inl (hsets.others _ (h.lt ip hpos) hn)

/-- One more handle to an entry in use. -/
theorem take (h : s.Inv e) (hpos : 0 < (s.icache ip).ref) (hpc : ∀ jp, s.stages jp p = none)
    (htype : (getDinode e.sb s.disk (s.icache ip).inum).type ≠ 0)
    (hfree : ∀ q, s.pc q ≠ .iput .freeing ip) :
    s.Next e (s.own p ip { s.icache ip with ref := (s.icache ip).ref + 1 } (s.handles p ip + 1)) :=
  h.own (Nat.add_right_comm ..) (.inl ⟨hpos, rfl⟩) (fun jp _ => hpc jp)
    (fun _ => ⟨Nat.succ_pos _, hpc ip⟩) (fun _ => htype) fun q _ => hfree q

theorem iget (h : s.Inv e) {n : ℕ} (hn : n < e.sb.ninodes) (hpc : ∀ jp, s.stages jp p = none)
    (htype : (getDinode e.sb s.disk n).type ≠ 0)
    (hfree : ∀ ip, 0 < (s.icache ip).ref → (s.icache ip).inum = n → ∀ q, s.pc q ≠ .iput .freeing ip)
    (hstep : s.iget p n = .ok t) : s.Next e t := by
  unfold Sys.iget at hstep
  split at hstep
  case h_1 ip hip =>
    obtain rfl := Outcome.ok.inj hstep
    obtain ⟨hpos, rfl⟩ : 0 < (s.icache ip).ref ∧ (s.icache ip).inum = n := by
      simpa using List.find?_some hip
    exact h.take hpos hpc htype (hfree ip hpos rfl)
  case h_2 hnone =>
    split at hstep
    case h_2 => cases hstep
    case h_1 ip hip =>
      obtain rfl := Outcome.ok.inj hstep
      have hzero : (s.icache ip).ref = 0 := by simpa using List.find?_some hip
      have hnew : ∀ jp, 0 < (s.icache jp).ref → (s.icache jp).inum ≠ n := by
        simpa using List.find?_eq_none.mp hnone
      have hnot : ∀ q, ¬ 0 < s.handles q ip := fun q hq => by
        have := (h.entry ip).ref_pos hq
        omega
      have hp := hnot p
      exact h.own (by dsimp only; omega) (.inr ⟨hzero, ⟨hn, hnew⟩, rfl, rfl⟩) (fun jp _ => hpc jp)
        (fun _ => ⟨Nat.succ_pos _, hpc ip⟩) (fun _ => htype)
        fun q _ hq => hnot q ((h.entry ip).handle (Pc.stageOf_eq_some.mpr hq))

omit [Fintype P] in
theorem of_run {valid : Bool} {pc : Pc} {x : DiskM Dinode} (hstep : s.run p ip valid pc x = .ok t) :
    ∃ din d, x s.disk = .ok (din, d) ∧
      t = s.put p ip { s.icache ip with din := din, valid := valid } pc d := by
  unfold Sys.run at hstep
  split at hstep
  case h_1 din d hx => exact ⟨din, d, hx, (Outcome.ok.inj hstep).symm⟩
  all_goals cases hstep

/-- A call of a process keeps the invariant. -/
theorem call (hok : e.sb.Ok) (h : s.Inv e) {a : Act} (hpc : s.pc p = .user)
    (hpre : Prescribed e s (p, a)) (hlink : Linked e s (p, a)) (hstep : s.call e p a = .ok t) :
    s.Next e t := by
  have huser : ∀ jp, s.stages jp p = none := fun jp => congrArg (Pc.stageOf jp) hpc
  have hworks : ∀ {ip}, 0 < s.handles p ip → (∀ q, (s.icache ip).holder = some q → q = p) →
      s.Works p ip := fun hp hq => ⟨hp, hq, fun jp _ => huser jp⟩
  have hfree : ∀ {ip}, 0 < s.handles p ip → ¬ (s.icache ip).holder ≠ none → s.Works p ip :=
    fun hp hnone => hworks hp fun q hq => by cases (not_not.mp hnone).symm.trans hq
  -- what the process knows of an inode that it has locked
  have hlocked : ∀ {ip}, (s.icache ip).holder = some p → s.Works p ip ∧ (s.icache ip).valid = true ∧
      Near (s.icache ip).din (getDinode e.sb s.disk (s.icache ip).inum) ∧
      (getDinode e.sb s.disk (s.icache ip).inum).type ≠ 0 := by
    intro ip hp
    obtain ⟨hpos, hvalid⟩ := (h.entry ip).held p hp
    have hvalid := hvalid.resolve_right fun hne => hne (huser ip)
    have hsync := (h.entry ip).synced ((h.entry ip).ref_pos hpos) hvalid
    exact ⟨hworks hpos fun q hq => Option.some.inj (hq.symm.trans hp), hvalid, hsync.1, hsync.2.1⟩
  cases a with
  | go => cases hstep
  | iget n =>
    rcases hlink with ⟨htype, hcached⟩ | ⟨ip, hip, rfl⟩
    · refine h.iget hpre huser htype (fun ip hpos hn q hq => ?_) hstep
      have hat := (h.entry ip).stage q _ (Pc.stageOf_eq_some.mpr hq)
      exact hcached ip hpos hn hat.2.1 hat.2.2.2.1
    · obtain ⟨htype, hfree⟩ := h.in_use hip (huser ip)
      refine h.iget hpre huser htype (fun jp hpos hn => ?_) hstep
      exact h.unique jp ip hpos ((h.entry ip).ref_pos hip) hn ▸ hfree
  | idup ip =>
    obtain rfl := Outcome.ok.inj hstep
    obtain ⟨htype, hfree⟩ := h.in_use hpre (huser ip)
    exact h.take ((h.entry ip).ref_pos hpre) huser htype hfree
  | ialloc type =>
    rw [Sys.call] at hstep
    split at hstep
    case h_1 n d hrun =>
      obtain ⟨-, hn, hfree, hsets⟩ := (iallocDisk_spec h.sound hok hpre).of_ok hrun
      have hzero := nodes_eq_none_iff.mp hfree hn
      have htype := (nodes_eq_some_iff.mp (hsets.nodes_eq ▸ Function.update_self ..)).2.1
      have h' := h.fill hzero hsets
      have hnext := h'.iget hn huser htype (fun ip hpos hip q hq => ?_) hstep
      · exact ⟨hnext.inv, hnext.inum⟩
      exact (h.entry ip).type_ne_zero (Pc.stageOf_eq_some.mpr hq) (by decide)
        ((show (s.icache ip).inum = n from hip) ▸ hzero)
    all_goals cases hstep
  | ilock ip =>
    rw [Sys.call] at hstep
    split_ifs at hstep with href hholder hvalid htype
    · obtain rfl := Outcome.ok.inj hstep
      obtain ⟨hnear, htype, -⟩ := (h.entry ip).synced (Nat.le_of_not_lt href) hvalid
      exact h.put (hfree hpre hholder) (.inl rfl) rfl (.inr rfl) (fun hz => absurd hz htype)
        (fun _ => ⟨hnear, htype, nofun⟩) (.inl ⟨rfl, fun _ => hvalid⟩)
    · obtain rfl := Outcome.ok.inj hstep
      exact h.put (hfree hpre hholder) (.inl rfl) rfl (.inr rfl) (fun hz => absurd hz htype)
        (fun _ => ⟨near_of_eq rfl, htype, nofun⟩) (.inl ⟨rfl, fun _ => rfl⟩)
  | assign ip major minor nlink =>
    obtain rfl := Outcome.ok.inj hstep
    obtain ⟨hw, hvalid, hnear, htype⟩ := hlocked hpre
    exact h.put hw (.inl rfl) rfl (.inr hpre) (fun hz => absurd hz htype)
      (fun _ => ⟨hnear, htype, fun hnone => by cases hnone.symm.trans hpre⟩)
      (.inl ⟨rfl, fun _ => hvalid⟩)
  | iupdate ip =>
    obtain rfl := Outcome.ok.inj hstep
    obtain ⟨hw, hvalid, hnear, htype⟩ := hlocked hpre
    have htype' := hnear.1 ▸ htype
    obtain ⟨hsets, hrec⟩ := Sets.iupdate h.sound hok (h.lt ip ((h.entry ip).ref_pos hw.handle))
      htype htype' hnear.2.1 hnear.2.2
    exact h.put hw (.inr ⟨hsets.sound, hsets.others⟩) hrec (.inr hpre) (fun hz => absurd hz htype')
      (fun _ => ⟨near_of_eq rfl, htype', fun _ => rfl⟩) (.inl ⟨rfl, fun _ => hvalid⟩)
  | writei ip src off =>
    obtain ⟨hholder, hsync, hlen⟩ := hpre
    obtain ⟨hw, hvalid, -, htype⟩ := hlocked hholder
    obtain ⟨din, d, hrun, rfl⟩ := of_run hstep
    obtain ⟨hsound, hothers, hrec, htype'⟩ := (writei_synced hok h.sound
      (h.lt ip ((h.entry ip).ref_pos hw.handle)) htype hlen).of_ok (hsync ▸ hrun)
    rw [← htype'] at htype
    exact h.put hw (.inr ⟨hsound, hothers⟩) hrec (.inr hholder) (fun hz => absurd hz htype)
      (fun _ => ⟨near_of_eq rfl, htype, fun _ => rfl⟩) (.inl ⟨rfl, fun _ => hvalid⟩)
  | iunlock ip =>
    rw [Sys.call] at hstep
    split_ifs at hstep with hbad
    obtain rfl := Outcome.ok.inj hstep
    obtain ⟨hw, hvalid, hnear, htype⟩ := hlocked hpre.1
    exact h.put hw (.inl rfl) rfl (.inl rfl) (fun hz => absurd hz htype)
      (fun _ => ⟨hnear, htype, fun _ => hpre.2⟩) (.inl ⟨rfl, nofun⟩)
  | iput ip =>
    rw [Sys.call] at hstep
    split_ifs at hstep with hholder
    obtain rfl := Outcome.ok.inj hstep
    have hsync := (h.entry ip).synced ((h.entry ip).ref_pos hpre)
    exact h.put (hfree hpre hholder) (.inl rfl) rfl (.inr rfl)
      (fun hz => absurd hz (h.in_use hpre (huser ip)).1)
      (fun hvalid => ⟨(hsync hvalid).1, (hsync hvalid).2.1, nofun⟩)
      (.inr ⟨_, rfl, rfl, fun hvalid => (hsync hvalid).2.2 (not_not.mp hholder)⟩)

/-- The next step of `iput` keeps the invariant. -/
theorem go (hok : e.sb.Ok) (h : s.Inv e) {stage : Stage} (hpc : s.pc p = .iput stage ip)
    (hstep : s.go e p (.iput stage ip) = .ok t) : s.Next e t := by
  have hon : s.stages ip p = some stage := Pc.stageOf_eq_some.mpr hpc
  have hp := (h.entry ip).handle hon
  have hpos := (h.entry ip).ref_pos hp
  have hlt := h.lt ip hpos
  have hat := (h.entry ip).stage p stage hon
  have hfocus : ∀ jp, jp ≠ ip → s.stages jp p = none := fun jp hjp => by
    rw [Sys.stages, hpc]
    exact if_neg hjp.symm
  have hworks : (s.icache ip).holder = some p → s.Works p ip := fun hp' =>
    ⟨hp, fun q hq => Option.some.inj (hq.symm.trans hp'), hfocus⟩
  have hsync := (h.entry ip).synced hpos
  have hdead := (h.entry ip).dead hpos
  cases stage with
  | testing =>
    have hlive := (h.entry ip).type_ne_zero hon (by decide)
    rw [Sys.go] at hstep
    split_ifs at hstep with hlast
    · obtain rfl := Outcome.ok.inj hstep
      exact h.put (hworks hat.1) (.inl rfl) rfl (.inr hat.1) (fun hz => absurd hz hlive) hsync
        (.inr ⟨_, rfl, hat.1, hlast.1, hat.2 hlast.1, hlast.2⟩)
    · obtain rfl := Outcome.ok.inj hstep
      exact h.put (hworks hat.1) (.inl rfl) rfl (.inr hat.1) (fun hz => absurd hz hlive) hsync
        (.inr ⟨_, rfl, hat⟩)
  | freeing =>
    obtain ⟨hholder, hvalid, hdin, -, hone⟩ := hat
    obtain ⟨din, d, hrun, rfl⟩ := of_run hstep
    rw [hdin] at hrun
    have hsets := (itrunc_clear_spec hok h.sound hlt (hsync hvalid).2.1).of_ok hrun
    exact h.put (hworks hholder) (.inr ⟨hsets.sound, hsets.others⟩) rfl (.inr hholder)
      (fun _ => ⟨hone, _, rfl, .inl rfl⟩) nofun (.inr ⟨_, rfl, hholder, nofun⟩)
  | releasing =>
    obtain rfl := Outcome.ok.inj hstep
    exact h.put (hworks hat.1) (.inl rfl) rfl (.inl rfl)
      (fun hzero => ⟨(hdead hzero).1, _, rfl, .inr rfl⟩)
      (fun hvalid => ⟨(hsync hvalid).1, (hsync hvalid).2.1, fun _ => hat.2 hvalid⟩)
      (.inr ⟨_, rfl, hp, nofun⟩)
  | dropping =>
    obtain rfl := Outcome.ok.inj hstep
    refine h.own (by dsimp only; omega) (.inl ⟨hpos, rfl⟩) hfocus
      (fun hholder => absurd hholder hat.2) (fun href hzero => ?_)
      fun q hqp hq => hqp (h.sole_of_freeing hq hp)
    -- there are other handles, so that the inode is in use
    have := (hdead hzero).1
    dsimp only at href
    omega

/-- A step keeps the invariant. -/
theorem step (hok : e.sb.Ok) (h : s.Inv e) {l : P × Act} (hpre : Prescribed e s l)
    (hlink : Linked e s l) (hstep : Step e s l t) : s.Next e t := by
  unfold Step Sys.next at hstep
  split at hstep
  case isTrue hpc => exact h.call hok hpc hpre hlink hstep
  case isFalse hne =>
    split at hstep
    · cases hpc : s.pc l.1 with
      | user => exact absurd hpc hne
      | iput stage ip => exact h.go hok hpc (hpc ▸ hstep)
    · cases hstep

end Sys.Inv

end System

/-- In every run, if `iget` is called for inodes that are not in the cache without links or with a
handle of the caller: an inode has one entry in use, which counts the handles to it and is not given
to another inode; `iput` frees an inode without links, to which it has the only handle; and an inode
that nobody has locked is as on disk. -/
theorem inode_cache_invariant {P : Type} [DecidableEq P] [Fintype P] {e : Env} {d : Disk}
    {s : Sys P} {labels : List (P × Act)} (hok : e.sb.Ok) (hd : Sound e.sb d)
    (hrun : Run (Guarded (Step e) fun s l => Prescribed e s l ∧ Linked e s l) (Sys.boot d) labels
      s) :
    (∀ ip jp, 0 < (s.icache ip).ref → 0 < (s.icache jp).ref →
      (s.icache ip).inum = (s.icache jp).inum → ip = jp) ∧
    (∀ ip, (s.icache ip).ref = ∑ p, s.handles p ip) ∧
    (∀ l t ip, Prescribed e s l → Linked e s l → Step e s l t →
      (t.icache ip).inum ≠ (s.icache ip).inum → (s.icache ip).ref = 0) ∧
    (∀ p ip, s.pc p = .iput .freeing ip →
      (s.icache ip).din.nlink = 0 ∧ s.handles p ip = 1 ∧ ∀ q, q ≠ p → s.handles q ip = 0) ∧
    ∀ ip, (s.icache ip).holder = none → 0 < (s.icache ip).ref → (s.icache ip).valid = true →
      (s.icache ip).din = getDinode e.sb s.disk (s.icache ip).inum := by
  have h : s.Inv e := hrun.invariant_of_guard (Sys.Inv.boot hd)
    fun _ _ _ hu hg hstep => (hu.step hok hg.1 hg.2 hstep).inv
  refine ⟨h.unique, fun ip => (h.entry ip).count, fun l t ip hpre hlink hstep hne => ?_,
    fun p ip hp => ?_, fun ip hnone hpos hvalid => ?_⟩
  · exact Nat.eq_zero_of_not_pos fun hpos => hne ((h.step hok hpre hlink hstep).inum ip hpos)
  · have hat := (h.entry ip).stage p _ (Pc.stageOf_eq_some.mpr hp)
    have hq : ∀ q, q ≠ p → s.handles q ip = 0 := fun q hqp =>
      Nat.eq_zero_of_not_pos fun hq => hqp (h.sole_of_freeing hp hq).symm
    refine ⟨hat.2.2.2.1, ?_, hq⟩
    rw [← hat.2.2.2.2, (h.entry ip).count, Finset.sum_eq_single p (fun q _ => hq q)
      fun hp => absurd (Finset.mem_univ p) hp]
  · exact ((h.entry ip).synced hpos hvalid).2.2 hnone

section Runs

deriving instance DecidableEq for Dinode

instance (e : Env) (s : Sys Bool) (ip : Ip) : Decidable (s.Synced e ip) :=
  inferInstanceAs (Decidable (_ = _))

instance (e : Env) (s : Sys Bool) (l : Bool × Act) : Decidable (Prescribed e s l) := by
  unfold Prescribed
  split <;> infer_instance

instance (e : Env) (s : Sys Bool) (l : Bool × Act) : Decidable (Linked e s l) := by
  unfold Linked
  split <;> infer_instance

/-- A small file system without devices, and two entries of the cache. -/
def smallEnv : Env := ⟨smallSb, fun _ => none⟩
def ip₀ : Ip := ⟨0, NINODE_pos⟩
def ip₁ : Ip := ⟨1, by decide⟩

theorem step_of_toOption (s : Sys Bool) (l : Bool × Act) (t : Sys Bool)
    (h : (s.next smallEnv l).toOption = some t) : Step smallEnv s l t :=
  Outcome.eq_ok_of_toOption h

/-- A new inode is put away. -/
theorem inode_cache_invariant_iput :
    ∃ (labels : List (Bool × Act)) (s : Sys Bool) (ip : Ip),
      Run (Guarded (Step smallEnv) fun s l => Prescribed smallEnv s l ∧ Linked smallEnv s l)
        (Sys.boot (emptyDisk smallSb)) labels s ∧ s.pc false = .iput .freeing ip ∧
        s.handles false ip = 1 ∧ s.handles true ip = 0 := by
  obtain ⟨s, hrun, htest⟩ := exists_run_of_runList
    (guardedNext (fun s l => Prescribed smallEnv s l ∧ Linked smallEnv s l)
      fun s l => (s.next smallEnv l).toOption)
    (guarded_of_guardedNext step_of_toOption) (Sys.boot (emptyDisk smallSb))
    ([.ialloc T_FILE, .ilock ip₀, .iunlock ip₀, .iput ip₀, .go].map (Prod.mk false))
    (fun s => s.pc false = .iput .freeing ip₀) (by decide +kernel)
  have hpc := of_decide_eq_true htest
  obtain ⟨-, -, -, hfree, -⟩ :=
    inode_cache_invariant (e := smallEnv) smallSb_ok (sound_emptyDisk smallSb_ok) hrun
  obtain ⟨-, hone, hothers⟩ := hfree false _ hpc
  exact ⟨_, s, _, hrun, hpc, hone, hothers true (by decide)⟩

/-- One process has a directory without links, another one has a directory whose entry ".." is that
directory. The first process is in `iput`, and has looked at the count, when the other one looks up
"..": it has a handle to an inode that is freed. -/
theorem iput_frees_shared_inode :
    ∃ (labels : List (Bool × Act)) (s : Sys Bool) (ip jp : Ip),
      Run (Guarded (Step smallEnv) (Prescribed smallEnv)) (Sys.boot (emptyDisk smallSb)) labels s ∧
        (s.icache jp).holder = some true ∧
        contents s.disk (s.icache jp).din = direntBytes (s.icache ip).inum [46, 46] ∧
        s.pc false = .iput .releasing ip ∧ s.handles true ip = 1 ∧
        (getDinode smallSb s.disk (s.icache ip).inum).type = 0 := by
  obtain ⟨s, hrun, htest⟩ := exists_run_of_runList
    (guardedNext (Prescribed smallEnv) fun s l => (s.next smallEnv l).toOption)
    (guarded_of_guardedNext step_of_toOption) (Sys.boot (emptyDisk smallSb))
    ([.ialloc T_DIR, .ilock ip₀, .iunlock ip₀].map (Prod.mk false) ++
      [.ialloc T_DIR, .ilock ip₁, .writei ip₁ (direntBytes 1 [46, 46]) 0].map (Prod.mk true) ++
      [(false, .iput ip₀), (false, .go), (true, .iget 1), (false, .go)])
    (fun s => (s.icache ip₁).holder = some true ∧
      contents s.disk (s.icache ip₁).din = direntBytes (s.icache ip₀).inum [46, 46] ∧
      s.pc false = .iput .releasing ip₀ ∧ s.handles true ip₀ = 1 ∧
      (getDinode smallSb s.disk (s.icache ip₀).inum).type = 0) (by decide +kernel)
  exact ⟨_, s, _, _, hrun, of_decide_eq_true htest⟩

end Runs

end Xv6.Icache
