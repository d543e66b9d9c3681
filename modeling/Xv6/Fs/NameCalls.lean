import Xv6.Fs.Unlink

/-!
# Calls on names as transactions

`link`, `unlink`, `mkdir`, `mknod` and `chdir` with the operations of the log around them: every
way out of a call ends the operation that it began. A call that fails leaves no trace: the inodes,
directories and free map on disk are as before, and so are the references to inodes, the locks, the
working directory and the number of outstanding operations.
-/

namespace Xv6.Fs

open Lib

/-- The inode cache, `log.outstanding`, and the working directory of the calling process. -/
structure Kern where
  ic : Ic
  outstanding : ℕ
  cwd : Ip

/-- Programs of the calling process. -/
abbrev KernM := Prog Fault Kern

/-- Run a routine on the disk and the inode cache. -/
def inIc {α : Type} (x : IcM α) : KernM α := zoom Kern.ic (fun ic k => { k with ic := ic }) x

/-- Begin an operation, once the log has room for it. -/
def beginOp : KernM Unit := modify fun k => { k with outstanding := k.outstanding + 1 }

/-- End an operation. -/
def endOp : KernM Unit := modify fun k => { k with outstanding := k.outstanding - 1 }

/-! ### The calls -/

/-- A call on names with its arguments; `none` stands for an argument that cannot be fetched. -/
inductive NameCall
  | link (old new : Option (List UInt8))
  | unlink (path : Option (List UInt8))
  | mkdir (path : Option (List UInt8))
  | mknod (path : Option (List UInt8)) (major minor : Option Int16)
  | chdir (path : Option (List UInt8))

namespace NameCall

variable (e : Env)

/-- The label `bad` of `sys_link`. -/
def linkBad (ip : Ip) : KernM Bool := do
  inIc (ilock e ip)
  inIc (addLink e ip (-1))
  inIc (iunlockput e ip)
  endOp
  return false

/-- `sys_link` with the names it has fetched. -/
def sysLink (old new : List UInt8) : KernM Bool := do
  beginOp
  let cwd := (← get).cwd
  match ← inIc (namei e cwd old) with
  | none => do
    endOp
    return false
  | some ip => do
    inIc (ilock e ip)
    let i ← inIc (inode ip)
    if i.din.type = T_DIR then do
      inIc (iunlockput e ip)
      endOp
      return false
    else do
      inIc (addLink e ip 1)
      inIc (iunlock ip)
      match ← inIc (nameiparent e cwd new) with
      | none => linkBad e ip
      | some (dp, name) => do
        inIc (ilock e dp)
        let i ← inIc (inode ip)
        if ← inIc (dirlink e dp name i.inum) then do
          inIc (iunlockput e dp)
          inIc (iput e ip)
          endOp
          return true
        else do
          inIc (iunlockput e dp)
          linkBad e ip

/-- The label `bad` of `sys_unlink`. -/
def unlinkBad (dp : Ip) : KernM Bool := do
  inIc (iunlockput e dp)
  endOp
  return false

/-- `sys_unlink` with the name it has fetched. -/
def sysUnlink (path : List UInt8) : KernM Bool := do
  beginOp
  let cwd := (← get).cwd
  match ← inIc (nameiparent e cwd path) with
  | none => do
    endOp
    return false
  | some (dp, name) => do
    inIc (ilock e dp)
    if namecmp name dot = 0 ∨ namecmp name dotdot = 0 then unlinkBad e dp
    else do
      match ← inIc (dirlookup e dp name) with
      | none => unlinkBad e dp
      | some (ip, off) => do
        inIc (ilock e ip)
        let i ← inIc (inode ip)
        if i.din.nlink < 1 then throw (.panic .unlinkNlink)
        else do
          if ← inIc (if i.din.type = T_DIR then isdirempty e ip else pure true) then do
            inIc (eraseEntry e dp ip off)
            inIc (iunlockput e dp)
            inIc (addLink e ip (-1))
            inIc (iunlockput e ip)
            endOp
            return true
          else do
            inIc (iunlockput e ip)
            unlinkBad e dp

/-- The end of `sys_mkdir` and `sys_mknod`, with the inode that `create` returned. -/
def finishCreate (r : Option Ip) : KernM Bool :=
  match r with
  | none => do
    endOp
    return false
  | some ip => do
    inIc (iunlockput e ip)
    endOp
    return true

/-- `sys_mkdir` and `sys_mknod`, which begin the operation before they fetch their arguments. -/
def sysMknod (args : Option (List UInt8 × Int16 × Int16 × Int16)) : KernM Bool := do
  beginOp
  let cwd := (← get).cwd
  match args with
  | none => do
    endOp
    return false
  | some (path, type, major, minor) => do
    let r ← inIc (create e cwd path type major minor)
    finishCreate e r

/-- `sys_chdir`. -/
def sysChdir (path : Option (List UInt8)) : KernM Bool := do
  beginOp
  let cwd := (← get).cwd
  match path with
  | none => do
    endOp
    return false
  | some path => do
    match ← inIc (namei e cwd path) with
    | none => do
      endOp
      return false
    | some ip => do
      inIc (ilock e ip)
      let i ← inIc (inode ip)
      if i.din.type ≠ T_DIR then do
        inIc (iunlockput e ip)
        endOp
        return false
      else do
        inIc (iunlock ip)
        inIc (iput e cwd)
        endOp
        modify fun k => { k with cwd := ip }
        return true

/-- Run a call; `false` stands for -1. -/
def run : NameCall → KernM Bool
  | link (some old) (some new) => sysLink e old new
  | link _ _ => return false
  | unlink (some path) => sysUnlink e path
  | unlink none => return false
  | mkdir path => sysMknod e (path.map (·, T_DIR, 0, 0))
  | mknod (some path) (some major) (some minor) => sysMknod e (some (path, T_DEV, major, minor))
  | mknod _ _ _ => sysMknod e none
  | chdir path => sysChdir e path

/-! ### One operation around the work on inodes -/

section Bracket

variable {e : Env} {k : Kern} {E : Fault → Prop}

@[simp] theorem wp_inIc {α : Type} {x : IcM α} {Q : α → Kern → Prop} :
    Wp (inIc x) k Q E ↔ Wp x k.ic (fun a ic => Q a { k with ic := ic }) E := Wp.zoom_iff

@[simp] theorem wp_beginOp {Q : Unit → Kern → Prop} :
    Wp beginOp k Q E ↔ Q () { k with outstanding := k.outstanding + 1 } := Iff.rfl

@[simp] theorem wp_endOp {Q : Unit → Kern → Prop} :
    Wp endOp k Q E ↔ Q () { k with outstanding := k.outstanding - 1 } := Iff.rfl

@[simp] theorem wp_linkBad {ip : Ip} {Q : Bool → Kern → Prop} :
    Wp (linkBad e ip) k Q E ↔ Wp (Fs.linkBad e ip) k.ic
      (fun r ic => Q r ⟨ic, k.outstanding - 1, k.cwd⟩) E := by
  unfold linkBad Fs.linkBad
  simp [Wp.bind_iff, -bind_pure_comp]

theorem wp_sysLink {old new : List UInt8} {Q : Bool → Kern → Prop} :
    Wp (sysLink e old new) k Q E ↔ Wp (Fs.sysLink e k.cwd old new) k.ic
      (fun r ic => Q r { k with ic := ic }) E := by
  unfold sysLink Fs.sysLink linkEntry
  simp only [Wp.bind_iff, wp_beginOp, Wp.get_iff, wp_inIc]
  refine Wp.congr fun r ic => ?_
  cases r with
  | none => simp [Wp.bind_iff, -bind_pure_comp]
  | some ip =>
    simp only [Wp.bind_iff, wp_inIc]
    refine Wp.congr fun _ ic => Wp.congr fun i ic => ?_
    split_ifs
    · simp [Wp.bind_iff, -bind_pure_comp]
    · simp only [Wp.bind_iff, wp_inIc]
      refine Wp.congr fun _ ic => Wp.congr fun _ ic => Wp.congr fun r ic => ?_
      cases r with
      | none => simp
      | some r =>
        simp only [Wp.bind_iff, wp_inIc]
        refine Wp.congr fun _ ic => Wp.congr fun i ic => Wp.congr fun r ic => ?_
        split_ifs
        · simp [Wp.bind_iff, -bind_pure_comp]
        · simp [Wp.bind_iff, -bind_pure_comp]

@[simp] theorem wp_unlinkBad {dp : Ip} {Q : Bool → Kern → Prop} :
    Wp (unlinkBad e dp) k Q E ↔ Wp (iunlockput e dp) k.ic
      (fun _ ic => Q false ⟨ic, k.outstanding - 1, k.cwd⟩) E := by
  unfold unlinkBad
  simp [Wp.bind_iff, -bind_pure_comp]

theorem wp_sysUnlink {path : List UInt8} {Q : Bool → Kern → Prop} :
    Wp (sysUnlink e path) k Q E ↔ Wp (Fs.sysUnlink e k.cwd path) k.ic
      (fun r ic => Q r { k with ic := ic }) E := by
  unfold sysUnlink Fs.sysUnlink unlinkFound unlinkEntry
  simp only [Wp.bind_iff, wp_beginOp, Wp.get_iff, wp_inIc]
  refine Wp.congr fun r ic => ?_
  cases r with
  | none => simp [Wp.bind_iff, -bind_pure_comp]
  | some r =>
    simp only [Wp.bind_iff, wp_inIc]
    refine Wp.congr fun _ ic => ?_
    split_ifs with hdot
    · simp [Wp.bind_iff, -bind_pure_comp]
    · simp only [Wp.bind_iff, wp_inIc]
      refine Wp.congr fun r ic => ?_
      cases r with
      | none => simp [Wp.bind_iff, -bind_pure_comp]
      | some r =>
        simp only [Wp.bind_iff, wp_inIc]
        refine Wp.congr fun _ ic => Wp.congr fun i ic => ?_
        by_cases hlink : i.din.nlink < 1
        · rw [if_pos hlink, if_pos hlink]
          rfl
        · rw [if_neg hlink, if_neg hlink]
          simp only [Wp.bind_iff, wp_inIc]
          refine Wp.congr fun r ic => ?_
          split_ifs with hempty
          · simp [Wp.bind_iff, -bind_pure_comp]
          · simp [Wp.bind_iff, -bind_pure_comp]

theorem wp_sysMknod {path : List UInt8} {type major minor : Int16} {Q : Bool → Kern → Prop} :
    Wp (sysMknod e (some (path, type, major, minor))) k Q E ↔
      Wp (Fs.sysMknod e k.cwd path type major minor)
      k.ic (fun r ic => Q r { k with ic := ic }) E := by
  unfold sysMknod Fs.sysMknod finishCreate
  simp only [Wp.bind_iff, wp_beginOp, Wp.get_iff, wp_inIc]
  refine Wp.congr fun r ic => ?_
  cases r with
  | none => simp [Wp.bind_iff, -bind_pure_comp]
  | some ip => simp [Wp.bind_iff, -bind_pure_comp]

theorem wp_sysChdir {path : List UInt8} {Q : Bool → Kern → Prop} :
    Wp (sysChdir e (some path)) k Q E ↔ Wp (chdirInode e k.cwd path) k.ic
      (fun r ic => Q r.isSome { k with ic := ic, cwd := r.getD k.cwd }) E := by
  unfold sysChdir chdirInode
  simp only [Wp.bind_iff, wp_beginOp, Wp.get_iff, wp_inIc]
  refine Wp.congr fun r ic => ?_
  cases r with
  | none => simp [Wp.bind_iff, -bind_pure_comp]
  | some ip =>
    simp only [Wp.bind_iff, wp_inIc]
    refine Wp.congr fun _ ic => Wp.congr fun i ic => ?_
    split_ifs with hdir
    · simp [Wp.bind_iff, -bind_pure_comp]
    · simp [Wp.bind_iff, -bind_pure_comp]

end Bracket

/-- A call that fails gives back what it took, ends its operation and stays in its directory. -/
theorem run_spec {e : Env} {orphans : Set ℕ} {g : Ghost} {k : Kern} (h : Holds e.sb orphans g k.ic)
    (hunlocked : ∀ ip, g.lock ip = false) (hcwd : 0 < g.held k.cwd) (c : NameCall) :
    Wp (c.run e) k
      (fun r k' => r = false → Returned e.sb orphans g k'.ic ∧ k'.outstanding = k.outstanding ∧
        k'.cwd = k.cwd) fun _ => True := by
  have hrefs : 0 < g.refs k.cwd := Nat.add_pos_left hcwd _
  have hself : Returned e.sb orphans g k.ic := ⟨g, .refl orphans g, h⟩
  have hended : ∀ {A R : Set ℕ} {r : Bool} {ic : Ic}, Ended e.sb orphans A R g r ic → r = false →
      Returned e.sb orphans g ic ∧ k.outstanding = k.outstanding ∧ k.cwd = k.cwd := by
    rintro A R r ic hr rfl
    exact ⟨hr, rfl, rfl⟩
  -- the operation is over, and nothing has been done
  have hnothing : ∀ {r : Bool}, r = false → Returned e.sb orphans g k.ic ∧
      k.outstanding + 1 - 1 = k.outstanding ∧ k.cwd = k.cwd := fun _ => ⟨hself, rfl, rfl⟩
  have hmknod : ∀ path type major minor, type ≠ 0 →
      Wp (sysMknod e (some (path, type, major, minor))) k
        (fun r k' => r = false → Returned e.sb orphans g k'.ic ∧ k'.outstanding = k.outstanding ∧
          k'.cwd = k.cwd) fun _ => True := fun path type major minor htype =>
    wp_sysMknod.mpr ((sysMknod_spec h hunlocked hrefs path htype).mono (fun _ _ => hended)
      fun _ _ => trivial)
  cases c with
  | link old new =>
    rcases old with _ | old <;> rcases new with _ | new
    case some.some =>
      exact wp_sysLink.mpr ((sysLink_spec h hunlocked hrefs old new).mono
        (fun _ _ => hended (R := ∅)) fun _ _ => trivial)
    all_goals exact fun _ => ⟨hself, rfl, rfl⟩
  | unlink path =>
    rcases path with _ | path
    · exact fun _ => ⟨hself, rfl, rfl⟩
    · exact wp_sysUnlink.mpr ((sysUnlink_spec h hunlocked hrefs path).mono
        (fun _ _ => hended (A := ∅)) fun _ _ => trivial)
  | mkdir path =>
    rcases path with _ | path
    · exact hnothing
    · exact hmknod path T_DIR 0 0 (by decide)
  | mknod path major minor =>
    rcases path with _ | path <;> rcases major with _ | major <;> rcases minor with _ | minor
    case some.some.some => exact hmknod path T_DEV major minor (by decide)
    all_goals exact hnothing
  | chdir path =>
    rcases path with _ | path
    · exact hnothing
    · refine wp_sysChdir.mpr ((chdirInode_spec h hunlocked hcwd path).mono ?_ fun _ _ => trivial)
      rintro (_ | ip) ic hr hfalse
      · exact ⟨hr, rfl, rfl⟩
      · exact absurd hfalse nofun

end NameCall

/-! ### States without a trace -/

/-- A state between two calls: the disk accounts for its blocks, directories name inodes that
exist, and an inode without links is in use. No inode is cached twice, what was read into the
cache is what the disk has, and no lock is held. -/
structure WellFormed (sb : SuperBlock) (k : Kern) : Prop where
  layout : sb.Ok
  sound : Sound sb k.ic.disk
  dirs : ∀ n nd, nodes sb k.ic.disk n = some nd → nd.type = T_DIR → InodesBelow sb.ninodes nd.data
  kept : ∀ n nd, nodes sb k.ic.disk n = some nd → nd.nlink = 0 →
    ∃ ip, 0 < (k.ic.icache ip).ref ∧ (k.ic.icache ip).inum = n ∧ (k.ic.icache ip).valid = true
  inum_lt : ∀ ip, 0 < (k.ic.icache ip).ref → (k.ic.icache ip).inum < sb.ninodes
  unique : ∀ ip jp, 0 < (k.ic.icache ip).ref → 0 < (k.ic.icache jp).ref →
    (k.ic.icache ip).inum = (k.ic.icache jp).inum → ip = jp
  sync : ∀ ip, 0 < (k.ic.icache ip).ref → (k.ic.icache ip).valid = true →
    (k.ic.icache ip).din = getDinode sb k.ic.disk (k.ic.icache ip).inum ∧
      (k.ic.icache ip).din.type ≠ 0
  unlocked : ∀ ip, (k.ic.icache ip).lock = false
  cwd : 0 < (k.ic.icache k.cwd).ref

/-- The state `k'` differs from `k` in nothing but what is cached of inodes that nobody uses: the
inodes on disk with their contents and the free map, the references to inodes, the locks, the
operations and the working directory are the same. -/
structure NoTrace (sb : SuperBlock) (k k' : Kern) : Prop where
  inode : ∀ n < sb.ninodes, getDinode sb k'.ic.disk n = getDinode sb k.ic.disk n
  contents : ∀ n, nodes sb k'.ic.disk n = nodes sb k.ic.disk n
  bitmap : ∀ b < sb.size, getBit sb k'.ic.disk b = getBit sb k.ic.disk b
  ref : ∀ ip, (k'.ic.icache ip).ref = (k.ic.icache ip).ref
  inum : ∀ ip, 0 < (k.ic.icache ip).ref → (k'.ic.icache ip).inum = (k.ic.icache ip).inum
  unlocked : ∀ ip, (k'.ic.icache ip).lock = false
  outstanding : k'.outstanding = k.outstanding
  cwd : k'.cwd = k.cwd

section Trace

variable {sb : SuperBlock} {k : Kern} {g : Ghost} {s s' : Ic}

/-- The references of a state between two calls, all of the world outside. -/
def Kern.ghost (sb : SuperBlock) (k : Kern) : Ghost where
  nodes := nodes sb k.ic.disk
  disk := some k.ic.disk
  held ip := (k.ic.icache ip).ref
  own _ := 0
  inum ip := (k.ic.icache ip).inum
  lock _ := false
  type _ := none

theorem WellFormed.holds (h : WellFormed sb k) : Holds sb ∅ (k.ghost sb) k.ic := by
  refine ⟨h.layout, h.sound, rfl, fun d hd => ?_, fun ip => ⟨rfl, h.unlocked ip, fun _ => rfl,
    h.inum_lt ip, fun hpos hvalid => ?_, fun hl => ?_, nofun⟩, h.unique, h.dirs,
    fun n nd hn hlink => .inr (h.kept n nd hn hlink)⟩
  · obtain rfl := Option.some.inj hd
    exact .refl sb _
  · obtain ⟨hdin, htype⟩ := h.sync ip hpos hvalid
    refine ⟨hdin, fun hnone => htype ?_⟩
    rw [hdin]
    exact nodes_eq_none_iff.mp hnone (h.inum_lt ip hpos)
  · rw [h.unlocked ip] at hl
    cases hl

/-- Where no inode is an orphan, a call that gives back what it took frees no inode. -/
theorem Holds.same_of_returned (h : Holds sb ∅ g s) (hr : Returned sb ∅ g s') :
    ∃ g', After ∅ g g' ∧ Holds sb ∅ g' s' ∧ g'.nodes = g.nodes ∧
      ∀ d, g.disk = some d → g'.disk = some d := by
  obtain ⟨g', hafter, h'⟩ := hr
  have hnodes : g'.nodes = g.nodes := funext fun n =>
    (hafter.nodes n).resolve_right fun hn => hn.2.elim id h.orphan_of_garbage
  refine ⟨g', hafter, h', hnodes, fun d hd => (hafter.disk d hd).resolve_right ?_⟩
  rintro ⟨n, hn, hnone⟩
  rw [hnodes] at hnone
  exact hn hnone

theorem SameDisk.getBit_eq {d d' : Disk} (h : SameDisk sb d d') (hok : sb.Ok) {b : ℕ}
    (hb : b < sb.size) : getBit sb d' b = getBit sb d b :=
  getBit_congr hb fun c hc => h.block c fun hi => hok.disjoint c hi hc

theorem WellFormed.noTrace (h : WellFormed sb k) {k' : Kern}
    (hr : Returned sb ∅ (k.ghost sb) k'.ic) (hout : k'.outstanding = k.outstanding)
    (hcwd : k'.cwd = k.cwd) : NoTrace sb k k' := by
  obtain ⟨g', hafter, h', hnodes, hdisk⟩ := h.holds.same_of_returned hr
  have hsame := h'.disk_eq k.ic.disk (hdisk k.ic.disk rfl)
  have hrefs : ∀ ip, (k'.ic.icache ip).ref = (k.ic.icache ip).ref := fun ip => by
    rw [h'.ref_eq, Ghost.refs, hafter.held, hafter.own]
    rfl
  refine ⟨hsame.record, fun n => ?_, fun b => hsame.getBit_eq h.layout, hrefs, fun ip hpos => ?_,
    fun ip => ?_, hout, hcwd⟩
  · rw [h'.nodes_eq, hnodes]
    rfl
  · rw [(h'.entry ip).inum (by rwa [hrefs]), hafter.inum ip hpos]
    rfl
  · rw [(h'.entry ip).lock, hafter.lock]
    rfl

end Trace

section Boot

variable {sb : SuperBlock} {d : Disk}

/-- After boot from a disk on which every inode has a link, the state is well formed. -/
theorem wellFormed_boot (hok : sb.Ok) (hsound : Sound sb d) (hroot : ROOTINO < sb.ninodes)
    (hdirs : ∀ n nd, nodes sb d n = some nd → nd.type = T_DIR → InodesBelow sb.ninodes nd.data)
    (hlinks : ∀ n nd, nodes sb d n = some nd → nd.nlink ≠ 0) :
    WellFormed sb ⟨(boot () d).ic, 0, firstIp⟩ := by
  have href : ∀ ip, 0 < ((boot () d).ic.icache ip).ref → ip = firstIp := fun ip hpos => by
    by_contra hne
    simp [boot, hne] at hpos
  refine ⟨hok, hsound, hdirs, fun n nd hn hlink => absurd hlink (hlinks n nd hn), fun ip hpos => ?_,
    fun ip jp hip hjp _ => (href ip hip).trans (href jp hjp).symm, nofun, fun _ => rfl, ?_⟩
  · rw [href ip hpos]
    simpa [boot] using hroot
  · simp [boot]

theorem freeBlocks_putDinode (hok : sb.Ok) {n : ℕ} (hn : n < sb.ninodes) (ip : Dinode) :
    freeBlocks sb (putDinode sb d n ip) = freeBlocks sb d :=
  Finset.filter_congr fun b hb => by
    rw [getBit_congr (Finset.mem_range.mp hb) fun c hc =>
      putDinode_of_ne ip hn fun hi => hok.disjoint c hi hc]

/-- The first block of a file takes one block. -/
theorem card_missingIn_le_one (d : Disk) (ip : Dinode) {len : ℕ} (hlen : len ≤ BSIZE) :
    (missingIn d ip 0 len).card ≤ 1 := by
  have hsub : missingIn d ip 0 len ⊆ needs 0 := by
    intro sl hsl
    obtain ⟨bn, hbn, hsl⟩ := Finset.mem_biUnion.mp hsl
    obtain rfl : bn = 0 := by
      have := (Finset.mem_filter.mp hbn).2
      simp only [BSIZE] at *
      omega
    exact (Finset.mem_filter.mp hsl).1
  exact Finset.card_le_card hsub

/-- What a node needs to be the node of a new inode with at most one block. -/
def Node.Small (sb : SuperBlock) (n : ℕ) (nd : Node) : Prop :=
  n < sb.ninodes ∧ nd.type ≠ 0 ∧ nd.type ≠ T_DEV ∧ nd.data.length ≤ BSIZE

instance (n : ℕ) (nd : Node) : Decidable (nd.Small sb n) :=
  inferInstanceAs (Decidable (_ ∧ _ ∧ _ ∧ _))

/-- Give the node to inode `n`. -/
def addNode (sb : SuperBlock) (n : ℕ) (nd : Node) (d : Disk) : Disk :=
  let d := putDinode sb d n
    { Dinode.blank nd.type with major := nd.major, minor := nd.minor, nlink := nd.nlink }
  match writei ⟨sb, fun _ => none⟩ n (getDinode sb d n) nd.data 0 d with
  | .ok (_, d') => d'
  | .error _ => d

/-- One more inode, on a disk with a free block. -/
theorem addNode_spec (hok : sb.Ok) (h : Sound sb d) {n : ℕ} {nd : Node} (hnew : nodes sb d n = none)
    (hnd : nd.Small sb n) (hroom : 0 < (freeBlocks sb d).card) :
    Sound sb (addNode sb n nd d) ∧
      nodes sb (addNode sb n nd d) = Function.update (nodes sb d) n (some nd) ∧
      (freeBlocks sb d).card ≤ (freeBlocks sb (addNode sb n nd d)).card + 1 := by
  obtain ⟨hn, htype, hdev, hlen⟩ := hnd
  obtain ⟨e, he⟩ : ∃ e : Env, e = ⟨sb, fun _ => none⟩ := ⟨_, rfl⟩
  obtain rfl : e.sb = sb := by rw [he]
  unfold addNode
  rw [← he]
  -- an inode without contents, which are then written by `writei`
  set ip : Dinode :=
    { Dinode.blank nd.type with major := nd.major, minor := nd.minor, nlink := nd.nlink }
  set d₁ := putDinode e.sb d n ip
  have hset : Sets e.sb d n (some ⟨nd.type, nd.major, nd.minor, nd.nlink, []⟩) d₁ :=
    .fresh h hok hn (nodes_eq_none_iff.mp hnew hn) ip htype (fun _ => rfl) rfl
  have hfree₁ : freeBlocks e.sb d₁ = freeBlocks e.sb d := freeBlocks_putDinode hok hn _
  have hnode : nodes e.sb d₁ n = some ⟨nd.type, nd.major, nd.minor, nd.nlink, []⟩ := by
    rw [hset.nodes_eq, Function.update_self]
  obtain ⟨-, ht, hrec⟩ := nodes_eq_some_iff.mp hnode
  have hcontents := contents_of_nodes hnode
  have hrej : ¬ WriteRejected (getDinode e.sb d₁ n) 0 nd.data.length := by
    have hmax : BSIZE ≤ MAXFILE * BSIZE := by decide
    have hlt : BSIZE < 2 ^ 32 := by decide
    unfold WriteRejected
    omega
  have hmissing := card_missingIn_le_one d₁ (getDinode e.sb d₁ n) hlen
  have hdev' : (getDinode e.sb d₁ n).type ≠ T_DEV := by rwa [type_of_nodes hnode]
  obtain ⟨⟨r, ip'⟩, d', hrun, ⟨-, hw⟩, -, ip₁, d₂, hwrote, hcase⟩ :=
    ((writei_spec hok hset.sound hn ht hdev' hrej).and
      (writei_wrote hok hset.sound hn ht hdev' hrej)).exists_ok
        fun err hout => absurd hout.1.2 (by rw [hfree₁]; omega)
  have hsets := hw.sets hn ht
  dsimp only
  rw [hrun]
  refine ⟨hw.sound, ?_, ?_⟩
  · rw [hsets.nodes_eq, hset.nodes_eq, Function.update_idem, hrec, hcontents]
    simp [overwrite]
  · have hfree := hwrote.free
    have hfree₂ : freeBlocks e.sb d' = freeBlocks e.sb d₂ := by
      rcases hcase with ⟨-, -, rfl⟩ | ⟨-, -, rfl⟩
      · rfl
      · exact freeBlocks_putDinode hok hn _
    rw [hfree₁] at hfree
    dsimp only
    rw [hfree₂]
    omega

/-- The nodes of a list. -/
def listed (l : List (ℕ × Node)) (n : ℕ) : Option Node := (l.find? fun p => p.1 = n).map Prod.snd

theorem mem_of_listed {l : List (ℕ × Node)} {n : ℕ} {nd : Node} (h : listed l n = some nd) :
    (n, nd) ∈ l := by
  obtain ⟨p, hp, rfl⟩ := Option.map_eq_some_iff.mp h
  obtain rfl : p.1 = n := by simpa using List.find?_some hp
  exact List.mem_of_find?_eq_some hp

/-- A disk with the nodes of a list. -/
def listedDisk (sb : SuperBlock) (l : List (ℕ × Node)) : Disk :=
  l.foldr (fun p => addNode sb p.1 p.2) (emptyDisk sb)

theorem listedDisk_spec (hok : sb.Ok) {l : List (ℕ × Node)} (hnodup : (l.map Prod.fst).Nodup)
    (hl : ∀ p ∈ l, p.2.Small sb p.1) (hroom : l.length ≤ (freeBlocks sb (emptyDisk sb)).card) :
    Sound sb (listedDisk sb l) ∧ nodes sb (listedDisk sb l) = listed l ∧
      (freeBlocks sb (emptyDisk sb)).card ≤ (freeBlocks sb (listedDisk sb l)).card + l.length := by
  induction l with
  | nil =>
    refine ⟨sound_emptyDisk hok, funext fun n => ?_, Nat.le_add_right _ _⟩
    exact nodes_eq_none_iff.mpr fun hn => type_emptyDisk hok hn
  | cons p l ih =>
    rw [List.map_cons, List.nodup_cons] at hnodup
    rw [List.length_cons] at hroom
    obtain ⟨hsound, hnodes, hfree⟩ := ih hnodup.2 (fun q hq => hl q (List.mem_cons_of_mem p hq))
      (by omega)
    have hnew : nodes sb (listedDisk sb l) p.1 = none := by
      rw [hnodes, listed, Option.map_eq_none_iff, List.find?_eq_none]
      intro q hq
      simpa using fun heq : q.1 = p.1 => hnodup.1 (heq ▸ List.mem_map_of_mem hq)
    obtain ⟨hsound', hnodes', hfree'⟩ := addNode_spec hok hsound hnew (hl p List.mem_cons_self)
      (by omega)
    refine ⟨hsound', hnodes'.trans ?_, ?_⟩
    · rw [hnodes]
      funext n
      by_cases hn : n = p.1
      · simp [hn, listed]
      · simp [hn, Ne.symm hn, listed]
    · change _ ≤ (freeBlocks sb (addNode sb p.1 p.2 (listedDisk sb l))).card + (l.length + 1)
      omega

/-- What makes the nodes of a list those of a file system in which every inode has a link. -/
def BootNodes (sb : SuperBlock) (l : List (ℕ × Node)) : Prop :=
  (l.map Prod.fst).Nodup ∧ l.length ≤ (freeBlocks sb (emptyDisk sb)).card ∧
    ∀ p ∈ l, p.2.Small sb p.1 ∧ p.2.nlink ≠ 0 ∧
      (p.2.type = T_DIR → InodesBelow sb.ninodes p.2.data)

theorem wellFormed_listedDisk (hok : sb.Ok) {l : List (ℕ × Node)} (h : BootNodes sb l) :
    WellFormed sb ⟨(boot () (listedDisk sb l)).ic, 0, firstIp⟩ ∧
      nodes sb (listedDisk sb l) = listed l := by
  obtain ⟨hnodup, hroom, hl⟩ := h
  obtain ⟨hsound, hnodes, -⟩ := listedDisk_spec hok hnodup (fun p hp => (hl p hp).1) hroom
  have hmem (n : ℕ) (nd : Node) (hn : nodes sb (listedDisk sb l) n = some nd) : (n, nd) ∈ l :=
    mem_of_listed (hnodes ▸ hn)
  exact ⟨wellFormed_boot hok hsound hok.root_lt (fun n nd hn => (hl _ (hmem n nd hn)).2.2)
    fun n nd hn => (hl _ (hmem n nd hn)).2.1, hnodes⟩

instance (sb : SuperBlock) (l : List (ℕ × Node)) : Decidable (BootNodes sb l) :=
  have (m : ℕ) (c : List UInt8) : Decidable (InodesBelow m c) :=
    inferInstanceAs (Decidable (∀ i < _, _))
  inferInstanceAs (Decidable (_ ∧ _ ∧ _))

/-- A disk with an empty root directory. -/
def rootDisk : Disk :=
  putDinode smallSb (emptyDisk smallSb) ROOTINO { Dinode.blank T_DIR with nlink := 1 }

theorem nodes_rootDisk {n : ℕ} {nd : Node} (hn : nodes smallSb rootDisk n = some nd) :
    nd.nlink = 1 ∧ nd.data = [] := by
  obtain ⟨hlt, htype, rfl⟩ := nodes_eq_some_iff.mp hn
  by_cases hroot : n = ROOTINO
  · subst hroot
    have hrec : getDinode smallSb rootDisk ROOTINO = { Dinode.blank T_DIR with nlink := 1 } :=
      getDinode_putDinode_self (Dinode.fits_blank T_DIR)
    rw [hrec]
    exact ⟨rfl, rfl⟩
  · refine absurd ?_ htype
    rw [rootDisk, getDinode_putDinode_of_ne _ hroot]
    exact type_emptyDisk smallSb_ok hlt

theorem wellFormed_rootDisk : WellFormed smallSb ⟨(boot () rootDisk).ic, 0, firstIp⟩ := by
  refine wellFormed_boot smallSb_ok ?_ (by decide) (fun n nd hn _ i hi => ?_) fun n nd hn => ?_
  · exact (sound_emptyDisk smallSb_ok).putDinode_empty smallSb_ok (by decide)
      (type_emptyDisk smallSb_ok (by decide)) (fun _ => rfl) rfl
  · rw [(nodes_rootDisk hn).2, List.length_nil, Nat.zero_div] at hi
    exact absurd hi (Nat.not_lt_zero i)
  · rw [(nodes_rootDisk hn).1]
    decide

end Boot

/-- A call on names that fails leaves no trace. -/
theorem name_call_failure {e : Env} {k k' : Kern} (hwf : WellFormed e.sb k) (c : NameCall)
    (hrun : c.run e k = .ok (false, k')) : NoTrace e.sb k k' := by
  obtain ⟨hr, hout, hcwd⟩ := (c.run_spec hwf.holds (fun _ => rfl) hwf.cwd).of_ok hrun rfl
  exact hwf.noTrace hr hout hcwd

/-- The root with the files `a` and `b`. -/
def twoFiles : List (ℕ × Node) :=
  [(ROOTINO, ⟨T_DIR, 0, 0, 1, direntBytes 2 [97] ++ direntBytes 3 [98]⟩),
    (2, ⟨T_FILE, 0, 0, 1, [1, 2, 3]⟩), (3, ⟨T_FILE, 0, 0, 1, []⟩)]

/-- `link("a", "b")` has incremented the links of `a` when it finds that `b` exists. -/
theorem name_call_failure_link_exists :
    let e : Env := ⟨smallSb, fun _ => none⟩
    let k : Kern := ⟨(boot () (listedDisk smallSb twoFiles)).ic, 0, firstIp⟩
    ∃ k', WellFormed e.sb k ∧ (NameCall.link (some [97]) (some [98])).run e k = .ok (false, k') ∧
      NoTrace e.sb k k' := by
  intro e k
  have hwf : WellFormed e.sb k := (wellFormed_listedDisk smallSb_ok (by decide +kernel)).1
  have hrun : ((NameCall.link (some [97]) (some [98])).run e k).toOption.any
    (fun r => !r.1) = true := by
    decide +kernel
  obtain ⟨⟨r, k'⟩, hk', hr⟩ := (Option.any_eq_true _ _).mp hrun
  obtain rfl : r = false := by simpa using hr
  have hok := eq_ok_of_toOption hk'
  exact ⟨k', hwf, hok, name_call_failure hwf _ hok⟩

end Xv6.Fs
