import Xv6.Fs.Lookup
import Xv6.Fs.Syscall

/-!
# Making inodes

`create` in terms of nodes: it finds the inode, or makes a node with one link and an entry
for it in the parent directory. A new directory starts with entries for itself and for its
parent, and the parent counts one link more.
-/

namespace Xv6.Fs

open Lib

/-! ### Changes of the nodes -/

/-- The contents of a new directory `m` with parent `a`. -/
def dots (m a : ℕ) : List UInt8 := direntBytes m dot ++ direntBytes a dotdot

/-- The node that `create` makes for inode `m` in directory `a`. -/
def newNode (type major minor : Int16) (m a : ℕ) : Node :=
  ⟨type, major, minor, 1, if type = T_DIR then dots m a else []⟩

/-- A place for an entry: one that is not in use, or the end of the directory. -/
def Vacant (c : List UInt8) (j : ℕ) : Prop :=
  j < entCount c ∧ entInum c j = 0 ∨ DIRENT * j = c.length

namespace Node

/-- The node with an entry for inode `n` written at index `j`. -/
def addEntry (nd : Node) (j n : ℕ) (name : List UInt8) : Node :=
  { nd with data := overwrite nd.data (DIRENT * j) (direntBytes n name) }

/-- The node with entry `j` cleared. -/
def clearEntry (nd : Node) (j : ℕ) : Node :=
  { nd with data := overwrite nd.data (DIRENT * j) (List.replicate DIRENT 0) }

/-- The node with `k` links more. -/
def addLinks (nd : Node) (k : Int16) : Node := { nd with nlink := nd.nlink + k }

/-- A directory counts a link for each directory in it: `k` more, for an inode of type
`type`. -/
def addChild (nd : Node) (type k : Int16) : Node := if type = T_DIR then nd.addLinks k else nd

@[simp] theorem addChild_data (nd : Node) (type k : Int16) :
    (nd.addChild type k).data = nd.data := by
  unfold addChild
  split_ifs <;> rfl

@[simp] theorem addChild_type (nd : Node) (type k : Int16) :
    (nd.addChild type k).type = nd.type := by
  unfold addChild
  split_ifs <;> rfl

end Node

/-- What a call may do to the nodes `N`: entries are added to directories of `adds` and removed
for inodes of `removes` only, and a new inode was free or an orphan;
only files are written to. -/
inductive Change (orphans adds removes : Set ℕ) (N : ℕ → Option Node) : (ℕ → Option Node) → Prop
  | refl : Change orphans adds removes N N
  | make {a m j : ℕ} {nda : Node} {name : List UInt8} {type : Int16} (major minor : Int16)
      (ha : a ∈ adds) (hnda : N a = some nda) (hdir : nda.type = T_DIR)
      (hname : findName nda.data (cname name) = none) (hj : Vacant nda.data j) (hm : 0 < m)
      (hlt : m < 2 ^ 16) (hma : m ≠ a) (hfree : N m = none ∨ m ∈ orphans) :
      Change orphans adds removes N
        (Function.update (Function.update N m (some (newNode type major minor m a))) a
          (some ((nda.addChild type 1).addEntry j m name)))
  | link {a m j : ℕ} {nda nd : Node} {name : List UInt8} (ha : a ∈ adds) (hnda : N a = some nda)
      (hdir : nda.type = T_DIR) (hname : findName nda.data (cname name) = none)
      (hj : Vacant nda.data j) (hnd : N m = some nd) (hfile : nd.type ≠ T_DIR) (hlt : m < 2 ^ 16) :
      Change orphans adds removes N
        (Function.update (Function.update N m (some (nd.addLinks 1))) a
          (some (nda.addEntry j m name)))
  | unlink {a m j : ℕ} {nda nd : Node} {name : List UInt8} (hm : m ∈ removes)
      (hnda : N a = some nda) (hdir : nda.type = T_DIR) (hdot : cname name ≠ cname dot)
      (hdotdot : cname name ≠ cname dotdot) (hfind : findName nda.data (cname name) = some j)
      (hinum : entInum nda.data j = m) (hma : m ≠ a) (hnd : N m = some nd) (hlink : ¬ nd.nlink < 1)
      (hempty : nd.type = T_DIR → ∀ i, 2 ≤ i → i < entCount nd.data → entInum nd.data i = 0) :
      Change orphans adds removes N
        (Function.update (Function.update N a (some ((nda.clearEntry j).addChild nd.type (-1)))) m
          (some (nd.addLinks (-1))))
  | write {m : ℕ} {nd : Node} (data : List UInt8) (hnd : N m = some nd) (hfile : nd.type ≠ T_DIR) :
      Change orphans adds removes N (Function.update N m (some { nd with data := data }))

/-- The directories to which a call with this path may add an entry. -/
def parents (N : ℕ → Option Node) (c : ℕ) (path : List UInt8) : Set ℕ :=
  { a | ∃ name, resolve N c path true = some (a, name) }

/-- The inodes that `unlink` of this path may remove. -/
def targets (N : ℕ → Option Node) (c : ℕ) (path : List UInt8) : Set ℕ :=
  { m | ∃ a name nda j, resolve N c path true = some (a, name) ∧ N a = some nda ∧
    findName nda.data (cname name) = some j ∧ entInum nda.data j = m }

/-! ### Making entries -/

section Links

variable {e : Env} {orphans : Set ℕ} {g : Ghost} {s : Ic} {ip dp : Ip} {nd : Node}

theorem addLink_spec (h : Holds e.sb orphans g s) (hlock : g.lock ip = true)
    (hnd : g.node ip = some nd) (k : Int16) :
    Wp (addLink e ip k) s (fun _ s' => Holds e.sb orphans
      (g.setNode (g.inum ip) (some (nd.addLinks k))) s') fun _ => False := by
  refine iupdate_ip_spec h hlock hnd (fun i => { i with nlink := i.nlink + k })
    (fun _ => ⟨rfl, rfl, rfl⟩) ?_
  rintro i d rfl
  rfl

theorem setNew_spec (h : Holds e.sb orphans g s) (hlock : g.lock ip = true)
    (hnd : g.node ip = some nd) (major minor : Int16) :
    Wp (do
        modifyInode ip fun i =>
          { i with din := { i.din with major := major, minor := minor, nlink := 1 } }
        iupdateIp e ip) s
      (fun _ s' => Holds e.sb orphans (g.setNode (g.inum ip)
        (some { nd with major := major, minor := minor, nlink := 1 })) s') fun _ => False := by
  refine iupdate_ip_spec h hlock hnd
    (fun i => { i with major := major, minor := minor, nlink := 1 })
    (fun _ => ⟨rfl, rfl, rfl⟩) ?_
  rintro i d rfl
  rfl

/-- The inode number that a locked entry shows. -/
theorem Holds.inum_eq {sb : SuperBlock} (h : Holds sb orphans g s) (hlock : g.lock ip = true) :
    (s.icache ip).inum = g.inum ip := (h.locked_node hlock).1

theorem vacant_nil {j : ℕ} (h : Vacant [] j) : j = 0 := by
  rcases h with ⟨hj, -⟩ | hj
  · simp [entCount] at hj
  · simpa [DIRENT_eq] using hj

theorem entInum_direntBytes {n : ℕ} (hn : n < 2 ^ 16) (name : List UInt8) :
    entInum (direntBytes n name) 0 = n := by
  rw [entInum, direntAt, Nat.mul_zero, List.drop_zero,
    List.take_of_length_le (direntBytes_length n name).le, direntInum_direntBytes hn]

theorem vacant_one {n j : ℕ} (hn : n < 2 ^ 16) (hpos : n ≠ 0) {name : List UInt8}
    (h : Vacant (direntBytes n name) j) : j = 1 := by
  rcases h with ⟨hj, hzero⟩ | hj
  · rw [entCount, direntBytes_length, Nat.div_self (by decide)] at hj
    obtain rfl : j = 0 := by omega
    rw [entInum_direntBytes hn] at hzero
    exact absurd hzero hpos
  · rw [direntBytes_length] at hj
    simp only [DIRENT_eq] at hj
    omega

theorem overwrite_length_eq (c b : List UInt8) : overwrite c c.length b = c ++ b := by
  simp [overwrite]

theorem findName_dot (n : ℕ) : findName (direntBytes n dot) (cname dotdot) = none := by
  rw [findName_eq_none_iff, entCount, direntBytes_length]
  intro i hi _
  obtain rfl : i = 0 := by
    rw [Nat.div_self (by decide)] at hi
    omega
  rw [entName, direntAt, Nat.mul_zero, List.drop_zero,
    List.take_of_length_le (direntBytes_length n dot).le, direntName_direntBytes]
  decide

/-- The two entries of a new directory. -/
theorem createDots_spec (h : Holds e.sb orphans g s) (hip : g.lock ip = true)
    (hdp : g.lock dp = true) (hne : g.inum ip ≠ g.inum dp) (hnd : g.node dp = some nd) {nd₀ : Node}
    (hnew : g.node ip = some nd₀) (hdir : nd₀.type = T_DIR) (hempty : nd₀.data = [])
    (hpos : g.inum ip ≠ 0) :
    Wp (createDots e dp ip) s
      (fun _ s' => Holds e.sb orphans
        ((g.setNode (g.inum ip) (some { nd₀ with data := dots (g.inum ip) (g.inum dp) })).setNode
          (g.inum dp) (some (nd.addLinks 1))) s')
      LinkFails := by
  have hsmall : g.inum ip < 2 ^ 16 :=
    ((h.locked_node hip).2.1).trans_le h.layout.ninodes_le
  unfold createDots
  refine ((addLink_spec h hdp hnd 1).mono (fun _ _ => id) fun _ => False.elim).bind
    fun _ s₁ h₁ => ?_
  set g₁ := g.setNode (g.inum dp) (some (nd.addLinks 1)) with hg₁
  have hnew₁ : g₁.node ip = some nd₀ := by
    rw [Ghost.node, hg₁, Ghost.setNode_nodes, Ghost.setNode_inum, Function.update_of_ne hne]
    exact hnew
  rw [Wp.bind_iff, wp_inode, h₁.inum_eq hip]
  refine (dirlink_spec h₁ hip hnew₁ hdir dot (h.locked_node hip).2.1).bind fun r s₂ hr => ?_
  rw [Linked, hempty, show findName [] (cname dot) = none from rfl] at hr
  obtain ⟨rfl, j, hj, h₂⟩ := hr
  obtain rfl := vacant_nil hj
  have hdata : overwrite [] (DIRENT * 0) (direntBytes (g.inum ip) dot) =
      direntBytes (g.inum ip) dot := overwrite_length_eq [] _
  rw [hdata] at h₂
  -- then the entry for the parent
  have hinum₁ : g₁.inum ip = g.inum ip := rfl
  rw [hinum₁] at h₂
  rw [if_pos rfl, Wp.bind_iff, wp_inode, h₂.inum_eq hdp]
  refine (dirlink_spec h₂ hip
    (show Ghost.node _ ip = some { nd₀ with data := direntBytes (g.inum ip) dot } by
      simp [Ghost.node, hg₁]) hdir dotdot (h.locked_node hdp).2.1).bind fun r s₃ hr => ?_
  rw [Linked, findName_dot] at hr
  obtain ⟨rfl, j, hj, h₃⟩ := hr
  obtain rfl := vacant_one hsmall hpos hj
  rw [if_pos rfl, Wp.pure_iff]
  have hdata' : overwrite (direntBytes (g.inum ip) dot) (DIRENT * 1)
      (direntBytes (g.inum dp) dotdot) = dots (g.inum ip) (g.inum dp) := by
    have := overwrite_length_eq (direntBytes (g.inum ip) dot) (direntBytes (g.inum dp) dotdot)
    rwa [direntBytes_length] at this
  simp only [Ghost.setNode_inum, hinum₁, Ghost.setNode_setNode] at h₃
  rw [hg₁, Ghost.setNode_comm _ _ hne.symm] at h₃
  rw [hdata'] at h₃
  exact h₃

end Links

/-! ### A new inode -/

/-- How making an inode may fail. -/
def MakeFails (err : Fault) : Prop := LinkFails err ∨ err = .panic .ialloc

section Make

variable {e : Env} {orphans : Set ℕ} {g : Ghost} {s : Ic} {ip dp : Ip} {nd : Node} {m : ℕ}
  {type major minor : Int16}

/-- The new inode with its first link. -/
theorem createInode_spec (h : Holds e.sb orphans g s)
    (hlock : ∀ kp, g.node kp = none → g.lock kp = false) (htype : type ≠ 0) :
    Wp (createInode e type major minor) s
      (fun ip s' => ∃ m, 0 < m ∧ g.nodes m = none ∧ (0 < g.refs ip → g.inum ip = m) ∧
        Holds e.sb orphans
          (((g.setNode m (some ⟨type, major, minor, 1, []⟩)).take ip m).setLock ip true) s')
      MakeFails := by
  unfold createInode
  refine ((ialloc_spec h htype).mono (fun _ _ => id) ?_).bind ?_
  · rintro err (rfl | rfl)
    · exact .inr rfl
    · exact .inl (.inl (.inl rfl))
  rintro ip s₁ ⟨m, hpos, hfree, hin, h₁⟩
  have hrefs : 0 < ((g.setNode m (some ⟨type, 0, 0, 0, []⟩)).take ip m).refs ip := by
    rw [Ghost.refs_take, if_pos rfl]
    omega
  refine ((ilock_spec h₁ hrefs).mono (fun _ _ => id) ?_).bind ?_
  · -- nobody has locked a free inode
    rintro err (⟨-, hl⟩ | ⟨-, hnone⟩)
    · have hl' : g.lock ip = true := hl
      rw [hlock ip] at hl'
      · cases hl'
      · rw [Ghost.node, hin (h.refs_of_lock hl'), hfree]
    · simp [Ghost.node] at hnone
  rintro - s₂ ⟨h₂, -⟩
  set g₂ := ((g.setNode m (some ⟨type, 0, 0, 0, []⟩)).take ip m).setLock ip true with hg₂
  have hinum : g₂.inum ip = m := by simp [hg₂]
  have hset := setNew_spec h₂ (show g₂.lock ip = true by simp [hg₂])
    (show g₂.node ip = some ⟨type, 0, 0, 0, []⟩ by simp [hg₂, Ghost.node]) major minor
  rw [hinum] at hset
  rw [Wp.bind_iff] at hset ⊢
  refine hset.mono (fun _ s₃ hs₃ => ?_) fun _ => False.elim
  refine (hs₃.mono (fun _ _ => id) fun _ => False.elim).bind fun _ s₄ h₄ => ?_
  have h₅ := h₄.adopt fun nd hnd => by
    obtain rfl : _ = nd := by simpa using hnd
    exact (by decide : (1 : Int16) ≠ 0)
  rw [hg₂, Ghost.setNode_setLock, Ghost.setNode_take, Ghost.setNode_setNode] at h₅
  exact ⟨m, hpos, hfree, hin, h₅⟩

/-- The entries of a new inode, if it is a directory. -/
theorem newDots_spec (hdp : g.lock dp = true) (hnd : g.node dp = some nd) (hne : ip ≠ dp)
    (hm : 0 < m) (hma : m ≠ g.inum dp)
    (h : Holds e.sb orphans
      (((g.setNode m (some ⟨type, major, minor, 1, []⟩)).take ip m).setLock ip true) s) :
    Wp (if type = T_DIR then createDots e dp ip else pure ()) s
      (fun _ s' => Holds e.sb orphans
        ((((g.setNode m (some (newNode type major minor m (g.inum dp)))).setNode (g.inum dp)
          (some (nd.addChild type 1))).take ip m).setLock ip true) s')
      LinkFails := by
  unfold newNode Node.addChild
  by_cases hdir : type = T_DIR
  · simp only [if_pos hdir]
    set g₁ := ((g.setNode m (some ⟨type, major, minor, 1, []⟩)).take ip m).setLock ip true with hg₁
    have hip : g₁.inum ip = m := by simp [hg₁]
    have hdp' : g₁.inum dp = g.inum dp := by simp [hg₁, hne.symm]
    have hnd' : g₁.node dp = some nd := by
      rw [Ghost.node, hdp', hg₁]
      simpa [Function.update_of_ne hma.symm, Ghost.node] using hnd
    have hspec := createDots_spec h (show g₁.lock ip = true by simp [hg₁])
      (show g₁.lock dp = true by simp [hg₁, hne.symm, hdp]) (by rwa [hip, hdp']) hnd'
      (show g₁.node ip = some ⟨type, major, minor, 1, []⟩ by simp [hg₁, Ghost.node]) hdir rfl
      (by rw [hip]; omega)
    rw [hip, hdp', hg₁, Ghost.setNode_setLock, Ghost.setNode_take, Ghost.setNode_setNode,
      Ghost.setNode_setLock, Ghost.setNode_take] at hspec
    exact hspec
  · simp only [if_neg hdir, Wp.pure_iff]
    rwa [Ghost.setNode_eq_self (n := g.inum dp) _ _ rfl]
    simpa [Function.update_of_ne hma.symm, Ghost.node] using hnd

/-- A new inode, and its entry in the locked directory `dp`. -/
theorem createNew_spec (h : Holds e.sb orphans g s) (hdp : g.lock dp = true)
    (hlock : ∀ kp, g.node kp = none → g.lock kp = false) (hown : 0 < g.own dp)
    (hnd : g.node dp = some nd) (hdir : nd.type = T_DIR) (htype : type ≠ 0) {name : List UInt8}
    (hfind : findName nd.data (cname name) = none) :
    Wp (createNew e dp name type major minor) s
      (fun ip s' => ∃ m j g', 0 < m ∧ m < 2 ^ 16 ∧ g.nodes m = none ∧
        (0 < g.refs ip → g.inum ip = m) ∧ Vacant nd.data j ∧ Holds e.sb orphans g' s' ∧
        After orphans (((((g.setNode m (some (newNode type major minor m (g.inum dp)))).setNode
          (g.inum dp) (some ((nd.addChild type 1).addEntry j m name))).take ip m).drop dp).setLock
            ip true |>.setLock dp false) g')
      MakeFails := by
  unfold createNew
  refine (createInode_spec h hlock htype).bind ?_
  rintro ip s₁ ⟨m, hm, hfree, hin, h₁⟩
  -- the new inode was free, so that it is neither the directory nor its entry
  have hma : m ≠ g.inum dp := by
    rintro rfl
    rw [Ghost.node, hfree] at hnd
    cases hnd
  have hne : ip ≠ dp := by
    rintro rfl
    exact hma (hin (h.refs_of_lock hdp)).symm
  refine ((newDots_spec hdp hnd hne hm hma h₁).mono (fun _ _ => id) fun _ => .inl).bind ?_
  rintro - s₂ h₂
  set g₂ := (((g.setNode m (some (newNode type major minor m (g.inum dp)))).setNode (g.inum dp)
    (some (nd.addChild type 1))).take ip m).setLock ip true with hg₂
  have hip : g₂.inum ip = m := by simp [hg₂]
  have hdp' : g₂.inum dp = g.inum dp := by simp [hg₂, hne.symm]
  have hlock₂ : g₂.lock dp = true := by simp [hg₂, hne.symm, hdp]
  rw [Wp.bind_iff, wp_inode, h₂.inum_eq (by simp [hg₂]), hip]
  have hlt : m < e.sb.ninodes := by
    rw [← hip]
    exact (h₂.locked_node (by simp [hg₂])).2.1
  refine ((dirlink_spec h₂ hlock₂
    (show g₂.node dp = some (nd.addChild type 1) by rw [Ghost.node, hdp', hg₂]; simp)
    (by rwa [Node.addChild_type]) name hlt).mono (fun _ _ => id) fun _ => .inl).bind ?_
  intro r s₃ hr
  have hfind' : findName (nd.addChild type 1).data (cname name) = none := by
    rwa [Node.addChild_data]
  rw [Linked, hfind'] at hr
  obtain ⟨rfl, j, hj, h₃⟩ := hr
  rw [if_pos rfl]
  rw [hdp', hg₂, Ghost.setNode_setLock, Ghost.setNode_take, Ghost.setNode_setNode] at h₃
  refine ((iunlockput_spec h₃ (show 0 < Ghost.own _ dp by simpa [hne.symm] using hown)
    hlock₂).mono (fun _ _ => id)
    fun _ => False.elim).bind ?_
  rintro - s₄ ⟨g', hputs, h₄⟩
  refine ⟨m, j, g', hm, hlt.trans_le h.layout.ninodes_le, hfree,
    hin, by rwa [Node.addChild_data] at hj, h₄, ?_⟩
  refine After.drop (After.refl _ _) ?_
    (show 0 < Ghost.own _ dp by simpa [hne.symm] using hown) hputs
  exact h₃.unique

end Make

/-! ### Finding or making an inode -/

/-- The call has given back what it took since `g`. -/
def Returned (sb : SuperBlock) (orphans : Set ℕ) (g : Ghost) (s' : Ic) : Prop :=
  ∃ g', After orphans g g' ∧ Holds sb orphans g' s'

/-- The nodes have changed, and the call has the inode `ip`, of a type with `p`, locked. -/
def Opened (sb : SuperBlock) (orphans adds : Set ℕ) (g : Ghost) (p : Int16 → Prop) (ip : Ip)
    (s' : Ic) : Prop :=
  ∃ m nd N g', Change orphans adds ∅ g.nodes N ∧ N m = some nd ∧ p nd.type ∧
    (0 < g.refs ip → g.inum ip = m) ∧
    After orphans (((g.setNodes N).take ip m).setLock ip true) g' ∧ Holds sb orphans g' s'

/-- Nothing has changed, and the call has the inode `ip`, of a type with `p`, locked. -/
def Found (sb : SuperBlock) (orphans : Set ℕ) (g : Ghost) (p : Int16 → Prop) (ip : Ip) (s' : Ic) :
    Prop :=
  ∃ m nd g', g.nodes m = some nd ∧ p nd.type ∧ (0 < g.refs ip → g.inum ip = m) ∧
    After orphans ((g.take ip m).setLock ip true) g' ∧ Holds sb orphans g' s'

/-- As `Opened`, for an inode that is new and has a link. -/
def Made (sb : SuperBlock) (orphans adds : Set ℕ) (g : Ghost) (p : Int16 → Prop) (ip : Ip)
    (s' : Ic) : Prop :=
  ∃ m nd N g', (g.nodes m = none ∨ m ∈ orphans) ∧ nd.nlink ≠ 0 ∧ Change orphans adds ∅ g.nodes N ∧
    N m = some nd ∧ p nd.type ∧ (0 < g.refs ip → g.inum ip = m) ∧
    After orphans (((g.setNodes N).take ip m).setLock ip true) g' ∧ Holds sb orphans g' s'

/-- The path leads to a directory in which its last name has no entry. -/
def Creates (N : ℕ → Option Node) (c : ℕ) (path : List UInt8) : Prop :=
  ∃ a name nd, resolve N c path true = some (a, name) ∧ N a = some nd ∧
    findName nd.data (cname name) = none

theorem Made.opened {sb : SuperBlock} {orphans adds : Set ℕ} {g : Ghost}
    {p : Int16 → Prop} {ip : Ip}
    {s' : Ic} (h : Made sb orphans adds g p ip s') : Opened sb orphans adds g p ip s' := by
  obtain ⟨m, nd, N, g', -, -, hrest⟩ := h
  exact ⟨m, nd, N, g', hrest⟩

theorem Found.opened {sb : SuperBlock} {orphans adds : Set ℕ} {g : Ghost}
    {p : Int16 → Prop} {ip : Ip}
    {s' : Ic} (h : Found sb orphans g p ip s') : Opened sb orphans adds g p ip s' := by
  obtain ⟨m, nd, g', hnd, hp, hin, hafter, hs'⟩ := h
  exact ⟨m, nd, g.nodes, g', .refl, hnd, hp, hin, hafter.forget, hs'⟩

section Create

variable {e : Env} {orphans : Set ℕ} {g g₁ : Ghost} {s : Ic} {cwd dp : Ip} {nd : Node} {a : ℕ}
  {type major minor : Int16}

/-- Making an inode in the locked directory `dp`, to which the call has taken the reference
since `g`. -/
theorem createNew_taken (h₀ : Holds e.sb orphans g s) {adds : Set ℕ} (hadds : a ∈ adds)
    (hafter : After orphans (g.take dp a) g₁) (hunlocked : ∀ ip, g.lock ip = false)
    (hin : 0 < g.refs dp → g.inum dp = a) {s₁ : Ic}
    (h : Holds e.sb orphans (g₁.setLock dp true) s₁) (hnd : g₁.nodes a = some nd)
    (hdir : nd.type = T_DIR) (htype : type ≠ 0) {name : List UInt8}
    (hfind : findName nd.data (cname name) = none) :
    Wp (createNew e dp name type major minor) s₁ (Made e.sb orphans adds g (· = type))
      MakeFails := by
  obtain ⟨hown, hpos, hn⟩ := hafter.taken
  have hnode : (g₁.setLock dp true).node dp = some nd := by rwa [Ghost.node, Ghost.setLock_inum, hn]
  have hlock : ∀ kp, (g₁.setLock dp true).node kp = none →
    (g₁.setLock dp true).lock kp = false := by
    intro kp hkp
    have hne : kp ≠ dp := by
      rintro rfl
      rw [hnode] at hkp
      cases hkp
    rw [Ghost.setLock_lock, Function.update_of_ne hne, hafter.lock]
    exact hunlocked kp
  refine (createNew_spec h (by simp) hlock hown hnode hdir htype hfind).post ?_
  rintro ip s₂ ⟨m, j, g', hm, hlt, hfree, hin', hj, h₂, hafter₂⟩
  rw [Ghost.setLock_inum, hn] at hafter₂
  have hma : m ≠ a := by
    rintro rfl
    rw [Ghost.setLock_nodes, hnd] at hfree
    cases hfree
  have hne : ip ≠ dp := by
    rintro rfl
    exact hma ((hin' hpos).symm.trans hn)
  have hold : g.nodes a = some nd := hafter.nodes_some hnd
  have hfree' : g.nodes m = none ∨ m ∈ orphans :=
    (hafter.nodes_none hfree).imp_right
      (Or.elim · id fun hgarb => h₀.orphan_of_garbage (hgarb.of_take hin))
  refine ⟨m, _, _, g', hfree', (by decide : (1 : Int16) ≠ 0),
    .make major minor hadds hold hdir hfind hj hm hlt hma hfree',
    by rw [Function.update_of_ne hma, Function.update_self], rfl, hafter.inum_of hin hin', ?_, h₂⟩
  · -- the same changes, made from `g` on
    set v := some (newNode type major minor m a)
    set w := some ((nd.addChild type 1).addEntry j m name)
    set G := (g.setNode m v).setNode a w with hG
    have hlinked : ¬ (G.take dp a).Garbage m := by
      rintro ⟨⟨nd', hnd', hlink⟩, -⟩
      have : v = some nd' := by simpa [hG, Function.update_of_ne hma] using hnd'
      rw [← Option.some.inj this] at hlink
      exact absurd hlink (by decide : (1 : Int16) ≠ 0)
    have hstep := ((hafter.setNode m v).setNode a w).take ip fun hgarb => absurd hgarb hlinked
    have htake : After orphans (G.take ip m) (((G.take dp a).take ip m).drop dp) :=
      After.take_take_drop hin
    have hdrop := htake.trans (hstep.drop_drop (show 0 < Ghost.own _ dp by simp [hne.symm]))
    have hlocks : (((G.take ip m).setLock dp true).setLock ip true).setLock dp false =
        (G.take ip m).setLock ip true := by
      ext1 <;> try rfl
      funext kp
      by_cases hkp : kp = dp
      · subst hkp
        simp [hne.symm, hG, hunlocked]
      · simp [Function.update_apply, hkp]
    have := ((hdrop.setLock dp true).setLock ip true).setLock dp false
    rw [hlocks] at this
    exact this.trans hafter₂

/-- How a call that makes inodes may fail, from the directory `c`. -/
def CreateFails (orphans : Set ℕ) (N : ℕ → Option Node) (c : ℕ) (err : Fault) : Prop :=
  MakeFails err ∨ Dangles orphans N c err

theorem CreateFails.of_path {N : ℕ → Option Node} {c : ℕ} {err : Fault} :
    PathFails g err ∨ Dangles orphans N c err → CreateFails orphans N c err :=
  Or.imp_left fun h => .inl (.inl h.lookup)

/-- Finding the inode of a path, or making one if the name has no entry. -/
theorem create_cases (h : Holds e.sb orphans g s) (hunlocked : ∀ ip, g.lock ip = false)
    (hcwd : 0 < g.refs cwd) (path : List UInt8) (htype : type ≠ 0) :
    Wp (create e cwd path type major minor) s
      (fun r s' => match r with
        | none => ¬ Creates g.nodes (g.inum cwd) path ∧ Returned e.sb orphans g s'
        | some ip =>
          ¬ Creates g.nodes (g.inum cwd) path ∧ Found e.sb orphans g (· = type) ip s' ∨
          Creates g.nodes (g.inum cwd) path ∧
            Made e.sb orphans (parents g.nodes (g.inum cwd) path) g (· = type) ip s')
      (CreateFails orphans g.nodes (g.inum cwd)) := by
  unfold create nameiparent
  refine ((namex_spec h hunlocked hcwd path true).mono (fun _ _ => id)
    fun _ => CreateFails.of_path).bind ?_
  rintro (_ | ⟨dp, name⟩) s₁ hr
  · refine ⟨?_, hr.2⟩
    rintro ⟨a, name, nd, hres, -, -⟩
    rw [hr.1] at hres
    cases hres
  obtain ⟨g₁, a, hres, hafter, h₁, hin, hdir⟩ := hr
  obtain ⟨nd, hnd, hdir⟩ := hdir rfl
  have hreach := reached_of_resolve hres
  have hcreates : Creates g.nodes (g.inum cwd) path ↔ findName nd.data (cname name) = none := by
    refine ⟨?_, fun hfind => ⟨a, name, nd, hres, hafter.nodes_some hnd, hfind⟩⟩
    rintro ⟨a', name', nd', hres', hnd', hfind'⟩
    obtain ⟨rfl, rfl⟩ := Prod.mk.inj (Option.some.inj (hres.symm.trans hres'))
    obtain rfl := Option.some.inj ((hafter.nodes_some hnd).symm.trans hnd')
    exact hfind'
  refine ((ilock_taken h (hunlocked dp) h₁ hafter hin hreach).mono (fun _ _ => id)
    fun _ => .inr).bind ?_
  rintro - s₂ ⟨h₂, -⟩
  have hn := hafter.taken.2.2
  have hnode : (g₁.setLock dp true).node dp = some nd := by rwa [Ghost.node, Ghost.setLock_inum, hn]
  refine ((dirlookup_spec h₂ (by simp) hnode hdir name).mono (fun _ _ => id)
    fun _ herr => .inl (.inl (.inl herr))).bind ?_
  intro r s₃ hr
  cases hfind : findName nd.data (cname name) with
  | none =>
    rw [hfind] at hr
    obtain ⟨rfl, rfl⟩ := hr
    have hadds : a ∈ parents g.nodes (g.inum cwd) path := ⟨name, hres⟩
    refine ((createNew_taken h hadds hafter hunlocked hin h₂ hnd hdir htype hfind).mono
      (fun _ _ => id) fun _ => .inl).bind ?_
    exact fun ip s₄ hs₄ => .inr ⟨hcreates.mpr hfind, hs₄⟩
  | some j =>
    have hnot : ¬ Creates g.nodes (g.inum cwd) path := by
      rw [hcreates, hfind]
      exact Option.some_ne_none j
    rw [hfind] at hr
    obtain ⟨ip, rfl, hin', h₃⟩ := hr
    obtain ⟨hj, hne, -, -⟩ := findName_eq_some_iff.mp hfind
    have hstep : Edge g.nodes a (entInum nd.data j) :=
      ⟨nd, j, hafter.nodes_some hnd, hdir, hj, rfl, hne⟩
    refine ((iunlockput_swap h (hunlocked dp) hafter hin h₃).mono (fun _ _ => id)
      fun _ => False.elim).bind ?_
    rintro - s₄ ⟨g₄, hafter₄, h₄⟩
    have hin₄ := hafter.inum_of hin hin'
    refine ((ilock_taken h (hunlocked ip) h₄ hafter₄ hin₄ (hreach.tail hstep)).mono (fun _ _ => id)
      fun _ => .inr).bind ?_
    rintro - s₅ ⟨h₅, nd', hnd', hnode'⟩
    rw [Wp.bind_iff, wp_inode, (h₅.size_eq (by simp) hnode').2.1]
    have hafter₅ := hafter₄.setLock ip true
    by_cases hfile : type = T_FILE ∧ nd'.type = T_FILE
    · rw [if_pos hfile]
      exact .inl ⟨hnot, _, nd', _, hnd', hfile.2.trans hfile.1.symm, hin₄, hafter₅, h₅⟩
    · rw [if_neg hfile]
      refine ((iunlockput_taken h₅ hafter₅ (hunlocked ip) hin₄).mono (fun _ _ => id)
        fun _ => False.elim).bind ?_
      exact fun _ s₆ hs₆ => ⟨hnot, hs₆⟩

/-- Finding or making the inode of a path. -/
theorem create_spec (h : Holds e.sb orphans g s) (hunlocked : ∀ ip, g.lock ip = false)
    (hcwd : 0 < g.refs cwd) (path : List UInt8) (htype : type ≠ 0) :
    Wp (create e cwd path type major minor) s
      (fun r s' => match r with
        | none => Returned e.sb orphans g s'
        | some ip => Opened e.sb orphans (parents g.nodes (g.inum cwd) path) g (· = type) ip s')
      (CreateFails orphans g.nodes (g.inum cwd)) := by
  refine (create_cases h hunlocked hcwd path htype).post ?_
  rintro (_ | ip) s' hr
  · exact hr.2
  · exact hr.elim (fun hfound => hfound.2.opened) fun hmade => hmade.2.opened

end Create

end Xv6.Fs
