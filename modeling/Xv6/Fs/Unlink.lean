import Xv6.Fs.Create

/-!
# Links and the other calls on paths

`link`, `unlink`, and the parts of `open`, `mkdir`, `mknod` and `chdir` that work on inodes.
Each call gives back what it took and changes the nodes in one of the ways of `Change`.
-/

namespace Xv6.Fs

open Lib

/-- The nodes have changed, and the call has given back what it took. -/
def Changed (sb : SuperBlock) (orphans adds removes : Set ℕ) (g : Ghost) (s' : Ic) : Prop :=
  ∃ N g', Change orphans adds removes g.nodes N ∧ After orphans (g.setNodes N) g' ∧
    Holds sb orphans g' s'

/-- How a call on names ends: if it fails, it leaves no trace. -/
def Ended (sb : SuperBlock) (orphans adds removes : Set ℕ) (g : Ghost)
    (r : Bool) (s' : Ic) : Prop :=
  match r with
  | true => Changed sb orphans adds removes g s'
  | false => Returned sb orphans g s'

/-- The disk `d'` is `d` with the link count of inode `m` one higher. -/
def LinkAdded (sb : SuperBlock) (m : ℕ) (d d' : Disk) : Prop :=
  SameDisk sb (putDinode sb d m
    { getDinode sb d m with nlink := (getDinode sb d m).nlink + 1 }) d'

section Link

variable {e : Env} {sb : SuperBlock} {orphans adds removes : Set ℕ} {g g₁ g₂ : Ghost} {s s₀ : Ic}
  {ip dp cwd : Ip} {nd nda : Node} {a m c : ℕ}

/-- A walk depends on directories only. -/
theorem walk_mono {N N' : ℕ → Option Node}
    (hN : ∀ n nd, N n = some nd → nd.type = T_DIR → N' n = some nd) {nameiparent : Bool}
    {fuel n : ℕ} {path : List UInt8} {r : ℕ × List UInt8}
    (h : walk N nameiparent fuel n path = some r) : walk N' nameiparent fuel n path = some r := by
  induction fuel generalizing n path with
  | zero => cases h
  | succ fuel ih =>
    rw [walk] at h ⊢
    cases hskip : skipelem path with
    | none =>
      rw [hskip] at h
      exact h
    | some next =>
      obtain ⟨name, rest⟩ := next
      simp only [hskip] at h
      cases hnd : N n with
      | none =>
        rw [hnd] at h
        cases h
      | some nd =>
        simp only [hnd] at h
        by_cases hdir : nd.type = T_DIR
        · simp only [hN n nd hnd hdir, if_neg (not_not.mpr hdir)] at h ⊢
          by_cases hlast : nameiparent = true ∧ rest = []
          · simpa only [if_pos hlast] using h
          · simp only [if_neg hlast] at h ⊢
            cases hfind : findName nd.data (cname name) with
            | none =>
              rw [hfind] at h
              cases h
            | some j =>
              rw [hfind] at h
              exact ih h
        · rw [if_pos hdir] at h
          cases h

theorem Reached.mono {N N' : ℕ → Option Node}
    (hN : ∀ n nd, N n = some nd → nd.type = T_DIR → N' n = some nd) (h : Reached N c m) :
    Reached N' c m := by
  have hedge : ∀ a b, Edge N a b → Edge N' a b := by
    rintro a b ⟨nd, i, hnd, hdir, hrest⟩
    exact ⟨nd, i, hN a nd hnd hdir, hdir, hrest⟩
  exact h.imp (Relation.ReflTransGen.mono hedge _ _) (Relation.ReflTransGen.mono hedge _ _)

theorem Node.addLinks_cancel (nd : Node) : (nd.addLinks 1).addLinks (-1) = nd := by
  simp [Node.addLinks, Int16.add_assoc]

/-- The disk after a link count was changed. -/
theorem addLink_disk {E : Fault → Prop} (h : Holds e.sb orphans g s) (hlock : g.lock ip = true)
    (k : Int16) :
    Wp (addLink e ip k) s (fun _ s' => s'.disk = putDinode e.sb s.disk (g.inum ip)
      { getDinode e.sb s.disk (g.inum ip) with
        nlink := (getDinode e.sb s.disk (g.inum ip)).nlink + k }) E := by
  obtain ⟨hinum, -, hdin, -⟩ := h.locked_node hlock
  unfold addLink iupdateIp
  rw [Wp.bind_iff, wp_modifyInode, wp_onInode, Wp.bind_iff, iupdate, Wp.modify_iff, Wp.pure_iff]
  simp only [Ic.set_icache_self, Ic.set_disk, hinum, hdin]

/-- The same change of a link count on two disks that are the same. -/
theorem SameDisk.addLink {d d' : Disk} (h : SameDisk sb d d') (hm : m < sb.ninodes)
    (hfits : (getDinode sb d m).Fits) (k : Int16) :
    SameDisk sb (putDinode sb d m { getDinode sb d m with nlink := (getDinode sb d m).nlink + k })
      (putDinode sb d' m { getDinode sb d' m with nlink := (getDinode sb d' m).nlink + k }) := by
  have hfits' : ({ getDinode sb d m with nlink := (getDinode sb d m).nlink + k } : Dinode).Fits :=
    ⟨hfits.1, hfits.2⟩
  rw [h.record m hm]
  refine ⟨fun i hi => ?_, fun b hb => ?_⟩
  · by_cases him : i = m
    · rw [him, getDinode_putDinode_self hfits', getDinode_putDinode_self hfits']
    · rw [getDinode_putDinode_of_ne _ him, getDinode_putDinode_of_ne _ him, h.record i hi]
  · rw [putDinode_of_ne _ hm hb, putDinode_of_ne _ hm hb, h.block b hb]

/-- Adding a link and taking it back leaves the disk as it was. -/
theorem LinkAdded.undo {d d₁ : Disk} (h : LinkAdded sb m d d₁) (hm : m < sb.ninodes)
    (hfits : (getDinode sb d m).Fits) :
    SameDisk sb d (putDinode sb d₁ m
      { getDinode sb d₁ m with nlink := (getDinode sb d₁ m).nlink + -1 }) := by
  have hfits' : ({ getDinode sb d m with nlink := (getDinode sb d m).nlink + 1 } : Dinode).Fits :=
    ⟨hfits.1, hfits.2⟩
  have hself : getDinode sb d₁ m =
      { getDinode sb d m with nlink := (getDinode sb d m).nlink + 1 } := by
    rw [h.record m hm, getDinode_putDinode_self hfits']
  have hback : { getDinode sb d₁ m with nlink := (getDinode sb d₁ m).nlink + -1 } =
      getDinode sb d m := by
    have hlink : (getDinode sb d m).nlink + 1 + -1 = (getDinode sb d m).nlink := by
      simp [Int16.add_assoc]
    rw [hself]
    dsimp only
    rw [hlink]
  rw [hback]
  refine ⟨fun i hi => ?_, fun b hb => ?_⟩
  · by_cases him : i = m
    · rw [him, getDinode_putDinode_self hfits]
    · rw [getDinode_putDinode_of_ne _ him, h.record i hi, getDinode_putDinode_of_ne _ him]
  · rw [putDinode_of_ne _ hm hb, h.block b hb, putDinode_of_ne _ hm hb]

/-- The end of a link that failed: the count is back to what it was. -/
theorem linkBad_spec {d₁ : Disk} (h₀ : Holds e.sb orphans g s₀) (h : Holds e.sb orphans g₁ s)
    (hnd : g.nodes m = some nd)
    (hafter : After orphans (((g.setNode m (some (nd.addLinks 1))).stamp d₁).take ip m) g₁)
    (hdisk : ∀ d, g.disk = some d → LinkAdded e.sb m d d₁ ∨ g.Frees g₁)
    (hunlocked : g.lock ip = false) (hin : 0 < g.refs ip → g.inum ip = m)
    (hreach : Reached g.nodes c m) :
    Wp (linkBad e ip) s (fun r s' => r = false ∧ Returned e.sb orphans g s')
      (Dangles orphans g.nodes c) := by
  obtain ⟨hown, hpos, hn⟩ := hafter.taken
  have hlt : m < e.sb.ninodes := h₀.node_lt (by simp [hnd])
  unfold linkBad
  refine ((ilock_spec h hpos).mono (fun _ _ => id) ?_).bind ?_
  · rintro err (⟨-, hl⟩ | ⟨rfl, hnone⟩)
    · rw [hafter.lock] at hl
      exact absurd hl (by simp [hunlocked])
    · refine ⟨rfl, m, hreach, .inr ?_⟩
      rw [Ghost.node, hn] at hnone
      rcases hafter.nodes_none hnone with hnone | hmem | hgarb
      · simp at hnone
      · exact hmem
      · exact absurd (by simp) (hgarb.2 ip (by rw [Ghost.refs_take, if_pos rfl]; omega))
  · rintro - s₁ ⟨h₁, hnode, -⟩
    have hnode' : (g₁.setLock ip true).node ip = some (nd.addLinks 1) := by
      obtain ⟨nd', hnd'⟩ := Option.ne_none_iff_exists'.mp hnode
      have hbase := hnd'
      rw [Ghost.node, hn] at hbase
      have := hafter.nodes_some hbase
      simp only [Ghost.take_nodes, Ghost.stamp_nodes, Ghost.setNode_nodes,
        Function.update_self] at this
      exact hnd'.trans this.symm
    refine (((addLink_spec h₁ (by simp) hnode' (-1)).and (addLink_disk (E := fun _ => True) h₁
      (by simp) (-1))).mono (fun _ _ => id) fun _ herr => herr.1.elim).bind ?_
    rintro - s₂ ⟨h₂, hs₂⟩
    rw [Node.addLinks_cancel, Ghost.setLock_inum, hn] at h₂
    rw [Ghost.setLock_inum, hn] at hs₂
    have hself : g₁.nodes m = some (nd.addLinks 1) := by
      rwa [Ghost.node, Ghost.setLock_inum, hn] at hnode'
    -- the disk is as it was, unless an inode was freed on the way
    have hcase : (∀ d, g.disk = some d → SameDisk e.sb d s₂.disk) ∨ g.Frees g₁ := by
      cases hg : g.disk with
      | none => exact .inl fun d hd => by cases hd
      | some d =>
        rcases hdisk d hg with hadded | hfrees
        · rcases hafter.disk d₁ rfl with hd₁ | ⟨n, hn', hnone⟩
          · refine .inl fun d' hd' => ?_
            obtain rfl := Option.some.inj hd'
            rw [hs₂]
            exact LinkAdded.undo (hadded.trans (h₁.disk_eq d₁ hd₁)) hlt (h₀.fits_stamp hg hnd)
          · refine .inr ⟨n, fun hzero => hn' ?_, hnone⟩
            have hne : n ≠ m := by
              rintro rfl
              rw [hself] at hnone
              cases hnone
            simpa [Function.update_of_ne hne] using hzero
        · exact .inr hfrees
    set X := (g₁.setLock ip true).setNode m (some nd) with hX
    have hback : (((((g.setNode m (some (nd.addLinks 1))).stamp d₁).take ip m).setLock ip
      true).setNode
        m (some nd)) = { (g.take ip m).setLock ip true with disk := none } := by
      ext1 <;> try rfl
      simp [← hnd]
    have hafter₂ := (hafter.setLock ip true).setNode m (some nd)
    rw [hback] at hafter₂
    obtain ⟨D, h₃, hafter₃⟩ : ∃ D, Holds e.sb orphans { X with disk := D } s₂ ∧
        After orphans ((g.take ip m).setLock ip true) { X with disk := D } := by
      rcases hcase with hsame | ⟨n, hn', hnone⟩
      · exact ⟨g.disk, h₂.rehold rfl hsame rfl rfl rfl fun ip => (h₂.entry ip).typed,
          hafter₂.stamped fun d hd => .inl hd⟩
      · refine ⟨none, h₂, hafter₂.stamped fun d _ => .inr ⟨n, hn', ?_⟩⟩
        have hne : n ≠ m := by
          rintro rfl
          rw [hself] at hnone
          cases hnone
        simpa [hX, Function.update_of_ne hne] using hnone
    refine ((iunlockput_taken h₃ hafter₃ hunlocked hin).mono (fun _ _ => id)
      fun _ => False.elim).bind ?_
    exact fun _ s₃ hs₃ => ⟨rfl, hs₃⟩

/-- The second half of a link, from the state in which the count has been incremented. -/
theorem linkEntry_spec (d₁ : Disk) (h₀ : Holds e.sb orphans g s₀) (h : Holds e.sb orphans g₁ s)
    (hnd : g.nodes m = some nd) (hfile : nd.type ≠ T_DIR)
    (hafter : After orphans (((g.setNode m (some (nd.addLinks 1))).stamp d₁).take ip m) g₁)
    (hdisk : ∀ d, g.disk = some d → LinkAdded e.sb m d d₁ ∨ g.Frees g₁)
    (hunlocked : ∀ ip, g.lock ip = false) (hin : 0 < g.refs ip → g.inum ip = m)
    (hcwd : 0 < g.refs cwd) (hreach : Reached g.nodes (g.inum cwd) m) (new : List UInt8) :
    Wp (linkEntry e cwd ip new) s
      (Ended e.sb orphans (parents g.nodes (g.inum cwd) new) removes g)
      (CreateFails orphans g.nodes (g.inum cwd)) := by
  obtain ⟨hown, hpos, hn⟩ := hafter.taken
  set v := some (nd.addLinks 1) with hv
  -- directories are as they were
  have hcwd₁ : g₁.inum cwd = g.inum cwd := by
    rw [hafter.inum cwd (hcwd.trans_le (Ghost.refs_le_take _ ip cwd m))]
    exact Ghost.inum_take hin hcwd
  have hdirs : ∀ n nd, g₁.nodes n = some nd → nd.type = T_DIR → g.nodes n = some nd := by
    intro n nd' hn' hdir
    have hold := hafter.nodes_some hn'
    by_cases hnm : n = m
    · subst hnm
      obtain rfl : nd.addLinks 1 = nd' := by simpa [hv] using hold
      exact absurd hdir hfile
    · simpa [Function.update_of_ne hnm] using hold
  have hfree : ∀ n, g₁.nodes n = none ∨ n ∈ orphans → g.nodes n = none ∨ n ∈ orphans := by
    rintro n (hnone | hmem)
    · rcases hafter.nodes_none hnone with hnone | hmem | hgarb
      · refine .inl ?_
        by_cases hnm : n = m
        · subst hnm
          simp [hv] at hnone
        · simpa [Function.update_of_ne hnm] using hnone
      · exact .inr hmem
      · have hnm : n ≠ m := by
          rintro rfl
          exact hgarb.2 ip (by rw [Ghost.refs_take, if_pos rfl]; omega) (by simp)
        obtain ⟨⟨nd', hnd', hlink⟩, hunref⟩ := hgarb.of_take (g := (g.setNode m v).stamp d₁) hin
        rw [Ghost.stamp_nodes, Ghost.setNode_nodes, Function.update_of_ne hnm] at hnd'
        exact .inr (h₀.orphan_of_garbage ⟨⟨nd', hnd', hlink⟩, hunref⟩)
    · exact .inr hmem
  have hdangle : ∀ err, Dangles orphans g₁.nodes (g₁.inum cwd) err →
      Dangles orphans g.nodes (g.inum cwd) err := by
    rintro err ⟨rfl, n, hr, hn'⟩
    rw [hcwd₁] at hr
    exact ⟨rfl, n, hr.mono hdirs, hfree n hn'⟩
  have hfrees : ∀ g₂, After orphans g₁ g₂ → g.Frees g₁ → g.Frees g₂ := by
    rintro g₂ hafter₂ ⟨n, hn', hnone⟩
    refine ⟨n, hn', ?_⟩
    rcases hafter₂.nodes n with heq | ⟨hnone', -⟩
    · rw [heq, hnone]
    · exact hnone'
  have hbad : ∀ g₂ s₂, After orphans g₁ g₂ → Holds e.sb orphans g₂ s₂ → Wp (linkBad e ip) s₂
      (Ended e.sb orphans (parents g.nodes (g.inum cwd) new) removes g)
      (CreateFails orphans g.nodes (g.inum cwd)) := by
    intro g₂ s₂ hafter₂ h₂
    refine (linkBad_spec h₀ h₂ hnd (hafter.trans hafter₂)
      (fun d hd => (hdisk d hd).imp_right (hfrees g₂ hafter₂)) (hunlocked ip) hin hreach).mono ?_
      fun _ => .inr
    rintro r s' ⟨rfl, hs'⟩
    exact hs'
  have hunlocked₁ : ∀ kp, g₁.lock kp = false := fun kp => by
    rw [hafter.lock]
    exact hunlocked kp
  unfold linkEntry nameiparent
  refine ((namex_spec h hunlocked₁ (show 0 < g₁.refs cwd by
    rw [hafter.refs]
    exact hcwd.trans_le (Ghost.refs_le_take _ ip cwd m)) new true).mono (fun _ _ => id)
    fun err herr => CreateFails.of_path (herr.imp_right (hdangle err))).bind ?_
  rintro (_ | ⟨dp, name⟩) s₂ hr
  · obtain ⟨-, g₂, hafter₂, h₂⟩ := hr
    exact hbad g₂ s₂ hafter₂ h₂
  obtain ⟨g₂, a, hres, hafter₂, h₂, hin₂, hdir⟩ := hr
  obtain ⟨nda, hnda, hdir⟩ := hdir rfl
  refine ((ilock_taken h (hunlocked₁ dp) h₂ hafter₂ hin₂ (reached_of_resolve hres)).mono
    (fun _ _ => id) fun err herr => .inr (hdangle err herr)).bind ?_
  rintro - s₃ ⟨h₃, -⟩
  have hnode : (g₂.setLock dp true).node dp = some nda := by
    rwa [Ghost.node, Ghost.setLock_inum, hafter₂.taken.2.2]
  have hpos₂ : 0 < (g₂.setLock dp true).refs ip := by
    change 0 < g₂.refs ip
    rw [hafter₂.refs]
    exact hpos.trans_le (Ghost.refs_le_take _ dp ip a)
  have hinum : (s₃.icache ip).inum = m := by
    rw [(h₃.entry ip).inum (by rwa [h₃.ref_eq]), Ghost.setLock_inum,
      hafter₂.inum ip (hpos.trans_le (Ghost.refs_le_take _ dp ip a)), Ghost.inum_take hin₂ hpos, hn]
  have hlt : m < e.sb.ninodes := h₀.node_lt (by rw [hnd]; simp)
  have hadds : a ∈ parents g.nodes (g.inum cwd) new := by
    rw [hcwd₁] at hres
    exact ⟨name, walk_mono hdirs hres⟩
  rw [Wp.bind_iff, wp_inode, hinum]
  refine ((dirlink_spec h₃ (by simp) hnode hdir name hlt).mono (fun _ _ => id)
    fun _ herr => .inl (.inl herr)).bind ?_
  intro r s₄ hr
  unfold Linked at hr
  cases hfind : findName nda.data (cname name) with
  | some i =>
    rw [hfind] at hr
    obtain ⟨rfl, g₄, hafter₄, h₄⟩ := hr
    rw [if_neg (by simp)]
    refine ((iunlockput_taken h₄ ((hafter₂.setLock dp true).trans hafter₄)
      (hunlocked₁ dp) hin₂).mono
      (fun _ _ => id) fun _ => False.elim).bind ?_
    rintro - s₅ ⟨g₅, hafter₅, h₅⟩
    exact hbad g₅ s₅ hafter₅ h₅
  | none =>
    rw [hfind] at hr
    obtain ⟨rfl, j, hj, h₄⟩ := hr
    rw [if_pos rfl]
    rw [Ghost.setLock_inum, hafter₂.taken.2.2] at h₄
    set w := some (nda.addEntry j m name)
    have hafter₄ := (hafter₂.setNode a w).setLock dp true
    refine ((iunlockput_taken (g := g₁.setNode a w) h₄ hafter₄ (hunlocked₁ dp) hin₂).mono
      (fun _ _ => id) fun _ => False.elim).bind ?_
    rintro - s₅ ⟨g₅, hafter₅, h₅⟩
    have hafter₆ : After orphans (((g.setNode m v).setNode a w).take ip m) g₅ :=
      (hafter.setNode a w).trans hafter₅
    obtain ⟨hown₅, -, -⟩ := hafter₆.taken
    refine ((iput_spec h₅ hown₅ ?_).mono (fun _ _ => id) fun _ => False.elim).bind ?_
    · rw [hafter₆.lock]
      exact hunlocked ip
    rintro - s₆ ⟨g₆, hputs, h₆⟩
    refine ⟨_, g₆, .link hadds (hdirs a nda ?_ hdir) hdir hfind hj hnd hfile
      (hlt.trans_le h₀.layout.ninodes_le), ?_, h₆⟩
    · exact hafter₂.nodes_some hnda
    · exact After.put (g := (g.setNode m v).setNode a w) hafter₆ h₅.unique hin hputs

/-- Adding a link. -/
theorem sysLink_spec (h : Holds e.sb orphans g s) (hunlocked : ∀ ip, g.lock ip = false)
    (hcwd : 0 < g.refs cwd) (old new : List UInt8) :
    Wp (sysLink e cwd old new) s
      (Ended e.sb orphans (parents g.nodes (g.inum cwd) new) removes g)
      (CreateFails orphans g.nodes (g.inum cwd)) := by
  unfold sysLink namei
  rw [Wp.bind_iff]
  refine ((namex_spec h hunlocked hcwd old false).mono (fun _ _ => id)
    fun _ => CreateFails.of_path).bind ?_
  rintro (_ | ⟨ip, name⟩) s₁ hr
  · exact hr.2
  obtain ⟨g₁, m, hres, hafter, h₁, hin, -⟩ := hr
  have hreach := reached_of_resolve hres
  refine ((ilock_taken h (hunlocked ip) h₁ hafter hin hreach).mono (fun _ _ => id)
    fun _ => .inr).bind ?_
  rintro - s₂ ⟨h₂, nd, hnd, hnode⟩
  rw [Wp.bind_iff, wp_inode, (h₂.size_eq (by simp) hnode).2.1]
  by_cases hdir : nd.type = T_DIR
  · rw [if_pos hdir]
    refine ((iunlockput_taken h₂ (hafter.setLock ip true) (hunlocked ip) hin).mono (fun _ _ => id)
      fun _ => False.elim).bind ?_
    exact fun _ s₃ hs₃ => hs₃
  · rw [if_neg hdir]
    refine (((addLink_spec h₂ (by simp) hnode 1).and (addLink_disk (E := fun _ => True) h₂ (by simp)
      1)).mono (fun _ _ => id) fun _ herr => herr.1.elim).bind ?_
    rintro - s₃ ⟨h₃, hs₃⟩
    rw [Ghost.setLock_inum, hafter.taken.2.2] at h₃ hs₃
    -- from here on the disk is that of `s₃`
    have h₄ : Holds e.sb orphans (((g₁.setLock ip true).setNode m (some (nd.addLinks 1))).stamp
      s₃.disk)
        s₃ := h₃.stamp
    refine ((iunlock_spec h₄ (show Ghost.lock _ ip = true by simp)).mono (fun _ _ => id)
      fun _ => False.elim).bind ?_
    rintro - s₅ h₅
    have hafter₅ := (hafter.relock (hunlocked ip)).setNode m (some (nd.addLinks 1))
    refine linkEntry_spec s₃.disk h h₅ hnd hdir (hafter₅.stamped fun d hd => .inl hd)
      (fun d hd => ?_) hunlocked hin hcwd hreach new
    have hself : g₁.nodes m = some nd := by
      rwa [Ghost.node, Ghost.setLock_inum, hafter.taken.2.2] at hnode
    rcases hafter.disk d hd with hd₁ | ⟨n, hn, hnone⟩
    · rw [hs₃]
      exact .inl ((h₂.disk_eq d hd₁).addLink (h.node_lt (by simp [hnd]))
        (h.fits_stamp hd hnd) 1)
    · have hne : n ≠ m := by
        rintro rfl
        rw [hself] at hnone
        cases hnone
      exact .inr ⟨n, hn, by simpa [Function.update_of_ne hne] using hnone⟩

end Link

/-! ### Removing a link -/

/-- How `unlink` may fail, from the directory `c`: an entry cut short, no room in the cache or on
disk, a free inode on the way, a wait for the directory itself, or an inode without links. -/
def UnlinkFails (orphans : Set ℕ) (N : ℕ → Option Node) (c : ℕ) (path : List UInt8) (err : Fault) :
    Prop :=
  LookupFails err ∨ Dangles orphans N c err ∨ err = .hang ∨ err = .panic .isdiremptyReadi ∨
    err = .panic .balloc ∨
    err = .panic .unlinkNlink ∧ ∃ m ∈ targets N c path, ∃ nd, N m = some nd ∧ nd.nlink < 1

section Unlink

variable {e : Env} {orphans adds : Set ℕ} {g g₁ : Ghost} {s s₀ : Ic} {ip dp cwd : Ip}
  {nd nda : Node} {a m j : ℕ}

theorem emptyDirLoop_spec (h : Holds e.sb orphans g s) (hlock : g.lock dp = true)
    (hnd : g.node dp = some nd) (hdir : nd.type = T_DIR) {fuel i : ℕ}
    (hfuel : entCount nd.data + 1 ≤ fuel + i) :
    Wp (emptyDirLoop e dp fuel (DIRENT * i)) s
      (fun r s' => s' = s ∧ (r = true → ∀ k, i ≤ k → k < entCount nd.data → entInum nd.data k = 0))
      fun err => err = .panic .isdiremptyReadi := by
  induction fuel generalizing i with
  | zero => exact ⟨rfl, fun _ k hk hk' => by omega⟩
  | succ fuel ih =>
    rw [emptyDirLoop, Wp.bind_iff, wp_inode, (h.size_eq hlock hnd).1]
    by_cases hlt : DIRENT * i < nd.data.length
    · rw [if_pos hlt]
      refine (((h.view hlock hnd hdir).entry _ i hlt).mono (fun _ _ => id)
        fun _ => And.left).bind ?_
      rintro de s' ⟨rfl, rfl, hcount⟩
      by_cases hzero : direntInum (direntAt nd.data i) = 0
      · rw [if_neg (not_not.mpr hzero), ← Nat.mul_succ]
        refine (ih (by omega)).post ?_
        rintro r s' ⟨rfl, hr⟩
        refine ⟨rfl, fun hrt k hk hk' => ?_⟩
        rcases Nat.eq_or_lt_of_le hk with rfl | hk
        · exact hzero
        · exact hr hrt k hk hk'
      · rw [if_pos hzero]
        exact ⟨rfl, fun hr => by cases hr⟩
    · rw [if_neg hlt]
      refine ⟨rfl, fun _ k hk hk' => ?_⟩
      rw [entCount] at hk'
      simp only [DIRENT_eq] at *
      omega

/-- Is a directory empty but for its first two entries? Anything but a directory counts as
empty. -/
theorem isdirempty_spec (h : Holds e.sb orphans g s) (hlock : g.lock ip = true)
    (hnd : g.node ip = some nd) :
    Wp (if nd.type = T_DIR then isdirempty e ip else pure true) s
      (fun r s' => s' = s ∧ (r = true → nd.type = T_DIR →
        ∀ k, 2 ≤ k → k < entCount nd.data → entInum nd.data k = 0))
      fun err => err = .panic .isdiremptyReadi := by
  by_cases hdir : nd.type = T_DIR
  · rw [if_pos hdir, isdirempty, Wp.bind_iff, wp_inode, (h.size_eq hlock hnd).1, Nat.mul_comm]
    refine (emptyDirLoop_spec h hlock hnd hdir ?_).post ?_
    · rw [entCount]
      omega
    · exact fun r s' hr => ⟨hr.1, fun hrt _ => hr.2 hrt⟩
  · rw [if_neg hdir]
    exact ⟨rfl, fun _ hdir' => absurd hdir' hdir⟩

/-- References to two different entries, taken in either order. -/
theorem Ghost.take_comm (g : Ghost) (hne : ip ≠ dp) (m a : ℕ) :
    (g.take dp a).take ip m = (g.take ip m).take dp a := by
  ext1 <;> try rfl
  · simp [Function.update_comm hne, hne, hne.symm]
  · simp [Function.update_comm hne]

theorem Ghost.setLock_comm (g : Ghost) (hne : ip ≠ dp) (b c : Bool) :
    (g.setLock dp b).setLock ip c = (g.setLock ip c).setLock dp b := by
  ext1 <;> try rfl
  simp [Function.update_comm hne]

theorem direntInum_zero : direntInum (List.replicate DIRENT 0) = 0 := by decide

/-- Clear entry `j` of the locked directory `dp`, and count a link less for a directory. -/
theorem eraseEntry_spec (h : Holds e.sb orphans g s) (hdp : g.lock dp = true)
    (hnda : g.node dp = some nda) (hdir : nda.type = T_DIR) (hip : g.lock ip = true)
    (hnd : g.node ip = some nd) (hne : g.inum ip ≠ g.inum dp) (hj : j < entCount nda.data) :
    Wp (eraseEntry e dp ip (DIRENT * j)) s
      (fun _ s' => Holds e.sb orphans (g.setNode (g.inum dp)
        (some ((nda.clearEntry j).addChild nd.type (-1)))) s')
      fun err => err = .panic .balloc := by
  have hoff : DIRENT * j + DIRENT ≤ nda.data.length := by
    rw [entCount] at hj
    simp only [DIRENT_eq] at *
    omega
  have hbelow := h.dirs _ _ hnda hdir
  have hsb := h.layout.root_lt
  unfold eraseEntry
  refine (writei_ip_spec h hdp hnda (by rw [hdir]; exact T_DIR_ne_T_DEV) (by omega) ?_
    fun _ => hbelow.overwrite (by omega) (List.length_replicate ..) ?_).bind ?_
  · rw [List.length_replicate]
    exact hoff.trans (h.data_length_le hnda)
  · rw [direntInum_zero]
    omega
  rintro r s₁ ⟨rfl, h₁⟩
  rw [List.length_replicate, if_neg (by simp)]
  change Holds e.sb orphans (g.setNode (g.inum dp) (some (nda.clearEntry j))) s₁ at h₁
  have hnd₁ : (g.setNode (g.inum dp) (some (nda.clearEntry j))).node ip = some nd := by
    rw [Ghost.node, Ghost.setNode_nodes, Ghost.setNode_inum, Function.update_of_ne hne]
    exact hnd
  rw [Wp.bind_iff, wp_inode, (h₁.size_eq hip hnd₁).2.1, Node.addChild]
  by_cases hchild : nd.type = T_DIR
  · rw [if_pos hchild, if_pos hchild]
    have hnda₁ : (g.setNode (g.inum dp) (some (nda.clearEntry j))).node dp =
        some (nda.clearEntry j) := by simp [Ghost.node]
    refine (addLink_spec h₁ hdp hnda₁ (-1)).mono (fun _ s₂ h₂ => ?_) fun _ => False.elim
    rwa [Ghost.setNode_inum, Ghost.setNode_setNode] at h₂
  · rw [if_neg hchild, if_neg hchild]
    exact h₁

/-- Removing the link at entry `j` of `dp`, with references to `dp` and `ip` that the call has
taken since `g` and locked. -/
theorem unlinkEntry_spec (h₀ : Holds e.sb orphans g s₀) (hunlocked : ∀ ip, g.lock ip = false)
    (hafter : After orphans (g.take dp a) g₁) (hin : 0 < g.refs dp → g.inum dp = a)
    (hin' : 0 < g.refs ip → g.inum ip = m) (hne : ip ≠ dp) (hma : m ≠ a)
    (h : Holds e.sb orphans (((g₁.setLock dp true).take ip m).setLock ip true) s)
    (hnda : g₁.nodes a = some nda) (hdir : nda.type = T_DIR) (hnd : g₁.nodes m = some nd)
    (hj : j < entCount nda.data) :
    Wp (unlinkEntry e dp ip (DIRENT * j)) s
      (fun r s' => r = true ∧ Returned e.sb orphans
        ((g.setNode a (some ((nda.clearEntry j).addChild nd.type (-1)))).setNode m
          (some (nd.addLinks (-1)))) s')
      fun err => err = .panic .balloc := by
  set X := ((g₁.setLock dp true).take ip m).setLock ip true with hX
  set w := some ((nda.clearEntry j).addChild nd.type (-1))
  set v := some (nd.addLinks (-1))
  have hXdp : X.inum dp = a := by simp [hX, hne.symm, hafter.taken.2.2]
  have hXip : X.inum ip = m := by simp [hX]
  unfold unlinkEntry
  refine (eraseEntry_spec h (by simp [hX, hne.symm]) (by rwa [Ghost.node, hXdp]) hdir (by simp [hX])
    (by rwa [Ghost.node, hXip]) (by rwa [hXip, hXdp]) hj).bind ?_
  rintro - s₁ h₁
  rw [hXdp] at h₁
  -- the same changes, made from `g` on
  have hlive : (g.take dp a).Garbage m → m ∈ orphans := fun hgarb =>
    h₀.orphan_of_garbage (hgarb.of_take hin)
  have hstep := (((hafter.take ip hlive).setNode a w).setLock dp true).setLock ip true
  rw [Ghost.setNode_take, Ghost.setNode_take, Ghost.take_comm _ hne,
    Ghost.setLock_comm _ hne] at hstep
  refine ((iunlockput_taken (g := ((g.setNode a w).take ip m).setLock ip true) h₁ hstep ?_ ?_).mono
    (fun _ _ => id) fun _ => False.elim).bind ?_
  · simp [hne.symm, hunlocked]
  · intro hpos
    simp only [Ghost.setLock_inum, Ghost.take_inum, Function.update_of_ne hne.symm]
    refine hin ?_
    simpa [Ghost.refs, hne.symm] using hpos
  rintro - s₂ ⟨g₂, hafter₂, h₂⟩
  have hlock₂ : g₂.lock ip = true := by
    rw [hafter₂.lock]
    simp
  have hn₂ : g₂.inum ip = m := by
    rw [hafter₂.inum ip (by simp [Ghost.refs])]
    simp
  have hnode₂ : g₂.node ip = some nd := by
    obtain ⟨-, -, -, -, hnode⟩ := h₂.locked_node hlock₂
    have hbase := hnode
    rw [Ghost.node, hn₂] at hbase
    have hold := hafter₂.nodes_some hbase
    have hnd' : g.nodes m = some nd := hafter.nodes_some hnd
    simp only [Ghost.setLock_nodes, Ghost.take_nodes, Ghost.setNode_nodes,
      Function.update_of_ne hma, hnd'] at hold
    rw [hnode, hn₂, ← hold]
  refine ((addLink_spec h₂ hlock₂ hnode₂ (-1)).mono (fun _ _ => id) fun _ => False.elim).bind ?_
  rintro - s₃ h₃
  rw [hn₂] at h₃
  refine ((iunlockput_taken (g := (g.setNode a w).setNode m v) h₃ (hafter₂.setNode m v)
    (hunlocked ip) hin').mono (fun _ _ => id) fun _ => False.elim).bind ?_
  exact fun _ s₄ hs₄ => ⟨rfl, hs₄⟩

/-- Unlocking and dropping the references to `ip` and `dp`, in this order. -/
theorem iunlockput_both (h₀ : Holds e.sb orphans g s₀) (hunlocked : ∀ ip, g.lock ip = false)
    (hafter : After orphans (g.take dp a) g₁) (hin : 0 < g.refs dp → g.inum dp = a)
    (hin' : 0 < g₁.refs ip → g₁.inum ip = m) (hne : ip ≠ dp)
    (h : Holds e.sb orphans (((g₁.setLock dp true).take ip m).setLock ip true) s) :
    Wp (do
        iunlockput e ip
        iunlockput e dp
        return false) s (fun r s' => r = false ∧ Returned e.sb orphans g s') fun _ => False := by
  have hlive : (g.take dp a).Garbage m → m ∈ orphans := fun hgarb =>
    h₀.orphan_of_garbage (hgarb.of_take hin)
  have hstep := ((hafter.take ip hlive).setLock dp true).setLock ip true
  refine (iunlockput_taken (g := (g.take dp a).setLock dp true) h hstep ?_ fun hpos => ?_).bind ?_
  · simp [hne, hunlocked]
  · rw [Ghost.setLock_inum, ← hafter.inum ip hpos]
    refine hin' ?_
    rw [hafter.refs]
    exact hpos
  rintro - s₁ ⟨g₂, hafter₂, h₂⟩
  refine (iunlockput_taken h₂ hafter₂ (hunlocked dp) hin).bind ?_
  exact fun _ s₂ hs₂ => ⟨rfl, hs₂⟩

/-- Removing the link that a lookup in the locked directory `dp` found. -/
theorem unlinkFound_spec (h₀ : Holds e.sb orphans g s₀) (hunlocked : ∀ ip, g.lock ip = false)
    (hafter : After orphans (g.take dp a) g₁) (hin : 0 < g.refs dp → g.inum dp = a)
    (hin' : 0 < g₁.refs ip → g₁.inum ip = m)
    (h : Holds e.sb orphans ((g₁.setLock dp true).take ip m) s) (hnda : g₁.nodes a = some nda)
    (hdir : nda.type = T_DIR) {c : ℕ} {path name : List UInt8}
    (hres : resolve g.nodes c path true = some (a, name)) (hdot : cname name ≠ cname dot)
    (hdotdot : cname name ≠ cname dotdot) (hfind : findName nda.data (cname name) = some j)
    (hm : entInum nda.data j = m) :
    Wp (unlinkFound e dp ip (DIRENT * j)) s
      (Ended e.sb orphans adds (targets g.nodes c path) g)
      (UnlinkFails orphans g.nodes c path) := by
  obtain ⟨hj, hne, -, -⟩ := findName_eq_some_iff.mp hfind
  have hold : g.nodes a = some nda := hafter.nodes_some hnda
  have htarget : m ∈ targets g.nodes c path := ⟨a, name, nda, j, hres, hold, hfind, hm⟩
  set X := (g₁.setLock dp true).take ip m with hX
  have hpos : 0 < X.refs ip := by
    rw [hX, Ghost.refs_take, if_pos rfl]
    omega
  have hXip : X.inum ip = m := by simp [hX]
  unfold unlinkFound
  refine ((ilock_spec h hpos).mono (fun _ _ => id) ?_).bind ?_
  · rintro err (⟨rfl, -⟩ | ⟨rfl, hnone⟩)
    · exact .inr (.inr (.inl rfl))
    · have hreach : Reached g.nodes c m :=
        (reached_of_resolve hres).tail ⟨nda, j, hold, hdir, hj, hm, hm ▸ hne⟩
      rw [Ghost.node, hXip] at hnone
      refine .inr (.inl ⟨rfl, m, hreach, (hafter.nodes_none hnone).imp_right ?_⟩)
      exact fun hmem => hmem.elim id fun hgarb => h₀.orphan_of_garbage (hgarb.of_take hin)
  rintro - s₁ ⟨h₁, hnode, hfree⟩
  -- the call holds the lock of `dp`, so `ip` is another entry
  have hipdp : ip ≠ dp := by
    rintro rfl
    simp [hX] at hfree
  have hma : m ≠ a := by
    rintro rfl
    refine hipdp (h.unique ip dp hpos ?_ ?_)
    · exact hafter.taken.2.1.trans_le (Ghost.refs_le_take (g₁.setLock dp true) ip dp m)
    · simp [hX, hipdp.symm, hafter.taken.2.2]
  obtain ⟨nd, hnd⟩ := Option.ne_none_iff_exists'.mp hnode
  rw [Wp.bind_iff, wp_inode, (h₁.size_eq (by simp) hnd).2.1, (h₁.size_eq (by simp) hnd).2.2]
  have hnd₁ : g₁.nodes m = some nd := by rwa [Ghost.node, hXip] at hnd
  have hnd₀ : g.nodes m = some nd := hafter.nodes_some hnd₁
  by_cases hlink : nd.nlink < 1
  · rw [if_pos hlink]
    exact .inr (.inr (.inr (.inr (.inr ⟨rfl, m, htarget, nd, hnd₀, hlink⟩))))
  rw [if_neg hlink]
  refine ((isdirempty_spec h₁ (by simp) hnd).mono (fun _ _ => id)
    fun _ herr => .inr (.inr (.inr (.inl herr)))).bind ?_
  rintro r s₂ ⟨rfl, hempty⟩
  cases r with
  | true =>
    rw [if_pos rfl]
    refine (unlinkEntry_spec h₀ hunlocked hafter hin (hafter.inum_of hin hin')
      hipdp hma h₁ hnda hdir
      hnd₁ hj).mono ?_ fun _ herr => .inr (.inr (.inr (.inr (.inl herr))))
    rintro r s₃ ⟨rfl, g₃, hafter₃, h₃⟩
    exact ⟨_, g₃, .unlink htarget hold hdir hdot hdotdot hfind hm hma hnd₀ hlink (hempty rfl),
      hafter₃, h₃⟩
  | false =>
    rw [if_neg (by simp)]
    refine (iunlockput_both h₀ hunlocked hafter hin hin' hipdp h₁).mono ?_ fun _ => False.elim
    rintro r s₃ ⟨rfl, hs₃⟩
    exact hs₃

/-- Removing a link. -/
theorem sysUnlink_spec (h : Holds e.sb orphans g s) (hunlocked : ∀ ip, g.lock ip = false)
    (hcwd : 0 < g.refs cwd) (path : List UInt8) :
    Wp (sysUnlink e cwd path) s
      (Ended e.sb orphans adds (targets g.nodes (g.inum cwd) path) g)
      (UnlinkFails orphans g.nodes (g.inum cwd) path) := by
  unfold sysUnlink nameiparent
  refine ((namex_spec h hunlocked hcwd path true).mono (fun _ _ => id)
    fun _ herr => herr.imp PathFails.lookup .inl).bind ?_
  rintro (_ | ⟨dp, name⟩) s₁ hr
  · exact hr.2
  obtain ⟨g₁, a, hres, hafter, h₁, hin, hdir⟩ := hr
  obtain ⟨nda, hnda, hdir⟩ := hdir rfl
  have hreach := reached_of_resolve hres
  refine ((ilock_taken h (hunlocked dp) h₁ hafter hin hreach).mono (fun _ _ => id)
    fun _ herr => .inr (.inl herr)).bind ?_
  rintro - s₂ ⟨h₂, -⟩
  have hn := hafter.taken.2.2
  have hnode : (g₁.setLock dp true).node dp = some nda :=
    by rwa [Ghost.node, Ghost.setLock_inum, hn]
  have hput : Wp (do iunlockput e dp; return false) s₂
      (Ended e.sb orphans adds (targets g.nodes (g.inum cwd) path) g)
      (UnlinkFails orphans g.nodes (g.inum cwd) path) := by
    refine ((iunlockput_taken h₂ (hafter.setLock dp true) (hunlocked dp) hin).mono (fun _ _ => id)
      fun _ => False.elim).bind ?_
    exact fun _ s' hs' => hs'
  by_cases hdots : namecmp name dot = 0 ∨ namecmp name dotdot = 0
  · rw [if_pos hdots]
    exact hput
  rw [if_neg hdots]
  simp only [namecmp_eq_zero_iff, not_or] at hdots
  refine ((dirlookup_spec h₂ (by simp) hnode hdir name).mono (fun _ _ => id) fun _ => .inl).bind ?_
  intro r s₃ hr
  cases hfind : findName nda.data (cname name) with
  | none =>
    rw [hfind] at hr
    obtain ⟨rfl, rfl⟩ := hr
    exact hput
  | some j =>
    rw [hfind] at hr
    obtain ⟨ip, rfl, hin', h₃⟩ := hr
    exact unlinkFound_spec h hunlocked hafter hin hin' h₃ hnda hdir hres hdots.1 hdots.2 hfind rfl

end Unlink

/-! ### References held outside the call -/

section Held

variable {e : Env} {sb : SuperBlock} {orphans : Set ℕ} {g g' : Ghost} {s : Ic} {ip : Ip}

theorem Ghost.refs_of_unhold {kp : Ip} (hheld : 0 < g.held ip) (hk : 0 < (g.unhold ip).refs kp) :
    0 < g.refs kp := by
  by_cases hkp : kp = ip
  · subst hkp
    exact Nat.add_pos_left hheld _
  · simpa [Ghost.refs, hkp] using hk

theorem After.unhold (hafter : After orphans g g') (hheld : 0 < g.held ip) :
    After orphans (g.unhold ip) (g'.unhold ip) := by
  refine ⟨fun m => ?_, hafter.disk, by simp [hafter.held], hafter.own, hafter.lock, hafter.type,
    fun kp hk => hafter.inum kp (Ghost.refs_of_unhold hheld hk)⟩
  refine (hafter.nodes m).imp_right (And.imp_right (Or.imp_right fun hm => ?_))
  exact ⟨hm.1, fun kp hk => hm.2 kp (Ghost.refs_of_unhold hheld hk)⟩

/-- Dropping a reference of the world outside. -/
theorem iput_held_spec (h : Holds e.sb orphans g s) (hheld : 0 < g.held ip)
    (hlock : g.lock ip = false) :
    Wp (iput e ip) s (fun _ s' => Returned e.sb orphans (g.unhold ip) s') fun _ => False := by
  -- the reference passes to the call first
  set g₁ : Ghost := { g.unhold ip with own := Function.update g.own ip (g.own ip + 1) } with hg₁
  have h₁ : Holds e.sb orphans g₁ s := by
    refine h.rehold rfl h.disk_eq rfl rfl (funext fun jp => ?_) fun jp t hpos htype => ?_
    · by_cases hjp : jp = ip
      · subst hjp
        simp only [Ghost.refs, hg₁, Ghost.unhold, Function.update_self]
        omega
      · simp [Ghost.refs, hg₁, hjp]
    · refine (h.entry jp).typed t ?_ htype
      by_cases hjp : jp = ip
      · subst hjp
        exact hheld
      · simpa [hg₁, hjp] using hpos
  have hown : 0 < g₁.own ip := by simp [hg₁]
  refine (iput_spec h₁ hown hlock).post ?_
  rintro - s' ⟨g', hputs, hs'⟩
  have heq : g₁.drop ip = g.unhold ip := by
    ext1 <;> try rfl
    simp [hg₁]
  exact ⟨g', heq ▸ hputs.after h₁.unique hown, hs'⟩

end Held

/-! ### The other calls -/

section Calls

variable {e : Env} {sb : SuperBlock} {orphans adds adds' removes : Set ℕ} {g g₁ : Ghost} {s : Ic}
  {ip cwd : Ip} {type major minor : Int16}

theorem Made.mono {p q : Int16 → Prop} (h : Made sb orphans adds g p ip s)
    (hpq : ∀ t, p t → q t) : Made sb orphans adds g q ip s := by
  obtain ⟨m, nd, N, g', hnew, hlink, hchange, hnd, hp, hrest⟩ := h
  exact ⟨m, nd, N, g', hnew, hlink, hchange, hnd, hpq _ hp, hrest⟩

/-- Letting go of an inode that the call has opened. -/
theorem iunlockput_opened {p : Int16 → Prop} (hunlocked : ∀ ip, g.lock ip = false)
    (h : Opened e.sb orphans adds g p ip s) :
    Wp (iunlockput e ip) s (fun _ s' => Changed e.sb orphans adds ∅ g s') fun _ => False := by
  obtain ⟨m, nd, N, g', hchange, -, -, hin, hafter, hs⟩ := h
  refine (iunlockput_taken (g := g.setNodes N) hs hafter (hunlocked ip) hin).post ?_
  rintro - s' ⟨g'', hafter', hs'⟩
  exact ⟨N, g'', hchange, hafter', hs'⟩

/-- `mkdir` and `mknod`. -/
theorem sysMknod_spec (h : Holds e.sb orphans g s) (hunlocked : ∀ ip, g.lock ip = false)
    (hcwd : 0 < g.refs cwd) (path : List UInt8) (htype : type ≠ 0) :
    Wp (sysMknod e cwd path type major minor) s
      (Ended e.sb orphans (parents g.nodes (g.inum cwd) path) ∅ g)
      (CreateFails orphans g.nodes (g.inum cwd)) := by
  unfold sysMknod
  refine (create_spec h hunlocked hcwd path htype).bind ?_
  rintro (_ | ip) s₁ hr
  · exact hr
  · refine ((iunlockput_opened hunlocked hr).mono (fun _ _ => id) fun _ => False.elim).bind ?_
    exact fun _ s₂ hs₂ => hs₂

/-- Finding the inode to open, or making one; a directory is only opened for reading. -/
theorem openInode_cases (h : Holds e.sb orphans g s) (hunlocked : ∀ ip, g.lock ip = false)
    (hcwd : 0 < g.refs cwd) (path : List UInt8) (omode : UInt32) :
    Wp (openInode e cwd path omode) s
      (fun r s' => match r with
        | none => ¬ (omode &&& O_CREATE ≠ 0 ∧ Creates g.nodes (g.inum cwd) path) ∧
          Returned e.sb orphans g s'
        | some ip =>
          ¬ (omode &&& O_CREATE ≠ 0 ∧ Creates g.nodes (g.inum cwd) path) ∧
            Found e.sb orphans g (fun t => t = T_DIR → omode = 0) ip s' ∨
          (omode &&& O_CREATE ≠ 0 ∧ Creates g.nodes (g.inum cwd) path) ∧
            Made e.sb orphans (parents g.nodes (g.inum cwd) path) g
              (fun t => t = T_DIR → omode = 0) ip s')
      (CreateFails orphans g.nodes (g.inum cwd)) := by
  unfold openInode
  -- `O_CREATE` goes through `create`, which never returns a directory here
  by_cases hcreate : omode &&& O_CREATE ≠ 0
  · have hfile : ∀ t, t = T_FILE → t = T_DIR → omode = 0 := by
      rintro t rfl hdir
      exact absurd hdir (by decide)
    rw [if_pos hcreate]
    refine (create_cases h hunlocked hcwd path (by decide)).post ?_
    rintro (_ | ip) s₁ hr
    · exact ⟨fun hc => hr.1 hc.2, hr.2⟩
    · rcases hr with ⟨hnot, m, nd, g', hnd, hp, hrest⟩ | ⟨hnew, hmade⟩
      · exact .inl ⟨fun hc => hnot hc.2, m, nd, g', hnd, hfile _ hp, hrest⟩
      · exact .inr ⟨⟨hcreate, hnew⟩, hmade.mono hfile⟩
  · have hnot : ¬ (omode &&& O_CREATE ≠ 0 ∧ Creates g.nodes (g.inum cwd) path) :=
      fun hc => hcreate hc.1
    rw [if_neg hcreate]
    unfold namei
    rw [Wp.bind_iff]
    refine ((namex_spec h hunlocked hcwd path false).mono (fun _ _ => id)
      fun _ => CreateFails.of_path).bind ?_
    rintro (_ | ⟨ip, name⟩) s₁ hr
    · exact ⟨hnot, hr.2⟩
    obtain ⟨g₁, m, hres, hafter, h₁, hin, -⟩ := hr
    refine ((ilock_taken h (hunlocked ip) h₁ hafter hin (reached_of_resolve hres)).mono
      (fun _ _ => id)
      fun _ => .inr).bind ?_
    rintro - s₂ ⟨h₂, nd, hnd, hnode⟩
    rw [Wp.bind_iff, wp_inode, (h₂.size_eq (by simp) hnode).2.1]
    by_cases hdir : nd.type = T_DIR ∧ omode ≠ 0
    · rw [if_pos hdir]
      refine ((iunlockput_taken h₂ (hafter.setLock ip true) (hunlocked ip) hin).mono (fun _ _ => id)
        fun _ => False.elim).bind ?_
      exact fun _ s₃ hs₃ => ⟨hnot, hs₃⟩
    · rw [if_neg hdir]
      refine .inl ⟨hnot, m, nd, _, hnd, fun ht => ?_, hin, hafter.setLock ip true, h₂⟩
      by_contra homode
      exact hdir ⟨ht, homode⟩

/-- Finding the directory to change to, and letting go of the old one. -/
theorem chdirInode_spec (h : Holds e.sb orphans g s) (hunlocked : ∀ ip, g.lock ip = false)
    (hcwd : 0 < g.held cwd) (path : List UInt8) :
    Wp (chdirInode e cwd path) s
      (fun r s' => match r with
        | none => Returned e.sb orphans g s'
        | some ip => ∃ m, (0 < g.refs ip → g.inum ip = m) ∧
          Returned e.sb orphans ((g.take ip m).unhold cwd) s')
      (CreateFails orphans g.nodes (g.inum cwd)) := by
  unfold chdirInode namei
  rw [Wp.bind_iff]
  refine ((namex_spec h hunlocked (Nat.add_pos_left hcwd _) path false).mono (fun _ _ => id)
    fun _ => CreateFails.of_path).bind ?_
  rintro (_ | ⟨ip, name⟩) s₁ hr
  · exact hr.2
  obtain ⟨g₁, m, hres, hafter, h₁, hin, -⟩ := hr
  refine ((ilock_taken h (hunlocked ip) h₁ hafter hin (reached_of_resolve hres)).mono
    (fun _ _ => id)
    fun _ => .inr).bind ?_
  rintro - s₂ ⟨h₂, nd, hnd, hnode⟩
  rw [Wp.bind_iff, wp_inode, (h₂.size_eq (by simp) hnode).2.1]
  by_cases hdir : nd.type = T_DIR
  · rw [if_neg (not_not.mpr hdir)]
    refine ((iunlock_spec h₂ (by simp)).mono (fun _ _ => id) fun _ => False.elim).bind ?_
    rintro - s₃ h₃
    have hafter₃ := hafter.relock (hunlocked ip)
    refine ((iput_held_spec h₃ (?_ : 0 < Ghost.held _ cwd) ?_).mono (fun _ _ => id)
      fun _ => False.elim).bind ?_
    · rw [hafter₃.held]
      exact hcwd
    · rw [hafter₃.lock]
      exact hunlocked cwd
    rintro - s₄ ⟨g₄, hafter₄, h₄⟩
    exact ⟨m, hin, g₄, (hafter₃.unhold hcwd).trans hafter₄, h₄⟩
  · rw [if_pos hdir]
    refine ((iunlockput_taken h₂ (hafter.setLock ip true) (hunlocked ip) hin).mono (fun _ _ => id)
      fun _ => False.elim).bind ?_
    exact fun _ s₃ hs₃ => hs₃

end Calls

end Xv6.Fs
