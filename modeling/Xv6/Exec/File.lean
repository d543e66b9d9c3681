import Mathlib.Algebra.Order.BigOperators.Group.List
import Xv6.Exec.Args

/-!
# The file of a program

The file system under `exec`. The call opens the inode that its path leads to, reads from it while
it builds the new address space, and lets it go in the same operation of the log. Whatever is in the
file, a call that fails leaves the process and its memory, the free pages, the references to inodes
and the number of outstanding operations as they were.
-/

namespace Xv6.Exec

open Lib Vm
open Fs.NameCall (wp_inIc wp_beginOp wp_endOp)

/-! ### The inode -/

/-- What `readi` delivers of a file with the bytes `c`. -/
def fileRead (c : List UInt8) (off n : ℕ) : Option (List UInt8) :=
  if c.length < off ∨ 2 ^ 32 ≤ off + n then none
  else some ((c.drop off).take (min n (c.length - off)))

/-- Since `g` the call has taken a reference to the inode at `w`, and it has the inode locked. -/
def Locked (sb : Fs.SuperBlock) (orphans : Set ℕ) (g : Fs.Ghost) (w : Option (ℕ × List UInt8))
    (ip : Fs.Ip) (k : Fs.Kern) : Prop :=
  ∃ n name nd g', w = some (n, name) ∧ g.nodes n = some nd ∧ (0 < g.refs ip → g.inum ip = n) ∧
    Fs.After orphans ((g.take ip n).setLock ip true) g' ∧ g'.node ip = some nd ∧
      Fs.Holds sb orphans g' k.ic

/-- A read from the inode at `w`, if it is not a device. -/
def FromFile (g : Fs.Ghost) (w : Option (ℕ × List UInt8)) (off n : ℕ) (r : Option (List UInt8)) :
    Prop :=
  ∀ m name nd, w = some (m, name) → g.nodes m = some nd → nd.type ≠ Fs.T_DEV →
    r = fileRead nd.data (off % 2 ^ 32) n

section Inode

variable {e : Fs.Env} {orphans : Set ℕ} {g : Fs.Ghost} {w : Option (ℕ × List UInt8)} {ip : Fs.Ip}

theorem reads_locked {E : Fs.Fault → Prop} :
    Reads e ip (Locked e.sb orphans g w ip) (FromFile g w) E := by
  rintro k off n hn ⟨m, name, nd, g', hw, hnd, hin, hafter, hnode, h⟩
  have hlock : g'.lock ip = true := by
    rw [hafter.lock]
    simp
  have hkeep : ∀ {r : Option (List UInt8)} {s : Fs.Ic}, s = k.ic → FromFile g w off n r →
      Locked e.sb orphans g w ip { k with ic := s } ∧ FromFile g w off n r := by
    rintro r _ rfl hr
    exact ⟨⟨m, name, nd, g', hw, hnd, hin, hafter, hnode, h⟩, hr⟩
  rw [wp_inIc]
  by_cases hdev : nd.type = Fs.T_DEV
  · refine (Fs.readi_ip_device h hlock hnode hdev).mono (fun r s hs => hkeep hs ?_)
      fun _ => False.elim
    intro m' name' nd' hw' hnd' hdev'
    obtain ⟨rfl, -⟩ := Prod.mk.inj (Option.some.inj (hw.symm.trans hw'))
    obtain rfl := Option.some.inj (hnd.symm.trans hnd')
    exact absurd hdev hdev'
  · refine (Fs.readi_ip_spec h hlock hnode hdev hn).mono (fun r s ⟨hs, hr⟩ => hkeep hs ?_)
      fun _ => False.elim
    intro m' name' nd' hw' hnd' _
    obtain ⟨rfl, -⟩ := Prod.mk.inj (Option.some.inj (hw.symm.trans hw'))
    obtain rfl := Option.some.inj (hnd.symm.trans hnd')
    exact hr

/-- The call has the inode that its path leads to, or nothing. -/
theorem openInode_spec {k : Fs.Kern} (h : Fs.Holds e.sb orphans g k.ic)
    (hunlocked : ∀ ip, g.lock ip = false) (hcwd : 0 < g.refs k.cwd) (path : List UInt8) :
    Wp (openInode e path) k
      (fun r k' => match r with
        | none => Fs.Returned e.sb orphans g k'.ic
        | some ip => Locked e.sb orphans g
            (Fs.resolve g.nodes (g.inum k.cwd) path false) ip k')
      fun _ => True := by
  unfold openInode
  rw [Wp.bind_iff, wp_beginOp, Wp.bind_iff, Wp.get_iff, Wp.bind_iff, wp_inIc]
  unfold Fs.namei
  refine ((Fs.namex_spec h hunlocked hcwd path false).mono (fun _ _ => id)
    fun _ _ => trivial).bind ?_
  rintro (_ | ⟨ip, name⟩) s hr
  · exact hr.2
  · obtain ⟨g₁, m, hres, hafter, h₁, hin, -⟩ := hr
    rw [Wp.pure_iff, Option.map_some]
    dsimp only
    rw [Wp.bind_iff, wp_inIc]
    refine (Fs.ilock_taken h (hunlocked ip) h₁ hafter hin (Fs.reached_of_resolve hres)).mono
      (fun _ s' ⟨h₂, nd, hnd, hnode⟩ => ?_) fun _ _ => trivial
    exact ⟨m, name, nd, _, hres, hnd, hin, hafter.setLock ip true, hnode, h₂⟩

theorem closeInode_spec {k : Fs.Kern} (hunlocked : g.lock ip = false)
    (h : Locked e.sb orphans g w ip k) :
    Wp (closeInode e ip) k (fun _ k' => Fs.Returned e.sb orphans g k'.ic) fun _ => False := by
  obtain ⟨m, name, nd, g', -, -, hin, hafter, -, hholds⟩ := h
  unfold closeInode
  rw [Wp.bind_iff, wp_inIc]
  exact (Fs.iunlockput_taken hholds hafter hunlocked hin).post fun _ _ hs => hs

end Inode

/-! ### A small program -/

/-- A program of two bytes at address 0 in four bytes of memory. -/
def tinyProgram : List UInt8 :=
  leBytes 4 Fs.ELF_MAGIC ++ List.replicate 20 0 ++ leBytes 4 0 ++ leBytes 4 Fs.ELFHDR ++
    List.replicate 12 0 ++ leBytes 2 1 ++ List.replicate 6 0 ++
      (leBytes 4 Fs.ELF_PROG_LOAD ++ leBytes 4 84 ++ leBytes 4 0 ++ leBytes 4 0 ++ leBytes 4 2 ++
        leBytes 4 4 ++ List.replicate 8 0) ++ [0xeb, 0xfe]

/-- The program is the file `a` in the root. -/
def programNodes : List (ℕ × Fs.Node) :=
  [(Fs.ROOTINO, ⟨Fs.T_DIR, 0, 0, 1, Fs.direntBytes 2 [0x61]⟩),
    (2, ⟨Fs.T_FILE, 0, 0, 1, tinyProgram⟩)]

/-- The file system after boot. -/
def programKern : Fs.Kern := ⟨(Fs.boot () (Fs.listedDisk Fs.smallSb programNodes)).ic, 0,
    Fs.firstIp⟩

theorem wellFormed_programKern : Fs.WellFormed Fs.smallSb programKern ∧
    Fs.nodes Fs.smallSb programKern.ic.disk = Fs.listed programNodes := by
  have h := Fs.wellFormed_listedDisk Fs.smallSb_ok (l := programNodes) (by decide +kernel)
  unfold programKern
  -- the disk must stay folded
  generalize Fs.listedDisk Fs.smallSb programNodes = d at h ⊢
  exact h

/-- A process without memory, with `n` free pages. -/
def programState (n : ℕ) : State := ⟨programKern, freshMem n, ⟨300, 0, 0, 0, .zero 16⟩⟩

/-! ### A call that fails -/

section Failure

variable {e : Fs.Env} {im : Image} {others orphans : Set ℕ} {s : State}

/-- However `exec` ends, it holds the references to inodes that it held before. -/
theorem exec_refs {g : Fs.Ghost} (h : Space im others s.mem s.proc.pgdir)
    (hfs : Fs.Holds e.sb orphans g s.kern.ic) (hunlocked : ∀ ip, g.lock ip = false)
    (hcwd : 0 < g.refs s.kern.cwd) (path : List UInt8) (argv : List (List UInt8)) :
    Wp (exec e im path argv) s (fun _ t => Fs.Returned e.sb orphans g t.kern.ic) fun _ => True := by
  refine (exec_spec (K := fun k => Fs.Returned e.sb orphans g k.ic) argv (fun ip => reads_locked)
    (openInode_spec hfs hunlocked hcwd path) (fun ip k hk => ?_) h).mono (fun r t hr => ?_)
      fun _ _ => trivial
  · exact (closeInode_spec (hunlocked ip) hk).mono (fun _ _ => id) fun _ _ => trivial
  · rcases hr with ⟨-, hrest, -⟩ | ⟨-, hkern, -⟩
    · exact hrest.kern
    · exact hkern

/-- Reading, opening and closing do not change the number of outstanding operations but by the one
of the call. -/
theorem exec_outstanding (h : Space im others s.mem s.proc.pgdir) (path : List UInt8)
    (argv : List (List UInt8)) :
    Wp (exec e im path argv) s
      (fun r t => t.kern.outstanding = s.kern.outstanding ∧
        (r = -1 → t.proc = s.proc ∧
          (∀ f ∈ others ∪ frames s.mem s.proc.pgdir, t.mem.page f = s.mem.page f) ∧
            AllFree im (others ∪ frames s.mem s.proc.pgdir) t.mem))
      fun x => (∃ f, x = .fs f) ∨ x = .vm .nullPte ∧ ∃ a ∈ argv, 2 ^ 25 ≤ a.length := by
  refine (exec_spec (K := fun k => k.outstanding = s.kern.outstanding)
    (J := fun _ k => k.outstanding = s.kern.outstanding + 1) (R := fun _ _ _ _ => True)
    (E := fun _ => True) argv (fun ip k off n _ hk => ?_) ?_ (fun ip k hk => ?_) h).mono
      (fun r t hr => ?_) fun x hx => ?_
  · rw [wp_inIc]
    exact (Wp.true _ _).post fun _ _ _ => ⟨hk, trivial⟩
  · unfold openInode
    rw [Wp.bind_iff, wp_beginOp, Wp.bind_iff, Wp.get_iff, Wp.bind_iff, wp_inIc]
    refine (Wp.true _ _).post fun r ic _ => ?_
    cases r with
    | none => exact Nat.add_sub_cancel ..
    | some ip =>
      dsimp only
      rw [Wp.bind_iff, wp_inIc]
      exact (Wp.true _ _).post fun _ _ _ => rfl
  · unfold closeInode
    rw [Wp.bind_iff, wp_inIc]
    refine (Wp.true _ _).post fun _ _ _ => ?_
    rw [wp_endOp]
    exact (congrArg (· - 1) hk).trans (Nat.add_sub_cancel ..)
  · rcases hr with ⟨rfl, hrest, hfree, -⟩ | ⟨rfl, hkern, -⟩
    · exact ⟨hrest.kern, fun _ => ⟨hrest.proc, hrest.page, hfree⟩⟩
    · exact ⟨hkern, fun hc => absurd hc (by decide)⟩
  · exact hx.imp_left fun ⟨f, hf, _⟩ => ⟨f, hf⟩

/-- Whatever the file is, `exec` with less than 32 megabytes of strings does not panic in the code
for memory. If it returns -1, the process with its memory, the free pages and the operations of the
log are as before, and in a consistent file system the references to inodes are, too. -/
theorem failing_exec (h : Space im others s.mem s.proc.pgdir) (path : List UInt8)
    {argv : List (List UInt8)} (hargs : (argv.map List.length).sum < 2 ^ 25) :
    Wp (exec e im path argv) s
      (fun r t => r = -1 →
        t.proc = s.proc ∧
          (∀ v < NUSER, t.mem.userPage s.proc.pgdir v = s.mem.userPage s.proc.pgdir v) ∧
          (∀ f ∈ others ∪ frames s.mem s.proc.pgdir, t.mem.page f = s.mem.page f) ∧
          t.mem.free.Perm s.mem.free ∧ t.kern.outstanding = s.kern.outstanding ∧
          ∀ orphans, Fs.Holds e.sb orphans (s.kern.ghost e.sb) s.kern.ic →
            0 < (s.kern.ic.icache s.kern.cwd).ref →
              ∀ ip, (t.kern.ic.icache ip).ref = (s.kern.ic.icache ip).ref)
      fun x => ∃ f, x = .fs f := by
  refine (exec_outstanding h path argv).run.mono (fun r t hr hfail => ?_) fun x hx => ?_
  · obtain ⟨⟨hout, hr⟩, hrun⟩ := hr
    obtain ⟨hproc, hpage, hfree⟩ := hr hfail
    refine ⟨hproc, fun v hv => ?_, hpage, ?_, hout, fun orphans hfs hcwd ip => ?_⟩
    · have hframes : ∀ f ∈ frames s.mem s.proc.pgdir, t.mem.page f = s.mem.page f := fun f hf =>
        hpage f (.inr hf)
      exact userPage_congr (h.pte_kept hframes (hv.trans_le NUSER_le)) fun hp =>
        hframes _ (h.user_mem_frames hv hp)
    · refine (List.perm_ext_iff_of_nodup hfree.nodup h.allFree.nodup).mpr fun f => ?_
      rw [hfree.mem_iff, h.allFree.mem_iff]
    · obtain ⟨g', hafter, h'⟩ := (exec_refs h hfs (fun _ => rfl) hcwd path argv).of_ok hrun
      rw [h'.ref_eq, hafter.refs]
      rfl
  · refine hx.resolve_right fun ⟨_, a, ha, hlong⟩ => ?_
    have hle : a.length ≤ _ := List.le_sum_of_mem (List.mem_map_of_mem ha)
    omega

/-- The only free page becomes the page directory, and is free again when there is none for a page
table. -/
theorem failing_exec_one_page :
    ∃ t, exec ⟨Fs.smallSb, fun _ => none⟩ smallImage [0x61] [[0x61]]
    (programState 1) = .ok (-1, t) ∧
      t.proc = (programState 1).proc ∧ t.mem.free.Perm [301] ∧ t.kern.outstanding = 0 ∧
        ∀ ip, (t.kern.ic.icache ip).ref = ((programState 1).kern.ic.icache ip).ref := by
  have heval : (exec ⟨Fs.smallSb, fun _ => none⟩ smallImage [0x61] [[0x61]]
      (programState 1)).toOption.map Prod.fst = some (-1) := by decide +kernel
  obtain ⟨⟨r, t⟩, ht, rfl⟩ := Option.map_eq_some_iff.mp heval
  have hrun := eq_ok_of_toOption ht
  -- the disk must stay folded
  obtain ⟨s, hs⟩ : ∃ s, programState 1 = s := ⟨_, rfl⟩
  have hwf : Fs.WellFormed Fs.smallSb s.kern := hs ▸ wellFormed_programKern.1
  have hspace : Space smallImage {f | 301 < f} s.mem s.proc.pgdir :=
    hs ▸ (freshMem_sized (n := 1) (by decide)).space
  have hstart : s.mem.free = [301] ∧ s.kern.outstanding = 0 := hs ▸ ⟨rfl, rfl⟩
  rw [hs] at hrun ⊢
  obtain ⟨hproc, -, -, hfree, hout, hrefs⟩ :=
    (failing_exec hspace [0x61] (by decide)).of_ok hrun rfl
  exact ⟨t, hrun, hproc, hstart.1 ▸ hfree, hout.trans hstart.2, hrefs ∅ hwf.holds hwf.cwd⟩

end Failure

end Xv6.Exec
