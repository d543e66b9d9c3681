import Xv6.Fs.Filewrite
import Xv6.Fs.NameCalls

/-!
# What a failed `open` leaves behind

`sys_open` finds or makes the inode first and asks for a file and a descriptor afterwards. A failure
to find the inode leaves no trace. A failure to get the descriptor gives the file and the inode
back, but a file that `create` has just made stays: with `O_CREATE`, a new name and a full table the
call returns -1 and the name exists. -/

namespace Xv6.Fs

open Lib

section Tables

variable {P : Type} {e : Env} {p : P} {s : Sys P} {f : Fin NFILE}

/-- A file is left in the table. -/
def FileFree (s : Sys P) : Prop := ∃ f, (s.ftable f).ref = 0

/-- The process has a descriptor left. -/
def FdFree (p : P) (s : Sys P) : Prop := ∃ fd, (s.proc p).ofile fd = none

theorem filealloc_spec (s : Sys P) :
    Wp filealloc s
      (fun r s' => match r with
        | none => s' = s ∧ ¬ FileFree s
        | some f => (s.ftable f).ref = 0 ∧ s'.ic = s.ic ∧ s'.proc = s.proc ∧
          s'.ftable = Function.update s.ftable f { s.ftable f with ref := 1 })
      fun _ => False := by
  unfold filealloc
  rw [Wp.bind_iff, Wp.get_iff]
  cases hfind : (List.finRange NFILE).find? fun f => (s.ftable f).ref = 0 with
  | none =>
    refine ⟨rfl, fun ⟨f, hf⟩ => ?_⟩
    have hne := List.find?_eq_none.mp hfind f (List.mem_finRange f)
    exact hne (by simpa using hf)
  | some f =>
    have hf : (s.ftable f).ref = 0 := by simpa using List.find?_some hfind
    exact ⟨hf, rfl, rfl, rfl⟩

theorem fdalloc_spec [DecidableEq P] (s : Sys P) (f : Fin NFILE) :
    Wp (fdalloc p f) s
      (fun r s' => match r with
        | none => s' = s ∧ ¬ FdFree p s
        | some _ => FdFree p s)
      fun _ => False := by
  unfold fdalloc
  rw [Wp.bind_iff, Wp.get_iff]
  cases hfind : (List.finRange NOFILE).find? fun fd => (s.proc p).ofile fd = none with
  | none =>
    refine ⟨rfl, fun ⟨fd, hfd⟩ => ?_⟩
    have hne := List.find?_eq_none.mp hfind fd (List.mem_finRange fd)
    exact hne (by simpa using hfd)
  | some fd => exact ⟨fd, by simpa using List.find?_some hfind⟩

/-- Closing a file that has not been set up. -/
theorem fileclose_unused (href : (s.ftable f).ref = 1) (htype : (s.ftable f).type = .none) :
    Wp (fileclose e f) s
      (fun _ s' => s'.ic = s.ic ∧
        s'.ftable = Function.update s.ftable f { s.ftable f with ref := 0, type := .none })
      fun _ => False := by
  unfold fileclose
  rw [Wp.bind_iff, Wp.get_iff]
  simp only [href, htype, Nat.lt_irrefl, if_false, Nat.sub_self, gt_iff_lt]
  exact ⟨rfl, rfl⟩

/-- Without a file or a descriptor the inode is given back, and no file has another reference. -/
theorem openFile_spec [DecidableEq P] {ip : Ip} {R : Ic → Prop}
    (hput : Wp (iunlockput e ip) s.ic (fun _ => R) fun _ => False)
    (hclosed : ∀ f, (s.ftable f).ref = 0 → (s.ftable f).type = .none) (omode : UInt32) :
    Wp (openFile e p ip omode) s
      (fun r s' => (r = none ↔ ¬ (FileFree s ∧ FdFree p s)) ∧
        (r = none → R s'.ic ∧ ∀ f, (s'.ftable f).ref = (s.ftable f).ref))
      fun _ => True := by
  have hput' : ∀ s₁ : Sys P, s₁.ic = s.ic →
      Wp (onIc (iunlockput e ip)) s₁ (fun _ s' => R s'.ic ∧ s'.ftable = s₁.ftable) fun _ =>
        True := by
    intro s₁ hic
    rw [wp_onIc, hic]
    exact hput.mono (fun _ _ hR => ⟨hR, rfl⟩) fun _ _ => trivial
  unfold openFile
  refine ((filealloc_spec s).mono (fun _ _ => id) fun _ => False.elim).bind ?_
  rintro (_ | f) s₁ hr
  · obtain ⟨rfl, hfull⟩ := hr
    refine (hput' s₁ rfl).bind ?_
    rintro - s₂ ⟨hR, hft⟩
    exact ⟨iff_of_true rfl fun hfree => hfull hfree.1, fun _ => ⟨hR, fun f => by rw [hft]⟩⟩
  obtain ⟨href, hic, hproc, hft⟩ := hr
  have hfd : FdFree p s₁ ↔ FdFree p s := by rw [FdFree, FdFree, hproc]
  refine ((fdalloc_spec s₁ f).mono (fun _ _ => id) fun _ => False.elim).bind ?_
  rintro (_ | fd) s₂ hr
  · obtain ⟨rfl, hfull⟩ := hr
    refine ((fileclose_unused (by simp [hft]) (by simp [hft, hclosed f href])).mono (fun _ _ => id)
      fun _ => False.elim).bind ?_
    rintro - s₃ ⟨hic₃, hft₃⟩
    refine (hput' s₃ (hic₃.trans hic)).bind ?_
    rintro - s₄ ⟨hR, hft₄⟩
    refine ⟨iff_of_true rfl fun hfree => hfull (hfd.mpr hfree.2), fun _ => ⟨hR, fun f' => ?_⟩⟩
    rw [hft₄, hft₃, hft]
    by_cases hf : f' = f
    · subst hf
      simp [href]
    · simp [hf]
  · -- with a descriptor the call does not fail
    have hunlock : Wp (onIc (iunlock ip)) s₂ (fun _ _ => True) fun _ => True := by
      unfold Wp
      split <;> trivial
    refine hunlock.bind fun _ s₃ _ => ?_
    exact ⟨iff_of_false nofun (not_not.mpr ⟨⟨f, href⟩, hfd.mp hr⟩), nofun⟩

end Tables

section Open

variable {e : Env} {orphans : Set ℕ} {g : Ghost} {s : Ic} {ip : Ip} {p : Int16 → Prop}

/-- Giving back an inode that was found. -/
theorem iunlockput_found (hunlocked : ∀ ip, g.lock ip = false) (h : Found e.sb orphans g p ip s) :
    Wp (iunlockput e ip) s (fun _ s' => Returned e.sb orphans g s') fun _ => False := by
  obtain ⟨m, nd, g', -, -, hin, hafter, hs⟩ := h
  exact iunlockput_taken hs hafter (hunlocked ip) hin

/-- A new inode that is given back stays on disk. -/
theorem iunlockput_made {adds : Set ℕ} (hunlocked : ∀ ip, g.lock ip = false)
    (h : Made e.sb ∅ adds g p ip s) :
    Wp (iunlockput e ip) s
      (fun _ s' => ∃ m, g.nodes m = none ∧ nodes e.sb s'.disk m ≠ none) fun _ => False := by
  obtain ⟨m, nd, N, g', hnew, hlink, -, hnd, -, hin, hafter, hs⟩ := h
  refine (iunlockput_taken (g := g.setNodes N) hs hafter (hunlocked ip) hin).post ?_
  rintro - s' ⟨g'', hafter', hs'⟩
  refine ⟨m, hnew.resolve_right id, ?_⟩
  rw [hs'.nodes_eq]
  rcases hafter'.nodes m with heq | ⟨-, horphan | ⟨⟨nd', hnd', hzero⟩, -⟩⟩
  · rw [heq, Ghost.setNodes_nodes, hnd]
    exact nofun
  · exact absurd horphan id
  · obtain rfl := Option.some.inj (hnd.symm.trans hnd')
    exact absurd hzero hlink

end Open

/-- If a call of `open` fails it leaves no trace, if and only if there is room for the descriptor in
case the call creates the file. -/
theorem open_failure {P : Type} [DecidableEq P] {e : Env} {p : P} {cwd : Ip} {path : List UInt8}
    {omode : UInt32} {s s' : Sys P} {r : Option (Fin NOFILE)}
    (hwf : WellFormed e.sb ⟨s.ic, 0, cwd⟩)
    (hclosed : ∀ f, (s.ftable f).ref = 0 → (s.ftable f).type = .none)
    (hrun : sysOpen e p cwd path omode s = .ok (r, s')) :
    (r = none → NoTrace e.sb ⟨s.ic, 0, cwd⟩ ⟨s'.ic, 0, cwd⟩ ∧
        ∀ f, (s'.ftable f).ref = (s.ftable f).ref) ↔
      (omode &&& O_CREATE ≠ 0 ∧ Creates (nodes e.sb s.ic.disk) (s.ic.icache cwd).inum path →
        FileFree s ∧ FdFree p s) := by
  set new := omode &&& O_CREATE ≠ 0 ∧ Creates (nodes e.sb s.ic.disk) (s.ic.icache cwd).inum path
  have hopen : Wp (sysOpen e p cwd path omode) s
      (fun r s' =>
        (¬ new → r = none → Returned e.sb ∅ (Kern.ghost e.sb ⟨s.ic, 0, cwd⟩) s'.ic ∧
          ∀ f, (s'.ftable f).ref = (s.ftable f).ref) ∧
        (new → (r = none ↔ ¬ (FileFree s ∧ FdFree p s)) ∧ (r = none →
          ∃ m, nodes e.sb s.ic.disk m = none ∧ nodes e.sb s'.ic.disk m ≠ none)))
      fun _ => True := by
    unfold sysOpen
    rw [Wp.bind_iff, wp_onIc]
    refine (openInode_cases hwf.holds (fun _ => rfl)
      (Nat.add_pos_left hwf.cwd _) path omode).mono ?_
      fun _ _ => trivial
    rintro (_ | ip) ic hr
    · exact ⟨fun _ _ => ⟨hr.2, fun _ => rfl⟩, fun hnew => absurd hnew hr.1⟩
    · rcases hr with ⟨hnot, hfound⟩ | ⟨hnew, hmade⟩
      · refine (openFile_spec (s := { s with ic := ic }) (iunlockput_found (fun _ => rfl) hfound)
          hclosed omode).post ?_
        exact fun r s₂ hs₂ => ⟨fun _ => hs₂.2, fun hnew => absurd hnew hnot⟩
      · refine (openFile_spec (s := { s with ic := ic }) (iunlockput_made (fun _ => rfl) hmade)
          hclosed omode).post ?_
        exact fun r s₂ hs₂ => ⟨fun hnot => absurd hnew hnot,
          fun _ => ⟨hs₂.1, fun hr => (hs₂.2 hr).1⟩⟩
  obtain ⟨hold, hmade⟩ := hopen.of_ok hrun
  constructor
  · intro hkeep hnew
    by_contra hfull
    have hr := (hmade hnew).1.mpr hfull
    obtain ⟨m, hnone, hsome⟩ := (hmade hnew).2 hr
    rw [← (hkeep hr).1.contents m] at hnone
    exact hsome hnone
  · intro hroom hr
    by_cases hnew : new
    · exact absurd (hroom hnew) ((hmade hnew).1.mp hr)
    · exact ⟨hwf.noTrace (hold hnew hr).1 rfl rfl, (hold hnew hr).2⟩

theorem open_failure_missing :
    let e : Env := ⟨smallSb, fun _ => none⟩
    let s : Sys Unit := boot () rootDisk
    ∃ s', WellFormed e.sb ⟨s.ic, 0, firstIp⟩ ∧ sysOpen e () firstIp [120] 0 s = .ok (none, s') ∧
      NoTrace e.sb ⟨s.ic, 0, firstIp⟩ ⟨s'.ic, 0, firstIp⟩ ∧
        ∀ f, (s'.ftable f).ref = (s.ftable f).ref :=
  ⟨_, wellFormed_rootDisk, rfl, (@open_failure Unit _ _ () _ [120] 0 _ _ _ wellFormed_rootDisk
    (fun _ _ => rfl) rfl).mpr (fun h => absurd rfl h.1) rfl⟩

/-- A process that has used all its descriptors for the reading end of one pipe. -/
def fullProc : Sys Unit :=
  { boot () rootDisk with
    ftable := fun f => if f = firstFile then ⟨.pipe, NOFILE, true, false, 0, firstIp, 0⟩
      else ⟨.none, 0, false, false, 0, firstIp, 0⟩
    page := fun _ => ⟨⟨fun _ => 0, 0, 0, true, false⟩, 1, 0⟩
    proc := fun _ => ⟨some firstIp, fun _ => some firstFile⟩ }

/-- The call fails, and there is a file that was not there. -/
theorem open_create_full :
    let e : Env := ⟨smallSb, fun _ => none⟩
    WellFormed e.sb ⟨fullProc.ic, 0, firstIp⟩ ∧ (getDinode e.sb fullProc.ic.disk 2).type = 0 ∧
      ∃ s', sysOpen e () firstIp [120] O_CREATE fullProc = .ok (none, s') ∧
        (getDinode e.sb s'.ic.disk 2).type = T_FILE := by
  have hrun : ((sysOpen ⟨smallSb, fun _ => none⟩ () firstIp [120] O_CREATE fullProc).toOption.any
      fun r => r.1.isNone && ((getDinode smallSb r.2.ic.disk 2).type == T_FILE)) = true := by
    decide +kernel
  have hfree : (getDinode smallSb rootDisk 2).type = 0 := by
    rw [rootDisk, getDinode_putDinode_of_ne _ (by decide)]
    exact type_emptyDisk smallSb_ok (by decide)
  refine ⟨wellFormed_rootDisk, hfree, ?_⟩
  obtain ⟨⟨r, s'⟩, hs', hr⟩ := (Option.any_eq_true _ _).mp hrun
  obtain ⟨hnone, htype⟩ := Bool.and_eq_true_iff.mp hr
  obtain rfl := Option.isNone_iff_eq_none.mp hnone
  exact ⟨s', eq_ok_of_toOption hs', eq_of_beq htype⟩

end Xv6.Fs
