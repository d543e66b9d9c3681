import Mathlib.Algebra.BigOperators.Fin
import Mathlib.Tactic.Abel
import Xv6.Fs.Contents
import Xv6.Fs.Syscall

/-!
# Reference counts of open files

A `struct file` counts the descriptors that refer to it, over all processes. Inside a call the count
is off by the references that are taken and not stored yet, or stored and not counted yet as in
`dup`. Each routine moves the difference by a fixed amount, and a call that completes, in success or
in failure, leaves it as it was.
-/

namespace Xv6.Fs

open Lib

/-- A sum over a function that was assigned to at one place. -/
theorem sum_comp_update {κ β : Type} [Fintype κ] [DecidableEq κ] (g : β → ℤ) (o : κ → β) (k : κ)
    (v : β) :
    ∑ j, g (Function.update o k v j) = ∑ j, g (o j) + (g v - g (o k)) := by
  have hnew := Finset.sum_update_of_mem (Finset.mem_univ k) (g ∘ o) (g v)
  have hold := Finset.sum_eq_add_sum_sdiff_singleton_of_mem (Finset.mem_univ k) (g ∘ o)
  rw [← Function.comp_update] at hnew
  simp only [Function.comp_apply] at hnew hold
  rw [hnew, hold]
  ring

/-- The references of a descriptor. -/
def refs (v : Option (Fin NFILE)) (f : Fin NFILE) : ℤ := if v = some f then 1 else 0

variable {P : Type} [Fintype P]

/-- By how much the count of `*f` exceeds the number of descriptors that refer to it. -/
def Sys.off (s : Sys P) (f : Fin NFILE) : ℤ :=
  (s.ftable f).ref - ∑ p, ∑ fd, refs ((s.proc p).ofile fd) f

/-- The differences have moved by `d`, and only the processes in `A` have changed. -/
structure Sys.Moved (A : Set P) (d : Fin NFILE → ℤ) (s t : Sys P) : Prop where
  off : t.off = s.off + d
  others : ∀ q, q ∉ A → t.proc q = s.proc q
  cwd : ∀ q, (s.proc q).cwd ≠ none → (t.proc q).cwd ≠ none

/-- Wherever it starts, a routine that returns `r` moves the differences by `d r`. -/
def Moves {α : Type} (A : Set P) (x : SysM P α) (d : α → Fin NFILE → ℤ) : Prop :=
  ∀ s, Wp x s (fun r t => s.Moved A (d r) t) fun _ => True

section Moves

variable {s t u : Sys P} {A : Set P} {p q : P} {f : Fin NFILE} {fd : Fin NOFILE} (e : Env)

namespace Sys.Moved

variable {d d' : Fin NFILE → ℤ}

theorem trans (h : s.Moved A d t) (h' : t.Moved A d' u) : s.Moved A (d + d') u :=
  ⟨by rw [h'.off, h.off, add_assoc], fun q hq => (h'.others q hq).trans (h.others q hq),
    fun q hq => h'.cwd q (h.cwd q hq)⟩

theorem of_eq (hproc : t.proc = s.proc) (href : ∀ f, (t.ftable f).ref = (s.ftable f).ref) :
    s.Moved A 0 t := by
  refine ⟨funext fun f => ?_, fun q _ => by rw [hproc], fun q hq => by rwa [hproc]⟩
  simp [Sys.off, hproc, href]

theorem proc_eq (h : s.Moved ∅ d t) : t.proc = s.proc :=
  funext fun q => h.others q (Set.notMem_empty q)

theorem mono (h : s.Moved ∅ d t) : s.Moved A d t :=
  ⟨h.off, fun q _ => congrFun h.proc_eq q, h.cwd⟩

end Sys.Moved

namespace Moves

variable {α β : Type} {x : SysM P α} {g : α → SysM P β} {d : α → Fin NFILE → ℤ}
  {d' : β → Fin NFILE → ℤ}

/-- The differences had moved by `k` before. -/
theorem after {k : Fin NFILE → ℤ} (h : Moves A x fun r => d r - k) (hs : s.Moved A k t) :
    Wp x t (fun r u => s.Moved A (d r) u) fun _ => True :=
  (h t).post fun r _ hu => add_sub_cancel k (d r) ▸ hs.trans hu

theorem bind (h : Moves A x d) (hg : ∀ r, Moves A (g r) fun r' => d' r' - d r) :
    Moves A (x >>= g) d' := fun s => (h s).bind fun r _ ht => after (hg r) ht

/-- A routine that moves nothing, then the rest. -/
theorem keep (h : Moves A x 0) (hg : ∀ r, Moves A (g r) d') : Moves A (x >>= g) d' :=
  h.bind fun r => by simpa using hg r

/-- A routine that may fail, then the rest. -/
theorem option {γ : Type} {x : SysM P (Option γ)} {g : Option γ → SysM P β}
    {d : Option γ → Fin NFILE → ℤ} (h : Moves A x d) (hd : d none = 0) (hnone : Moves A (g none) d')
    (hsome : ∀ c, Moves A (g (some c)) fun r => d' r - d (some c)) : Moves A (x >>= g) d' := by
  refine h.bind fun r => ?_
  cases r with
  | none => simpa [hd] using hnone
  | some c => exact hsome c

theorem pure {a : α} (h : d a = 0) : Moves A (pure a) d :=
  fun _ => show Sys.Moved A (d a) _ _ from h ▸ .of_eq rfl fun _ => rfl

theorem get {g : Sys P → SysM P β} (hg : ∀ s, Moves A (g s) d') : Moves A (get >>= g) d' :=
  fun s => hg s s

theorem throw {ε : Fault} : Moves A (throw ε : SysM P α) d := fun _ => trivial

theorem onIc {x : IcM α} : Moves A (onIc x : SysM P α) 0 := fun s =>
  Wp.zoom_iff.mpr ((Wp.true x s.ic).post fun _ _ _ => .of_eq rfl fun _ => rfl)

theorem modifyPage {a : ℕ} {g : Page → Page} : Moves A (modifyPage a g : SysM P Unit) 0 :=
  fun _ => Sys.Moved.of_eq rfl fun _ => rfl

end Moves

/-- The count of `*f` is assigned to. -/
theorem modifyFile_moved {g : File → File} {d : Fin NFILE → ℤ}
    (hd : ∀ f', d f' = if f = f' then ((g (s.ftable f)).ref : ℤ) - (s.ftable f).ref else 0) :
    Wp (modifyFile f g) s (fun _ t => s.Moved A d t) fun _ => True := by
  refine ⟨funext fun f' => ?_, fun _ _ => rfl, fun _ => id⟩
  by_cases hf : f = f'
  · subst hf
    simp only [Sys.off, Function.update_self, Pi.add_apply, hd, if_true]
    ring
  · simp [Sys.off, hd, hf, Ne.symm hf]

theorem modifyFile_moves {g : File → File} (hg : ∀ x, (g x).ref = x.ref) :
    Moves A (modifyFile f g : SysM P Unit) 0 := fun s => modifyFile_moved fun f' => by simp [hg]

theorem filealloc_moves : Moves A (filealloc : SysM P _) refs := fun s => by
  unfold filealloc
  rw [Wp.bind_iff, Wp.get_iff]
  cases hf : (List.finRange NFILE).find? fun f => decide ((s.ftable f).ref = 0) with
  | none => exact Moves.pure rfl s
  | some f =>
    have hzero : (s.ftable f).ref = 0 := by simpa using List.find?_some hf
    exact (modifyFile_moved fun f' => by simp [refs, hzero]).bind fun _ t ht => ht

theorem filedup_moves : Moves A (filedup f : SysM P _) fun _ => refs (some f) := fun s => by
  unfold filedup
  rw [Wp.bind_iff, Wp.get_iff]
  split_ifs
  · trivial
  · exact modifyFile_moved fun f' => by simp [refs]

theorem pipeclose_moves {a : ℕ} {w : Bool} : Moves A (pipeclose a w : SysM P _) 0 := by
  refine Moves.keep ?_ fun _ => .get fun s => ?_
  · split_ifs <;> exact .modifyPage
  · split_ifs
    · exact .modifyPage
    · exact .pure rfl

theorem fileclose_moves : Moves A (fileclose e f : SysM P _) fun _ => -refs (some f) := fun s => by
  have hdown : ∀ g : File → File, (g (s.ftable f)).ref + 1 = (s.ftable f).ref →
      Wp (modifyFile f g) s (fun _ t => s.Moved A (-refs (some f)) t) fun _ => True := fun g hg =>
    modifyFile_moved fun f' => by simp [refs, ← hg, apply_ite]
  unfold fileclose
  rw [Wp.bind_iff, Wp.get_iff]
  dsimp only
  split_ifs with hpos hlast
  · trivial
  · exact hdown _ (by dsimp only; omega)
  · refine (hdown _ (by dsimp only; omega)).bind fun _ t ht => Moves.after ?_ ht
    simp only [sub_self]
    split
    · exact pipeclose_moves
    · exact .onIc
    · exact .pure rfl

/-! ### Reading and writing -/

theorem pipewrite_moves {a : ℕ} (src : List UInt8) : Moves A (pipewrite a src : SysM P _) 0 := by
  induction src with
  | nil => exact .pure rfl
  | cons x src ih =>
    refine .get fun s => ?_
    split_ifs
    · exact .pure rfl
    · exact .throw
    · exact .keep .modifyPage fun _ => ih

theorem pipeCopy_moves {a : ℕ} (n : ℕ) : Moves A (pipeCopy a n : SysM P _) 0 := by
  induction n with
  | zero => exact .pure rfl
  | succ n ih =>
    refine .get fun s => ?_
    split_ifs
    · exact .pure rfl
    · exact .keep .modifyPage fun _ => .keep ih fun _ => .pure rfl

theorem fileread_moves {n : ℕ} : Moves A (fileread e f n : SysM P _) 0 := by
  refine .get fun s => ?_
  dsimp only
  split_ifs
  · exact .pure rfl
  · split
    · exact .throw
    · refine .keep (.get fun s => ?_) fun _ => .pure rfl
      split_ifs
      · exact .throw
      · exact pipeCopy_moves n
    · exact .keep .onIc fun _ => .keep .onIc fun _ => .keep (modifyFile_moves fun _ => rfl)
        fun _ => .keep .onIc fun _ => .pure rfl

theorem filewriteLoop_moves {ip : Ip} (n : ℕ) (src : List UInt8) :
    Moves A (filewriteLoop e f ip n src : SysM P _) 0 := by
  induction n generalizing src with
  | zero => exact .pure rfl
  | succ n ih =>
    have hchunk : Moves A (writeChunk e f ip (src.take writeMax) : SysM P _) 0 :=
      .keep .onIc fun _ => .get fun _ => .keep .onIc fun _ => .keep (modifyFile_moves fun _ => rfl)
        fun _ => .keep .onIc fun _ => .pure rfl
    unfold filewriteLoop
    split_ifs
    · exact .pure rfl
    · refine hchunk.option rfl (.pure rfl) fun r => ?_
      dsimp only
      split_ifs
      · exact .throw
      · exact ih _

theorem filewrite_moves {src : List UInt8} : Moves A (filewrite e f src : SysM P _) 0 := by
  refine .get fun s => ?_
  dsimp only
  split_ifs
  · exact .pure rfl
  · split
    · exact .throw
    · exact pipewrite_moves src
    · exact filewriteLoop_moves e _ src

/-! ### Descriptors -/

@[simp] theorem refs_none : refs none = 0 := rfl

theorem pipealloc_moves {a : Option ℕ} : Moves A (pipealloc e a : SysM P _)
    fun r => refs (r.map Prod.fst) + refs (r.map Prod.snd) := by
  refine filealloc_moves.option rfl (.pure rfl) fun f₀ => filealloc_moves.option rfl ?_ fun f₁ =>
    .option (d := 0) ?_ rfl ?_ fun a => ?_
  · exact .bind (fileclose_moves e) fun _ => .pure (by simp)
  · cases a with
    | none => exact .pure rfl
    | some a =>
      refine .get fun s => ?_
      split_ifs
      · exact .pure rfl
      · exact .keep .modifyPage fun _ => .pure rfl
  · exact .bind (fileclose_moves e) fun _ => .bind (fileclose_moves e) fun _ =>
      .pure (by simp; abel)
  · exact .keep (.keep .modifyPage fun _ => .keep (modifyFile_moves fun _ => rfl)
      fun _ => modifyFile_moves fun _ => rfl) fun _ => .pure (by simp)

omit [Fintype P] in
/-- Branch on the descriptor. -/
theorem argfd_wp {α : Type} {g : Option (Fin NFILE) → SysM P α} {Q : α → Sys P → Prop}
    (hnone : (s.proc p).ofile fd = none → Wp (g none) s Q fun _ => True)
    (hsome : ∀ f, (s.proc p).ofile fd = some f → Wp (g (some f)) s Q fun _ => True) :
    Wp (argfd p fd >>= g) s Q fun _ => True := by
  change Wp (g ((s.proc p).ofile fd)) s Q fun _ => True
  cases h : (s.proc p).ofile fd with
  | none => exact hnone h
  | some f => exact hsome f h

theorem argfd_moves {α : Type} {g : Option (Fin NFILE) → SysM P α} {d : α → Fin NFILE → ℤ}
    (hnone : Moves A (g none) d) (hsome : ∀ f, Moves A (g (some f)) d) :
    Moves A (argfd p fd >>= g) d := fun s => argfd_wp (fun _ => hnone s) fun f _ => hsome f s

variable [DecidableEq P]

/-- A process is assigned to. -/
theorem off_update (x : Proc) : { s with proc := Function.update s.proc p x }.off =
    s.off + fun f => ∑ fd, refs ((s.proc p).ofile fd) f - ∑ fd, refs (x.ofile fd) f := by
  funext f
  simp only [Sys.off, Pi.add_apply, sum_comp_update (fun y : Proc => ∑ fd, refs (y.ofile fd) f)]
  ring

theorem setOfile_moved (s : Sys P) (p : P) (fd : Fin NOFILE) (v : Option (Fin NFILE)) :
    Wp (setOfile p fd v) s (fun _ t => s.Moved {p} (refs ((s.proc p).ofile fd) - refs v) t ∧
      (t.proc p).ofile = Function.update (s.proc p).ofile fd v) fun _ => True := by
  refine ⟨⟨(off_update _).trans (congrArg _ (funext fun f => ?_)),
    fun q hq => Function.update_of_ne hq _ _, fun q hq => ?_⟩,
    congrArg Proc.ofile (Function.update_self p _ s.proc)⟩
  · simp only [sum_comp_update (fun y => refs y f), Pi.sub_apply]
    ring
  · by_cases h : q = p
    · subst h
      simpa using hq
    · simpa [h] using hq

theorem fdalloc_moved : Wp (fdalloc p f) s (fun r t => s.Moved {p} (-refs (r.map fun _ => f)) t ∧
    (∀ fd, r = some fd → (t.proc p).ofile fd = some f) ∧ (r = none → t = s)) fun _ => True := by
  unfold fdalloc
  rw [Wp.bind_iff, Wp.get_iff]
  cases hfd : (List.finRange NOFILE).find? fun fd => decide ((s.proc p).ofile fd = none) with
  | none => exact ⟨.of_eq rfl fun _ => rfl, by simp, fun _ => rfl⟩
  | some fd =>
    have hfree : (s.proc p).ofile fd = none := by simpa using List.find?_some hfd
    refine (setOfile_moved s p fd (some f)).bind ?_
    rintro - t ⟨ht, hofile⟩
    exact ⟨by simpa [hfree] using ht, by simp [hofile], by simp⟩

theorem fdalloc_moves : Moves {p} (fdalloc p f) fun r => -refs (r.map fun _ => f) :=
  fun _ => fdalloc_moved.post fun _ _ ht => ht.1

theorem openFile_moves {ip : Ip} {omode : UInt32} : Moves {p} (openFile e p ip omode) 0 := by
  refine filealloc_moves.option rfl (.keep .onIc fun _ => .pure rfl) fun f =>
    fdalloc_moves.option rfl ?_ fun fd => ?_
  · exact .bind (fileclose_moves e) fun _ => .keep .onIc fun _ => .pure (by simp)
  · exact .keep .onIc fun _ => .keep (modifyFile_moves fun _ => rfl) fun _ => .pure (by simp)

theorem sysDup_moves : Moves {p} (sysDup p fd) 0 :=
  argfd_moves (.pure rfl) fun _ => fdalloc_moves.option rfl (.pure rfl) fun _ =>
    .bind filedup_moves fun _ => .pure (by simp)

theorem sysClose_moves : Moves {p} (sysClose e p fd) 0 := fun s => by
  refine argfd_wp (fun _ => Moves.pure rfl s) fun f hfd => (setOfile_moved s p fd none).bind ?_
  rintro - t ⟨ht, -⟩
  exact Moves.after (.bind (fileclose_moves e) fun _ => .pure (by simp [hfd])) ht

theorem sysPipe_moves {a : Option ℕ} : Moves {p} (sysPipe e p a) 0 := by
  have hclose : ∀ rf wf, Moves {p}
      (do fileclose e rf; fileclose e wf; return none : SysM P (Option (Fin NOFILE × Fin NOFILE)))
      fun _ => -(refs (some rf) + refs (some wf)) := fun rf wf =>
    .bind (fileclose_moves e) fun _ => .bind (fileclose_moves e) fun _ => .pure (by simp)
  refine (pipealloc_moves e).option (by simp) (.pure rfl) fun r => ?_
  obtain ⟨rf, wf⟩ := r
  intro s
  refine fdalloc_moved.bind ?_
  rintro r t ⟨ht, hofile, -⟩
  cases r with
  | none => exact Moves.after (by simpa using hclose rf wf) ht
  | some fd₀ =>
    refine fdalloc_moved.bind ?_
    rintro r u ⟨hu, -, hsame⟩
    cases r with
    | none =>
      -- the first descriptor is taken back
      obtain rfl := hsame rfl
      refine (setOfile_moved u p fd₀ none).bind ?_
      rintro - v ⟨hv, -⟩
      exact Moves.after (by simpa [hofile] using hclose rf wf) (ht.trans hv)
    | some fd₁ => exact Moves.after (.pure (by simp; abel)) (ht.trans hu)

/-- The child has none of the descriptors yet. -/
theorem dupFiles_moved {fds : List (Fin NOFILE)} (hnodup : fds.Nodup)
    (hnone : ∀ fd ∈ fds, (s.proc q).ofile fd = none) :
    Wp (dupFiles p q fds) s (fun _ t => s.Moved {q} 0 t) fun _ => True := by
  induction fds generalizing s with
  | nil => exact Moves.pure rfl s
  | cons fd fds ih =>
    obtain ⟨hfd, hnodup⟩ := List.nodup_cons.mp hnodup
    refine argfd_wp (fun _ => ih hnodup fun fd' h => hnone fd' (.tail _ h)) fun f _ => ?_
    -- the file is counted before the child has the descriptor
    refine (filedup_moves (A := ∅) s).bind fun _ t ht => (setOfile_moved t q fd (some f)).bind ?_
    rintro - u ⟨hu, hofile⟩
    rw [ht.proc_eq, hnone fd (.head _)] at hu
    refine (ih hnodup fun fd' h => ?_).post fun _ v hv => ?_
    · rw [hofile, ht.proc_eq, Function.update_of_ne (ne_of_mem_of_not_mem h hfd)]
      exact hnone fd' (.tail _ h)
    · simpa using (ht.mono.trans hu).trans hv

/-- Afterwards the descriptors are closed. -/
theorem closeFiles_moved (fds : List (Fin NOFILE)) :
    Wp (closeFiles e p fds) s (fun _ t => s.Moved {p} 0 t ∧
      ∀ fd, fd ∈ fds ∨ (s.proc p).ofile fd = none → (t.proc p).ofile fd = none) fun _ => True := by
  induction fds generalizing s with
  | nil => exact ⟨.of_eq rfl fun _ => rfl, by simp⟩
  | cons fd fds ih =>
    refine argfd_wp (fun hfd => ih.post fun _ t ht => ⟨ht.1, fun fd' h => ht.2 fd' (by grind)⟩)
      fun f hfd => ?_
    -- and here it is closed while the descriptor still refers to it
    refine (fileclose_moves (A := ∅) e s).bind fun _ t ht => (setOfile_moved t p fd none).bind ?_
    rintro - u ⟨hu, hofile⟩
    rw [ht.proc_eq] at hu hofile
    refine ih.post fun _ v hv => ⟨?_, fun fd' h => hv.2 fd' ?_⟩
    · simpa [hfd] using (ht.mono.trans hu).trans hv.1
    · rw [hofile]
      grind [Function.update_apply]

/-- The counts are right, and processes that do not run have no descriptors. -/
structure Sys.Counted (s : Sys P) : Prop where
  off : s.off = 0
  idle : ∀ q, (s.proc q).cwd = none → ∀ fd, (s.proc q).ofile fd = none

/-- Only the process `p` has changed, and not in its descriptors. -/
theorem Sys.Counted.assign (h : s.Counted) (ht : s.Moved {p} 0 t) (x : Option Ip)
    (hx : x = none → ∀ fd, (t.proc p).ofile fd = none) :
    { t with proc := Function.update t.proc p { t.proc p with cwd := x } }.Counted := by
  refine ⟨?_, fun q hq => ?_⟩
  · rw [off_update, ht.off, h.off]
    simp
    rfl
  · by_cases hqp : q = p
    · subst hqp
      simpa using hx (by simpa using hq)
    · simp only [Function.update_of_ne hqp, ht.others q hqp] at hq ⊢
      exact h.idle q hq

theorem fork_counted {cwd : Ip} (h : s.Counted) :
    Wp (fork p cwd q) s (fun _ t => t.Counted) fun _ => True := by
  unfold fork
  rw [Wp.bind_iff, Wp.get_iff]
  split_ifs with hq
  · exact h
  · refine (dupFiles_moved (List.nodup_finRange _) fun fd _ => h.idle q (not_not.mp hq) fd).bind
      fun _ t ht => (Moves.onIc (A := {q}) t).bind fun ip u hu => ?_
    exact h.assign (by simpa using ht.trans hu) (some ip) (by simp)

theorem exit_counted {cwd : Ip} (h : s.Counted) :
    Wp (exit e q p cwd) s (fun _ t => t.Counted) fun _ => True := by
  unfold exit
  split_ifs
  · trivial
  · refine (closeFiles_moved e _).bind ?_
    rintro - t ⟨ht, hnone⟩
    refine (Moves.onIc (A := ∅) t).bind fun _ u hu => ?_
    refine h.assign (by simpa using ht.trans hu.mono) none fun _ fd => ?_
    rw [hu.proc_eq]
    exact hnone fd (.inl (List.mem_finRange fd))

theorem call_counted {cwd : Ip} (h : s.Counted) (hp : (s.proc p).cwd = some cwd) (c : Call P) :
    Wp (call e q p cwd c) s (fun _ t => t.Counted) fun _ => True := by
  have hkeep : ∀ t, s.Moved {p} 0 t → t.Counted := fun t ht => by
    have hset := h.assign ht (t.proc p).cwd fun hn => absurd hn (ht.cwd p (by simp [hp]))
    simpa using hset
  have hrun : ∀ {α : Type} {x : SysM P α}, Moves {p} x 0 →
      Wp (do let _ ← x) s (fun _ t => t.Counted) fun _ => True := fun hx =>
    (hx s).bind fun _ t ht => hkeep t ht
  cases c with
  | «open» => exact hrun (Moves.onIc.option rfl (.pure rfl) fun _ => openFile_moves e)
  | mkdir | mknod | link | unlink | exec => exact hrun .onIc
  | chdir =>
    refine Wp.bind (Wp.bind (Moves.onIc (A := {p}) s) fun r t ht => ?_) fun _ _ ht => ht
    cases r with
    | none => exact hkeep t ht
    | some ip => exact h.assign ht (some ip) (by simp)
  | read => exact hrun (argfd_moves (.pure rfl) fun _ => fileread_moves e)
  | write => exact hrun (argfd_moves (.pure rfl) fun _ => filewrite_moves e)
  | close => exact hrun (sysClose_moves e)
  | dup => exact hrun sysDup_moves
  | pipe => exact hrun (sysPipe_moves e)
  | fork => exact (fork_counted h).bind fun _ _ ht => ht
  | exit => exact exit_counted e h

end Moves

theorem step_counted [DecidableEq P] {e : Env} {initproc : P} {s t : Sys P} (l : P × Call P)
    (h : s.Counted) (hstep : Step e initproc s l t) : t.Counted := by
  unfold Step next at hstep
  split at hstep
  case h_1 => cases hstep
  case h_2 cwd hp =>
    split at hstep
    case h_1 u hcall =>
      cases hstep
      exact (call_counted e h hp l.2).of_ok hcall
    all_goals cases hstep

/-- After any calls of any processes, the count of every open file is the number of descriptors that
refer to it, and a process that does not run has no descriptors. -/
theorem file_counts [DecidableEq P] {e : Env} {initproc : P} {d : Disk} {calls : List (P × Call P)}
    {s : Sys P} (hrun : Run (Step e initproc) (boot initproc d) calls s) :
    (∀ f, (s.ftable f).ref = ∑ p, ∑ fd, if (s.proc p).ofile fd = some f then 1 else 0) ∧
    ∀ p, (s.proc p).cwd = none → ∀ fd, (s.proc p).ofile fd = none := by
  have hboot : (boot initproc d).Counted :=
    ⟨funext fun f => by simp [Sys.off, boot], fun _ _ _ => rfl⟩
  have hs : s.Counted := hrun.invariant hboot fun _ l _ => step_counted l
  refine ⟨fun f => ?_, hs.idle⟩
  have hoff := congrFun hs.off f
  simp only [Sys.off, refs, Pi.zero_apply, sub_eq_zero] at hoff
  exact_mod_cast hoff

theorem file_counts_fork :
    ∃ s, Run (Step ⟨smallSb, fun _ => none⟩ (0 : Fin 2)) (boot 0 (emptyDisk smallSb))
        [(0, .pipe (some 0)), (0, .fork 1), (1, .pipe none), (1, .exit), (0, .fork 1)] s ∧
      (∃ f, (s.ftable f).ref = 2) ∧
      ∀ f, (s.ftable f).ref = ∑ p, ∑ fd, if (s.proc p).ofile fd = some f then 1 else 0 := by
  obtain ⟨s, hrun, href⟩ := exists_run_of_runList
    (fun s l => (next ⟨smallSb, fun _ => none⟩ 0 s l).toOption)
    (fun s l t h => Outcome.eq_ok_of_toOption h) (boot (0 : Fin 2) (emptyDisk smallSb))
    [(0, .pipe (some 0)), (0, .fork 1), (1, .pipe none), (1, .exit), (0, .fork 1)]
    (fun s => ∃ f, (s.ftable f).ref = 2) (by decide +kernel)
  exact ⟨s, hrun, of_decide_eq_true href, (file_counts hrun).1⟩

end Xv6.Fs
