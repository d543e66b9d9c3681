import Xv6.Mp.Model

/-!
# Walking over the multiprocessor table

The loop of `mpinit` leaves an entry of one of the five known types for the next one, and stays at
an entry of any other type: the `break` there ends the `switch` and not the loop. So the loop ends
exactly if it meets known types only, and then the processors of the table are registered in order.
-/

namespace Xv6.Mp

open Lib Str

/-- The size of an entry of a known type. -/
def entrySize (type : UInt8) : Option ℕ :=
  if type = MPPROC then some MPPROCSIZE
  else if type = MPIOAPIC then some MPIOAPICSIZE
  else if type = MPBUS ∨ type = MPIOINTR ∨ type = MPLINTR then some 8
  else none

/-- The byte at address `q`. -/
def byteAt (m : Memory) (q : ℕ) : UInt8 := m (BitVec.ofNat 32 q)

section Table

variable (m : Memory) (conf : Addr)

/-- The first address behind the table. -/
def tableEnd : ℕ := conf.toNat + confLength m conf

/-- The loop comes to an entry at address `q`. -/
inductive Meets : ℕ → Prop
  | first : conf.toNat + MPCONF < tableEnd m conf → Meets (conf.toNat + MPCONF)
  | next {q n : ℕ} : Meets q → entrySize (byteAt m q) = some n → q + n < tableEnd m conf →
      Meets (q + n)

/-- The processors of the entries from address `q` on, by their APIC ids. -/
inductive Procs : ℕ → List UInt8 → Prop
  | done {q : ℕ} : tableEnd m conf ≤ q → Procs q []
  | proc {q : ℕ} {l : List UInt8} : q < tableEnd m conf → byteAt m q = MPPROC →
      Procs (q + MPPROCSIZE) l → Procs q (byteAt m (q + 1) :: l)
  | other {q n : ℕ} {l : List UInt8} : q < tableEnd m conf → byteAt m q ≠ MPPROC →
      entrySize (byteAt m q) = some n → Procs (q + n) l → Procs q l

/-- The end of the table does not wrap around, nor does the pointer into it. -/
structure Fits : Prop where
  header : conf.toNat + MPCONF < 2 ^ 32
  table : tableEnd m conf < 2 ^ 32
  entry {q n : ℕ} : Meets m conf q → entrySize (byteAt m q) = some n → q + n < 2 ^ 32

end Table

section Registers

/-- The state after the processors `l` were found in order. -/
structure Registered (g : Globals) (l : List UInt8) (g' : Globals) : Prop where
  ncpu : g'.ncpu = min NCPU (g.ncpu + l.length)
  old : ∀ i : Fin NCPU, i.val < g.ncpu → g'.apicid i = g.apicid i
  new : ∀ i : Fin NCPU, g.ncpu ≤ i.val → i.val < g'.ncpu →
    l[i.val - g.ncpu]? = some (g'.apicid i)

variable {g g' : Globals} {l : List UInt8}

theorem register_ncpu_le (h : g.ncpu ≤ NCPU) (a : UInt8) : (register g a).ncpu ≤ NCPU := by
  unfold register
  split_ifs with hlt
  · exact hlt
  · exact h

theorem Registered.refl (h : g.ncpu ≤ NCPU) : Registered g [] g where
  ncpu := by simpa using h
  old _ _ := rfl
  new i hi hi' := absurd hi' (by omega)

/-- A processor before the others. -/
theorem Registered.cons (h : g.ncpu ≤ NCPU) {a : UInt8} (hr : Registered (register g a) l g') :
    Registered g (a :: l) g' := by
  unfold register at hr
  split_ifs at hr with hlt
  · refine ⟨?_, ?_, ?_⟩
    · rw [hr.ncpu, List.length_cons]
      dsimp only
      rw [Nat.add_right_comm, Nat.add_assoc]
    · intro i hi
      rw [hr.old i (by dsimp only; omega)]
      dsimp only
      exact Function.update_of_ne (fun heq => by rw [heq] at hi; exact absurd hi (lt_irrefl _)) _ _
    · intro i hi hi'
      rcases Nat.eq_or_lt_of_le hi with heq | hgt
      · have hi0 : i = ⟨g.ncpu, hlt⟩ := Fin.ext heq.symm
        rw [hr.old i (by dsimp only; omega), ← heq, Nat.sub_self, hi0]
        dsimp only
        rw [Function.update_self, List.getElem?_cons_zero]
      · have hnew := hr.new i hgt hi'
        dsimp only at hnew
        rw [← hnew, show i.val - g.ncpu = i.val - (g.ncpu + 1) + 1 by omega,
          List.getElem?_cons_succ]
  · -- all the slots are taken
    have hfull : g.ncpu = NCPU := by omega
    refine ⟨?_, hr.old, ?_⟩
    · rw [hr.ncpu, hfull, List.length_cons]
      omega
    · intro i hi
      exact absurd i.isLt (by omega)

end Registers

section Loop

variable {m : Memory} {conf : Addr} {q n : ℕ} {l : List UInt8} {c : Cursor}

theorem entrySize_proc : entrySize MPPROC = some MPPROCSIZE := by decide

/-- The sizes of the known types. -/
theorem entrySize_bounds {type : UInt8} (h : entrySize type = some n) :
    0 < n ∧ n ≤ MPPROCSIZE := by
  unfold entrySize at h
  split_ifs at h <;> cases h <;> decide

/-- An entry of a known type is left behind. -/
theorem entry_p (h : entrySize (m c.p) = some n) : (entry m c).p = c.p + BitVec.ofNat 32 n := by
  unfold entrySize at h
  unfold entry
  split_ifs at h ⊢ <;> cases h <;> rfl

theorem entry_ismp (h : entrySize (m c.p) = some n) : (entry m c).ismp = c.ismp := by
  unfold entrySize at h
  unfold entry
  split_ifs at h ⊢ <;> cases h <;> rfl

/-- An entry of another type changes `ismp` only. -/
theorem entry_unknown (h : entrySize (m c.p) = none) : entry m c = { c with ismp := false } := by
  unfold entrySize at h
  unfold entry
  split_ifs at h ⊢
  rfl

theorem entry_proc (h : m c.p = MPPROC) :
    (entry m c).globals = register c.globals (m (c.p + 1)) := by
  rw [entry, if_pos h]

/-- Only an entry of a processor registers one. -/
theorem entry_other (h : m c.p ≠ MPPROC) :
    (entry m c).globals.ncpu = c.globals.ncpu ∧ (entry m c).globals.apicid = c.globals.apicid := by
  rw [entry, if_neg h]
  split_ifs <;> exact ⟨rfl, rfl⟩

theorem entry_ncpu_le (h : c.globals.ncpu ≤ NCPU) : (entry m c).globals.ncpu ≤ NCPU := by
  by_cases hproc : m c.p = MPPROC
  · rw [entry_proc hproc]
    exact register_ncpu_le h _
  · rwa [(entry_other hproc).1]

/-- The condition of the loop at the address `q`. -/
theorem more_iff (hfits : Fits m conf) (hq : q < 2 ^ 32) (hc : c.p = BitVec.ofNat 32 q) :
    more m conf c = true ↔ q < tableEnd m conf := by
  have hend : (conf + BitVec.ofNat 32 (confLength m conf)).toNat = tableEnd m conf := by
    rw [BitVec.toNat_add, BitVec.toNat_ofNat, Nat.add_mod_mod]
    exact Nat.mod_eq_of_lt hfits.table
  rw [more, decide_eq_true_eq, BitVec.lt_def, hend, hc, BitVec.toNat_ofNat, Nat.mod_eq_of_lt hq]

theorem Meets.lt (h : Meets m conf q) : q < tableEnd m conf := by
  cases h <;> assumption

/-- A table that ends before the last entry size of the address space. -/
theorem fits_of_le (h : conf.toNat + max MPCONF (confLength m conf) + MPPROCSIZE ≤ 2 ^ 32) :
    Fits m conf := by
  have hleft := le_max_left MPCONF (confLength m conf)
  have hright := le_max_right MPCONF (confLength m conf)
  have hsize : 0 < MPPROCSIZE := by decide
  refine ⟨by omega, by unfold tableEnd; omega, fun hq hn => ?_⟩
  have hlt := hq.lt
  have hle := (entrySize_bounds hn).2
  unfold tableEnd at hlt
  omega

theorem start_p (g : Globals) : (start m conf g).p = BitVec.ofNat 32 (conf.toNat + MPCONF) := by
  rw [BitVec.ofNat_add, BitVec.ofNat_toNat, BitVec.setWidth_eq]
  rfl

/-- The pointer behind an entry of size `n`. -/
theorem entry_next (hc : c.p = BitVec.ofNat 32 q) (hn : entrySize (byteAt m q) = some n) :
    (entry m c).p = BitVec.ofNat 32 (q + n) := by
  rw [byteAt, ← hc] at hn
  rw [entry_p hn, hc, ← BitVec.ofNat_add]

/-- From an entry on, the processors behind it are registered, and the loop ends. -/
theorem ends_of_procs (hfits : Fits m conf) (h : Procs m conf q l) (hq : q < 2 ^ 32)
    (hmeets : q < tableEnd m conf → Meets m conf q) (hc : c.p = BitVec.ofNat 32 q)
    (hg : c.globals.ncpu ≤ NCPU) :
    ∃ c', LoopEnds (more m conf) (entry m) c c' ∧ c'.ismp = c.ismp ∧
      Registered c.globals l c'.globals := by
  induction h generalizing c with
  | @done q hend =>
    have hmore : more m conf c = false := by
      rw [← Bool.not_eq_true, more_iff hfits hq hc]
      omega
    exact ⟨c, .stop hmore, rfl, .refl hg⟩
  | @proc q l hlt htype _ ih =>
    have hsize : entrySize (byteAt m q) = some MPPROCSIZE := by rw [htype, entrySize_proc]
    obtain ⟨c', hends, hismp, hreg⟩ := ih (hfits.entry (hmeets hlt) hsize)
      (.next (hmeets hlt) hsize) (entry_next hc hsize) (entry_ncpu_le hg)
    have hbyte : byteAt m q = m c.p := by rw [byteAt, hc]
    have hid : byteAt m (q + 1) = m (c.p + 1) := by
      rw [byteAt, BitVec.ofNat_add, hc]
      rfl
    rw [hbyte] at hsize htype
    refine ⟨c', .round ((more_iff hfits hq hc).mpr hlt) hends, ?_, ?_⟩
    · rw [hismp, entry_ismp hsize]
    · rw [entry_proc htype] at hreg
      rw [hid]
      exact hreg.cons hg
  | @other q n l hlt htype hsize _ ih =>
    obtain ⟨c', hends, hismp, hreg⟩ := ih (hfits.entry (hmeets hlt) hsize)
      (.next (hmeets hlt) hsize) (entry_next hc hsize) (entry_ncpu_le hg)
    have hbyte : byteAt m q = m c.p := by rw [byteAt, hc]
    rw [hbyte] at hsize htype
    refine ⟨c', .round ((more_iff hfits hq hc).mpr hlt) hends, ?_, ?_⟩
    · rw [hismp, entry_ismp hsize]
    · obtain ⟨hncpu, hapicid⟩ := entry_other (m := m) htype
      refine ⟨?_, ?_, ?_⟩
      · rw [hreg.ncpu, hncpu]
      · rw [← hncpu, ← hapicid]
        exact hreg.old
      · rw [← hncpu]
        exact hreg.new

/-- The entries of a table all of whose types are known. -/
theorem exists_procs (hknown : ∀ q, Meets m conf q → entrySize (byteAt m q) ≠ none)
    (hq : q < tableEnd m conf → Meets m conf q) : ∃ l, Procs m conf q l := by
  -- every entry has a size, so that less of the table is left behind it
  induction hk : tableEnd m conf - q using Nat.strong_induction_on generalizing q with
  | _ k ih =>
    by_cases hlt : q < tableEnd m conf
    · obtain ⟨n, hn⟩ := Option.ne_none_iff_exists'.mp (hknown q (hq hlt))
      have hpos := (entrySize_bounds hn).1
      obtain ⟨l, hl⟩ := ih (tableEnd m conf - (q + n)) (by omega) (.next (hq hlt) hn) rfl
      by_cases hproc : byteAt m q = MPPROC
      · have hsize : n = MPPROCSIZE := by
          rw [hproc, entrySize_proc] at hn
          exact (Option.some.inj hn).symm
        rw [hsize] at hl
        exact ⟨_, .proc hlt hproc hl⟩
      · exact ⟨l, .other hlt hproc hn hl⟩
    · exact ⟨[], .done (by omega)⟩

/-- The walk over a table whose processors are known goes on from every entry it meets. -/
theorem procs_of_meets (h : Procs m conf (conf.toNat + MPCONF) l) (hq : Meets m conf q) :
    ∃ l, Procs m conf q l := by
  induction hq with
  | first => exact ⟨l, h⟩
  | @next q n hmeets hn _ ih =>
    obtain ⟨l', hl'⟩ := ih
    cases hl' with
    | done hend => exact absurd hmeets.lt (by omega)
    | proc _ htype hrest =>
      rw [htype, entrySize_proc] at hn
      rw [← Option.some.inj hn]
      exact ⟨_, hrest⟩
    | other _ _ hn' hrest =>
      rw [hn] at hn'
      rw [Option.some.inj hn']
      exact ⟨_, hrest⟩

theorem known_of_procs (h : Procs m conf (conf.toNat + MPCONF) l) (hq : Meets m conf q) :
    entrySize (byteAt m q) ≠ none := by
  obtain ⟨l', hl'⟩ := procs_of_meets h hq
  cases hl' with
  | done hend => exact absurd hq.lt (by omega)
  | proc _ htype _ =>
    rw [htype, entrySize_proc]
    exact Option.some_ne_none _
  | other _ _ hn _ =>
    rw [hn]
    exact Option.some_ne_none _

/-- The loop comes to every entry that it is said to meet. -/
theorem comes_of_meets (hfits : Fits m conf) (g : Globals) (h : Meets m conf q) :
    ∃ c, LoopComes (more m conf) (entry m) (start m conf g) c ∧ c.p = BitVec.ofNat 32 q := by
  induction h with
  | first => exact ⟨_, .here, start_p g⟩
  | @next q n hmeets hn hlt ih =>
    obtain ⟨c, hcomes, hc⟩ := ih
    have hmore := (more_iff hfits (hmeets.lt.trans hfits.table) hc).mpr hmeets.lt
    exact ⟨_, .round hcomes hmore, entry_next hc hn⟩

end Loop

section Init

variable {m : Memory} {mp conf : Addr}

/-- An entry of an unknown type keeps the loop running: `mpinit` neither returns nor panics. -/
theorem mpinit_running (hconf : mpconfig m = some (mp, conf)) (hfits : Fits m conf) {q : ℕ}
    (hmeets : Meets m conf q) (hq : entrySize (byteAt m q) = none) (k : ℕ) (g : Globals) :
    mpinit m k g = .error .running := by
  have hlt : q < 2 ^ 32 := hmeets.lt.trans hfits.table
  obtain ⟨c, hcomes, hc⟩ := comes_of_meets hfits g hmeets
  -- the pointer stays where it is
  have hstay : ∀ d : Cursor, d.p = BitVec.ofNat 32 q →
      more m conf d = true ∧ (entry m d).p = BitVec.ofNat 32 q := by
    intro d hd
    have hunknown : entrySize (m d.p) = none := by rwa [byteAt, ← hd] at hq
    refine ⟨(more_iff hfits hlt hd).mpr hmeets.lt, ?_⟩
    rw [entry_unknown hunknown]
    exact hd
  have hnone := hcomes.whileLoop_eq_none (whileLoop_eq_none hstay hc) k
  rw [mpinit, hconf]
  dsimp only
  rw [hnone]

/-- No more than `NCPU` processors are registered at any time, whatever is in the table. -/
theorem comes_ncpu_le {g : Globals} (hg : g.ncpu ≤ NCPU) {c : Cursor}
    (h : LoopComes (more m conf) (entry m) (start m conf g) c) : c.globals.ncpu ≤ NCPU :=
  h.invariant (I := fun c => c.globals.ncpu ≤ NCPU) hg fun _ ht _ => entry_ncpu_le ht

/-- What `mpinit` leaves behind for a table with the processors `l`. -/
theorem mpinit_of_procs (hconf : mpconfig m = some (mp, conf)) (hfits : Fits m conf)
    {l : List UInt8} (hl : Procs m conf (conf.toNat + MPCONF) l) {g : Globals}
    (hg : g.ncpu ≤ NCPU) :
    ∃ g' k, (∀ n ≥ k, mpinit m n g = .ok g') ∧ Registered g l g' := by
  obtain ⟨c, hends, hismp, hreg⟩ := ends_of_procs (c := start m conf g) hfits hl hfits.header
    .first (start_p g) hg
  obtain ⟨k, hk⟩ := hends.whileLoop
  have htrue : c.ismp = true := hismp
  by_cases himcr : field m mp 12 1 ≠ 0
  · refine ⟨{ c.globals with imcr := c.globals.imcr ||| 1 }, k, fun n hn => ?_, ?_⟩
    · rw [mpinit, hconf]
      dsimp only
      rw [hk n hn]
      dsimp only
      rw [htrue, if_neg (by decide), if_pos himcr]
    · exact ⟨hreg.ncpu, hreg.old, hreg.new⟩
  · refine ⟨c.globals, k, fun n hn => ?_, ⟨hreg.ncpu, hreg.old, hreg.new⟩⟩
    rw [mpinit, hconf]
    dsimp only
    rw [hk n hn]
    dsimp only
    rw [htrue, if_neg (by decide), if_neg himcr]

end Init

/-- `mpinit` returns with the first `NCPU` processors of the table registered in order, if and only
if the entries of the table all have known types. For every table, no more than `NCPU` are
registered at any time. -/
theorem mpinit_registers (m : Memory) (mp conf : Addr) (hconf : mpconfig m = some (mp, conf))
    (hfits : Fits m conf) (g : Globals) (hg : g.ncpu = 0) :
    (∀ c, LoopComes (more m conf) (entry m) (start m conf g) c → c.globals.ncpu ≤ NCPU) ∧
    ((∃ l g' k, Procs m conf (conf.toNat + MPCONF) l ∧ (∀ n ≥ k, mpinit m n g = .ok g') ∧
      g'.ncpu = min NCPU l.length ∧
      ∀ i : Fin NCPU, i.val < g'.ncpu → l[i.val]? = some (g'.apicid i)) ↔
      ∀ q, Meets m conf q → entrySize (byteAt m q) ≠ none) := by
  have hle : g.ncpu ≤ NCPU := by omega
  refine ⟨fun c hc => comes_ncpu_le hle hc, ?_, fun hknown => ?_⟩
  · rintro ⟨l, g', k, -, hret, -⟩ q hmeets hq
    have hrun := mpinit_running hconf hfits hmeets hq k g
    rw [hret k le_rfl] at hrun
    cases hrun
  obtain ⟨l, hl⟩ := exists_procs hknown .first
  obtain ⟨g', k, hk, hreg⟩ := mpinit_of_procs hconf hfits hl hle
  refine ⟨l, g', k, hl, hk, ?_, ?_⟩
  · rw [hreg.ncpu, hg, Nat.zero_add]
  · intro i hi
    have hnew := hreg.new i (by omega) hi
    rwa [hg] at hnew

/-- Low memory as the firmware leaves it: the floating structure in the extended data area, and a
table. -/
def firmware (table : List UInt8) : Memory := fun a =>
  if a = 0x8000040F then 1
  else if 0x80001000 ≤ a ∧ a < 0x80001010 then
    [0x5F, 0x4D, 0x50, 0x5F, 0x00, 0x20, 0, 0, 1, 4, 128, 0, 0, 0, 0, 0].getD
      (a - 0x80001000).toNat 0
  else if 0x80002000 ≤ a then table.getD (a - 0x80002000).toNat 0
  else 0

/-- The header of a table of version 1.4. -/
def header (length checksum : UInt8) : List UInt8 :=
  [0x50, 0x43, 0x4D, 0x50, length, 0, 4, checksum] ++ List.replicate 36 0

/-- A table of two processors and an I/O APIC. -/
def goodTable : List UInt8 :=
  header 92 91 ++ (0 :: 3 :: List.replicate 18 0) ++ (0 :: 7 :: List.replicate 18 0) ++
    [2, 9, 0, 0, 0, 0, 0, 0]

/-- A table with one entry, of type 5. -/
def badTable : List UInt8 := header 45 154 ++ [5]

/-- The kernel's variables before `mpinit`. -/
def boot : Globals where
  ncpu := 0
  apicid _ := 0
  ioapicid := 0
  lapic := 0
  imcr := 0

theorem mpconfig_good : mpconfig (firmware goodTable) = some (0x80001000, 0x80002000) := by
  decide +kernel

theorem procs_good : Procs (firmware goodTable) 0x80002000 (0x80002000 + MPCONF) [3, 7] :=
  .proc (by decide +kernel) (by decide +kernel) (.proc (by decide +kernel) (by decide +kernel)
    (.other (by decide +kernel) (by decide +kernel) (n := 8) (by decide +kernel)
      (.done (by decide +kernel))))

/-- The two processors of `goodTable` are registered. -/
theorem mpinit_registers_two :
    ∃ l g' k, Procs (firmware goodTable) 0x80002000 (0x80002000 + MPCONF) l ∧
      (∀ n ≥ k, mpinit (firmware goodTable) n boot = .ok g') ∧ g'.ncpu = min NCPU l.length ∧
      ∀ i : Fin NCPU, i.val < g'.ncpu → l[i.val]? = some (g'.apicid i) :=
  (mpinit_registers (firmware goodTable) 0x80001000 0x80002000 mpconfig_good
    (fits_of_le (by decide +kernel)) boot rfl).2.mpr fun _ hq => known_of_procs procs_good hq

/-- The kernel accepts `badTable`, and `mpinit` does not come to an end with it. -/
theorem mpinit_runs_on :
    mpconfig (firmware badTable) = some (0x80001000, 0x80002000) ∧
      ∀ k g, mpinit (firmware badTable) k g = .error .running := by
  have hconf : mpconfig (firmware badTable) = some (0x80001000, 0x80002000) := by decide +kernel
  exact ⟨hconf, mpinit_running hconf (fits_of_le (by decide +kernel)) (.first (by decide +kernel))
    (by decide +kernel)⟩

end Xv6.Mp
