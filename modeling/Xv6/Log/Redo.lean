import Xv6.Lib.Writes
import Xv6.Param

/-!
# The redo log: commit and recovery

`commit` copies the blocks of a transaction from the cache to the log, writes the log
header, installs the blocks at their home locations and clears the header;
`recover_from_log` redoes the installation after a reboot. Both are modelled as the
source runs them, through `bread` and `bwrite` on a machine that keeps the disk, the
valid cached buffers, the in-memory header and the sequence of disk writes issued so
far.
-/

namespace Xv6.Log

open Lib

/-- Where the log lies on disk: a header block at `start`, then the logged blocks. -/
structure LogArea where
  start : ℕ
  size : ℕ

/-- The block numbers that belong to the log. -/
def LogArea.Contains (L : LogArea) (b : ℕ) : Prop := L.start ≤ b ∧ b < L.start + L.size

instance (L : LogArea) (b : ℕ) : Decidable (L.Contains b) := inferInstanceAs (Decidable (_ ∧ _))

/-- The block numbers of a transaction, as `struct logheader` can hold them: at most
`LOGSIZE` entries, each a 32-bit number. -/
structure LogHeader where
  block : List ℕ
  length_le : block.length ≤ LOGSIZE
  block_lt : ∀ b ∈ block, b < 256 ^ 4

/-- The kernel state that `log.c` works on. `cache b` is the contents of a valid buffer
for block `b`; `issued` lists the disk writes so far, in order. -/
structure Machine where
  disk : Disk
  cache : ℕ → Option Block
  lh : List ℕ
  issued : List (ℕ × Block)

namespace Machine

/-- What `bread` would return for each block. -/
def view (m : Machine) : Disk := fun b => (m.cache b).getD (m.disk b)

/-- The machine after a reboot: no buffer is cached, no header is loaded. -/
def boot (d : Disk) : Machine := ⟨d, fun _ => none, [], []⟩

@[simp] theorem view_boot (d : Disk) : (boot d).view = d := rfl

@[simp] theorem disk_boot (d : Disk) : (boot d).disk = d := rfl

end Machine

/-! ### Buffer operations -/

/-- Return the contents of block `b`, reading it into the cache if needed. -/
def bread (m : Machine) (b : ℕ) : Block × Machine :=
  match m.cache b with
  | some data => (data, m)
  | none => (m.disk b, { m with cache := Function.update m.cache b (some (m.disk b)) })

/-- Write `data` through the buffer of block `b` to the disk. -/
def bwrite (m : Machine) (b : ℕ) (data : Block) : Machine :=
  { m with
    disk := Function.update m.disk b data
    cache := Function.update m.cache b (some data)
    issued := m.issued ++ [(b, data)] }

/-! ### The header block

`struct logheader` is an `int n` followed by `int block[LOGSIZE]`. -/

/-- The field `n` of a header block, a signed 32-bit integer. -/
def headN (hb : Block) : ℤ :=
  let v := hb.readLE 0 4
  if v < 2 ^ 31 then v else (v : ℤ) - 2 ^ 32

/-- Copy the in-memory header into a header block; entries past `n` keep their bytes. -/
def encodeHead (hb : Block) (lh : List ℕ) : Block :=
  (hb.writeLE 0 4 lh.length).writeWords 4 lh

/-- The block numbers a header block lists. -/
def decodeHead (hb : Block) : List ℕ :=
  (List.range (headN hb).toNat).map fun i => hb.readLE (4 + 4 * i) 4

/-! ### The routines of `log.c` -/

/-- Copy committed blocks from the log to their home locations. -/
def installFrom (L : LogArea) : ℕ → List ℕ → Machine → Machine
  | _, [], m => m
  | tail, b :: bs, m =>
    let (lbuf, m) := bread m (L.start + tail + 1)
    let (_, m) := bread m b
    installFrom L (tail + 1) bs (bwrite m b lbuf)

/-- `install_trans`: the loop over all entries of the in-memory header. -/
def installTrans (L : LogArea) (m : Machine) : Machine := installFrom L 0 m.lh m

/-- Read the log header from disk into the in-memory log header. -/
def readHead (L : LogArea) (m : Machine) : Machine :=
  let (buf, m) := bread m L.start
  { m with lh := decodeHead buf }

/-- Write the in-memory log header to disk. -/
def writeHead (L : LogArea) (m : Machine) : Machine :=
  let (buf, m) := bread m L.start
  bwrite m L.start (encodeHead buf m.lh)

/-- Redo a committed transaction, then clear the log. -/
def recoverFromLog (L : LogArea) (m : Machine) : Machine :=
  let m := readHead L m
  let m := installTrans L m
  let m := { m with lh := [] }
  writeHead L m

/-- Copy modified blocks from the cache to the log. -/
def writeLogFrom (L : LogArea) : ℕ → List ℕ → Machine → Machine
  | _, [], m => m
  | tail, b :: bs, m =>
    let (_, m) := bread m (L.start + tail + 1)
    let (fromBuf, m) := bread m b
    writeLogFrom L (tail + 1) bs (bwrite m (L.start + tail + 1) fromBuf)

/-- `write_log`: the loop over all entries of the in-memory header. -/
def writeLog (L : LogArea) (m : Machine) : Machine := writeLogFrom L 0 m.lh m

/-- Commit the transaction in the in-memory header. -/
def commit (L : LogArea) (m : Machine) : Machine :=
  if 0 < m.lh.length then
    let m := writeLog L m
    let m := writeHead L m  -- the real commit
    let m := installTrans L m
    let m := { m with lh := [] }
    writeHead L m
  else m

/-! ### Crashes -/

/-- The disk after a crash that let only the first `k` writes of `ws` reach it. -/
def crashAfter (d : Disk) (ws : List (ℕ × Block)) (k : ℕ) : Disk := applyWrites d (ws.take k)

/-- `Recovered L d d'`: rebooting on disk `d` and running recovery, crashed and restarted
any number of times before it completes, ends with disk `d'`. -/
inductive Recovered (L : LogArea) : Disk → Disk → Prop
  | complete (d : Disk) : Recovered L d (recoverFromLog L (.boot d)).disk
  | crash {d d' : Disk} (k : ℕ) :
      Recovered L (crashAfter d (recoverFromLog L (.boot d)).issued k) d' → Recovered L d d'

/-! ### What the buffer operations do -/

@[simp] theorem bread_fst (m : Machine) (b : ℕ) : (bread m b).1 = m.view b := by
  cases h : m.cache b <;> simp [bread, Machine.view, h]

@[simp] theorem bread_disk (m : Machine) (b : ℕ) : (bread m b).2.disk = m.disk := by
  cases h : m.cache b <;> simp [bread, h]

@[simp] theorem bread_lh (m : Machine) (b : ℕ) : (bread m b).2.lh = m.lh := by
  cases h : m.cache b <;> simp [bread, h]

@[simp] theorem bread_issued (m : Machine) (b : ℕ) : (bread m b).2.issued = m.issued := by
  cases h : m.cache b <;> simp [bread, h]

@[simp] theorem bread_view (m : Machine) (b : ℕ) : (bread m b).2.view = m.view := by
  cases h : m.cache b with
  | some data => simp [bread, h]
  | none =>
    funext c
    by_cases hc : c = b
    · subst hc; simp [bread, Machine.view, h]
    · simp [bread, Machine.view, h, Function.update_of_ne hc]

@[simp] theorem bwrite_view (m : Machine) (b : ℕ) (data : Block) :
    (bwrite m b data).view = Function.update m.view b data := by
  funext c
  by_cases hc : c = b
  · subst hc; simp [bwrite, Machine.view]
  · simp [bwrite, Machine.view, Function.update_of_ne hc]

/-- `Does m ws m'`: going from `m` to `m'` issued exactly the writes `ws`, and the disk
and the buffers received them. -/
structure Does (m : Machine) (ws : List (ℕ × Block)) (m' : Machine) : Prop where
  issued : m'.issued = m.issued ++ ws
  disk : m'.disk = applyWrites m.disk ws
  view : m'.view = applyWrites m.view ws

theorem Does.refl (m : Machine) : Does m [] m := ⟨by simp, rfl, rfl⟩

theorem Does.trans {m₁ m₂ m₃ : Machine} {ws vs : List (ℕ × Block)} (h₁ : Does m₁ ws m₂)
    (h₂ : Does m₂ vs m₃) : Does m₁ (ws ++ vs) m₃ where
  issued := by rw [h₂.issued, h₁.issued, List.append_assoc]
  disk := by rw [h₂.disk, h₁.disk, applyWrites_append]
  view := by rw [h₂.view, h₁.view, applyWrites_append]

theorem does_bread (m : Machine) (b : ℕ) : Does m [] (bread m b).2 :=
  ⟨by simp, by simp, by simp⟩

theorem does_bwrite (m : Machine) (b : ℕ) (data : Block) :
    Does m [(b, data)] (bwrite m b data) :=
  ⟨rfl, rfl, by simp⟩

theorem does_setLh (m : Machine) (lh : List ℕ) : Does m [] { m with lh := lh } :=
  ⟨by simp, rfl, rfl⟩

/-! ### The writes of each loop -/

/-- The writes of `write_log`, given the contents `v` of every block. -/
def logWrites (L : LogArea) (v : Disk) : ℕ → List ℕ → List (ℕ × Block)
  | _, [] => []
  | tail, b :: bs => (L.start + tail + 1, v b) :: logWrites L v (tail + 1) bs

/-- The writes of `install_trans`, given the contents `v` of every block. -/
def installWrites (L : LogArea) (v : Disk) : ℕ → List ℕ → List (ℕ × Block)
  | _, [] => []
  | tail, b :: bs => (b, v (L.start + tail + 1)) :: installWrites L v (tail + 1) bs

theorem logWrites_length (L : LogArea) (v : Disk) (tail : ℕ) (bs : List ℕ) :
    (logWrites L v tail bs).length = bs.length := by
  induction bs generalizing tail with
  | nil => rfl
  | cons b bs ih => simp [logWrites, ih]

@[simp] theorem installWrites_length (L : LogArea) (v : Disk) (tail : ℕ) (bs : List ℕ) :
    (installWrites L v tail bs).length = bs.length := by
  induction bs generalizing tail with
  | nil => rfl
  | cons b bs ih => simp [installWrites, ih]

@[simp] theorem installWrites_fst (L : LogArea) (v : Disk) (tail : ℕ) (bs : List ℕ) :
    (installWrites L v tail bs).map Prod.fst = bs := by
  induction bs generalizing tail with
  | nil => rfl
  | cons b bs ih => simp [installWrites, ih]

theorem mem_logWrites_fst {L : LogArea} {v : Disk} {tail : ℕ} {bs : List ℕ} {c : ℕ}
    (h : c ∈ (logWrites L v tail bs).map Prod.fst) :
    L.start + tail < c ∧ c ≤ L.start + tail + bs.length := by
  induction bs generalizing tail with
  | nil => simp [logWrites] at h
  | cons b bs ih =>
    simp only [logWrites, List.map_cons, List.mem_cons] at h
    rcases h with rfl | h
    · simp only [List.length_cons]; omega
    · have := ih h
      simp only [List.length_cons]; omega

/-- The log writes depend only on the listed blocks. -/
theorem logWrites_congr {L : LogArea} {v v' : Disk} {tail : ℕ} {bs : List ℕ}
    (h : ∀ b ∈ bs, v b = v' b) : logWrites L v tail bs = logWrites L v' tail bs := by
  induction bs generalizing tail with
  | nil => rfl
  | cons b bs ih =>
    rw [logWrites, logWrites, h b (by simp), ih fun c hc => h c (by simp [hc])]

/-- The installation writes depend only on the logged copies. -/
theorem installWrites_congr {L : LogArea} {v v' : Disk} {tail : ℕ} {bs : List ℕ}
    (h : ∀ i, tail ≤ i → i < tail + bs.length → v (L.start + i + 1) = v' (L.start + i + 1)) :
    installWrites L v tail bs = installWrites L v' tail bs := by
  induction bs generalizing tail with
  | nil => rfl
  | cons b bs ih =>
    simp only [List.length_cons] at h
    rw [installWrites, installWrites, h tail le_rfl (by omega),
      ih fun i hi hlt => h i (by omega) (by omega)]

theorem does_writeLogFrom {L : LogArea} (tail : ℕ) {bs : List ℕ} {m : Machine}
    (hout : ∀ b ∈ bs, ¬ L.Contains b) (hroom : tail + bs.length < L.size) :
    Does m (logWrites L m.view tail bs) (writeLogFrom L tail bs m) := by
  induction bs generalizing tail m with
  | nil => exact .refl m
  | cons b bs ih =>
    simp only [List.length_cons] at hroom
    set m₂ := (bread (bread m (L.start + tail + 1)).2 b).2 with hm₂
    have hread : Does m [] m₂ := (does_bread m _).trans (does_bread _ b)
    have hstep := hread.trans (does_bwrite m₂ (L.start + tail + 1) (m.view b))
    have hrest := ih (tail + 1) (m := bwrite m₂ (L.start + tail + 1) (m.view b))
      (fun c hc => hout c (by simp [hc])) (by omega)
    have hview : ∀ c ∈ bs, (bwrite m₂ (L.start + tail + 1) (m.view b)).view c = m.view c := by
      intro c hc
      have hne : c ≠ L.start + tail + 1 := by
        rintro rfl
        exact hout _ (List.mem_cons_of_mem _ hc) ⟨by omega, by omega⟩
      simp [hm₂, Function.update_of_ne hne]
    rw [logWrites_congr hview] at hrest
    have := hstep.trans hrest
    simpa [writeLogFrom, logWrites, hm₂] using this

theorem does_installFrom {L : LogArea} (tail : ℕ) {bs : List ℕ} {m : Machine}
    (hout : ∀ b ∈ bs, ¬ L.Contains b) (hroom : tail + bs.length < L.size) :
    Does m (installWrites L m.view tail bs) (installFrom L tail bs m) := by
  induction bs generalizing tail m with
  | nil => exact .refl m
  | cons b bs ih =>
    simp only [List.length_cons] at hroom
    set m₂ := (bread (bread m (L.start + tail + 1)).2 b).2 with hm₂
    set lbuf := m.view (L.start + tail + 1) with hlbuf
    have hread : Does m [] m₂ := (does_bread m _).trans (does_bread _ b)
    have hstep := hread.trans (does_bwrite m₂ b lbuf)
    have hrest := ih (tail + 1) (m := bwrite m₂ b lbuf)
      (fun c hc => hout c (by simp [hc])) (by omega)
    have hview : ∀ i, tail + 1 ≤ i → i < tail + 1 + bs.length →
        (bwrite m₂ b lbuf).view (L.start + i + 1) = m.view (L.start + i + 1) := by
      intro i _ hi
      have hne : L.start + i + 1 ≠ b := by
        rintro rfl
        exact hout (L.start + i + 1) (by simp) ⟨by omega, by omega⟩
      simp [hm₂, Function.update_of_ne hne]
    rw [installWrites_congr hview] at hrest
    have := hstep.trans hrest
    simpa [installFrom, installWrites, hm₂, hlbuf] using this

theorem does_writeHead (L : LogArea) (m : Machine) :
    Does m [(L.start, encodeHead (m.view L.start) m.lh)] (writeHead L m) := by
  have := (does_bread m L.start).trans (does_bwrite (bread m L.start).2 L.start
    (encodeHead (m.view L.start) m.lh))
  simpa [writeHead] using this

@[simp] theorem writeLogFrom_lh (L : LogArea) (tail : ℕ) (bs : List ℕ) (m : Machine) :
    (writeLogFrom L tail bs m).lh = m.lh := by
  induction bs generalizing tail m with
  | nil => rfl
  | cons b bs ih => simp [writeLogFrom, ih, bwrite]

@[simp] theorem writeHead_lh (L : LogArea) (m : Machine) : (writeHead L m).lh = m.lh := by
  simp [writeHead, bwrite]

/-! ### The header block round trip -/

theorem headN_encodeHead (hb : Block) {lh : List ℕ} (hlen : lh.length ≤ LOGSIZE) :
    headN (encodeHead hb lh) = lh.length := by
  have hread : (encodeHead hb lh).readLE 0 4 = lh.length := by
    rw [encodeHead, Bytes.readLE_writeWords_of_disjoint _ _ (by omega),
      Bytes.readLE_writeLE_self _ _ (by decide), Nat.mod_eq_of_lt]
    exact lt_of_le_of_lt hlen (by decide)
  have hlt : lh.length < 2 ^ 31 := lt_of_le_of_lt hlen (by decide)
  simp only [headN, hread, hlt, if_true]

/-- Reading back a header that was written gives its block list. -/
theorem decodeHead_encodeHead (hb : Block) {lh : List ℕ} (hlen : lh.length ≤ LOGSIZE)
    (hfit : ∀ b ∈ lh, b < 256 ^ 4) : decodeHead (encodeHead hb lh) = lh := by
  rw [decodeHead, headN_encodeHead hb hlen, Int.toNat_natCast]
  refine List.ext_getElem (by simp) fun j _ hj => ?_
  have hroom : 4 + 4 * lh.length ≤ BSIZE := by
    simp only [LOGSIZE, MAXOPBLOCKS] at hlen
    simp only [BSIZE]; omega
  have hread := Bytes.readLE_writeWords (hb.writeLE 0 4 lh.length) hroom hj
  rw [Nat.mod_eq_of_lt (hfit _ (List.getElem_mem hj))] at hread
  simpa [encodeHead] using hread

theorem decodeHead_of_headN {hb : Block} (h : headN hb = 0) : decodeHead hb = [] := by
  simp [decodeHead, h]

/-! ### The two kinds of disk a crash can leave -/

/-- The log is empty and every block outside the log is as in `X`. -/
structure Clean (L : LogArea) (X d : Disk) : Prop where
  head : headN (d L.start) = 0
  home : ∀ b, ¬ L.Contains b → d b = X b

/-- The log holds a committed transaction with blocks `lh` whose target contents are
those of `T`; blocks of `lh` may or may not be installed yet. -/
structure Logged (L : LogArea) (lh : List ℕ) (T d : Disk) : Prop where
  head : decodeHead (d L.start) = lh
  copies : ∀ i (hi : i < lh.length), d (L.start + i + 1) = T lh[i]
  home : ∀ b, ¬ L.Contains b → b ∉ lh → d b = T b

section Recovery

variable {L : LogArea} {lh : List ℕ} {T X d d' : Disk}

/-- Writing an empty header over a disk that is right outside the log cleans the log. -/
theorem clean_of_clear (hb : Block) (hhome : ∀ b, ¬ L.Contains b → d b = X b)
    (hsize : 0 < L.size) :
    Clean L X (Function.update d L.start (encodeHead hb [])) where
  head := by
    rw [Function.update_self]
    simpa using headN_encodeHead hb (List.length_nil.trans_le (Nat.zero_le _))
  home b hb' := by
    have hne : b ≠ L.start := by
      rintro rfl
      exact hb' ⟨le_rfl, by omega⟩
    rw [Function.update_of_ne hne, hhome b hb']

theorem mem_installWrites {T : Disk} {tail : ℕ} {bs : List ℕ} {d : Disk}
    (hcopies : ∀ i (hi : i < bs.length), d (L.start + (tail + i) + 1) = T bs[i])
    {b : ℕ} (hb : b ∈ bs) : (b, T b) ∈ installWrites L d tail bs := by
  induction bs generalizing tail with
  | nil => simp at hb
  | cons c bs ih =>
    rw [installWrites, List.mem_cons]
    rcases List.mem_cons.mp hb with rfl | hb
    · left
      have := hcopies 0 (by simp)
      simpa using this.symm
    · right
      refine ih (fun i hi => ?_) hb
      have := hcopies (i + 1) (by simpa using hi)
      simpa [Nat.add_assoc, Nat.add_comm 1 i] using this

/-- Installing a logged transaction completely puts every block at its target. -/
theorem Logged.installed_home (h : Logged L lh T d) (hnodup : lh.Nodup) {b : ℕ}
    (hb : ¬ L.Contains b) : applyWrites d (installWrites L d 0 lh) b = T b := by
  by_cases hmem : b ∈ lh
  · have hw : (b, T b) ∈ installWrites L d 0 lh :=
      mem_installWrites (fun i hi => by simpa using h.copies i hi) hmem
    simpa using applyWrites_of_mem (d := d) (by simpa using hnodup) hw
  · rw [applyWrites_of_notMem (by simpa using hmem), h.home b hb hmem]

/-- A partly installed transaction is still logged: installation never touches the log. -/
theorem Logged.installing (h : Logged L lh T d) (hout : ∀ b ∈ lh, ¬ L.Contains b)
    (hroom : lh.length < L.size) (k : ℕ) :
    Logged L lh T (applyWrites d ((installWrites L d 0 lh).take k)) := by
  have hfst : ∀ b, b ∈ ((installWrites L d 0 lh).take k).map Prod.fst → b ∈ lh := by
    intro b hb
    rw [← installWrites_fst L d 0 lh]
    rw [List.mem_map] at hb ⊢
    obtain ⟨w, hw, rfl⟩ := hb
    exact ⟨w, List.mem_of_mem_take hw, rfl⟩
  have hlog : ∀ c, L.Contains c →
      applyWrites d ((installWrites L d 0 lh).take k) c = d c := fun c hc =>
    applyWrites_of_notMem fun hmem => hout c (hfst c hmem) hc
  refine ⟨?_, fun i hi => ?_, fun b hb hmem => ?_⟩
  · rw [hlog _ ⟨le_rfl, by omega⟩, h.head]
  · rw [hlog _ ⟨by omega, by omega⟩, h.copies i hi]
  · rw [applyWrites_of_notMem fun hm => hmem (hfst b hm), h.home b hb hmem]

/-- Cutting "install, then clear the header" at any point leaves the transaction logged,
or installed with a clean log. -/
theorem Logged.crashAfter (h : Logged L lh T d) (hnodup : lh.Nodup)
    (hout : ∀ b ∈ lh, ¬ L.Contains b) (hroom : lh.length < L.size) (hb : Block) (k : ℕ) :
    Logged L lh T (crashAfter d (installWrites L d 0 lh ++ [(L.start, encodeHead hb [])]) k) ∨
      Clean L T (crashAfter d (installWrites L d 0 lh ++ [(L.start, encodeHead hb [])]) k) := by
  by_cases hk : k ≤ lh.length
  · left
    rw [Log.crashAfter, List.take_append_of_le_length (by simpa using hk)]
    exact h.installing hout hroom k
  · right
    rw [Log.crashAfter, List.take_of_length_le (by simp; omega), applyWrites_append]
    exact clean_of_clear hb (fun b hb => h.installed_home hnodup hb) (by omega)

/-- The writes recovery issues on a disk whose log lists `lh`. -/
theorem recoverFromLog_does (hhead : decodeHead (d L.start) = lh)
    (hout : ∀ b ∈ lh, ¬ L.Contains b) (hroom : lh.length < L.size) :
    ∃ hb, Does (.boot d) (installWrites L d 0 lh ++ [(L.start, encodeHead hb [])])
      (recoverFromLog L (.boot d)) := by
  set m₁ := readHead L (.boot d) with hm₁
  have hread : Does (.boot d) [] m₁ := by
    have := (does_bread (.boot d) L.start).trans (does_setLh _ (decodeHead (d L.start)))
    simpa [hm₁, readHead] using this
  have hlh : m₁.lh = lh := by simp [hm₁, readHead, hhead]
  have hview : m₁.view = d := by simpa using hread.view
  have hinstall := does_installFrom (m := m₁) 0 hout (by omega)
  rw [hview] at hinstall
  set m₂ := { installFrom L 0 lh m₁ with lh := [] } with hm₂
  refine ⟨m₂.view L.start, ?_⟩
  have := ((hread.trans hinstall).trans (does_setLh _ [])).trans (does_writeHead L m₂)
  simpa [recoverFromLog, installTrans, ← hm₁, hlh, hm₂] using this

/-- Recovery leaves a clean log clean, wherever it crashes. -/
theorem recovered_of_clean (hsize : 0 < L.size) (h : Clean L X d) (hrec : Recovered L d d') :
    Clean L X d' := by
  induction hrec with
  | complete d =>
    obtain ⟨hb, hdoes⟩ := recoverFromLog_does (decodeHead_of_headN h.head) (by simp) (by simpa)
    rw [hdoes.disk]
    simpa [installWrites] using clean_of_clear hb h.home hsize
  | @crash d d' k _ ih =>
    obtain ⟨hb, hdoes⟩ := recoverFromLog_does (decodeHead_of_headN h.head) (by simp) (by simpa)
    have hissued : (recoverFromLog L (.boot d)).issued = [(L.start, encodeHead hb [])] := by
      simpa [installWrites, Machine.boot] using hdoes.issued
    refine ih ?_
    rw [hissued]
    cases k with
    | zero => simpa [Log.crashAfter] using h
    | succ k => simpa [Log.crashAfter] using clean_of_clear hb h.home hsize

/-- Recovery completes a logged transaction, wherever it crashes. -/
theorem recovered_of_logged (hnodup : lh.Nodup) (hout : ∀ b ∈ lh, ¬ L.Contains b)
    (hroom : lh.length < L.size) (h : Logged L lh T d) (hrec : Recovered L d d') :
    Clean L T d' := by
  induction hrec with
  | complete d =>
    obtain ⟨hb, hdoes⟩ := recoverFromLog_does h.head hout hroom
    rw [hdoes.disk, applyWrites_append]
    exact clean_of_clear hb (fun b hb => h.installed_home hnodup hb) (by omega)
  | @crash d d' k hrest ih =>
    obtain ⟨hb, hdoes⟩ := recoverFromLog_does h.head hout hroom
    have hissued : (recoverFromLog L (.boot d)).issued =
        installWrites L d 0 lh ++ [(L.start, encodeHead hb [])] := by
      simpa [Machine.boot] using hdoes.issued
    rw [hissued] at ih hrest
    rcases h.crashAfter hnodup hout hroom hb k with hlogged | hclean
    · exact ih hlogged
    · exact recovered_of_clean (by omega) hclean hrest

end Recovery

/-! ### Crash atomicity of a commit -/

section Commit

variable {L : LogArea}

/-- The target of a transaction: its blocks take their cached contents. -/
def target (D : Disk) (blocks : List ℕ) (data : ℕ → Block) : Disk := fun b =>
  if b ∈ blocks then data b else D b

theorem logWrites_copies {L : LogArea} {v d : Disk} (tail : ℕ) {bs : List ℕ} {i : ℕ}
    (hi : i < bs.length) :
    applyWrites d (logWrites L v tail bs) (L.start + (tail + i) + 1) = v bs[i] := by
  induction bs generalizing tail i d with
  | nil => simp at hi
  | cons b bs ih =>
    rw [logWrites, applyWrites_cons]
    cases i with
    | zero =>
      rw [applyWrites_of_notMem fun hmem => by have := mem_logWrites_fst hmem; omega]
      simp
    | succ i =>
      have := ih (tail + 1) (i := i) (d := Function.update d (L.start + tail + 1) (v b))
        (by simpa using hi)
      simpa [Nat.add_assoc, Nat.add_comm 1 i] using this

/-- The exact sequence of writes of a nonempty commit, and the disk its first
`write_head` leaves. -/
theorem commit_issued {lh : LogHeader} {D : Disk} {cache : ℕ → Option Block} {data : ℕ → Block}
    (hpos : 0 < lh.block.length) (hroom : lh.block.length < L.size)
    (hout : ∀ b ∈ lh.block, ¬ L.Contains b)
    (hcached : ∀ b ∈ lh.block, cache b = some (data b)) :
    ∃ hb hb', Logged L lh.block (target D lh.block data)
        (applyWrites D (logWrites L data 0 lh.block ++ [(L.start, encodeHead hb lh.block)])) ∧
      (commit L ⟨D, cache, lh.block, []⟩).issued =
        (logWrites L data 0 lh.block ++ [(L.start, encodeHead hb lh.block)]) ++
          (installWrites L (applyWrites D
              (logWrites L data 0 lh.block ++ [(L.start, encodeHead hb lh.block)])) 0 lh.block ++
            [(L.start, encodeHead hb' [])]) := by
  set m : Machine := ⟨D, cache, lh.block, []⟩ with hm
  have hdata : ∀ b ∈ lh.block, m.view b = data b := fun b hb => by
    simp [hm, Machine.view, hcached b hb]
  -- `write_log`
  have hlog := does_writeLogFrom (m := m) 0 hout (by omega)
  rw [logWrites_congr hdata] at hlog
  set m₁ := writeLogFrom L 0 lh.block m with hm₁
  have hlh₁ : m₁.lh = lh.block := by simp [hm₁, hm]
  -- the first `write_head`
  have hhead := does_writeHead L m₁
  rw [hlh₁] at hhead
  set m₂ := writeHead L m₁ with hm₂
  set ws := logWrites L data 0 lh.block ++ [(L.start, encodeHead (m₁.view L.start) lh.block)]
    with hws
  have hdoes₂ : Does m ws m₂ := hlog.trans hhead
  have hcopies : ∀ (d : Disk) i, i < lh.block.length →
      applyWrites d ws (L.start + i + 1) =
        applyWrites d (logWrites L data 0 lh.block) (L.start + i + 1) := by
    intro d i _
    rw [hws, applyWrites_append, applyWrites_cons, applyWrites_nil,
      Function.update_of_ne (by omega)]
  refine ⟨m₁.view L.start, { installFrom L 0 lh.block m₂ with lh := [] }.view L.start, ?_, ?_⟩
  · refine ⟨?_, fun i hi => ?_, fun b hb hmem => ?_⟩
    · rw [applyWrites_append, applyWrites_cons, applyWrites_nil, Function.update_self,
        decodeHead_encodeHead _ lh.length_le lh.block_lt]
    · have := logWrites_copies (L := L) (v := data) (d := D) 0 hi
      rw [hcopies D i hi]
      simpa [target] using this
    · rw [target, if_neg hmem]
      refine applyWrites_of_notMem fun hw => ?_
      simp only [List.map_append, List.map_cons, List.map_nil, List.mem_append,
        List.mem_singleton] at hw
      rcases hw with hw | rfl
      · have := mem_logWrites_fst hw
        exact hb ⟨by omega, by omega⟩
      · exact hb ⟨le_rfl, by omega⟩
  -- `install_trans` reads the copies that `write_log` wrote
  · have hinstall := does_installFrom (m := m₂) 0 hout (by omega)
    have hview : ∀ i, 0 ≤ i → i < 0 + lh.block.length →
        m₂.view (L.start + i + 1) = applyWrites D ws (L.start + i + 1) := by
      intro i _ hi
      have hi' : i < lh.block.length := by omega
      have h₁ := logWrites_copies (L := L) (v := data) (d := m.view) 0 hi'
      have h₂ := logWrites_copies (L := L) (v := data) (d := D) 0 hi'
      rw [Nat.zero_add] at h₁ h₂
      rw [hdoes₂.view, hcopies _ i hi', hcopies _ i hi', h₁, h₂]
    rw [installWrites_congr hview] at hinstall
    have hall := ((hdoes₂.trans hinstall).trans (does_setLh _ [])).trans
      (does_writeHead L { installFrom L 0 lh.block m₂ with lh := [] })
    have hlh₂ : m₂.lh = lh.block := by rw [hm₂, writeHead_lh, hlh₁]
    have hcommit : commit L m = writeHead L { installFrom L 0 lh.block m₂ with lh := [] } := by
      have hmlh : m.lh = lh.block := rfl
      rw [commit, if_pos hpos]
      simp only [writeLog, installTrans, hmlh, ← hm₁, ← hm₂, hlh₂]
    rw [hcommit, hall.issued]
    simp [hm, hws]

/-- **Crash atomicity of the redo log.** Start from a disk whose log header has `n = 0`
and a header of pairwise distinct blocks outside the log that fits it, with any cached
contents. Crash the commit after any number `k` of its writes, reboot, and let recovery
run to completion through any number of crashes. The log ends empty, and outside the log
the disk is as before if the first header write (write number `n`) was lost, and has all
listed blocks replaced by their cached contents otherwise. -/
theorem commit_crash_recovered (lh : LogHeader) (D D' : Disk) (cache : ℕ → Option Block)
    (data : ℕ → Block) (k : ℕ) (hclean : headN (D L.start) = 0)
    (hroom : lh.block.length + 1 ≤ L.size)
    (hnodup : lh.block.Nodup) (hout : ∀ b ∈ lh.block, ¬ L.Contains b)
    (hcached : ∀ b ∈ lh.block, cache b = some (data b))
    (hrec : Recovered L (crashAfter D (commit L ⟨D, cache, lh.block, []⟩).issued k) D') :
    headN (D' L.start) = 0 ∧ ∀ b, ¬ L.Contains b →
      D' b = if lh.block.length < k then target D lh.block data b else D b := by
  have hD : Clean L D D := ⟨hclean, fun _ _ => rfl⟩
  rcases Nat.eq_zero_or_pos lh.block.length with hzero | hpos
  · -- an empty transaction writes nothing
    have hnil : lh.block = [] := List.length_eq_zero_iff.mp hzero
    have hcrash : crashAfter D (commit L ⟨D, cache, lh.block, []⟩).issued k = D := by
      simp [crashAfter, commit, hnil]
    rw [hcrash] at hrec
    have hres := recovered_of_clean (by omega) hD hrec
    refine ⟨hres.head, fun b hb => ?_⟩
    rw [hres.home b hb]
    simp [target, hnil]
  · obtain ⟨hb, hb', hlogged, hissued⟩ := commit_issued (D := D) hpos (by omega) hout hcached
    -- the writes up to the header: the commit point is the last of them
    set ws := logWrites L data 0 lh.block ++ [(L.start, encodeHead hb lh.block)] with hws
    have hwslen : ws.length = lh.block.length + 1 := by simp [hws, logWrites_length]
    rw [hissued] at hrec
    by_cases hk : lh.block.length < k
    · -- the header reached the disk: the transaction is logged or already installed
      simp only [hk, if_true]
      rw [crashAfter, List.take_append, applyWrites_append,
        List.take_of_length_le (l := ws) (by omega)] at hrec
      have hcut := hlogged.crashAfter hnodup hout (by omega) hb' (k - ws.length)
      have hres : Clean L (target D lh.block data) D' := by
        rcases hcut with h | h
        · exact recovered_of_logged hnodup hout (by omega) h hrec
        · exact recovered_of_clean (by omega) h hrec
      exact ⟨hres.head, hres.home⟩
    · -- only log blocks were written
      simp only [hk, if_false]
      have htake : (ws ++ (installWrites L (applyWrites D ws) 0 lh.block ++
          [(L.start, encodeHead hb' [])])).take k = (logWrites L data 0 lh.block).take k := by
        rw [List.take_append_of_le_length (by omega), hws,
          List.take_append_of_le_length (by rw [logWrites_length]; omega)]
      have hfst : ∀ b, b ∈ ((logWrites L data 0 lh.block).take k).map Prod.fst →
          L.start < b ∧ b ≤ L.start + lh.block.length := by
        intro b hb
        rw [List.mem_map] at hb
        obtain ⟨w, hw, rfl⟩ := hb
        have := mem_logWrites_fst (List.mem_map_of_mem (List.mem_of_mem_take hw))
        omega
      have hstill : Clean L D (applyWrites D ((logWrites L data 0 lh.block).take k)) := by
        refine ⟨?_, fun b hb => ?_⟩
        · rw [applyWrites_of_notMem fun hmem => by have := hfst _ hmem; omega, hclean]
        · refine applyWrites_of_notMem fun hmem => hb ?_
          have := hfst b hmem
          exact ⟨by omega, by omega⟩
      rw [crashAfter, htake] at hrec
      have hres := recovered_of_clean (by omega) hstill hrec
      exact ⟨hres.head, hres.home⟩

/-- A commit of block 70 that crashes right after its header write is completed by
recovery. -/
theorem commit_crash_recovered_after_header :
    let L : LogArea := ⟨2, 30⟩
    let D : Disk := fun _ => Bytes.zero BSIZE
    let data : ℕ → Block := fun _ _ => 1
    (recoverFromLog L (.boot (crashAfter D
      (commit L ⟨D, fun b => some (data b), [70], []⟩).issued 2))).disk 70 = data 70 := by
  intro L D data
  have h := commit_crash_recovered (L := L) ⟨[70], by decide, by decide⟩ D _
    (fun b => some (data b)) data 2 (by simp [headN, D]) (by decide) (by decide)
    (by simp [L, LogArea.Contains]) (fun _ _ => rfl) (.complete _)
  have h70 := h.2 70 (by simp [L, LogArea.Contains])
  simpa [target] using h70

end Commit

end Xv6.Log
