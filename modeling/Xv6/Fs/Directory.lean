import Mathlib.Data.List.TakeWhile
import Xv6.Fs.NameCalls
import Xv6.Lib.Table

/-!
# Directories as finite maps

The entries of a directory are a table with names as keys and inode numbers as values. Where no name
stands in two entries, `dirlookup` computes the function that the table stands for, `dirlink` adds
one name to it, in the first entry that is not in use, and the write of zeros in `sys_unlink`
removes one. `dirlink` of a name that is there gives the inode back with `iput`, which waits for its
lock: if the name is one for the directory itself the wait never ends. -/

namespace Xv6.Fs

open Lib

/-! ### The table of entries -/

/-- The entries in use, with their names and inode numbers. -/
def slots (c : List UInt8) : Table (List UInt8) ℕ := fun k =>
  if k < entCount c ∧ entInum c k ≠ 0 then some (entName c k, entInum c k) else none

/-- No two entries in use have the same name. -/
def UniqueNames (c : List UInt8) : Prop :=
  ∀ i < entCount c, ∀ j < entCount c, entInum c i ≠ 0 → entInum c j ≠ 0 →
    entName c i = entName c j → i = j

instance (c : List UInt8) : Decidable (UniqueNames c) :=
  @Nat.decidableBallLT _ _ fun _ _ => inferInstance

/-- The inode number that the directory has for a name. -/
def dirMap (c x : List UInt8) : Option ℕ := (findName c x).map (entInum c)

/-- The first entry that is not in use, or the end of the directory. -/
def freeSlot (c : List UInt8) : ℕ :=
  (firstFrom (fun k => entInum c k = 0) (entCount c) 0).getD (entCount c)

section Table

variable {c b x : List UInt8} {i j k m : ℕ}

theorem slots_eq_some_iff : slots c k = some (x, m) ↔
    k < entCount c ∧ m ≠ 0 ∧ entInum c k = m ∧ entName c k = x := by
  unfold slots
  split_ifs with hk
  · rw [Option.some.injEq, Prod.mk.injEq]
    constructor
    · rintro ⟨rfl, rfl⟩
      exact ⟨hk.1, hk.2, rfl, rfl⟩
    · rintro ⟨-, -, rfl, rfl⟩
      exact ⟨rfl, rfl⟩
  · refine ⟨nofun, ?_⟩
    rintro ⟨hlt, hm, rfl, -⟩
    exact absurd ⟨hlt, hm⟩ hk

theorem uniqueNames_iff : UniqueNames c ↔ (slots c).Unique := by
  constructor
  · intro h i j x v w hi hj
    obtain ⟨hi', hv, rfl, rfl⟩ := slots_eq_some_iff.mp hi
    obtain ⟨hj', hw, rfl, hname⟩ := slots_eq_some_iff.mp hj
    exact h i hi' j hj' hv hw hname.symm
  · intro h i hi j hj hv hw hname
    exact h i j (entName c i) (entInum c i) (entInum c j) (slots_eq_some_iff.mpr ⟨hi, hv, rfl, rfl⟩)
      (slots_eq_some_iff.mpr ⟨hj, hw, rfl, hname.symm⟩)

theorem isMap_dirMap (h : UniqueNames c) : (slots c).IsMap (dirMap c) := by
  intro x m
  rw [dirMap, Option.map_eq_some_iff]
  constructor
  · rintro ⟨k, hk, rfl⟩
    obtain ⟨hlt, hne, hname, -⟩ := findName_eq_some_iff.mp hk
    exact ⟨k, slots_eq_some_iff.mpr ⟨hlt, hne, rfl, hname⟩⟩
  · rintro ⟨k, hk⟩
    obtain ⟨hlt, hne, rfl, rfl⟩ := slots_eq_some_iff.mp hk
    refine ⟨k, findName_eq_some_iff.mpr ⟨hlt, hne, rfl, fun j hj hinum hname => ?_⟩, rfl⟩
    exact hj.ne (h j (hj.trans hlt) k hlt hinum hne hname)

theorem dirMap_eq_none_iff : dirMap c x = none ↔ findName c x = none := Option.map_eq_none_iff

theorem freeSlot_le (c : List UInt8) : freeSlot c ≤ entCount c := by
  unfold freeSlot
  cases h : firstFrom (fun k => decide (entInum c k = 0)) (entCount c) 0 with
  | none => exact le_rfl
  | some j =>
    obtain ⟨-, hj, -⟩ := firstFrom_eq_some_iff.mp h
    exact (Nat.zero_add _ ▸ hj).le

/-- The entries in front of the first free one are in use. -/
theorem eq_freeSlot (hused : ∀ k < j, entInum c k ≠ 0)
    (hj : j < entCount c ∧ entInum c j = 0 ∨ j = entCount c) : j = freeSlot c := by
  unfold freeSlot
  rcases hj with ⟨hlt, hzero⟩ | rfl
  · have : firstFrom (fun k => decide (entInum c k = 0)) (entCount c) 0 = some j := by
      rw [firstFrom_eq_some_iff]
      exact ⟨Nat.zero_le _, by omega, decide_eq_true hzero,
        fun k _ hk => decide_eq_false (hused k hk)⟩
    rw [this]
    rfl
  · have : firstFrom (fun k => decide (entInum c k = 0)) (entCount c) 0 = none := by
      rw [firstFrom_eq_none_iff]
      exact fun k _ hk => decide_eq_false (hused k (by omega))
    rw [this]
    rfl

theorem freeSlot_spec (c : List UInt8) : (∀ k < freeSlot c, entInum c k ≠ 0) ∧
    (freeSlot c < entCount c → entInum c (freeSlot c) = 0) := by
  unfold freeSlot
  cases h : firstFrom (fun k => decide (entInum c k = 0)) (entCount c) 0 with
  | none =>
    rw [firstFrom_eq_none_iff] at h
    refine ⟨fun k hk => ?_, fun hlt => absurd hlt (Nat.lt_irrefl _)⟩
    exact of_decide_eq_false (h k (Nat.zero_le k) (by simpa using hk))
  | some j =>
    obtain ⟨-, -, hzero, hused⟩ := firstFrom_eq_some_iff.mp h
    exact ⟨fun k hk => of_decide_eq_false (hused k (Nat.zero_le k) hk),
      fun _ => of_decide_eq_true hzero⟩

theorem slots_freeSlot (c : List UInt8) : slots c (freeSlot c) = none := by
  unfold slots
  rw [if_neg]
  rintro ⟨hlt, hne⟩
  exact hne ((freeSlot_spec c).2 hlt)

/-- Writing one entry. -/
theorem slots_overwrite (hwhole : DIRENT ∣ c.length) (hj : j ≤ entCount c)
    (hb : b.length = DIRENT) :
    slots (overwrite c (DIRENT * j) b) = Function.update (slots c) j
      (if direntInum b ≠ 0 then some (cname (direntName b), direntInum b) else none) := by
  have hoff : DIRENT * j ≤ c.length := by
    rw [entCount] at hj
    simp only [DIRENT_eq] at *
    omega
  have hcount : entCount (overwrite c (DIRENT * j) b) = max (entCount c) (j + 1) := by
    obtain ⟨q, hq⟩ := hwhole
    rw [entCount, entCount, overwrite_length hoff, hb]
    simp only [DIRENT_eq] at *
    omega
  funext k
  rw [slots, hcount, entInum, entName, direntAt_overwrite hoff hb]
  by_cases hk : k = j
  · subst hk
    rw [if_pos rfl, Function.update_self]
    simp
  · rw [if_neg hk, Function.update_of_ne hk, slots]
    have : k < max (entCount c) (j + 1) ↔ k < entCount c := by omega
    simp only [this]
    rfl

theorem length_overwrite_dvd (hwhole : DIRENT ∣ c.length) (hj : j ≤ entCount c)
    (hb : b.length = DIRENT) : DIRENT ∣ (overwrite c (DIRENT * j) b).length := by
  obtain ⟨q, hq⟩ := hwhole
  have hoff : DIRENT * j ≤ c.length := by
    rw [entCount] at hj
    simp only [DIRENT_eq] at *
    omega
  rw [overwrite_length hoff, hb]
  refine ⟨max q (j + 1), ?_⟩
  simp only [DIRENT_eq] at *
  omega

theorem cname_eq_take (hx : 0 ∉ x) : cname x = x.take DIRSIZ := by
  rw [cname, List.takeWhile_eq_self_iff]
  intro a ha
  rw [decide_eq_true_iff]
  rintro rfl
  exact hx (List.mem_of_mem_take ha)

/-- A new entry adds its name to the map. -/
theorem dirMap_link (hwhole : DIRENT ∣ c.length) (hunique : UniqueNames c)
    (hnone : findName c (cname x) = none) (hi : 0 < i) (hi' : i < 2 ^ 16) :
    UniqueNames (overwrite c (DIRENT * freeSlot c) (direntBytes i x)) ∧
      dirMap (overwrite c (DIRENT * freeSlot c) (direntBytes i x)) =
        Function.update (dirMap c) (cname x) (some i) := by
  have hslots := slots_overwrite hwhole (freeSlot_le c) (direntBytes_length i x)
  rw [direntInum_direntBytes hi', if_pos hi.ne', direntName_direntBytes] at hslots
  have hnew := (isMap_dirMap hunique).eq_none_iff.mp (dirMap_eq_none_iff.mpr hnone)
  have hunique' : UniqueNames (overwrite c (DIRENT * freeSlot c) (direntBytes i x)) := by
    rw [uniqueNames_iff, hslots]
    exact (uniqueNames_iff.mp hunique).insert hnew
  refine ⟨hunique', (isMap_dirMap hunique').ext ?_⟩
  rw [hslots]
  exact (isMap_dirMap hunique).insert (slots_freeSlot c) hnew

/-- Zeros in an entry remove its name from the map. -/
theorem dirMap_erase (hwhole : DIRENT ∣ c.length) (hunique : UniqueNames c)
    (hk : findName c x = some k) :
    UniqueNames (overwrite c (DIRENT * k) (List.replicate DIRENT 0)) ∧
      dirMap (overwrite c (DIRENT * k) (List.replicate DIRENT 0)) =
        Function.update (dirMap c) x none := by
  obtain ⟨hlt, hne, hname, -⟩ := findName_eq_some_iff.mp hk
  have hslots := slots_overwrite hwhole hlt.le (List.length_replicate (n := DIRENT) (a := 0))
  have hzero : direntInum (List.replicate DIRENT 0) = 0 := by decide
  rw [if_neg (not_not.mpr hzero)] at hslots
  have hunique' : UniqueNames (overwrite c (DIRENT * k) (List.replicate DIRENT 0)) := by
    rw [uniqueNames_iff, hslots]
    exact (uniqueNames_iff.mp hunique).erase
  refine ⟨hunique', (isMap_dirMap hunique').ext ?_⟩
  rw [hslots]
  exact (isMap_dirMap hunique).erase (uniqueNames_iff.mp hunique)
    (slots_eq_some_iff.mpr ⟨hlt, hne, rfl, hname⟩)

end Table

/-! ### The operations -/

/-- The directory with inode number `n`, locked through the entry `dp` of the cache, has the
contents `c`. -/
structure DirAt (sb : SuperBlock) (dp : Ip) (n : ℕ) (c : List UInt8) (s : Ic) : Prop where
  layout : sb.Ok
  sound : Sound sb s.disk
  ref : 0 < (s.icache dp).ref
  lock : (s.icache dp).lock = true
  valid : (s.icache dp).valid = true
  inum : (s.icache dp).inum = n
  lt : n < sb.ninodes
  sync : (s.icache dp).din = getDinode sb s.disk n
  dir : (getDinode sb s.disk n).type = T_DIR
  contents_eq : contents s.disk (getDinode sb s.disk n) = c

section Operations

variable {e : Env} {dp ip : Ip} {n : ℕ} {c x : List UInt8} {s s' : Ic}

theorem DirAt.view (h : DirAt e.sb dp n c s) : DirView e dp c s :=
  h.contents_eq ▸ .of_record h.layout h.sound h.lt h.sync h.dir

theorem DirAt.size_eq {sb : SuperBlock} (h : DirAt sb dp n c s) :
    (getDinode sb s.disk n).size = c.length := by
  rw [← h.contents_eq, contents_length]

theorem DirAt.type_ne {sb : SuperBlock} (h : DirAt sb dp n c s) :
    (getDinode sb s.disk n).type ≠ 0 ∧ (getDinode sb s.disk n).type ≠ T_DEV := by
  rw [h.dir]
  decide

/-- Another entry of the cache changes, or the references to the directory. -/
theorem DirAt.set {sb : SuperBlock} (h : DirAt sb dp n c s) {i : Inode}
    (hi : ip = dp → i = { s.icache dp with ref := i.ref } ∧ 0 < i.ref) :
    DirAt sb dp n c (s.set ip i) := by
  by_cases hip : ip = dp
  · subst hip
    obtain ⟨hi, hpos⟩ := hi rfl
    refine ⟨h.layout, h.sound, ?_, ?_, ?_, ?_, h.lt, ?_, h.dir, h.contents_eq⟩
    all_goals rw [Ic.set_icache_self, hi]
    · exact hpos
    · exact h.lock
    · exact h.valid
    · exact h.inum
    · exact h.sync
  · refine ⟨h.layout, h.sound, ?_, ?_, ?_, ?_, h.lt, ?_, h.dir, h.contents_eq⟩
    all_goals rw [Ic.set_icache_of_ne _ _ (Ne.symm hip)]
    · exact h.ref
    · exact h.lock
    · exact h.valid
    · exact h.inum
    · exact h.sync

/-- The inode has an entry in the cache, or there is one left. -/
def Gets (s : Ic) (m : ℕ) : Prop :=
  (∃ ip, 0 < (s.icache ip).ref ∧ (s.icache ip).inum = m) ∨ ∃ ip, (s.icache ip).ref = 0

/-- No process has the inode locked. -/
def Unlocked (s : Ic) (m : ℕ) : Prop :=
  ∀ ip, 0 < (s.icache ip).ref → (s.icache ip).inum = m → (s.icache ip).lock = false

/-- What `iget` and `ilock` see to: an inode has one entry, and a lock needs a reference. -/
structure Tidy (s : Ic) : Prop where
  unlocked : ∀ ip, (s.icache ip).ref = 0 → (s.icache ip).lock = false
  unique : ∀ ip jp, 0 < (s.icache ip).ref → 0 < (s.icache jp).ref →
    (s.icache ip).inum = (s.icache jp).inum → ip = jp

/-- The references and locks are those of `s`. -/
def SameRefs (s s' : Ic) : Prop := ∀ ip, (s'.icache ip).ref = (s.icache ip).ref ∧
  (s'.icache ip).lock = (s.icache ip).lock ∧
  (0 < (s.icache ip).ref → (s'.icache ip).inum = (s.icache ip).inum)

theorem SameRefs.gets {m : ℕ} (h : SameRefs s s') : Gets s' m ↔ Gets s m := by
  unfold Gets
  refine or_congr (exists_congr fun ip => ?_) (exists_congr fun ip => by rw [(h ip).1])
  rw [(h ip).1]
  exact and_congr_right fun hpos => by rw [(h ip).2.2 hpos]

theorem SameRefs.tidy (h : SameRefs s s') (hs : Tidy s) : Tidy s' := by
  refine ⟨fun ip hip => ?_, fun ip jp hip hjp => ?_⟩
  · rw [(h ip).2.1]
    exact hs.unlocked ip ((h ip).1 ▸ hip)
  · rw [(h ip).1] at hip
    rw [(h jp).1] at hjp
    rw [(h ip).2.2 hip, (h jp).2.2 hjp]
    exact hs.unique ip jp hip hjp

/-- Another reference to some inode, with the directory as it was. -/
theorem DirAt.iget (h : DirAt e.sb dp n c s) (m : ℕ) :
    Wp (iget m) s (fun ip s' => Gets s m ∧ DirAt e.sb dp n c s' ∧ (s'.icache ip).inum = m)
      fun _ => ¬ Gets s m := by
  refine (wp_iget m s).mono ?_ ?_
  · rintro ip s' (⟨hpos, hinum, rfl⟩ | ⟨hzero, -, rfl⟩)
    · refine ⟨.inl ⟨ip, hpos, hinum⟩, h.set ?_, by rw [Ic.set_icache_self, hinum]⟩
      rintro rfl
      exact ⟨rfl, Nat.succ_pos _⟩
    · refine ⟨.inr ⟨ip, hzero⟩, h.set ?_, by rw [Ic.set_icache_self]⟩
      rintro rfl
      exact absurd hzero h.ref.ne'
  · rintro err ⟨-, hfull, hmiss⟩ (⟨ip, -, hinum⟩ | ⟨ip, hzero⟩)
    · exact hmiss ip hinum
    · exact (hfull ip).ne' hzero

/-- Looking up a name. -/
theorem DirAt.dirlookup (h : DirAt e.sb dp n c s) (hwhole : DIRENT ∣ c.length)
    (name : List UInt8) :
    Wp (dirlookup e dp name) s
      (fun r s' => (∀ m, dirMap c (cname name) = some m → Gets s m) ∧ DirAt e.sb dp n c s' ∧
        match r with
        | none => findName c (cname name) = none
        | some (ip, off) => ∃ k, findName c (cname name) = some k ∧ off = DIRENT * k ∧
          (s'.icache ip).inum = entInum c k)
      fun _ => ¬ ∀ m, dirMap c (cname name) = some m → Gets s m := by
  refine h.view.dirlookup name ?_ fun hragged => absurd hwhole hragged
  unfold dirMap
  cases hfind : findName c (cname name) with
  | none => exact ⟨nofun, h, rfl⟩
  | some k =>
    refine (h.iget (entInum c k)).mono ?_ fun _ hno hall => hno (hall _ rfl)
    rintro ip s' ⟨hgets, hs', hinum⟩
    exact ⟨fun m hm => Option.some.inj hm ▸ hgets, hs', k, rfl, rfl, hinum⟩

/-- Dropping a reference that is not the last one, or one to an inode that has not been read. -/
theorem wp_iput_keep (hkeep : (s.icache ip).valid = true → (s.icache ip).ref ≠ 1)
    {Q : Unit → Ic → Prop} {E : Fault → Prop} : Wp (iput e ip) s Q E ↔
      if (s.icache ip).lock then E .hang
      else Q () (s.set ip { s.icache ip with ref := (s.icache ip).ref - 1 }) := by
  unfold iput ifree
  rw [Wp.bind_iff, wp_inode]
  split_ifs with hlock
  · exact Iff.rfl
  · rw [Wp.bind_iff, wp_modifyInode, Wp.bind_iff, Wp.bind_iff, wp_inode, Ic.set_icache_self,
      if_neg fun hfree => hkeep hfree.1 hfree.2.2, Wp.pure_iff, Wp.bind_iff, wp_modifyInode,
      wp_modifyInode]
    have hlock : (s.icache ip).lock = false := by simpa using hlock
    simp only [Ic.set_icache_self, Ic.set_set, ← hlock]

/-- A name that has an entry: the reference that `dirlookup` took is given back, which waits for the
lock. -/
theorem DirAt.dirlink_found (h : DirAt e.sb dp n c s) (hwhole : DIRENT ∣ c.length) (htidy : Tidy s)
    {k : ℕ} (hk : findName c (cname x) = some k) (i : ℕ) :
    Wp (dirlink e dp x i) s
      (fun r s' => (Gets s (entInum c k) ∧ Unlocked s (entInum c k)) ∧ r = false ∧
        DirAt e.sb dp n c s' ∧ SameRefs s s')
      fun _ => ¬ (Gets s (entInum c k) ∧ Unlocked s (entInum c k)) := by
  unfold dirlink
  rw [Wp.bind_iff]
  refine h.view.dirlookup x ?_ fun hragged => absurd hwhole hragged
  rw [hk]
  refine (wp_iget (entInum c k) s).mono ?_ ?_
  · rintro ip s' (⟨hpos, hinum, rfl⟩ | ⟨hzero, hmiss, rfl⟩)
    · -- the inode had a reference before, and has the same number again
      have hback : (s.set ip { s.icache ip with ref := (s.icache ip).ref + 1 }).set ip
          { s.icache ip with ref := (s.icache ip).ref + 1 - 1 } = s := by
        rw [Ic.set_set, Nat.add_sub_cancel]
        exact Ic.set_eq_self s ip
      rw [Wp.bind_iff, wp_iput_keep (by rw [Ic.set_icache_self]; intro _; dsimp only; omega),
        Ic.set_icache_self]
      dsimp only
      split_ifs with hlock
      · intro hcond
        rw [hcond.2 ip hpos hinum] at hlock
        cases hlock
      · rw [hback]
        refine ⟨⟨.inl ⟨ip, hpos, hinum⟩, fun jp hjp hjn => ?_⟩, rfl, h,
          fun _ => ⟨rfl, rfl, fun _ => rfl⟩⟩
        obtain rfl := htidy.unique jp ip hjp hpos (hjn.trans hinum.symm)
        simpa using hlock
    · -- the inode was not in the cache, and its entry is free again
      rw [Wp.bind_iff, wp_iput_keep (by rw [Ic.set_icache_self]; exact nofun), Ic.set_icache_self]
      dsimp only
      rw [htidy.unlocked ip hzero, if_neg (by decide), Ic.set_set]
      refine ⟨⟨.inr ⟨ip, hzero⟩, fun jp hjp hjn => absurd hjn (hmiss jp hjp)⟩, rfl, h.set ?_,
        fun jp => ?_⟩
      · rintro rfl
        exact absurd hzero h.ref.ne'
      · by_cases hjp : jp = ip
        · rw [hjp, Ic.set_icache_self]
          exact ⟨hzero.symm, (htidy.unlocked ip hzero).symm, fun hpos => absurd hzero hpos.ne'⟩
        · rw [Ic.set_icache_of_ne _ _ hjp]
          exact ⟨rfl, rfl, fun _ => rfl⟩
  · rintro err ⟨-, hfull, hmiss⟩ ⟨⟨ip, -, hinum⟩ | ⟨ip, hzero⟩, -⟩
    · exact hmiss ip hinum
    · exact (hfull ip).ne' hzero

/-- A write that the largest file has room for. It returns if and only if the disk has room too. -/
theorem DirAt.writei (h : DirAt e.sb dp n c s) {b : List UInt8} {off : ℕ} (hoff : off ≤ c.length)
    (hmax : off + b.length ≤ MAXFILE * BSIZE) :
    Wp (onInode dp fun i => writei e i.inum i.din b off) s
      (fun r s' => Room e.sb s.disk n off b.length ∧ r = some b.length ∧
        DirAt e.sb dp n (overwrite c off b) s' ∧ SameRefs s s')
      fun _ => ¬ Room e.sb s.disk n off b.length := by
  have hrej : ¬ WriteRejected (getDinode e.sb s.disk n) off b.length := by
    have : MAXFILE * BSIZE < 2 ^ 32 := by decide
    unfold WriteRejected
    rw [h.size_eq]
    omega
  rw [wp_onInode, h.inum, h.sync]
  refine ((writei_spec h.layout h.sound h.lt h.type_ne.1 h.type_ne.2 hrej).and
    (writei_wrote h.layout h.sound h.lt h.type_ne.1 h.type_ne.2 hrej)).mono ?_ ?_
  · rintro ⟨r, din⟩ d' ⟨⟨rfl, hw⟩, -, _, _, hwrote, -⟩
    refine ⟨Nat.le.intro (Nat.add_comm .. ▸ hwrote.free), rfl,
      ⟨h.layout, hw.sound, ?_, ?_, ?_, ?_, h.lt, ?_, ?_, ?_⟩, fun ip => ?_⟩
    · rw [Ic.set_icache_self]
      exact h.ref
    · rw [Ic.set_icache_self]
      exact h.lock
    · rw [Ic.set_icache_self]
      exact h.valid
    · rw [Ic.set_icache_self]
      exact h.inum
    · rw [Ic.set_icache_self]
      exact hw.record.symm
    · rw [Ic.set_disk, hw.record, hw.head]
      exact h.dir
    · rw [Ic.set_disk, hw.record, hw.contents_eq, h.contents_eq]
      rfl
    · by_cases hip : ip = dp
      · rw [hip, Ic.set_icache_self]
        exact ⟨rfl, rfl, fun _ => rfl⟩
      · rw [Ic.set_icache_of_ne _ _ hip]
        exact ⟨rfl, rfl, fun _ => rfl⟩
  · rintro err ⟨⟨-, hfew⟩, -⟩
    exact Nat.not_le.mpr hfew

theorem mul_freeSlot_le (c : List UInt8) : DIRENT * freeSlot c ≤ c.length := by
  have := freeSlot_le c
  rw [entCount] at this
  simp only [DIRENT_eq] at *
  omega

/-- A name that has no entry: it gets the first one that is free. -/
theorem DirAt.dirlink_new (h : DirAt e.sb dp n c s) (hwhole : DIRENT ∣ c.length)
    (hnone : findName c (cname x) = none)
    (hmax : DIRENT * freeSlot c + DIRENT ≤ MAXFILE * BSIZE) (i : ℕ) :
    Wp (dirlink e dp x i) s
      (fun r s' => Room e.sb s.disk n (DIRENT * freeSlot c) DIRENT ∧ r = true ∧
        DirAt e.sb dp n (overwrite c (DIRENT * freeSlot c) (direntBytes i x)) s' ∧ SameRefs s s')
      fun _ => ¬ Room e.sb s.disk n (DIRENT * freeSlot c) DIRENT := by
  have hlen := direntBytes_length i x
  unfold dirlink
  rw [Wp.bind_iff]
  refine h.view.dirlookup x ?_ fun hragged => absurd hwhole hragged
  rw [hnone, Wp.bind_iff, wp_inode, h.view.size]
  refine ((h.view.emptyLoop (i := 0) le_rfl (Nat.zero_le _) nofun).mono (fun _ _ => id)
    fun _ herr => absurd hwhole herr.2).bind ?_
  rintro off s₁ ⟨rfl, j, rfl, hused, hj⟩
  obtain rfl : j = freeSlot c := by
    refine eq_freeSlot hused (hj.imp_right fun hend => ?_)
    rw [entCount, ← hend, Nat.mul_div_cancel_left _ (by decide)]
  have hwrite := h.writei (mul_freeSlot_le c) (b := direntBytes i x) (by rwa [hlen])
  rw [hlen] at hwrite
  refine hwrite.bind ?_
  rintro r s₂ ⟨hroom, rfl, hs₂, hrefs⟩
  rw [if_pos rfl]
  exact ⟨hroom, rfl, hs₂, hrefs⟩

/-- A range of the directory has its blocks. -/
theorem DirAt.room (h : DirAt e.sb dp n c s) {off len : ℕ} (hin : off + len ≤ c.length) :
    Room e.sb s.disk n off len := by
  rw [Room, h.sound.missingIn_eq_empty h.lt h.type_ne.1 (by rwa [h.size_eq]), Finset.card_empty]
  exact Nat.zero_le _

/-- Clearing an entry, as `sys_unlink` does. -/
theorem DirAt.erase (h : DirAt e.sb dp n c s) {j : ℕ} (hj : j < entCount c) :
    Wp (onInode dp fun i => Fs.writei e i.inum i.din (List.replicate DIRENT 0) (DIRENT * j)) s
      (fun r s' => r = some DIRENT ∧
        DirAt e.sb dp n (overwrite c (DIRENT * j) (List.replicate DIRENT 0)) s')
      fun _ => False := by
  have hin : DIRENT * j + DIRENT ≤ c.length := by
    rw [entCount] at hj
    simp only [DIRENT_eq] at *
    omega
  have hmax := h.sound.size_le n h.lt h.type_ne.1
  rw [h.size_eq] at hmax
  have hwrite := h.writei (b := List.replicate DIRENT 0) (show DIRENT * j ≤ c.length by omega)
    (by rw [List.length_replicate]; omega)
  rw [List.length_replicate] at hwrite
  exact hwrite.mono (fun _ _ hs' => ⟨hs'.2.1, hs'.2.2.1⟩) fun _ hno => hno (h.room hin)

end Operations

/-! ### The map -/

/-- `dirlookup` of the name `y` returns the value of the map and the place of the entry, and
clearing the entry removes the name. -/
def Looks (e : Env) (dp : Ip) (n : ℕ) (c : List UInt8) (s : Ic) (y : List UInt8) : Prop :=
  ∃ q s₁, dirlookup e dp y s = .ok (q, s₁) ∧ DirAt e.sb dp n c s₁ ∧
    (q.map fun p => (s₁.icache p.1).inum) = dirMap c (y.take DIRSIZ) ∧
    ∀ ip off, q = some (ip, off) → ∃ k < entCount c, off = DIRENT * k ∧
      entName c k = y.take DIRSIZ ∧ entInum c k = (s₁.icache ip).inum ∧
      ∃ c' s₂, onInode dp (fun d => writei e d.inum d.din (List.replicate DIRENT 0) off) s₁ =
          .ok (some DIRENT, s₂) ∧ DirAt e.sb dp n c' s₂ ∧ UniqueNames c' ∧
        dirMap c' = Function.update (dirMap c) (y.take DIRSIZ) none ∧
        ∀ j, j ≠ k → direntAt c' j = direntAt c j

/-- `dirlink` of the name `x` for the inode `i` adds it to the map if it is not there, in the first
free entry, and fails if it is; the names can then be looked up and removed. -/
def ActsAsMap (e : Env) (dp : Ip) (n : ℕ) (c : List UInt8) (s : Ic) (x : List UInt8) (i : ℕ) :
    Prop :=
  ∃ r c' s', dirlink e dp x i s = .ok (r, s') ∧ DirAt e.sb dp n c' s' ∧
    (r = false ↔ dirMap c (x.take DIRSIZ) ≠ none) ∧ (r = false → c' = c) ∧
    (r = true → dirMap c' = Function.update (dirMap c) (x.take DIRSIZ) (some i) ∧
      (∀ k < freeSlot c, entInum c k ≠ 0) ∧ entInum c' (freeSlot c) = i ∧
      entName c' (freeSlot c) = x.take DIRSIZ ∧
      ∀ k, k ≠ freeSlot c → direntAt c' k = direntAt c k) ∧
    UniqueNames c' ∧ ∀ y, 0 ∉ y → y ≠ [] → Looks e dp n c' s' y

section Map

variable {e : Env} {dp : Ip} {n i : ℕ} {c x y : List UInt8} {s s' : Ic}

theorem DirAt.looks_iff (h : DirAt e.sb dp n c s) (hwhole : DIRENT ∣ c.length)
    (hunique : UniqueNames c) (hy : 0 ∉ y) :
    Looks e dp n c s y ↔ ∀ m, dirMap c (y.take DIRSIZ) = some m → Gets s m := by
  have hspec := h.dirlookup hwhole y
  rw [cname_eq_take hy] at hspec
  constructor
  · rintro ⟨q, s₁, hrun, -⟩
    exact (hspec.of_ok hrun).1
  intro hgets
  obtain ⟨q, s₁, hrun, -, h₁, hq⟩ := hspec.exists_ok fun _ hno => hno hgets
  refine ⟨q, s₁, hrun, h₁, ?_, ?_⟩
  · rcases q with _ | ⟨ip, off⟩
    · rw [dirMap, hq]
      rfl
    · obtain ⟨k, hk, -, hinum⟩ := hq
      rw [dirMap, hk, Option.map_some, Option.map_some, hinum]
  · rintro ip off rfl
    obtain ⟨k, hk, rfl, hinum⟩ := hq
    obtain ⟨hlt, -, hname, -⟩ := findName_eq_some_iff.mp hk
    obtain ⟨r, s₂, hwrite, rfl, h₂⟩ := (h₁.erase hlt).exists_ok fun _ => id
    obtain ⟨hunique', hmap⟩ := dirMap_erase hwhole hunique hk
    have hoff : DIRENT * k ≤ c.length := by
      rw [entCount] at hlt
      simp only [DIRENT_eq] at *
      omega
    refine ⟨k, hlt, rfl, hname, hinum.symm, _, s₂, hwrite, h₂, hunique', hmap, fun j hj => ?_⟩
    rw [direntAt_overwrite hoff (List.length_replicate ..), if_neg hj]

/-- A name that is there. -/
theorem DirAt.actsAsMap_found (h : DirAt e.sb dp n c s) (hwhole : DIRENT ∣ c.length)
    (hunique : UniqueNames c) (htidy : Tidy s) (hx : 0 ∉ x) {m : ℕ}
    (hm : dirMap c (x.take DIRSIZ) = some m) :
    ActsAsMap e dp n c s x i ↔ (Gets s m ∧ Unlocked s m) ∧
      ∀ y m, 0 ∉ y → y ≠ [] → dirMap c (y.take DIRSIZ) = some m → Gets s m := by
  obtain ⟨k, hk, rfl⟩ := Option.map_eq_some_iff.mp hm
  rw [← cname_eq_take hx] at hk
  have hspec := h.dirlink_found hwhole htidy hk i
  constructor
  · rintro ⟨r, c', s', hrun, h', -, -, -, -, hlooks⟩
    obtain ⟨hcond, -, h'', hrefs⟩ := hspec.of_ok hrun
    obtain rfl : c = c' := h''.contents_eq.symm.trans h'.contents_eq
    refine ⟨hcond, fun y m hy hne hm => ?_⟩
    exact hrefs.gets.mp ((h'.looks_iff hwhole hunique hy).mp (hlooks y hy hne) m hm)
  · rintro ⟨hcond, hgets⟩
    obtain ⟨r, s', hrun, -, rfl, h', hrefs⟩ := hspec.exists_ok fun _ hno => hno hcond
    refine ⟨false, c, s', hrun, h', by rw [hm]; simp, fun _ => rfl, by simp, hunique,
      fun y hy hne => (h'.looks_iff hwhole hunique hy).mpr fun m hm => ?_⟩
    exact hrefs.gets.mpr (hgets y m hy hne hm)

/-- A name that is not there. -/
theorem DirAt.actsAsMap_new (h : DirAt e.sb dp n c s) (hwhole : DIRENT ∣ c.length)
    (hunique : UniqueNames c) (hx : 0 ∉ x) (hne : x ≠ []) (hi : 0 < i) (hi' : i < 2 ^ 16)
    (hnone : dirMap c (x.take DIRSIZ) = none)
    (hmax : DIRENT * freeSlot c + DIRENT ≤ MAXFILE * BSIZE) :
    ActsAsMap e dp n c s x i ↔
      (Room e.sb s.disk n (DIRENT * freeSlot c) DIRENT ∧ Gets s i) ∧
      ∀ y m, 0 ∉ y → y ≠ [] → dirMap c (y.take DIRSIZ) = some m → Gets s m := by
  have hname := cname_eq_take hx
  have hfind : findName c (cname x) = none := by rwa [hname, ← dirMap_eq_none_iff]
  have hspec := h.dirlink_new hwhole hfind hmax i
  obtain ⟨hunique', hmap⟩ := dirMap_link hwhole hunique hfind hi hi'
  rw [hname] at hmap
  have hlen := direntBytes_length i x
  have hwhole' := length_overwrite_dvd hwhole (freeSlot_le c) hlen
  -- after the call the map has the pair `(x, i)` more
  have hgets : (∀ y m, 0 ∉ y → y ≠ [] →
        dirMap (overwrite c (DIRENT * freeSlot c) (direntBytes i x)) (y.take DIRSIZ) = some m →
        Gets s m) ↔
      Gets s i ∧ ∀ y m, 0 ∉ y → y ≠ [] → dirMap c (y.take DIRSIZ) = some m → Gets s m := by
    rw [hmap]
    constructor
    · refine fun hall => ⟨hall x i hx hne (Function.update_self ..), fun y m hy hy' hm => ?_⟩
      refine hall y m hy hy' ?_
      rw [Function.update_of_ne, hm]
      intro heq
      rw [heq, hnone] at hm
      cases hm
    · rintro ⟨hself, hall⟩ y m hy hy' hm
      by_cases heq : y.take DIRSIZ = x.take DIRSIZ
      · rw [heq, Function.update_self] at hm
        exact Option.some.inj hm ▸ hself
      · rw [Function.update_of_ne heq] at hm
        exact hall y m hy hy' hm
  rw [and_assoc, ← hgets]
  constructor
  · rintro ⟨r, c', s', hrun, h', -, -, -, -, hlooks⟩
    obtain ⟨hroom, -, h'', hrefs⟩ := hspec.of_ok hrun
    obtain rfl := h''.contents_eq.symm.trans h'.contents_eq
    refine ⟨hroom, fun y m hy hy' hm => ?_⟩
    exact hrefs.gets.mp ((h'.looks_iff hwhole' hunique' hy).mp (hlooks y hy hy') m hm)
  · rintro ⟨hroom, hall⟩
    obtain ⟨r, s', hrun, -, rfl, h', hrefs⟩ := hspec.exists_ok fun _ hno => hno hroom
    have hat := direntAt_overwrite (mul_freeSlot_le c) hlen
    refine ⟨true, _, s', hrun, h', by simp [hnone], by simp,
      fun _ => ⟨hmap, (freeSlot_spec c).1, ?_, ?_, fun k hk => ?_⟩, hunique',
      fun y hy hy' => (h'.looks_iff hwhole' hunique' hy).mpr fun m hm =>
        hrefs.gets.mpr (hall y m hy hy' hm)⟩
    · rw [entInum, hat, if_pos rfl, direntInum_direntBytes hi']
    · rw [entName, hat, if_pos rfl, direntName_direntBytes, hname]
    · rw [hat, if_neg hk]

end Map

/-- A directory is a finite map, and the operations are those of a map if and only if they do not
have to wait and find what they need: the inode that `x` names is not locked, the inodes of the
directory have entries in the inode cache or there is one left, and so for the new one, for which
the disk has room. -/
theorem directory_is_map {e : Env} {dp : Ip} {n i : ℕ} {c x : List UInt8} {s : Ic}
    (h : DirAt e.sb dp n c s) (hwhole : DIRENT ∣ c.length) (hunique : UniqueNames c)
    (htidy : Tidy s) (hx : 0 ∉ x) (hne : x ≠ []) (hi : 0 < i) (hi' : i < 2 ^ 16)
    (hmax : dirMap c (x.take DIRSIZ) = none → DIRENT * freeSlot c + DIRENT ≤ MAXFILE * BSIZE) :
    (slots c).IsMap (dirMap c) ∧
    (ActsAsMap e dp n c s x i ↔
      (∀ m, dirMap c (x.take DIRSIZ) = some m → Unlocked s m) ∧
      (dirMap c (x.take DIRSIZ) = none →
        Room e.sb s.disk n (DIRENT * freeSlot c) DIRENT ∧ Gets s i) ∧
      ∀ y m, 0 ∉ y → y ≠ [] → dirMap c (y.take DIRSIZ) = some m → Gets s m) := by
  refine ⟨isMap_dirMap hunique, ?_⟩
  cases hm : dirMap c (x.take DIRSIZ) with
  | some m =>
    rw [h.actsAsMap_found hwhole hunique htidy hx hm]
    constructor
    · rintro ⟨hcond, hall⟩
      exact ⟨fun m' hm' => Option.some.inj hm' ▸ hcond.2, nofun, hall⟩
    · rintro ⟨hunlocked, -, hall⟩
      exact ⟨⟨hall x m hx hne hm, hunlocked m rfl⟩, hall⟩
  | none =>
    rw [h.actsAsMap_new hwhole hunique hx hne hi hi' hm (hmax hm)]
    constructor
    · rintro ⟨hcond, hall⟩
      exact ⟨nofun, fun _ => hcond, hall⟩
    · rintro ⟨-, hcond, hall⟩
      exact ⟨hcond rfl, hall⟩

/-- The inode cache with the empty root directory locked. -/
def lockedRoot : Ic where
  disk := rootDisk
  icache ip := if ip = firstIp then
    ⟨⟨ROOTINO, 1, true, true⟩, { Dinode.blank T_DIR with nlink := 1 }⟩
    else ⟨⟨0, 0, false, false⟩, .blank 0⟩

theorem dirAt_lockedRoot : DirAt smallSb firstIp ROOTINO [] lockedRoot := by
  have hrec : getDinode smallSb rootDisk ROOTINO = { Dinode.blank T_DIR with nlink := 1 } :=
    getDinode_putDinode_self (Dinode.fits_blank T_DIR)
  refine ⟨smallSb_ok, wellFormed_rootDisk.sound, Nat.one_pos, rfl, rfl,
    rfl, by decide, hrec.symm, ?_, ?_⟩
  · exact congrArg Dinode.type hrec
  · exact congrArg (contents rootDisk) hrec

theorem tidy_lockedRoot : Tidy lockedRoot := by
  have hfirst : ∀ ip, 0 < (lockedRoot.icache ip).ref → ip = firstIp := fun ip hpos => by
    by_contra hne
    simp [lockedRoot, hne] at hpos
  refine ⟨fun ip hzero => ?_, fun ip jp hip hjp _ => (hfirst ip hip).trans (hfirst jp hjp).symm⟩
  have hne : ip ≠ firstIp := by
    rintro rfl
    simp [lockedRoot] at hzero
  simp [lockedRoot, hne]

/-- The root directory with the contents `c`, written at once. -/
theorem exists_dirAt (c : List UInt8) (hmax : 0 + c.length ≤ MAXFILE * BSIZE)
    (hroom : Room smallSb lockedRoot.disk ROOTINO 0 c.length) :
    ∃ s, DirAt smallSb firstIp ROOTINO c s ∧ SameRefs lockedRoot s ∧
      onInode firstIp (fun i => writei ⟨smallSb, fun _ => none⟩ i.inum i.din c 0) lockedRoot =
        .ok (some c.length, s) := by
  obtain ⟨r, s, hrun, -, rfl, h, hrefs⟩ := (dirAt_lockedRoot.writei (e := ⟨smallSb, fun _ => none⟩)
    (Nat.zero_le _) hmax).exists_ok fun _ hno => hno hroom
  refine ⟨s, ?_, hrefs, hrun⟩
  simpa [overwrite] using h

/-- 33 entries, which take two blocks; the third is not in use. -/
def twoBlocks : List UInt8 :=
  (List.range 33).flatMap fun k => direntBytes (if k = 2 then 0 else k + 1) [UInt8.ofNat (65 + k)]

/-- A new name gets the entry between the others that is not in use. -/
theorem directory_is_map_hole :
    ∃ s c' s', DirAt smallSb firstIp ROOTINO twoBlocks s ∧
      dirlink ⟨smallSb, fun _ => none⟩ firstIp [120] 2 s = .ok (true, s') ∧
      DirAt smallSb firstIp ROOTINO c' s' ∧ entInum c' 2 = 2 ∧ entName c' 2 = [120] ∧
      direntAt c' 32 = direntAt twoBlocks 32 ∧ dirMap c' [97] = some 33 := by
  have hlen : twoBlocks.length = 528 := by decide +kernel
  have hslot : freeSlot twoBlocks = 2 := by decide +kernel
  have hnone : dirMap twoBlocks [120] = none := by decide +kernel
  obtain ⟨s, h, hrefs, -⟩ := exists_dirAt twoBlocks (by rw [hlen]; decide)
    (by rw [hlen]; unfold Room; decide +kernel)
  have hgets (m : ℕ) : Gets s m := hrefs.gets.mpr (.inr ⟨⟨1, by decide⟩, rfl⟩)
  have hroom : Room smallSb s.disk ROOTINO (DIRENT * freeSlot twoBlocks) DIRENT :=
    DirAt.room (e := ⟨smallSb, fun _ => none⟩) h (by rw [hlen, hslot]; decide)
  obtain ⟨-, hiff⟩ := directory_is_map (e := ⟨smallSb, fun _ => none⟩) (x := [120]) (i := 2) h
    ⟨33, hlen⟩ (by decide +kernel) (hrefs.tidy tidy_lockedRoot) (by decide)
    (by decide) (by decide) (by decide) fun _ => by rw [hslot]; decide
  obtain ⟨r, c', s', hrun, h', hr, -, hnew, -⟩ := hiff.mpr
    ⟨fun m hm => absurd (hnone.symm.trans hm) nofun, fun _ => ⟨hroom, hgets 2⟩,
      fun _ m _ _ _ => hgets m⟩
  cases r with
  | false => exact absurd hnone (hr.mp rfl)
  | true =>
    obtain ⟨hmap, -, hinum, hname, hother⟩ := hnew rfl
    rw [hslot] at hinum hname hother
    refine ⟨s, c', s', h, hrun, h', hinum, hname, hother 32 (by decide), ?_⟩
    rw [hmap, Function.update_of_ne (by decide)]
    decide +kernel

/-- The name `.` is there, for the directory itself: `dirlink` waits for the lock that it holds. -/
theorem dirlink_self :
    ∃ c s, DirAt smallSb firstIp ROOTINO c s ∧ DIRENT ∣ c.length ∧ UniqueNames c ∧ Tidy s ∧
      (∃ ip, (s.icache ip).ref = 0) ∧ dirMap c dot = some ROOTINO ∧
      dirlink ⟨smallSb, fun _ => none⟩ firstIp dot 2 s = .error .hang := by
  obtain ⟨s, h, hrefs, hrun⟩ := exists_dirAt (direntBytes ROOTINO dot) (by decide)
    (by unfold Room; decide +kernel)
  refine ⟨_, s, h, by decide, by decide +kernel, hrefs.tidy tidy_lockedRoot,
    ⟨⟨1, by decide⟩, (hrefs _).1⟩, by decide +kernel, ?_⟩
  have hhang : failure ((onInode firstIp (fun i =>
      writei ⟨smallSb, fun _ => none⟩ i.inum i.din (direntBytes ROOTINO dot) 0) >>= fun _ =>
      dirlink ⟨smallSb, fun _ => none⟩ firstIp dot 2) lockedRoot) = some .hang := by decide +kernel
  have hwp : Wp (onInode firstIp (fun i =>
      writei ⟨smallSb, fun _ => none⟩ i.inum i.din (direntBytes ROOTINO dot) 0) >>= fun _ =>
      dirlink ⟨smallSb, fun _ => none⟩ firstIp dot 2) lockedRoot (fun _ _ => False) (· = .hang) :=
    Wp.of_eq_error (eq_error_of_failure hhang) rfl
  rw [Wp.bind_iff, Wp.of_eq hrun] at hwp
  exact hwp.eq_error_of

end Xv6.Fs
