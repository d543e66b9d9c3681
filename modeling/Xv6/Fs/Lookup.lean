import Xv6.Fs.Handle

/-!
# Directories and path names

What `dirlookup`, `dirlink` and `namex` do in terms of the entries of directories. A lookup
finds the first entry in use with the name; a walk along a path goes from directory to
directory along entries in use, and leaves every inode as it was but for orphans that it
was the last to refer to.
-/

namespace Xv6.Fs

open Lib

/-! ### Names -/

/-- A name as `strncmp` and `strncpy` see it: cut at a zero byte and at `DIRSIZ`. -/
def cname (s : List UInt8) : List UInt8 := (s.take DIRSIZ).takeWhile (· ≠ 0)

theorem takeWhile_of_head_zero {s : List UInt8} (h : s.headD 0 = 0) (n : ℕ) :
    (s.take n).takeWhile (· ≠ 0) = [] := by
  cases s with
  | nil => simp
  | cons a s =>
    cases n with
    | zero => simp
    | succ n => simp_all

theorem takeWhile_of_head_ne_zero {s : List UInt8} (h : s.headD 0 ≠ 0) (n : ℕ) :
    (s.take (n + 1)).takeWhile (· ≠ 0) =
      s.headD 0 :: (s.tail.take n).takeWhile (· ≠ 0) := by
  cases s with
  | nil => simp at h
  | cons a s => simp_all

/-- `strncmp` returns 0 for equal names only. -/
theorem strncmp_eq_zero_iff (n : ℕ) (p q : List UInt8) :
    strncmp n p q = 0 ↔ (p.take n).takeWhile (· ≠ 0) = (q.take n).takeWhile (· ≠ 0) := by
  induction n generalizing p q with
  | zero => simp [strncmp]
  | succ n ih =>
    rw [strncmp]
    by_cases hp : p.headD 0 = 0
    · rw [if_neg fun h => h.1 hp, takeWhile_of_head_zero hp]
      by_cases hq : q.headD 0 = 0
      · rw [takeWhile_of_head_zero hq, hp, hq]
        simp
      · rw [takeWhile_of_head_ne_zero hq, hp]
        have hpos : (q.headD 0).toNat ≠ 0 := fun h => hq (UInt8.toNat_inj.mp h)
        simp only [UInt8.toNat_zero, reduceCtorEq, iff_false]
        omega
    · by_cases heq : p.headD 0 = q.headD 0
      · have hq : q.headD 0 ≠ 0 := fun h => hp (heq.trans h)
        rw [if_pos ⟨hp, heq⟩, ih, takeWhile_of_head_ne_zero hp, takeWhile_of_head_ne_zero hq, heq]
        simp
      · rw [if_neg fun h => heq h.2, takeWhile_of_head_ne_zero hp]
        have hne : (p.headD 0).toNat ≠ (q.headD 0).toNat := fun h => heq (UInt8.toNat_inj.mp h)
        constructor
        · intro h
          omega
        · intro h
          by_cases hq : q.headD 0 = 0
          · rw [takeWhile_of_head_zero hq] at h
            cases h
          · rw [takeWhile_of_head_ne_zero hq] at h
            exact absurd (List.cons.inj h).1 heq

theorem namecmp_eq_zero_iff (p q : List UInt8) : namecmp p q = 0 ↔ cname p = cname q :=
  strncmp_eq_zero_iff DIRSIZ p q

@[simp] theorem strncpy_length (n : ℕ) (t : List UInt8) : (strncpy n t).length = n := by
  induction n generalizing t with
  | zero => rfl
  | succ n ih =>
    rw [strncpy]
    split_ifs
    · simp
    · simp [ih]

/-- A name that was copied by `strncpy` compares equal to the original. -/
theorem takeWhile_strncpy (n : ℕ) (t : List UInt8) :
    ((strncpy n t).take n).takeWhile (· ≠ 0) = (t.take n).takeWhile (· ≠ 0) := by
  induction n generalizing t with
  | zero => rfl
  | succ n ih =>
    rw [strncpy]
    split_ifs with h
    · rw [takeWhile_of_head_zero h, takeWhile_of_head_zero (by simp [List.replicate_succ])]
    · rw [takeWhile_of_head_ne_zero h, takeWhile_of_head_ne_zero
        (by simpa using h), List.headD_cons,
        List.tail_cons, ih]

theorem cname_strncpy (t : List UInt8) : cname (strncpy DIRSIZ t) = cname t := takeWhile_strncpy _ t

/-! ### The entries of a directory -/

/-- The inode number of entry `i`; 0 if the entry is not in use. -/
def entInum (c : List UInt8) (i : ℕ) : ℕ := direntInum (direntAt c i)

/-- The name of entry `i`. -/
def entName (c : List UInt8) (i : ℕ) : List UInt8 := cname (direntName (direntAt c i))

/-- How many entries a directory has room for. -/
def entCount (c : List UInt8) : ℕ := c.length / DIRENT

/-- The first entry in use with the name `x`. -/
def findName (c : List UInt8) (x : List UInt8) : Option ℕ :=
  firstFrom (fun i => entInum c i ≠ 0 ∧ entName c i = x) (entCount c) 0

theorem DIRENT_eq : DIRENT = 16 := rfl

section Entries

variable {l b x : List UInt8} {i j : ℕ}

theorem findName_eq_some_iff : findName l x = some i ↔
    i < entCount l ∧ entInum l i ≠ 0 ∧ entName l i = x ∧
      ∀ j < i, entInum l j ≠ 0 → entName l j ≠ x := by
  rw [findName, firstFrom_eq_some_iff]
  simp only [Nat.zero_le, Nat.zero_add, true_and, decide_eq_true_eq,
    decide_eq_false_iff_not, not_and,
    forall_const, and_assoc]

theorem findName_eq_none_iff : findName l x = none ↔
    ∀ i < entCount l, entInum l i ≠ 0 → entName l i ≠ x := by
  rw [findName, firstFrom_eq_none_iff]
  simp

theorem getElem?_overwrite {off k : ℕ} (hoff : off ≤ l.length) :
    (overwrite l off b)[k]? =
      if off ≤ k ∧ k < off + b.length then b[k - off]? else l[k]? := by
  have hleft : (l.take off).length = off := List.length_take_of_le hoff
  rw [overwrite, List.append_assoc, List.getElem?_append, hleft]
  by_cases hlo : k < off
  · rw [if_pos hlo, if_neg (by omega), List.getElem?_take_of_lt hlo]
  · rw [if_neg hlo, List.getElem?_append]
    by_cases hhi : k < off + b.length
    · rw [if_pos (by omega), if_pos (by omega)]
    · rw [if_neg (by omega), if_neg (by omega), List.getElem?_drop]
      congr 1
      omega

theorem overwrite_length {off : ℕ} (hoff : off ≤ l.length) :
    (overwrite l off b).length = max l.length (off + b.length) := by
  simp only [overwrite, List.length_append, List.length_take, List.length_drop]
  omega

theorem getElem?_direntAt (k : ℕ) :
    (direntAt l i)[k]? = if k < DIRENT then l[DIRENT * i + k]? else none := by
  rw [direntAt, List.getElem?_take, List.getElem?_drop]

/-- Writing one entry of a directory leaves the others alone. -/
theorem direntAt_overwrite (hi : DIRENT * i ≤ l.length) (hb : b.length = DIRENT) (j : ℕ) :
    direntAt (overwrite l (DIRENT * i) b) j = if j = i then b else direntAt l j := by
  refine List.ext_getElem? fun k => ?_
  rw [getElem?_direntAt, getElem?_overwrite hi, hb]
  by_cases hj : j = i
  · subst hj
    rw [if_pos rfl]
    by_cases hk : k < DIRENT
    · rw [if_pos hk, if_pos (by omega), Nat.add_sub_cancel_left]
    · rw [if_neg hk, List.getElem?_eq_none (by omega)]
  · rw [if_neg hj, getElem?_direntAt]
    by_cases hk : k < DIRENT
    · have hout : ¬ (DIRENT * i ≤ DIRENT * j + k ∧ DIRENT * j + k < DIRENT * i + DIRENT) := by
        rw [DIRENT_eq] at hk ⊢
        omega
      rw [if_pos hk, if_neg hout, if_pos hk]
    · rw [if_neg hk, if_neg hk]

theorem direntInum_direntBytes {n : ℕ} (hn : n < 2 ^ 16) (name : List UInt8) :
    direntInum (direntBytes n name) = n := by
  rw [direntInum, direntBytes, List.take_left' (leBytes_length 2 n), leValue_leBytes]
  exact Nat.mod_eq_of_lt hn

theorem direntName_direntBytes (n : ℕ) (name : List UInt8) :
    cname (direntName (direntBytes n name)) = cname name := by
  rw [direntName, direntBytes, List.drop_left' (leBytes_length 2 n), cname_strncpy]

@[simp] theorem direntBytes_length (n : ℕ) (name : List UInt8) :
    (direntBytes n name).length = DIRENT := by
  simp [direntBytes, DIRENT]

/-- Writing one entry keeps a directory within the inode numbers. -/
theorem InodesBelow.overwrite {m : ℕ} (h : InodesBelow m l) (hi : DIRENT * i ≤ l.length)
    (hb : b.length = DIRENT) (hm : direntInum b < m) :
    InodesBelow m (overwrite l (DIRENT * i) b) := by
  intro j hj
  rw [direntAt_overwrite hi hb]
  split_ifs with hji
  · exact hm
  · refine h j ?_
    rw [overwrite_length hi, hb] at hj
    simp only [DIRENT_eq] at *
    omega

end Entries

/-! ### Reading directories -/

section Read

variable {e : Env} {orphans : Set ℕ} {g : Ghost} {s : Ic} {dp : Ip} {nd : Node}

theorem Holds.data_length_le {n : ℕ} (h : Holds e.sb orphans g s) (hnd : g.nodes n = some nd) :
    nd.data.length ≤ MAXFILE * BSIZE := by
  rw [← h.nodes_eq] at hnd
  obtain ⟨hlt, htype, rfl⟩ := nodes_eq_some_iff.mp hnd
  rw [Dinode.node, contents_length]
  exact h.sound.size_le n hlt htype

theorem T_DIR_ne_T_DEV : T_DIR ≠ T_DEV := by decide

/-- The size of a locked directory. -/
theorem Holds.size_eq (h : Holds e.sb orphans g s) (hlock : g.lock dp = true)
    (hnd : g.node dp = some nd) :
    (s.icache dp).din.size = nd.data.length ∧ (s.icache dp).din.type = nd.type ∧
      (s.icache dp).din.nlink = nd.nlink := by
  obtain ⟨-, -, hdin, -, rfl⟩ := h.locked_eq hlock hnd
  rw [hdin]
  exact ⟨(contents_length _ _).symm, rfl, rfl⟩

/-- The directory `dp` reads as the bytes `c`. Reading an entry fails only if the last one is cut
short. -/
structure DirView (e : Env) (dp : Ip) (c : List UInt8) (s : Ic) : Prop where
  type : (s.icache dp).din.type = T_DIR
  size : (s.icache dp).din.size = c.length
  entry : ∀ (p : Panic) (i : ℕ), DIRENT * i < c.length →
    Wp (readDirent e p dp (DIRENT * i)) s
      (fun de s' => s' = s ∧ de = direntAt c i ∧ i < entCount c)
      fun err => err = .panic p ∧ ¬ DIRENT ∣ c.length

/-- A directory whose record is in the cache reads as its contents. -/
theorem DirView.of_record {n : ℕ} (hok : e.sb.Ok) (hsound : Sound e.sb s.disk)
    (hn : n < e.sb.ninodes)
    (hdin : (s.icache dp).din = getDinode e.sb s.disk n)
    (hdir : (getDinode e.sb s.disk n).type = T_DIR) :
    DirView e dp (contents s.disk (getDinode e.sb s.disk n)) s := by
  have htype : (getDinode e.sb s.disk n).type ≠ 0 := by
    rw [hdir]
    decide
  have hlen := contents_length s.disk (getDinode e.sb s.disk n)
  have hmax := hsound.size_le n hn htype
  have hsmall : MAXFILE * BSIZE + DIRENT < 2 ^ 32 := by decide
  refine ⟨by rw [hdin, hdir], by rw [hdin, hlen], fun p i hi => ?_⟩
  unfold readDirent
  rw [Wp.bind_iff, wp_onInode, hdin, Wp.of_eq (readi_eq hok hsound hn htype
    (by rw [hdir]; exact T_DIR_ne_T_DEV) (show DIRENT < 2 ^ 32 by decide)),
    if_neg (by omega), ← hdin,
    Ic.set_eq_self, hdin, ← hlen]
  generalize contents s.disk (getDinode e.sb s.disk n) = c at hi hlen ⊢
  dsimp only
  by_cases hwhole : DIRENT * i + DIRENT ≤ c.length
  · have hread : (c.drop (DIRENT * i)).take (min DIRENT (c.length - DIRENT * i)) =
      direntAt c i := by
      rw [Nat.min_eq_left (by omega), direntAt]
    rw [hread, if_pos (by rw [direntAt, List.length_take, List.length_drop]; omega), Wp.pure_iff]
    refine ⟨rfl, rfl, ?_⟩
    rw [entCount, Nat.lt_div_iff_mul_lt (by decide)]
    simp only [DIRENT_eq] at *
    omega
  · rw [if_neg (by rw [List.length_take, List.length_drop]; omega)]
    refine ⟨rfl, fun hdvd => hwhole ?_⟩
    obtain ⟨m, hm⟩ := hdvd
    simp only [DIRENT_eq] at *
    omega

theorem Holds.view (h : Holds e.sb orphans g s) (hlock : g.lock dp = true)
    (hnd : g.node dp = some nd) (hdir : nd.type = T_DIR) : DirView e dp nd.data s := by
  obtain ⟨-, hlt, hdin, -, rfl⟩ := h.locked_eq hlock hnd
  exact .of_record h.layout h.sound hlt hdin hdir

section View

variable {c : List UInt8}

theorem DirView.lookupLoop (h : DirView e dp c s) (name : List UInt8) {fuel i : ℕ}
    (hfuel : entCount c + 1 ≤ fuel + i) {Q : Option (Ip × ℕ) → Ic → Prop} {E : Fault → Prop}
    (hQ : match firstFrom (fun j => entInum c j ≠ 0 ∧ entName c j = cname name)
      (entCount c - i) i with
      | none => Q none s
      | some j => Wp (iget (entInum c j)) s (fun ip s' => Q (some (ip, DIRENT * j)) s') E)
    (hE : ¬ DIRENT ∣ c.length → E (.panic .dirlookupRead)) :
    Wp (lookupLoop e dp name fuel (DIRENT * i)) s Q E := by
  induction fuel generalizing i with
  | zero =>
    rw [Nat.sub_eq_zero_of_le (by omega)] at hQ
    exact hQ
  | succ fuel ih =>
    rw [Fs.lookupLoop, Wp.bind_iff, wp_inode, h.size]
    by_cases hi : DIRENT * i < c.length
    · rw [if_pos hi]
      refine ((h.entry _ i hi).mono (fun _ _ => id) ?_).bind ?_
      · rintro err ⟨rfl, hragged⟩
        exact hE hragged
      rintro de s' ⟨rfl, rfl, hcount⟩
      obtain ⟨k, hk⟩ : ∃ k, entCount c - i = k + 1 := ⟨entCount c - i - 1, by omega⟩
      have hcmp := namecmp_eq_zero_iff name (direntName (direntAt c i))
      rw [hk, firstFrom] at hQ
      by_cases hmatch : entInum c i ≠ 0 ∧ entName c i = cname name
      · rw [if_pos (by simpa using hmatch)] at hQ
        rw [if_pos ⟨hmatch.1, hcmp.mpr hmatch.2.symm⟩]
        exact Wp.bind hQ fun _ _ => id
      · rw [if_neg (by simpa using hmatch)] at hQ
        rw [if_neg fun hm => hmatch ⟨hm.1, (hcmp.mp hm.2).symm⟩, ← Nat.mul_succ]
        refine ih (by omega) ?_
        rwa [show entCount c - (i + 1) = k by omega]
    · have hle : entCount c ≤ i := by
        rw [entCount]
        simp only [DIRENT_eq] at *
        omega
      rw [Nat.sub_eq_zero_of_le hle] at hQ
      rw [if_neg hi]
      exact hQ

/-- Looking up a name: the first entry in use with that name. -/
theorem DirView.dirlookup (h : DirView e dp c s) (name : List UInt8)
    {Q : Option (Ip × ℕ) → Ic → Prop}
    {E : Fault → Prop}
    (hQ : match findName c (cname name) with
      | none => Q none s
      | some j => Wp (iget (entInum c j)) s (fun ip s' => Q (some (ip, DIRENT * j)) s') E)
    (hE : ¬ DIRENT ∣ c.length → E (.panic .dirlookupRead)) : Wp (dirlookup e dp name) s Q E := by
  unfold Fs.dirlookup
  rw [Wp.bind_iff, wp_inode, if_neg (by rw [h.type]; simp), h.size]
  exact h.lookupLoop name (i := 0) le_rfl hQ hE

/-- The loop of `dirlink`: the first entry not in use, or the end of the directory. -/
theorem DirView.emptyLoop (h : DirView e dp c s) {fuel i : ℕ} (hfuel : entCount c + 1 ≤ fuel + i)
    (hi : DIRENT * i ≤ c.length) (hused : ∀ k < i, entInum c k ≠ 0) :
    Wp (emptyLoop e dp fuel (DIRENT * i)) s
      (fun off s' => s' = s ∧ ∃ j, off = DIRENT * j ∧ (∀ k < j, entInum c k ≠ 0) ∧
        (j < entCount c ∧ entInum c j = 0 ∨ DIRENT * j = c.length))
      fun err => err = .panic .dirlinkRead ∧ ¬ DIRENT ∣ c.length := by
  induction fuel generalizing i with
  | zero =>
    rw [entCount] at hfuel
    simp only [DIRENT_eq] at hfuel hi
    omega
  | succ fuel ih =>
    rw [Fs.emptyLoop, Wp.bind_iff, wp_inode, h.size]
    by_cases hlt : DIRENT * i < c.length
    · rw [if_pos hlt]
      refine (h.entry _ i hlt).bind ?_
      rintro de s' ⟨rfl, rfl, hcount⟩
      by_cases hzero : direntInum (direntAt c i) = 0
      · rw [if_pos hzero]
        exact ⟨rfl, i, rfl, hused, .inl ⟨hcount, hzero⟩⟩
      · rw [if_neg hzero, ← Nat.mul_succ]
        refine ih (by omega) ?_ fun k hk => ?_
        · rw [entCount] at hcount
          simp only [DIRENT_eq] at *
          omega
        · rcases Nat.lt_succ_iff_lt_or_eq.mp hk with hk | rfl
          · exact hused k hk
          · exact hzero
    · rw [if_neg hlt]
      exact ⟨rfl, i, rfl, hused, .inr (by omega)⟩

end View

/-- What a lookup that finds entry `o` of a directory with the bytes `c` returns: nothing, or
a reference to the inode the entry names, with the offset of the entry. -/
def Looked (sb : SuperBlock) (orphans : Set ℕ) (g : Ghost) (s : Ic) (c : List UInt8)
    (o : Option ℕ) (r : Option (Ip × ℕ)) (s' : Ic) : Prop :=
  match o with
  | none => r = none ∧ s' = s
  | some j => ∃ ip, r = some (ip, DIRENT * j) ∧ (0 < g.refs ip → g.inum ip = entInum c j) ∧
      Holds sb orphans (g.take ip (entInum c j)) s'

/-- How a lookup in a directory may fail. -/
def LookupFails (err : Fault) : Prop := err = .panic .iget ∨ err = .panic .dirlookupRead

/-- Looking up a name in a locked directory. It fails if the cache has no entry left for the inode,
or at a last entry that is cut short. -/
theorem dirlookup_cases (h : Holds e.sb orphans g s) (hlock : g.lock dp = true)
    (hnd : g.node dp = some nd) (hdir : nd.type = T_DIR) (name : List UInt8) :
    Wp (dirlookup e dp name) s
      (Looked e.sb orphans g s nd.data (findName nd.data (cname name)))
      fun err => err = .panic .iget ∧ g.Full ∨
        err = .panic .dirlookupRead ∧ ¬ DIRENT ∣ nd.data.length := by
  refine (h.view hlock hnd hdir).dirlookup name ?_ fun hragged => .inr ⟨rfl, hragged⟩
  cases hfind : findName nd.data (cname name) with
  | none => exact ⟨rfl, rfl⟩
  | some j =>
    have hlt : entInum nd.data j < e.sb.ninodes :=
      h.dirs _ _ hnd hdir j (findName_eq_some_iff.mp hfind).1
    refine (iget_spec h hlt).mono ?_ fun _ => .inl
    rintro ip s₁ ⟨hs₁, hinum⟩
    exact ⟨ip, rfl, hinum, hs₁⟩

theorem dirlookup_spec (h : Holds e.sb orphans g s) (hlock : g.lock dp = true)
    (hnd : g.node dp = some nd) (hdir : nd.type = T_DIR) (name : List UInt8) :
    Wp (dirlookup e dp name) s
      (Looked e.sb orphans g s nd.data (findName nd.data (cname name))) LookupFails :=
  (dirlookup_cases h hlock hnd hdir name).mono (fun _ _ => id) fun _ => Or.imp And.left And.left

end Read

/-! ### Giving back references -/

/-- An inode without links that nothing refers to. -/
def Ghost.Garbage (g : Ghost) (n : ℕ) : Prop :=
  (∃ nd, g.nodes n = some nd ∧ nd.nlink = 0) ∧ ∀ ip, 0 < g.refs ip → g.inum ip ≠ n

/-- Some inode was freed. -/
def Ghost.Frees (g g' : Ghost) : Prop := ∃ n, g.nodes n ≠ none ∧ g'.nodes n = none

/-- The references and locks are those of `g`, and so are the nodes but for orphans and
garbage that were freed. If none was freed, nothing was written to disk. -/
structure After (orphans : Set ℕ) (g g' : Ghost) : Prop where
  nodes : ∀ n, g'.nodes n = g.nodes n ∨ g'.nodes n = none ∧ (n ∈ orphans ∨ g.Garbage n)
  disk : ∀ d, g.disk = some d → g'.disk = some d ∨ g.Frees g'
  held : g'.held = g.held
  own : g'.own = g.own
  lock : g'.lock = g.lock
  type : g'.type = g.type
  inum : ∀ ip, 0 < g.refs ip → g'.inum ip = g.inum ip

section After

variable {sb : SuperBlock} {orphans : Set ℕ} {g g' g₁ g₂ : Ghost} {s : Ic} {ip jp : Ip} {n m : ℕ}

theorem After.refl (orphans : Set ℕ) (g : Ghost) : After orphans g g :=
  ⟨fun _ => .inl rfl, fun _ => .inl, rfl, rfl, rfl, rfl, fun _ _ => rfl⟩

/-- Forget about the disk. -/
theorem After.forget (h : After orphans g g') : After orphans (g.setNodes g.nodes) g' :=
  ⟨h.nodes, nofun, h.held, h.own, h.lock, h.type, h.inum⟩

/-- What is known of the disk, apart from the rest. -/
theorem After.stamped (h : After orphans { g with disk := none } { g' with disk := none })
    (hdisk : ∀ d, g.disk = some d → g'.disk = some d ∨ g.Frees g') : After orphans g g' :=
  ⟨h.nodes, hdisk, h.held, h.own, h.lock, h.type, h.inum⟩

theorem After.refs (h : After orphans g g') (ip : Ip) : g'.refs ip = g.refs ip := by
  rw [Ghost.refs, h.held, h.own, Ghost.refs]

theorem After.nodes_some (h : After orphans g g') {nd : Node} (hn : g'.nodes n = some nd) :
    g.nodes n = some nd := by
  rcases h.nodes n with heq | ⟨hnone, -⟩
  · rwa [← heq]
  · rw [hnone] at hn
    cases hn

theorem After.nodes_none (h : After orphans g g') (hn : g'.nodes n = none) :
    g.nodes n = none ∨ n ∈ orphans ∨ g.Garbage n := by
  rcases h.nodes n with heq | ⟨-, hmem⟩
  · exact .inl (heq ▸ hn)
  · exact .inr hmem

/-- What is garbage later was so before, if no node changed. -/
theorem Ghost.Garbage.mono (h : g₁.Garbage n)
    (hnodes : ∀ nd, g₁.nodes n = some nd → g.nodes n = some nd)
    (hrefs : ∀ ip, 0 < g.refs ip → 0 < g₁.refs ip ∧ g₁.inum ip = g.inum ip) : g.Garbage n := by
  obtain ⟨⟨nd, hnd, hlink⟩, hfree⟩ := h
  refine ⟨⟨nd, hnodes nd hnd, hlink⟩, fun ip hpos => ?_⟩
  obtain ⟨hpos', heq⟩ := hrefs ip hpos
  rw [← heq]
  exact hfree ip hpos'

/-- Garbage at the start of a call is an orphan. -/
theorem Holds.orphan_of_garbage (h : Holds sb orphans g s) (hn : g.Garbage n) : n ∈ orphans := by
  obtain ⟨⟨nd, hnd, hlink⟩, hfree⟩ := hn
  rcases h.kept n nd hnd hlink with hmem | ⟨ip, hpos, heq, -⟩
  · exact hmem
  · exact absurd heq (hfree ip hpos)

/-- An inode that was freed stays free. -/
theorem After.frees_trans (h₁ : After orphans g g₁) (h₂ : After orphans g₁ g₂)
    (h : g.Frees g₁ ∨ g₁.Frees g₂) : g.Frees g₂ := by
  rcases h with ⟨n, hn, hnone⟩ | ⟨n, hn, hnone⟩
  · refine ⟨n, hn, ?_⟩
    rcases h₂.nodes n with heq | ⟨hnone', -⟩
    · rw [heq, hnone]
    · exact hnone'
  · obtain ⟨nd, hnd⟩ := Option.ne_none_iff_exists'.mp hn
    exact ⟨n, by rw [h₁.nodes_some hnd]; exact nofun, hnone⟩

theorem After.trans (h₁ : After orphans g g₁) (h₂ : After orphans g₁ g₂) : After orphans g g₂ := by
  refine ⟨fun n => ?_, fun d hd => ?_, h₂.held.trans h₁.held, h₂.own.trans h₁.own,
    h₂.lock.trans h₁.lock, h₂.type.trans h₁.type, fun ip hpos => ?_⟩
  · rcases h₂.nodes n with heq | ⟨hnone, hmem⟩
    · rw [heq]
      exact h₁.nodes n
    · refine .inr ⟨hnone, hmem.imp_right fun hgarb => hgarb.mono (fun nd => h₁.nodes_some) ?_⟩
      intro ip hpos
      exact ⟨by rwa [h₁.refs], h₁.inum ip hpos⟩
  · rcases h₁.disk d hd with hd₁ | hfrees
    · exact (h₂.disk d hd₁).imp_right (h₁.frees_trans h₂ ∘ .inr)
    · exact .inr (h₁.frees_trans h₂ (.inl hfrees))
  · rw [h₂.inum ip (by rwa [h₁.refs]), h₁.inum ip hpos]

theorem Ghost.refs_of_drop {kp : Ip} (hown : 0 < g.own ip) (hk : 0 < (g.drop ip).refs kp) :
    0 < g.refs kp := by
  by_cases hkp : kp = ip
  · subst hkp
    exact Nat.add_pos_right _ hown
  · simpa [Ghost.refs, hkp] using hk

/-- Dropping a reference on both sides. -/
theorem After.drop_drop (hafter : After orphans g g') (hown : 0 < g.own ip) :
    After orphans (g.drop ip) (g'.drop ip) := by
  refine ⟨fun m => ?_, hafter.disk, hafter.held, by simp [hafter.own], hafter.lock, hafter.type,
    fun kp hk => hafter.inum kp (Ghost.refs_of_drop hown hk)⟩
  refine (hafter.nodes m).imp_right (And.imp_right (Or.imp_right fun hm => ?_))
  exact ⟨hm.1, fun kp hk => hm.2 kp (Ghost.refs_of_drop hown hk)⟩

/-- What dies with the last reference is garbage by then. -/
theorem Ghost.Puts.after (hputs : g.Puts ip g') (hunique : g.Unique) (hown : 0 < g.own ip) :
    After orphans (g.drop ip) g' := by
  cases hputs with
  | stays => exact .refl _ _
  | dies nd hnd hlink hlast =>
    refine ⟨fun m => ?_, fun d _ => .inr ⟨g.inum ip, ?_, by simp⟩, rfl, rfl, rfl, rfl,
      fun _ _ => rfl⟩
    swap
    · change g.node ip ≠ none
      rw [hnd]
      exact nofun
    by_cases hm : m = g.inum ip
    · subst hm
      refine .inr ⟨by simp, .inr ⟨⟨nd, hnd, hlink⟩, fun kp hk heq => ?_⟩⟩
      -- another entry for this inode would be the same entry, which has no reference left
      obtain rfl := hunique kp ip (Ghost.refs_of_drop hown hk) (by omega) heq
      rw [Ghost.refs_drop g hown, hlast] at hk
      exact absurd hk (Nat.lt_irrefl 0)
    · exact .inl (Function.update_of_ne hm _ _)

/-- Drop a reference. -/
theorem After.drop (hafter : After orphans g g₁) (hunique : g₁.Unique) (hown : 0 < g.own ip)
    (hputs : g₁.Puts ip g') : After orphans (g.drop ip) g' :=
  (hafter.drop_drop hown).trans (hputs.after hunique (by rwa [hafter.own]))

/-- Taking a reference and dropping it again. -/
theorem After.take_drop (hin : 0 < g.refs ip → g.inum ip = n) :
    After orphans g ((g.take ip n).drop ip) := by
  refine ⟨fun _ => .inl rfl, fun _ => .inl, rfl, by simp, rfl, rfl, fun kp hk => ?_⟩
  by_cases hkp : kp = ip
  · subst hkp
    simp [hin hk]
  · simp [hkp]

/-- Taking two references and dropping the first. -/
theorem After.take_take_drop (hin : 0 < g.refs ip → g.inum ip = n) :
    After orphans (g.take jp m) (((g.take ip n).take jp m).drop ip) := by
  refine ⟨fun _ => .inl rfl, fun _ => .inl, rfl, funext fun kp => ?_, rfl, rfl, fun kp hk => ?_⟩
  · rcases eq_or_ne kp ip with rfl | hki <;> rcases eq_or_ne kp jp with rfl | hkj
    · simp
    · simp [hkj]
    · simp [hki]
    · simp [hki, hkj]
  · rw [Ghost.refs_take] at hk
    simp only [Ghost.drop_inum, Ghost.take_inum, Function.update_apply]
    split_ifs at hk ⊢ with hkj hki
    · rfl
    · rw [hki, hin (hki ▸ hk)]
    · rfl

theorem Ghost.refs_le_take (g : Ghost) (ip kp : Ip) (n : ℕ) :
    g.refs kp ≤ (g.take ip n).refs kp := by
  rw [Ghost.refs_take]
  split_ifs with h
  · rw [h]
    omega
  · exact le_rfl

theorem Ghost.inum_take (hin : 0 < g.refs ip → g.inum ip = n) {kp : Ip} (hk : 0 < g.refs kp) :
    (g.take ip n).inum kp = g.inum kp := by
  by_cases hkp : kp = ip
  · subst hkp
    simp [hin hk]
  · simp [hkp]

/-- Garbage after a reference was taken was garbage before. -/
theorem Ghost.Garbage.of_take (hin : 0 < g.refs ip → g.inum ip = n)
    (h : (g.take ip n).Garbage m) : g.Garbage m :=
  h.mono (fun _ => id) fun kp hk =>
    ⟨hk.trans_le (g.refs_le_take ip kp n), Ghost.inum_take hin hk⟩

/-- A reference to an inode that was no garbage. -/
theorem After.take (h : After orphans g g') (jp : Ip) (hm : g.Garbage m → m ∈ orphans) :
    After orphans (g.take jp m) (g'.take jp m) := by
  refine ⟨fun n => ?_, h.disk, h.held, by simp [h.own], h.lock, h.type, fun kp hk => ?_⟩
  · rcases h.nodes n with heq | ⟨hnone, hmem | hgarb⟩
    · exact .inl heq
    · exact .inr ⟨hnone, .inl hmem⟩
    · refine .inr ⟨hnone, ?_⟩
      by_cases hnm : n = m
      · subst hnm
        exact .inl (hm hgarb)
      · refine .inr ⟨hgarb.1, fun kp hk heq => ?_⟩
        rw [Ghost.refs_take] at hk
        simp only [Ghost.take_inum, Function.update_apply] at heq
        split_ifs at hk heq with hkj
        · exact hnm heq.symm
        · exact hgarb.2 kp hk heq
  · rw [Ghost.refs_take] at hk
    simp only [Ghost.take_inum, Function.update_apply]
    split_ifs at hk ⊢ with hkj
    · rfl
    · exact h.inum kp hk

theorem After.setLock (h : After orphans g g') (ip : Ip) (b : Bool) :
    After orphans (g.setLock ip b) (g'.setLock ip b) :=
  ⟨h.nodes, h.disk, h.held, h.own, by simp [h.lock], h.type, h.inum⟩

theorem After.setNode (h : After orphans g g') (n : ℕ) (v : Option Node) :
    After orphans (g.setNode n v) (g'.setNode n v) := by
  refine ⟨fun m => ?_, nofun, h.held, h.own, h.lock, h.type, h.inum⟩
  by_cases hm : m = n
  · subst hm
    simp
  · have hnode : ∀ k : Ghost, (k.setNode n v).nodes m = k.nodes m := fun k =>
      Function.update_of_ne hm _ _
    rw [hnode, hnode]
    refine (h.nodes m).imp_right (And.imp_right (Or.imp_right fun hgarb => ⟨?_, hgarb.2⟩))
    rw [hnode]
    exact hgarb.1

/-- Locking and unlocking again. -/
theorem After.relock (h : After orphans g g') (hlock : g.lock ip = false) :
    After orphans g ((g'.setLock ip true).setLock ip false) := by
  refine ⟨h.nodes, h.disk, h.held, h.own, ?_, h.type, h.inum⟩
  rw [← h.lock] at hlock ⊢
  simp [← hlock]

/-- Drop a reference that was taken since `g`. -/
theorem After.put (hafter : After orphans (g.take ip n) g₁) (hunique : g₁.Unique)
    (hin : 0 < g.refs ip → g.inum ip = n) (hputs : g₁.Puts ip g') : After orphans g g' :=
  (After.take_drop hin).trans (hafter.drop hunique (by simp) hputs)

/-- Exchange a reference that was taken since `g` for another one. -/
theorem After.swap (hafter : After orphans ((g.take ip n).take jp m) g₁) (hunique : g₁.Unique)
    (hin : 0 < g.refs ip → g.inum ip = n) (hputs : g₁.Puts ip g') :
    After orphans (g.take jp m) g' := by
  have hown : 0 < ((g.take ip n).take jp m).own ip := by
    by_cases hij : ip = jp
    · simp [hij]
    · simp [hij]
  exact (After.take_take_drop hin).trans (hafter.drop hunique hown hputs)

end After

/-! ### Adding an entry -/

section Dirlink

variable {e : Env} {orphans : Set ℕ} {g : Ghost} {s : Ic} {dp : Ip} {nd : Node}

/-- How adding an entry may fail: no room in the cache or on disk, an entry cut short, or a
wait for the directory itself. -/
def LinkFails (err : Fault) : Prop :=
  LookupFails err ∨ err = .hang ∨ err = .panic .dirlinkRead ∨ err = .panic .dirlink ∨
    err = .panic .balloc

/-- What `dirlink` does: nothing if the name is there, else the entry is written to a place
that is not in use or to the end. -/
def Linked (sb : SuperBlock) (orphans : Set ℕ) (g : Ghost) (dp : Ip) (nd : Node)
    (name : List UInt8) (inum : ℕ) (r : Bool) (s' : Ic) : Prop :=
  match findName nd.data (cname name) with
  | some _ => r = false ∧ ∃ g', After orphans g g' ∧ Holds sb orphans g' s'
  | none => r = true ∧ ∃ j,
      (j < entCount nd.data ∧ entInum nd.data j = 0 ∨ DIRENT * j = nd.data.length) ∧
      Holds sb orphans (g.setNode (g.inum dp) (some { nd with
        data := overwrite nd.data (DIRENT * j) (direntBytes inum name) })) s'

theorem dirlink_spec (h : Holds e.sb orphans g s) (hlock : g.lock dp = true)
    (hnd : g.node dp = some nd) (hdir : nd.type = T_DIR) (name : List UInt8) {inum : ℕ}
    (hinum : inum < e.sb.ninodes) :
    Wp (dirlink e dp name inum) s (Linked e.sb orphans g dp nd name inum) LinkFails := by
  unfold dirlink Linked
  refine ((dirlookup_spec h hlock hnd hdir name).mono (fun _ _ => id) fun _ => .inl).bind ?_
  intro r s' hr
  -- if the name has an entry, the reference to its inode is given back
  cases hfind : findName nd.data (cname name) with
  | some j =>
    rw [hfind] at hr
    obtain ⟨ip, rfl, hin, hs'⟩ := hr
    have hown : 0 < (g.take ip (entInum nd.data j)).own ip := by simp
    refine ((iput_or_hang_spec hs' hown).mono (fun _ _ => id)
      fun _ herr => .inr (.inl herr)).bind ?_
    rintro - s₁ ⟨g', hputs, hs₁⟩
    exact ⟨rfl, g', (After.refl _ _).put hs'.unique hin hputs, hs₁⟩
  | none =>
    rw [hfind] at hr
    obtain ⟨rfl, rfl⟩ := hr
    rw [Wp.bind_iff, wp_inode, (h.size_eq hlock hnd).1]
    refine (((h.view hlock hnd hdir).emptyLoop (i := 0) le_rfl (Nat.zero_le _) nofun).mono
      (fun _ _ => id) fun _ herr => .inr (.inr (.inl herr.1))).bind ?_
    rintro off s₁ ⟨rfl, j, rfl, -, hj⟩
    have hdev : nd.type ≠ T_DEV := by rw [hdir]; exact T_DIR_ne_T_DEV
    have hoff : DIRENT * j ≤ nd.data.length := by
      rcases hj with hj | hj
      · have := hj.1
        rw [entCount] at this
        simp only [DIRENT_eq] at *
        omega
      · exact hj.le
    by_cases hmax : DIRENT * j + DIRENT ≤ MAXFILE * BSIZE
    · have hsmall : inum < 2 ^ 16 := hinum.trans_le h.layout.ninodes_le
      refine ((writei_ip_spec h hlock hnd hdev hoff (by rwa [direntBytes_length])
        fun _ => ?_).mono (fun _ _ => id) fun _ herr => .inr (.inr (.inr (.inr herr)))).bind ?_
      · refine (h.dirs _ _ hnd hdir).overwrite hoff (direntBytes_length _ _) ?_
        rwa [direntInum_direntBytes hsmall]
      · rintro r s₂ ⟨rfl, hs₂⟩
        rw [direntBytes_length, if_pos rfl, Wp.pure_iff]
        exact ⟨rfl, j, hj, hs₂⟩
    · refine ((writei_ip_rejected h hlock hnd hdev (by rw [direntBytes_length]; decide) ?_).mono
        (fun _ _ => id) fun _ => False.elim).bind ?_
      · rw [direntBytes_length]
        omega
      · rintro r s₂ ⟨rfl, rfl⟩
        rw [if_neg (by simp), Wp.throw_iff]
        exact .inr (.inr (.inr (.inl rfl)))

end Dirlink

/-! ### Path names -/

/-- An entry in use of directory `a` names inode `b`. -/
def Edge (N : ℕ → Option Node) (a b : ℕ) : Prop :=
  ∃ nd i, N a = some nd ∧ nd.type = T_DIR ∧ i < entCount nd.data ∧ entInum nd.data i = b ∧ b ≠ 0

/-- A path of entries in use leads from inode `a` to inode `b`. -/
def Reaches (N : ℕ → Option Node) : ℕ → ℕ → Prop := Relation.ReflTransGen (Edge N)

theorem skipelem_length {path name rest : List UInt8} (h : skipelem path = some (name, rest)) :
    rest.length < path.length := by
  unfold skipelem at h
  split at h
  case h_1 => cases h
  case h_2 c l hpath =>
    obtain ⟨-, rfl⟩ := Prod.mk.inj (Option.some.inj h)
    have hle : (c :: l).length ≤ path.length := by
      rw [← hpath]
      exact (List.dropWhile_suffix _).length_le
    have hc : c ≠ slash := by
      have := List.head?_dropWhile_not (fun x => decide (x = slash)) path
      rw [hpath] at this
      simpa using this
    have hshort : ((c :: l).dropWhile (· ≠ slash)).length ≤ l.length := by
      rw [List.dropWhile_cons_of_pos (by simpa using hc)]
      exact (List.dropWhile_suffix _).length_le
    have := (List.dropWhile_suffix (fun x => decide (x = slash))
      (l := (c :: l).dropWhile (· ≠ slash))).length_le
    simp only [List.length_cons] at hle
    omega

/-- The walk of `namex` along a path as a function of the nodes: the inode it ends at, with the
last name if the parent is wanted. -/
def walk (N : ℕ → Option Node) (nameiparent : Bool) :
    ℕ → ℕ → List UInt8 → Option (ℕ × List UInt8)
  | 0, _, _ => none
  | fuel + 1, n, path =>
    match skipelem path with
    | none => if nameiparent then none else some (n, [])
    | some (name, path) =>
      match N n with
      | none => none
      | some nd =>
        if nd.type ≠ T_DIR then none
        else if nameiparent ∧ path = [] then some (n, name)
        else
          match findName nd.data (cname name) with
          | none => none
          | some j => walk N nameiparent fuel (entInum nd.data j) path

/-- The walk along a path from the root or from the directory `c`. -/
def resolve (N : ℕ → Option Node) (c : ℕ) (path : List UInt8) (nameiparent : Bool) :
    Option (ℕ × List UInt8) :=
  walk N nameiparent (path.length + 1) (if path.head? = some slash then ROOTINO else c) path

/-- The inode is reached from the root or from the directory `c`. -/
def Reached (N : ℕ → Option Node) (c m : ℕ) : Prop := Reaches N ROOTINO m ∨ Reaches N c m

theorem Reached.tail {N : ℕ → Option Node} {c m n : ℕ} (h : Reached N c m) (hedge : Edge N m n) :
    Reached N c n :=
  h.imp (fun h => h.tail hedge) fun h => h.tail hedge

theorem reaches_of_walk {N : ℕ → Option Node} {nameiparent : Bool} {fuel n m : ℕ}
    {path name : List UInt8} (h : walk N nameiparent fuel n path = some (m, name)) :
    Reaches N n m := by
  induction fuel generalizing n path with
  | zero => cases h
  | succ fuel ih =>
    rw [walk] at h
    split at h
    case h_1 =>
      split_ifs at h
      obtain ⟨rfl, -⟩ := Prod.mk.inj (Option.some.inj h)
      exact .refl
    case h_2 x rest hskip =>
      split at h
      case h_1 => cases h
      case h_2 nd hnd =>
        split_ifs at h with hdir hlast
        · obtain ⟨rfl, -⟩ := Prod.mk.inj (Option.some.inj h)
          exact .refl
        · split at h
          case h_1 => cases h
          case h_2 j hfind =>
            obtain ⟨hj, hne, -⟩ := findName_eq_some_iff.mp hfind
            exact .head ⟨nd, j, hnd, by simpa using hdir, hj, rfl, hne⟩ (ih h)

theorem reached_of_resolve {N : ℕ → Option Node} {c m : ℕ} {path name : List UInt8}
    {nameiparent : Bool} (h : resolve N c path nameiparent = some (m, name)) : Reached N c m := by
  have hreach := reaches_of_walk h
  split_ifs at hreach
  · exact .inl hreach
  · exact .inr hreach

/-- How a call that walks along paths may fail at a free inode. -/
def Dangles (orphans : Set ℕ) (N : ℕ → Option Node) (c : ℕ) (err : Fault) : Prop :=
  err = .panic .ilockNoType ∧ ∃ m, Reached N c m ∧ (N m = none ∨ m ∈ orphans)

section Taken

variable {e : Env} {orphans : Set ℕ} {g g₁ : Ghost} {s s₀ : Ic} {ip : Ip} {n : ℕ}

/-- A reference that was taken since `g`. -/
theorem After.taken (hafter : After orphans (g.take ip n) g₁) :
    0 < g₁.own ip ∧ 0 < g₁.refs ip ∧ g₁.inum ip = n := by
  have hpos : 0 < (g.take ip n).refs ip := by
    rw [Ghost.refs_take, if_pos rfl]
    omega
  refine ⟨?_, by rwa [hafter.refs], ?_⟩
  · rw [hafter.own]
    simp
  · rw [hafter.inum ip hpos]
    simp

/-- An entry in use stands for the same inode as before the call. -/
theorem After.inum_of (hafter : After orphans (g.take ip n) g₁)
    (hin : 0 < g.refs ip → g.inum ip = n) {jp : Ip} {m : ℕ}
    (hin' : 0 < g₁.refs jp → g₁.inum jp = m) : 0 < g.refs jp → g.inum jp = m := by
  intro hpos
  have hpos' := hpos.trans_le (g.refs_le_take ip jp n)
  rw [← Ghost.inum_take hin hpos, ← hafter.inum jp hpos']
  exact hin' (by rwa [← hafter.refs] at hpos')

/-- Unlock and drop a reference that was taken since `g`, keeping another one. -/
theorem iunlockput_swap (h₀ : Holds e.sb orphans g s₀) (hunlocked : g.lock ip = false)
    (hafter : After orphans (g.take ip n) g₁)
    (hin : 0 < g.refs ip → g.inum ip = n) {jp : Ip} {m : ℕ}
    (h : Holds e.sb orphans ((g₁.setLock ip true).take jp m) s) :
    Wp (iunlockput e ip) s
      (fun _ s' => ∃ g', After orphans (g.take jp m) g' ∧ Holds e.sb orphans g' s')
      fun _ => False := by
  have hlive : (g.take ip n).Garbage m → m ∈ orphans := fun hgarb =>
    h₀.orphan_of_garbage (hgarb.of_take hin)
  have hown : 0 < ((g₁.setLock ip true).take jp m).own ip := by
    by_cases hij : ip = jp
    · simp [hij]
    · simpa [hij] using hafter.taken.1
  refine (iunlockput_spec h hown (by simp)).mono ?_ fun _ => id
  rintro - s' ⟨g', hputs, hs'⟩
  exact ⟨g', ((After.relock hafter hunlocked).take jp hlive).swap h.unique hin hputs, hs'⟩

/-- Lock an inode that the call has reached. -/
theorem ilock_taken (h₀ : Holds e.sb orphans g s₀) (hunlocked : g.lock ip = false)
    (h : Holds e.sb orphans g₁ s) (hafter : After orphans (g.take ip n) g₁)
    (hin : 0 < g.refs ip → g.inum ip = n) {c : ℕ} (hreach : Reached g.nodes c n) :
    Wp (ilock e ip) s
      (fun _ s' => Holds e.sb orphans (g₁.setLock ip true) s' ∧
        ∃ nd, g.nodes n = some nd ∧ (g₁.setLock ip true).node ip = some nd)
      (Dangles orphans g.nodes c) := by
  obtain ⟨-, hpos, hn⟩ := hafter.taken
  refine (ilock_spec h hpos).mono ?_ ?_
  · rintro - s₁ ⟨h₁, hnode, -⟩
    obtain ⟨nd, hnd⟩ := Option.ne_none_iff_exists'.mp hnode
    refine ⟨h₁, nd, ?_, hnd⟩
    rw [Ghost.node, hn] at hnd
    exact hafter.nodes_some hnd
  · rintro err (⟨-, hl⟩ | ⟨rfl, hnone⟩)
    · rw [hafter.lock] at hl
      exact absurd hl (by rw [Ghost.take_lock, hunlocked]; simp)
    · rw [Ghost.node, hn] at hnone
      refine ⟨rfl, n, hreach, (hafter.nodes_none hnone).imp_right ?_⟩
      exact fun hm => hm.elim id fun hgarb => h₀.orphan_of_garbage (hgarb.of_take hin)

/-- Unlock and drop a reference that was taken since `g`. -/
theorem iunlockput_taken (h : Holds e.sb orphans g₁ s)
    (hafter : After orphans ((g.take ip n).setLock ip true) g₁) (hunlocked : g.lock ip = false)
    (hin : 0 < g.refs ip → g.inum ip = n) :
    Wp (iunlockput e ip) s (fun _ s' => ∃ g', After orphans g g' ∧ Holds e.sb orphans g' s')
      fun _ => False := by
  have hown : 0 < g₁.own ip := by
    rw [hafter.own]
    simp
  have hlock : g₁.lock ip = true := by
    rw [hafter.lock]
    simp
  refine (iunlockput_spec h hown hlock).mono ?_ fun _ => id
  rintro - s' ⟨g', hputs, hs'⟩
  refine ⟨g', After.put (n := n) ?_ (show (g₁.setLock ip false).Unique from h.unique) hin hputs,
    hs'⟩
  have heq : ((g.take ip n).setLock ip true).setLock ip false = g.take ip n := by
    ext1 <;> try rfl
    simp [← hunlocked]
  rw [← heq]
  exact hafter.setLock ip false

end Taken

/-- What a walk that should end at `w` returns: nothing, or a reference to the inode there. -/
def Walked (sb : SuperBlock) (orphans : Set ℕ) (g : Ghost) (nameiparent : Bool)
    (w : Option (ℕ × List UInt8)) (r : Option (Ip × List UInt8)) (s' : Ic) : Prop :=
  match r with
  | none => w = none ∧ ∃ g', After orphans g g' ∧ Holds sb orphans g' s'
  | some (ip, name) => ∃ g' m, w = some (m, name) ∧ After orphans (g.take ip m) g' ∧
      Holds sb orphans g' s' ∧ (0 < g.refs ip → g.inum ip = m) ∧
      (nameiparent = true → ∃ nd, g'.nodes m = some nd ∧ nd.type = T_DIR)

/-- How the lookups of a walk may fail: with one more reference the cache is full, or the last entry
of a directory is cut short. -/
def PathFails (g : Ghost) (err : Fault) : Prop :=
  (err = .panic .iget ∧ ∃ ip, ∀ jp, jp ≠ ip → 0 < g.refs jp) ∨
    err = .panic .dirlookupRead ∧
      ∃ n nd, g.nodes n = some nd ∧ nd.type = T_DIR ∧ ¬ DIRENT ∣ nd.data.length

theorem PathFails.lookup {g : Ghost} {err : Fault} (h : PathFails g err) : LookupFails err :=
  h.imp And.left And.left

/-- How a walk from inode `n` may fail: in a lookup, or at an entry for a free inode. -/
def WalkFails (orphans : Set ℕ) (g : Ghost) (n : ℕ) (err : Fault) : Prop :=
  PathFails g err ∨
    err = .panic .ilockNoType ∧ ∃ m, Reaches g.nodes n m ∧ (g.nodes m = none ∨ m ∈ orphans)

section Namex

variable {e : Env} {orphans : Set ℕ} {g g₁ : Ghost} {s s₀ : Ic} {ip : Ip} {n n₀ : ℕ}

theorem namexLoop_spec (h₀ : Holds e.sb orphans g s₀) (hunlocked : ∀ ip, g.lock ip = false)
    (nameiparent : Bool) {fuel : ℕ} {path : List UInt8} (hfuel : path.length < fuel)
    (h : Holds e.sb orphans g₁ s) (hafter : After orphans (g.take ip n) g₁)
    (hin : 0 < g.refs ip → g.inum ip = n) (hreach : Reaches g.nodes n₀ n) :
    Wp (namexLoop e nameiparent fuel ip path) s
      (Walked e.sb orphans g nameiparent (walk g.nodes nameiparent fuel n path))
      (WalkFails orphans g n₀) := by
  induction fuel generalizing g₁ s ip n path with
  | zero => omega
  | succ fuel ih =>
    have hpos : 0 < g₁.refs ip := by
      rw [hafter.refs, Ghost.refs_take, if_pos rfl]
      omega
    have hown : 0 < g₁.own ip := by
      rw [hafter.own]
      simp
    have hlock : g₁.lock ip = false := by
      rw [hafter.lock]
      exact hunlocked ip
    have hn : g₁.inum ip = n := by
      rw [hafter.inum ip (by rw [Ghost.refs_take, if_pos rfl]; omega)]
      simp
    rw [namexLoop, walk]
    cases hskip : skipelem path with
    | none =>
      cases nameiparent with
      | true =>
        refine ((iput_spec h hown hlock).mono (fun _ _ => id) fun _ => False.elim).bind ?_
        rintro - s' ⟨g', hputs, hs'⟩
        exact ⟨rfl, g', hafter.put h.unique hin hputs, hs'⟩
      | false => exact ⟨g₁, n, rfl, hafter, h, hin, fun hp => by cases hp⟩
    | some next =>
      obtain ⟨name, rest⟩ := next
      refine ((ilock_spec h hpos).mono (fun _ _ => id) ?_).bind ?_
      · rintro err (⟨-, hl⟩ | ⟨rfl, hnone⟩)
        · rw [hlock] at hl
          cases hl
        · rw [Ghost.node, hn] at hnone
          refine .inr ⟨rfl, n, hreach, (hafter.nodes_none hnone).imp_right ?_⟩
          exact fun hm => hm.elim id fun hgarb => h₀.orphan_of_garbage (hgarb.of_take hin)
      · rintro - s₁ ⟨hs₁, hnode, -⟩
        obtain ⟨nd, hnd⟩ := Option.ne_none_iff_exists'.mp hnode
        have hself : (g₁.setLock ip true).lock ip = true := by simp
        have hnd' : (g₁.setLock ip true).node ip = some nd := hnd
        rw [Ghost.node, hn] at hnd
        have hold : g.nodes n = some nd := hafter.nodes_some hnd
        simp only [hold]
        -- giving `ip` back leaves nothing behind
        have hback := After.relock hafter (hunlocked ip)
        have hput : Wp (do iunlockput e ip; return none) s₁
            (Walked e.sb orphans g nameiparent none) (WalkFails orphans g n₀) := by
          refine ((iunlockput_spec hs₁ hown hself).mono (fun _ _ => id) fun _ => False.elim).bind ?_
          rintro - s' ⟨g', hputs, hs'⟩
          exact ⟨rfl, g', hback.put hs₁.unique hin hputs, hs'⟩
        rw [Wp.bind_iff, wp_inode, (hs₁.size_eq hself hnd').2.1]
        by_cases hdir : nd.type = T_DIR
        · simp only [if_neg (not_not.mpr hdir)]
          by_cases hlast : nameiparent = true ∧ rest = []
          · simp only [if_pos hlast]
            refine ((iunlock_spec hs₁ hself).mono (fun _ _ => id) fun _ => False.elim).bind ?_
            rintro - s₂ hs₂
            exact ⟨_, n, rfl, hback, hs₂, hin, fun _ => ⟨nd, hnd, hdir⟩⟩
          · simp only [if_neg hlast]
            refine ((dirlookup_cases hs₁ hself hnd' hdir name).mono (fun _ _ => id) ?_).bind ?_
            · rintro err (⟨rfl, hfull⟩ | ⟨rfl, hragged⟩)
              · refine .inl (.inl ⟨rfl, ip, fun jp hjp => ?_⟩)
                have hpos : 0 < g₁.refs jp := hfull jp
                rwa [hafter.refs, Ghost.refs_take, if_neg hjp] at hpos
              · exact .inl (.inr ⟨rfl, n, nd, hold, hdir, hragged⟩)
            intro r s₂ hr
            cases hfind : findName nd.data (cname name) with
            | none =>
              rw [hfind] at hr
              obtain ⟨rfl, rfl⟩ := hr
              exact hput
            | some j =>
              rw [hfind] at hr
              obtain ⟨jp, rfl, hin', hs₂⟩ := hr
              obtain ⟨hj, hne, -, -⟩ := findName_eq_some_iff.mp hfind
              refine ((iunlockput_swap h₀ (hunlocked ip) hafter hin hs₂).mono (fun _ _ => id)
                fun _ => False.elim).bind ?_
              rintro - s₃ ⟨g', hafter', hs₃⟩
              refine ih (by have := skipelem_length hskip; omega)
                hs₃ hafter' (hafter.inum_of hin hin')
                (hreach.tail ?_)
              exact ⟨nd, j, hold, hdir, hj, rfl, hne⟩
        · simp only [if_pos hdir]
          exact hput

theorem namex_spec (h : Holds e.sb orphans g s) (hunlocked : ∀ ip, g.lock ip = false) {cwd : Ip}
    (hcwd : 0 < g.refs cwd) (path : List UInt8) (nameiparent : Bool) :
    Wp (namex e cwd path nameiparent) s
      (Walked e.sb orphans g nameiparent (resolve g.nodes (g.inum cwd) path nameiparent))
      fun err => PathFails g err ∨ Dangles orphans g.nodes (g.inum cwd) err := by
  have hloop : ∀ n₀ ip s', (∀ m, Reaches g.nodes n₀ m → Reached g.nodes (g.inum cwd) m) →
      Holds e.sb orphans (g.take ip n₀) s' → (0 < g.refs ip → g.inum ip = n₀) →
      Wp (namexLoop e nameiparent (path.length + 1) ip path) s'
        (Walked e.sb orphans g nameiparent (walk g.nodes nameiparent (path.length + 1) n₀ path))
        fun err => PathFails g err ∨ Dangles orphans g.nodes (g.inum cwd) err := by
    intro n₀ ip s' hfrom hs' hin
    refine (namexLoop_spec h hunlocked nameiparent (Nat.lt_succ_self _) hs' (After.refl _ _) hin
      .refl).mono (fun _ _ => id) ?_
    rintro err (hlook | ⟨rfl, m, hreach, hm⟩)
    · exact .inl hlook
    · exact .inr ⟨rfl, m, hfrom m hreach, hm⟩
  unfold namex resolve
  by_cases hroot : path.head? = some slash
  · rw [if_pos hroot, if_pos hroot]
    refine ((iget_spec h h.layout.root_lt).mono (fun _ _ => id)
      fun _ herr => .inl (.inl ⟨herr.1, cwd, fun jp _ => herr.2 jp⟩)).bind ?_
    rintro ip s' ⟨hs', hin⟩
    exact hloop ROOTINO ip s' (fun _ => .inl) hs' hin
  · rw [if_neg hroot, if_neg hroot]
    refine ((idup_spec h hcwd).mono (fun _ _ => id) fun _ => False.elim).bind ?_
    rintro ip s' ⟨rfl, hs'⟩
    exact hloop (g.inum ip) ip s' (fun _ => .inr) hs' fun _ => rfl

end Namex

end Xv6.Fs
