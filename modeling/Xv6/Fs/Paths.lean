import Xv6.Fs.NameCalls

/-!
# Path names as lists of names

A path is the list of the names between its slashes. `skipelem` yields these names one by one, and
`namex` follows them from directory to directory: the inode of a path is a fold over its names. What
the walk takes on its way it gives back, and it needs two entries of the inode cache: one for the
directory it is in and one for the inode it goes to.
-/

namespace Xv6.Fs

open Lib

/-! ### The names in a path -/

/-- The nonempty names between the slashes of a path, each cut to `DIRSIZ` bytes. -/
def components (path : List UInt8) : List (List UInt8) :=
  ((path.splitOn slash).filter (· ≠ [])).map (·.take DIRSIZ)

/-- The names that `skipelem` yields when it is applied until it returns 0. -/
def elements (path : List UInt8) : List (List UInt8) :=
  match _hskip : skipelem path with
  | none => []
  | some (name, rest) => name :: elements rest
termination_by path.length
decreasing_by exact skipelem_length _hskip

section Components

variable {path rest name x : List UInt8}

@[simp] theorem components_nil : components [] = [] := rfl

theorem components_append_slash (x p : List UInt8) :
    components (x ++ slash :: p) = components x ++ components p := by
  simp [components, List.splitOn_append_cons_self]

theorem components_slash (p : List UInt8) : components (slash :: p) = components p :=
  components_append_slash [] p

theorem components_name (hx : x ≠ []) (hno : ∀ c ∈ x, c ≠ slash) :
    components x = [x.take DIRSIZ] := by
  have hsplit : x.splitOn slash = [x] :=
    List.splitOn_eq_singleton fun hmem => hno slash hmem rfl
  simp [components, hsplit, hx]

theorem components_dropWhile (p : List UInt8) :
    components (p.dropWhile (· = slash)) = components p := by
  induction p with
  | nil => rfl
  | cons c p ih =>
    by_cases hc : c = slash
    · subst hc
      rw [List.dropWhile_cons_of_pos (by simp), ih, components_slash]
    · rw [List.dropWhile_cons_of_neg (by simpa using hc)]

/-- The first name of a path that does not start with a slash. -/
theorem components_cons {c : UInt8} {p : List UInt8} (hc : c ≠ slash) :
    components (c :: p) = ((c :: p).takeWhile (· ≠ slash)).take DIRSIZ ::
      components ((c :: p).dropWhile (· ≠ slash)) := by
  have hsplit := List.takeWhile_append_dropWhile (p := fun x => decide (x ≠ slash)) (l := c :: p)
  have hname : components ((c :: p).takeWhile (· ≠ slash)) =
      [((c :: p).takeWhile (· ≠ slash)).take DIRSIZ] := by
    refine components_name ?_ fun a ha => by simpa using List.all_eq_true.mp List.all_takeWhile a ha
    rw [List.takeWhile_cons_of_pos (by simpa using hc)]
    exact List.cons_ne_nil _ _
  -- what follows the name is empty or starts with a slash
  cases hrest : (c :: p).dropWhile (· ≠ slash) with
  | nil =>
    rw [hrest, List.append_nil] at hsplit
    rw [components_nil, ← hname, hsplit]
  | cons a q =>
    have ha : a = slash := by
      have := List.head?_dropWhile_not (fun x => decide (x ≠ slash)) (c :: p)
      rw [hrest] at this
      simpa using this
    subst ha
    rw [hrest] at hsplit
    nth_rewrite 1 [← hsplit]
    rw [components_append_slash, hname, components_slash]
    rfl

theorem components_of_skipelem_none (h : skipelem path = none) : components path = [] := by
  unfold skipelem at h
  split at h
  case h_1 hdrop => rw [← components_dropWhile, hdrop, components_nil]
  case h_2 => cases h

/-- One application of `skipelem` takes the first name off a path. -/
theorem components_of_skipelem (h : skipelem path = some (name, rest)) :
    components path = name :: components rest ∧ (components rest = [] ↔ rest = []) := by
  unfold skipelem at h
  split at h
  case h_1 => cases h
  case h_2 c p hdrop =>
    obtain ⟨rfl, rfl⟩ := Prod.mk.inj (Option.some.inj h)
    have hc : c ≠ slash := by
      have := List.head?_dropWhile_not (fun x => decide (x = slash)) path
      rw [hdrop] at this
      simpa using this
    refine ⟨?_, fun hnil => ?_, fun hnil => by rw [hnil, components_nil]⟩
    · rw [← components_dropWhile path, hdrop, components_cons hc, components_dropWhile]
    · cases hrest : ((c :: p).dropWhile (· ≠ slash)).dropWhile (· = slash) with
      | nil => rfl
      | cons a q =>
        have ha : a ≠ slash := by
          have := List.head?_dropWhile_not (fun x => decide (x = slash))
            ((c :: p).dropWhile (· ≠ slash))
          rw [hrest] at this
          simpa using this
        rw [hrest, components_cons ha] at hnil
        cases hnil

theorem elements_eq_components (path : List UInt8) : elements path = components path := by
  fun_induction elements path with
  | case1 path h => rw [components_of_skipelem_none h]
  | case2 path name rest h ih => rw [ih, (components_of_skipelem h).1]

end Components

/-! ### The walk as a fold -/

/-- The inode that the directory `n` has the name `x` for. -/
def child (N : ℕ → Option Node) (n : ℕ) (x : List UInt8) : Option ℕ :=
  (N n).bind fun nd =>
    if nd.type = T_DIR then (findName nd.data (cname x)).map (entInum nd.data) else none

/-- The inode that a list of names leads to. -/
def follow (N : ℕ → Option Node) (n : ℕ) (names : List (List UInt8)) : Option ℕ :=
  names.foldlM (child N) n

/-- The inode is a directory. -/
abbrev IsDir (N : ℕ → Option Node) (n : ℕ) : Prop := (N n).map Node.type = some T_DIR

section Walk

variable {N : ℕ → Option Node} {fuel n : ℕ} {path : List UInt8}

theorem child_eq_some_iff {m : ℕ} {x : List UInt8} : child N n x = some m ↔
    ∃ nd j, N n = some nd ∧ nd.type = T_DIR ∧ findName nd.data (cname x) = some j ∧
      entInum nd.data j = m := by
  unfold child
  cases hnd : N n with
  | none => simp
  | some nd => by_cases hdir : nd.type = T_DIR <;> simp [hdir]

theorem child_eq_none_iff {nd : Node} {x : List UInt8} (hnd : N n = some nd) :
    child N n x = none ↔ nd.type ≠ T_DIR ∨ findName nd.data (cname x) = none := by
  by_cases hdir : nd.type = T_DIR <;> simp [child, hnd, hdir]

@[simp] theorem follow_nil : follow N n [] = some n := rfl

theorem follow_cons (x : List UInt8) (xs : List (List UInt8)) :
    follow N n (x :: xs) = (child N n x).bind fun m => follow N m xs := by
  rw [follow, List.foldlM_cons]
  rfl

theorem follow_concat (x : List UInt8) (xs : List (List UInt8)) :
    follow N n (xs ++ [x]) = (follow N n xs).bind fun m => child N m x := by
  rw [follow, List.foldlM_append]
  simp [follow]

theorem reaches_of_follow {names : List (List UInt8)} {m : ℕ} (h : follow N n names = some m) :
    Reaches N n m := by
  induction names generalizing n with
  | nil =>
    obtain rfl := Option.some.inj h
    exact .refl
  | cons x xs ih =>
    rw [follow_cons] at h
    obtain ⟨a, ha, hrest⟩ := Option.bind_eq_some_iff.mp h
    obtain ⟨nd, j, hnd, hdir, hfind, rfl⟩ := child_eq_some_iff.mp ha
    obtain ⟨hj, hne, -⟩ := findName_eq_some_iff.mp hfind
    exact .head ⟨nd, j, hnd, hdir, hj, rfl, hne⟩ (ih hrest)

/-- The walk stops where a name is not found in a directory. -/
theorem follow_eq_none_iff {names : List (List UInt8)} :
    follow N n names = none ↔
      ∃ xs x ys a, names = xs ++ x :: ys ∧ follow N n xs = some a ∧ child N a x = none := by
  induction names generalizing n with
  | nil => simp
  | cons x xs ih =>
    rw [follow_cons]
    cases hchild : child N n x with
    | none => exact ⟨fun _ => ⟨[], x, xs, n, rfl, rfl, hchild⟩, fun _ => rfl⟩
    | some m =>
      rw [Option.bind_some, ih]
      constructor
      · rintro ⟨ys, y, zs, a, rfl, hys, hnone⟩
        exact ⟨x :: ys, y, zs, a, rfl, by rw [follow_cons, hchild, Option.bind_some, hys], hnone⟩
      · rintro ⟨ys, y, zs, a, heq, hys, hnone⟩
        cases ys with
        | nil =>
          obtain ⟨rfl, -⟩ := List.cons.inj heq
          obtain rfl := Option.some.inj hys
          rw [hchild] at hnone
          cases hnone
        | cons y' ys =>
          obtain ⟨rfl, rfl⟩ := List.cons.inj heq
          rw [follow_cons, hchild, Option.bind_some] at hys
          exact ⟨ys, y, zs, a, rfl, hys, hnone⟩

/-- Walking along a whole path. -/
theorem walk_false (hfuel : path.length < fuel) :
    walk N false fuel n path = (follow N n (components path)).map (·, []) := by
  induction fuel generalizing n path with
  | zero => omega
  | succ fuel ih =>
    rw [walk]
    cases hskip : skipelem path with
    | none => rw [components_of_skipelem_none hskip]; rfl
    | some next =>
      obtain ⟨name, rest⟩ := next
      have hlen := skipelem_length hskip
      rw [(components_of_skipelem hskip).1, follow_cons, child]
      cases hnd : N n with
      | none => rfl
      | some nd =>
        by_cases hdir : nd.type = T_DIR
        · cases hfind : findName nd.data (cname name) with
          | none => simp [hdir, hfind]
          | some j => simp [hdir, hfind, ih (show rest.length < fuel by omega)]
        · simp [hdir]

/-- Walking along a path to the directory that its last name is in. -/
theorem walk_true (hfuel : path.length < fuel) :
    walk N true fuel n path = (components path).getLast?.bind fun x =>
      (follow N n (components path).dropLast).bind fun a =>
        if IsDir N a then some (a, x) else none := by
  induction fuel generalizing n path with
  | zero => omega
  | succ fuel ih =>
    rw [walk]
    cases hskip : skipelem path with
    | none => rw [components_of_skipelem_none hskip]; rfl
    | some next =>
      obtain ⟨name, rest⟩ := next
      have hlen := skipelem_length hskip
      obtain ⟨hcomp, hlast⟩ := components_of_skipelem hskip
      rw [hcomp]
      by_cases hrest : rest = []
      · rw [hlast.mpr hrest]
        cases hnd : N n with
        | none => simp [IsDir, hnd]
        | some nd => by_cases hdir : nd.type = T_DIR <;> simp [IsDir, hnd, hdir, hrest]
      · have hne : components rest ≠ [] := fun h => hrest (hlast.mp h)
        rw [List.getLast?_cons_of_ne_nil hne, List.dropLast_cons_of_ne_nil hne, follow_cons, child]
        cases hnd : N n with
        | none => simp
        | some nd =>
          by_cases hdir : nd.type = T_DIR
          · cases hfind : findName nd.data (cname name) with
            | none => simp [hdir, hfind, hrest]
            | some j => simp [hdir, hfind, hrest, ih (show rest.length < fuel by omega)]
          · simp [hdir]

end Walk

/-! ### The calls -/

/-- Every entry in use names an inode, directories consist of whole entries, and the root and the
working directory `c` are there. -/
structure Tree (N : ℕ → Option Node) (c : ℕ) : Prop where
  edge : ∀ a b, Edge N a b → N b ≠ none
  whole : ∀ n nd, N n = some nd → nd.type = T_DIR → DIRENT ∣ nd.data.length
  root : N ROOTINO ≠ none
  cwd : N c ≠ none

/-- From `s` to `s'` the only new reference is that to the inode `r`, and no lock is held. -/
structure Counted (s s' : Ic) (r : Option Ip) : Prop where
  ref : ∀ ip, (s'.icache ip).ref = (s.icache ip).ref + if r = some ip then 1 else 0
  unlocked : ∀ ip, (s'.icache ip).lock = false

/-- Two entries of the inode cache are free. -/
def TwoFree (s : Ic) : Prop := ∃ ip jp, ip ≠ jp ∧ (s.icache ip).ref = 0 ∧ (s.icache jp).ref = 0

section Calls

variable {e : Env} {s s' : Ic} {cwd : Ip} {N : ℕ → Option Node} {c m : ℕ}

theorem Tree.reached (h : Tree N c) (hm : Reached N c m) : N m ≠ none := by
  have hfrom : ∀ n, N n ≠ none → Reaches N n m → N m ≠ none := by
    intro n hn hreach
    rcases hreach.cases_tail with rfl | ⟨a, -, hedge⟩
    · exact hn
    · exact h.edge a m hedge
  exact hm.elim (hfrom ROOTINO h.root) (hfrom c h.cwd)

theorem Tree.not_dangles (h : Tree N c) (err : Fault) : ¬ Dangles ∅ N c err := by
  rintro ⟨-, m, hreach, hnone | hmem⟩
  · exact h.reached hreach hnone
  · exact hmem

/-- With two free entries, one is left whichever entry is taken. -/
theorem TwoFree.exists_ne (h : TwoFree s) (ip : Ip) : ∃ jp, jp ≠ ip ∧ (s.icache jp).ref = 0 := by
  obtain ⟨ip₁, ip₂, hne, h₁, h₂⟩ := h
  by_cases heq : ip₁ = ip
  · exact ⟨ip₂, fun h => hne (heq.trans h.symm), h₂⟩
  · exact ⟨ip₁, heq, h₁⟩

theorem not_pathFails (htree : Tree (nodes e.sb s.disk) c) (hfree : TwoFree s) (err : Fault) :
    ¬ PathFails (Kern.ghost e.sb ⟨s, 0, cwd⟩) err := by
  rintro (⟨-, ip, hfull⟩ | ⟨-, n, nd, hnd, hdir, hragged⟩)
  · obtain ⟨jp, hjp, hzero⟩ := hfree.exists_ne ip
    have hpos : 0 < (s.icache jp).ref := hfull jp hjp
    omega
  · exact hragged (htree.whole n nd hnd hdir)

/-- A walk returns. -/
theorem namex_total (hwf : WellFormed e.sb ⟨s, 0, cwd⟩)
    (htree : Tree (nodes e.sb s.disk) (s.icache cwd).inum) (hfree : TwoFree s) (path : List UInt8)
    (nameiparent : Bool) :
    ∃ r s', namex e cwd path nameiparent s = .ok (r, s') ∧
      Walked e.sb ∅ (Kern.ghost e.sb ⟨s, 0, cwd⟩) nameiparent
        (resolve (nodes e.sb s.disk) (s.icache cwd).inum path nameiparent) r s' := by
  refine (namex_spec hwf.holds (fun _ => rfl) (Nat.add_pos_left hwf.cwd _) path
    nameiparent).exists_ok ?_
  rintro err (hpath | hdangles)
  · exact not_pathFails htree hfree err hpath
  · exact htree.not_dangles err hdangles

/-- What a walk returned, and the references it left. -/
theorem Walked.counted {nameiparent : Bool} {w : Option (ℕ × List UInt8)}
    {r : Option (Ip × List UInt8)}
    (h : Walked e.sb ∅ (Kern.ghost e.sb ⟨s, 0, cwd⟩) nameiparent w r s') :
    Counted s s' (r.map Prod.fst) ∧ (r.map fun d => ((s'.icache d.1).inum, d.2)) = w := by
  cases r with
  | none =>
    obtain ⟨rfl, g', hafter, h'⟩ := h
    refine ⟨⟨fun ip => ?_, fun ip => ?_⟩, rfl⟩
    · rw [h'.ref_eq, hafter.refs]
      rfl
    · rw [(h'.entry ip).lock, hafter.lock]
      rfl
  | some d =>
    obtain ⟨ip, name⟩ := d
    obtain ⟨g', m, rfl, hafter, h', hin, -⟩ := h
    obtain ⟨-, hpos, hinum⟩ := hafter.taken
    refine ⟨⟨fun jp => ?_, fun jp => ?_⟩, ?_⟩
    · rw [h'.ref_eq, hafter.refs, Ghost.refs_take]
      by_cases hjp : jp = ip
      · subst hjp
        simp [Ghost.refs, Kern.ghost]
      · simp [Ghost.refs, Kern.ghost, hjp, Ne.symm hjp]
    · rw [(h'.entry jp).lock, hafter.lock]
      rfl
    · rw [Option.map_some, (h'.entry ip).inum (by rwa [h'.ref_eq]), hinum]

/-- A lookup in the directory that `nameiparent` returned. -/
theorem Walked.dirlookup (hwf : WellFormed e.sb ⟨s, 0, cwd⟩)
    (htree : Tree (nodes e.sb s.disk) (s.icache cwd).inum) (hfree : TwoFree s)
    {path name : List UInt8}
    {dp : Ip} (h : Walked e.sb ∅ (Kern.ghost e.sb ⟨s, 0, cwd⟩) true
      (resolve (nodes e.sb s.disk) (s.icache cwd).inum path true) (some (dp, name)) s')
    (hm : child (nodes e.sb s.disk) (s'.icache dp).inum name = some m) :
    ∃ t ip off t', ilock e dp s' = .ok ((), t) ∧ dirlookup e dp name t = .ok (some (ip, off), t') ∧
      (t'.icache ip).inum = m := by
  obtain ⟨g', a, hres, hafter, h', hin, -⟩ := h
  obtain ⟨-, hpos, hinum⟩ := hafter.taken
  rw [(h'.entry dp).inum (by rwa [h'.ref_eq]), hinum] at hm
  obtain ⟨⟨⟩, t, hlock, ht, nd, hnd, hnode⟩ := (ilock_taken hwf.holds rfl h' hafter hin
    (reached_of_resolve hres)).exists_ok fun err => htree.not_dangles err
  -- the name has an entry in the directory
  have hnd' : nodes e.sb s.disk a = some nd := hnd
  obtain ⟨nd', j, hnd₂, hdir, hfind, rfl⟩ := child_eq_some_iff.mp hm
  obtain rfl := Option.some.inj (hnd'.symm.trans hnd₂)
  obtain ⟨r, t', hrun, hr⟩ := (dirlookup_cases ht (by simp) hnode hdir name).exists_ok <| by
    rintro err (⟨-, hfull⟩ | ⟨-, hragged⟩)
    · obtain ⟨jp, hjp, hzero⟩ := hfree.exists_ne dp
      have hused : 0 < g'.refs jp := hfull jp
      rw [hafter.refs, Ghost.refs_take, if_neg hjp] at hused
      exact absurd hzero (show 0 < (s.icache jp).ref from hused).ne'
    · exact hragged (htree.whole a nd hnd' hdir)
  rw [hfind] at hr
  obtain ⟨ip, rfl, -, ht'⟩ := hr
  refine ⟨t, ip, _, t', hlock, hrun, ?_⟩
  have hused : 0 < (t'.icache ip).ref := by
    rw [ht'.ref_eq, Ghost.refs_take, if_pos rfl]
    exact Nat.succ_pos _
  rw [(ht'.entry ip).inum hused]
  simp

end Calls

/-- Path resolution is a fold over the names in the path. -/
theorem path_resolution {e : Env} {s : Ic} {cwd : Ip} (hwf : WellFormed e.sb ⟨s, 0, cwd⟩)
    (htree : Tree (nodes e.sb s.disk) (s.icache cwd).inum) (hfree : TwoFree s) (path : List UInt8) :
    let N := nodes e.sb s.disk
    let start := if path.head? = some slash then ROOTINO else (s.icache cwd).inum
    elements path = components path ∧
    ∃ r s₁ q s₂, namei e cwd path s = .ok (r, s₁) ∧ nameiparent e cwd path s = .ok (q, s₂) ∧
      Counted s s₁ r ∧ Counted s s₂ (q.map Prod.fst) ∧
      (r.map fun ip => (s₁.icache ip).inum) = follow N start (components path) ∧
      (r = none ↔ ∃ xs x ys a nd, components path = xs ++ x :: ys ∧ follow N start xs = some a ∧
        N a = some nd ∧ (nd.type ≠ T_DIR ∨ findName nd.data (cname x) = none)) ∧
      (components path = [] → q = none) ∧
      (∀ xs x, components path = xs ++ [x] → (q.map fun d => ((s₂.icache d.1).inum, d.2)) =
        (follow N start xs).bind fun a => if IsDir N a then some (a, x) else none) ∧
      ∀ ip dp name, r = some ip → q = some (dp, name) →
        ∃ t ip' off t', ilock e dp s₂ = .ok ((), t) ∧
          dirlookup e dp name t = .ok (some (ip', off), t') ∧
          (t'.icache ip').inum = (s₁.icache ip).inum := by
  intro N start
  obtain ⟨r, s₁, hrun, hwalk⟩ := namex_total hwf htree hfree path false
  obtain ⟨q, s₂, hrun', hwalk'⟩ := namex_total hwf htree hfree path true
  obtain ⟨hcount, hr⟩ := hwalk.counted
  obtain ⟨hcount', hq⟩ := hwalk'.counted
  have hnamei : namei e cwd path s = .ok (r.map Prod.fst, s₁) := by
    refine Wp.eq_ok_of ?_
    rw [namei, Wp.bind_iff, Wp.of_eq hrun]
    exact ⟨rfl, rfl⟩
  have hfollow : ((r.map Prod.fst).map fun ip => (s₁.icache ip).inum) =
      follow N start (components path) := by
    have hmap := congrArg (Option.map Prod.fst) (hr.trans (walk_false (Nat.lt_succ_self _)))
    rw [Option.map_map, Option.map_map] at hmap
    rw [Option.map_map]
    exact hmap.trans (Option.map_id' ..)
  rw [resolve, walk_true (Nat.lt_succ_self _)] at hq
  have hfrom : ∀ a, Reaches N start a → Reached N (s.icache cwd).inum a := by
    intro a ha
    simp only [start] at ha
    split_ifs at ha
    · exact .inl ha
    · exact .inr ha
  refine ⟨elements_eq_components path, _, s₁, q, s₂, hnamei, hrun', hcount, hcount', hfollow, ?_,
    fun hnil => ?_, fun xs x hxs => ?_, fun ip dp name hip hdp => ?_⟩
  · rw [← Option.map_eq_none_iff (f := fun ip => (s₁.icache ip).inum), hfollow, follow_eq_none_iff]
    constructor
    · rintro ⟨xs, x, ys, a, hnames, ha, hchild⟩
      obtain ⟨nd, hnd⟩ := Option.ne_none_iff_exists'.mp
        (htree.reached (hfrom a (reaches_of_follow ha)))
      exact ⟨xs, x, ys, a, nd, hnames, ha, hnd, (child_eq_none_iff hnd).mp hchild⟩
    · rintro ⟨xs, x, ys, a, nd, hnames, ha, hnd, hchild⟩
      exact ⟨xs, x, ys, a, hnames, ha, (child_eq_none_iff hnd).mpr hchild⟩
  · rw [hnil] at hq
    exact Option.map_eq_none_iff.mp hq
  · rw [hxs, List.getLast?_concat, List.dropLast_concat] at hq
    exact hq
  · subst hdp
    refine hwalk'.dirlookup hwf htree hfree ?_
    -- the last name is looked up in the directory that the other names lead to
    obtain ⟨x, hx, hq⟩ := Option.bind_eq_some_iff.mp hq.symm
    obtain ⟨a, ha, hq⟩ := Option.bind_eq_some_iff.mp hq
    split_ifs at hq
    obtain ⟨rfl, rfl⟩ := Prod.mk.inj (Option.some.inj hq)
    rw [hip, ← List.dropLast_append_getLast? x hx, follow_concat, ha] at hfollow
    exact hfollow.symm

/-- Without entries there is nothing to go wrong. -/
theorem tree_of_empty {N : ℕ → Option Node} {c : ℕ} (hempty : ∀ n nd, N n = some nd → nd.data = [])
    (hroot : N ROOTINO ≠ none) (hcwd : N c ≠ none) : Tree N c := by
  refine ⟨?_, fun n nd hnd _ => ?_, hroot, hcwd⟩
  · rintro a b ⟨nd, i, hnd, -, hi, -⟩
    rw [hempty a nd hnd] at hi
    exact absurd hi (Nat.not_lt_zero i)
  · rw [hempty n nd hnd]
    exact dvd_zero _

/-- The root with a file `f` and a directory `a`, in which there is a file `b`. -/
def smallTree : List (ℕ × Node) :=
  [(ROOTINO, ⟨T_DIR, 0, 0, 1, direntBytes 2 [102] ++ direntBytes 3 [97]⟩),
    (2, ⟨T_FILE, 0, 0, 1, []⟩),
    (3, ⟨T_DIR, 0, 0, 1, direntBytes 3 dot ++ direntBytes ROOTINO dotdot ++ direntBytes 4 [98]⟩),
    (4, ⟨T_FILE, 0, 0, 1, []⟩)]

theorem tree_smallTree : Tree (listed smallTree) ROOTINO := by
  have hall : ∀ p ∈ smallTree, DIRENT ∣ p.2.data.length ∧ ∀ i < entCount p.2.data,
      (listed smallTree (entInum p.2.data i)).isSome := by decide +kernel
  refine ⟨?_, fun n nd hnd _ => (hall _ (mem_of_listed hnd)).1, by decide, by decide⟩
  rintro a b ⟨nd, i, hnd, -, hi, rfl, -⟩
  exact Option.isSome_iff_ne_none.mp ((hall _ (mem_of_listed hnd)).2 i hi)

theorem twoFree_boot (d : Disk) : TwoFree (boot () d).ic :=
  ⟨⟨1, by decide⟩, ⟨2, by decide⟩, by decide, rfl, rfl⟩

/-- `namei("/a/b")` and `nameiparent("/a/b")`. -/
theorem path_resolution_two_names :
    let e : Env := ⟨smallSb, fun _ => none⟩
    let s := (boot () (listedDisk smallSb smallTree)).ic
    let path : List UInt8 := [slash, 97, slash, 98]
    ∃ r s₁ q s₂, WellFormed e.sb ⟨s, 0, firstIp⟩ ∧ namei e firstIp path s = .ok (r, s₁) ∧
      (r.map fun ip => (s₁.icache ip).inum) = some 4 ∧
      nameiparent e firstIp path s = .ok (q, s₂) ∧
      (q.map fun d => ((s₂.icache d.1).inum, d.2)) = some (3, [98]) := by
  obtain ⟨hwf, hnodes⟩ := wellFormed_listedDisk smallSb_ok (l := smallTree) (by decide +kernel)
  generalize listedDisk smallSb smallTree = d at hwf hnodes ⊢
  intro e s path
  have hdisk : nodes e.sb s.disk = listed smallTree := hnodes
  have htree : Tree (nodes e.sb s.disk) (s.icache firstIp).inum := hdisk ▸ tree_smallTree
  obtain ⟨-, r, s₁, q, s₂, hrun, hrun', -, -, hr, -, -, hq, -⟩ :=
    path_resolution (e := e) hwf htree (twoFree_boot d) path
  have hstart : path.head? = some slash := rfl
  rw [hdisk, if_pos hstart] at hr hq
  exact ⟨r, s₁, q, s₂, hwf, hrun, hr.trans (by decide +kernel), hrun',
    (hq [[97]] [98] (by decide)).trans (by unfold IsDir; decide +kernel)⟩

/-! ### Paths that are not resolved -/

/-- The record of an empty directory. -/
def emptyDir : Dinode := { Dinode.blank T_DIR with nlink := 1 }

/-- A disk with empty directories. -/
def dirsDisk (sb : SuperBlock) : List ℕ → Disk
  | [] => emptyDisk sb
  | n :: ns => putDinode sb (dirsDisk sb ns) n emptyDir

section Dirs

variable {sb : SuperBlock} {ns : List ℕ} {n : ℕ}

theorem getDinode_dirsDisk (ns : List ℕ) (hok : sb.Ok) (hn : n < sb.ninodes) :
    if n ∈ ns then getDinode sb (dirsDisk sb ns) n = emptyDir
    else (getDinode sb (dirsDisk sb ns) n).type = 0 := by
  induction ns with
  | nil =>
    rw [if_neg List.not_mem_nil]
    exact type_emptyDisk hok hn
  | cons m ns ih =>
    by_cases hnm : n = m
    · subst hnm
      rw [if_pos (List.mem_cons_self ..), dirsDisk]
      exact getDinode_putDinode_self (Dinode.fits_blank T_DIR)
    · rw [dirsDisk, getDinode_putDinode_of_ne _ hnm]
      simpa [hnm] using ih

theorem sound_dirsDisk (hok : sb.Ok) (hns : ns.Nodup) (hlt : ∀ n ∈ ns, n < sb.ninodes) :
    Sound sb (dirsDisk sb ns) := by
  induction ns with
  | nil => exact sound_emptyDisk hok
  | cons m ns ih =>
    obtain ⟨hm, hns⟩ := List.nodup_cons.mp hns
    have hm' := hlt m (List.mem_cons_self ..)
    have hfree := getDinode_dirsDisk ns hok hm'
    rw [if_neg hm] at hfree
    exact (ih hns fun n hn => hlt n (List.mem_cons_of_mem _ hn)).putDinode_empty hok hm' hfree
      (fun _ => rfl) rfl

theorem nodes_dirsDisk (hok : sb.Ok) {nd : Node} (hnd : nodes sb (dirsDisk sb ns) n = some nd) :
    nd.nlink = 1 ∧ nd.data = [] := by
  obtain ⟨hlt, htype, rfl⟩ := nodes_eq_some_iff.mp hnd
  have hrec := getDinode_dirsDisk ns hok hlt
  split_ifs at hrec
  · rw [hrec]
    exact ⟨rfl, rfl⟩
  · exact absurd hrec htype

theorem nodes_dirsDisk_ne_none (hok : sb.Ok) (hlt : n < sb.ninodes) (hn : n ∈ ns) :
    nodes sb (dirsDisk sb ns) n ≠ none := by
  have hrec := getDinode_dirsDisk ns hok hlt
  rw [if_pos hn] at hrec
  rw [Ne, nodes_eq_none_iff]
  intro h
  have := h hlt
  rw [hrec] at this
  exact absurd this (by decide)

end Dirs

/-- A disk with room for 64 inodes. -/
def busySb : SuperBlock := ⟨68, 26, 64, 30, 2, 32, 41⟩

theorem busySb_ok : busySb.Ok := by
  refine ⟨fun b hi hm => ?_, by decide, by decide, by decide⟩
  simp only [SuperBlock.InodeBlock, SuperBlock.BitmapBlock, busySb, IPB, BPB, BSIZE] at hi hm
  omega

/-- The root is not in use, and every entry of the cache is for another directory. -/
def busyIc : Ic where
  disk := dirsDisk busySb (List.range' 1 51)
  icache ip := ⟨⟨ip + 2, 1, false, false⟩, .blank 0⟩

theorem wellFormed_busyIc : WellFormed busySb ⟨busyIc, 0, firstIp⟩ := by
  refine ⟨busySb_ok, ?_, fun n nd hn _ i hi => ?_, fun n nd hn hlink => ?_, fun ip _ => ?_,
    fun ip jp _ _ heq => ?_, nofun, fun _ => rfl, Nat.one_pos⟩
  · refine sound_dirsDisk busySb_ok List.nodup_range' fun n hn => ?_
    have := (List.mem_range'_1.mp hn).2
    simp only [busySb]
    omega
  · rw [(nodes_dirsDisk busySb_ok hn).2, List.length_nil, Nat.zero_div] at hi
    exact absurd hi (Nat.not_lt_zero i)
  · rw [(nodes_dirsDisk busySb_ok hn).1] at hlink
    exact absurd hlink (by decide)
  · have := ip.isLt
    simp only [busyIc, busySb, NINODE] at *
    omega
  · exact Fin.ext (Nat.add_right_cancel heq)

theorem tree_busyIc : Tree (nodes busySb busyIc.disk) (busyIc.icache firstIp).inum :=
  tree_of_empty (fun n nd hnd => (nodes_dirsDisk busySb_ok hnd).2)
    (nodes_dirsDisk_ne_none busySb_ok (by decide) (by decide))
    (nodes_dirsDisk_ne_none busySb_ok (by decide) (by decide))

/-- With a full cache `namei` panics, and `nameiparent` returns 0 for a path through a regular
file. -/
theorem path_resolution_fails :
    (WellFormed busySb ⟨busyIc, 0, firstIp⟩ ∧
      Tree (nodes busySb busyIc.disk) (busyIc.icache firstIp).inum ∧
      namei ⟨busySb, fun _ => none⟩ firstIp [slash] busyIc = .error (.panic .iget)) ∧
    ∃ fd s s', sysOpen ⟨smallSb, fun _ => none⟩ () firstIp [102] O_CREATE (boot () rootDisk) =
        .ok (some fd, s) ∧
      follow (nodes smallSb s.ic.disk) ROOTINO [[102]] = some 2 ∧
      nameiparent ⟨smallSb, fun _ => none⟩ firstIp [102, slash, 120] s.ic = .ok (none, s') := by
  refine ⟨⟨wellFormed_busyIc, tree_busyIc, rfl⟩, ?_⟩
  have hrun : ((sysOpen ⟨smallSb, fun _ => none⟩ () firstIp [102] O_CREATE
      (boot () rootDisk)).toOption.any fun a => a.1.isSome &&
        (follow (nodes smallSb a.2.ic.disk) ROOTINO [[102]] == some 2) &&
        (nameiparent ⟨smallSb, fun _ => none⟩ firstIp [102, slash, 120] a.2.ic).toOption.any
          fun b => b.1.isNone) = true := by decide +kernel
  obtain ⟨⟨r, s⟩, hs, hr⟩ := (Option.any_eq_true _ _).mp hrun
  rw [Bool.and_eq_true, Bool.and_eq_true] at hr
  obtain ⟨⟨hfd, hfollow⟩, hparent⟩ := hr
  obtain ⟨fd, rfl⟩ := Option.isSome_iff_exists.mp hfd
  obtain ⟨⟨q, s'⟩, hs', hq⟩ := (Option.any_eq_true _ _).mp hparent
  obtain rfl := Option.isNone_iff_eq_none.mp hq
  exact ⟨fd, s, s', eq_ok_of_toOption hs, eq_of_beq hfollow, eq_ok_of_toOption hs'⟩

end Xv6.Fs
