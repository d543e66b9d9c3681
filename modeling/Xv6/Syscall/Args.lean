import Xv6.Lib.Trace
import Xv6.Vm.Model

/-!
# System call arguments

The routines of `syscall.c` that fetch arguments from the memory of the calling process. They read
through user addresses, so each of them is a program together with the addresses that it reads.
Addresses and sizes are 32-bit integers: sums are taken modulo `2 ^ 32`, and a size is signed.
-/

namespace Xv6.Syscall

open Lib Traced

/-- The process that makes the call: its size, the user stack pointer, and the bytes at its
addresses. -/
structure Caller where
  sz : ℕ
  esp : ℕ
  mem : ℕ → UInt8

/-- Routines that read user memory, with the addresses read. -/
abbrev Fetch := Traced Empty ℕ Caller

/-- `*(char*)a`. -/
def readByte (a : ℕ) : Fetch UInt8 := record a do
  return (← get).mem a

/-- `*(int*)a`. -/
def readWord (a : ℕ) : Fetch ℕ := do
  let b₀ ← readByte a
  let b₁ ← readByte (a + 1)
  let b₂ ← readByte (a + 2)
  let b₃ ← readByte (a + 3)
  return leValue [b₀, b₁, b₂, b₃]

/-- Fetch the int at an address; `none` stands for -1. -/
def fetchint (addr : ℕ) : Fetch (Option ℕ) := do
  let p ← get
  if p.sz ≤ addr ∨ p.sz < (addr + 4) % 2 ^ 32 then return none
  else do
    let w ← readWord addr
    return some w

/-- The loop of `fetchstr` with the given number of addresses up to `ep`. -/
def fetchLoop (pp ep : ℕ) : ℕ → ℕ → Fetch (Option ℕ)
  | 0, _ => return none
  | n + 1, s =>
    if s < ep then do
      let c ← readByte s
      if c = 0 then return some (s - pp) else fetchLoop pp ep n (s + 1)
    else return none

/-- Find the string at an address: a pointer to it and its length. -/
def fetchstr (addr : ℕ) : Fetch (Option (ℕ × ℕ)) := do
  let p ← get
  if p.sz ≤ addr then return none
  else do
    let r ← fetchLoop addr p.sz (p.sz - addr) addr
    return r.map fun len => (addr, len)

/-- Fetch the `n`-th argument. -/
def argint (n : ℕ) : Fetch (Option ℕ) := do
  let p ← get
  fetchint ((p.esp + 4 + 4 * n) % 2 ^ 32)

/-- Fetch the `n`-th argument as a pointer to a block of memory. -/
def argptr (n : ℕ) (size : ℤ) : Fetch (Option ℕ) := do
  match ← argint n with
  | none => return none
  | some i => do
    let p ← get
    if size < 0 ∨ p.sz ≤ i ∨ p.sz < (i + size) % 2 ^ 32 then return none else return some i

/-- Fetch the `n`-th argument as a pointer to a string. -/
def argstr (n : ℕ) : Fetch (Option (ℕ × ℕ)) := do
  match ← argint n with
  | none => return none
  | some addr => fetchstr addr

namespace Caller

variable (p : Caller)

/-- The word at an address. -/
def word (a : ℕ) : ℕ := leValue [p.mem a, p.mem (a + 1), p.mem (a + 2), p.mem (a + 3)]

/-- Where the `n`-th argument is. -/
def argAddr (n : ℕ) : ℕ := (p.esp + 4 + 4 * n) % 2 ^ 32

/-- At `addr` there is a string of length `len`, with its NUL inside the process. -/
def IsString (addr len : ℕ) : Prop :=
  addr + len < p.sz ∧ p.mem (addr + len) = 0 ∧ ∀ i < len, p.mem (addr + i) ≠ 0

end Caller

section Fetch

variable {p : Caller} {addr : ℕ} {α : Type}

/-- The call changes nothing, returns what `R` says, and reads below the size of the process. -/
def Fetches (x : Fetch α) (p : Caller) (R : α → Prop) : Prop :=
  x.Spec p (fun r q l => q = p ∧ R r ∧ ∀ a ∈ l, a < p.sz) fun _ _ => False

theorem Fetches.mono {x : Fetch α} {R R' : α → Prop} (h : Fetches x p R) (hR : ∀ r, R r → R' r) :
    Fetches x p R' :=
  Spec.mono h (fun _ _ _ ⟨hq, hr, hl⟩ => ⟨hq, hR _ hr, hl⟩) fun _ _ => False.elim

theorem Fetches.bind {β : Type} {x : Fetch α} {f : α → Fetch β} {R : α → Prop} {R' : β → Prop}
    (h : Fetches x p R) (hf : ∀ a, R a → Fetches (f a) p R') : Fetches (x >>= f) p R' := by
  refine Spec.bind h (fun _ _ => False.elim) ?_
  rintro a _ l ⟨rfl, ha, hl⟩
  refine Spec.mono (hf a ha) (fun r q l' ⟨hq, hr, hl'⟩ => ⟨hq, hr, fun b hb => ?_⟩)
    fun _ _ => False.elim
  exact (List.mem_append.mp hb).elim (hl b) (hl' b)

theorem fetches_pure {a : α} {R : α → Prop} (h : R a) : Fetches (pure a) p R := by
  rw [Fetches, spec_pure]
  exact ⟨rfl, h, nofun⟩

theorem fetches_get_bind {f : Caller → Fetch α} {R : α → Prop} (h : Fetches (f p) p R) :
    Fetches (get >>= f) p R := by
  rw [Fetches, spec_get_bind]
  exact h

theorem readByte_spec {a : ℕ} (ha : a < p.sz) : Fetches (readByte a) p (· = p.mem a) := by
  unfold Fetches readByte Spec
  exact ⟨rfl, rfl, by simpa [record] using ha⟩

theorem readWord_spec (h : addr + 4 ≤ p.sz) : Fetches (readWord addr) p (· = p.word addr) := by
  unfold readWord
  refine (readByte_spec (by omega)).bind fun b₀ h₀ => ?_
  refine (readByte_spec (by omega)).bind fun b₁ h₁ => ?_
  refine (readByte_spec (by omega)).bind fun b₂ h₂ => ?_
  refine (readByte_spec (by omega)).bind fun b₃ h₃ => fetches_pure ?_
  rw [h₀, h₁, h₂, h₃, Caller.word]

/-- `fetchint` succeeds exactly for the words inside the process. -/
theorem fetchint_spec (hsz : p.sz ≤ Vm.KERNBASE) :
    Fetches (fetchint addr) p fun r => ∀ w, r = some w ↔ addr + 4 ≤ p.sz ∧ w = p.word addr := by
  have hbase : Vm.KERNBASE < 2 ^ 32 - 4 := by decide
  refine fetches_get_bind ?_
  split_ifs with h
  · refine fetches_pure fun w => iff_of_false nofun fun hw => ?_
    have hmod := Nat.mod_eq_of_lt (show addr + 4 < 2 ^ 32 by omega)
    omega
  · have hin : addr + 4 ≤ p.sz := by
      have hmod := Nat.mod_eq_of_lt (show addr + 4 < 2 ^ 32 by omega)
      omega
    refine (readWord_spec hin).bind fun w hw => fetches_pure fun v => ?_
    rw [hw, Option.some_inj, eq_comm]
    exact (and_iff_right hin).symm

/-- The loop of `fetchstr`, with no NUL before `s`. -/
theorem fetchLoop_spec {n s : ℕ} (hs : addr ≤ s) (hn : s + n = p.sz)
    (hbefore : ∀ a, addr ≤ a → a < s → p.mem a ≠ 0) :
    Fetches (fetchLoop addr p.sz n s) p fun r =>
      (∀ len, r = some len → p.IsString addr len) ∧
        (r = none → ∀ a, addr ≤ a → a < p.sz → p.mem a ≠ 0) := by
  induction n generalizing s with
  | zero =>
    refine fetches_pure ⟨nofun, fun _ a ha ha' => hbefore a ha ?_⟩
    omega
  | succ n ih =>
    rw [fetchLoop, if_pos (by omega)]
    refine (readByte_spec (by omega)).bind fun c hc => ?_
    split_ifs with hzero
    · refine fetches_pure ⟨fun len hlen => ?_, nofun⟩
      obtain rfl := Option.some.inj hlen
      refine ⟨by omega, ?_, fun i hi => hbefore _ (by omega) (by omega)⟩
      rw [show addr + (s - addr) = s by omega, ← hc, hzero]
    · refine ih (by omega) (by omega) fun a ha ha' => ?_
      rcases Nat.lt_succ_iff_lt_or_eq.mp ha' with hlt | rfl
      · exact hbefore a ha hlt
      · rwa [← hc]

/-- `fetchstr` succeeds exactly if there is a NUL, and returns the length of the string. -/
theorem fetchstr_spec : Fetches (fetchstr addr) p fun r =>
    (∀ q len, r = some (q, len) → q = addr ∧ p.IsString addr len) ∧
      (r = none ↔ ∀ a, addr ≤ a → a < p.sz → p.mem a ≠ 0) := by
  refine fetches_get_bind ?_
  split_ifs with h
  · exact fetches_pure ⟨nofun, iff_of_true rfl fun a ha ha' => absurd ha' (by omega)⟩
  · refine (fetchLoop_spec le_rfl (by omega) fun a ha ha' => absurd ha' (by omega)).bind ?_
    rintro r ⟨hsome, hnone⟩
    refine fetches_pure ⟨fun q len hr => ?_, ?_, fun hnul => ?_⟩
    · obtain ⟨len, rfl, heq⟩ := Option.map_eq_some_iff.mp hr
      obtain ⟨rfl, rfl⟩ := Prod.mk.inj heq
      exact ⟨rfl, hsome _ rfl⟩
    · exact fun hr => hnone (Option.map_eq_none_iff.mp hr)
    · cases r with
      | none => rfl
      | some len =>
        obtain ⟨hlt, hzero, -⟩ := hsome len rfl
        exact absurd hzero (hnul _ (by omega) hlt)

theorem argint_spec (hsz : p.sz ≤ Vm.KERNBASE) (n : ℕ) :
    Fetches (argint n) p fun r =>
      ∀ w, r = some w ↔ p.argAddr n + 4 ≤ p.sz ∧ w = p.word (p.argAddr n) :=
  fetches_get_bind (fetchint_spec hsz)

/-- `argptr` succeeds exactly for the blocks inside the process. -/
theorem argptr_spec (hsz : p.sz ≤ Vm.KERNBASE) (n : ℕ) {size : ℤ} (hsize : size < 2 ^ 31) :
    Fetches (argptr n size) p fun r => ∀ q, r = some q ↔
      p.argAddr n + 4 ≤ p.sz ∧ q = p.word (p.argAddr n) ∧ 0 ≤ size ∧
      q < p.sz ∧ q + size ≤ p.sz := by
  have hbase : Vm.KERNBASE = 2 ^ 31 := by decide
  refine (argint_spec hsz n).bind fun r hr => ?_
  cases r with
  | none =>
    refine fetches_pure fun q => iff_of_false nofun fun hq => ?_
    exact absurd ((hr _).mpr ⟨hq.1, rfl⟩) nofun
  | some i =>
    obtain ⟨hin, rfl⟩ := (hr i).mp rfl
    refine fetches_get_bind ?_
    split_ifs with h
    · refine fetches_pure fun q => iff_of_false nofun ?_
      rintro ⟨-, rfl, h₁, h₂, h₃⟩
      rw [Int.emod_eq_of_lt (by omega) (by omega)] at h
      omega
    · refine fetches_pure fun q => ?_
      rw [Option.some_inj]
      constructor
      · rintro rfl
        rw [Int.emod_eq_of_lt (by omega) (by omega)] at h
        exact ⟨hin, rfl, by omega, by omega, by omega⟩
      · exact fun hq => hq.2.1.symm

theorem argstr_spec (hsz : p.sz ≤ Vm.KERNBASE) (n : ℕ) :
    Fetches (argstr n) p fun r =>
      (∀ q len, r = some (q, len) →
        p.argAddr n + 4 ≤ p.sz ∧ q = p.word (p.argAddr n) ∧ p.IsString q len) ∧
      (r = none ↔ (p.argAddr n + 4 ≤ p.sz →
        ∀ a, p.word (p.argAddr n) ≤ a → a < p.sz → p.mem a ≠ 0)) := by
  refine (argint_spec hsz n).bind fun r hr => ?_
  cases r with
  | none =>
    refine fetches_pure ⟨nofun, iff_of_true rfl fun hin => ?_⟩
    exact absurd ((hr _).mpr ⟨hin, rfl⟩) nofun
  | some i =>
    obtain ⟨hin, rfl⟩ := (hr i).mp rfl
    refine fetchstr_spec.mono fun r ⟨hsome, hnone⟩ => ⟨fun q len hq => ?_, ?_⟩
    · obtain ⟨rfl, hs⟩ := hsome q len hq
      exact ⟨hin, rfl, hs⟩
    · rw [hnone]
      exact ⟨fun h _ => h, fun h => h hin⟩

end Fetch

/-- Arguments lie inside the process, and only its memory is read to find out. -/
theorem arguments_inside {p : Caller} (hsz : p.sz ≤ Vm.KERNBASE) :
    (∀ n : ℕ, ∀ size : ℤ, -2 ^ 31 ≤ size → size < 2 ^ 31 →
      Fetches (argptr n size) p fun r => ∀ q, r = some q ↔ p.argAddr n + 4 ≤ p.sz ∧
        q = p.word (p.argAddr n) ∧ 0 ≤ size ∧ q < p.sz ∧ q + size ≤ p.sz) ∧
    (∀ addr, Fetches (fetchint addr) p fun r =>
      ∀ w, r = some w ↔ addr + 4 ≤ p.sz ∧ w = p.word addr) ∧
    (∀ addr, Fetches (fetchstr addr) p fun r =>
      (∀ q len, r = some (q, len) → q = addr ∧ p.IsString addr len) ∧
        (r = none ↔ ∀ a, addr ≤ a → a < p.sz → p.mem a ≠ 0)) ∧
    (∀ n, Fetches (argstr n) p fun r =>
      (∀ q len, r = some (q, len) →
        p.argAddr n + 4 ≤ p.sz ∧ q = p.word (p.argAddr n) ∧ p.IsString q len) ∧
      (r = none ↔ (p.argAddr n + 4 ≤ p.sz →
        ∀ a, p.word (p.argAddr n) ≤ a → a < p.sz → p.mem a ≠ 0))) :=
  ⟨fun n _ _ hsize => argptr_spec hsz n hsize, fun _ => fetchint_spec hsz, fun _ => fetchstr_spec,
    argstr_spec hsz⟩

/-- A process of 8 bytes with its stack pointer at 0: the argument at 4 is the pointer 5. -/
theorem arguments_inside_eight_bytes :
    let p : Caller := ⟨8, 0, fun a => if a = 4 then 5 else 0⟩
    p.sz ≤ Vm.KERNBASE ∧ p.word (p.argAddr 0) = 5 ∧
      Fetches (argptr 0 3) p (· = some 5) := by
  refine ⟨by decide, by decide, ?_⟩
  refine ((arguments_inside (p := ⟨8, 0, fun a => if a = 4 then 5 else 0⟩) (by decide)).1 0 3
    (by decide) (by decide)).mono fun r hr => (hr 5).mpr ?_
  decide

end Xv6.Syscall
