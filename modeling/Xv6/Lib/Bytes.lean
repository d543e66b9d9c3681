import Mathlib.Data.List.Basic
import Mathlib.Data.Nat.Bitwise
import Mathlib.Data.Nat.Digits.Defs

/-!
# Byte arrays of fixed length and little-endian fields

A fixed-length byte array is a function on its indices, so that two arrays with
the same bytes are equal. Fields are read and written at a byte offset: `slice`
and `splice` move byte strings, `readLE` and `writeLE` move little-endian
unsigned integers of a given width.

The lemmas are the usual ones for an array with overlapping accessors: reading
back what was written, and reading through a write that does not overlap.
-/

namespace Xv6.Lib

/-- A byte array of length `n`. -/
abbrev Bytes (n : ℕ) := Fin n → UInt8

/-- The little-endian value of a byte string. -/
def leValue : List UInt8 → ℕ
  | [] => 0
  | x :: xs => x.toNat + 256 * leValue xs

/-- The `w` low bytes of `v`, least significant first. -/
def leBytes : ℕ → ℕ → List UInt8
  | 0, _ => []
  | w + 1, v => UInt8.ofNat v :: leBytes w (v / 256)

@[simp] theorem leBytes_length (w v : ℕ) : (leBytes w v).length = w := by
  induction w generalizing v with
  | zero => rfl
  | succ w ih => simp [leBytes, ih]

/-- Decoding an encoded value reduces it to the field's width. -/
theorem leValue_leBytes (w v : ℕ) : leValue (leBytes w v) = v % 256 ^ w := by
  induction w generalizing v with
  | zero => simp [leBytes, leValue, Nat.mod_one]
  | succ w ih =>
    have hbyte : (UInt8.ofNat v).toNat = v % 256 := by simp
    rw [leBytes, leValue, ih, hbyte, pow_succ, mul_comm (256 ^ w) 256, Nat.mod_mul]

theorem leValue_lt (xs : List UInt8) : leValue xs < 256 ^ xs.length := by
  induction xs with
  | nil => simp [leValue]
  | cons x xs ih =>
    have hx : x.toNat < 256 := x.toNat_lt
    simp only [leValue, List.length_cons, pow_succ]
    omega

namespace Bytes

variable {n : ℕ}

/-- The byte at `i`, zero out of range. -/
def get (b : Bytes n) (i : ℕ) : UInt8 := if h : i < n then b ⟨i, h⟩ else 0

theorem get_of_lt (b : Bytes n) {i : ℕ} (h : i < n) : b.get i = b ⟨i, h⟩ := by
  simp [get, h]

theorem ext_get {a b : Bytes n} (h : ∀ i < n, a.get i = b.get i) : a = b := by
  funext i
  simpa [get_of_lt _ i.isLt] using h i i.isLt

/-- The array of zero bytes. -/
def zero (n : ℕ) : Bytes n := fun _ => 0

@[simp] theorem get_zero (i : ℕ) : (zero n).get i = 0 := by
  simp [get, zero]

/-- Copy the byte string `src` over the bytes from offset `off` on. -/
def splice (b : Bytes n) (off : ℕ) (src : List UInt8) : Bytes n := fun i =>
  if off ≤ i ∧ i < off + src.length then src.getD (i - off) 0 else b i

/-- The `len` bytes from offset `off` on. -/
def slice (b : Bytes n) (off len : ℕ) : List UInt8 :=
  (List.range len).map fun k => b.get (off + k)

@[simp] theorem slice_length (b : Bytes n) (off len : ℕ) : (b.slice off len).length = len := by
  simp [slice]

theorem get_splice (b : Bytes n) (off : ℕ) (src : List UInt8) {i : ℕ} (hi : i < n) :
    (b.splice off src).get i =
      if off ≤ i ∧ i < off + src.length then src.getD (i - off) 0 else b.get i := by
  rw [get_of_lt _ hi, get_of_lt _ hi]
  rfl

theorem get_splice_of_disjoint (b : Bytes n) (off : ℕ) (src : List UInt8) {i : ℕ}
    (h : i < off ∨ off + src.length ≤ i) : (b.splice off src).get i = b.get i := by
  by_cases hi : i < n
  · rw [get_splice b off src hi, if_neg (by omega)]
  · simp [get, hi]

/-- A slice of a spliced array that lies outside the splice is unchanged. -/
theorem slice_splice_of_disjoint (b : Bytes n) {off len pos : ℕ} {src : List UInt8}
    (h : pos + len ≤ off ∨ off + src.length ≤ pos) :
    (b.splice off src).slice pos len = b.slice pos len := by
  simp only [slice]
  refine List.map_congr_left fun k hk => ?_
  rw [List.mem_range] at hk
  exact get_splice_of_disjoint b off src (by omega)

/-- Reading back a splice that fits gives the spliced bytes. -/
theorem slice_splice_self (b : Bytes n) (off : ℕ) (src : List UInt8)
    (h : off + src.length ≤ n) : (b.splice off src).slice off src.length = src := by
  refine List.ext_getElem (by simp) fun k hk hk' => ?_
  simp only [slice, List.getElem_map, List.getElem_range]
  rw [get_splice b off src (by omega), if_pos (by omega)]
  simp [List.getD_eq_getElem?_getD, hk']

/-- The little-endian unsigned integer of `w` bytes at offset `off`. -/
def readLE (b : Bytes n) (off w : ℕ) : ℕ := leValue (b.slice off w)

/-- Store the `w` low bytes of `v` at offset `off`. -/
def writeLE (b : Bytes n) (off w v : ℕ) : Bytes n := b.splice off (leBytes w v)

theorem readLE_lt (b : Bytes n) (off w : ℕ) : b.readLE off w < 256 ^ w := by
  simpa [readLE] using leValue_lt (b.slice off w)

theorem readLE_writeLE_self (b : Bytes n) {off w : ℕ} (v : ℕ) (h : off + w ≤ n) :
    (b.writeLE off w v).readLE off w = v % 256 ^ w := by
  have hslice : (b.writeLE off w v).slice off w = leBytes w v := by
    have := slice_splice_self b off (leBytes w v) (by simpa using h)
    simpa [writeLE] using this
  rw [readLE, hslice, leValue_leBytes]

theorem readLE_writeLE_of_disjoint (b : Bytes n) {off w pos len : ℕ} (v : ℕ)
    (h : pos + len ≤ off ∨ off + w ≤ pos) :
    (b.writeLE off w v).readLE pos len = b.readLE pos len := by
  rw [readLE, writeLE, slice_splice_of_disjoint b (by simpa using h), readLE]

/-- Store 32-bit words one after the other from offset `off` on. -/
def writeWords (b : Bytes n) (off : ℕ) : List ℕ → Bytes n
  | [] => b
  | w :: ws => writeWords (b.writeLE off 4 w) (off + 4) ws

theorem readLE_writeWords_of_disjoint (b : Bytes n) {off pos len : ℕ} (ws : List ℕ)
    (h : pos + len ≤ off ∨ off + 4 * ws.length ≤ pos) :
    (b.writeWords off ws).readLE pos len = b.readLE pos len := by
  induction ws generalizing b off with
  | nil => rfl
  | cons w ws ih =>
    rw [List.length_cons] at h
    rw [writeWords, ih _ (by omega), readLE_writeLE_of_disjoint _ _ (by omega)]

theorem readLE_writeWords (b : Bytes n) {off : ℕ} {ws : List ℕ} (hroom : off + 4 * ws.length ≤ n)
    {j : ℕ} (hj : j < ws.length) :
    (b.writeWords off ws).readLE (off + 4 * j) 4 = ws[j] % 256 ^ 4 := by
  induction ws generalizing b off j with
  | nil => simp at hj
  | cons w ws ih =>
    rw [List.length_cons] at hroom hj
    cases j with
    | zero =>
      rw [writeWords, readLE_writeWords_of_disjoint _ _ (by omega), Nat.mul_zero, Nat.add_zero,
        readLE_writeLE_self _ _ (by omega)]
      rfl
    | succ j =>
      have := @ih (b.writeLE off 4 w) (off + 4) (by omega) j (by omega)
      rw [writeWords, show off + 4 * (j + 1) = off + 4 + 4 * j by omega, this]
      rfl

@[simp] theorem readLE_zero (off w : ℕ) : (zero n).readLE off w = 0 := by
  have hz : ∀ len, leValue (List.replicate len 0) = 0 := by
    intro len
    induction len with
    | zero => rfl
    | succ len ih => simp [List.replicate_succ, leValue, ih]
  have hs : (zero n).slice off w = List.replicate w 0 := by
    refine List.ext_getElem (by simp) fun k _ _ => ?_
    simp [slice]
  rw [readLE, hs, hz]

/-! ### Single bits -/

/-- The byte with bit `k % 8` set. -/
def mask (k : ℕ) : UInt8 := 1 <<< UInt8.ofNat (k % 8)

theorem toNat_mask (k : ℕ) : (mask k).toNat = 2 ^ (k % 8) := by
  have hall : ∀ j < 8, ((1 : UInt8) <<< UInt8.ofNat j).toNat = 2 ^ j := by decide
  exact hall (k % 8) (Nat.mod_lt k (by decide))

theorem testBit_mask (k j : ℕ) : (mask k).toNat.testBit j = decide (k % 8 = j) := by
  rw [toNat_mask, Nat.testBit_two_pow]

/-- Bit `i` of the array, counted from the least significant bit of byte 0. -/
def testBit (b : Bytes n) (i : ℕ) : Bool := b.get (i / 8) &&& mask i != 0

/-- Set bit `i`. -/
def setBit (b : Bytes n) (i : ℕ) : Bytes n := b.splice (i / 8) [b.get (i / 8) ||| mask i]

/-- Clear bit `i`. -/
def clearBit (b : Bytes n) (i : ℕ) : Bytes n := b.splice (i / 8) [b.get (i / 8) &&& ~~~mask i]

theorem testBit_eq (b : Bytes n) (i : ℕ) : b.testBit i = (b.get (i / 8)).toNat.testBit (i % 8) := by
  have hzero : b.get (i / 8) &&& mask i = 0 ↔ (b.get (i / 8)).toNat.testBit (i % 8) = false := by
    rw [← UInt8.toNat_inj, UInt8.toNat_and, toNat_mask]
    simp [Nat.and_two_pow]
  rw [testBit]
  cases hbit : (b.get (i / 8)).toNat.testBit (i % 8) with
  | false => rw [hzero.mpr hbit]; rfl
  | true =>
    refine bne_iff_ne.mpr fun h => ?_
    rw [hzero.mp h] at hbit
    cases hbit

theorem get_splice_singleton (b : Bytes n) {p q : ℕ} (hp : p < n) (x : UInt8) :
    (b.splice p [x]).get q = if q = p then x else b.get q := by
  split_ifs with h
  · subst h
    rw [get_splice _ _ _ hp]
    simp
  · refine get_splice_of_disjoint _ _ _ ?_
    simp only [List.length_singleton]
    omega

theorem testBit_setBit (b : Bytes n) {i : ℕ} (hi : i < 8 * n) (j : ℕ) :
    (b.setBit i).testBit j = (decide (j = i) || b.testBit j) := by
  rw [testBit_eq, testBit_eq, setBit, get_splice_singleton _ (by omega)]
  split_ifs with h
  · rw [UInt8.toNat_or, Nat.testBit_or, testBit_mask, h]
    have : decide (i % 8 = j % 8) = decide (j = i) := by
      rw [decide_eq_decide]
      omega
    rw [this, Bool.or_comm]
  · have hne : j ≠ i := fun he => h (by rw [he])
    simp [hne]

theorem testBit_clearBit (b : Bytes n) {i : ℕ} (hi : i < 8 * n) (j : ℕ) :
    (b.clearBit i).testBit j = (!decide (j = i) && b.testBit j) := by
  rw [testBit_eq, testBit_eq, clearBit, get_splice_singleton _ (by omega)]
  split_ifs with h
  · have hlt : (mask i).toNat < 2 ^ 8 := (mask i).toNat_lt
    rw [UInt8.toNat_and, Nat.testBit_and, UInt8.toNat_not, UInt8.size,
      show 256 - 1 - (mask i).toNat = 2 ^ 8 - ((mask i).toNat + 1) by omega,
      Nat.testBit_two_pow_sub_succ hlt, testBit_mask, h]
    have hj : j % 8 < 8 := Nat.mod_lt _ (by decide)
    have : decide (i % 8 = j % 8) = decide (j = i) := by
      rw [decide_eq_decide]
      omega
    simp [hj, this, Bool.and_comm]
  · have hne : j ≠ i := fun he => h (by rw [he])
    simp [hne]

/-- Arrays with the same bits are equal. -/
theorem ext_testBit {a b : Bytes n} (h : ∀ i < 8 * n, a.testBit i = b.testBit i) : a = b := by
  refine ext_get fun p hp => UInt8.toNat_inj.mp (Nat.eq_of_testBit_eq fun j => ?_)
  by_cases hj : j < 8
  · have hbit := h (8 * p + j) (by omega)
    rwa [testBit_eq, testBit_eq, Nat.mul_add_div (by decide), Nat.mul_add_mod,
      Nat.div_eq_of_lt hj, Nat.mod_eq_of_lt hj, Nat.add_zero] at hbit
  · have hpow : (2 : ℕ) ^ 8 ≤ 2 ^ j := Nat.pow_le_pow_right (by decide) (by omega)
    have ha := (a.get p).toNat_lt
    have hb := (b.get p).toNat_lt
    rw [Nat.testBit_lt_two_pow (by omega), Nat.testBit_lt_two_pow (by omega)]

end Bytes

end Xv6.Lib
