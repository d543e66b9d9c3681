import Xv6.Fs.Owner

/-!
# The free map as a set of blocks

`balloc` and `bfree` seen through the bits of the free map alone, for a file system of any size: the
last block of the map may be used in part, and there may be any number of them. The blocks that
carry the map are in use themselves, and nothing else is asked of the layout.
-/

namespace Xv6.Fs

open Lib

/-- The blocks that carry the bits of the blocks of the file system. -/
def SuperBlock.MapBlock (sb : SuperBlock) (c : ℕ) : Prop := ∃ b < sb.size, c = sb.BBLOCK b

section Search

variable {sb : SuperBlock} {d : Disk} {b : ℕ}

theorem size_le_rounds : sb.size ≤ (0 + (sb.size / BPB + 1)) * BPB := by
  have hdiv := Nat.div_add_mod sb.size BPB
  have hmod := Nat.mod_lt sb.size BPB_pos
  rw [Nat.zero_add, Nat.add_mul, Nat.one_mul, Nat.mul_comm]
  omega

/-- The search stops short only if all the blocks are in use. -/
theorem freeBlock_eq_none_iff :
    freeBlock sb d (sb.size / BPB + 1) 0 = none ↔ ∀ b < sb.size, getBit sb d b = true := by
  constructor
  · intro h b hb
    rw [← Nat.zero_mul BPB] at h
    exact freeBlock_eq_none h size_le_rounds (by omega) hb
  · intro hall
    cases h : freeBlock sb d (sb.size / BPB + 1) 0 with
    | none => rfl
    | some b =>
      rw [← Nat.zero_mul BPB] at h
      obtain ⟨-, hlt, hfree, -⟩ := freeBlock_eq_some h
      rw [hall b hlt] at hfree
      cases hfree

/-- Otherwise it finds the first block that is not. -/
theorem freeBlock_eq_some_iff :
    freeBlock sb d (sb.size / BPB + 1) 0 = some b ↔
      IsLeast {c | c < sb.size ∧ getBit sb d c = false} b := by
  have hfound : ∀ r, freeBlock sb d (sb.size / BPB + 1) 0 = some r →
      IsLeast {c | c < sb.size ∧ getBit sb d c = false} r := by
    intro r h
    rw [← Nat.zero_mul BPB] at h
    obtain ⟨-, hlt, hfree, hall⟩ := freeBlock_eq_some h
    refine ⟨⟨hlt, hfree⟩, ?_⟩
    rintro c ⟨-, hc⟩
    by_contra hcr
    rw [hall c (by omega) (by omega)] at hc
    cases hc
  refine ⟨hfound b, fun hleast => ?_⟩
  cases h : freeBlock sb d (sb.size / BPB + 1) 0 with
  | none =>
    have hused := freeBlock_eq_none_iff.mp h b hleast.1.1
    rw [hleast.1.2] at hused
    cases hused
  | some r => rw [(hfound r h).unique hleast]

end Search

section Bits

variable {sb : SuperBlock} {d : Disk} {b c : ℕ}

theorem mod_BPB_lt (b : ℕ) : b % BPB < 8 * BSIZE := by
  rw [Nat.mul_comm]
  exact Nat.mod_lt b BPB_pos

/-- The bits of a block of the map, by the blocks they are for. -/
theorem BBLOCK_eq_iff : sb.BBLOCK b = sb.BBLOCK c ↔ b / BPB = c / BPB := by
  unfold SuperBlock.BBLOCK
  omega

/-- Disks that agree on the bits of the block of the map that carries `b`, and elsewhere, are
equal. -/
theorem ext_getBit (sb : SuperBlock) (b : ℕ) {d d' : Disk}
    (hbits : ∀ c, sb.BBLOCK c = sb.BBLOCK b → getBit sb d c = getBit sb d' c)
    (hrest : ∀ k, k ≠ sb.BBLOCK b → d k = d' k) : d = d' := by
  funext k
  by_cases hk : k = sb.BBLOCK b
  · subst hk
    refine Bytes.ext_testBit fun i hi => ?_
    have hi' : i < BPB := by
      rw [Nat.mul_comm] at hi
      exact hi
    have hsame : sb.BBLOCK (b / BPB * BPB) = sb.BBLOCK b := by
      rw [BBLOCK_eq_iff, Nat.mul_div_cancel _ BPB_pos]
    have hcarry : sb.BBLOCK (b / BPB * BPB + i) = sb.BBLOCK b := by
      rw [BBLOCK_eq_iff, Nat.mul_comm, Nat.mul_add_div BPB_pos, Nat.div_eq_of_lt hi', Nat.add_zero]
    have hbit := hbits _ hcarry
    rwa [← testBit_eq_getBit _ hi', ← testBit_eq_getBit _ hi', hsame] at hbit
  · exact hrest k hk

/-- A bit that gets back its value. -/
theorem putBit_putBit_self (v : Bool) : putBit sb (putBit sb d b v) b (getBit sb d b) = d := by
  refine ext_getBit sb b (fun c _ => ?_) fun k hk => ?_
  · rw [getBit_putBit, getBit_putBit]
    split_ifs with h
    · rw [h]
    · rfl
  · rw [putBit, Function.update_of_ne hk, putBit, Function.update_of_ne hk]

/-- Different bits may be assigned in any order. -/
theorem putBit_comm (hne : b ≠ c) (v w : Bool) :
    putBit sb (putBit sb d b v) c w = putBit sb (putBit sb d c w) b v := by
  by_cases hblock : sb.BBLOCK c = sb.BBLOCK b
  · refine ext_getBit sb b (fun e _ => ?_) fun k hk => ?_
    · simp only [getBit_putBit]
      split_ifs with hc hb
      · exact absurd (hb.symm.trans hc) hne
      all_goals rfl
    · have hk' : k ≠ sb.BBLOCK c := by rwa [hblock]
      simp only [putBit, Function.update_of_ne hk, Function.update_of_ne hk']
  · unfold putBit
    rw [Function.update_of_ne hblock, Function.update_of_ne (Ne.symm hblock),
      Function.update_comm hblock]

theorem SuperBlock.MapBlock.ne (hc : sb.MapBlock c) (hb : ¬ sb.MapBlock b) : c ≠ b := by
  rintro rfl
  exact hb hc

/-- The bits of the map do not lie in a block that is not one of its own. -/
theorem getBit_update_of_not_map (hb : ¬ sb.MapBlock b) (hc : sb.MapBlock (sb.BBLOCK c))
    (x : Block) : getBit sb (Function.update d b x) c = getBit sb d c := by
  rw [getBit, getBit, Function.update_of_ne (hc.ne hb)]

theorem putBit_update_of_not_map (hb : ¬ sb.MapBlock b) (hc : sb.MapBlock (sb.BBLOCK c))
    (x : Block) (v : Bool) :
    putBit sb (Function.update d b x) c v = Function.update (putBit sb d c v) b x := by
  rw [putBit, putBit, Function.update_of_ne (hc.ne hb), Function.update_comm (hc.ne hb).symm]

theorem putBit_apply_of_not_map (hb : b < sb.size) (hc : ¬ sb.MapBlock c) (v : Bool) :
    putBit sb d b v c = d c := by
  rw [putBit, Function.update_of_ne]
  rintro rfl
  exact hc ⟨b, hb, rfl⟩

end Bits

section Calls

variable {sb : SuperBlock} {d : Disk} {b : ℕ}

theorem balloc_eq_ok (h : IsLeast {c | c < sb.size ∧ getBit sb d c = false} b) :
    balloc sb d = .ok (b, Function.update (putBit sb d b true) b (Bytes.zero BSIZE)) := by
  refine Wp.eq_ok_of ?_
  unfold balloc
  rw [Wp.bind_iff, Wp.get_iff, freeBlock_eq_some_iff.mpr h]
  simp only [Wp.bind_iff, Wp.set_iff, bzero, Wp.modify_iff, Wp.pure_iff, and_self]

theorem balloc_eq_error (h : ∀ b < sb.size, getBit sb d b = true) :
    balloc sb d = .error (.panic .balloc) := by
  refine Wp.eq_error_of ?_
  unfold balloc
  rw [Wp.bind_iff, Wp.get_iff, freeBlock_eq_none_iff.mpr h]
  exact Wp.throw_iff.mpr rfl

theorem bfree_eq_ok (h : getBit sb d b = true) : bfree sb b d = .ok ((), putBit sb d b false) := by
  refine Wp.eq_ok_of ((bfree_spec h).post fun _ d' hd' => ⟨rfl, hd'⟩)

/-- Either all the blocks are in use, or there is a first one that is not. -/
theorem all_used_or_isLeast (sb : SuperBlock) (d : Disk) :
    (∀ b < sb.size, getBit sb d b = true) ∨
      ∃ b, IsLeast {c | c < sb.size ∧ getBit sb d c = false} b := by
  cases h : freeBlock sb d (sb.size / BPB + 1) 0 with
  | none => exact .inl (freeBlock_eq_none_iff.mp h)
  | some b => exact .inr ⟨b, freeBlock_eq_some_iff.mp h⟩

end Calls

/-- The free map is a set of blocks, for every size and every map in which the blocks of the map are
in use. `balloc` takes the least free block out of the set, zeroes it and changes nothing else, and
panics exactly if there is none; `bfree` of a block in use puts it back, and the map is as before;
different blocks may be freed in any order. -/
theorem free_map_is_a_set (sb : SuperBlock) (d : Disk)
    (hmap : ∀ c, sb.MapBlock c → c < sb.size → getBit sb d c = true) :
    (∀ b, IsLeast {c | c < sb.size ∧ getBit sb d c = false} b →
      ∃ d', balloc sb d = .ok (b, d') ∧
        (∀ c, sb.MapBlock (sb.BBLOCK c) → getBit sb d' c = if c = b then true else getBit sb d c) ∧
        d' b = Bytes.zero BSIZE ∧ (∀ c, ¬ sb.MapBlock c → c ≠ b → d' c = d c) ∧
        ∃ d'', bfree sb b d' = .ok ((), d'') ∧ ∀ c, sb.MapBlock c → d'' c = d c) ∧
    (balloc sb d = .error (.panic .balloc) ↔ ∀ b < sb.size, getBit sb d b = true) ∧
    ((∀ b < sb.size, getBit sb d b = true) ∨
      ∃ b, IsLeast {c | c < sb.size ∧ getBit sb d c = false} b) ∧
    (∀ b < sb.size, getBit sb d b = true →
      ∃ d', bfree sb b d = .ok ((), d') ∧
        (∀ c, sb.MapBlock (sb.BBLOCK c) → getBit sb d' c = if c = b then false else getBit sb d c) ∧
        ∀ c, ¬ sb.MapBlock c → d' c = d c) ∧
    ∀ b < sb.size, ∀ c < sb.size, b ≠ c → getBit sb d b = true → getBit sb d c = true →
      ∃ d', (bfree sb b >>= fun _ => bfree sb c) d = .ok ((), d') ∧
        (bfree sb c >>= fun _ => bfree sb b) d = .ok ((), d') := by
  refine ⟨fun b hb => ?_, ⟨fun hpanic => ?_, balloc_eq_error⟩, all_used_or_isLeast sb d,
    fun b hb hused => ?_, fun b _ c _ hne hb hc => ?_⟩
  · have hlt := hb.1.1
    have hfree := hb.1.2
    have hnot : ¬ sb.MapBlock b := by
      intro h
      rw [hmap b h hlt] at hfree
      cases hfree
    have hown : sb.MapBlock (sb.BBLOCK b) := ⟨b, hlt, rfl⟩
    refine ⟨_, balloc_eq_ok hb, fun c hc => ?_, Function.update_self .., fun c hc hne => ?_, ?_⟩
    · rw [getBit_update_of_not_map hnot hc, getBit_putBit]
    · rw [Function.update_of_ne hne, putBit_apply_of_not_map hlt hc]
    · have hused : getBit sb (Function.update (putBit sb d b true) b (Bytes.zero BSIZE)) b =
          true := by
        rw [getBit_update_of_not_map hnot hown, getBit_putBit, if_pos rfl]
      refine ⟨_, bfree_eq_ok hused, fun c hc => ?_⟩
      -- the zeroed block is none of the map, and the bit gets back the value it had
      rw [putBit_update_of_not_map hnot hown, Function.update_of_ne (hc.ne hnot), ← hfree,
        putBit_putBit_self]
  · rcases all_used_or_isLeast sb d with hall | ⟨b, hb⟩
    · exact hall
    · rw [balloc_eq_ok hb] at hpanic
      cases hpanic
  · exact ⟨_, bfree_eq_ok hused, fun c _ => getBit_putBit d b c false,
      fun c hc => putBit_apply_of_not_map hb hc false⟩
  · have hb' : getBit sb (putBit sb d c false) b = true := by rw [getBit_putBit, if_neg hne, hb]
    have hc' : getBit sb (putBit sb d b false) c = true := by
      rw [getBit_putBit, if_neg hne.symm, hc]
    refine ⟨putBit sb (putBit sb d b false) c false, ?_, ?_⟩
    · rw [bind_run_ok (bfree_eq_ok hb), bfree_eq_ok hc']
    · rw [bind_run_ok (bfree_eq_ok hc), bfree_eq_ok hb', putBit_comm hne]

/-- A file system of 5000 blocks, whose map takes two of them. -/
def twoMapBlocks : SuperBlock where
  size := 5000
  nblocks := 4900
  ninodes := 200
  nlog := 30
  logstart := 2
  inodestart := 32
  bmapstart := 58

/-- All the blocks are in use but one, whose bit is in the second block of the map. -/
def nearlyFull : Disk := putBit twoMapBlocks (fun _ _ => 255) 4500 false

theorem getBit_nearlyFull {c : ℕ} (hc : c ≠ 4500) : getBit twoMapBlocks nearlyFull c = true := by
  have hbits : ∀ j < 8, Nat.testBit 255 j = true := by decide
  have hmod := mod_BPB_lt c
  rw [nearlyFull, getBit_putBit, if_neg hc, getBit, Bytes.testBit_eq,
    Bytes.get_of_lt _ (by omega)]
  exact hbits _ (Nat.mod_lt _ (by decide))

theorem isLeast_nearlyFull :
    IsLeast {c | c < twoMapBlocks.size ∧ getBit twoMapBlocks nearlyFull c = false} 4500 := by
  refine ⟨⟨by decide, by rw [nearlyFull, getBit_putBit, if_pos rfl]⟩, ?_⟩
  rintro c ⟨-, hc⟩
  by_contra hlt
  rw [getBit_nearlyFull (by omega)] at hc
  cases hc

/-- The one free block of `nearlyFull` is found and given back. -/
theorem free_map_is_a_set_two :
    ∃ d', balloc twoMapBlocks nearlyFull = .ok (4500, d') ∧ d' 4500 = Bytes.zero BSIZE ∧
      ∃ d'', bfree twoMapBlocks 4500 d' = .ok ((), d'') := by
  have hmap : ∀ c, twoMapBlocks.MapBlock c → c < twoMapBlocks.size →
      getBit twoMapBlocks nearlyFull c = true := by
    rintro c ⟨b, hb, rfl⟩ -
    refine getBit_nearlyFull ?_
    have hdiv : b / BPB ≤ 5000 / BPB := Nat.div_le_div_right hb.le
    have hpart : 5000 / BPB = 1 := by decide
    have hstart : twoMapBlocks.bmapstart = 58 := rfl
    rw [SuperBlock.BBLOCK, hstart]
    omega
  obtain ⟨d', halloc, -, hzero, -, d'', hfree, -⟩ :=
    (free_map_is_a_set twoMapBlocks nearlyFull hmap).1 4500 isLeast_nearlyFull
  exact ⟨d', halloc, hzero, d'', hfree⟩

end Xv6.Fs
