import Mathlib.Computability.Language
import Xv6.Grep.Model

/-!
# The language of a pattern

A pattern is read as a list of items between two optional anchors. Each item has a language, the
items of a pattern together have the product of theirs, and `match` finds out whether some part of
the text is in it. `matchhere` decides about the beginnings of a text: what follows the items is
nothing if the end is anchored, and anything if it is not.
-/

namespace Xv6.Grep

/-- A character of a pattern stands for itself, and `.` for any one. -/
def Fits (c x : UInt8) : Prop := c = dot ∨ c = x

instance (c x : UInt8) : Decidable (Fits c x) := inferInstanceAs (Decidable (_ ∨ _))

/-- One character, or any number of them. -/
inductive Item
  | one (c : UInt8)
  | many (c : UInt8)

/-- The strings that an item matches. -/
def Item.lang : Item → Language UInt8
  | .one c => {w | ∃ x, Fits c x ∧ w = [x]}
  | .many c => {w | ∀ x ∈ w, Fits c x}

/-- Items between two anchors. -/
structure Pattern where
  atStart : Bool
  items : List Item
  atEnd : Bool

namespace Pattern

/-- The items of a string, and whether a `$` ends it. -/
def readItems : List UInt8 → List Item × Bool
  | [] => ([], false)
  | [c] => if c = dollar then ([], true) else ([.one c], false)
  | c :: d :: re =>
    if d = star then (.many c :: (readItems re).1, (readItems re).2)
    else (.one c :: (readItems (d :: re)).1, (readItems (d :: re)).2)

/-- A string as a pattern: a leading `^` is an anchor. -/
def read (re : List UInt8) : Pattern :=
  if re.head? = some caret then ⟨true, (readItems re.tail).1, (readItems re.tail).2⟩
  else ⟨false, (readItems re).1, (readItems re).2⟩

/-- Some part of the text is made of strings that the items match, in their order. -/
def Occurs (p : Pattern) (text : List UInt8) : Prop :=
  ∃ before part after, text = before ++ part ++ after ∧ (p.atStart = true → before = []) ∧
    (p.atEnd = true → after = []) ∧ part ∈ (p.items.map Item.lang).prod

end Pattern

open Pattern

/-- The texts that begin with a match for the string: what follows may be anything, or nothing if
the end is anchored. -/
def hereLang (re : List UInt8) : Language UInt8 :=
  ((readItems re).1.map Item.lang).prod * if (readItems re).2 then 1 else ⊤

section Here

variable {c d x : UInt8} {re text : List UInt8} {L : Language UInt8}

theorem hereLang_nil : hereLang [] = ⊤ := by
  ext text
  simp only [hereLang, readItems, List.map_nil, List.prod_nil, one_mul]
  rfl

theorem hereLang_dollar : hereLang [dollar] = 1 := by
  simp [hereLang, readItems]

theorem hereLang_last (hc : c ≠ dollar) : hereLang [c] = (Item.one c).lang * hereLang [] := by
  simp [hereLang, readItems, hc]

theorem hereLang_star : hereLang (c :: star :: re) = (Item.many c).lang * hereLang re := by
  simp [hereLang, readItems, mul_assoc]

theorem hereLang_cons (hd : d ≠ star) :
    hereLang (c :: d :: re) = (Item.one c).lang * hereLang (d :: re) := by
  simp [hereLang, readItems, hd, mul_assoc]

theorem mem_one_mul : text ∈ (Item.one c).lang * L ↔ ∃ x t, text = x :: t ∧ Fits c x ∧ t ∈ L := by
  rw [Language.mem_mul]
  constructor
  · rintro ⟨_, ⟨x, hx, rfl⟩, t, ht, rfl⟩
    exact ⟨x, t, rfl, hx, ht⟩
  · rintro ⟨x, t, rfl, hx, ht⟩
    exact ⟨[x], ⟨x, hx, rfl⟩, t, ht, rfl⟩

theorem cons_mem_one_mul : x :: text ∈ (Item.one c).lang * L ↔ Fits c x ∧ text ∈ L := by
  rw [mem_one_mul]
  constructor
  · rintro ⟨_, _, ⟨rfl, rfl⟩, hx, ht⟩
    exact ⟨hx, ht⟩
  · exact fun h => ⟨x, text, rfl, h⟩

theorem nil_not_mem_one_mul : [] ∉ (Item.one c).lang * L := by
  rw [mem_one_mul]
  rintro ⟨_, _, ⟨⟩, -⟩

/-- A star matches nothing, or one character and then again. -/
theorem cons_mem_many_mul : x :: text ∈ (Item.many c).lang * L ↔
    x :: text ∈ L ∨ Fits c x ∧ text ∈ (Item.many c).lang * L := by
  simp only [Language.mem_mul]
  constructor
  · rintro ⟨w, hw, t, ht, hwt⟩
    cases w with
    | nil => exact .inl (hwt ▸ ht)
    | cons y w =>
      obtain ⟨rfl, rfl⟩ := List.cons.inj hwt
      obtain ⟨hy, hw⟩ := List.forall_mem_cons.mp hw
      exact .inr ⟨hy, w, hw, t, ht, rfl⟩
  · rintro (ht | ⟨hx, w, hw, t, ht, rfl⟩)
    · exact ⟨[], fun _ => nofun, x :: text, ht, rfl⟩
    · exact ⟨x :: w, List.forall_mem_cons.mpr ⟨hx, hw⟩, t, ht, rfl⟩

theorem nil_mem_many_mul : [] ∈ (Item.many c).lang * L ↔ [] ∈ L := by
  rw [Language.mem_mul]
  constructor
  · rintro ⟨w, -, t, ht, hwt⟩
    obtain ⟨rfl, rfl⟩ := List.append_eq_nil_iff.mp hwt
    exact ht
  · exact fun h => ⟨[], fun _ => nofun, [], h, rfl⟩

/-- `matchstar`, if what it calls is right. -/
theorem matchstar_iff {here : List UInt8 → Bool} (h : ∀ t, here t = true ↔ t ∈ L) :
    matchstar c here text = true ↔ text ∈ (Item.many c).lang * L := by
  induction text with
  | nil => rw [matchstar, h, nil_mem_many_mul]
  | cons x text ih =>
    rw [matchstar, Bool.or_eq_true, Bool.and_eq_true, ih, h, cons_mem_many_mul]
    have hfits : (decide (x = c) || decide (c = dot)) = true ↔ Fits c x := by
      rw [Bool.or_eq_true, decide_eq_true_eq, decide_eq_true_eq, Fits, or_comm, eq_comm (a := x)]
    rw [hfits]

/-- `matchhere` decides whether a text begins with a match. -/
theorem matchhere_iff : ∀ re text, matchhere re text = true ↔ text ∈ hereLang re
  | [], text => by
    rw [matchhere, hereLang_nil]
    exact ⟨fun _ => trivial, fun _ => rfl⟩
  | [c], text => by
    rw [matchhere.eq_def]
    dsimp only
    split_ifs with hc
    · rw [hc, hereLang_dollar, Language.mem_one, decide_eq_true_eq]
    · rw [hereLang_last hc]
      cases text with
      | nil => exact iff_of_false nofun nil_not_mem_one_mul
      | cons x text =>
        simp [cons_mem_one_mul, matchhere_iff [] text, Fits]
  | c :: d :: re, text => by
    rw [matchhere.eq_def]
    dsimp only
    split_ifs with hd
    · rw [hd, hereLang_star, matchstar_iff (matchhere_iff re)]
    · rw [hereLang_cons hd]
      cases text with
      | nil => exact iff_of_false nofun nil_not_mem_one_mul
      | cons x text =>
        simp [cons_mem_one_mul, matchhere_iff (d :: re) text, Fits]

/-- The loop of `match` tries every end of the text. -/
theorem matchLoop_iff : matchLoop re text = true ↔ ∃ t, t <:+ text ∧ t ∈ hereLang re := by
  induction text with
  | nil =>
    rw [matchLoop, matchhere_iff]
    refine ⟨fun h => ⟨[], List.suffix_rfl, h⟩, ?_⟩
    rintro ⟨t, ht, h⟩
    rwa [List.suffix_nil.mp ht] at h
  | cons x text ih =>
    rw [matchLoop, Bool.or_eq_true, matchhere_iff, ih]
    constructor
    · rintro (h | ⟨t, ht, h⟩)
      · exact ⟨x :: text, List.suffix_rfl, h⟩
      · exact ⟨t, ht.trans (List.suffix_cons x text), h⟩
    · rintro ⟨t, ht, h⟩
      rcases List.suffix_cons_iff.mp ht with rfl | ht
      · exact .inl h
      · exact .inr ⟨t, ht, h⟩

end Here

/-- A text begins with a match: what follows the items is nothing if the end is anchored. -/
theorem mem_hereLang_iff {re text : List UInt8} : text ∈ hereLang re ↔
    ∃ part after, text = part ++ after ∧ ((readItems re).2 = true → after = []) ∧
      part ∈ ((readItems re).1.map Item.lang).prod := by
  rw [hereLang, Language.mem_mul]
  constructor
  · rintro ⟨part, hpart, after, hafter, rfl⟩
    refine ⟨part, after, rfl, fun hend => ?_, hpart⟩
    rwa [hend, if_pos rfl, Language.mem_one] at hafter
  · rintro ⟨part, after, rfl, hend, hpart⟩
    refine ⟨part, hpart, after, ?_, rfl⟩
    split_ifs with h
    · exact hend h
    · trivial

/-- The matcher returns 1 if and only if the pattern occurs in the text. -/
theorem match_iff_occurs (re text : List UInt8) :
    «match» re text = true ↔ (Pattern.read re).Occurs text := by
  unfold «match» Pattern.read Occurs
  split_ifs with hcaret
  · rw [matchhere_iff, mem_hereLang_iff]
    constructor
    · rintro ⟨part, after, rfl, hend, hpart⟩
      exact ⟨[], part, after, rfl, fun _ => rfl, hend, hpart⟩
    · rintro ⟨before, part, after, rfl, hstart, hend, hpart⟩
      refine ⟨part, after, ?_, hend, hpart⟩
      rw [hstart rfl, List.nil_append]
  · rw [matchLoop_iff]
    constructor
    · rintro ⟨t, ⟨before, rfl⟩, ht⟩
      obtain ⟨part, after, rfl, hend, hpart⟩ := mem_hereLang_iff.mp ht
      exact ⟨before, part, after, (List.append_assoc ..).symm, nofun, hend, hpart⟩
    · rintro ⟨before, part, after, rfl, -, hend, hpart⟩
      refine ⟨part ++ after, ⟨before, (List.append_assoc ..).symm⟩, ?_⟩
      exact mem_hereLang_iff.mpr ⟨part, after, rfl, hend, hpart⟩

end Xv6.Grep
