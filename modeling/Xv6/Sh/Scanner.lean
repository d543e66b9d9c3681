import Mathlib.Data.List.TakeWhile
import Xv6.Sh.Grammar

/-!
# The scanner reads the tokens of the line

`At l ts s` says that `ts` are the tokens from the index `s` on. `peek` looks at the first of them
and `gettoken` takes it off; the indices that `gettoken` gives for a word enclose its text.
-/

namespace Xv6.Sh

open Lib

/-- The value that `gettoken` returns for a token. -/
def Token.code : Token → UInt8
  | .word _ => 97
  | .bar => 124
  | .amp => 38
  | .semi => 59
  | .lparen => 40
  | .rparen => 41
  | .lt => 60
  | .gt => 62
  | .gtgt => 43

/-- The symbol that a token begins with. -/
def Token.first : Token → UInt8
  | .gtgt => 62
  | t => t.code

/-- The tokens begin with one of these symbols. -/
def Starts (toks : List UInt8) (ts : List Token) : Bool := ts.head?.any fun t => t.first ∈ toks

@[simp] theorem starts_nil (toks : List UInt8) : Starts toks [] = false := rfl

@[simp] theorem starts_cons (toks : List UInt8) (t : Token) (ts : List Token) :
    Starts toks (t :: ts) = decide (t.first ∈ toks) := rfl

/-- The bytes between two indices are a word. -/
structure IsWordAt (l : List UInt8) (a : ℕ × ℕ) (text : List UInt8) : Prop where
  drop : l.drop a.1 = text ++ l.drop a.2
  snd : a.2 = a.1 + text.length
  le : a.2 ≤ l.length
  word : ∀ c ∈ text, isWord c = true
  stop : ∀ c, l[a.2]? = some c → isWord c = false

/-- The tokens from an index on. -/
def ahead (l : List UInt8) (s : ℕ) : List Token := tokens (l.drop s)

/-- The index is in the line, and these tokens are ahead of it. -/
structure At (l : List UInt8) (ts : List Token) (s : ℕ) : Prop where
  le : s ≤ l.length
  ahead : ahead l s = ts

/-! ### Symbols -/

/-- A symbol stands for itself. -/
theorem ofSymbol_code_first {c : UInt8} (hc : c ∈ symbols) :
    (Token.ofSymbol c).code = c ∧ (Token.ofSymbol c).first = c := by
  simp only [symbols, List.mem_cons, List.not_mem_nil, or_false] at hc
  rcases hc with rfl | rfl | rfl | rfl | rfl | rfl | rfl <;> exact ⟨rfl, rfl⟩

theorem ofSymbol_ne_word (c : UInt8) (text : List UInt8) : Token.ofSymbol c ≠ .word text := by
  unfold Token.ofSymbol
  split_ifs <;> exact nofun

theorem not_mem_symbols_97 : (97 : UInt8) ∉ symbols := by decide

/-- What is neither blank nor a symbol belongs to a word. -/
theorem isWord_eq_true {c : UInt8} (hs : isSpace c = false) (hc : c ∉ symbols) :
    isWord c = true := by
  simp [isWord, hs, hc]

/-! ### Tokens -/

section Tokens

variable {m : List UInt8}

/-- Nothing but blanks. -/
theorem tokens_of_nil (h : m.dropWhile isSpace = []) : tokens m = [] := by
  rw [tokens]
  split
  · rfl
  · simp_all

/-- The first token, by its first character. -/
theorem tokens_of_cons {c : UInt8} {rest : List UInt8} (h : m.dropWhile isSpace = c :: rest) :
    tokens m =
      if c = 62 ∧ rest.head? = some 62 then .gtgt :: tokens rest.tail
      else if c ∈ symbols then .ofSymbol c :: tokens rest
      else .word (c :: rest.takeWhile isWord) :: tokens (rest.dropWhile isWord) := by
  rw [tokens]
  split
  · simp_all
  · next c' rest' h' =>
    obtain ⟨rfl, rfl⟩ := List.cons.inj (h.symm.trans h')
    rfl

theorem tokens_eq_nil_iff : tokens m = [] ↔ m.dropWhile isSpace = [] := by
  refine ⟨fun h => ?_, tokens_of_nil⟩
  cases hd : m.dropWhile isSpace with
  | nil => rfl
  | cons c rest =>
    rw [tokens_of_cons hd] at h
    split_ifs at h

theorem isSpace_of_dropWhile {c : UInt8} {rest : List UInt8}
    (h : m.dropWhile isSpace = c :: rest) : isSpace c = false := by
  have hnot := List.head?_dropWhile_not isSpace m
  rw [h] at hnot
  simpa using hnot

/-- Whitespace before a token makes no difference. -/
theorem tokens_dropWhile (m : List UInt8) : tokens (m.dropWhile isSpace) = tokens m := by
  cases hd : m.dropWhile isSpace with
  | nil => rw [tokens_of_nil hd, tokens_of_nil rfl]
  | cons c rest =>
    have hd' : (c :: rest).dropWhile isSpace = c :: rest := by
      rw [List.dropWhile_cons_of_neg (by simp [isSpace_of_dropWhile hd])]
    rw [tokens_of_cons hd, tokens_of_cons hd']

end Tokens

/-! ### Bytes ahead -/

section Bytes

variable {l : List UInt8} {s : ℕ}

/-- Skipping drops characters. -/
theorem drop_skip (f : UInt8 → Bool) : l.drop (skip l f s) = (l.drop s).dropWhile f := by
  have h : ((l.drop s).takeWhile f ++ (l.drop s).dropWhile f).drop
      ((l.drop s).takeWhile f).length = (l.drop s).dropWhile f := List.drop_left
  rw [List.takeWhile_append_dropWhile, List.drop_drop] at h
  exact h

theorem ch_of_drop_nil (h : l.drop s = []) : ch l s = 0 := by
  rw [List.drop_eq_nil_iff] at h
  simp [ch, h]

theorem getElem?_of_drop_cons {c : UInt8} {rest : List UInt8} (h : l.drop s = c :: rest) :
    l[s]? = some c := by
  have := congrArg (·[0]?) h
  simpa using this

theorem ch_of_drop_cons {c : UInt8} {rest : List UInt8} (h : l.drop s = c :: rest) :
    ch l s = c := by
  rw [ch, List.getD_eq_getElem?_getD, getElem?_of_drop_cons h]
  rfl

theorem drop_succ_of_cons {c : UInt8} {rest : List UInt8} (h : l.drop s = c :: rest) :
    l.drop (s + 1) = rest := by
  rw [← List.drop_drop, h]
  rfl

/-- Skipping blanks skips no token. -/
theorem ahead_skip (l : List UInt8) (s : ℕ) : ahead l (skip l isSpace s) = ahead l s := by
  rw [ahead, drop_skip, tokens_dropWhile]
  rfl

theorem skip_le (f : UInt8 → Bool) (hs : s ≤ l.length) : skip l f s ≤ l.length := by
  have hle : ((l.drop s).takeWhile f).length ≤ (l.drop s).length :=
    (List.takeWhile_sublist f).length_le
  rw [List.length_drop] at hle
  unfold skip
  omega

/-- The same tokens lie ahead after the blanks. -/
theorem At.skip {ts : List Token} (h : At l ts s) : At l ts (skip l isSpace s) :=
  ⟨skip_le isSpace h.le, (ahead_skip l s).trans h.ahead⟩

/-- Nothing but whitespace is left when the index after it is the end. -/
theorem At.skip_eq_iff {ts : List Token} (h : At l ts s) :
    Sh.skip l isSpace s = l.length ↔ ts = [] := by
  rw [← h.ahead, Sh.ahead, tokens_eq_nil_iff, ← drop_skip, List.drop_eq_nil_iff]
  have := skip_le isSpace h.le
  omega

theorem lt_of_drop_cons {c : UInt8} {rest : List UInt8} (h : l.drop s = c :: rest) :
    s < l.length := by
  have := congrArg List.length h
  simp only [List.length_drop, List.length_cons] at this
  omega

/-- The symbols of one character. -/
theorem scan_symbol (h : ch l s ∈ [124, 40, 41, 59, 38, 60]) : scan l s = (ch l s, s + 1) := by
  have h0 : ch l s ≠ 0 := fun h0 => absurd h (h0 ▸ by decide)
  rw [scan, if_neg h0, if_pos h]

/-- The operator `>>`. -/
theorem scan_gtgt (h : ch l s = 62) (h' : ch l (s + 1) = 62) : scan l s = (43, s + 2) := by
  rw [scan, h, h', if_neg (by decide), if_neg (by decide), if_pos rfl, if_pos rfl]

/-- The operator `>`. -/
theorem scan_gt (h : ch l s = 62) (h' : ch l (s + 1) ≠ 62) : scan l s = (62, s + 1) := by
  rw [scan, h, if_neg (by decide), if_neg (by decide), if_pos rfl, if_neg h']

/-- A word goes on to the next blank or symbol. -/
theorem scan_word (h0 : ch l s ≠ 0) (h : ch l s ∉ symbols) :
    scan l s = (97, skip l isWord s) := by
  simp only [symbols, List.mem_cons, List.not_mem_nil, not_or] at h
  rw [scan, if_neg h0, if_neg (by simp [h]), if_neg (by simp [h])]

/-- A maximal run of word bytes is a word. -/
theorem isWordAt_skip {q : ℕ} (hq : q ≤ l.length) :
    IsWordAt l (q, skip l isWord q) ((l.drop q).takeWhile isWord) where
  drop := by
    dsimp only
    rw [drop_skip, List.takeWhile_append_dropWhile]
  snd := rfl
  le := skip_le isWord hq
  word c hc := List.mem_takeWhile_imp hc
  stop c hc := by
    have h := List.head?_dropWhile_not isWord (l.drop q)
    rw [← drop_skip, List.head?_drop, hc] at h
    simpa using h

end Bytes

/-! ### The scanner -/

section Spec

variable {l : List UInt8} (hl : 0 ∉ l) {s : ℕ} {E : Stop → Prop}

include hl

theorem ne_zero_of_drop_cons {c : UInt8} {rest : List UInt8} (h : l.drop s = c :: rest) :
    c ≠ 0 := by
  rintro rfl
  exact hl (List.mem_of_mem_drop (h ▸ List.mem_cons_self))

/-- Peeking tells the first token, and skips whitespace only. -/
theorem peek_spec {toks : List UInt8} (htoks : toks.all (· ∈ symbols) = true) {ts : List Token}
    (h : At l ts s) :
    Wp (peek l toks) s (fun b s' => b = Starts toks ts ∧ At l ts s' ∧ (s' = l.length ↔ ts = []))
      E := by
  refine Wp.bind_iff.mpr (Wp.get_iff.mpr ⟨?_, h.skip, h.skip_eq_iff⟩)
  obtain ⟨-, rfl⟩ := h
  have hd := drop_skip (l := l) (s := s) isSpace
  cases h : (l.drop s).dropWhile isSpace with
  | nil =>
    have hc := ch_of_drop_nil (hd.trans h)
    rw [ahead, tokens_of_nil h, hc]
    rfl
  | cons c rest =>
    have hc := ch_of_drop_cons (hd.trans h)
    have hc0 := ne_zero_of_drop_cons hl (hd.trans h)
    rw [ahead, tokens_of_cons h, hc, Bool.eq_iff_iff]
    split_ifs with h1 h2
    · rw [starts_cons, decide_eq_true_iff, decide_eq_true_iff]
      simp [Token.first, h1.1]
    · simp [(ofSymbol_code_first h2).2, hc0]
    · have hsub : ∀ d ∈ toks, d ∈ symbols := by simpa using htoks
      have h3 : c ∉ toks := fun hmem => h2 (hsub c hmem)
      have h4 : (97 : UInt8) ∉ toks := fun hmem => not_mem_symbols_97 (hsub 97 hmem)
      simp [Token.first, Token.code, h3, h4]

/-- What `scan` finds at the first byte of a token. -/
theorem scan_spec {q : ℕ} {c : UInt8} {rest : List UInt8} (hd : l.drop q = c :: rest)
    (hc : isSpace c = false) :
    ∃ t, ahead l q = t :: ahead l (scan l q).2 ∧ (scan l q).2 ≤ l.length ∧
      (scan l q).1 = t.code ∧ ∀ text, t = .word text → IsWordAt l (q, (scan l q).2) text := by
  have hch := ch_of_drop_cons hd
  have hsucc := drop_succ_of_cons hd
  have hd' : (l.drop q).dropWhile isSpace = c :: rest := by
    rw [hd, List.dropWhile_cons_of_neg (by simp [hc])]
  have hlt := lt_of_drop_cons hd
  rw [ahead, tokens_of_cons hd']
  -- a symbol is a token by itself, anything else begins a word
  by_cases h2 : c ∈ symbols
  · by_cases h1 : c = 62
    · -- one or two of `>`
      subst h1
      by_cases h3 : rest.head? = some 62
      · obtain ⟨rest', rfl⟩ := List.head?_eq_some_iff.mp h3
        rw [if_pos ⟨rfl, h3⟩, scan_gtgt hch (ch_of_drop_cons hsucc), ← hsucc, List.tail_drop]
        exact ⟨_, rfl, lt_of_drop_cons hsucc, rfl, nofun⟩
      · have hch' : ch l (q + 1) ≠ 62 := by
          rw [ch, List.getD_eq_getElem?_getD, ← List.head?_drop, hsucc]
          cases hr : rest.head? with
          | none => simp
          | some d => simpa [hr] using h3
        rw [if_neg (fun h => h3 h.2), if_pos h2, scan_gt hch hch', ← hsucc]
        exact ⟨_, rfl, hlt, rfl, fun text h => absurd h (ofSymbol_ne_word _ _)⟩
    · have h3 : ch l q ∈ [124, 40, 41, 59, 38, (60 : UInt8)] := by
        simp only [symbols, List.mem_cons, List.not_mem_nil] at h2 ⊢
        rw [hch]
        tauto
      rw [if_neg (fun h => h1 h.1), if_pos h2, scan_symbol h3, hch, ← hsucc]
      exact ⟨_, rfl, hlt, (ofSymbol_code_first h2).1.symm,
        fun text h => absurd h (ofSymbol_ne_word _ _)⟩
  · have h1 : c ≠ 62 := fun h => h2 (h ▸ by decide)
    have hw := isWord_eq_true hc h2
    have htake : (l.drop q).takeWhile isWord = c :: rest.takeWhile isWord := by
      rw [hd, List.takeWhile_cons_of_pos hw]
    have hdrop : l.drop (skip l isWord q) = rest.dropWhile isWord := by
      rw [drop_skip, hd, List.dropWhile_cons_of_pos hw]
    rw [if_neg (fun h => h1 h.1), if_neg h2,
      scan_word (hch ▸ ne_zero_of_drop_cons hl hd) (hch ▸ h2), ← htake, ← hdrop]
    refine ⟨_, rfl, skip_le isWord hlt.le, rfl, fun text h => ?_⟩
    obtain rfl := Token.word.inj h
    exact isWordAt_skip hlt.le

omit hl in
/-- At the end of the line. -/
theorem gettoken_nil (h : At l [] s) :
    Wp (gettoken l) s (fun r s' => r.1 = 0 ∧ At l [] s') E := by
  have hd : l.drop (skip l isSpace s) = [] := by
    rw [drop_skip, tokens_eq_nil_iff.mp h.ahead]
  have hscan : scan l (skip l isSpace s) = (0, skip l isSpace s) := by
    rw [scan, if_pos (ch_of_drop_nil hd)]
  refine Wp.bind_iff.mpr (Wp.get_iff.mpr ?_)
  dsimp only
  rw [hscan]
  exact ⟨rfl, h.skip.skip⟩

/-- Taking a token gives its code and, for a word, the place of its text. -/
theorem gettoken_cons {t : Token} {ts : List Token} (h : At l (t :: ts) s) :
    Wp (gettoken l) s (fun r s' => r.1 = t.code ∧ At l ts s' ∧
      ∀ text, t = .word text → IsWordAt l r.2 text) E := by
  refine Wp.bind_iff.mpr (Wp.get_iff.mpr ?_)
  cases hd : (l.drop s).dropWhile isSpace with
  | nil => cases (tokens_of_nil hd).symm.trans h.ahead
  | cons c rest =>
    obtain ⟨t', ht, hle, hcode, hword⟩ :=
      scan_spec hl ((drop_skip (l := l) (s := s) isSpace).trans hd) (isSpace_of_dropWhile hd)
    obtain ⟨rfl, hts⟩ := List.cons.inj (h.skip.ahead.symm.trans ht)
    exact ⟨hcode, At.skip ⟨hle, hts.symm⟩, hword⟩

end Spec

end Xv6.Sh
