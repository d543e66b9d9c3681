import Xv6.Lib.Rounds
import Xv6.Sh.Parser

/-!
# The parser accepts the grammar

`parsecmd` returns a command for a line whose tokens have a derivation, and panics on every other
line. The words of the command, read as C strings once `nulterminate` has written its zero bytes,
are the texts of the tokens: a zero byte is only written where a word stops, and no word has a
byte there.
-/

namespace Xv6.Sh

open Lib

/-! ### Rounds -/

section Rounds

variable (l : List UInt8)

/-- A further round of `parseredirs` changes nothing. -/
theorem parseredirs_below (n : ℕ) (cmd : Cmd) :
    Below .rounds (parseredirs l n cmd) (parseredirs l (n + 1) cmd) := by
  induction n generalizing cmd with
  | zero => exact .throw _
  | succ n ih =>
    refine .bind (.refl _) fun b => .ite (.bind (.refl _) fun r => .bind (.refl _) fun r' => ?_)
      (.refl _)
    exact .ite (.refl _) (.ite (ih _) (.ite (ih _) (.ite (ih _) (ih _))))

/-- The same for the arguments. -/
theorem parseargs_below (n : ℕ) (ret : Cmd) (argc : ℕ) :
    Below .rounds (parseargs l n ret argc) (parseargs l (n + 1) ret argc) := by
  induction n generalizing ret argc with
  | zero => exact .throw _
  | succ n ih =>
    refine .bind (.refl _) fun b => .ite (.refl _) (.bind (.refl _) fun r => ?_)
    refine .ite (.refl _) (.ite (.refl _) (.ite (.refl _) ?_))
    exact .bind (parseredirs_below l n _) fun ret => ih ret _

/-- The same for the `&`s. -/
theorem parseback_below (n : ℕ) (cmd : Cmd) :
    Below .rounds (parseback l n cmd) (parseback l (n + 1) cmd) := by
  induction n generalizing cmd with
  | zero => exact .throw _
  | succ n ih =>
    exact .bind (.refl _) fun b => .ite (.bind (.refl _) fun r => ih _) (.refl _)

/-- The same for the parsers that call each other. -/
theorem parsers_below (n : ℕ) :
    Below .rounds (parseline l n) (parseline l (n + 1)) ∧
    Below .rounds (parsepipe l n) (parsepipe l (n + 1)) ∧
    Below .rounds (parseexec l n) (parseexec l (n + 1)) ∧
    Below .rounds (parseblock l n) (parseblock l (n + 1)) := by
  induction n with
  | zero => exact ⟨.throw _, .throw _, .throw _, .throw _⟩
  | succ n ih =>
    obtain ⟨line, pipe, exec, block⟩ := ih
    refine ⟨?_, ?_, ?_, ?_⟩
    · refine .bind pipe fun cmd => .bind (parseback_below l n cmd) fun cmd => ?_
      exact .bind (.refl _) fun b =>
        .ite (.bind (.refl _) fun r => .bind line fun right => .refl _) (.refl _)
    · refine .bind exec fun cmd => .bind (.refl _) fun b => ?_
      exact .ite (.bind (.refl _) fun r => .bind pipe fun right => .refl _) (.refl _)
    · refine .bind (.refl _) fun b => .ite block ?_
      exact .bind (parseredirs_below l n _) fun ret => parseargs_below l n ret 0
    · refine .bind (.refl _) fun b => .ite (.bind (.refl _) fun r => .bind line fun cmd => ?_)
        (.refl _)
      exact .bind (.refl _) fun b' =>
        .ite (.bind (.refl _) fun r => parseredirs_below l n cmd) (.refl _)

/-- The same for a whole line. -/
theorem parse_below (n : ℕ) : Below .rounds (parse l n) (parse l (n + 1)) :=
  .bind (parsers_below l n).1 fun _ => .refl _

end Rounds

/-! ### The words after `nulterminate` -/

/-- The indices at which `nulterminate` writes. -/
def Cmd.ends : Cmd → List ℕ
  | .exec argv => argv.map Prod.snd
  | .redir cmd _ efile _ _ => cmd.ends ++ [efile]
  | .pipe left right => left.ends ++ right.ends
  | .list left right => left.ends ++ right.ends
  | .back cmd => cmd.ends

/-- `nulterminate` puts a NUL at each end of a word. -/
theorem nulterminate_eq (cmd : Cmd) (mem : List UInt8) :
    nulterminate cmd mem = cmd.ends.foldl putNul mem := by
  induction cmd generalizing mem with
  | exec argv => exact List.foldl_map.symm
  | redir cmd q eq mode fd ih =>
    rw [nulterminate, ih, Cmd.ends, List.foldl_append]
    rfl
  | pipe left right ihl ihr | list left right ihl ihr =>
    rw [nulterminate, ihl, ihr, Cmd.ends, List.foldl_append]
  | back cmd ih => exact ih mem

/-- Only the ends of words change. -/
theorem getElem?_foldl_putNul (is : List ℕ) (mem : List UInt8) (i : ℕ) :
    (is.foldl putNul mem)[i]? = if i ∈ is then mem[i]?.map fun _ => 0 else mem[i]? := by
  induction is generalizing mem with
  | nil => simp
  | cons j is ih =>
    rw [List.foldl_cons, ih, putNul]
    by_cases hij : j = i
    · subst hij
      by_cases hmem : j ∈ is <;> by_cases hlt : j < mem.length <;>
        simp [hmem, hlt]
    · simp [hij, Ne.symm hij]

/-- A string that ends in a NUL. -/
theorem cstring_eq {mem text : List UInt8} {q : ℕ} (h0 : 0 ∉ text)
    (htext : ∀ i < text.length, mem[q + i]? = text[i]?)
    (hend : mem[q + text.length]? = some 0) : cstring mem q = text := by
  induction text generalizing q with
  | nil =>
    have h : mem[q]? = some 0 := hend
    obtain ⟨hlt, hq⟩ := List.getElem?_eq_some_iff.mp h
    rw [cstring, List.drop_eq_getElem_cons hlt, hq]
    rfl
  | cons c text ih =>
    have hc : mem[q]? = some c := by simpa using htext 0 (by simp)
    obtain ⟨hlt, hq⟩ := List.getElem?_eq_some_iff.mp hc
    rw [List.mem_cons, not_or] at h0
    have htail : cstring mem (q + 1) = text := by
      refine ih h0.2 (fun i hi => ?_) ?_
      · simpa [Nat.add_assoc, Nat.add_comm 1] using htext (i + 1) (by simpa using hi)
      · simpa [Nat.add_assoc, Nat.add_comm 1] using hend
    have hc0 : c ≠ 0 := Ne.symm h0.1
    rw [cstring, List.drop_eq_getElem_cons hlt, hq, List.takeWhile_cons_of_pos (by simpa)]
    exact congrArg (c :: ·) htail

/-- No word has a byte at the index. -/
def Stops (l : List UInt8) (i : ℕ) : Prop := ∀ c, l[i]? = some c → isWord c = false

/-- The words of a command end where no word goes on. -/
theorem Reads.stops {l : List UInt8} {cmd : Cmd} {t : Tree} (h : Reads l cmd t) :
    ∀ i ∈ cmd.ends, Stops l i := by
  induction h with
  | exec h =>
    induction h with
    | nil => exact nofun
    | cons ha _ ih =>
      intro i hi
      rcases List.mem_cons.mp hi with rfl | hi
      · exact ha.stop
      · exact ih i hi
  | redir _ hf ih =>
    intro i hi
    rcases List.mem_append.mp hi with hi | hi
    · exact ih i hi
    · rw [List.mem_singleton.mp hi]
      exact hf.stop
  | pipe _ _ ihl ihr | list _ _ ihl ihr =>
    intro i hi
    exact (List.mem_append.mp hi).elim (ihl i) (ihr i)
  | back _ ih => exact ih

/-- A word whose end is marked reads as its text. -/
theorem IsWordAt.cstring_eq {l text : List UInt8} (hl : 0 ∉ l) {a : ℕ × ℕ} {is : List ℕ}
    (h : IsWordAt l a text) (ha : a.2 ∈ is) (his : ∀ i ∈ is, Stops l i) :
    cstring (is.foldl putNul (l ++ [0])) a.1 = text := by
  have hmem : ∀ c ∈ text, c ∈ l := fun c hc =>
    List.mem_of_mem_drop (h.drop ▸ List.mem_append_left _ hc)
  have hbyte : ∀ i < text.length, l[a.1 + i]? = text[i]? := fun i hi => by
    rw [← List.getElem?_drop, h.drop, List.getElem?_append_left hi]
  refine Sh.cstring_eq (fun h0 => hl (hmem 0 h0)) (fun i hi => ?_) ?_
  · have hlt : a.1 + i < l.length := by have := h.snd; have := h.le; omega
    rw [getElem?_foldl_putNul, List.getElem?_append_left hlt, if_neg, hbyte i hi]
    intro hstop
    have hw := h.word (text.get ⟨i, hi⟩) (List.get_mem _ _)
    rw [his _ hstop (text.get ⟨i, hi⟩) (by rw [hbyte i hi]; simp)] at hw
    cases hw
  · rw [← h.snd, getElem?_foldl_putNul, if_pos ha]
    have hle := h.le
    have hlt : a.2 < (l ++ [0]).length := by simp only [List.length_append, List.length_cons]; omega
    rw [List.getElem?_eq_getElem hlt]
    rfl

/-- A command reads as its tree, once the words are terminated. -/
theorem Reads.read_eq {l : List UInt8} (hl : 0 ∉ l) {cmd : Cmd} {t : Tree} (h : Reads l cmd t)
    {is : List ℕ} (hsub : ∀ i ∈ cmd.ends, i ∈ is) (his : ∀ i ∈ is, Stops l i) :
    cmd.read (is.foldl putNul (l ++ [0])) = t := by
  induction h with
  | exec h =>
    refine congrArg Tree.exec ?_
    induction h with
    | nil => rfl
    | cons ha _ ih =>
      rw [List.map_cons, ih fun i hi => hsub i (List.mem_cons_of_mem _ hi),
        ha.cstring_eq hl (hsub _ List.mem_cons_self) his]
  | redir _ hf ih =>
    rw [Cmd.read, ih fun i hi => hsub i (List.mem_append_left _ hi),
      hf.cstring_eq hl (hsub _ (List.mem_append_right _ (List.mem_singleton_self _))) his]
  | pipe _ _ ihl ihr | list _ _ ihl ihr =>
    rw [Cmd.read, ihl fun i hi => hsub i (List.mem_append_left _ hi),
      ihr fun i hi => hsub i (List.mem_append_right _ hi)]
  | back _ ih => rw [Cmd.read, ih hsub]

/-- After `nulterminate` the command reads as it should. -/
theorem nulterminate_read {l : List UInt8} (hl : 0 ∉ l) {cmd : Cmd} {t : Tree}
    (h : Reads l cmd t) : cmd.read (nulterminate cmd (l ++ [0])) = t := by
  rw [nulterminate_eq]
  exact h.read_eq hl (fun _ => id) h.stops

/-! ### Lines -/

section Lines

variable {l : List UInt8} (hl : 0 ∉ l) {n : ℕ}

include hl

/-- Only lines of the grammar are parsed. -/
theorem parse_sound (hn : 4 * (tokens l).length + 4 ≤ n) :
    Wp (parse l n) 0 (fun _ _ => ∃ T : Line, T.Fits ∧ T.tokens = tokens l) (· ≠ .rounds) := by
  refine Wp.bind ((sound hl n).line (tokens l) 0 ⟨Nat.zero_le _, rfl⟩ hn) ?_
  rintro cmd s ⟨T, us, hT, htok, h⟩
  refine Wp.bind (peek_spec hl rfl h) ?_
  rintro b s' ⟨-, -, hs'⟩
  refine Wp.bind_iff.mpr (Wp.get_iff.mpr ?_)
  split_ifs with hend
  · exact nofun
  · obtain rfl := hs'.mp (not_not.mp hend)
    exact ⟨T, hT, by rw [htok, List.append_nil]⟩

/-- Every line of the grammar is parsed. -/
theorem parse_complete {T : Line} (hT : T.Fits) (htok : T.tokens = tokens l)
    (hn : 4 * (tokens l).length + 4 ≤ n) :
    Wp (parse l n) 0 (fun cmd _ => Reads l cmd T.tree) fun _ => False := by
  have hat : At l (T.tokens ++ []) 0 := ⟨Nat.zero_le _, by rw [List.append_nil, htok]; rfl⟩
  have hn' : 4 * (T.tokens ++ []).length + 4 ≤ n := by rwa [List.append_nil, htok]
  refine Wp.bind (parseline_complete hl T hT hat (.inl rfl) hn') ?_
  rintro cmd s ⟨hcmd, h⟩
  refine Wp.bind (peek_spec hl rfl h) ?_
  rintro b s' ⟨-, -, hs'⟩
  refine Wp.bind_iff.mpr (Wp.get_iff.mpr ?_)
  rw [if_neg (not_not.mpr (hs'.mpr rfl))]
  exact hcmd

end Lines

/-- On every line `parsecmd` ends. It returns a command just when the tokens of the line have a
derivation with no simple command too long, and panics otherwise; the command, with its strings as
they read in the buffer, is the one of the derivation. -/
theorem parsecmd_accepts_grammar (l : List UInt8) (hl : 0 ∉ l) :
    ∃ (N : ℕ) (r : Except Stop (Cmd × List UInt8)),
      (∀ n ≥ N, parsecmd n l = r) ∧
      ((∃ cmd mem, r = .ok (cmd, mem)) ∨ ∃ p, r = .error (.panic p)) ∧
      ((∃ cmd mem, r = .ok (cmd, mem)) ↔ ∃ T : Line, T.Fits ∧ T.tokens = tokens l) ∧
      ∀ T : Line, T.Fits → T.tokens = tokens l →
        ∃ cmd mem, r = .ok (cmd, mem) ∧ cmd.read mem = T.tree := by
  let N := 4 * (tokens l).length + 4
  have hsound := parse_sound hl (n := N) le_rfl
  have hrounds : parse l N 0 ≠ .error .rounds := fun h => hsound.of_error h rfl
  refine ⟨N, parsecmd N l, fun n hn => ?_, ?_, ⟨?_, ?_⟩, ?_⟩
  · unfold parsecmd
    rw [Below.eq_of_le (parse_below l) hn hrounds]
  · cases hr : parse l N 0 with
    | ok r => exact .inl ⟨_, _, by rw [parsecmd, hr]⟩
    | error e =>
      cases e with
      | panic p => exact .inr ⟨p, by rw [parsecmd, hr]⟩
      | rounds => exact absurd hr hrounds
  · rintro ⟨cmd, mem, h⟩
    cases hr : parse l N 0 with
    | ok r => exact hsound.of_ok hr
    | error e =>
      rw [parsecmd, hr] at h
      cases h
  · rintro ⟨T, hT, htok⟩
    obtain ⟨cmd, s, hr, -⟩ := (parse_complete hl hT htok (n := N) le_rfl).exists_ok fun _ => id
    exact ⟨_, _, by rw [parsecmd, hr]⟩
  · intro T hT htok
    obtain ⟨cmd, s, hr, hcmd⟩ := (parse_complete hl hT htok (n := N) le_rfl).exists_ok fun _ => id
    exact ⟨_, _, by rw [parsecmd, hr], nulterminate_read hl hcmd⟩

/-- The line `a|b >c`. -/
theorem parsecmd_accepts_grammar_pipe : (0 : UInt8) ∉ [97, 124, 98, 32, 62, 99] ∧
    ∃ (N : ℕ), ∀ n ≥ N, ∃ cmd mem, parsecmd n [97, 124, 98, 32, 62, 99] = .ok (cmd, mem) ∧
      cmd.read mem =
        .pipe (.exec [[97]]) (.redir (.exec [[98]]) [99] (O_WRONLY ||| O_CREATE) 1) := by
  have h0 : (0 : UInt8) ∉ [97, 124, 98, 32, 62, 99] := by decide
  obtain ⟨N, r, hr, -, -, hT⟩ := parsecmd_accepts_grammar _ h0
  let T : Line := .one (.pipe (.simple [] [([97], [])])
    (.one (.simple [] [([98], [⟨.gt, [99]⟩])]))) 0
  have hfits : T.Fits := ⟨(by decide : 1 ≤ MAXARGS - 1), (by decide : 1 ≤ MAXARGS - 1)⟩
  have htok : T.tokens = tokens [97, 124, 98, 32, 62, 99] := by decide +kernel
  obtain ⟨cmd, mem, rfl, hread⟩ := hT T hfits htok
  exact ⟨h0, N, fun n hn => ⟨cmd, mem, hr n hn, hread⟩⟩

end Xv6.Sh
