import Mathlib.Data.List.Forall2
import Xv6.Sh.Scanner

/-!
# What the parser does to the tokens ahead

Each function of the parser takes the tokens of one nonterminal off the tokens ahead. First come
rules that run one round of a function by the first tokens ahead; then, in the two directions, what
a function that returns has taken, and that it returns when the tokens ahead begin with a
derivation and go on with a token that ends it.
-/

namespace Xv6.Sh

open Lib

/-- A command whose words are where the indices say. -/
inductive Reads (l : List UInt8) : Cmd → Tree → Prop
  | exec {argv : List (ℕ × ℕ)} {words : List (List UInt8)} :
    List.Forall₂ (IsWordAt l) argv words → Reads l (.exec argv) (.exec words)
  | redir {cmd : Cmd} {t : Tree} {q eq mode fd : ℕ} {file : List UInt8} :
    Reads l cmd t → IsWordAt l (q, eq) file →
    Reads l (.redir cmd q eq mode fd) (.redir t file mode fd)
  | pipe {left right : Cmd} {t u : Tree} :
    Reads l left t → Reads l right u → Reads l (.pipe left right) (.pipe t u)
  | list {left right : Cmd} {t u : Tree} :
    Reads l left t → Reads l right u → Reads l (.list left right) (.list t u)
  | back {cmd : Cmd} {t : Tree} : Reads l cmd t → Reads l (.back cmd) (.back t)

/-- Add a word to the simple command under some redirections. -/
def Tree.addArg : Tree → List UInt8 → Tree
  | .exec argv, w => .exec (argv ++ [w])
  | .redir cmd file mode fd, w => .redir (cmd.addArg w) file mode fd
  | t, _ => t

/-- One more argument of a command. -/
theorem Reads.addArg {l : List UInt8} {cmd : Cmd} {t : Tree} {a : ℕ × ℕ} {w : List UInt8}
    (h : Reads l cmd t) (ha : IsWordAt l a w) : Reads l (cmd.addArg a) (t.addArg w) := by
  induction h with
  | exec h => exact .exec (List.rel_append h (.cons ha .nil))
  | redir _ hf ih => exact .redir ih hf
  | pipe h h' => exact .pipe h h'
  | list h h' => exact .list h h'
  | back h => exact .back h

/-- Arguments go past redirections. -/
theorem Tree.redirs_addArg (t : Tree) (rs : List Redir) (w : List UInt8) :
    (t.redirs rs).addArg w = (t.addArg w).redirs rs := by
  induction rs generalizing t with
  | nil => rfl
  | cons r rs ih => exact ih _

theorem Tree.redirs_append (t : Tree) (rs rs' : List Redir) :
    (t.redirs rs).redirs rs' = t.redirs (rs ++ rs') := List.foldl_append.symm

/-- The tokens stop, or go on with one of these symbols. -/
def Ends (toks : List UInt8) (ts : List Token) : Prop := ts = [] ∨ Starts toks ts = true

/-- An end for more symbols. -/
theorem Ends.mono {toks toks' : List UInt8} {ts : List Token} (h : Ends toks ts)
    (hsub : toks.all (· ∈ toks') = true) : Ends toks' ts := by
  refine h.imp id fun h => ?_
  cases ts with
  | nil => cases h
  | cons t ts =>
    rw [starts_cons, decide_eq_true_iff] at h
    exact List.all_eq_true.mp hsub _ h

/-- An end does not begin with any other symbol. -/
theorem Ends.starts_eq_false {toks toks' : List UInt8} {ts : List Token} (h : Ends toks ts)
    (hdisj : toks.all (· ∉ toks') = true) : Starts toks' ts = false := by
  rcases h with rfl | h
  · rfl
  cases ts with
  | nil => rfl
  | cons t ts =>
    rw [starts_cons, decide_eq_true_iff] at h
    simpa using List.all_eq_true.mp hdisj _ h

/-! ### The first token by its symbol -/

section First

variable {ts : List Token}

/-- The three operators of a redirection. -/
theorem of_starts_redir (h : Starts [60, 62] ts = true) : ∃ op : Op, ∃ us, ts = op.token :: us := by
  cases ts with
  | nil => cases h
  | cons t ts =>
    cases t with
    | lt => exact ⟨.lt, ts, rfl⟩
    | gt => exact ⟨.gt, ts, rfl⟩
    | gtgt => exact ⟨.gtgt, ts, rfl⟩
    | word | bar | amp | semi | lparen | rparen => cases h

/-- A symbol of its own is known by its first byte. -/
theorem of_starts (t : Token) (ht : t ∈ [.amp, .semi, .bar, .lparen, .rparen])
    (h : Starts [t.first] ts = true) : ∃ us, ts = t :: us := by
  cases ts with
  | nil => cases h
  | cons u us =>
    refine ⟨us, ?_⟩
    simp only [List.mem_cons, List.not_mem_nil, or_false] at ht
    rcases ht with rfl | rfl | rfl | rfl | rfl <;> cases u <;> first | rfl | cases h

/-- Only a word has the code `'a'`. -/
theorem code_eq_word_iff {t : Token} : t.code = 97 ↔ ∃ w, t = .word w := by
  cases t <;> simp [Token.code]

theorem code_ne_zero (t : Token) : t.code ≠ 0 := by
  cases t <;> simp [Token.code]

end First

/-! ### One round of each function -/

section Rules

variable {l : List UInt8} (hl : 0 ∉ l) {s n : ℕ} {ts : List Token} {Q : Cmd → ℕ → Prop}
  {E : Stop → Prop}

include hl

/-- Branch on the first token. -/
theorem peek_ite {α : Type} {toks : List UInt8} {x y : Parser α} {R : α → ℕ → Prop}
    (htoks : toks.all (· ∈ symbols) = true) (h : At l ts s)
    (hx : Starts toks ts = true → ∀ s', At l ts s' → Wp x s' R E)
    (hy : Starts toks ts = false → ∀ s', At l ts s' → Wp y s' R E) :
    Wp (do if ← peek l toks then x else y) s R E := by
  refine Wp.bind (peek_spec hl htoks h) ?_
  rintro b s' ⟨rfl, hat, -⟩
  cases hb : Starts toks ts with
  | true => exact hx hb s' hat
  | false => exact hy hb s' hat

/-- No redirection follows. -/
theorem parseredirs_stop {cmd : Cmd} (h : At l ts s) (hts : Starts [60, 62] ts = false)
    (hQ : ∀ s', At l ts s' → Q cmd s') : Wp (parseredirs l (n + 1) cmd) s Q E :=
  peek_ite hl rfl h (fun hs => by rw [hts] at hs; cases hs) fun _ => hQ

/-- A redirection and its file. -/
theorem parseredirs_redir {cmd : Cmd} {op : Op} {file : List UInt8}
    (h : At l (op.token :: .word file :: ts) s)
    (hQ : ∀ q eq s', At l ts s' → IsWordAt l (q, eq) file →
      Wp (parseredirs l n (.redir cmd q eq op.mode op.fd)) s' Q E) :
    Wp (parseredirs l (n + 1) cmd) s Q E := by
  refine peek_ite hl rfl h (fun _ s' hs' => ?_) fun hs => by cases op <;> cases hs
  refine Wp.bind (gettoken_cons hl hs') ?_
  rintro ⟨tok, -, -⟩ s₁ ⟨rfl, h₁, -⟩
  refine Wp.bind (gettoken_cons hl h₁) ?_
  rintro ⟨tok, q, eq⟩ s₂ ⟨rfl, h₂, hw⟩
  cases op <;> exact hQ q eq s₂ h₂ (hw file rfl)

/-- A redirection without a file. -/
theorem parseredirs_panic {cmd : Cmd} {op : Op} (h : At l (op.token :: ts) s)
    (hts : ∀ w us, ts ≠ .word w :: us) (hE : E (.panic .missingFile)) :
    Wp (parseredirs l (n + 1) cmd) s Q E := by
  refine peek_ite hl rfl h (fun _ s' hs' => ?_) fun hs => by cases op <;> cases hs
  refine Wp.bind (gettoken_cons hl hs') ?_
  rintro ⟨tok, -, -⟩ s₁ ⟨-, h₁, -⟩
  cases ts with
  | nil =>
    refine Wp.bind (gettoken_nil h₁) ?_
    rintro ⟨tok', q, eq⟩ s₂ ⟨rfl, -⟩
    exact hE
  | cons t ts =>
    refine Wp.bind (gettoken_cons hl h₁) ?_
    rintro ⟨tok', q, eq⟩ s₂ ⟨rfl, -, -⟩
    have ht : t.code ≠ 97 := fun ht => by
      obtain ⟨w, rfl⟩ := code_eq_word_iff.mp ht
      exact hts w ts rfl
    dsimp only
    rw [if_pos ht]
    exact hE

/-- No argument follows. -/
theorem parseargs_stop {ret : Cmd} {argc : ℕ} (h : At l ts s) (hts : Ends [124, 41, 38, 59] ts)
    (hQ : ∀ s', At l ts s' → Q ret s') : Wp (parseargs l (n + 1) ret argc) s Q E := by
  refine peek_ite hl rfl h (fun _ => hQ) fun hs s' hs' => ?_
  obtain rfl : ts = [] := hts.resolve_right (by rw [hs]; exact nofun)
  refine Wp.bind (gettoken_nil hs') ?_
  rintro ⟨tok, q, eq⟩ s₁ ⟨rfl, h₁⟩
  exact hQ s₁ h₁

/-- One more argument. -/
theorem parseargs_word {ret : Cmd} {argc : ℕ} {w : List UInt8} (h : At l (.word w :: ts) s)
    (hargc : argc + 1 < MAXARGS)
    (hQ : ∀ a s', At l ts s' → IsWordAt l a w →
      Wp (parseredirs l n (ret.addArg a) >>= fun ret => parseargs l n ret (argc + 1)) s' Q E) :
    Wp (parseargs l (n + 1) ret argc) s Q E := by
  refine peek_ite hl rfl h (fun hs => by cases hs) fun _ s' hs' => ?_
  refine Wp.bind (gettoken_cons hl hs') ?_
  rintro ⟨tok, q, eq⟩ s₁ ⟨rfl, h₁, hw⟩
  dsimp only [Token.code]
  rw [if_neg (by decide), if_neg (by decide), if_neg (by omega)]
  exact hQ (q, eq) s₁ h₁ (hw w rfl)

/-- Any other token, or a word too many, is a panic. -/
theorem parseargs_panic {ret : Cmd} {argc : ℕ} {t : Token} (h : At l (t :: ts) s)
    (ht : Starts [124, 41, 38, 59] (t :: ts) = false)
    (hw : ∀ w, t = .word w → MAXARGS ≤ argc + 1) (hE : ∀ p, E (.panic p)) :
    Wp (parseargs l (n + 1) ret argc) s Q E := by
  refine peek_ite hl rfl h (fun hs => by rw [ht] at hs; cases hs) fun _ s' hs' => ?_
  refine Wp.bind (gettoken_cons hl hs') ?_
  rintro ⟨tok, q, eq⟩ s₁ ⟨rfl, -, -⟩
  dsimp only
  rw [if_neg (code_ne_zero t)]
  split_ifs with h1 h2
  · exact hE _
  · exact hE _
  · obtain ⟨w, rfl⟩ := code_eq_word_iff.mp (not_not.mp h1)
    exact absurd (hw w rfl) h2

/-- No `&` follows. -/
theorem parseback_stop {cmd : Cmd} (h : At l ts s) (hts : Starts [38] ts = false)
    (hQ : ∀ s', At l ts s' → Q cmd s') : Wp (parseback l (n + 1) cmd) s Q E :=
  peek_ite hl rfl h (fun hs => by rw [hts] at hs; cases hs) fun _ => hQ

/-- One more `&`. -/
theorem parseback_amp {cmd : Cmd} (h : At l (.amp :: ts) s)
    (hQ : ∀ s', At l ts s' → Wp (parseback l n (.back cmd)) s' Q E) :
    Wp (parseback l (n + 1) cmd) s Q E := by
  refine peek_ite hl rfl h (fun _ s' hs' => ?_) fun hs => by cases hs
  refine Wp.bind (gettoken_cons hl hs') ?_
  rintro - s₁ ⟨-, h₁, -⟩
  exact hQ s₁ h₁

end Rules

/-! ### What a function that returns has taken -/

section Sound

variable {l : List UInt8} (hl : 0 ∉ l) {s n : ℕ} {ts : List Token}

include hl

/-- What `parseredirs` has read are redirections. -/
theorem parseredirs_sound {cmd : Cmd} (h : At l ts s) (hn : ts.length < n) :
    Wp (parseredirs l n cmd) s
      (fun _ s' => ∃ rs us, ts = redirTokens rs ++ us ∧ At l us s') (· ≠ .rounds) := by
  induction n generalizing ts s cmd with
  | zero => omega
  | succ n ih =>
    by_cases hts : Starts [60, 62] ts = true
    · obtain ⟨op, us, rfl⟩ := of_starts_redir hts
      by_cases hus : ∃ w vs, us = .word w :: vs
      · obtain ⟨w, vs, rfl⟩ := hus
        refine parseredirs_redir hl h fun q eq s' hs' _ => ?_
        simp only [List.length_cons] at hn
        refine (ih hs' (by omega)).post ?_
        rintro - s₁ ⟨rs, us, rfl, hat⟩
        exact ⟨⟨op, w⟩ :: rs, us, rfl, hat⟩
      · exact parseredirs_panic hl h (fun w vs hvs => hus ⟨w, vs, hvs⟩) nofun
    · exact parseredirs_stop hl h (by simpa using hts) fun s' hs' => ⟨[], ts, rfl, hs'⟩

/-- What the loop of `parseexec` has read are arguments with their redirections. -/
theorem parseargs_sound {ret : Cmd} {argc : ℕ} (h : At l ts s) (hargc : argc < MAXARGS)
    (hn : ts.length < n) :
    Wp (parseargs l n ret argc) s
      (fun _ s' => ∃ args us, ts = argTokens args ++ us ∧ argc + args.length < MAXARGS ∧ At l us s')
      (· ≠ .rounds) := by
  induction n generalizing ts s ret argc with
  | zero => omega
  | succ n ih =>
    by_cases hts : Ends [124, 41, 38, 59] ts
    · exact parseargs_stop hl h hts fun s' hs' => ⟨[], ts, rfl, hargc, hs'⟩
    obtain ⟨hne, hstart⟩ := not_or.mp hts
    obtain ⟨t, us, rfl⟩ := List.exists_cons_of_ne_nil hne
    by_cases hw : (∃ w, t = .word w) ∧ argc + 1 < MAXARGS
    · obtain ⟨⟨w, rfl⟩, hlt⟩ := hw
      refine parseargs_word hl h hlt fun a s' hs' _ => ?_
      simp only [List.length_cons] at hn
      refine Wp.bind (parseredirs_sound hl hs' (by omega)) ?_
      rintro ret s₁ ⟨rs, us, rfl, h₁⟩
      simp only [List.length_append] at hn
      refine (ih h₁ hlt (by omega)).post ?_
      rintro - s₂ ⟨args, us, rfl, hargs, h₂⟩
      refine ⟨(w, rs) :: args, us, ?_, by simp only [List.length_cons]; omega, h₂⟩
      simp [argTokens]
    · refine parseargs_panic hl h (by simpa using hstart) (fun w ht => ?_) nofun
      by_contra hlt
      exact hw ⟨⟨w, ht⟩, by omega⟩

/-- What the loop of `parseline` has read are `&`s. -/
theorem parseback_sound {cmd : Cmd} (h : At l ts s) (hn : ts.length < n) :
    Wp (parseback l n cmd) s
      (fun _ s' => ∃ amps us, ts = List.replicate amps .amp ++ us ∧ At l us s') (· ≠ .rounds) := by
  induction n generalizing ts s cmd with
  | zero => omega
  | succ n ih =>
    by_cases hts : Starts [38] ts = true
    · obtain ⟨us, rfl⟩ := of_starts .amp (by simp) hts
      simp only [List.length_cons] at hn
      refine parseback_amp hl h fun s' hs' => (ih hs' (by omega)).post ?_
      rintro - s₁ ⟨amps, us, rfl, hat⟩
      exact ⟨amps + 1, us, rfl, hat⟩
    · exact parseback_stop hl h (by simpa using hts) fun s' hs' => ⟨0, ts, rfl, hs'⟩

/-- What the four functions that call each other do with `n` rounds. -/
structure Sound (l : List UInt8) (n : ℕ) : Prop where
  line : ∀ ts s, At l ts s → 4 * ts.length + 4 ≤ n → Wp (parseline l n) s
    (fun _ s' => ∃ (T : Line) (us : _), T.Fits ∧ ts = T.tokens ++ us ∧ At l us s') (· ≠ .rounds)
  pipe : ∀ ts s, At l ts s → 4 * ts.length + 3 ≤ n → Wp (parsepipe l n) s
    (fun _ s' => ∃ (T : Pipe) (us : _), T.Fits ∧ ts = T.tokens ++ us ∧ At l us s') (· ≠ .rounds)
  exec : ∀ ts s, At l ts s → 4 * ts.length + 2 ≤ n → Wp (parseexec l n) s
    (fun _ s' => ∃ (T : Exec) (us : _), T.Fits ∧ ts = T.tokens ++ us ∧ At l us s') (· ≠ .rounds)
  block : ∀ ts s, At l ts s → 4 * ts.length + 1 ≤ n → Wp (parseblock l n) s
    (fun _ s' => ∃ (T : Exec) (us : _), T.Fits ∧ ts = T.tokens ++ us ∧ At l us s') (· ≠ .rounds)

/-- With one more call for `parseline`. -/
theorem Sound.succ_line (ih : Sound l n) (h : At l ts s) (hn : 4 * ts.length + 4 ≤ n + 1) :
    Wp (parseline l (n + 1)) s
      (fun _ s' => ∃ (T : Line) (us : _), T.Fits ∧ ts = T.tokens ++ us ∧ At l us s')
      (· ≠ .rounds) := by
  refine Wp.bind (ih.pipe ts s h (by omega)) ?_
  rintro cmd s₁ ⟨P, us, hP, rfl, h₁⟩
  simp only [List.length_append] at hn
  refine Wp.bind (parseback_sound hl h₁ (by omega)) ?_
  rintro cmd s₂ ⟨amps, us, rfl, h₂⟩
  simp only [List.length_append] at hn
  refine peek_ite hl rfl h₂ (fun hs s₃ h₃ => ?_) fun _ s₃ h₃ => ?_
  · obtain ⟨us, rfl⟩ := of_starts .semi (by simp) hs
    simp only [List.length_cons] at hn
    refine Wp.bind (gettoken_cons hl h₃) ?_
    rintro - s₄ ⟨-, h₄, -⟩
    refine Wp.bind (ih.line us s₄ h₄ (by omega)) ?_
    rintro right s₅ ⟨T, us, hT, rfl, h₅⟩
    exact ⟨.seq P amps T, us, ⟨hP, hT⟩, by simp [Line.tokens], h₅⟩
  · exact ⟨.one P amps, us, hP, by simp [Line.tokens], h₃⟩

/-- With one more call for `parsepipe`. -/
theorem Sound.succ_pipe (ih : Sound l n) (h : At l ts s) (hn : 4 * ts.length + 3 ≤ n + 1) :
    Wp (parsepipe l (n + 1)) s
      (fun _ s' => ∃ (T : Pipe) (us : _), T.Fits ∧ ts = T.tokens ++ us ∧ At l us s')
      (· ≠ .rounds) := by
  refine Wp.bind (ih.exec ts s h (by omega)) ?_
  rintro cmd s₁ ⟨e, us, he, rfl, h₁⟩
  simp only [List.length_append] at hn
  refine peek_ite hl rfl h₁ (fun hs s₂ h₂ => ?_) fun _ s₂ h₂ => ?_
  · obtain ⟨us, rfl⟩ := of_starts .bar (by simp) hs
    simp only [List.length_cons] at hn
    refine Wp.bind (gettoken_cons hl h₂) ?_
    rintro - s₃ ⟨-, h₃, -⟩
    refine Wp.bind (ih.pipe us s₃ h₃ (by omega)) ?_
    rintro right s₄ ⟨T, us, hT, rfl, h₄⟩
    exact ⟨.pipe e T, us, ⟨he, hT⟩, by simp [Pipe.tokens], h₄⟩
  · exact ⟨.one e, us, he, by simp [Pipe.tokens], h₂⟩

/-- With one more call for `parseexec`. -/
theorem Sound.succ_exec (ih : Sound l n) (h : At l ts s) (hn : 4 * ts.length + 2 ≤ n + 1) :
    Wp (parseexec l (n + 1)) s
      (fun _ s' => ∃ (T : Exec) (us : _), T.Fits ∧ ts = T.tokens ++ us ∧ At l us s')
      (· ≠ .rounds) := by
  refine peek_ite hl rfl h (fun _ s₁ h₁ => ih.block ts s₁ h₁ (by omega)) fun _ s₁ h₁ => ?_
  refine Wp.bind (parseredirs_sound hl h₁ (by omega)) ?_
  rintro ret s₂ ⟨rs, us, rfl, h₂⟩
  simp only [List.length_append] at hn
  refine (parseargs_sound hl h₂ (by decide) (by omega)).post ?_
  rintro - s₃ ⟨args, us, rfl, hargs, h₃⟩
  refine ⟨.simple rs args, us, ?_, by simp [Exec.tokens], h₃⟩
  change args.length ≤ MAXARGS - 1
  omega

/-- With one more call for `parseblock`. -/
theorem Sound.succ_block (ih : Sound l n) (h : At l ts s) (hn : 4 * ts.length + 1 ≤ n + 1) :
    Wp (parseblock l (n + 1)) s
      (fun _ s' => ∃ (T : Exec) (us : _), T.Fits ∧ ts = T.tokens ++ us ∧ At l us s')
      (· ≠ .rounds) := by
  refine peek_ite hl rfl h (fun hs s₁ h₁ => ?_) fun _ _ _ => nofun
  obtain ⟨us, rfl⟩ := of_starts .lparen (by simp) hs
  simp only [List.length_cons] at hn
  refine Wp.bind (gettoken_cons hl h₁) ?_
  rintro - s₂ ⟨-, h₂, -⟩
  refine Wp.bind (ih.line us s₂ h₂ (by omega)) ?_
  rintro cmd s₃ ⟨T, us, hT, rfl, h₃⟩
  simp only [List.length_append] at hn
  refine peek_ite hl rfl h₃ (fun hs s₄ h₄ => ?_) fun _ _ _ => nofun
  obtain ⟨us, rfl⟩ := of_starts .rparen (by simp) hs
  simp only [List.length_cons] at hn
  refine Wp.bind (gettoken_cons hl h₄) ?_
  rintro - s₅ ⟨-, h₅, -⟩
  refine (parseredirs_sound hl h₅ (by omega)).post ?_
  rintro - s₆ ⟨rs, us, rfl, h₆⟩
  exact ⟨.block T rs, us, hT, by simp [Exec.tokens], h₆⟩

/-- What the parsers have read is a phrase of the grammar, by induction on the calls. -/
theorem sound (n : ℕ) : Sound l n := by
  induction n with
  | zero => constructor <;> intros <;> omega
  | succ n ih =>
    exact ⟨fun _ _ => ih.succ_line hl, fun _ _ => ih.succ_pipe hl, fun _ _ => ih.succ_exec hl,
      fun _ _ => ih.succ_block hl⟩

end Sound

/-! ### Derivations are parsed -/

section Complete

variable {l : List UInt8} (hl : 0 ∉ l) {s n : ℕ} {ts : List Token}

include hl

/-- Redirections are read one after the other. -/
theorem parseredirs_complete {cmd : Cmd} {t : Tree} (rs : List Redir)
    (h : At l (redirTokens rs ++ ts) s) (hts : Starts [60, 62] ts = false) (hcmd : Reads l cmd t)
    (hn : (redirTokens rs ++ ts).length < n) :
    Wp (parseredirs l n cmd) s (fun cmd' s' => Reads l cmd' (t.redirs rs) ∧ At l ts s')
      fun _ => False := by
  induction rs generalizing n s cmd t with
  | nil =>
    obtain ⟨n, rfl⟩ := Nat.exists_eq_add_one_of_ne_zero (Nat.ne_zero_of_lt hn)
    exact parseredirs_stop hl h hts fun s' hs' => ⟨hcmd, hs'⟩
  | cons r rs ih =>
    obtain ⟨n, rfl⟩ := Nat.exists_eq_add_one_of_ne_zero (Nat.ne_zero_of_lt hn)
    refine parseredirs_redir hl h fun q eq s' hs' hw => ih hs' (.redir hcmd hw) ?_
    simp only [redirTokens_cons, List.cons_append, List.length_cons] at hn
    omega

/-- Arguments are read one after the other, each with its redirections. -/
theorem parseargs_complete {ret : Cmd} {words : List (List UInt8)} {rs : List Redir}
    (args : List (List UInt8 × List Redir)) (h : At l (argTokens args ++ ts) s)
    (hts : Ends [124, 41, 38, 59] ts) (hret : Reads l ret ((Tree.exec words).redirs rs))
    (hargs : words.length + args.length < MAXARGS) (hn : (argTokens args ++ ts).length < n) :
    Wp (parseargs l n ret words.length) s
      (fun cmd s' => Reads l cmd
        ((Tree.exec (words ++ args.map Prod.fst)).redirs (rs ++ args.flatMap Prod.snd)) ∧
        At l ts s')
      fun _ => False := by
  induction args generalizing n s ret words rs with
  | nil =>
    obtain ⟨n, rfl⟩ := Nat.exists_eq_add_one_of_ne_zero (Nat.ne_zero_of_lt hn)
    refine parseargs_stop hl h hts fun s' hs' => ⟨?_, hs'⟩
    simpa using hret
  | cons a args ih =>
    obtain ⟨n, rfl⟩ := Nat.exists_eq_add_one_of_ne_zero (Nat.ne_zero_of_lt hn)
    simp only [argTokens_cons, List.cons_append, List.append_assoc, List.length_cons] at h hn hargs
    refine parseargs_word hl h (by omega) fun p s' hs' hw => ?_
    have hret' := hret.addArg hw
    rw [Tree.redirs_addArg] at hret'
    have hstop : Starts [60, 62] (argTokens args ++ ts) = false := by
      cases args with
      | nil => exact hts.starts_eq_false rfl
      | cons => rfl
    refine Wp.bind (parseredirs_complete hl a.2 hs' hstop hret' (by omega)) ?_
    rintro ret s₁ ⟨hret₁, h₁⟩
    rw [Tree.redirs_append] at hret₁
    simp only [List.length_append] at hn
    have hlen : (words ++ [a.1]).length = words.length + 1 := by simp
    have hn₁ : (argTokens args ++ ts).length < n := by
      simp only [List.length_append]
      omega
    have key := ih h₁ hret₁ (by rw [hlen]; omega) hn₁
    rw [hlen] at key
    simpa using key

/-- The `&`s are read one after the other. -/
theorem parseback_complete {cmd : Cmd} {t : Tree} (amps : ℕ)
    (h : At l (List.replicate amps .amp ++ ts) s) (hts : Starts [38] ts = false)
    (hcmd : Reads l cmd t) (hn : (List.replicate amps Token.amp ++ ts).length < n) :
    Wp (parseback l n cmd) s (fun cmd' s' => Reads l cmd' (Tree.back^[amps] t) ∧ At l ts s')
      fun _ => False := by
  induction amps generalizing n s cmd t with
  | zero =>
    obtain ⟨n, rfl⟩ := Nat.exists_eq_add_one_of_ne_zero (Nat.ne_zero_of_lt hn)
    exact parseback_stop hl h hts fun s' hs' => ⟨hcmd, hs'⟩
  | succ amps ih =>
    obtain ⟨n, rfl⟩ := Nat.exists_eq_add_one_of_ne_zero (Nat.ne_zero_of_lt hn)
    simp only [List.replicate_succ, List.cons_append, List.length_cons] at h hn
    exact parseback_amp hl h fun s' hs' => ih hs' (.back hcmd) (by omega)

mutual

/-- A line of the grammar is read, by induction on the line. -/
theorem parseline_complete {s n : ℕ} {ts : List Token} (T : Line) (hT : T.Fits)
    (h : At l (T.tokens ++ ts) s) (hts : Ends [41] ts) (hn : 4 * (T.tokens ++ ts).length + 4 ≤ n) :
    Wp (parseline l n) s (fun cmd s' => Reads l cmd T.tree ∧ At l ts s') fun _ => False := by
  obtain ⟨n, rfl⟩ := Nat.exists_eq_add_one_of_ne_zero (show n ≠ 0 by omega)
  cases T with
  | one p amps =>
    simp only [Line.tokens, List.append_assoc] at h hn
    have hend : Ends [41, 38, 59] (List.replicate amps .amp ++ ts) := by
      cases amps with
      | zero => exact hts.mono rfl
      | succ amps => exact .inr rfl
    refine Wp.bind (parsepipe_complete p hT h hend (by omega)) ?_
    rintro cmd s₁ ⟨hcmd, h₁⟩
    simp only [List.length_append] at hn
    refine Wp.bind (parseback_complete hl amps h₁ (hts.starts_eq_false rfl) hcmd
      (by simp only [List.length_append]; omega)) ?_
    rintro cmd s₂ ⟨hcmd, h₂⟩
    refine peek_ite hl rfl h₂ (fun hs => ?_) fun _ s₃ h₃ => ⟨hcmd, h₃⟩
    rw [hts.starts_eq_false rfl] at hs
    cases hs
  | seq p amps rest =>
    simp only [Line.tokens, List.append_assoc, List.cons_append] at h hn
    have hend : Ends [41, 38, 59] (List.replicate amps .amp ++ .semi :: (rest.tokens ++ ts)) := by
      cases amps with
      | zero => exact .inr rfl
      | succ amps => exact .inr rfl
    refine Wp.bind (parsepipe_complete p hT.1 h hend (by omega)) ?_
    rintro cmd s₁ ⟨hcmd, h₁⟩
    simp only [List.length_append, List.length_cons] at hn
    refine Wp.bind (parseback_complete hl amps h₁ rfl hcmd
      (by simp only [List.length_append, List.length_cons]; omega)) ?_
    rintro cmd s₂ ⟨hcmd, h₂⟩
    refine peek_ite hl rfl h₂ (fun hs s₃ h₃ => ?_) fun hs => by cases hs
    refine Wp.bind (gettoken_cons hl h₃) ?_
    rintro - s₄ ⟨-, h₄, -⟩
    refine Wp.bind (parseline_complete rest hT.2 h₄ hts
      (by simp only [List.length_append]; omega)) ?_
    rintro right s₅ ⟨hright, h₅⟩
    exact ⟨.list hcmd hright, h₅⟩

/-- The same for a pipe. -/
theorem parsepipe_complete {s n : ℕ} {ts : List Token} (T : Pipe) (hT : T.Fits)
    (h : At l (T.tokens ++ ts) s) (hts : Ends [41, 38, 59] ts)
    (hn : 4 * (T.tokens ++ ts).length + 3 ≤ n) :
    Wp (parsepipe l n) s (fun cmd s' => Reads l cmd T.tree ∧ At l ts s') fun _ => False := by
  obtain ⟨n, rfl⟩ := Nat.exists_eq_add_one_of_ne_zero (show n ≠ 0 by omega)
  cases T with
  | one e =>
    simp only [Pipe.tokens] at h hn
    refine Wp.bind (parseexec_complete e hT h (hts.mono rfl) (by omega)) ?_
    rintro cmd s₁ ⟨hcmd, h₁⟩
    refine peek_ite hl rfl h₁ (fun hs => ?_) fun _ s₂ h₂ => ⟨hcmd, h₂⟩
    rw [hts.starts_eq_false rfl] at hs
    cases hs
  | pipe e rest =>
    simp only [Pipe.tokens, List.append_assoc, List.cons_append] at h hn
    refine Wp.bind (parseexec_complete e hT.1 h (.inr rfl) (by omega)) ?_
    rintro cmd s₁ ⟨hcmd, h₁⟩
    refine peek_ite hl rfl h₁ (fun hs s₂ h₂ => ?_) fun hs => by cases hs
    refine Wp.bind (gettoken_cons hl h₂) ?_
    rintro - s₃ ⟨-, h₃, -⟩
    simp only [List.length_append, List.length_cons] at hn
    refine Wp.bind (parsepipe_complete rest hT.2 h₃ hts
      (by simp only [List.length_append]; omega)) ?_
    rintro right s₄ ⟨hright, h₄⟩
    exact ⟨.pipe hcmd hright, h₄⟩

/-- The same for a command. -/
theorem parseexec_complete {s n : ℕ} {ts : List Token} (T : Exec) (hT : T.Fits)
    (h : At l (T.tokens ++ ts) s) (hts : Ends [124, 41, 38, 59] ts)
    (hn : 4 * (T.tokens ++ ts).length + 2 ≤ n) :
    Wp (parseexec l n) s (fun cmd s' => Reads l cmd T.tree ∧ At l ts s') fun _ => False := by
  obtain ⟨n, rfl⟩ := Nat.exists_eq_add_one_of_ne_zero (show n ≠ 0 by omega)
  have hredir : Starts [60, 62] ts = false := hts.starts_eq_false rfl
  cases T with
  | block line rs =>
    simp only [Exec.tokens, List.append_assoc, List.cons_append, List.length_cons] at h hn
    refine peek_ite hl rfl h (fun _ s₁ h₁ => ?_) fun hs => by cases hs
    obtain ⟨n, rfl⟩ := Nat.exists_eq_add_one_of_ne_zero (show n ≠ 0 by omega)
    refine peek_ite hl rfl h₁ (fun _ s₂ h₂ => ?_) fun hs => by cases hs
    refine Wp.bind (gettoken_cons hl h₂) ?_
    rintro - s₃ ⟨-, h₃, -⟩
    refine Wp.bind (parseline_complete line hT h₃ (.inr rfl) (by omega)) ?_
    rintro cmd s₄ ⟨hcmd, h₄⟩
    refine peek_ite hl rfl h₄ (fun hs s₅ h₅ => ?_) fun hs => by cases hs
    refine Wp.bind (gettoken_cons hl h₅) ?_
    rintro - s₆ ⟨-, h₆, -⟩
    simp only [List.length_append, List.length_cons] at hn
    exact parseredirs_complete hl rs h₆ hredir hcmd (by simp only [List.length_append]; omega)
  | simple rs args =>
    simp only [Exec.tokens, List.append_assoc] at h hn
    have hargs : Starts [40] (argTokens args ++ ts) = false ∧
        Starts [60, 62] (argTokens args ++ ts) = false := by
      cases args with
      | nil => exact ⟨hts.starts_eq_false rfl, hredir⟩
      | cons => exact ⟨rfl, rfl⟩
    have hrs : Starts [40] (redirTokens rs ++ (argTokens args ++ ts)) = false := by
      cases rs with
      | nil => exact hargs.1
      | cons r rs => cases hop : r.op <;> simp [hop, Op.token, Token.first, Token.code]
    refine peek_ite hl rfl h (fun hs => ?_) fun _ s₁ h₁ => ?_
    · rw [hrs] at hs
      cases hs
    · refine Wp.bind (parseredirs_complete hl rs h₁ hargs.2 (.exec .nil) (by omega)) ?_
      rintro ret s₂ ⟨hret, h₂⟩
      have hlen : args.length ≤ MAXARGS - 1 := hT
      simp only [List.length_append] at hn
      have hpos : 0 < MAXARGS := by decide
      exact parseargs_complete hl args h₂ hts hret (by simp only [List.length_nil]; omega)
        (by simp only [List.length_append]; omega)

end

end Complete

end Xv6.Sh
