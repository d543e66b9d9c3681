import Mathlib.Data.List.TakeWhile
import Xv6.Grep.Model

/-!
# The lines of the input

What `grep` should write are the lines of its input that match, whatever the calls of `read` return.
It does so as long as each call completes a line: a call that does not makes `grep` forget the
beginning of the line, since the test `p == buf` then empties the buffer.
-/

namespace Xv6.Grep

/-- The lines that a newline ends, after the beginning `line` of the first one. -/
def linesFrom : List UInt8 → List UInt8 → List (List UInt8)
  | _, [] => []
  | line, x :: s => if x = newline then line :: linesFrom [] s else linesFrom (line ++ [x]) s

/-- The beginning of a line at the end of a string. -/
def openLine : List UInt8 → List UInt8 → List UInt8
  | line, [] => line
  | line, x :: s => if x = newline then openLine [] s else openLine (line ++ [x]) s

/-- The lines of a string that a newline ends. -/
def lines (s : List UInt8) : List (List UInt8) := linesFrom [] s

/-- The lines that match, with their newlines. -/
def matching (re : List UInt8) (l : List (List UInt8)) : List UInt8 :=
  (l.filter fun line => «match» re line).flatMap fun line => line ++ [newline]

/-- What should be written. -/
def wanted (re input : List UInt8) : List UInt8 := matching re (lines input)

section Lines

variable {l s t : List UInt8}

theorem linesFrom_append :
    linesFrom l (s ++ t) = linesFrom l s ++ linesFrom (openLine l s) t := by
  induction s generalizing l with
  | nil => rfl
  | cons x s ih =>
    rw [List.cons_append, linesFrom, linesFrom, openLine]
    split_ifs
    · rw [ih, List.cons_append]
    · rw [ih]

theorem linesFrom_of_not_mem (h : newline ∉ s) :
    linesFrom l s = [] ∧ openLine l s = l ++ s := by
  induction s generalizing l with
  | nil => exact ⟨rfl, (List.append_nil l).symm⟩
  | cons x s ih =>
    rw [List.mem_cons, not_or] at h
    obtain ⟨h₁, h₂⟩ := @ih (l ++ [x]) h.2
    rw [linesFrom, openLine, if_neg (Ne.symm h.1), if_neg (Ne.symm h.1), h₁, h₂, List.append_assoc]
    exact ⟨rfl, rfl⟩

theorem not_mem_openLine (h : newline ∉ l) : newline ∉ openLine l s := by
  induction s generalizing l with
  | nil => exact h
  | cons x s ih =>
    rw [openLine]
    split_ifs with hx
    · exact ih (List.not_mem_nil)
    · refine ih ?_
      simp [h, Ne.symm hx]

theorem openLine_append : openLine l (s ++ t) = openLine (openLine l s) t := by
  induction s generalizing l with
  | nil => rfl
  | cons x s ih =>
    rw [List.cons_append, openLine, openLine]
    split_ifs <;> rw [ih]

theorem mem_of_mem_openLine {x : UInt8} (h : x ∈ openLine l s) : x ∈ l ∨ x ∈ s := by
  induction s generalizing l with
  | nil => exact .inl h
  | cons y s ih =>
    rw [openLine] at h
    split_ifs at h
    · exact .inr (List.mem_cons_of_mem y ((ih h).resolve_left List.not_mem_nil))
    · rcases ih h with h | h
      · rw [List.mem_append, List.mem_singleton] at h
        exact h.imp_right fun (h : x = y) => h ▸ List.mem_cons_self
      · exact .inr (List.mem_cons_of_mem y h)

theorem length_openLine_le : (openLine l s).length ≤ l.length + s.length := by
  induction s generalizing l with
  | nil => exact le_rfl
  | cons x s ih =>
    rw [openLine, List.length_cons]
    split_ifs
    · have := @ih []
      rw [List.length_nil] at this
      omega
    · have := @ih (l ++ [x])
      rw [List.length_append, List.length_singleton] at this
      omega

/-- After a newline the line begins anew. -/
theorem length_openLine_lt (h : newline ∈ s) : (openLine l s).length < s.length := by
  induction s generalizing l with
  | nil => cases h
  | cons x s ih =>
    rw [openLine, List.length_cons]
    split_ifs with hx
    · have := length_openLine_le (l := []) (s := s)
      rw [List.length_nil] at this
      omega
    · have := @ih (l ++ [x]) ((List.mem_cons.mp h).resolve_left (Ne.symm hx))
      omega

/-- A line, and what follows it. -/
theorem lines_line (h : newline ∉ s) :
    lines (s ++ newline :: t) = s :: lines t ∧
      openLine [] (s ++ newline :: t) = openLine [] t := by
  obtain ⟨h₁, h₂⟩ := linesFrom_of_not_mem (l := []) h
  rw [lines, linesFrom_append, openLine_append, h₁, h₂, linesFrom, openLine, if_pos rfl, if_pos rfl]
  exact ⟨rfl, rfl⟩

/-- The beginning of the first line is part of what the empty pattern, which matches every line,
writes. -/
theorem length_matching_nil (h : newline ∈ s) :
    (matching [] (linesFrom l s)).length = l.length + (matching [] (lines s)).length := by
  have hall (line : List UInt8) : «match» [] line = true := by cases line <;> rfl
  rw [lines]
  suffices ∀ l₁ l₂ : List UInt8, (matching [] (linesFrom (l₁ ++ l₂) s)).length =
      l₁.length + (matching [] (linesFrom l₂ s)).length by
    simpa using this l []
  intro l₁ l₂
  induction s generalizing l₂ with
  | nil => cases h
  | cons x s ih =>
    rw [linesFrom, linesFrom]
    split_ifs with hx
    · simp [matching, hall]
    · rw [List.append_assoc]
      exact ih ((List.mem_cons.mp h).resolve_left (Ne.symm hx)) (l₂ ++ [x])

end Lines

section Loop

variable {re s : List UInt8}

theorem strchr_eq (hnul : 0 ∉ s) (c : UInt8) : strchr s c = s.findIdx? (· = c) := by
  have hself : s.takeWhile (· ≠ 0) = s := List.takeWhile_eq_self_iff.mpr fun x hx => by
    simpa using ne_of_mem_of_not_mem hx hnul
  rw [strchr, hself]

theorem strchr_eq_none (hnul : 0 ∉ s) : strchr s newline = none ↔ newline ∉ s := by
  rw [strchr_eq hnul, List.findIdx?_eq_none_iff]
  constructor
  · intro h hmem
    simpa using h newline hmem
  · intro h x hx
    simpa using ne_of_mem_of_not_mem hx h

theorem strchr_eq_some (hnul : 0 ∉ s) {q : ℕ} (h : strchr s newline = some q) :
    s = s.take q ++ newline :: s.drop (q + 1) ∧ newline ∉ s.take q ∧
      s.take (q + 1) = s.take q ++ [newline] := by
  rw [strchr_eq hnul, List.findIdx?_eq_some_iff_getElem] at h
  obtain ⟨hq, hx, hlt⟩ := h
  rw [decide_eq_true_eq] at hx
  refine ⟨?_, fun hmem => ?_, ?_⟩
  · rw [← hx, ← List.drop_eq_getElem_cons hq, List.take_append_drop]
  · obtain ⟨j, hj, hjx⟩ := List.mem_take_iff_getElem.mp hmem
    exact absurd hjx (by simpa using hlt j (by omega))
  · rw [← hx, List.take_append_getElem hq]

/-- The inner loop writes the lines that match, and leaves the open one. -/
theorem lineLoop_eq (re : List UInt8) {n : ℕ} (hnul : 0 ∉ s) (hn : s.length ≤ n) :
    lineLoop re n s = (matching re (lines s), openLine [] s) := by
  induction n generalizing s with
  | zero =>
    obtain rfl := List.length_eq_zero_iff.mp (Nat.le_zero.mp hn)
    rfl
  | succ n ih =>
    rw [lineLoop]
    cases hq : strchr s newline with
    | none =>
      obtain ⟨h₁, h₂⟩ := linesFrom_of_not_mem (l := []) ((strchr_eq_none hnul).mp hq)
      rw [lines, h₁, h₂]
      rfl
    | some q =>
      obtain ⟨hs, hline, htake⟩ := strchr_eq_some hnul hq
      have hlen : (s.drop (q + 1)).length ≤ n := by
        rw [List.length_drop]
        omega
      have hrest := ih (fun h => hnul (List.mem_of_mem_drop h)) hlen
      obtain ⟨h₁, h₂⟩ := lines_line (t := s.drop (q + 1)) hline
      rw [← hs] at h₁ h₂
      dsimp only
      rw [hrest, h₁, h₂, htake, matching, matching, List.filter_cons]
      split_ifs
      · rw [List.flatMap_cons]
      · rfl

end Loop

/-- No call of `read` returns bytes without a newline while there is one to come. -/
def CompleteLines (reads : List (List UInt8)) : Prop :=
  ∀ l₁ bytes l₂, reads = l₁ ++ bytes :: l₂ → newline ∈ bytes ∨ newline ∉ l₂.flatten

theorem completeLines_cons {bytes : List UInt8} {reads : List (List UInt8)} :
    CompleteLines (bytes :: reads) ↔
      (newline ∈ bytes ∨ newline ∉ reads.flatten) ∧ CompleteLines reads := by
  constructor
  · intro h
    exact ⟨h [] bytes reads rfl, fun l₁ c l₂ heq => h (bytes :: l₁) c l₂ (by rw [heq]; rfl)⟩
  · rintro ⟨hmore, h⟩ l₁ c l₂ heq
    cases l₁ with
    | nil =>
      obtain ⟨rfl, rfl⟩ := List.cons.inj heq
      exact hmore
    | cons d l₁ => exact h l₁ c l₂ (List.cons.inj heq).2

/-- Where no newline is left, no line is left to complete. -/
theorem completeLines_of_not_mem {reads : List (List UInt8)} (h : newline ∉ reads.flatten) :
    CompleteLines reads := by
  rintro l₁ bytes l₂ rfl
  refine .inr fun hmem => h ?_
  simp [hmem]

/-- What is written with the beginning `buf` of a line in the buffer: the lines that match if the
calls of `read` complete them, and too little for the empty pattern if not. -/
structure Written (re buf input : List UInt8) (reads : List (List UInt8)) (out : List UInt8) :
    Prop where
  complete : CompleteLines reads → out = matching re (linesFrom buf input)
  le : re = [] → out.length ≤ (matching re (linesFrom buf input)).length
  lost : re = [] → ¬ CompleteLines reads → out.length < (matching re (linesFrom buf input)).length

section Written

variable {re buf bytes rest out : List UInt8} {reads : List (List UInt8)}

/-- The line in the buffer is complete. -/
theorem Written.line (hmem : newline ∈ bytes)
    (h : Written re (openLine buf bytes) rest reads out) :
    Written re buf (bytes ++ rest) (bytes :: reads) (matching re (linesFrom buf bytes) ++ out) := by
  have hsplit : matching re (linesFrom buf (bytes ++ rest)) =
      matching re (linesFrom buf bytes) ++ matching re (linesFrom (openLine buf bytes) rest) := by
    simp [linesFrom_append, matching]
  have hiff : CompleteLines (bytes :: reads) ↔ CompleteLines reads := by
    simp [completeLines_cons, hmem]
  refine ⟨fun hc => ?_, fun hre => ?_, fun hre hc => ?_⟩
  · rw [hsplit, h.complete (hiff.mp hc)]
  · rw [hsplit, List.length_append, List.length_append]
    exact Nat.add_le_add_left (h.le hre) _
  · rw [hsplit, List.length_append, List.length_append]
    exact Nat.add_lt_add_left (h.lost hre (mt hiff.mpr hc)) _

/-- The beginning of the line is lost. That shows once its newline comes. -/
theorem Written.forget (hne : bytes ≠ []) (hmem : newline ∉ bytes) (hflat : reads.flatten = rest)
    (h : Written re [] rest reads out) : Written re buf (bytes ++ rest) (bytes :: reads) out := by
  obtain ⟨hnone, hself⟩ := linesFrom_of_not_mem (l := buf) hmem
  have hpos := List.length_pos_iff.mpr hne
  by_cases hmore : newline ∈ rest
  · have hnot : ¬ CompleteLines (bytes :: reads) := by
      simp [completeLines_cons, hmem, hflat, hmore]
    have hlt (hre : re = []) :
        out.length < (matching re (linesFrom buf (bytes ++ rest))).length := by
      have hle := h.le hre
      subst hre
      rw [linesFrom_append, hnone, hself, List.nil_append, length_matching_nil hmore,
        List.length_append]
      rw [← lines] at hle
      omega
    exact ⟨fun hc => absurd hc hnot, fun hre => (hlt hre).le, fun hre _ => hlt hre⟩
  · have hcomplete : CompleteLines reads := completeLines_of_not_mem (hflat ▸ hmore)
    have hlines : linesFrom buf (bytes ++ rest) = linesFrom [] rest := by
      rw [linesFrom_append, hnone, (linesFrom_of_not_mem hmore).1, (linesFrom_of_not_mem hmore).1]
      rfl
    have hcons : CompleteLines (bytes :: reads) :=
      completeLines_cons.mpr ⟨.inr (hflat ▸ hmore), hcomplete⟩
    refine ⟨fun _ => ?_, fun hre => ?_, fun _ hc => absurd hcons hc⟩
    · rw [hlines, h.complete hcomplete]
    · rw [hlines]
      exact h.le hre

end Written

/-- The outer loop, with the beginning of a line in the buffer. What `read` returns does not depend
on the pattern. -/
theorem grepLoop_spec (short : ℕ → ℕ) {fuel i : ℕ} {buf input : List UInt8}
    (hnul : 0 ∉ input) (hbuf : 0 ∉ buf) (hline : newline ∉ buf) (hroom : buf.length + 1 < BUFSIZE)
    (hfuel : input.length < fuel) :
    ∃ reads, reads.flatten = input ∧ ∀ re, ∃ out,
      grepLoop re short fuel i buf input = some (reads, out) ∧ Written re buf input reads out := by
  induction fuel generalizing i buf input with
  | zero => omega
  | succ fuel ih =>
    simp only [grepLoop]
    set n := min (short i + 1) (BUFSIZE - buf.length - 1) with hn
    have hpos : 0 < n := by omega
    -- `read` returns 0 only at the end of the input
    by_cases hempty : input.take n = []
    · obtain rfl : input = [] := by
        rcases List.take_eq_nil_iff.mp hempty with h | h
        · omega
        · exact h
      refine ⟨[], rfl, fun re => ⟨[], by simp, fun _ => rfl, fun _ => le_rfl, fun _ h => ?_⟩⟩
      exact absurd (completeLines_of_not_mem List.not_mem_nil) h
    have hsplit : input.take n ++ input.drop n = input := List.take_append_drop n input
    set bytes := input.take n with hbytes
    set rest := input.drop n with hrest
    have hlen : bytes.length ≤ n := List.length_take_le ..
    have hlen' : rest.length < input.length := by
      have := List.length_pos_iff.mpr hempty
      rw [← hsplit, List.length_append]
      omega
    have hnul₁ : 0 ∉ bytes := fun h => hnul (List.mem_of_mem_take h)
    have hnul₂ : 0 ∉ rest := fun h => hnul (List.mem_of_mem_drop h)
    obtain ⟨hnone, hself⟩ := linesFrom_of_not_mem (l := []) hline
    have hloop (re : List UInt8) : lineLoop re (buf ++ bytes).length (buf ++ bytes) =
        (matching re (linesFrom buf bytes), openLine buf bytes) := by
      rw [lineLoop_eq re (by simp [hbuf, hnul₁]) le_rfl, lines, linesFrom_append, openLine_append,
        hnone, hself, List.nil_append, List.nil_append]
    simp only [if_neg hempty, hloop]
    by_cases hmem : newline ∈ bytes
    · -- `p` has moved, and the open line is kept
      have hshort := length_openLine_lt (l := buf) hmem
      rw [if_neg (by rw [List.length_append]; omega)]
      obtain ⟨reads, hflat, hruns⟩ := @ih (i + 1) (openLine buf bytes) rest hnul₂
        (fun h => (mem_of_mem_openLine h).elim hbuf hnul₁) (not_mem_openLine hline) (by omega)
        (by omega)
      refine ⟨bytes :: reads, by rw [List.flatten_cons, hflat, hsplit], fun re => ?_⟩
      obtain ⟨out, hrun, hout⟩ := hruns re
      rw [hrun]
      exact ⟨_, rfl, hsplit ▸ hout.line hmem⟩
    · -- `p == buf`, and `m` becomes 0
      obtain ⟨hnone', hself'⟩ := linesFrom_of_not_mem (l := buf) hmem
      rw [hself', if_pos rfl]
      obtain ⟨reads, hflat, hruns⟩ := @ih (i + 1) [] rest hnul₂ List.not_mem_nil
        List.not_mem_nil (by decide) (by omega)
      refine ⟨bytes :: reads, by rw [List.flatten_cons, hflat, hsplit], fun re => ?_⟩
      obtain ⟨out, hrun, hout⟩ := hruns re
      rw [hrun, hnone']
      exact ⟨_, rfl, hsplit ▸ hout.forget hempty hmem hflat⟩

/-- Whatever the calls of `read` return, `grep` comes to the end of the input. It writes the lines
that match, for every pattern, if and only if each call completes a line or no line is left to
complete. -/
theorem grep_writes_lines (short : ℕ → ℕ) {input : List UInt8} (hnul : 0 ∉ input) :
    ∃ reads, reads.flatten = input ∧ (∀ re, ∃ out, grep re short input = some (reads, out)) ∧
      ((∀ re, grep re short input = some (reads, wanted re input)) ↔ CompleteLines reads) := by
  obtain ⟨reads, hflat, hruns⟩ := grepLoop_spec short (i := 0) hnul List.not_mem_nil
    List.not_mem_nil (by decide) (Nat.lt_succ_self _)
  refine ⟨reads, hflat, fun re => (hruns re).imp fun _ h => h.1, fun h => ?_, fun hc re => ?_⟩
  · by_contra hc
    obtain ⟨out, hrun, hout⟩ := hruns []
    have heq : out = wanted [] input :=
      (congrArg Prod.snd (Option.some.inj (hrun.symm.trans (h [])))).trans rfl
    exact absurd (congrArg List.length heq) (hout.lost rfl hc).ne
  · obtain ⟨out, hrun, hout⟩ := hruns re
    rw [grep, hrun, hout.complete hc]
    rfl

/-- `grep bb` of two lines, the second of which comes in two calls of `read`: the first byte of it
waits in the buffer. -/
theorem grep_writes_lines_carried :
    grep [98, 98] (fun i => 2 - i) [97, newline, 98, 98, newline] =
      some ([[97, newline, 98], [98, newline]], [98, 98, newline]) := by
  obtain ⟨reads, _, hruns, hiff⟩ :=
    @grep_writes_lines (fun i => 2 - i) [97, newline, 98, 98, newline] (by decide)
  obtain ⟨out, hrun⟩ := hruns [98, 98]
  have htwo : reads = [[97, newline, 98], [98, newline]] :=
    (congrArg Prod.fst (Option.some.inj hrun)).symm
  subst htwo
  refine hiff.mpr (completeLines_cons.mpr ⟨.inl (by decide), ?_⟩) [98, 98]
  exact completeLines_cons.mpr ⟨.inl (by decide), completeLines_of_not_mem List.not_mem_nil⟩

/-- `grep ab` of a line `ab` that comes byte by byte writes nothing. -/
theorem grep_forgets :
    let re : List UInt8 := [97, 98]
    let input : List UInt8 := [97, 98, newline]
    0 ∉ input ∧ (∀ line ∈ lines input, line.length + 1 ≤ BUFSIZE - 1) ∧ wanted re input = input ∧
      grep re (fun _ => 0) input = some ([[97], [98], [newline]], []) := by
  decide

end Xv6.Grep
