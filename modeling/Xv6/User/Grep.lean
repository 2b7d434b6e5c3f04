import Xv6.User.Match

/-!
# `grep`

The loop of `grep` in `user/grep.c`. The buffer holds 1023 characters and a NUL. A read fills it up
behind the part of a line that is left, and returns any number of the characters that it can; a
request for none looks like the end of the file.
-/

namespace Xv6.Grep

/-- `strchr(p, '\n')`, as the characters before and after; a NUL ends the search. -/
def strchr : List Char → Option (List Char × List Char)
  | [] => none
  | c :: p =>
    if c = '\n' then some ([], p)
    else if c = '\x00' then none
    else (strchr p).map fun (line, rest) => (c :: line, rest)

/-- The inner loop, on the characters at `p`: what it writes, and where it leaves `p`. Each turn
takes a newline. -/
def lineLoop (pattern : List Char) : ℕ → List Char → List Char × List Char
  | 0, p => ([], p)
  | turns + 1, p =>
    match strchr p with
    | none => ([], p)
    | some (line, rest) =>
      let (out, p) := lineLoop pattern turns rest
      ((if match_ pattern line then line ++ ['\n'] else []) ++ out, p)

/-- `read(fd, buf+m, sizeof(buf)-m-1)`: at most `max 1 want` of the characters of the input, but no
more than requested. -/
def read (want m : ℕ) (input : List Char) : List Char := input.take (min (max 1 want) (1024 - m - 1))

/-- The outer loop: what it writes, and what of the input it leaves. Each turn reads a character. -/
def grepLoop (pattern : List Char) (want : ℕ → ℕ) :
    ℕ → List Char → List Char → List Char × List Char
  | 0, _, input => ([], input)
  | turns + 1, buf, input =>
    let piece := read (want turns) buf.length input
    if piece = [] then ([], input)
    else
      let (out, p) := lineLoop pattern (buf ++ piece).length (buf ++ piece)
      let (more, left) := grepLoop pattern want turns p (input.drop piece.length)
      (out ++ more, left)

def grep (pattern : List Char) (want : ℕ → ℕ) (input : List Char) : List Char × List Char :=
  grepLoop pattern want (input.length + 1) [] input

/-! ## Lines -/

variable {pattern p q line rest buf input : List Char}

/-- The complete lines that match, each with its newline. -/
def emit (pattern p : List Char) : List Char :=
  ((p.splitOn '\n').dropLast.filter (match_ pattern)).flatMap (· ++ ['\n'])

/-- What follows the last newline. -/
def tail (p : List Char) : List Char := (p.splitOn '\n').getLastD []

/-- Every line fits into the buffer, with its newline if it has one. -/
structure Fits (p : List Char) : Prop where
  lines : ∀ line ∈ (p.splitOn '\n').dropLast, line.length ≤ 1022
  tail : (tail p).length ≤ 1023

theorem splitOn_line (h : '\n' ∉ line) :
    (line ++ '\n' :: rest).splitOn '\n' = line :: rest.splitOn '\n' := by
  rw [List.splitOn_append_cons_self, List.splitOn_eq_singleton h]
  rfl

theorem emit_line (h : '\n' ∉ line) : emit pattern (line ++ '\n' :: rest) =
    (if match_ pattern line then line ++ ['\n'] else []) ++ emit pattern rest := by
  rw [emit, splitOn_line h, List.dropLast_cons_of_ne_nil (List.splitOn_ne_nil _ _), List.filter_cons]
  split <;> simp [emit]

theorem tail_line (h : '\n' ∉ line) : tail (line ++ '\n' :: rest) = tail rest := by
  rw [tail, splitOn_line h, tail]
  cases hrest : rest.splitOn '\n' with
  | nil => exact absurd hrest (List.splitOn_ne_nil _ _)
  | cons l ls => simp

theorem fits_line (h : '\n' ∉ line) :
    Fits (line ++ '\n' :: rest) ↔ line.length ≤ 1022 ∧ Fits rest := by
  have hlines : ((line ++ '\n' :: rest).splitOn '\n').dropLast =
      line :: (rest.splitOn '\n').dropLast := by
    rw [splitOn_line h, List.dropLast_cons_of_ne_nil (List.splitOn_ne_nil _ _)]
  constructor
  · rintro ⟨hall, htail⟩
    simp only [hlines, List.forall_mem_cons, tail_line h] at hall htail
    exact ⟨hall.1, hall.2, htail⟩
  · rintro ⟨hline, hall, htail⟩
    refine ⟨?_, by rwa [tail_line h]⟩
    simpa [hlines] using ⟨hline, hall⟩

section NoNewline

variable (h : '\n' ∉ p)
include h

theorem emit_of_notMem : emit pattern p = [] := by simp [emit, List.splitOn_eq_singleton h]

theorem tail_of_notMem : tail p = p := by simp [tail, List.splitOn_eq_singleton h]

theorem fits_of_notMem : Fits p ↔ p.length ≤ 1023 := by
  constructor
  · rintro ⟨-, htail⟩
    rwa [tail_of_notMem h] at htail
  · intro hp
    exact ⟨by simp [List.splitOn_eq_singleton h], by rwa [tail_of_notMem h]⟩

theorem strchr_of_notMem : strchr p = none := by
  induction p with
  | nil => rfl
  | cons c p ih =>
    simp only [List.mem_cons, not_or] at h
    rw [strchr, if_neg (Ne.symm h.1), ih h.2]
    split <;> rfl

end NoNewline

theorem strchr_line (h : '\n' ∉ line) (hnul : '\x00' ∉ line) :
    strchr (line ++ '\n' :: rest) = some (line, rest) := by
  induction line with
  | nil => rfl
  | cons c line ih =>
    simp only [List.mem_cons, not_or] at h hnul
    rw [List.cons_append, strchr, if_neg (Ne.symm h.1), if_neg (Ne.symm hnul.1), ih h.2 hnul.2]
    rfl

/-- A text is without newline, or a line and a text. -/
theorem line_induction {P : List Char → Prop} (single : ∀ p, '\n' ∉ p → P p)
    (line : ∀ l rest, '\n' ∉ l → P rest → P (l ++ '\n' :: rest)) (p : List Char) : P p := by
  induction hn : p.length using Nat.strong_induction_on generalizing p with
  | h n ih =>
    by_cases hp : '\n' ∈ p
    · obtain ⟨l, rest, rfl, hl⟩ := List.eq_append_cons_of_mem hp
      exact line l rest hl (ih rest.length (by simp at hn; omega) rest rfl)
    · exact single p hp

/-- What is behind the last newline is an end of the text. -/
theorem tail_spec (p : List Char) : '\n' ∉ tail p ∧ tail p <:+ p := by
  induction p using line_induction with
  | single p hp => exact ⟨by rwa [tail_of_notMem hp], by rw [tail_of_notMem hp]⟩
  | line l rest hl ih =>
    rw [tail_line hl]
    exact ⟨ih.1, ih.2.trans ((List.suffix_cons _ _).trans (List.suffix_append _ _))⟩

/-- **The inner loop** writes the complete lines that match, and stops behind the last newline. -/
theorem lineLoop_eq {turns : ℕ} (hnul : '\x00' ∉ p) (hturns : p.length ≤ turns) :
    lineLoop pattern turns p = (emit pattern p, tail p) := by
  induction p using line_induction generalizing turns with
  | single p hp =>
    rw [emit_of_notMem hp, tail_of_notMem hp]
    cases turns <;> simp [lineLoop, strchr_of_notMem hp]
  | line l rest hl ih =>
    simp only [List.mem_append, List.mem_cons, not_or, List.length_append, List.length_cons]
      at hnul hturns
    obtain ⟨turns, rfl⟩ : ∃ k, turns = k + 1 := ⟨turns - 1, by omega⟩
    rw [lineLoop, strchr_line hl hnul.1, emit_line hl, tail_line hl]
    simp only [ih hnul.2.2 (show rest.length ≤ turns by omega)]

/-- A part of the text that fits into the buffer can be taken first. -/
theorem append_tail (pattern : List Char) (hp : p.length ≤ 1023) (q : List Char) :
    emit pattern (p ++ q) = emit pattern p ++ emit pattern (tail p ++ q) ∧
    tail (p ++ q) = tail (tail p ++ q) ∧ (Fits (p ++ q) ↔ Fits (tail p ++ q)) := by
  induction p using line_induction with
  | single p hp' => simp [emit_of_notMem hp', tail_of_notMem hp']
  | line l rest hl ih =>
    simp only [List.length_append, List.length_cons] at hp
    obtain ⟨hemit, htail, hfits⟩ := ih (by omega)
    simp only [List.append_assoc, List.cons_append, emit_line hl, tail_line hl, fits_line hl,
      hemit, htail, hfits]
    exact ⟨trivial, trivial, by simp; omega⟩

/-- A full buffer without newline is the start of a line that does not fit. -/
theorem not_fits_of_full (h : '\n' ∉ buf) (hfull : 1023 ≤ buf.length) (hinput : input ≠ []) :
    ¬ Fits (buf ++ input) := by
  have hpos := List.length_pos_iff.mpr hinput
  by_cases hmem : '\n' ∈ input
  · obtain ⟨l, rest, rfl, hl⟩ := List.eq_append_cons_of_mem hmem
    rw [← List.append_assoc, fits_line (by simp [h, hl]), List.length_append]
    omega
  · rw [fits_of_notMem (by simp [h, hmem]), List.length_append]
    omega

/-- **The outer loop** goes to the end of the input if every line fits, and has written the complete
lines that match. -/
theorem grepLoop_spec (pattern : List Char) (want : ℕ → ℕ) {turns : ℕ} (hturns : input.length < turns)
    (hnew : '\n' ∉ buf) (hbuf : buf.length ≤ 1023) (hnul : '\x00' ∉ buf ++ input) :
    (Fits (buf ++ input) →
      grepLoop pattern want turns buf input = (emit pattern (buf ++ input), [])) ∧
    (¬ Fits (buf ++ input) → (grepLoop pattern want turns buf input).2 ≠ []) := by
  induction turns generalizing buf input with
  | zero => omega
  | succ turns ih =>
    rw [grepLoop]
    rcases eq_or_ne input [] with rfl | hinput
    · have hfits : Fits buf := (fits_of_notMem hnew).mpr hbuf
      simp [read, emit_of_notMem hnew, hfits]
    rcases Nat.lt_or_ge buf.length 1023 with hroom | hfull
    · have hne : read (want turns) buf.length input ≠ [] := by
        rw [read, Ne, List.take_eq_nil_iff, not_or]
        exact ⟨by omega, hinput⟩
      have hlen : (read (want turns) buf.length input).length ≤ 1023 - buf.length := by
        rw [read, List.length_take]
        omega
      obtain ⟨left, hleft⟩ : read (want turns) buf.length input <+: input := List.take_prefix ..
      simp only [if_neg hne]
      generalize read (want turns) buf.length input = piece at *
      subst hleft
      rw [← List.append_assoc] at hnul ⊢
      have hpos := List.length_pos_iff.mpr hne
      have hsize : (buf ++ piece).length ≤ 1023 := by
        rw [List.length_append]
        omega
      obtain ⟨hemit, -, hfits⟩ := append_tail pattern hsize left
      obtain ⟨htail, hsuffix⟩ := tail_spec (buf ++ piece)
      have hnul' : '\x00' ∉ tail (buf ++ piece) ++ left := fun hmem =>
        hnul ((List.mem_append.mp hmem).elim
          (fun h => List.mem_append_left _ (hsuffix.mem h)) (List.mem_append_right _))
      have hrest := ih (by simp at hturns; omega) htail (hsuffix.length_le.trans hsize) hnul'
      rw [lineLoop_eq (fun h => hnul (List.mem_append_left _ h)) le_rfl, List.drop_left]
      refine ⟨fun h => ?_, fun h => hrest.2 fun h' => h (hfits.mpr h')⟩
      simp only [hrest.1 (hfits.mp h), hemit]
    · have hread : read (want turns) buf.length input = [] := by
        rw [read, show 1024 - buf.length - 1 = 0 by omega, Nat.min_zero, List.take_zero]
      simp [hread, hinput, not_fits_of_full hnew hfull hinput]

/-- What `grep` is to write: the lines that match, each with its newline if it has one. -/
def wanted (pattern input : List Char) : List Char :=
  emit pattern input ++ if match_ pattern (tail input) then tail input else []

/-- **`grep` filters lines**, however the reads split its input, if and only if every line fits
into the buffer and the input does not end in a line without newline that matches. -/
theorem filters_iff (pattern : List Char) (want : ℕ → ℕ) (hnul : '\x00' ∉ input) :
    grep pattern want input = (wanted pattern input, []) ↔
      Fits input ∧ (tail input = [] ∨ match_ pattern (tail input) = false) := by
  obtain ⟨hfits, hnot⟩ := grepLoop_spec pattern want (Nat.lt_succ_self input.length)
    (List.not_mem_nil (a := '\n')) (by simp) hnul
  rw [List.nil_append] at hfits hnot
  by_cases h : Fits input
  · rw [grep, hfits h, wanted]
    by_cases hmatch : match_ pattern (tail input) = true <;> simp [h, hmatch]
  · simp only [h, false_and, iff_false]
    exact fun heq => hnot h (congrArg Prod.snd heq)

/-- Two lines, read one character at a time. -/
theorem filters_iff_twoLines : grep ['b'] (fun _ => 1) ['a', '\n', 'b', '\n'] = (['b', '\n'], []) :=
  (filters_iff ['b'] (fun _ => 1) (by decide)).mpr ⟨⟨by decide, by decide⟩, .inl (by decide)⟩

/-- A last line without newline is not written. -/
theorem grep_loses_last : grep ['a'] (fun _ => 1) ['a'] = ([], []) ∧
    wanted ['a'] ['a'] = ['a'] := by
  decide

end Xv6.Grep
