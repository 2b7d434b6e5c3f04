import Xv6.Sh.Grammar

/-!
# Reading tokens

`gettoken` and `peek` walk the tokens of the line: at an index from which the rest of the line has
the tokens `ts`, `peek` looks at the first of them and `gettoken` takes it.
-/

namespace Xv6.Sh

variable {line cs : List Char} {s : ℕ} {c : Char} {p : Char → Bool}

/-- From the index on, the rest of the line is `cs`. -/
structure At (line : List Char) (s : ℕ) (cs : List Char) : Prop where
  le : s ≤ line.length
  rest : line.drop s = cs

namespace At

theorem start (line : List Char) : At line 0 line := ⟨Nat.zero_le _, rfl⟩

theorem length (h : At line s cs) : s + cs.length = line.length := by
  have := h.le
  rw [← h.rest, List.length_drop]
  omega

theorem eq_length (h : At line s []) : s = line.length := h.length

theorem char_nil (h : At line s []) : char (line ++ [nul]) s = nul := by
  simp [char, h.eq_length]

theorem char_cons (h : At line s (c :: cs)) : char (line ++ [nul]) s = c := by
  have hhead : (line.drop s).head? = some c := by rw [h.rest, List.head?_cons]
  rw [List.head?_drop] at hhead
  have hlt : s < line.length := (List.getElem?_eq_some_iff.mp hhead).1
  simp [char, List.getD_eq_getElem?_getD, List.getElem?_append_left hlt, hhead]

theorem next (h : At line s (c :: cs)) : At line (s + 1) cs := by
  have hlen := h.length
  rw [List.length_cons] at hlen
  exact ⟨by omega, by rw [← List.drop_drop, h.rest]; rfl⟩

/-- The bounded loop, with a bound that reaches the end of the line. -/
theorem scan {n : ℕ} (h : At line s cs) (hn : n = cs.length) :
    Sh.scan p (line ++ [nul]) n s = s + (cs.takeWhile p).length ∧
      At line (Sh.scan p (line ++ [nul]) n s) (cs.dropWhile p) := by
  induction cs generalizing s n with
  | nil =>
    subst hn
    exact ⟨rfl, h⟩
  | cons c cs ih =>
    subst hn
    rw [List.length_cons, Sh.scan, h.char_cons, List.takeWhile_cons, List.dropWhile_cons]
    split
    · obtain ⟨hs, hat⟩ := ih h.next rfl
      exact ⟨by rw [hs, List.length_cons]; omega, hat⟩
    · exact ⟨rfl, h⟩

theorem skip (h : At line s cs) (p : Char → Bool) :
    At line (Sh.skip p (line ++ [nul]) line.length s) (cs.dropWhile p) :=
  (h.scan (by have := h.length; omega)).2

end At

/-! ## The tokens at an index -/

/-- The index is where the word `w` starts, and `eq` is where it ends. -/
structure IsWord (line : List Char) (q eq : ℕ) (w : List Char) : Prop where
  split : ∃ rest, At line q (w ++ rest) ∧ At line eq rest ∧ ∀ c ∈ rest.head?, wordChar c = false
  chars : ∀ c ∈ w, wordChar c = true

/-- From the index on, the tokens of the line are `ts`. -/
def Toks (line : List Char) (s : ℕ) (ts : List Token) : Prop :=
  ∃ cs, At line s cs ∧ tokens cs = ts

/-- The character `gettoken` returns for a token. -/
def Token.code : Token → Char
  | .word _ => 'a'
  | .redir .read => '<'
  | .redir .write => '>'
  | .redir .append => '+'
  | .bar => '|'
  | .amp => '&'
  | .semi => ';'
  | .lpar => '('
  | .rpar => ')'

/-- The first character of a token that is not a word. -/
def Token.symbol? : Token → Option Char
  | .word _ => none
  | .redir .append => some '>'
  | t => some t.code

/-- The first token starts with one of the symbols. -/
def starts (toks : List Char) (ts : List Token) : Bool :=
  ts.head?.any fun t => t.symbol?.any (strchr toks)

theorem tokens_dropWhile (cs : List Char) :
    tokens (cs.dropWhile (strchr whitespace)) = tokens cs := by
  induction cs with
  | nil => rfl
  | cons c cs ih =>
    rw [List.dropWhile_cons]
    split
    · next hc =>
        rw [ih, tokens, if_pos (by simpa [strchr] using hc)]
    · rfl

/-- The next token is `t`, and after it come `ts`. -/
structure Next (line : List Char) (tok : Tok) (t : Token) (ts : List Token) : Prop where
  ret : tok.ret = t.code
  toks : Toks line tok.ps ts
  word : ∀ w, t = .word w → IsWord line tok.q tok.eq w

/-- A token that is not a word ends at `eq`, where the rest of the line is `cs`. -/
theorem next_symbol {t : Token} {q eq : ℕ} (h : At line eq cs) (hw : ∀ w, t ≠ .word w) :
    Next line ⟨t.code, q, eq, skip (strchr whitespace) (line ++ [nul]) line.length eq⟩ t
      (tokens cs) where
  ret := rfl
  toks := ⟨_, h.skip _, tokens_dropWhile cs⟩
  word w ht := absurd ht (hw w)

theorem single_some {t : Token} (h : single c = some t) :
    t.code = c ∧ strchr ['|', '(', ')', ';', '&', '<'] c = true ∧ ∀ w, t ≠ .word w := by
  unfold single at h
  split at h <;> cases h <;> exact ⟨rfl, rfl, fun _ h => by cases h⟩

theorem single_none (h : single c = none) : strchr ['|', '(', ')', ';', '&', '<'] c = false := by
  unfold single at h
  split at h
  case h_7 =>
    simp only [strchr, List.contains_cons, List.contains_nil, Bool.or_eq_false_iff,
      beq_eq_false_iff_ne]
    tauto
  all_goals cases h

/-- Every other character starts a word. -/
theorem wordChar_of_single_none (hwhite : c ∉ whitespace) (hgt : c ≠ '>') (h : single c = none) :
    wordChar c = true := by
  have hsymbol := single_none h
  simp only [strchr, List.contains_cons, List.contains_nil, Bool.or_eq_false_iff,
    beq_eq_false_iff_ne] at hsymbol
  simp [wordChar, strchr, symbols, hwhite, hgt, hsymbol]

/-- After the white space, the line ends or goes on with another character. -/
theorem dropWhile_white (hnul : nul ∉ line) (h : At line s cs) :
    cs.dropWhile (strchr whitespace) = [] ∨
      ∃ c cs', cs.dropWhile (strchr whitespace) = c :: cs' ∧ c ∉ whitespace ∧ c ≠ nul := by
  cases hcs : cs.dropWhile (strchr whitespace) with
  | nil => exact .inl rfl
  | cons c cs' =>
    refine .inr ⟨c, cs', rfl, ?_, ?_⟩
    · have hhead := List.head?_dropWhile_not (strchr whitespace) cs
      simpa [hcs, strchr] using hhead
    · rintro rfl
      have hmem : nul ∈ cs := (List.dropWhile_sublist _).mem (hcs ▸ List.mem_cons_self)
      exact hnul (List.mem_of_mem_drop (h.rest ▸ hmem))

theorem gettoken_end (hnul : nul ∉ line) (h : Toks line s []) :
    (gettoken (line ++ [nul]) line.length s).ret = nul ∧
      Toks line (gettoken (line ++ [nul]) line.length s).ps [] := by
  obtain ⟨cs, hat, hts⟩ := h
  rw [← tokens_dropWhile] at hts
  have hq := hat.skip (strchr whitespace)
  obtain hnil | ⟨c, cs', hcons, hwhite, -⟩ := dropWhile_white hnul hat
  · rw [hnil] at hq
    have htok : tokenAt (line ++ [nul]) line.length
        (skip (strchr whitespace) (line ++ [nul]) line.length s) =
          (nul, skip (strchr whitespace) (line ++ [nul]) line.length s) := by
      rw [tokenAt, hq.char_nil]
      rfl
    rw [gettoken, htok]
    exact ⟨rfl, _, hq.skip _, by simp [tokens]⟩
  · rw [hcons, tokens, if_neg hwhite] at hts
    split_ifs at hts
    split at hts <;> cases hts

theorem next_gettoken {t : Token} {ts : List Token} (hnul : nul ∉ line)
    (h : Toks line s (t :: ts)) : Next line (gettoken (line ++ [nul]) line.length s) t ts := by
  obtain ⟨cs, hat, hts⟩ := h
  rw [← tokens_dropWhile] at hts
  have hq := hat.skip (strchr whitespace)
  obtain hnil | ⟨c, cs', hcons, hwhite, hc⟩ := dropWhile_white hnul hat
  · rw [hnil, tokens] at hts
    cases hts
  rw [hcons] at hq
  rw [hcons, tokens, if_neg hwhite] at hts
  simp only [gettoken, tokenAt, hq.char_cons, if_neg hc]
  generalize skip (strchr whitespace) (line ++ [nul]) line.length s = q at *
  split_ifs at hts with hgt happend
  · -- `>>`
    obtain ⟨cs'', rfl⟩ : ∃ cs'', cs' = '>' :: cs'' := by
      cases cs' with
      | nil => simp at happend
      | cons d cs'' =>
        cases happend
        exact ⟨cs'', rfl⟩
    subst c
    cases hts
    rw [if_neg (by decide), if_pos rfl, if_pos hq.next.char_cons]
    exact next_symbol (t := .redir .append) hq.next.next (by simp)
  · subst c
    cases hts
    have hnext : char (line ++ [nul]) (q + 1) ≠ '>' := by
      cases cs' with
      | nil => rw [hq.next.char_nil]; decide
      | cons d cs'' => rw [hq.next.char_cons]; simpa using happend
    rw [if_neg (by decide), if_pos rfl, if_neg hnext]
    exact next_symbol (t := .redir .write) hq.next (by simp)
  · split at hts
    · next hsingle =>
        obtain ⟨hcode, hsymbol, hword⟩ := single_some hsingle
        cases hts
        rw [if_pos hsymbol, ← hcode]
        exact next_symbol hq.next hword
    · next hsingle =>
        have hword := wordChar_of_single_none hwhite hgt hsingle
        have hend := hq.skip wordChar
        rw [List.dropWhile_cons, if_pos hword] at hend
        cases hts
        rw [if_neg (by simp [single_none hsingle]), if_neg hgt]
        refine ⟨rfl, ⟨_, hend.skip _, tokens_dropWhile _⟩, ?_⟩
        rintro w ⟨⟩
        refine ⟨⟨_, ?_, hend, ?_⟩, ?_⟩
        · rwa [List.cons_append, List.takeWhile_append_dropWhile]
        · intro d hd
          have hhead := List.head?_dropWhile_not wordChar cs'
          rw [Option.mem_def.mp hd] at hhead
          simpa using hhead
        · rintro d (_ | ⟨_, hd⟩)
          · exact hword
          · exact List.all_eq_true.mp List.all_takeWhile d hd

/-- The first character of the first token decides what `peek` answers. -/
theorem peek_spec {ts : List Token} (hnul : nul ∉ line) (h : Toks line s ts)
    (toks : List Char) (htoks : toks.all (strchr symbols) = true) :
    (peek (line ++ [nul]) line.length s toks).1 = starts toks ts ∧
      Toks line (peek (line ++ [nul]) line.length s toks).2 ts := by
  obtain ⟨cs, hat, hts⟩ := h
  have hq := hat.skip (strchr whitespace)
  refine ⟨?_, _, hq, by rw [tokens_dropWhile, hts]⟩
  rw [← tokens_dropWhile] at hts
  unfold peek
  generalize skip (strchr whitespace) (line ++ [nul]) line.length s = q at *
  dsimp only
  obtain hnil | ⟨c, cs', hcons, hwhite, hc⟩ := dropWhile_white hnul hat
  · rw [hnil, tokens] at hts
    rw [hnil] at hq
    subst hts
    simp [hq.char_nil, starts]
  rw [hcons] at hq
  rw [hcons, tokens, if_neg hwhite] at hts
  rw [hq.char_cons]
  have hne : decide (c ≠ nul) = true := by simpa using hc
  rw [hne, Bool.true_and]
  split_ifs at hts with hgt happend
  · subst c hts
    rfl
  · subst c hts
    rfl
  · split at hts
    · next hsingle =>
        unfold single at hsingle
        subst hts
        split at hsingle <;> cases hsingle <;> rfl
    · next hsingle =>
        have hword := wordChar_of_single_none hwhite hgt hsingle
        have hnot : c ∉ toks := fun hmem => by
          simp [wordChar, List.all_eq_true.mp htoks c hmem] at hword
        subst hts
        simpa [strchr, starts, Token.symbol?] using hnot

end Xv6.Sh
