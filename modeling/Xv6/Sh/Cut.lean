import Xv6.Sh.Complete

/-!
# The strings of a command

`nulterminate` writes a NUL at the end of every string of the command. The end of a word is not a
character of any word, so no string is cut short, and each of them is the text of its word.
-/

namespace Xv6.Sh

open Lib

variable {line b : List Char} {c : Cmd} {t : Tree} {s q eq : ℕ} {w : List Char}

/-- The C string at an index of the buffer. -/
def cstring (b : List Char) (q : ℕ) : List Char := (b.drop q).takeWhile (· ≠ nul)

/-- The command as its strings in the buffer are read. -/
def Cmd.read (b : List Char) : Cmd → Tree
  | exec argv => .exec (argv.map fun arg => cstring b arg.1)
  | redir cmd file _ mode fd => .redir (cmd.read b) (cstring b file) mode fd
  | pipe left right => .pipe (left.read b) (right.read b)
  | list left right => .list (left.read b) (right.read b)
  | back cmd => .back (cmd.read b)

/-- Where the strings of the command end. -/
def Cmd.ends : Cmd → List ℕ
  | exec argv => argv.map Prod.snd
  | redir cmd _ efile _ _ => cmd.ends ++ [efile]
  | pipe left right => left.ends ++ right.ends
  | list left right => left.ends ++ right.ends
  | back cmd => cmd.ends

theorem char_set (b : List Char) (e i : ℕ) :
    char (b.set e nul) i = if i = e then nul else char b i := by
  simp only [char, List.getD_eq_getElem?_getD, List.getElem?_set]
  split_ifs <;> simp_all

theorem char_sets (es : List ℕ) (b : List Char) (i : ℕ) :
    char (es.foldl (fun b e => b.set e nul) b) i = if i ∈ es then nul else char b i := by
  induction es generalizing b with
  | nil => simp
  | cons e es ih =>
    rw [List.foldl_cons, ih, char_set]
    simp only [List.mem_cons]
    split_ifs <;> simp_all

theorem nulterminate_eq (c : Cmd) (b : List Char) :
    nulterminate c b = c.ends.foldl (fun b e => b.set e nul) b := by
  induction c generalizing b with
  | exec argv => simp [nulterminate, Cmd.ends, List.foldl_map]
  | redir cmd file efile mode fd ih => simp [nulterminate, Cmd.ends, ih]
  | pipe left right ihl ihr => simp [nulterminate, Cmd.ends, ihl, ihr]
  | list left right ihl ihr => simp [nulterminate, Cmd.ends, ihl, ihr]
  | back cmd ih => simp [nulterminate, Cmd.ends, ih]

theorem char_nulterminate (c : Cmd) (b : List Char) (i : ℕ) :
    char (nulterminate c b) i = if i ∈ c.ends then nul else char b i := by
  rw [nulterminate_eq, char_sets]

/-! ## Reading the strings -/

theorem cstring_eq (b : List Char) (q : ℕ) :
    cstring b q = if char b q = nul then [] else char b q :: cstring b (q + 1) := by
  by_cases hq : q < b.length
  · have hchar : char b q = b[q] := by simp [char, hq]
    rw [hchar, cstring, List.drop_eq_getElem_cons hq, List.takeWhile_cons, ← cstring]
    simp
  · have hlen : b.length ≤ q := by omega
    simp [cstring, char, List.drop_eq_nil_of_le hlen, hlen]

/-- An index at which a word ends: what comes there is no character of a word. -/
def IsEnd (line : List Char) (e : ℕ) : Prop :=
  ∃ rest, At line e rest ∧ ∀ c ∈ rest.head?, wordChar c = false

theorem IsWord.isEnd (h : IsWord line q eq w) : IsEnd line eq := by
  obtain ⟨rest, -, hat, hrest⟩ := h.split
  exact ⟨rest, hat, hrest⟩

/-- The buffer is the line, with a NUL at some ends of words. -/
structure Cut (line : List Char) (es : List ℕ) (b : List Char) : Prop where
  ends : ∀ e ∈ es, IsEnd line e
  char : ∀ i, char b i = if i ∈ es then nul else char (line ++ [nul]) i

/-- A word that has been cut at its end is read as its text. -/
theorem Cut.cstring {es : List ℕ} (h : Cut line es b) (hnul : nul ∉ line)
    (hw : IsWord line q eq w) (heq : eq ∈ es) : cstring b q = w := by
  obtain ⟨⟨rest, hq, hend, -⟩, hchars⟩ := hw
  induction w generalizing q with
  | nil =>
    have hqe : q = eq := by
      have := hq.length
      have := hend.length
      simp only [List.nil_append] at *
      omega
    rw [cstring_eq, hqe, h.char, if_pos heq, if_pos rfl]
  | cons d w ih =>
    have hd : wordChar d = true := hchars d List.mem_cons_self
    have hne : d ≠ nul := by
      rintro rfl
      have hmem : nul ∈ line.drop q := by simp [hq.rest]
      exact hnul (List.mem_of_mem_drop hmem)
    have hnot : q ∉ es := by
      intro hmem
      obtain ⟨rest', hat, hrest'⟩ := h.ends q hmem
      have hd' := hrest' d (by rw [← hat.rest, hq.rest]; rfl)
      rw [hd] at hd'
      cases hd'
    rw [cstring_eq, h.char, if_neg hnot, hq.char_cons, if_neg hne,
      ih (fun c hc => hchars c (List.mem_cons_of_mem d hc)) hq.next]

theorem Reads.isEnd (h : Reads line c t) : ∀ e ∈ c.ends, IsEnd line e := by
  induction h with
  | exec hargs =>
    induction hargs with
    | nil => simp [Cmd.ends]
    | cons hw _ ih =>
      intro e he
      rw [Cmd.ends, List.map_cons, List.mem_cons] at he
      obtain rfl | he := he
      · exact hw.isEnd
      · exact ih e he
  | redir hc hw ih =>
    intro e he
    rw [Cmd.ends, List.mem_append, List.mem_singleton] at he
    obtain he | rfl := he
    · exact ih e he
    · exact hw.isEnd
  | pipe hc hd ihc ihd =>
    intro e he
    exact (List.mem_append.mp he).elim (ihc e) (ihd e)
  | list hc hd ihc ihd =>
    intro e he
    exact (List.mem_append.mp he).elim (ihc e) (ihd e)
  | back hc ih => exact ih

/-- Every string of a command that has been cut is the text of its word. -/
theorem Reads.read {es : List ℕ} (h : Reads line c t) (hnul : nul ∉ line) (hb : Cut line es b)
    (hes : ∀ e ∈ c.ends, e ∈ es) : c.read b = t := by
  induction h with
  | exec hargs =>
    rw [Cmd.read, Tree.exec.injEq]
    induction hargs with
    | nil => rfl
    | cons hw _ ih =>
      rw [List.map_cons, hb.cstring hnul hw (hes _ (by simp [Cmd.ends])),
        ih fun e he => hes e (List.mem_cons_of_mem _ he)]
  | redir hc hw ih =>
    rw [Cmd.read, ih fun e he => hes e (List.mem_append_left _ he),
      hb.cstring hnul hw (hes _ (by simp [Cmd.ends]))]
  | pipe hc hd ihc ihd =>
    rw [Cmd.read, ihc fun e he => hes e (List.mem_append_left _ he),
      ihd fun e he => hes e (List.mem_append_right _ he)]
  | list hc hd ihc ihd =>
    rw [Cmd.read, ihc fun e he => hes e (List.mem_append_left _ he),
      ihd fun e he => hes e (List.mem_append_right _ he)]
  | back hc ih => rw [Cmd.read, ih hes]

/-! ## The whole parser -/

theorem strlen_line (hnul : nul ∉ line) : strlen (line ++ [nul]) = line.length := by
  have hall : ∀ c ∈ line, decide (c ≠ nul) = true := by
    intro c hc
    simpa using fun heq : c = nul => hnul (heq ▸ hc)
  rw [strlen, List.takeWhile_append_of_pos hall]
  simp

/-- `peek` reaches the end of the line exactly if no token is left. -/
theorem peek_eq_end_iff {us : List Token} (hnul : nul ∉ line) (h : Toks line s us) :
    (peek (line ++ [nul]) line.length s []).2 = line.length ↔ us = [] := by
  obtain ⟨cs, hat, hus⟩ := h
  have hq := hat.skip (strchr whitespace)
  have hlen := hq.length
  rw [← tokens_dropWhile] at hus
  change skip (strchr whitespace) (line ++ [nul]) line.length s = line.length ↔ us = []
  obtain hnil | ⟨d, cs', hcons, hwhite, -⟩ := dropWhile_white hnul hat
  · rw [hnil, tokens] at hus
    rw [hnil] at hq
    exact ⟨fun _ => hus.symm, fun _ => hq.eq_length⟩
  · rw [hcons, List.length_cons] at hlen
    refine ⟨fun h => by omega, ?_⟩
    rintro rfl
    rw [hcons, tokens, if_neg hwhite] at hus
    split_ifs at hus
    split at hus <;> cases hus

/-- The command that `parsecmd` returns reads as a tree of the line. -/
theorem parsecmd_sat (hnul : nul ∉ line) (f : ℕ) :
    (parsecmd f (line ++ [nul])).Sat (4 * (tokens line).length + 4 ≤ f) (· ∈ syntaxPanics)
      fun r => ∃ t, Derives .line (tokens line) t ∧ r.1.read r.2 = t := by
  rw [parsecmd, strlen_line hnul]
  dsimp only
  refine ((descends hnul f).1 0 _ ⟨line, .start line, rfl⟩).bind ?_
  rintro ⟨c, s⟩ ⟨xs, us, t, hts, hxs, hs, hc⟩
  dsimp only
  split
  · simp [Fuel.Sat, syntaxPanics]
  · next hend =>
      rw [ne_eq, not_not, peek_eq_end_iff hnul hs] at hend
      rw [hend, List.append_nil] at hts
      refine ⟨t, hts ▸ hxs, ?_⟩
      exact hc.read hnul ⟨hc.isEnd, char_nulterminate c _⟩ fun _ he => he

/-- The tree of a line that is a command is the one that `parsecmd` returns. -/
theorem parsecmd_eq_done (hnul : nul ∉ line) (h : Derives .line (tokens line) t) :
    ∃ c b N, (∀ f, N ≤ f → parsecmd f (line ++ [nul]) = .done (c, b)) ∧ c.read b = t := by
  have hs : Toks line 0 (tokens line ++ []) := ⟨line, .start line, by simp⟩
  obtain ⟨c, s, hs, hc, N, hN⟩ := gives_descend hnul h hs (by simp [Follows])
  refine ⟨c, nulterminate c (line ++ [nul]), N, fun f hf => ?_, ?_⟩
  · have hline : parseline _ _ f 0 = _ := hN f hf
    rw [parsecmd, strlen_line hnul, hline, Fuel.done_bind]
    dsimp only
    rw [if_neg (not_not.mpr ((peek_eq_end_iff hnul hs).mpr rfl))]
  · exact hc.read hnul ⟨hc.isEnd, char_nulterminate c _⟩ fun _ he => he

/-- For every line, with enough turns: `parsecmd` returns a command exactly if the grammar derives
the line, and otherwise ends in a syntax error; the command with its strings is the tree of the
derivation. -/
theorem parsecmd_correct (hnul : nul ∉ line) : ∃ N, ∀ f, N ≤ f →
    ((∃ c b, parsecmd f (line ++ [nul]) = .done (c, b)) ↔ ∃ t, Derives .line (tokens line) t) ∧
    ((¬ ∃ t, Derives .line (tokens line) t) →
      ∃ e ∈ syntaxPanics, parsecmd f (line ++ [nul]) = .fail e) ∧
    ∀ c b t, parsecmd f (line ++ [nul]) = .done (c, b) → Derives .line (tokens line) t →
      c.read b = t := by
  by_cases hline : ∃ t, Derives .line (tokens line) t
  · obtain ⟨t, ht⟩ := hline
    obtain ⟨c, b, N, hN, hread⟩ := parsecmd_eq_done hnul ht
    refine ⟨N, fun f hf => ⟨⟨fun _ => ⟨t, ht⟩, fun _ => ⟨c, b, hN f hf⟩⟩,
      fun hno => absurd ⟨t, ht⟩ hno, ?_⟩⟩
    intro c' b' t' hdone ht'
    -- any other derivation is found as well, with the same command
    obtain ⟨c'', b'', M, hM, hread'⟩ := parsecmd_eq_done hnul ht'
    have hsame := (hN (max N M) (by omega)).symm.trans (hM (max N M) (by omega))
    cases hsame
    cases (hN f hf).symm.trans hdone
    exact hread'
  · refine ⟨4 * (tokens line).length + 4, fun f hf => ?_⟩
    have hsat := parsecmd_sat hnul f
    cases hresult : parsecmd f (line ++ [nul]) with
    | done r =>
      rw [hresult] at hsat
      obtain ⟨t, ht, -⟩ := hsat
      exact absurd ⟨t, ht⟩ hline
    | fail e =>
      rw [hresult] at hsat
      refine ⟨⟨fun h => ?_, fun h => absurd h hline⟩, fun _ => ⟨e, hsat, rfl⟩,
        fun _ _ _ h => by cases h⟩
      obtain ⟨_, _, h⟩ := h
      cases h
    | spin =>
      rw [hresult] at hsat
      exact absurd hf hsat

/-- `(a; b&) | c >> d` -/
def sampleLine : List Char :=
  ['(', 'a', ';', ' ', 'b', '&', ')', ' ', '|', ' ', 'c', ' ', '>', '>', ' ', 'd']

theorem parsecmd_correct_sample : nul ∉ sampleLine ∧ ∃ N, ∀ f, N ≤ f →
    ((∃ c b, parsecmd f (sampleLine ++ [nul]) = .done (c, b)) ↔
      ∃ t, Derives .line (tokens sampleLine) t) := by
  have hnul : nul ∉ sampleLine := by decide
  obtain ⟨N, hN⟩ := parsecmd_correct hnul
  exact ⟨hnul, N, fun f hf => (hN f hf).1⟩

end Xv6.Sh
