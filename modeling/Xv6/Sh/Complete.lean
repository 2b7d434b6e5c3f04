import Xv6.Sh.Descent

/-!
# Every derivation is found

A derivation of a nonterminal, followed by a token that the nonterminal cannot go on with, is the
one that the recursive descent returns: the first token decides at every turn.
-/

namespace Xv6.Sh

open Lib

/-- With enough turns the function returns a command that reads as `t`, at the tokens `us`. -/
def Gives (line : List Char) (us : List Token) (t : Tree) (parse : ℕ → Fuel String (Cmd × ℕ)) :
    Prop :=
  ∃ c s, Toks line s us ∧ Reads line c t ∧ ∃ N, ∀ f, N ≤ f → parse f = .done (c, s)

variable {line : List Char} {us : List Token} {t : Tree} {c : Cmd} {s : ℕ}

namespace Gives

variable {parse parse' : ℕ → Fuel String (Cmd × ℕ)}

theorem done (hs : Toks line s us) (hc : Reads line c t) (h : ∀ f, parse (f + 1) = .done (c, s)) :
    Gives line us t parse := by
  refine ⟨c, s, hs, hc, 1, fun f hf => ?_⟩
  obtain ⟨g, rfl⟩ : ∃ g, f = g + 1 := ⟨f - 1, by omega⟩
  exact h g

theorem succ_of_le (hs : Toks line s us) (hc : Reads line c t) (N : ℕ)
    (h : ∀ f, N ≤ f → parse (f + 1) = .done (c, s)) : Gives line us t parse := by
  refine ⟨c, s, hs, hc, N + 1, fun f hf => ?_⟩
  obtain ⟨g, rfl⟩ : ∃ g, f = g + 1 := ⟨f - 1, by omega⟩
  exact h g (by omega)

/-- A function that hands on to another after one turn. -/
theorem succ (h : Gives line us t parse') (hstep : ∀ f, parse (f + 1) = parse' f) :
    Gives line us t parse := by
  obtain ⟨c, s, hs, hc, N, hN⟩ := h
  refine ⟨c, s, hs, hc, N + 1, fun f hf => ?_⟩
  obtain ⟨g, rfl⟩ : ∃ g, f = g + 1 := ⟨f - 1, by omega⟩
  rw [hstep, hN g (by omega)]

/-- A function that goes on with the result of another. -/
theorem bind {vs : List Token} {u : Tree} {next : ℕ → Cmd × ℕ → Fuel String (Cmd × ℕ)}
    (h : Gives line us t parse)
    (hnext : ∀ c s, Toks line s us → Reads line c t → Gives line vs u fun f => next f (c, s)) :
    Gives line vs u fun f => parse f >>= next f := by
  obtain ⟨c, s, hs, hc, N, hN⟩ := h
  obtain ⟨d, s', hs', hd, M, hM⟩ := hnext c s hs hc
  refine ⟨d, s', hs', hd, max N M, fun f hf => ?_⟩
  dsimp only
  rw [hN f (by omega), Fuel.done_bind]
  exact hM f (by omega)

end Gives

/-- `peek` as an equation. -/
theorem exists_peek (hnul : nul ∉ line) (hs : Toks line s us) (toks : List Char)
    (htoks : toks.all (strchr symbols) = true) :
    ∃ ps, peek (line ++ [nul]) line.length s toks = (starts toks us, ps) ∧ Toks line ps us := by
  obtain ⟨hpeek, hps⟩ := peek_spec hnul hs toks htoks
  exact ⟨_, Prod.ext hpeek rfl, hps⟩

theorem gives_parseredirs (hnul : nul ∉ line) (rs : List Redir)
    (hs : Toks line s (rs.flatMap Redir.tokens ++ us)) (hus : starts ['<', '>'] us = false)
    (hc : Reads line c t) :
    Gives line us (rs.foldl Tree.wrap t) fun f =>
      parseredirs (line ++ [nul]) line.length f c s := by
  induction rs generalizing s c t with
  | nil =>
    obtain ⟨ps, hpeek, hps⟩ := exists_peek hnul hs ['<', '>'] rfl
    refine .done hps hc fun f => ?_
    rw [parseredirs, hpeek, List.flatMap_nil, List.nil_append, hus]
    rfl
  | cons r rs ih =>
    obtain ⟨ps, hpeek, hps⟩ := exists_peek hnul hs ['<', '>'] rfl
    have hmore : starts ['<', '>'] ((r :: rs).flatMap Redir.tokens ++ us) = true :=
      starts_redir.mpr ⟨r.op, _, rfl⟩
    have hop := next_gettoken hnul hps
    have hw := next_gettoken hnul hop.toks
    refine (ih hw.toks (hc.wrap r.op (hw.word r.file rfl))).succ fun f => ?_
    rw [parseredirs, hpeek, hmore]
    simp only [if_true, hw.ret, hop.ret, Token.code, ne_eq, not_true, if_false]

theorem gives_parsebacks (hnul : nul ∉ line) (k : ℕ)
    (hs : Toks line s (List.replicate k .amp ++ us)) (hus : starts ['&'] us = false)
    (hc : Reads line c t) :
    Gives line us (Tree.back^[k] t) fun f => parsebacks (line ++ [nul]) line.length f c s := by
  induction k generalizing s c t with
  | zero =>
    obtain ⟨ps, hpeek, hps⟩ := exists_peek hnul hs ['&'] rfl
    refine .done hps hc fun f => ?_
    rw [parsebacks, hpeek, List.replicate_zero, List.nil_append, hus]
    rfl
  | succ k ih =>
    obtain ⟨ps, hpeek, hps⟩ := exists_peek hnul hs ['&'] rfl
    refine (ih (next_gettoken hnul hps).toks (.back hc)).succ fun f => ?_
    rw [parsebacks, hpeek]
    rfl

/-- The tokens that can follow a nonterminal. -/
def follow : Nonterminal → List Token
  | .line => [.rpar]
  | .pipe => [.rpar, .amp, .semi]
  | .exec => [.rpar, .amp, .semi, .bar]

/-- The line ends, or goes on with a token that can follow the nonterminal. -/
def Follows (n : Nonterminal) (us : List Token) : Prop := ∀ x ∈ us.head?, x ∈ follow n

theorem Follows.mono {n m : Nonterminal} (h : Follows n us) (hnm : ∀ x ∈ follow n, x ∈ follow m) :
    Follows m us := fun x hx => hnm x (h x hx)

/-- None of the symbols in `toks` starts a token that can follow. -/
theorem Follows.starts_eq_false {n : Nonterminal} (h : Follows n us) {toks : List Char}
    (htoks : ∀ x ∈ follow n, x.symbol?.any (strchr toks) = false) : starts toks us = false := by
  cases us with
  | nil => rfl
  | cons x us => exact htoks x (h x rfl)

/-! ## Simple commands -/

/-- The items of a command start with redirections, after which comes a word or nothing. -/
theorem exists_split (items : List Item) : ∃ (rs : List Redir) (rest : List Item),
    items = rs.map Item.redir ++ rest ∧
    (rest = [] ∨ ∃ w rest', rest = .word w :: rest') := by
  induction items with
  | nil => exact ⟨[], [], rfl, .inl rfl⟩
  | cons i items ih =>
    cases i with
    | word w => exact ⟨[], _, rfl, .inr ⟨w, items, rfl⟩⟩
    | redir r =>
      obtain ⟨rs, rest, rfl, hrest⟩ := ih
      exact ⟨r :: rs, rest, rfl, hrest⟩

/-- The redirections before a word, and the rest of the command. -/
def parseitems (b : List Char) (es f : ℕ) (c : Cmd) (argc s : ℕ) : Fuel String (Cmd × ℕ) :=
  parseredirs b es f c s >>= fun r => parseargs b es f r.1 argc r.2

/-- The loop ends where the simple command does. -/
theorem gives_parseargs_end (hnul : nul ∉ line) (hs : Toks line s us) (hus : Follows .exec us)
    (hc : Reads line c t) (argc : ℕ) :
    Gives line us t fun f => parseargs (line ++ [nul]) line.length f c argc s := by
  obtain ⟨ps, hpeek, hps⟩ := exists_peek hnul hs ['|', ')', '&', ';'] rfl
  cases us with
  | nil =>
    obtain ⟨hret, hend⟩ := gettoken_end hnul hps
    refine .done hend hc fun f => ?_
    rw [parseargs, hpeek]
    simp [starts, hret]
  | cons x us =>
    have hstop : starts ['|', ')', '&', ';'] (x :: us) = true := by
      have hx := hus x rfl
      simp only [follow, List.mem_cons, List.not_mem_nil, or_false] at hx
      rcases hx with rfl | rfl | rfl | rfl <;> rfl
    refine .done hps hc fun f => ?_
    rw [parseargs, hpeek, hstop]
    rfl

theorem gives_parseitems (hnul : nul ∉ line) (hus : Follows .exec us) (n : ℕ)
    (items : List Item) (hn : items.length = n) (argc : ℕ)
    (hargc : argc + (items.filterMap Item.word?).length < MAXARGS)
    (hs : Toks line s (items.flatMap Item.tokens ++ us)) (hc : Reads line c t) :
    Gives line us (items.foldl Tree.add t) fun f =>
      parseitems (line ++ [nul]) line.length f c argc s := by
  induction n using Nat.strongRecOn generalizing items argc s c t with
  | _ n ih =>
    obtain ⟨rs, rest, rfl, hrest⟩ := exists_split items
    rw [List.flatMap_append, flatMap_map_redir, List.append_assoc] at hs
    rw [List.foldl_append, foldl_add_map_redir]
    obtain rfl | ⟨w, rest, rfl⟩ := hrest
    · refine (gives_parseredirs hnul rs hs (hus.starts_eq_false (by decide)) hc).bind ?_
      intro c' s' hs' hc'
      exact gives_parseargs_end hnul hs' hus hc' argc
    · refine (gives_parseredirs hnul rs hs rfl hc).bind ?_
      intro c' s' hs' hc'
      obtain ⟨ps, hpeek, hps⟩ := exists_peek hnul hs' ['|', ')', '&', ';'] rfl
      have hw := next_gettoken hnul hps
      simp only [List.filterMap_append, words_map_redir, List.nil_append,
        List.filterMap_cons, Item.word?, List.length_cons] at hargc
      have hlt : rest.length < n := by
        simp only [← hn, List.length_append, List.length_cons]
        omega
      have hnext := ih rest.length hlt rest rfl (argc + 1) (by omega) hw.toks
        (hc'.addArg (hw.word w rfl))
      refine hnext.succ fun f => ?_
      have hstop : starts ['|', ')', '&', ';']
          ((Item.word w :: rest).flatMap Item.tokens ++ us) = false := rfl
      have hmax : ¬ argc + 1 ≥ MAXARGS := by omega
      rw [parseargs, hpeek, hstop]
      dsimp only
      rw [hw.ret]
      simp only [Token.code, Bool.false_eq_true, if_false, ne_eq, not_true, hmax]
      rfl

/-- The function for a nonterminal. -/
def descend : Nonterminal → List Char → ℕ → ℕ → ℕ → Fuel String (Cmd × ℕ)
  | .line => parseline
  | .pipe => parsepipe
  | .exec => parseexec

theorem follows_replicate {k : ℕ} (h : Follows .pipe us) :
    Follows .pipe (List.replicate k .amp ++ us) := by
  cases k with
  | zero => exact h
  | succ k =>
    rintro x ⟨⟩
    decide

/-- The derivation is found at every index where its tokens are, if what follows them can. -/
theorem gives_descend (hnul : nul ∉ line) {n : Nonterminal} {xs : List Token}
    (h : Derives n xs t) (hs : Toks line s (xs ++ us)) (hus : Follows n us) :
    Gives line us t fun f => descend n (line ++ [nul]) line.length f s := by
  induction h generalizing s us with
  | @line ts t k _ ih =>
    rw [List.append_assoc] at hs
    obtain ⟨c, s₁, hs₁, hc, N, hN⟩ := ih hs (follows_replicate (hus.mono (by decide)))
    obtain ⟨c', s₂, hs₂, hc', M, hM⟩ :=
      gives_parsebacks hnul k hs₁ (hus.starts_eq_false (by decide)) hc
    obtain ⟨ps, hpeek, hps⟩ := exists_peek hnul hs₂ [';'] rfl
    rw [hus.starts_eq_false (by decide)] at hpeek
    refine .succ_of_le hps hc' (max N M) fun f hf => ?_
    have hN' : parsepipe _ _ f s = _ := hN f (by omega)
    simp only [descend, parseline, hN', hM f (by omega), Fuel.done_bind, hpeek]
    rfl
  | @seq ts vs t u k _ _ ihpipe ihline =>
    rw [List.append_assoc, List.append_assoc] at hs
    obtain ⟨c, s₁, hs₁, hc, N, hN⟩ := ihpipe hs (follows_replicate (by rintro x ⟨⟩; decide))
    obtain ⟨c', s₂, hs₂, hc', M, hM⟩ := gives_parsebacks hnul k hs₁ rfl hc
    obtain ⟨ps, hpeek, hps⟩ := exists_peek hnul hs₂ [';'] rfl
    obtain ⟨d, s₃, hs₃, hd, L, hL⟩ := ihline (next_gettoken hnul hps).toks hus
    refine .succ_of_le hs₃ (.list hc' hd) (max N (max M L)) fun f hf => ?_
    have hN' : parsepipe _ _ f s = _ := hN f (by omega)
    have hL' : parseline _ _ f _ = _ := hL f (by omega)
    have hmore : starts [';'] (.semi :: vs ++ us) = true := rfl
    simp only [descend, parseline, hN', hM f (by omega), Fuel.done_bind, hpeek, hmore, if_true,
      hL']
  | @pipe ts t _ ih =>
    obtain ⟨c, s₁, hs₁, hc, N, hN⟩ := ih hs (hus.mono (by decide))
    obtain ⟨ps, hpeek, hps⟩ := exists_peek hnul hs₁ ['|'] rfl
    rw [hus.starts_eq_false (by decide)] at hpeek
    refine .succ_of_le hps hc N fun f hf => ?_
    have hN' : parseexec _ _ f s = _ := hN f hf
    simp only [descend, parsepipe, hN', Fuel.done_bind, hpeek]
    rfl
  | @bar ts vs t u _ _ ihexec ihpipe =>
    rw [List.append_assoc] at hs
    obtain ⟨c, s₁, hs₁, hc, N, hN⟩ := ihexec hs (by rintro x ⟨⟩; decide)
    obtain ⟨ps, hpeek, hps⟩ := exists_peek hnul hs₁ ['|'] rfl
    obtain ⟨d, s₂, hs₂, hd, M, hM⟩ := ihpipe (next_gettoken hnul hps).toks hus
    refine .succ_of_le hs₂ (.pipe hc hd) (max N M) fun f hf => ?_
    have hN' : parseexec _ _ f s = _ := hN f (by omega)
    have hM' : parsepipe _ _ f _ = _ := hM f (by omega)
    have hmore : starts ['|'] (.bar :: vs ++ us) = true := rfl
    simp only [descend, parsepipe, hN', Fuel.done_bind, hpeek, hmore, if_true, hM']
  | @block ts t rs _ ih =>
    rw [List.cons_append, List.cons_append, List.append_assoc, List.cons_append] at hs
    obtain ⟨ps, hpeek, hps⟩ := exists_peek hnul hs ['('] rfl
    -- `parseblock` looks at the parenthesis once more
    obtain ⟨ps', hpeek', hps'⟩ := exists_peek hnul hps ['('] rfl
    obtain ⟨c, s₁, hs₁, hc, N, hN⟩ :=
      ih (next_gettoken hnul hps').toks (by rintro x ⟨⟩; decide)
    obtain ⟨ps₁, hpeek₁, hps₁⟩ := exists_peek hnul hs₁ [')'] rfl
    obtain ⟨c', s₂, hs₂, hc', M, hM⟩ := gives_parseredirs hnul rs
      (next_gettoken hnul hps₁).toks (hus.starts_eq_false (by decide)) hc
    refine .succ_of_le hs₂ hc' (max N M + 1) fun f hf => ?_
    obtain ⟨g, rfl⟩ : ∃ g, f = g + 1 := ⟨f - 1, by omega⟩
    have hN' : parseline _ _ g _ = _ := hN g (by omega)
    have hopen (xs : List Token) : starts ['('] (.lpar :: xs) = true := rfl
    have hclosed (xs : List Token) : starts [')'] (.rpar :: xs) = true := rfl
    simp only [descend, parseexec, parseblock, hpeek, hopen, if_true, hpeek', Bool.not_true,
      Bool.false_eq_true, if_false, hN', Fuel.done_bind, hpeek₁, hclosed]
    exact hM g (by omega)
  | simple items hargs =>
    obtain ⟨ps, hpeek, hps⟩ := exists_peek hnul hs ['('] rfl
    have hblock : starts ['('] (items.flatMap Item.tokens ++ us) = false := by
      rcases items with _ | ⟨w | r, items⟩
      · exact hus.starts_eq_false (by decide)
      · rfl
      · rcases r with ⟨_ | _ | _, file⟩ <;> rfl
    rw [hblock] at hpeek
    rw [← foldl_add]
    refine (gives_parseitems hnul hus _ items rfl 0 ?_ hps (.exec .nil)).succ ?_
    · simp only [MAXARGS] at hargs ⊢
      omega
    · intro f
      simp only [descend, parseexec, hpeek, Bool.false_eq_true, if_false]
      rfl

end Xv6.Sh
