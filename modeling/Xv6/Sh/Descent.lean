import Xv6.Sh.Lex
import Mathlib.Data.List.Forall2
import Mathlib.Data.List.Induction

/-!
# The recursive descent follows the grammar

Each parsing function takes a derivation of its nonterminal off the tokens at its index, or fails
with a message of the parser, and the turns it needs are bounded by the number of tokens. The
other way round, a derivation that is followed by a token the nonterminal cannot go on with is
what the function finds.
-/

namespace Xv6.Sh

open Lib

/-- The messages of `panic` for a line that is not a command. -/
def syntaxPanics : List String :=
  ["missing file for redirection", "syntax", "too many args", "syntax - missing )"]

/-- Store an argument in the simple command under the redirections. -/
def Tree.addArg (w : List Char) : Tree → Tree
  | exec argv => exec (argv ++ [w])
  | redir cmd file mode fd => redir (cmd.addArg w) file mode fd
  | t => t

/-- The words that the ends of the strings mark in the line are those of the tree. -/
inductive Reads (line : List Char) : Cmd → Tree → Prop
  | exec {argv : List (ℕ × ℕ)} {ws : List (List Char)}
      (h : List.Forall₂ (fun a w => IsWord line a.1 a.2 w) argv ws) :
      Reads line (.exec argv) (.exec ws)
  | redir {c : Cmd} {t : Tree} {q eq mode fd : ℕ} {w : List Char} (hc : Reads line c t)
      (hw : IsWord line q eq w) : Reads line (.redir c q eq mode fd) (.redir t w mode fd)
  | pipe {c d : Cmd} {t u : Tree} (hc : Reads line c t) (hd : Reads line d u) :
      Reads line (.pipe c d) (.pipe t u)
  | list {c d : Cmd} {t u : Tree} (hc : Reads line c t) (hd : Reads line d u) :
      Reads line (.list c d) (.list t u)
  | back {c : Cmd} {t : Tree} (hc : Reads line c t) : Reads line (.back c) (.back t)

section
variable {line : List Char} {c : Cmd} {t : Tree} {q eq : ℕ} {w : List Char}

theorem Reads.addArg (h : Reads line c t) (hw : IsWord line q eq w) :
    Reads line (c.addArg q eq) (t.addArg w) := by
  induction h with
  | exec hargs => exact .exec (List.rel_append hargs (.cons hw .nil))
  | redir hc hfile ih => exact .redir ih hfile
  | pipe hc hd => exact .pipe hc hd
  | list hc hd => exact .list hc hd
  | back hc => exact .back hc

theorem redircmd_code (op : RedirOp) (c : Cmd) (q eq : ℕ) :
    redircmd (Token.redir op).code c q eq = .redir c q eq op.mode.1 op.mode.2 := by
  cases op <;> rfl

theorem Reads.wrap (h : Reads line c t) (op : RedirOp) (hw : IsWord line q eq w) :
    Reads line (redircmd (Token.redir op).code c q eq) (t.wrap ⟨op, w⟩) := by
  rw [redircmd_code]
  exact .redir h hw

end

/-! ## The items of a simple command -/

/-- The tree after one more item. -/
def Tree.add (t : Tree) : Item → Tree
  | .word w => t.addArg w
  | .redir r => t.wrap r

theorem addArg_wraps (rs : List Redir) (ws : List (List Char)) (w : List Char) :
    (rs.foldl Tree.wrap (.exec ws)).addArg w = rs.foldl Tree.wrap (.exec (ws ++ [w])) := by
  induction rs using List.reverseRecOn with
  | nil => rfl
  | append_singleton rs r ih =>
    rw [List.foldl_append, List.foldl_append]
    exact congrArg (fun t => Tree.redir t r.file r.op.mode.1 r.op.mode.2) ih

theorem foldl_add (items : List Item) :
    items.foldl Tree.add (.exec []) =
      (items.filterMap Item.redir?).foldl Tree.wrap (.exec (items.filterMap Item.word?)) := by
  induction items using List.reverseRecOn with
  | nil => rfl
  | append_singleton items i ih =>
    rw [List.foldl_append, List.filterMap_append, List.filterMap_append, ih]
    cases i with
    | word w =>
      have hword : [Item.word w].filterMap Item.word? = [w] := rfl
      have hredir : [Item.word w].filterMap Item.redir? = [] := rfl
      simp [Tree.add, addArg_wraps, hword, hredir]
    | redir r =>
      have hword : [Item.redir r].filterMap Item.word? = [] := rfl
      have hredir : [Item.redir r].filterMap Item.redir? = [r] := rfl
      simp [Tree.add, hword, hredir]

/-! Redirections as items -/

@[simp] theorem flatMap_map_redir (rs : List Redir) :
    (rs.map Item.redir).flatMap Item.tokens = rs.flatMap Redir.tokens := by
  simp [List.flatMap_map, Item.tokens]

@[simp] theorem words_map_redir (rs : List Redir) :
    (rs.map Item.redir).filterMap Item.word? = [] := by
  simp [List.filterMap_map, Function.comp_def, Item.word?]

@[simp] theorem foldl_add_map_redir (rs : List Redir) (t : Tree) :
    (rs.map Item.redir).foldl Tree.add t = rs.foldl Tree.wrap t := by
  simp [List.foldl_map, Tree.add]

/-! ## The next token -/

section
variable {line : List Char} {ts : List Token} {s : ℕ}

/-- A symbol that is no redirection. -/
def Token.Plain (t : Token) : Prop :=
  t = .bar ∨ t = .amp ∨ t = .semi ∨ t = .lpar ∨ t = .rpar

theorem starts_plain {t : Token} (ht : t.Plain) :
    starts [t.code] ts = true ↔ ∃ us, ts = t :: us := by
  cases ts with
  | nil => simp [starts]
  | cons x us =>
    rcases ht with rfl | rfl | rfl | rfl | rfl <;> rcases x with w | ⟨_ | _ | _⟩ | _ <;>
      simp [starts, Token.symbol?, Token.code, strchr]

theorem starts_redir : starts ['<', '>'] ts = true ↔ ∃ op us, ts = .redir op :: us := by
  cases ts with
  | nil => simp [starts]
  | cons x us =>
    rcases x with w | ⟨_ | _ | _⟩ | _ <;> simp [starts, Token.symbol?, Token.code, strchr]

/-- `gettoken` returns `'a'` exactly at a word. -/
theorem exists_word (hnul : nul ∉ line) (h : Toks line s ts)
    (hret : (gettoken (line ++ [nul]) line.length s).ret = 'a') : ∃ w us, ts = .word w :: us := by
  cases ts with
  | nil =>
    rw [(gettoken_end hnul h).1] at hret
    cases hret
  | cons x us =>
    rw [(next_gettoken hnul h).ret] at hret
    rcases x with w | ⟨_ | _ | _⟩ | _
    · exact ⟨w, us, rfl⟩
    all_goals cases hret

/-- `gettoken` returns `0` exactly at the end of the line. -/
theorem eq_nil_of_ret (hnul : nul ∉ line) (h : Toks line s ts)
    (hret : (gettoken (line ++ [nul]) line.length s).ret = nul) : ts = [] := by
  cases ts with
  | nil => rfl
  | cons x us =>
    rw [(next_gettoken hnul h).ret] at hret
    rcases x with w | ⟨_ | _ | _⟩ | _ <;> cases hret

end

/-! ## What the functions find -/

section Sound
variable {line : List Char} {ts : List Token} {t : Tree} {c : Cmd} {s : ℕ}

/-- Some redirections, after which come `us`. -/
def FindsRedirs (line : List Char) (ts : List Token) (t : Tree) (r : Cmd × ℕ) : Prop :=
  ∃ (rs : List Redir) (us : List Token), ts = rs.flatMap Redir.tokens ++ us ∧
    Toks line r.2 us ∧ Reads line r.1 (rs.foldl Tree.wrap t)

theorem parseredirs_sat (hnul : nul ∉ line) (f : ℕ) (hts : Toks line s ts) (hc : Reads line c t) :
    (parseredirs (line ++ [nul]) line.length f c s).Sat (ts.length < f) (· ∈ syntaxPanics)
      (FindsRedirs line ts t) := by
  induction f generalizing s ts c t with
  | zero => exact Nat.not_lt_zero _
  | succ f ih =>
    obtain ⟨hpeek, hps⟩ := peek_spec hnul hts ['<', '>'] rfl
    rw [parseredirs]
    dsimp only
    split
    · next hmore =>
        obtain ⟨op, us, rfl⟩ := starts_redir.mp (hpeek ▸ hmore)
        have hop := next_gettoken hnul hps
        split
        · simp [Fuel.Sat, syntaxPanics]
        · next hword =>
            obtain ⟨w, us, rfl⟩ := exists_word hnul hop.toks (not_not.mp hword)
            have hw := next_gettoken hnul hop.toks
            rw [hop.ret]
            refine (ih hw.toks (hc.wrap op (hw.word w rfl))).mono ?_ ?_
            · simp only [List.length_cons]
              omega
            · rintro r ⟨rs, vs, hvs, hr, hreads⟩
              exact ⟨⟨op, w⟩ :: rs, vs, by simp [hvs, Redir.tokens], hr, hreads⟩
    · exact ⟨[], ts, rfl, hps, hc⟩

/-- Some items with at most as many words as `argc` leaves, after which come `us`. -/
def FindsItems (line : List Char) (ts : List Token) (argc : ℕ) (t : Tree) (r : Cmd × ℕ) : Prop :=
  ∃ (items : List Item) (us : List Token), ts = items.flatMap Item.tokens ++ us ∧
    argc + (items.filterMap Item.word?).length < MAXARGS ∧ Toks line r.2 us ∧
      Reads line r.1 (items.foldl Tree.add t)

theorem parseargs_sat (hnul : nul ∉ line) (f : ℕ) {argc : ℕ} (hargc : argc < MAXARGS)
    (hts : Toks line s ts) (hc : Reads line c t) :
    (parseargs (line ++ [nul]) line.length f c argc s).Sat (ts.length < f) (· ∈ syntaxPanics)
      (FindsItems line ts argc t) := by
  induction f generalizing s ts c t argc with
  | zero => exact Nat.not_lt_zero _
  | succ f ih =>
    obtain ⟨hpeek, hps⟩ := peek_spec hnul hts ['|', ')', '&', ';'] rfl
    rw [parseargs]
    dsimp only
    split_ifs with hstop hend hword hmax
    · exact ⟨[], ts, rfl, hargc, hps, hc⟩
    · cases eq_nil_of_ret hnul hps hend
      exact ⟨[], [], rfl, hargc, (gettoken_end hnul hps).2, hc⟩
    · simp [Fuel.Sat, syntaxPanics]
    · simp [Fuel.Sat, syntaxPanics]
    · obtain ⟨w, us, rfl⟩ := exists_word hnul hps (not_not.mp hword)
      have hw := next_gettoken hnul hps
      have hredirs := parseredirs_sat hnul f hw.toks (hc.addArg (hw.word w rfl))
      refine (hredirs.mono (by simp) fun _ h => h).bind ?_
      rintro ⟨c', s'⟩ ⟨rs, vs, rfl, hr, hreads⟩
      refine (ih (by omega) hr hreads).mono ?_ ?_
      · simp only [List.length_cons, List.length_append]
        omega
      · rintro r ⟨items, xs, rfl, hwords, hr', hreads'⟩
        refine ⟨.word w :: (rs.map .redir ++ items), xs, ?_, ?_, hr', ?_⟩
        · simp [List.flatMap_append, Item.tokens]
        · simp only [List.filterMap_cons, Item.word?, List.filterMap_append, words_map_redir,
            List.nil_append, List.length_cons]
          omega
        · simpa [Tree.add] using hreads'

/-- Some `&`, after which come `us`. -/
def FindsBacks (line : List Char) (ts : List Token) (t : Tree) (r : Cmd × ℕ) : Prop :=
  ∃ (k : ℕ) (us : List Token), ts = List.replicate k .amp ++ us ∧ Toks line r.2 us ∧
    Reads line r.1 (Tree.back^[k] t)

theorem parsebacks_sat (hnul : nul ∉ line) (f : ℕ) (hts : Toks line s ts) (hc : Reads line c t) :
    (parsebacks (line ++ [nul]) line.length f c s).Sat (ts.length < f) (· ∈ syntaxPanics)
      (FindsBacks line ts t) := by
  induction f generalizing s ts c t with
  | zero => exact Nat.not_lt_zero _
  | succ f ih =>
    obtain ⟨hpeek, hps⟩ := peek_spec hnul hts ['&'] rfl
    rw [parsebacks]
    dsimp only
    split
    · next hmore =>
        obtain ⟨us, rfl⟩ := (starts_plain (t := .amp) (by simp [Token.Plain])).mp (hpeek ▸ hmore)
        refine (ih (next_gettoken hnul hps).toks (.back hc)).mono ?_ ?_
        · simp only [List.length_cons]
          omega
        · rintro r ⟨k, vs, rfl, hr, hreads⟩
          exact ⟨k + 1, vs, by simp [List.replicate_succ], hr, hreads⟩
    · exact ⟨0, ts, rfl, hps, hc⟩

/-- A derivation of the nonterminal, after which come `us`. -/
def Finds (n : Nonterminal) (line : List Char) (ts : List Token) (r : Cmd × ℕ) : Prop :=
  ∃ (xs us : List Token) (t : Tree), ts = xs ++ us ∧ Derives n xs t ∧ Toks line r.2 us ∧
    Reads line r.1 t

/-- The function for a nonterminal finds a derivation of it. With `n` tokens left, `4 * n + k` turns
suffice. -/
def Descends (n : Nonterminal) (parse : List Char → ℕ → ℕ → ℕ → Fuel String (Cmd × ℕ)) (k : ℕ)
    (line : List Char) (f : ℕ) : Prop :=
  ∀ s ts, Toks line s ts → (parse (line ++ [nul]) line.length f s).Sat (4 * ts.length + k ≤ f)
    (· ∈ syntaxPanics) (Finds n line ts)

variable (hnul : nul ∉ line)
include hnul

theorem parseline_succ {f : ℕ} (hpipe : Descends .pipe parsepipe 3 line f)
    (hline : Descends .line parseline 4 line f) : Descends .line parseline 4 line (f + 1) := by
  intro s ts hts
  rw [parseline]
  refine ((hpipe s ts hts).mono (by omega) fun _ h => h).bind ?_
  rintro ⟨c, s₁⟩ ⟨xs, us, t, rfl, hxs, hs₁, hc⟩
  refine ((parsebacks_sat hnul f hs₁ hc).mono ?_ fun _ h => h).bind ?_
  · rw [List.length_append]
    omega
  rintro ⟨c', s₂⟩ ⟨k, vs, rfl, hs₂, hc'⟩
  obtain ⟨hpeek, hps⟩ := peek_spec hnul hs₂ [';'] rfl
  dsimp only
  split
  · next hmore =>
      obtain ⟨vs, rfl⟩ := (starts_plain (t := .semi) (by simp [Token.Plain])).mp (hpeek ▸ hmore)
      refine ((hline _ vs (next_gettoken hnul hps).toks).mono ?_ fun _ h => h).bind ?_
      · simp only [List.length_append, List.length_cons]
        omega
      · rintro ⟨d, s₃⟩ ⟨ys, zs, u, rfl, hys, hs₃, hd⟩
        exact ⟨_, zs, _, by simp, .seq k hxs hys, hs₃, .list hc' hd⟩
  · exact ⟨_, vs, _, by simp, .line k hxs, hps, hc'⟩

theorem parsepipe_succ {f : ℕ} (hexec : Descends .exec parseexec 2 line f)
    (hpipe : Descends .pipe parsepipe 3 line f) : Descends .pipe parsepipe 3 line (f + 1) := by
  intro s ts hts
  rw [parsepipe]
  refine ((hexec s ts hts).mono (by omega) fun _ h => h).bind ?_
  rintro ⟨c, s₁⟩ ⟨xs, us, t, rfl, hxs, hs₁, hc⟩
  obtain ⟨hpeek, hps⟩ := peek_spec hnul hs₁ ['|'] rfl
  dsimp only
  split
  · next hmore =>
      obtain ⟨us, rfl⟩ := (starts_plain (t := .bar) (by simp [Token.Plain])).mp (hpeek ▸ hmore)
      refine ((hpipe _ us (next_gettoken hnul hps).toks).mono ?_ fun _ h => h).bind ?_
      · simp only [List.length_append, List.length_cons]
        omega
      · rintro ⟨d, s₂⟩ ⟨ys, zs, u, rfl, hys, hs₂, hd⟩
        exact ⟨_, zs, _, by simp, .bar hxs hys, hs₂, .pipe hc hd⟩
  · exact ⟨xs, us, t, rfl, .pipe hxs, hps, hc⟩

/-- `parseblock` is called at a parenthesis, and leaves one token less to the line in it. -/
theorem parseblock_succ {f : ℕ} (hline : Descends .line parseline 4 line f)
    (hts : Toks line s (.lpar :: ts)) :
    (parseblock (line ++ [nul]) line.length (f + 1) s).Sat (4 * ts.length + 5 ≤ f + 1)
      (· ∈ syntaxPanics) (Finds .exec line (.lpar :: ts)) := by
  obtain ⟨hpeek, hps⟩ := peek_spec hnul hts ['('] rfl
  rw [parseblock]
  dsimp only
  have hopen : starts ['('] (.lpar :: ts) = true := rfl
  rw [hpeek, hopen, if_neg (by simp)]
  refine ((hline _ ts (next_gettoken hnul hps).toks).mono (by omega) fun _ h => h).bind ?_
  rintro ⟨c, s₁⟩ ⟨xs, us, t, rfl, hxs, hs₁, hc⟩
  obtain ⟨hpeek', hps'⟩ := peek_spec hnul hs₁ [')'] rfl
  dsimp only
  split
  · simp [Fuel.Sat, syntaxPanics]
  · next hclosed =>
      rw [hpeek', Bool.not_eq_true, Bool.not_eq_false'] at hclosed
      obtain ⟨us, rfl⟩ := (starts_plain (t := .rpar) (by simp [Token.Plain])).mp hclosed
      refine (parseredirs_sat hnul f (next_gettoken hnul hps').toks hc).mono ?_ ?_
      · simp only [List.length_append, List.length_cons]
        omega
      · rintro r ⟨rs, zs, rfl, hr, hreads⟩
        exact ⟨_, zs, _, by simp, .block rs hxs, hr, hreads⟩

theorem parseexec_succ {f : ℕ} (hblock : ∀ s ts, Toks line s (.lpar :: ts) →
      (parseblock (line ++ [nul]) line.length f s).Sat (4 * ts.length + 5 ≤ f)
        (· ∈ syntaxPanics) (Finds .exec line (.lpar :: ts))) :
    Descends .exec parseexec 2 line (f + 1) := by
  intro s ts hts
  obtain ⟨hpeek, hps⟩ := peek_spec hnul hts ['('] rfl
  rw [parseexec]
  dsimp only
  split
  · next hmore =>
      obtain ⟨us, rfl⟩ := (starts_plain (t := .lpar) (by simp [Token.Plain])).mp (hpeek ▸ hmore)
      refine (hblock _ us hps).mono ?_ fun _ h => h
      rw [List.length_cons]
      omega
  · refine ((parseredirs_sat hnul f hps (.exec .nil)).mono (by omega) fun _ h => h).bind ?_
    rintro ⟨c, s₁⟩ ⟨rs, us, rfl, hs₁, hc⟩
    refine (parseargs_sat hnul f (by decide) hs₁ hc).mono ?_ ?_
    · rw [List.length_append]
      omega
    · rintro r ⟨items, vs, rfl, hwords, hr, hreads⟩
      refine ⟨_, vs, _, ?_, .simple (rs.map .redir ++ items) ?_, hr, ?_⟩
      · simp [List.flatMap_append]
      · rw [List.filterMap_append, words_map_redir, List.nil_append]
        simp only [MAXARGS] at hwords ⊢
        omega
      · rw [← foldl_add, List.foldl_append, foldl_add_map_redir]
        exact hreads

theorem descends (f : ℕ) : Descends .line parseline 4 line f ∧ Descends .pipe parsepipe 3 line f ∧
      Descends .exec parseexec 2 line f ∧
      ∀ s ts, Toks line s (.lpar :: ts) → (parseblock (line ++ [nul]) line.length f s).Sat
        (4 * ts.length + 5 ≤ f) (· ∈ syntaxPanics) (Finds .exec line (.lpar :: ts)) := by
  induction f with
  | zero =>
    refine ⟨fun _ _ _ => ?_, fun _ _ _ => ?_, fun _ _ _ => ?_, fun _ _ _ => ?_⟩
    · rw [parseline]
      exact fun h => by omega
    · rw [parsepipe]
      exact fun h => by omega
    · rw [parseexec]
      exact fun h => by omega
    · rw [parseblock]
      exact fun h => by omega
  | succ f ih =>
    obtain ⟨hline, hpipe, hexec, hblock⟩ := ih
    exact ⟨parseline_succ hnul hpipe hline, parsepipe_succ hnul hexec hpipe,
      parseexec_succ hnul hblock, fun _ _ hts => parseblock_succ hnul hline hts⟩

end Sound

end Xv6.Sh
