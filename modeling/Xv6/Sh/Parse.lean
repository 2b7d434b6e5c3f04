import Xv6.Lib.Fuel
import Mathlib.Data.List.Basic

/-!
# The parser of the shell

`gettoken`, `peek`, the recursive descent of `parsecmd` and `nulterminate` of `user/sh.c`. A
`char *` is an index into the buffer, the buffer ends in a NUL, and a command holds the two ends
of each of its strings. The loops and the recursion take a bound on their turns.
-/

namespace Xv6.Sh

open Lib

/-! ## Tokens -/

def nul : Char := Char.ofNat 0

/-- `" \t\r\n\v"` -/
def whitespace : List Char := [' ', '\t', '\r', '\n', Char.ofNat 11]

/-- `"<|>&;()"` -/
def symbols : List Char := ['<', '|', '>', '&', ';', '(', ')']

/-- The byte at an index; past the end of the buffer nothing is read. -/
def char (b : List Char) (s : ℕ) : Char := b.getD s nul

def strlen (b : List Char) : ℕ := (b.takeWhile (· ≠ nul)).length

/-- `strchr`, as a truth value. -/
def strchr (cs : List Char) (c : Char) : Bool := cs.contains c

/-- At most `n` turns of `while (p(*s)) s++`. -/
def scan (p : Char → Bool) (b : List Char) : ℕ → ℕ → ℕ
  | 0, s => s
  | n + 1, s => if p (char b s) then scan p b n (s + 1) else s

/-- `while (s < es && p(*s)) s++` -/
def skip (p : Char → Bool) (b : List Char) (es s : ℕ) : ℕ := scan p b (es - s) s

/-- What `gettoken` returns and stores through its pointers. -/
structure Tok where
  ret : Char
  q : ℕ
  eq : ℕ
  ps : ℕ
  deriving DecidableEq

/-- A character of a word. -/
def wordChar (c : Char) : Bool := !strchr whitespace c && !strchr symbols c

/-- The `switch` of `gettoken`: the token that starts at `s`, and its end. -/
def tokenAt (b : List Char) (es s : ℕ) : Char × ℕ :=
  let c := char b s
  if c = nul then (c, s)
  else if strchr ['|', '(', ')', ';', '&', '<'] c then (c, s + 1)
  else if c = '>' then
    if char b (s + 1) = '>' then ('+', s + 2) else (c, s + 1)
  else ('a', skip wordChar b es s)

def gettoken (b : List Char) (es ps : ℕ) : Tok :=
  let q := skip (strchr whitespace) b es ps
  let t := tokenAt b es q
  ⟨t.1, q, t.2, skip (strchr whitespace) b es t.2⟩

/-- Whether the next character is one of `toks`, and the index it is at. -/
def peek (b : List Char) (es ps : ℕ) (toks : List Char) : Bool × ℕ :=
  let s := skip (strchr whitespace) b es ps
  (char b s ≠ nul && strchr toks (char b s), s)

/-! ## Commands -/

def MAXARGS : ℕ := 10

def O_RDONLY : ℕ := 0x000
def O_WRONLY : ℕ := 0x001
def O_RDWR : ℕ := 0x002
def O_CREATE : ℕ := 0x200
def O_TRUNC : ℕ := 0x400

/-- `struct cmd`. The arguments of a simple command are the pairs `argv[i]`, `eargv[i]` up to the
null pointer. -/
inductive Cmd
  | exec (argv : List (ℕ × ℕ))
  | redir (cmd : Cmd) (file efile mode fd : ℕ)
  | pipe (left right : Cmd)
  | list (left right : Cmd)
  | back (cmd : Cmd)
  deriving DecidableEq

/-- Store an argument in the `execcmd` under the redirections. -/
def Cmd.addArg (q eq : ℕ) : Cmd → Cmd
  | exec argv => exec (argv ++ [(q, eq)])
  | redir cmd file efile mode fd => redir (cmd.addArg q eq) file efile mode fd
  | c => c

/-! ## The recursive descent -/

/-- The `switch` of `parseredirs`. -/
def redircmd (tok : Char) (cmd : Cmd) (q eq : ℕ) : Cmd :=
  if tok = '<' then .redir cmd q eq O_RDONLY 0
  else if tok = '>' then .redir cmd q eq (O_WRONLY ||| O_CREATE ||| O_TRUNC) 1
  else if tok = '+' then .redir cmd q eq (O_WRONLY ||| O_CREATE) 1
  else cmd

def parseredirs (b : List Char) (es : ℕ) : ℕ → Cmd → ℕ → Fuel String (Cmd × ℕ)
  | 0, _, _ => .spin
  | f + 1, cmd, ps =>
    let (more, ps) := peek b es ps ['<', '>']
    if more then
      let tok := gettoken b es ps
      let word := gettoken b es tok.ps
      if word.ret ≠ 'a' then .fail "missing file for redirection"
      else parseredirs b es f (redircmd tok.ret cmd word.q word.eq) word.ps
    else .done (cmd, ps)

/-- The loop of `parseexec`. -/
def parseargs (b : List Char) (es : ℕ) : ℕ → Cmd → ℕ → ℕ → Fuel String (Cmd × ℕ)
  | 0, _, _, _ => .spin
  | f + 1, ret, argc, ps =>
    let (stop, ps) := peek b es ps ['|', ')', '&', ';']
    if stop then .done (ret, ps)
    else
      let tok := gettoken b es ps
      if tok.ret = nul then .done (ret, tok.ps)
      else if tok.ret ≠ 'a' then .fail "syntax"
      else if argc + 1 ≥ MAXARGS then .fail "too many args"
      else do
        let (ret, ps) ← parseredirs b es f (ret.addArg tok.q tok.eq) tok.ps
        parseargs b es f ret (argc + 1) ps

/-- The loop of `parseline`. -/
def parsebacks (b : List Char) (es : ℕ) : ℕ → Cmd → ℕ → Fuel String (Cmd × ℕ)
  | 0, _, _ => .spin
  | f + 1, cmd, ps =>
    let (more, ps) := peek b es ps ['&']
    if more then parsebacks b es f (.back cmd) (gettoken b es ps).ps
    else .done (cmd, ps)

mutual

def parseline (b : List Char) (es : ℕ) : ℕ → ℕ → Fuel String (Cmd × ℕ)
  | 0, _ => .spin
  | f + 1, ps => do
      let (cmd, ps) ← parsepipe b es f ps
      let (cmd, ps) ← parsebacks b es f cmd ps
      let (more, ps) := peek b es ps [';']
      if more then
        let (right, ps) ← parseline b es f (gettoken b es ps).ps
        .done (.list cmd right, ps)
      else .done (cmd, ps)

def parsepipe (b : List Char) (es : ℕ) : ℕ → ℕ → Fuel String (Cmd × ℕ)
  | 0, _ => .spin
  | f + 1, ps => do
      let (cmd, ps) ← parseexec b es f ps
      let (more, ps) := peek b es ps ['|']
      if more then
        let (right, ps) ← parsepipe b es f (gettoken b es ps).ps
        .done (.pipe cmd right, ps)
      else .done (cmd, ps)

def parseblock (b : List Char) (es : ℕ) : ℕ → ℕ → Fuel String (Cmd × ℕ)
  | 0, _ => .spin
  | f + 1, ps =>
    let (more, ps) := peek b es ps ['(']
    if !more then .fail "parseblock"
    else do
      let (cmd, ps) ← parseline b es f (gettoken b es ps).ps
      let (closed, ps) := peek b es ps [')']
      if !closed then .fail "syntax - missing )"
      else parseredirs b es f cmd (gettoken b es ps).ps

def parseexec (b : List Char) (es : ℕ) : ℕ → ℕ → Fuel String (Cmd × ℕ)
  | 0, _ => .spin
  | f + 1, ps =>
    let (block, ps) := peek b es ps ['(']
    if block then parseblock b es f ps
    else do
      let (ret, ps) ← parseredirs b es f (.exec []) ps
      parseargs b es f ret 0 ps

end

/-- End every string of the command with a NUL. -/
def nulterminate : Cmd → List Char → List Char
  | .exec argv, b => argv.foldl (fun b arg => b.set arg.2 nul) b
  | .redir cmd _ efile _ _, b => (nulterminate cmd b).set efile nul
  | .pipe left right, b => nulterminate right (nulterminate left b)
  | .list left right, b => nulterminate right (nulterminate left b)
  | .back cmd, b => nulterminate cmd b

/-- The command, and the buffer its strings are in. -/
def parsecmd (f : ℕ) (b : List Char) : Fuel String (Cmd × List Char) := do
  let es := strlen b
  let (cmd, ps) ← parseline b es f 0
  if (peek b es ps []).2 ≠ es then .fail "syntax"
  else .done (cmd, nulterminate cmd b)

end Xv6.Sh
