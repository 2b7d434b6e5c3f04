import Xv6.Sh.Parse
import Mathlib.Logic.Function.Iterate

/-!
# The grammar of the shell

What a command line means, apart from how `sh.c` parses it. A line is a sequence of tokens; the
grammar says which sequences are commands and which tree each of them stands for. A word is a
maximal run of characters that are neither white space nor symbols.
-/

namespace Xv6.Sh

/-- The redirections `<`, `>` and `>>`. -/
inductive RedirOp
  | read | write | append
  deriving DecidableEq, Repr

inductive Token
  | word (w : List Char)
  | redir (op : RedirOp)
  | bar | amp | semi | lpar | rpar
  deriving DecidableEq, Repr

/-- The tokens of one character. -/
def single : Char → Option Token
  | '|' => some .bar
  | '&' => some .amp
  | ';' => some .semi
  | '(' => some .lpar
  | ')' => some .rpar
  | '<' => some (.redir .read)
  | _ => none

/-- The tokens of a line. -/
def tokens : List Char → List Token
  | [] => []
  | c :: cs =>
    if c ∈ whitespace then tokens cs
    else if c = '>' then
      if cs.head? = some '>' then .redir .append :: tokens cs.tail
      else .redir .write :: tokens cs
    else match single c with
      | some t => t :: tokens cs
      | none => .word (c :: cs.takeWhile wordChar) :: tokens (cs.dropWhile wordChar)
  termination_by cs => cs.length
  decreasing_by
    all_goals simp only [List.length_cons, List.length_tail]
    all_goals try omega
    have := (List.dropWhile_sublist (l := cs) wordChar).length_le
    omega

/-- A command, with the texts of its words. -/
inductive Tree
  | exec (argv : List (List Char))
  | redir (cmd : Tree) (file : List Char) (mode fd : ℕ)
  | pipe (left right : Tree)
  | list (left right : Tree)
  | back (cmd : Tree)
  deriving DecidableEq, Repr

/-- A redirection and its file. -/
structure Redir where
  op : RedirOp
  file : List Char
  deriving DecidableEq, Repr

/-- How the file of a redirection is opened, and which descriptor it replaces. -/
def RedirOp.mode : RedirOp → ℕ × ℕ
  | read => (O_RDONLY, 0)
  | write => (O_WRONLY ||| O_CREATE ||| O_TRUNC, 1)
  | append => (O_WRONLY ||| O_CREATE, 1)

/-- The command under a redirection. -/
def Tree.wrap (t : Tree) (r : Redir) : Tree := .redir t r.file r.op.mode.1 r.op.mode.2

def Redir.tokens (r : Redir) : List Token := [.redir r.op, .word r.file]

/-- A part of a simple command. -/
inductive Item
  | word (w : List Char)
  | redir (r : Redir)
  deriving DecidableEq, Repr

namespace Item

def tokens : Item → List Token
  | word w => [.word w]
  | redir r => r.tokens

def word? : Item → Option (List Char)
  | word w => some w
  | redir _ => none

def redir? : Item → Option Redir
  | word _ => none
  | redir r => some r

end Item

inductive Nonterminal
  | line | pipe | exec
  deriving DecidableEq, Repr

/-- The grammar

    line  ::=  pipe '&'* [';' line]
    pipe  ::=  exec ['|' pipe]
    exec  ::=  '(' line ')' redir*  |  (redir | word)*
    redir ::=  ('<' | '>' | '>>') word

with fewer than `MAXARGS` words in a simple command, and the tree of each derivation. -/
inductive Derives : Nonterminal → List Token → Tree → Prop
  | line {ts : List Token} {t : Tree} (k : ℕ) (hpipe : Derives .pipe ts t) :
      Derives .line (ts ++ List.replicate k .amp) (Tree.back^[k] t)
  | seq {ts us : List Token} {t u : Tree} (k : ℕ) (hpipe : Derives .pipe ts t)
      (hline : Derives .line us u) :
      Derives .line (ts ++ List.replicate k .amp ++ .semi :: us) (.list (Tree.back^[k] t) u)
  | pipe {ts : List Token} {t : Tree} (hexec : Derives .exec ts t) : Derives .pipe ts t
  | bar {ts us : List Token} {t u : Tree} (hexec : Derives .exec ts t)
      (hpipe : Derives .pipe us u) : Derives .pipe (ts ++ .bar :: us) (.pipe t u)
  | block {ts : List Token} {t : Tree} (rs : List Redir) (hline : Derives .line ts t) :
      Derives .exec (.lpar :: ts ++ .rpar :: rs.flatMap Redir.tokens) (rs.foldl Tree.wrap t)
  | simple (items : List Item) (hargs : (items.filterMap Item.word?).length ≤ MAXARGS - 1) :
      Derives .exec (items.flatMap Item.tokens)
        ((items.filterMap Item.redir?).foldl Tree.wrap (.exec (items.filterMap Item.word?)))

end Xv6.Sh
