import Xv6Paging.Lib.Run
import Xv6Paging.Machine

/-! # The parser of the shell

    `parsecmd` and what it calls. The line is a list of bytes, without the NUL after it; the
    state is the position `*ps` in it. The trees refer to the line by positions: a word is
    where it starts and where it ends, and `nulterminate` writes a NUL where it ends.

    Memory for the trees is taken to be there.
-/

namespace Xv6Paging.Sh

open Wp

/-- The bytes of `" \t\r\n\v"`. -/
def whitespace : List UInt8 := [32, 9, 13, 10, 11]

/-- The bytes of `"<|>&;()"`. -/
def symbols : List UInt8 := [60, 124, 62, 38, 59, 40, 41]

def maxargs : Nat := 10

/-- What `gettoken` returns: 0, the symbol, `+` or `a`. -/
inductive Tok where
  | eof
  | bar
  | lparen
  | rparen
  | semi
  | amp
  | lt
  | gt
  | append
  | word
  deriving DecidableEq

/-- A counted string, from `q` up to `eq`. -/
structure Span where
  q : Nat
  eq : Nat
  deriving DecidableEq

inductive Cmd where
  | exec (argv : List Span)
  | redir (cmd : Cmd) (file : Span) (mode fd : Nat)
  | pipe (left right : Cmd)
  | list (left right : Cmd)
  | back (cmd : Cmd)
  deriving DecidableEq

/-- `cmd->argv[argc] = q`, for the command in the redirections that have been put around it. -/
def Cmd.addArg : Cmd → Span → Cmd
  | .exec argv, w => .exec (argv ++ [w])
  | .redir cmd file mode fd, w => .redir (cmd.addArg w) file mode fd
  | cmd, _ => cmd

def oRdonly : Nat := 0

def oWronlyCreate : Nat := 0x201

abbrev M : Type → Type := EStateM Stop Nat

/-! ## Tokens -/

/-- The byte at a position; a NUL comes after the line. -/
def byteAt (line : List UInt8) (s : Nat) : UInt8 := line.getD s 0

/-- `while(s < es && f(*s)) s++`. -/
def skipWhile (f : UInt8 → Bool) (line : List UInt8) (s : Nat) : Nat := s + ((line.drop s).takeWhile f).length

def isSpace (c : UInt8) : Bool := whitespace.contains c

def isWordByte (c : UInt8) : Bool := !whitespace.contains c && !symbols.contains c

/-- The `switch` of `gettoken`: the token at a position, and where it ends. -/
def lex (line : List UInt8) (q : Nat) : Tok × Nat :=
  let c := byteAt line q
  if c = 0 then
    (.eof, q)
  else if c = 124 then
    (.bar, q + 1)
  else if c = 40 then
    (.lparen, q + 1)
  else if c = 41 then
    (.rparen, q + 1)
  else if c = 59 then
    (.semi, q + 1)
  else if c = 38 then
    (.amp, q + 1)
  else if c = 60 then
    (.lt, q + 1)
  else if c = 62 then
    if byteAt line (q + 1) = 62 then (.append, q + 2) else (.gt, q + 1)
  else
    (.word, skipWhile isWordByte line q)

def gettoken (line : List UInt8) : M (Tok × Span) := do
  let s ← get
  let q := skipWhile isSpace line s
  set (skipWhile isSpace line (lex line q).2)
  pure ((lex line q).1, ⟨q, (lex line q).2⟩)

def peek (line toks : List UInt8) : M Bool := do
  let s ← get
  let s := skipWhile isSpace line s
  set s
  pure (byteAt line s ≠ 0 ∧ byteAt line s ∈ toks)

/-! ## Commands -/

/-- The `switch` of `parseredirs`. -/
def redirect (tok : Tok) (cmd : Cmd) (w : Span) : Cmd :=
  match tok with
  | .lt => .redir cmd w oRdonly 0
  | .gt => .redir cmd w oWronlyCreate 1
  | .append => .redir cmd w oWronlyCreate 1
  | _ => cmd

section

variable (line : List UInt8)

def parseredirs : Nat → Cmd → M Cmd
  | 0, _ => throw .diverge
  | n + 1, cmd => do
    if ← peek line [60, 62] then do
      let (tok, _) ← gettoken line
      let (tok', w) ← gettoken line
      if tok' ≠ .word then throw (.panic "missing file for redirection") else parseredirs n (redirect tok cmd w)
    else
      pure cmd

/-- The loop of `parseexec`. -/
def parseargs : Nat → Nat → Cmd → M Cmd
  | 0, _, _ => throw .diverge
  | n + 1, argc, ret => do
    if ← peek line [124, 41, 38, 59] then
      pure ret
    else do
      let (tok, w) ← gettoken line
      if tok = .eof then
        pure ret
      else if tok ≠ .word then
        throw (.panic "syntax")
      else if maxargs ≤ argc + 1 then
        throw (.panic "too many args")
      else do
        let ret ← parseredirs line n (ret.addArg w)
        parseargs n (argc + 1) ret

/-- The first loop of `parseline`. -/
def parsebacks : Nat → Cmd → M Cmd
  | 0, _ => throw .diverge
  | n + 1, cmd => do
    if ← peek line [38] then do
      let _ ← gettoken line
      parsebacks n (.back cmd)
    else
      pure cmd

mutual

def parseline : Nat → M Cmd
  | 0 => throw .diverge
  | n + 1 => do
    let cmd ← parsepipe n
    let cmd ← parsebacks line n cmd
    if ← peek line [59] then do
      let _ ← gettoken line
      let right ← parseline n
      pure (.list cmd right)
    else
      pure cmd

def parsepipe : Nat → M Cmd
  | 0 => throw .diverge
  | n + 1 => do
    let cmd ← parseexec n
    if ← peek line [124] then do
      let _ ← gettoken line
      let right ← parsepipe n
      pure (.pipe cmd right)
    else
      pure cmd

def parseexec : Nat → M Cmd
  | 0 => throw .diverge
  | n + 1 => do
    if ← peek line [40] then
      parseblock n
    else do
      let ret ← parseredirs line n (.exec [])
      parseargs line n 0 ret

def parseblock : Nat → M Cmd
  | 0 => throw .diverge
  | n + 1 => do
    if ← peek line [40] then do
      let _ ← gettoken line
      let cmd ← parseline n
      if ← peek line [41] then do
        let _ ← gettoken line
        parseredirs line n cmd
      else
        throw (.panic "syntax - missing )")
    else
      throw (.panic "parseblock")

end

end

end Xv6Paging.Sh
