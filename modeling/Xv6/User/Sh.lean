import Xv6.Fs.Call

/-!
# The parser of the shell

`parsecmd` of `user/sh.c` and what it calls. A pointer into the line is an
offset, and the line is read up to its NUL, so that `*s` is 0 at the end. A
command points to its words by their two ends (`argv` and `eargv`, `file` and
`efile`) until `nulterminate` has ended them in place. The functions call each
other with a bound on the number of nested calls and iterations; `malloc` does
not fail.
-/

namespace Xv6.User.Sh

open Framework
open Fs (O_RDONLY O_WRONLY O_CREATE O_TRUNC)

abbrev MAXARGS : Nat := 10

/-- `struct cmd`, with words of type `α`. -/
inductive Cmd (α : Type)
  | exec (argv : List α)
  | redir (cmd : Cmd α) (file : α) (mode fd : BitVec 32)
  | pipe (left right : Cmd α)
  | list (left right : Cmd α)
  | back (cmd : Cmd α)
  deriving DecidableEq

namespace Cmd

variable {α β : Type}

def map (f : α → β) : Cmd α → Cmd β
  | exec argv => exec (argv.map f)
  | redir cmd file mode fd => redir (cmd.map f) (f file) mode fd
  | pipe left right => pipe (left.map f) (right.map f)
  | list left right => list (left.map f) (right.map f)
  | back cmd => back (cmd.map f)

/-- A word is added to the `execcmd` that the redirections are around. -/
def addArg : Cmd α → α → Cmd α
  | exec argv, a => exec (argv ++ [a])
  | redir cmd file mode fd, a => redir (cmd.addArg a) file mode fd
  | cmd, _ => cmd

end Cmd

/-- How the parser ends without a command. -/
inductive Stop
  | panic (msg : String)
  /-- The bound was met. -/
  | bound
  deriving DecidableEq

/-- The position `*ps` is the state. -/
abbrev Parser := StateT Nat (Except Stop)

/-! ## Tokens -/

def chr (c : Char) : Byte := BitVec.ofNat 8 c.toNat

def whitespace : List Byte := [chr ' ', chr '\t', chr '\r', chr '\n', 0x0b]

def symbols : List Byte := [chr '<', chr '|', chr '>', chr '&', chr ';', chr '(', chr ')']

def isSpace (c : Byte) : Bool := whitespace.contains c

def isSymbol (c : Byte) : Bool := symbols.contains c

/-- A byte at which the loop over a word goes on. -/
def isPlain (c : Byte) : Bool := !isSpace c && !isSymbol c

section Line

variable (text : List Byte)

/-- `*s` -/
def deref (s : Nat) : Byte := text.getD s 0

/-- `while(s < es && p(*s)) s++` -/
def skip (p : Byte → Bool) (s : Nat) : Nat := s + ((text.drop s).takeWhile p).length

/-- The `switch` of `gettoken`: the token at `q`, and its end. -/
def tokenAt (q : Nat) : Byte × Nat :=
  if deref text q = 0 then (0, q)
  else if deref text q ∈ [chr '|', chr '(', chr ')', chr ';', chr '&', chr '<'] then (deref text q, q + 1)
  else if deref text q = chr '>' then
    if deref text (q + 1) = chr '>' then (chr '+', q + 2) else (chr '>', q + 1)
  else (chr 'a', skip text isPlain q)

/-- The next token, and its two ends. -/
def gettoken : Parser (Byte × Nat × Nat) := do
  let s ← get
  let q := skip text isSpace s
  let (ret, eq) := tokenAt text q
  set (skip text isSpace eq)
  return (ret, q, eq)

/-- Whether the next token starts with one of `toks`. -/
def peek (toks : List Byte) : Parser Bool := do
  let s ← get
  let s := skip text isSpace s
  set s
  return deref text s ≠ 0 && toks.contains (deref text s)

/-! ## Commands -/

/-- The `switch` of `parseredirs`. -/
def redirect (cmd : Cmd (Nat × Nat)) (tok : Byte) (file : Nat × Nat) : Cmd (Nat × Nat) :=
  if tok = chr '<' then .redir cmd file O_RDONLY 0
  else if tok = chr '>' then .redir cmd file (O_WRONLY ||| O_CREATE ||| O_TRUNC) 1
  else if tok = chr '+' then .redir cmd file (O_WRONLY ||| O_CREATE) 1
  else cmd

def parseredirs : Nat → Cmd (Nat × Nat) → Parser (Cmd (Nat × Nat))
  | 0, _ => throw .bound
  | fuel + 1, cmd => do
    if ← peek text [chr '<', chr '>'] then do
      let (tok, _) ← gettoken text
      let (ret, file) ← gettoken text
      if ret ≠ chr 'a' then throw (.panic "missing file for redirection")
      else parseredirs fuel (redirect cmd tok file)
    else return cmd

/-- The loop of `parseexec`. -/
def parseargs : Nat → Cmd (Nat × Nat) → Nat → Parser (Cmd (Nat × Nat))
  | 0, _, _ => throw .bound
  | fuel + 1, ret, argc => do
    if ← peek text [chr '|', chr ')', chr '&', chr ';'] then return ret
    else do
      let (tok, arg) ← gettoken text
      if tok = 0 then return ret
      else if tok ≠ chr 'a' then throw (.panic "syntax")
      else if argc + 1 ≥ MAXARGS then throw (.panic "too many args")
      else do
        let ret ← parseredirs text fuel (ret.addArg arg)
        parseargs fuel ret (argc + 1)

/-- The loop of `parseline`. -/
def parsebacks : Nat → Cmd (Nat × Nat) → Parser (Cmd (Nat × Nat))
  | 0, _ => throw .bound
  | fuel + 1, cmd => do
    if ← peek text [chr '&'] then do
      let _ ← gettoken text
      parsebacks fuel (.back cmd)
    else return cmd

mutual

def parseline : Nat → Parser (Cmd (Nat × Nat))
  | 0 => throw .bound
  | fuel + 1 => do
    let cmd ← parsepipe fuel
    let cmd ← parsebacks text fuel cmd
    if ← peek text [chr ';'] then do
      let _ ← gettoken text
      let right ← parseline fuel
      return .list cmd right
    else return cmd

def parsepipe : Nat → Parser (Cmd (Nat × Nat))
  | 0 => throw .bound
  | fuel + 1 => do
    let cmd ← parseexec fuel
    if ← peek text [chr '|'] then do
      let _ ← gettoken text
      let right ← parsepipe fuel
      return .pipe cmd right
    else return cmd

def parseexec : Nat → Parser (Cmd (Nat × Nat))
  | 0 => throw .bound
  | fuel + 1 => do
    if ← peek text [chr '('] then parseblock fuel
    else do
      let ret ← parseredirs text fuel (.exec [])
      parseargs text fuel ret 0

def parseblock : Nat → Parser (Cmd (Nat × Nat))
  | 0 => throw .bound
  | fuel + 1 => do
    if !(← peek text [chr '(']) then throw (.panic "parseblock")
    else do
      let _ ← gettoken text
      let cmd ← parseline fuel
      if !(← peek text [chr ')']) then throw (.panic "syntax - missing )")
      else do
        let _ ← gettoken text
        parseredirs text fuel cmd

end

end Line

/-- Write a NUL to the end of every word. -/
def nulterminate : Cmd (Nat × Nat) → List Byte → List Byte
  | .exec argv, mem => argv.foldl (fun mem arg => mem.set arg.2 0) mem
  | .redir cmd file _ _, mem => (nulterminate cmd mem).set file.2 0
  | .pipe left right, mem => nulterminate right (nulterminate left mem)
  | .list left right, mem => nulterminate right (nulterminate left mem)
  | .back cmd, mem => nulterminate cmd mem

/-- The bytes before the first NUL. -/
def cstring (mem : List Byte) : List Byte := mem.takeWhile (· ≠ 0)

/-- Parse the string at the start of `mem`: the command, and the memory that it
points into then. -/
def parsecmd (mem : List Byte) : Except Stop (Cmd (Nat × Nat) × List Byte) := do
  let text := cstring mem
  let (cmd, s) ← parseline text (4 * text.length + 6) 0
  let (_, s) ← peek text [] s
  if s ≠ text.length then throw (.panic "syntax") else return (cmd, nulterminate cmd mem)

/-- The command with its words as strings in memory. -/
def Cmd.read (mem : List Byte) (cmd : Cmd (Nat × Nat)) : Cmd (List Byte) := cmd.map fun w => cstring (mem.drop w.1)

end Xv6.User.Sh
