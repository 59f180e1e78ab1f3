import Xv6.Param
import Xv6.Lib.Hoare

set_option autoImplicit false

/-! # The shell's parser

Model of the parsing part of `user/sh.c`. The buffer is the memory from the start of the string on,
pointers into it are offsets, and the pointer `*ps` that the parser advances is the state. A read of
`*s` or a `*ps` past the end `es` of the string and a write past `argv[MAXARGS-1]` stop the run as
`wild`, and `malloc` succeeds. The recursion and the loops take fuel. -/

namespace Xv6.Sh

/-- A character constant. -/
def chr (c : Char) : Byte := BitVec.ofNat 8 c.toNat

def whitespace : List Byte := [chr ' ', chr '\t', chr '\r', chr '\n', 0x0b]

def symbols : List Byte := ['<', '|', '>', '&', ';', '(', ')'].map chr

def MAXARGS : Nat := 10

def O_RDONLY : Nat := 0x000
def O_WRONLY : Nat := 0x001
def O_CREATE : Nat := 0x200
def O_TRUNC : Nat := 0x400

/-- Whether `strchr` finds a character in a string. -/
def strchr (s : List Byte) (c : Byte) : Bool := s.contains c

/-- `strlen`: the characters before the first NUL. -/
def strlen (buf : List Byte) : Nat := buf.idxOf 0

/-- The string in the buffer from `q` on, if a NUL ends it. -/
def stringAt (buf : List Byte) (q : Nat) : Option (List Byte) :=
  if 0 ∈ buf.drop q then some ((buf.drop q).takeWhile (· ≠ 0)) else none

/-- What stops the parser: the shell's `panic`, an access out of bounds, or the fuel. -/
inductive Stop
  | panic (s : String)
  | wild
  | fuel
  deriving DecidableEq, Repr

/-- `q` and `eq`: where a word starts and where it ends. -/
structure Span where
  q : Nat
  eq : Nat
  deriving DecidableEq, Repr

/-- The command trees, over what stands for a string in them. -/
inductive Cmd (σ : Type)
  | exec (argv : List σ)
  | redir (cmd : Cmd σ) (file : σ) (mode fd : Nat)
  | pipe (left right : Cmd σ)
  | list (left right : Cmd σ)
  | back (cmd : Cmd σ)
  deriving DecidableEq, Repr

/-- The tree with each string replaced. -/
def Cmd.map {σ τ : Type} (f : σ → τ) : Cmd σ → Cmd τ
  | exec argv => exec (argv.map f)
  | redir cmd file mode fd => redir (cmd.map f) (f file) mode fd
  | pipe left right => pipe (left.map f) (right.map f)
  | list left right => list (left.map f) (right.map f)
  | back cmd => back (cmd.map f)

/-- Code that advances `*ps`. -/
abbrev Parser := Lib.Code Stop Nat

/-- `*s`. -/
def deref (buf : List Byte) (es s : Nat) : Parser Byte :=
  if s ≤ es then pure (buf.getD s 0) else throw .wild

/-- `*ps = s`. -/
def advance (es s : Nat) : Parser PUnit := if s ≤ es then set s else throw .wild

/-- `while(s < es && p(*s)) s++`, over the characters from `s` to `es`. -/
def skipOver (p : Byte → Bool) : List Byte → Nat → Nat
  | [], s => s
  | c :: cs, s => if p c then skipOver p cs (s + 1) else s

/-- The characters from `s` to `es`. -/
def left (buf : List Byte) (es s : Nat) : List Byte := (buf.take es).drop s

/-- `while(s < es && strchr(whitespace, *s)) s++`. -/
def skipBlanks (buf : List Byte) (es s : Nat) : Nat :=
  skipOver (strchr whitespace) (left buf es s) s

/-- `!strchr(whitespace, *s) && !strchr(symbols, *s)`. -/
def inWord (c : Byte) : Bool := !strchr whitespace c && !strchr symbols c

/-- The `switch` of `gettoken`: what token starts at `q`, and where it ends. -/
def scan (buf : List Byte) (es q : Nat) : Parser (Byte × Nat) := do
  let c ← deref buf es q
  if c = 0 then
    pure (c, q)
  else if c ∈ ['|', '(', ')', ';', '&', '<'].map chr then
    pure (c, q + 1)
  else if c = chr '>' then do
    let c' ← deref buf es (q + 1)
    if c' = chr '>' then pure (chr '+', q + 2) else pure (c, q + 1)
  else
    pure (chr 'a', skipOver inWord (left buf es q) q)

def gettoken (buf : List Byte) (es : Nat) : Parser (Byte × Span) := do
  let s ← get
  let q := skipBlanks buf es s
  let r ← scan buf es q
  advance es (skipBlanks buf es r.2)
  pure (r.1, ⟨q, r.2⟩)

def peek (buf : List Byte) (es : Nat) (toks : List Byte) : Parser Bool := do
  let s ← get
  let s := skipBlanks buf es s
  advance es s
  let c ← deref buf es s
  pure (c ≠ 0 && strchr toks c)

/-- One `redircmd` for the token before the file name. -/
def redircmd (tok : Byte) (cmd : Cmd Span) (file : Span) : Cmd Span :=
  if tok = chr '<' then .redir cmd file O_RDONLY 0
  else if tok = chr '>' then .redir cmd file (O_WRONLY ||| O_CREATE ||| O_TRUNC) 1
  else if tok = chr '+' then .redir cmd file (O_WRONLY ||| O_CREATE) 1
  else cmd

def parseredirs (buf : List Byte) (es : Nat) : Nat → Cmd Span → Parser (Cmd Span)
  | 0, _ => throw .fuel
  | fuel + 1, cmd => do
    let b ← peek buf es [chr '<', chr '>']
    if b then do
      let tok ← gettoken buf es
      let file ← gettoken buf es
      if file.1 ≠ chr 'a' then throw (.panic "missing file for redirection")
      else parseredirs buf es fuel (redircmd tok.1 cmd file.2)
    else pure cmd

/-- `cmd->argv[argc] = q` on the EXEC node that `ret` has wrapped redirections around so far. -/
def Cmd.addArg {σ : Type} (w : σ) : Cmd σ → Cmd σ
  | exec argv => exec (argv ++ [w])
  | redir cmd file mode fd => redir (cmd.addArg w) file mode fd
  | cmd => cmd

/-- The loop of `parseexec`. -/
def parseargs (buf : List Byte) (es : Nat) : Nat → Cmd Span → Nat → Parser (Cmd Span)
  | 0, _, _ => throw .fuel
  | fuel + 1, ret, argc => do
    let b ← peek buf es [chr '|', chr ')', chr '&', chr ';']
    if b then
      -- the write of `argv[argc] = 0` after the loop
      if argc < MAXARGS then pure ret else throw .wild
    else do
      let tok ← gettoken buf es
      if tok.1 = 0 then
        if argc < MAXARGS then pure ret else throw .wild
      else if tok.1 ≠ chr 'a' then throw (.panic "syntax")
      else if argc < MAXARGS then
        if argc + 1 ≥ MAXARGS then throw (.panic "too many args")
        else do
          let ret ← parseredirs buf es fuel (ret.addArg tok.2)
          parseargs buf es fuel ret (argc + 1)
      else throw .wild

/-- The loop of `parseline`. -/
def parsebacks (buf : List Byte) (es : Nat) : Nat → Cmd Span → Parser (Cmd Span)
  | 0, _ => throw .fuel
  | fuel + 1, cmd => do
    let b ← peek buf es [chr '&']
    if b then do
      let _ ← gettoken buf es
      parsebacks buf es fuel (.back cmd)
    else pure cmd

mutual

def parseline (buf : List Byte) (es : Nat) : Nat → Parser (Cmd Span)
  | 0 => throw .fuel
  | fuel + 1 => do
    let cmd ← parsepipe buf es fuel
    let cmd ← parsebacks buf es fuel cmd
    let b ← peek buf es [chr ';']
    if b then do
      let _ ← gettoken buf es
      let right ← parseline buf es fuel
      pure (.list cmd right)
    else pure cmd

def parsepipe (buf : List Byte) (es : Nat) : Nat → Parser (Cmd Span)
  | 0 => throw .fuel
  | fuel + 1 => do
    let cmd ← parseexec buf es fuel
    let b ← peek buf es [chr '|']
    if b then do
      let _ ← gettoken buf es
      let right ← parsepipe buf es fuel
      pure (.pipe cmd right)
    else pure cmd

def parseexec (buf : List Byte) (es : Nat) : Nat → Parser (Cmd Span)
  | 0 => throw .fuel
  | fuel + 1 => do
    let b ← peek buf es [chr '(']
    if b then parseblock buf es fuel
    else do
      let ret ← parseredirs buf es fuel (.exec [])
      parseargs buf es fuel ret 0

def parseblock (buf : List Byte) (es : Nat) : Nat → Parser (Cmd Span)
  | 0 => throw .fuel
  | fuel + 1 => do
    let b ← peek buf es [chr '(']
    if !b then throw (.panic "parseblock")
    else do
      let _ ← gettoken buf es
      let cmd ← parseline buf es fuel
      let b ← peek buf es [chr ')']
      if !b then throw (.panic "syntax - missing )")
      else do
        let _ ← gettoken buf es
        parseredirs buf es fuel cmd

end

/-- NUL-terminate all the counted strings. -/
def nulterminate : Cmd Span → List Byte → List Byte
  | .exec argv, buf => argv.foldl (fun buf w => buf.set w.eq 0) buf
  | .redir cmd file _ _, buf => (nulterminate cmd buf).set file.eq 0
  | .pipe left right, buf => nulterminate right (nulterminate left buf)
  | .list left right, buf => nulterminate right (nulterminate left buf)
  | .back cmd, buf => nulterminate cmd buf

/-- `parsecmd` on the string at the start of the buffer: the tree and the buffer afterwards. Each
nesting of the grammar takes four calls, and each of these a character at least. -/
def parsecmd (buf : List Byte) : Except Stop (Cmd Span × List Byte) :=
  let es := strlen buf
  let run : Parser (Cmd Span) := do
    let cmd ← parseline buf es (4 * es + 4)
    let _ ← peek buf es []
    let s ← get
    -- leftovers
    if s ≠ es then throw (.panic "syntax") else pure cmd
  (run 0).map fun r => (r.1, nulterminate r.1 buf)

end Xv6.Sh
