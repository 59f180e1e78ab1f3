import Xv6.Sh.Model
import Mathlib.Data.List.Basic

set_option autoImplicit false

/-! # The grammar of command lines

The command trees of the shell, printed as tokens, and the texts that render a list of tokens. -/

namespace Xv6.Sh

/-- A non-empty string without whitespace, NUL or a symbol. -/
structure Word where
  chars : List Byte
  ne_nil : chars ≠ []
  plain : ∀ c ∈ chars, c ≠ 0 ∧ c ∉ whitespace ∧ c ∉ symbols

inductive Token
  | bar
  | amp
  | semi
  | lpar
  | rpar
  | lt
  | gt
  | append
  | word (w : Word)

/-- `<`, `>` and `>>`. -/
inductive RedirOp
  | input
  | output
  | append

/-- redir = ('<' | '>' | '>>') word -/
structure Redir where
  op : RedirOp
  file : Word

mutual

/-- exec = {redir} {word {redir}}, with at most `MAXARGS-1` words, or '(' line ')' {redir} -/
inductive Exec
  | simple (redirs : List Redir) (args : List (Word × List Redir)) (few : args.length ≤ MAXARGS - 1)
  | block (line : Line) (redirs : List Redir)

/-- pipe = exec ['|' pipe] -/
inductive Pipe
  | one (exec : Exec)
  | bar (exec : Exec) (right : Pipe)

/-- line = pipe {'&'} [';' line] -/
inductive Line
  | one (pipe : Pipe) (amps : Nat)
  | semi (pipe : Pipe) (amps : Nat) (right : Line)

end

/-! ## Printing -/

def Token.text : Token → List Byte
  | bar => [chr '|']
  | amp => [chr '&']
  | semi => [chr ';']
  | lpar => [chr '(']
  | rpar => [chr ')']
  | lt => [chr '<']
  | gt => [chr '>']
  | append => [chr '>', chr '>']
  | word w => w.chars

def Token.isWord : Token → Bool
  | word _ => true
  | _ => false

def RedirOp.token : RedirOp → Token
  | input => .lt
  | output => .gt
  | append => .append

def redirTokens (rs : List Redir) : List Token :=
  rs.flatMap fun r => [r.op.token, .word r.file]

def argTokens (args : List (Word × List Redir)) : List Token :=
  args.flatMap fun a => .word a.1 :: redirTokens a.2

mutual

def Exec.tokens : Exec → List Token
  | .simple redirs args _ => redirTokens redirs ++ argTokens args
  | .block line redirs => .lpar :: (line.tokens ++ .rpar :: redirTokens redirs)

def Pipe.tokens : Pipe → List Token
  | .one exec => exec.tokens
  | .bar exec right => exec.tokens ++ .bar :: right.tokens

def Line.tokens : Line → List Token
  | .one pipe amps => pipe.tokens ++ List.replicate amps .amp
  | .semi pipe amps right => pipe.tokens ++ List.replicate amps .amp ++ .semi :: right.tokens

end

/-! ## The tree -/

/-- What the redirection does with the command. -/
def Redir.wrap (r : Redir) (cmd : Cmd (List Byte)) : Cmd (List Byte) :=
  match r.op with
  | .input => .redir cmd r.file.chars O_RDONLY 0
  | .output => .redir cmd r.file.chars (O_WRONLY ||| O_CREATE ||| O_TRUNC) 1
  | .append => .redir cmd r.file.chars (O_WRONLY ||| O_CREATE) 1

/-- The redirections around the command, the first read innermost. -/
def wrapAll (cmd : Cmd (List Byte)) (rs : List Redir) : Cmd (List Byte) :=
  rs.foldl (fun cmd r => r.wrap cmd) cmd

mutual

def Exec.tree : Exec → Cmd (List Byte)
  | .simple redirs args _ =>
    wrapAll (.exec (args.map fun a => a.1.chars)) (redirs ++ args.flatMap fun a => a.2)
  | .block line redirs => wrapAll line.tree redirs

def Pipe.tree : Pipe → Cmd (List Byte)
  | .one exec => exec.tree
  | .bar exec right => .pipe exec.tree right.tree

def Line.tree : Line → Cmd (List Byte)
  | .one pipe amps => .back^[amps] pipe.tree
  | .semi pipe amps right => .list (.back^[amps] pipe.tree) right.tree

end

/-! ## Rendering -/

/-- The text renders the tokens, with any whitespace around them: some between two words, none
inside a token. -/
inductive Renders : List Token → List Byte → Prop
  | nil {ws : List Byte} (blank : ∀ c ∈ ws, c ∈ whitespace) : Renders [] ws
  | cons {t : Token} {toks : List Token} {ws l : List Byte} (blank : ∀ c ∈ ws, c ∈ whitespace)
      (rest : Renders toks l)
      (gap : t.isWord → (∃ t' ∈ toks.head?, t'.isWord) → ∃ c ∈ l.head?, c ∈ whitespace) :
      Renders (t :: toks) (ws ++ t.text ++ l)

/-- The first character of a token. -/
def Token.first : Token → Byte
  | word w => w.chars.headD 0
  | t => t.text.headD 0

theorem Token.text_eq_cons (t : Token) : ∃ l, t.text = t.first :: l := by
  cases t with
  | word w =>
      obtain ⟨c, l, hc⟩ := List.exists_cons_of_ne_nil w.ne_nil
      exact ⟨l, by simp [Token.text, Token.first, hc]⟩
  | _ => exact ⟨_, rfl⟩

theorem Word.first_plain (w : Word) :
    (Token.word w).first ≠ 0 ∧ (Token.word w).first ∉ whitespace ∧
      (Token.word w).first ∉ symbols := by
  obtain ⟨l, hl⟩ := (Token.word w).text_eq_cons
  refine w.plain _ ?_
  rw [show w.chars = (Token.word w).text from rfl, hl]
  exact List.mem_cons_self ..

theorem Token.first_mem_symbols {t : Token} (h : t.isWord = false) : t.first ∈ symbols := by
  cases t with
  | word w => cases h
  | _ => decide

theorem Token.first_not_mem_whitespace (t : Token) : t.first ∉ whitespace := by
  cases t with
  | word w => exact w.first_plain.2.1
  | _ => decide

variable {t : Token} {toks : List Token} {ws l : List Byte}

/-- A rendering stays one with more whitespace before it. -/
theorem Renders.skip (blank : ∀ c ∈ ws, c ∈ whitespace) (h : Renders toks l) :
    Renders toks (ws ++ l) := by
  have both {ws' : List Byte} (h' : ∀ c ∈ ws', c ∈ whitespace) : ∀ c ∈ ws ++ ws', c ∈ whitespace :=
    fun c hc => (List.mem_append.mp hc).elim (blank c) (h' c)
  cases h with
  | nil h' => exact .nil (both h')
  | cons h' rest gap =>
      rw [← List.append_assoc, ← List.append_assoc]
      exact .cons (both h') rest gap

/-- A rendering that does not start with whitespace starts with its first token. -/
theorem Renders.head (h : Renders (t :: toks) l) :
    ∃ ws l', (∀ c ∈ ws, c ∈ whitespace) ∧ l = ws ++ t.first :: l' := by
  cases h with
  | @cons _ _ ws l' blank rest gap =>
      obtain ⟨l₁, hl₁⟩ := t.text_eq_cons
      exact ⟨ws, l₁ ++ l', blank, by simp [hl₁]⟩

theorem Renders.blank (h : Renders [] l) : ∀ c ∈ l, c ∈ whitespace := by
  cases h with
  | nil blank => exact blank

/-! ## Trees over strings and over spans -/

/-- Two trees of one shape, whose strings are related. -/
inductive Cmd.Rel {σ τ : Type} (R : σ → τ → Prop) : Cmd σ → Cmd τ → Prop
  | exec {as : List σ} {bs : List τ} (h : List.Forall₂ R as bs) : Rel R (exec as) (exec bs)
  | redir {c : Cmd σ} {d : Cmd τ} {f : σ} {g : τ} {mode fd : Nat} (h : Rel R c d) (hf : R f g) :
      Rel R (redir c f mode fd) (redir d g mode fd)
  | pipe {c c' : Cmd σ} {d d' : Cmd τ} (h : Rel R c d) (h' : Rel R c' d') :
      Rel R (pipe c c') (pipe d d')
  | list {c c' : Cmd σ} {d d' : Cmd τ} (h : Rel R c d) (h' : Rel R c' d') :
      Rel R (list c c') (list d d')
  | back {c : Cmd σ} {d : Cmd τ} (h : Rel R c d) : Rel R (back c) (back d)

theorem Cmd.Rel.addArg {σ τ : Type} {R : σ → τ → Prop} {c : Cmd σ} {d : Cmd τ} {a : σ} {b : τ}
    (h : Rel R c d) (ha : R a b) : Rel R (c.addArg a) (d.addArg b) := by
  induction h with
  | exec h => exact .exec (List.rel_append h (.cons ha .nil))
  | redir h hf ih => exact .redir ih hf
  | pipe h h' => exact .pipe h h'
  | list h h' => exact .list h h'
  | back h => exact .back h

/-- The tree after the words and redirections of `args`, read in this order. -/
def addArgs (cmd : Cmd (List Byte)) (args : List (Word × List Redir)) : Cmd (List Byte) :=
  args.foldl (fun cmd a => wrapAll (cmd.addArg a.1.chars) a.2) cmd

theorem wrapAll_append (cmd : Cmd (List Byte)) (rs rs' : List Redir) :
    wrapAll cmd (rs ++ rs') = wrapAll (wrapAll cmd rs) rs' :=
  List.foldl_append ..

theorem addArg_wrapAll (cmd : Cmd (List Byte)) (rs : List Redir) (w : List Byte) :
    (wrapAll cmd rs).addArg w = wrapAll (cmd.addArg w) rs := by
  induction rs generalizing cmd with
  | nil => rfl
  | cons r rs ih =>
    rw [show wrapAll cmd (r :: rs) = wrapAll (r.wrap cmd) rs from rfl, ih]
    obtain ⟨op, file⟩ := r
    cases op <;> rfl

/-- The redirections end up around the node that has all the words. -/
theorem addArgs_wrapAll (args : List (Word × List Redir)) (argv : List (List Byte))
    (rs : List Redir) :
    addArgs (wrapAll (.exec argv) rs) args =
      wrapAll (.exec (argv ++ args.map fun a => a.1.chars)) (rs ++ args.flatMap fun a => a.2) := by
  induction args generalizing argv rs with
  | nil => simp [addArgs]
  | cons a args ih =>
    have hcons : addArgs (wrapAll (.exec argv) rs) (a :: args) =
        addArgs (wrapAll ((wrapAll (.exec argv) rs).addArg a.1.chars) a.2) args := rfl
    rw [hcons, addArg_wrapAll, ← wrapAll_append, Cmd.addArg, ih]
    simp

end Xv6.Sh
