import Xv6.Sh.Lexer

set_option autoImplicit false

/-! # Reading what was printed

On a text that renders the tokens of a command the parser returns the tree of the command. By
induction on the command; the fuel covers what is left of the string. -/

namespace Xv6.Sh

open Lib

variable {buf : List Byte} {es s : Nat} {t : Token} {toks : List Token}

/-- Whether the first character of the next token is in `p`. -/
def startsIn (p : List Byte) (toks : List Token) : Bool :=
  toks.head?.any fun t => decide (t.first ∈ p)

@[simp]
theorem startsIn_cons (p : List Byte) : startsIn p (t :: toks) = decide (t.first ∈ p) := rfl

/-- The text goes on with a character in `p`, or ends. -/
def Next (p : List Byte) (toks : List Token) : Prop := ∀ t ∈ toks.head?, t.first ∈ p

theorem startsIn_eq_false {p p' : List Byte} (h : Next p toks) (hp : ∀ c ∈ p, c ∉ p') :
    startsIn p' toks = false := by
  cases toks with
  | nil => rfl
  | cons t toks => exact decide_eq_false (hp _ (h t rfl))

theorem Next.mono {p p' : List Byte} (h : Next p toks) (hp : ∀ c ∈ p, c ∈ p') : Next p' toks :=
  fun t ht => hp _ (h t ht)

theorem gettoken_renders (h : IsString buf es) (hr : Renders (t :: toks) (left buf es s))
    (hgt : t = .gt → ∀ t' ∈ toks.head?, t'.isWord) :
    ∃ w s', gettoken buf es s = .ok ((t.code, w), s') ∧ s < s' ∧ s' ≤ es ∧
      Renders toks (left buf es s') ∧ ∀ v, t = .word v → Reads buf es w v.chars := by
  obtain ⟨w, s', hstep, hrest⟩ := hr.step hgt
  have hlt := hstep.lt h
  refine ⟨w, s', gettoken_step h hstep, by omega, hlt.2.2.2.2, hrest, ?_⟩
  rintro v rfl
  exact hstep.reads h

theorem peek_renders (h : IsString buf es) (hs : s ≤ es) (hr : Renders toks (left buf es s))
    (p : List Byte) :
    ∃ s', peek buf es p s = .ok (startsIn p toks, s') ∧ s ≤ s' ∧ s' ≤ es ∧
      Renders toks (left buf es s') := by
  cases toks with
  | nil =>
      refine ⟨es, peek_end h hs hr.blank p, hs, le_refl es, ?_⟩
      rw [left_end h]
      exact .nil fun c hc => absurd hc List.not_mem_nil
  | cons t toks =>
      obtain ⟨ws, l, blank, hl⟩ := hr.head
      refine ⟨skipBlanks buf es s, peek_eq h hl blank t.first_not_mem_whitespace p, le_skipBlanks,
        skipBlanks_le h hs, ?_⟩
      rw [left_skipBlanks]
      exact hr.unskip

/-- Run at `s`, the code returns the tree and leaves the tokens. -/
def Prints (buf : List Byte) (es s : Nat) (x : Parser (Cmd Span)) (tree : Cmd (List Byte))
    (toks : List Token) : Prop :=
  ∃ cmd s', x s = .ok (cmd, s') ∧ s ≤ s' ∧ s' ≤ es ∧ Renders toks (left buf es s') ∧
    cmd.Rel (Reads buf es) tree

/-- The characters that follow an exec, a pipe and a line. -/
def afterExec : List Byte := [chr '|', chr ')', chr '&', chr ';']
def afterPipe : List Byte := [chr ')', chr '&', chr ';']
def afterLine : List Byte := [chr ')']

theorem RedirOp.first_mem (op : RedirOp) : op.token.first ∈ [chr '<', chr '>'] := by
  cases op <;> decide

theorem parseredirs_prints (h : IsString buf es) (rs : List Redir) (fuel : Nat) {cmd : Cmd Span}
    {tree : Cmd (List Byte)} (hfuel : es - s < fuel) (hs : s ≤ es)
    (hr : Renders (redirTokens rs ++ toks) (left buf es s))
    (hnext : startsIn [chr '<', chr '>'] toks = false) (hrel : cmd.Rel (Reads buf es) tree) :
    Prints buf es s (parseredirs buf es fuel cmd) (wrapAll tree rs) toks := by
  induction rs generalizing fuel s cmd tree with
  | nil =>
    obtain ⟨fuel, rfl⟩ : ∃ n, fuel = n + 1 := ⟨fuel - 1, by omega⟩
    obtain ⟨s₁, hpeek, hs₁, hle₁, hr₁⟩ := peek_renders h hs hr [chr '<', chr '>']
    rw [show redirTokens [] ++ toks = toks from rfl] at hpeek hr₁
    rw [hnext] at hpeek
    refine ⟨cmd, s₁, ?_, hs₁, hle₁, hr₁, hrel⟩
    rw [parseredirs, bind_of_ok hpeek]
    rfl
  | cons r rs ih =>
    obtain ⟨fuel, rfl⟩ : ∃ n, fuel = n + 1 := ⟨fuel - 1, by omega⟩
    have htoks : redirTokens (r :: rs) ++ toks =
        r.op.token :: .word r.file :: (redirTokens rs ++ toks) := rfl
    rw [htoks] at hr
    obtain ⟨s₁, hpeek, hs₁, hle₁, hr₁⟩ := peek_renders h hs hr [chr '<', chr '>']
    have hb : startsIn [chr '<', chr '>'] (r.op.token :: .word r.file :: (redirTokens rs ++ toks)) =
        true := decide_eq_true r.op.first_mem
    rw [hb] at hpeek
    obtain ⟨w₂, s₂, htok, hlt₂, hle₂, hr₂, -⟩ := gettoken_renders h hr₁ (by simp [Token.isWord])
    obtain ⟨w₃, s₃, hfile, hlt₃, hle₃, hr₃, hw₃⟩ := gettoken_renders h hr₂ (by simp)
    have hrel' := redircmd_rel hrel (hw₃ r.file rfl)
    obtain ⟨cmd', s', hrun, hs', hle', hr', hrel''⟩ := ih fuel (by omega) hle₃ hr₃ hrel'
    refine ⟨cmd', s', ?_, by omega, hle', hr', hrel''⟩
    rw [parseredirs, bind_of_ok hpeek, if_pos rfl, bind_of_ok htok, bind_of_ok hfile,
      if_neg (fun hne => hne rfl)]
    exact hrun

theorem parseargs_prints (h : IsString buf es) (args : List (Word × List Redir)) (fuel argc : Nat)
    {ret : Cmd Span} {tree : Cmd (List Byte)} (hfuel : es - s < fuel) (hs : s ≤ es)
    (hr : Renders (argTokens args ++ toks) (left buf es s)) (hnext : Next afterExec toks)
    (few : argc + args.length ≤ MAXARGS - 1) (hrel : ret.Rel (Reads buf es) tree) :
    Prints buf es s (parseargs buf es fuel ret argc) (addArgs tree args) toks := by
  have hMAX : MAXARGS = 10 := rfl
  induction args generalizing fuel argc s ret tree with
  | nil =>
    obtain ⟨fuel, rfl⟩ : ∃ n, fuel = n + 1 := ⟨fuel - 1, by omega⟩
    have hargc : argc < MAXARGS := by
      rw [List.length_nil] at few
      omega
    obtain ⟨s₁, hpeek, hs₁, hle₁, hr₁⟩ := peek_renders h hs hr afterExec
    rw [show argTokens [] ++ toks = toks from rfl] at hpeek hr₁
    cases toks with
    | nil =>
      refine ⟨ret, es, ?_, hs, le_refl es, ?_, hrel⟩
      · have hend := gettoken_end h hle₁ hr₁.blank
        rw [parseargs, show [chr '|', chr ')', chr '&', chr ';'] = afterExec from rfl,
          bind_of_ok hpeek, if_neg (by simp [startsIn]), bind_of_ok hend, if_pos rfl, if_pos hargc]
        rfl
      · rw [left_end h]
        exact .nil fun c hc => absurd hc List.not_mem_nil
    | cons t toks =>
      refine ⟨ret, s₁, ?_, hs₁, hle₁, hr₁, hrel⟩
      rw [startsIn_cons, decide_eq_true (hnext t rfl)] at hpeek
      rw [parseargs, show [chr '|', chr ')', chr '&', chr ';'] = afterExec from rfl,
        bind_of_ok hpeek, if_pos rfl, if_pos hargc]
      rfl
  | cons a args ih =>
    obtain ⟨fuel, rfl⟩ : ∃ n, fuel = n + 1 := ⟨fuel - 1, by omega⟩
    rw [List.length_cons] at few
    have htoks : argTokens (a :: args) ++ toks =
        .word a.1 :: (redirTokens a.2 ++ (argTokens args ++ toks)) := by
      simp [argTokens]
    rw [htoks] at hr
    obtain ⟨s₁, hpeek, hs₁, hle₁, hr₁⟩ := peek_renders h hs hr afterExec
    have hb : startsIn afterExec (.word a.1 :: (redirTokens a.2 ++ (argTokens args ++ toks))) =
        false := by
      refine decide_eq_false fun hmem => a.1.first_plain.2.2 ?_
      exact (by decide : ∀ c ∈ afterExec, c ∈ symbols) _ hmem
    rw [hb] at hpeek
    obtain ⟨w₂, s₂, htok, hlt₂, hle₂, hr₂, hw₂⟩ := gettoken_renders h hr₁ (by simp)
    have hrel₂ := hrel.addArg (hw₂ a.1 rfl)
    have hcode : ¬ (Token.word a.1).code = 0 := (by decide : ¬ chr 'a' = 0)
    -- the redirections end before the next word or what follows
    have hredirs : startsIn [chr '<', chr '>'] (argTokens args ++ toks) = false := by
      cases args with
      | nil => exact startsIn_eq_false hnext (by decide)
      | cons a' args =>
        refine decide_eq_false fun hmem => a'.1.first_plain.2.2 ?_
        exact (by decide : ∀ c ∈ [chr '<', chr '>'], c ∈ symbols) _ hmem
    obtain ⟨ret₃, s₃, hrun₃, hs₃, hle₃, hr₃, hrel₃⟩ :=
      parseredirs_prints h a.2 fuel (by omega) hle₂ hr₂ hredirs hrel₂
    obtain ⟨cmd', s', hrun, hs', hle', hr', hrel'⟩ :=
      ih fuel (argc + 1) (by omega) hle₃ hr₃ (by omega) hrel₃
    refine ⟨cmd', s', ?_, by omega, hle', hr', hrel'⟩
    rw [parseargs, show [chr '|', chr ')', chr '&', chr ';'] = afterExec from rfl,
      bind_of_ok hpeek, if_neg (by decide), bind_of_ok htok, if_neg hcode,
      if_neg (fun hne => hne rfl), if_pos (by omega), if_neg (by omega), bind_of_ok hrun₃]
    exact hrun

theorem parsebacks_prints (h : IsString buf es) (n : Nat) (fuel : Nat) {cmd : Cmd Span}
    {tree : Cmd (List Byte)} (hfuel : es - s < fuel) (hs : s ≤ es)
    (hr : Renders (List.replicate n .amp ++ toks) (left buf es s))
    (hnext : startsIn [chr '&'] toks = false) (hrel : cmd.Rel (Reads buf es) tree) :
    Prints buf es s (parsebacks buf es fuel cmd) (.back^[n] tree) toks := by
  induction n generalizing fuel s cmd tree with
  | zero =>
    obtain ⟨fuel, rfl⟩ : ∃ n, fuel = n + 1 := ⟨fuel - 1, by omega⟩
    obtain ⟨s₁, hpeek, hs₁, hle₁, hr₁⟩ := peek_renders h hs hr [chr '&']
    rw [show List.replicate 0 Token.amp ++ toks = toks from rfl] at hpeek hr₁
    rw [hnext] at hpeek
    refine ⟨cmd, s₁, ?_, hs₁, hle₁, hr₁, hrel⟩
    rw [parsebacks, bind_of_ok hpeek]
    rfl
  | succ n ih =>
    obtain ⟨fuel, rfl⟩ : ∃ n, fuel = n + 1 := ⟨fuel - 1, by omega⟩
    rw [List.replicate_succ, List.cons_append] at hr
    obtain ⟨s₁, hpeek, hs₁, hle₁, hr₁⟩ := peek_renders h hs hr [chr '&']
    have hb : startsIn [chr '&'] (.amp :: (List.replicate n .amp ++ toks)) = true := rfl
    rw [hb] at hpeek
    obtain ⟨w₂, s₂, htok, hlt₂, hle₂, hr₂, -⟩ := gettoken_renders h hr₁ (by simp)
    obtain ⟨cmd', s', hrun, hs', hle', hr', hrel'⟩ := ih fuel (by omega) hle₂ hr₂ (.back hrel)
    refine ⟨cmd', s', ?_, by omega, hle', hr', hrel'⟩
    rw [parsebacks, bind_of_ok hpeek, if_pos rfl, bind_of_ok htok]
    exact hrun

/-! ## The recursion -/

mutual

theorem parseline_prints (h : IsString buf es) : ∀ (line : Line) (fuel s : Nat)
    (toks : List Token), 4 * (es - s) + 4 ≤ fuel → s ≤ es →
    Renders (line.tokens ++ toks) (left buf es s) → Next afterLine toks →
    Prints buf es s (parseline buf es fuel) line.tree toks
  | .one pipe amps, fuel, s, toks, hfuel, hs, hr, hnext => by
    obtain ⟨fuel, rfl⟩ : ∃ n, fuel = n + 1 := ⟨fuel - 1, by omega⟩
    rw [Line.tokens, List.append_assoc] at hr
    have hnext₁ : Next afterPipe (List.replicate amps .amp ++ toks) := by
      cases amps with
      | zero => exact hnext.mono (by decide)
      | succ n => exact fun t ht => by cases ht; decide
    obtain ⟨cmd₁, s₁, hrun₁, hs₁, hle₁, hr₁, hrel₁⟩ :=
      parsepipe_prints h pipe fuel s _ (by omega) hs hr hnext₁
    obtain ⟨cmd₂, s₂, hrun₂, hs₂, hle₂, hr₂, hrel₂⟩ :=
      parsebacks_prints h amps fuel (by omega) hle₁ hr₁ (startsIn_eq_false hnext (by decide)) hrel₁
    obtain ⟨s₃, hpeek, hs₃, hle₃, hr₃⟩ := peek_renders h hle₂ hr₂ [chr ';']
    rw [startsIn_eq_false hnext (by decide)] at hpeek
    refine ⟨cmd₂, s₃, ?_, by omega, hle₃, hr₃, hrel₂⟩
    rw [parseline, bind_of_ok hrun₁, bind_of_ok hrun₂, bind_of_ok hpeek]
    rfl
  | .semi pipe amps right, fuel, s, toks, hfuel, hs, hr, hnext => by
    obtain ⟨fuel, rfl⟩ : ∃ n, fuel = n + 1 := ⟨fuel - 1, by omega⟩
    rw [Line.tokens, List.append_assoc, List.append_assoc, List.cons_append] at hr
    have hnext₁ : Next afterPipe (List.replicate amps .amp ++ (.semi :: (right.tokens ++ toks))) := by
      cases amps with
      | zero => exact fun t ht => by cases ht; decide
      | succ n => exact fun t ht => by cases ht; decide
    obtain ⟨cmd₁, s₁, hrun₁, hs₁, hle₁, hr₁, hrel₁⟩ :=
      parsepipe_prints h pipe fuel s _ (by omega) hs hr hnext₁
    obtain ⟨cmd₂, s₂, hrun₂, hs₂, hle₂, hr₂, hrel₂⟩ :=
      parsebacks_prints h amps fuel (by omega) hle₁ hr₁ rfl hrel₁
    obtain ⟨s₃, hpeek, hs₃, hle₃, hr₃⟩ := peek_renders h hle₂ hr₂ [chr ';']
    rw [startsIn_cons, decide_eq_true (by decide)] at hpeek
    obtain ⟨w₄, s₄, htok, hlt₄, hle₄, hr₄, -⟩ := gettoken_renders h hr₃ (by simp)
    obtain ⟨cmd₅, s₅, hrun₅, hs₅, hle₅, hr₅, hrel₅⟩ :=
      parseline_prints h right fuel s₄ toks (by omega) hle₄ hr₄ hnext
    refine ⟨.list cmd₂ cmd₅, s₅, ?_, by omega, hle₅, hr₅, .list hrel₂ hrel₅⟩
    rw [parseline, bind_of_ok hrun₁, bind_of_ok hrun₂, bind_of_ok hpeek, if_pos rfl,
      bind_of_ok htok, bind_of_ok hrun₅]
    rfl

theorem parsepipe_prints (h : IsString buf es) : ∀ (pipe : Pipe) (fuel s : Nat)
    (toks : List Token), 4 * (es - s) + 3 ≤ fuel → s ≤ es →
    Renders (pipe.tokens ++ toks) (left buf es s) → Next afterPipe toks →
    Prints buf es s (parsepipe buf es fuel) pipe.tree toks
  | .one exec, fuel, s, toks, hfuel, hs, hr, hnext => by
    obtain ⟨fuel, rfl⟩ : ∃ n, fuel = n + 1 := ⟨fuel - 1, by omega⟩
    obtain ⟨cmd₁, s₁, hrun₁, hs₁, hle₁, hr₁, hrel₁⟩ :=
      parseexec_prints h exec fuel s toks (by omega) hs hr (hnext.mono (by decide))
    obtain ⟨s₂, hpeek, hs₂, hle₂, hr₂⟩ := peek_renders h hle₁ hr₁ [chr '|']
    rw [startsIn_eq_false hnext (by decide)] at hpeek
    refine ⟨cmd₁, s₂, ?_, by omega, hle₂, hr₂, hrel₁⟩
    rw [parsepipe, bind_of_ok hrun₁, bind_of_ok hpeek]
    rfl
  | .bar exec right, fuel, s, toks, hfuel, hs, hr, hnext => by
    obtain ⟨fuel, rfl⟩ : ∃ n, fuel = n + 1 := ⟨fuel - 1, by omega⟩
    rw [Pipe.tokens, List.append_assoc, List.cons_append] at hr
    obtain ⟨cmd₁, s₁, hrun₁, hs₁, hle₁, hr₁, hrel₁⟩ :=
      parseexec_prints h exec fuel s _ (by omega) hs hr fun t ht => by cases ht; decide
    obtain ⟨s₂, hpeek, hs₂, hle₂, hr₂⟩ := peek_renders h hle₁ hr₁ [chr '|']
    rw [startsIn_cons, decide_eq_true (by decide)] at hpeek
    obtain ⟨w₃, s₃, htok, hlt₃, hle₃, hr₃, -⟩ := gettoken_renders h hr₂ (by simp)
    obtain ⟨cmd₄, s₄, hrun₄, hs₄, hle₄, hr₄, hrel₄⟩ :=
      parsepipe_prints h right fuel s₃ toks (by omega) hle₃ hr₃ hnext
    refine ⟨.pipe cmd₁ cmd₄, s₄, ?_, by omega, hle₄, hr₄, .pipe hrel₁ hrel₄⟩
    rw [parsepipe, bind_of_ok hrun₁, bind_of_ok hpeek, if_pos rfl, bind_of_ok htok,
      bind_of_ok hrun₄]
    rfl

theorem parseexec_prints (h : IsString buf es) : ∀ (exec : Exec) (fuel s : Nat)
    (toks : List Token), 4 * (es - s) + 2 ≤ fuel → s ≤ es →
    Renders (exec.tokens ++ toks) (left buf es s) → Next afterExec toks →
    Prints buf es s (parseexec buf es fuel) exec.tree toks
  | .simple redirs args few, fuel, s, toks, hfuel, hs, hr, hnext => by
    obtain ⟨fuel, rfl⟩ : ∃ n, fuel = n + 1 := ⟨fuel - 1, by omega⟩
    rw [Exec.tokens, List.append_assoc] at hr
    have hargs (p : List Byte) (hp : ∀ c ∈ p, c ∈ symbols) (hnot : ∀ c ∈ afterExec, c ∉ p) :
        startsIn p (argTokens args ++ toks) = false := by
      cases args with
      | nil => exact startsIn_eq_false hnext hnot
      | cons a args => exact decide_eq_false fun hmem => a.1.first_plain.2.2 (hp _ hmem)
    have hblock : startsIn [chr '('] (redirTokens redirs ++ (argTokens args ++ toks)) = false := by
      cases redirs with
      | nil => exact hargs _ (by decide) (by decide)
      | cons r redirs =>
        refine decide_eq_false fun hmem => ?_
        exact (by decide : ∀ c ∈ [chr '<', chr '>'], c ∉ [chr '(']) _ r.op.first_mem hmem
    obtain ⟨s₁, hpeek, hs₁, hle₁, hr₁⟩ := peek_renders h hs hr [chr '(']
    rw [hblock] at hpeek
    have hempty : Cmd.Rel (Reads buf es) (.exec []) (.exec []) := .exec .nil
    obtain ⟨cmd₂, s₂, hrun₂, hs₂, hle₂, hr₂, hrel₂⟩ :=
      parseredirs_prints h redirs fuel (by omega) hle₁ hr₁ (hargs _ (by decide) (by decide)) hempty
    obtain ⟨cmd₃, s₃, hrun₃, hs₃, hle₃, hr₃, hrel₃⟩ :=
      parseargs_prints h args fuel 0 (by omega) hle₂ hr₂ hnext (by omega) hrel₂
    rw [addArgs_wrapAll, List.nil_append] at hrel₃
    refine ⟨cmd₃, s₃, ?_, by omega, hle₃, hr₃, hrel₃⟩
    rw [parseexec, bind_of_ok hpeek, if_neg (by decide), bind_of_ok hrun₂]
    exact hrun₃
  | .block line redirs, fuel, s, toks, hfuel, hs, hr, hnext => by
    obtain ⟨fuel, rfl⟩ : ∃ n, fuel = n + 2 := ⟨fuel - 2, by omega⟩
    rw [Exec.tokens, List.cons_append, List.append_assoc, List.cons_append] at hr
    obtain ⟨s₁, hpeek₁, hs₁, hle₁, hr₁⟩ := peek_renders h hs hr [chr '(']
    rw [startsIn_cons, decide_eq_true (by decide)] at hpeek₁
    obtain ⟨s₂, hpeek₂, hs₂, hle₂, hr₂⟩ := peek_renders h hle₁ hr₁ [chr '(']
    rw [startsIn_cons, decide_eq_true (by decide)] at hpeek₂
    obtain ⟨w₃, s₃, htok₃, hlt₃, hle₃, hr₃, -⟩ := gettoken_renders h hr₂ (by simp)
    obtain ⟨cmd₄, s₄, hrun₄, hs₄, hle₄, hr₄, hrel₄⟩ :=
      parseline_prints h line fuel s₃ _ (by omega) hle₃ hr₃ fun t ht => by cases ht; decide
    obtain ⟨s₅, hpeek₅, hs₅, hle₅, hr₅⟩ := peek_renders h hle₄ hr₄ [chr ')']
    rw [startsIn_cons, decide_eq_true (by decide)] at hpeek₅
    obtain ⟨w₆, s₆, htok₆, hlt₆, hle₆, hr₆, -⟩ := gettoken_renders h hr₅ (by simp)
    obtain ⟨cmd₇, s₇, hrun₇, hs₇, hle₇, hr₇, hrel₇⟩ :=
      parseredirs_prints h redirs fuel (by omega) hle₆ hr₆ (startsIn_eq_false hnext (by decide))
        hrel₄
    refine ⟨cmd₇, s₇, ?_, by omega, hle₇, hr₇, hrel₇⟩
    rw [parseexec, bind_of_ok hpeek₁, if_pos rfl, parseblock, bind_of_ok hpeek₂,
      if_neg (by decide), bind_of_ok htok₃, bind_of_ok hrun₄, bind_of_ok hpeek₅,
      if_neg (by decide), bind_of_ok htok₆]
    exact hrun₇

end

end Xv6.Sh
