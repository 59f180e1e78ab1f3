import Xv6.Sh.Lexer

set_option autoImplicit false

/-! # What the parser accepts

Where the parser returns a tree, the text it has read renders the tokens of a command with that
tree; otherwise it panics. By induction on the fuel, four units for each character left. -/

namespace Xv6.Sh

open Lib

variable {buf : List Byte} {es s : Nat} {α : Type}

/-- The shell's own `panic`. -/
def Stop.IsPanic : Stop → Prop
  | panic _ => True
  | _ => False

/-- From `s` to `s'` the text renders the tokens, and the tree is the one given. -/
def Parsed (buf : List Byte) (es s s' : Nat) (cmd : Cmd Span) (tree : Cmd (List Byte))
    (tokens : List Token) : Prop :=
  s ≤ s' ∧ s' ≤ es ∧ cmd.Rel (Reads buf es) tree ∧
    ∀ toks, Renders toks (left buf es s') → Renders (tokens ++ toks) (left buf es s)

/-! ## Peeking and taking a token -/

/-- Code that peeks first: what it finds is the first character of a token. -/
theorem triple_peek (h : IsString buf es) (hs : s ≤ es) {p : List Byte} {f : Bool → Parser α}
    {Q : α → Nat → Prop}
    (ht : ∀ t w s', Step buf es (skipBlanks buf es s) t w s' → t.first ∈ p →
      Triple Stop.IsPanic (fun u => u = skipBlanks buf es s) (f true) Q)
    (hf : Triple Stop.IsPanic (fun u => u = skipBlanks buf es s) (f false) Q) :
    Triple Stop.IsPanic (fun u => u = s) (peek buf es p >>= f) Q := by
  intro u hu
  rw [hu]
  rcases Step.total h s with blank | ⟨t, w, s', hstep⟩
  · rw [bind_of_ok (peek_end h hs blank p), ← skipBlanks_end h hs blank]
    exact hf _ rfl
  · obtain ⟨-, -, -, -, hskip⟩ := hstep.left_q
    rw [bind_of_ok (peek_step h hstep p), ← hskip]
    by_cases hp : t.first ∈ p
    · rw [decide_eq_true hp]
      exact ht t w s' (hskip ▸ hstep.peeked) hp _ rfl
    · rw [decide_eq_false hp]
      exact hf _ rfl

/-- Code that takes a token which is known to come next. -/
theorem triple_take (h : IsString buf es) {t : Token} {w : Span} {s' : Nat}
    (hstep : Step buf es s t w s') {f : Byte × Span → Parser α} {Q : α → Nat → Prop}
    (hf : Triple Stop.IsPanic (fun u => u = s') (f (t.code, w)) Q) :
    Triple Stop.IsPanic (fun u => u = s) (gettoken buf es >>= f) Q := by
  rintro _ rfl
  rw [bind_of_ok (gettoken_step h hstep)]
  exact hf _ rfl

/-- Code that takes a token, if there is one. -/
theorem triple_gettoken (h : IsString buf es) (hs : s ≤ es) {f : Byte × Span → Parser α}
    {Q : α → Nat → Prop}
    (hend : (∀ c ∈ left buf es s, c ∈ whitespace) →
      Triple Stop.IsPanic (fun u => u = es) (f (0, ⟨es, es⟩)) Q)
    (ht : ∀ t w s', Step buf es s t w s' →
      Triple Stop.IsPanic (fun u => u = s') (f (t.code, w)) Q) :
    Triple Stop.IsPanic (fun u => u = s) (gettoken buf es >>= f) Q := by
  rcases Step.total h s with blank | ⟨t, w, s', hstep⟩
  · rintro _ rfl
    rw [bind_of_ok (gettoken_end h hs blank)]
    exact hend blank _ rfl
  · exact triple_take h hstep (ht t w s' hstep)

theorem triple_panic (msg : String) {P : Nat → Prop} {Q : α → Nat → Prop} :
    Triple Stop.IsPanic P (throw (.panic msg) : Parser α) Q :=
  Triple.throw _ fun _ _ => trivial

/-! ## Putting renderings together -/

variable {cmd cmd' : Cmd Span} {tree tree' : Cmd (List Byte)} {tokens tokens' : List Token}
  {s' s'' : Nat} {t : Token} {w : Span}

theorem Parsed.skip (h : IsString buf es) (hs : s ≤ es) (hrel : cmd.Rel (Reads buf es) tree) :
    Parsed buf es s (skipBlanks buf es s) cmd tree [] :=
  ⟨le_skipBlanks, skipBlanks_le h hs, hrel, fun _ hr => renders_skipBlanks hr⟩

/-- After a command that has been read, more is read into it. -/
theorem Parsed.trans (h : Parsed buf es s s' cmd tree tokens)
    (h' : Parsed buf es s' s'' cmd' tree' tokens') :
    Parsed buf es s s'' cmd' tree' (tokens ++ tokens') :=
  ⟨h.1.trans h'.1, h'.2.1, h'.2.2.1, fun toks hr => by
    rw [List.append_assoc]
    exact h.2.2.2 _ (h'.2.2.2 toks hr)⟩

theorem Parsed.step (hstr : IsString buf es) (hstep : Step buf es s t w s')
    (h : Parsed buf es s' s'' cmd tree tokens) : Parsed buf es s s'' cmd tree (t :: tokens) := by
  have hlt := hstep.lt hstr
  exact ⟨by have := h.1; omega, h.2.1, h.2.2.1, fun toks hr => hstep.renders (h.2.2.2 toks hr)⟩

theorem Parsed.of_skipBlanks (h : Parsed buf es (skipBlanks buf es s) s' cmd tree tokens) :
    Parsed buf es s s' cmd tree tokens :=
  ⟨le_skipBlanks.trans h.1, h.2.1, h.2.2.1, fun toks hr => renders_skipBlanks (h.2.2.2 toks hr)⟩

theorem Parsed.end (h : IsString buf es) (hs : s ≤ es)
    (blank : ∀ c ∈ left buf es s, c ∈ whitespace) (hrel : cmd.Rel (Reads buf es) tree) :
    Parsed buf es s es cmd tree [] := by
  have hskip := Parsed.skip h hs hrel
  rwa [skipBlanks_end h hs blank] at hskip

/-! ## The loops -/

theorem token_code_eq_word (h : t.code = chr 'a') : ∃ v, t = .word v := by
  cases t with
  | word v => exact ⟨v, rfl⟩
  | _ => exact absurd h (by decide)

theorem Token.code_ne_zero (t : Token) : t.code ≠ 0 := by
  cases t with
  | word v => exact (by decide : chr 'a' ≠ 0)
  | _ => decide

/-- A token of one character is known by it. -/
theorem Token.eq_of_first {t u : Token} (hu : u.isWord = false) (hgt : u.first ≠ chr '>')
    (h : t.first = u.first) : t = u := by
  cases t with
  | word v => exact absurd (h ▸ u.first_mem_symbols hu) v.first_plain.2.2
  | gt => exact absurd h.symm hgt
  | append => exact absurd h.symm hgt
  | _ =>
    cases u with
    | word v => cases hu
    | _ => first | rfl | exact absurd h (by decide)

theorem exists_redirOp (h : t.first ∈ [chr '<', chr '>']) : ∃ op : RedirOp, t = op.token := by
  cases t with
  | lt => exact ⟨.input, rfl⟩
  | gt => exact ⟨.output, rfl⟩
  | append => exact ⟨.append, rfl⟩
  | word v =>
      refine absurd ?_ v.first_plain.2.2
      exact (by decide : ∀ c ∈ [chr '<', chr '>'], c ∈ symbols) _ h
  | _ => exact absurd h (by decide)

theorem parseredirs_parses (h : IsString buf es) (fuel : Nat) {s : Nat} {cmd : Cmd Span}
    {tree : Cmd (List Byte)} (hfuel : es - s < fuel) (hs : s ≤ es)
    (hrel : cmd.Rel (Reads buf es) tree) :
    Triple Stop.IsPanic (fun u => u = s) (parseredirs buf es fuel cmd) fun cmd' s' =>
      ∃ rs, Parsed buf es s s' cmd' (wrapAll tree rs) (redirTokens rs) := by
  induction fuel generalizing s cmd tree with
  | zero => omega
  | succ fuel ih =>
    refine triple_peek h hs ?_ ?_
    · intro t w s₁ hstep hfirst
      obtain ⟨op, rfl⟩ := exists_redirOp hfirst
      have hlt₁ := hstep.lt h
      refine triple_take h hstep (triple_gettoken h hlt₁.2.2.2.2 ?_ ?_)
      · exact fun _ => triple_panic _
      · intro t₂ w₂ s₂ hstep₂
        refine Triple.ite (fun _ => triple_panic _) fun hcode => ?_
        obtain ⟨file, rfl⟩ := token_code_eq_word (not_not.mp hcode)
        have hlt₂ := hstep₂.lt h
        have hskip := @le_skipBlanks buf es s
        refine Triple.conseq (ih (by omega) hlt₂.2.2.2.2 (redircmd_rel (r := ⟨op, file⟩) hrel (hstep₂.reads h)))
          (fun _ hu => hu) ?_
        rintro cmd' s' ⟨rs, hparsed⟩
        exact ⟨⟨op, file⟩ :: rs,
          ((hparsed.step h hstep₂).step h hstep).of_skipBlanks⟩
    · refine Triple.pure _ ?_
      rintro _ rfl
      exact ⟨[], Parsed.skip h hs hrel⟩

theorem parseargs_parses (h : IsString buf es) (fuel : Nat) {s argc : Nat} {ret : Cmd Span}
    {tree : Cmd (List Byte)} (hfuel : es - s < fuel) (hs : s ≤ es) (hargc : argc ≤ MAXARGS - 1)
    (hrel : ret.Rel (Reads buf es) tree) :
    Triple Stop.IsPanic (fun u => u = s) (parseargs buf es fuel ret argc) fun cmd' s' =>
      ∃ args, argc + args.length ≤ MAXARGS - 1 ∧
        Parsed buf es s s' cmd' (addArgs tree args) (argTokens args) := by
  have hMAX : MAXARGS = 10 := rfl
  induction fuel generalizing s argc ret tree with
  | zero => omega
  | succ fuel ih =>
    refine triple_peek h hs ?_ ?_
    · intro t w s₁ hstep hfirst
      refine Triple.ite (fun _ => ?_) (fun hcon => absurd rfl hcon)
      refine Triple.ite (fun _ => Triple.pure _ ?_) (fun hcon => absurd (by omega) hcon)
      rintro _ rfl
      exact ⟨[], hargc, Parsed.skip h hs hrel⟩
    · have hle := skipBlanks_le h hs
      refine triple_gettoken h hle ?_ ?_
      · intro blank
        refine Triple.ite (fun _ => ?_) (fun hcon => absurd rfl hcon)
        refine Triple.ite (fun _ => Triple.pure _ ?_) (fun hcon => absurd (by omega) hcon)
        rintro _ rfl
        exact ⟨[], hargc, (Parsed.end h hle blank hrel).of_skipBlanks⟩
      · intro t w s₁ hstep
        refine Triple.ite (fun hzero => absurd hzero t.code_ne_zero) fun _ => ?_
        refine Triple.ite (fun _ => triple_panic _) fun hcode => ?_
        obtain ⟨v, rfl⟩ := token_code_eq_word (not_not.mp hcode)
        refine Triple.ite (fun _ => ?_) (fun hcon => absurd (by omega) hcon)
        refine Triple.ite (fun _ => triple_panic _) fun hmax => ?_
        have hlt := hstep.lt h
        have hskip := @le_skipBlanks buf es s
        refine Triple.bind (parseredirs_parses h fuel (by omega) hlt.2.2.2.2
          (hrel.addArg (hstep.reads h))) fun ret₂ => Triple.each ?_
        rintro s₂ ⟨rs, hparsed⟩
        have hmono := hparsed.1
        refine Triple.conseq (ih (by omega) hparsed.2.1 (by omega) hparsed.2.2.1)
          (fun _ hu => hu) ?_
        rintro cmd' s' ⟨args, hlen, hparsed'⟩
        refine ⟨(v, rs) :: args, by rw [List.length_cons]; omega, ?_⟩
        exact ((hparsed.trans hparsed').step h hstep).of_skipBlanks

theorem parsebacks_parses (h : IsString buf es) (fuel : Nat) {s : Nat} {cmd : Cmd Span}
    {tree : Cmd (List Byte)} (hfuel : es - s < fuel) (hs : s ≤ es)
    (hrel : cmd.Rel (Reads buf es) tree) :
    Triple Stop.IsPanic (fun u => u = s) (parsebacks buf es fuel cmd) fun cmd' s' =>
      ∃ n, Parsed buf es s s' cmd' (.back^[n] tree) (List.replicate n .amp) := by
  induction fuel generalizing s cmd tree with
  | zero => omega
  | succ fuel ih =>
    refine triple_peek h hs ?_ ?_
    · intro t w s₁ hstep hfirst
      obtain rfl : t = .amp := Token.eq_of_first rfl (by decide) (List.mem_singleton.mp hfirst)
      have hlt := hstep.lt h
      have hskip := @le_skipBlanks buf es s
      refine triple_take h hstep (Triple.conseq (ih (by omega) hlt.2.2.2.2 (.back hrel))
        (fun _ hu => hu) ?_)
      rintro cmd' s' ⟨n, hparsed⟩
      exact ⟨n + 1, (hparsed.step h hstep).of_skipBlanks⟩
    · refine Triple.pure _ ?_
      rintro _ rfl
      exact ⟨0, Parsed.skip h hs hrel⟩

/-! ## The recursion -/

/-- The four parsers of the recursion, with enough fuel. -/
def LineParses (buf : List Byte) (es fuel : Nat) : Prop :=
  ∀ s, s ≤ es → 4 * (es - s) + 4 ≤ fuel →
    Triple Stop.IsPanic (fun u => u = s) (parseline buf es fuel) fun cmd s' =>
      ∃ line : Line, Parsed buf es s s' cmd line.tree line.tokens

def PipeParses (buf : List Byte) (es fuel : Nat) : Prop :=
  ∀ s, s ≤ es → 4 * (es - s) + 3 ≤ fuel →
    Triple Stop.IsPanic (fun u => u = s) (parsepipe buf es fuel) fun cmd s' =>
      ∃ pipe : Pipe, Parsed buf es s s' cmd pipe.tree pipe.tokens

def ExecParses (buf : List Byte) (es fuel : Nat) : Prop :=
  ∀ s, s ≤ es → 4 * (es - s) + 2 ≤ fuel →
    Triple Stop.IsPanic (fun u => u = s) (parseexec buf es fuel) fun cmd s' =>
      ∃ exec : Exec, Parsed buf es s s' cmd exec.tree exec.tokens

def BlockParses (buf : List Byte) (es fuel : Nat) : Prop :=
  ∀ s, s ≤ es → 4 * (es - s) + 1 ≤ fuel →
    Triple Stop.IsPanic (fun u => u = s) (parseblock buf es fuel) fun cmd s' =>
      ∃ exec : Exec, Parsed buf es s s' cmd exec.tree exec.tokens

variable {fuel : Nat}

theorem parseline_parses (h : IsString buf es) (hline : LineParses buf es fuel)
    (hpipe : PipeParses buf es fuel) : LineParses buf es (fuel + 1) := by
  intro s hs hfuel
  refine Triple.bind (hpipe s hs (by omega)) fun cmd₁ => Triple.each ?_
  rintro s₁ ⟨pipe, hp₁⟩
  have hle₁ := hp₁.1
  refine Triple.bind (parsebacks_parses h fuel (by omega) hp₁.2.1 hp₁.2.2.1) fun cmd₂ =>
    Triple.each ?_
  rintro s₂ ⟨amps, hp₂⟩
  have hle₂ := hp₂.1
  refine triple_peek h hp₂.2.1 ?_ ?_
  · intro t w s₃ hstep hfirst
    obtain rfl : t = .semi := Token.eq_of_first rfl (by decide) (List.mem_singleton.mp hfirst)
    have hlt := hstep.lt h
    have hskip := @le_skipBlanks buf es s₂
    refine triple_take h hstep ?_
    refine Triple.bind (hline s₃ hlt.2.2.2.2 (by omega)) fun right => Triple.pure _ ?_
    rintro s₄ ⟨line, hp₄⟩
    have hp := (hp₁.trans hp₂).trans (hp₄.step h hstep).of_skipBlanks
    exact ⟨.semi pipe amps line, hp.1, hp.2.1, .list hp₂.2.2.1 hp₄.2.2.1, hp.2.2.2⟩
  · refine Triple.pure _ ?_
    rintro _ rfl
    have hp := (hp₁.trans hp₂).trans (Parsed.skip h hp₂.2.1 hp₂.2.2.1)
    rw [List.append_nil] at hp
    exact ⟨.one pipe amps, hp⟩

theorem parsepipe_parses (h : IsString buf es) (hpipe : PipeParses buf es fuel)
    (hexec : ExecParses buf es fuel) : PipeParses buf es (fuel + 1) := by
  intro s hs hfuel
  refine Triple.bind (hexec s hs (by omega)) fun cmd₁ => Triple.each ?_
  rintro s₁ ⟨exec, hp₁⟩
  have hle₁ := hp₁.1
  refine triple_peek h hp₁.2.1 ?_ ?_
  · intro t w s₂ hstep hfirst
    obtain rfl : t = .bar := Token.eq_of_first rfl (by decide) (List.mem_singleton.mp hfirst)
    have hlt := hstep.lt h
    have hskip := @le_skipBlanks buf es s₁
    refine triple_take h hstep ?_
    refine Triple.bind (hpipe s₂ hlt.2.2.2.2 (by omega)) fun right => Triple.pure _ ?_
    rintro s₃ ⟨pipe, hp₃⟩
    have hp := hp₁.trans (hp₃.step h hstep).of_skipBlanks
    exact ⟨.bar exec pipe, hp.1, hp.2.1, .pipe hp₁.2.2.1 hp₃.2.2.1, hp.2.2.2⟩
  · refine Triple.pure _ ?_
    rintro _ rfl
    have hp := hp₁.trans (Parsed.skip h hp₁.2.1 hp₁.2.2.1)
    rw [List.append_nil] at hp
    exact ⟨.one exec, hp⟩

theorem parseexec_parses (h : IsString buf es) (hblock : BlockParses buf es fuel) :
    ExecParses buf es (fuel + 1) := by
  intro s hs hfuel
  have hskip := @le_skipBlanks buf es s
  have hle := skipBlanks_le h hs
  refine triple_peek h hs ?_ ?_
  · intro t w s₁ hstep hfirst
    refine Triple.conseq (hblock _ hle (by omega)) (fun _ hu => hu) ?_
    rintro cmd s' ⟨exec, hp⟩
    exact ⟨exec, hp.of_skipBlanks⟩
  · have hempty : Cmd.Rel (Reads buf es) (.exec []) (.exec []) := .exec .nil
    refine Triple.bind (parseredirs_parses h fuel (by omega) hle hempty) fun ret => Triple.each ?_
    rintro s₁ ⟨redirs, hp₁⟩
    have hle₁ := hp₁.1
    refine Triple.conseq (parseargs_parses h fuel (by omega) hp₁.2.1 (Nat.zero_le _) hp₁.2.2.1)
      (fun _ hu => hu) ?_
    rintro cmd s' ⟨args, few, hp₂⟩
    have hp := (hp₁.trans hp₂).of_skipBlanks
    rw [addArgs_wrapAll, List.nil_append] at hp
    exact ⟨.simple redirs args (by omega), hp⟩

theorem parseblock_parses (h : IsString buf es) (hline : LineParses buf es fuel) :
    BlockParses buf es (fuel + 1) := by
  intro s hs hfuel
  have hskip := @le_skipBlanks buf es s
  refine triple_peek h hs ?_ (triple_panic _)
  intro t w s₁ hstep hfirst
  obtain rfl : t = .lpar := Token.eq_of_first rfl (by decide) (List.mem_singleton.mp hfirst)
  have hlt := hstep.lt h
  refine triple_take h hstep ?_
  refine Triple.bind (hline s₁ hlt.2.2.2.2 (by omega)) fun cmd₂ => Triple.each ?_
  rintro s₂ ⟨line, hp₂⟩
  have hle₂ := hp₂.1
  have hskip₂ := @le_skipBlanks buf es s₂
  refine triple_peek h hp₂.2.1 ?_ (triple_panic _)
  intro t₃ w₃ s₃ hstep₃ hfirst₃
  obtain rfl : t₃ = .rpar := Token.eq_of_first rfl (by decide) (List.mem_singleton.mp hfirst₃)
  have hlt₃ := hstep₃.lt h
  refine triple_take h hstep₃ ?_
  refine Triple.conseq (parseredirs_parses h fuel (by omega) hlt₃.2.2.2.2 hp₂.2.2.1)
    (fun _ hu => hu) ?_
  rintro cmd s' ⟨redirs, hp₄⟩
  have hp := ((hp₂.trans (hp₄.step h hstep₃).of_skipBlanks).step h hstep).of_skipBlanks
  exact ⟨.block line redirs, hp⟩

/-- With enough fuel the parser panics or reads a line. -/
theorem parses (h : IsString buf es) (fuel : Nat) :
    LineParses buf es fuel ∧ PipeParses buf es fuel ∧ ExecParses buf es fuel ∧
      BlockParses buf es fuel := by
  induction fuel with
  | zero =>
    refine ⟨?_, ?_, ?_, ?_⟩ <;> · intro s hs hfuel; omega
  | succ fuel ih =>
    obtain ⟨hline, hpipe, hexec, hblock⟩ := ih
    exact ⟨parseline_parses h hline hpipe, parsepipe_parses h hpipe hexec,
      parseexec_parses h hblock, parseblock_parses h hline⟩

end Xv6.Sh
