import Xv6.Sh.Prints
import Xv6.Sh.Parses

set_option autoImplicit false

/-! # The parser inverts printing

`nulterminate` ends each string of the tree where its word ends: no NUL falls inside another word,
for a word ends before a character that cannot stand in one. -/

namespace Xv6.Sh

open Lib

variable {buf : List Byte} {es s : Nat}

/-! ## NUL-terminating -/

/-- The spans of the strings of a tree. -/
def Cmd.spans : Cmd Span → List Span
  | exec argv => argv
  | redir cmd file _ _ => cmd.spans ++ [file]
  | pipe left right => left.spans ++ right.spans
  | list left right => left.spans ++ right.spans
  | back cmd => cmd.spans

/-- The buffer with a NUL at the end of each span. -/
def blank (buf : List Byte) (ws : List Span) : List Byte :=
  ws.foldl (fun buf w => buf.set w.eq 0) buf

theorem nulterminate_eq_blank (cmd : Cmd Span) (buf : List Byte) :
    nulterminate cmd buf = blank buf cmd.spans := by
  induction cmd generalizing buf with
  | exec argv => rfl
  | redir cmd file mode fd ih =>
      rw [nulterminate, ih, Cmd.spans, blank, blank, List.foldl_append]
      rfl
  | pipe left right ihl ihr =>
      rw [nulterminate, ihl, ihr, Cmd.spans, blank, blank, blank, List.foldl_append]
  | list left right ihl ihr =>
      rw [nulterminate, ihl, ihr, Cmd.spans, blank, blank, blank, List.foldl_append]
  | back cmd ih => exact ih buf

theorem getElem?_blank (ws : List Span) (buf : List Byte) (i : Nat) :
    (blank buf ws)[i]? = if ∃ w ∈ ws, w.eq = i then buf[i]?.map fun _ => 0 else buf[i]? := by
  induction ws generalizing buf with
  | nil => simp [blank]
  | cons w ws ih =>
    have hset : (buf.set w.eq 0)[i]? = if w.eq = i then buf[i]?.map fun _ => 0 else buf[i]? := by
      by_cases hi : w.eq = i
      · rw [if_pos hi, hi, List.getElem?_set_self']
        rfl
      · rw [if_neg hi, List.getElem?_set_ne hi]
    rw [show blank buf (w :: ws) = blank (buf.set w.eq 0) ws from rfl, ih, hset]
    by_cases hi : w.eq = i
    · have hmem : ∃ w' ∈ w :: ws, w'.eq = i := ⟨w, List.mem_cons_self .., hi⟩
      rw [if_pos hi, if_pos hmem, Option.map_map]
      split <;> rfl
    · have hmem : (∃ w' ∈ w :: ws, w'.eq = i) ↔ ∃ w' ∈ ws, w'.eq = i := by simp [hi]
      simp only [if_neg hi, hmem]

/-- A string is found where its characters and a NUL stand. -/
theorem stringAt_eq {buf x : List Byte} {q : Nat} (hx : ∀ c ∈ x, c ≠ 0)
    (hchars : ∀ i, i < x.length → buf[q + i]? = x[i]?) (hnul : buf[q + x.length]? = some 0) :
    stringAt buf q = some x := by
  have hdrop : buf.drop q = x ++ 0 :: (buf.drop (q + x.length + 1)) := by
    refine List.ext_getElem? fun i => ?_
    rw [List.getElem?_drop]
    rcases lt_trichotomy i x.length with hi | rfl | hi
    · rw [hchars i hi, List.getElem?_append_left hi]
    · rw [hnul, List.getElem?_append_right (le_refl _), Nat.sub_self, List.getElem?_cons_zero]
    · obtain ⟨k, rfl⟩ : ∃ k, i = x.length + 1 + k := ⟨i - x.length - 1, by omega⟩
      rw [List.getElem?_append_right (by omega), show x.length + 1 + k - x.length = k + 1 by omega,
        List.getElem?_cons_succ, List.getElem?_drop]
      congr 1
      omega
  have htake : (x ++ (0 : Byte) :: buf.drop (q + x.length + 1)).takeWhile (· ≠ 0) = x := by
    rw [List.takeWhile_append_of_pos (by simpa using hx)]
    simp
  rw [stringAt, hdrop, if_pos (by simp), htake]

theorem getElem?_left {i : Nat} (hi : s + i < es) :
    (left buf es s)[i]? = buf[s + i]? := by
  rw [left, List.getElem?_drop, List.getElem?_take_of_lt hi]

/-- The string of each span is found once NULs stand at the ends of words. -/
theorem stringAt_blank (h : IsString buf es) {ws : List Span}
    (hws : ∀ w ∈ ws, ∃ x, Reads buf es w x) {w : Span} {x : List Byte} (hw : w ∈ ws)
    (hx : Reads buf es w x) : stringAt (blank buf ws) w.q = some x := by
  obtain ⟨v, rfl, hleft, heq, hle, -⟩ := hx
  have hchars : ∀ i, i < v.chars.length → buf[w.q + i]? = v.chars[i]? := by
    intro i hi
    have hlt : w.q + i < es := by omega
    rw [← getElem?_left hlt, hleft, List.getElem?_append_left hi]
  refine stringAt_eq (fun c hc => (v.plain c hc).1) (fun i hi => ?_) ?_
  · have hnot : ¬ ∃ w' ∈ ws, w'.eq = w.q + i := by
      rintro ⟨w', hw', hend⟩
      obtain ⟨x', v', rfl, -, -, -, hends⟩ := hws w' hw'
      have hc : (left buf es w'.eq).head? = some v.chars[i] := by
        rw [List.head?_eq_getElem?, getElem?_left (by omega), Nat.add_zero, hend,
          hchars i hi, List.getElem?_eq_getElem hi]
      have hplain := v.plain _ (List.getElem_mem hi)
      rcases hends _ hc with hblank | hsym
      · exact hplain.2.1 hblank
      · exact hplain.2.2 hsym
    rw [getElem?_blank, if_neg hnot, hchars i hi]
  · have hlt := h.lt
    rw [getElem?_blank, if_pos ⟨w, hw, heq⟩, List.getElem?_eq_getElem (by omega)]
    rfl

/-! ## The strings of the tree -/

theorem Cmd.Rel.reads {R : Span → List Byte → Prop} {cmd : Cmd Span} {tree : Cmd (List Byte)}
    (h : cmd.Rel R tree) : ∀ w ∈ cmd.spans, ∃ x, R w x := by
  induction h with
  | exec h =>
      induction h with
      | nil => exact fun w hw => absurd hw List.not_mem_nil
      | @cons w x ws xs hx h ih =>
          rw [Cmd.spans, List.forall_mem_cons]
          exact ⟨⟨x, hx⟩, ih⟩
  | redir h hf ih =>
      intro w hw
      rcases List.mem_append.mp hw with hw | hw
      · exact ih w hw
      · rw [List.mem_singleton.mp hw]
        exact ⟨_, hf⟩
  | pipe h h' ih ih' => exact fun w hw => (List.mem_append.mp hw).elim (ih w) (ih' w)
  | list h h' ih ih' => exact fun w hw => (List.mem_append.mp hw).elim (ih w) (ih' w)
  | back h ih => exact ih

theorem Cmd.Rel.map_eq {R : Span → List Byte → Prop} {f : Span → Option (List Byte)}
    {cmd : Cmd Span} {tree : Cmd (List Byte)} (h : cmd.Rel R tree)
    (hf : ∀ w x, w ∈ cmd.spans → R w x → f w = some x) : cmd.map f = tree.map some := by
  induction h with
  | @exec as bs h =>
      have hmap : as.map f = bs.map some := by
        clear * - h hf
        induction h with
        | nil => rfl
        | cons hR h ih =>
            rw [List.map_cons, List.map_cons, hf _ _ (List.mem_cons_self ..) hR,
              ih fun w x hw => hf w x (List.mem_cons_of_mem _ hw)]
      rw [map, map, hmap]
  | redir h hR ih =>
      rw [map, map, ih fun w x hw => hf w x (List.mem_append_left _ hw),
        hf _ _ (List.mem_append_right _ (List.mem_singleton_self _)) hR]
  | pipe h h' ih ih' =>
      rw [map, map, ih fun w x hw => hf w x (List.mem_append_left _ hw),
        ih' fun w x hw => hf w x (List.mem_append_right _ hw)]
  | list h h' ih ih' =>
      rw [map, map, ih fun w x hw => hf w x (List.mem_append_left _ hw),
        ih' fun w x hw => hf w x (List.mem_append_right _ hw)]
  | back h ih => rw [map, map, ih hf]

theorem map_nulterminate (h : IsString buf es) {cmd : Cmd Span} {tree : Cmd (List Byte)}
    (hrel : cmd.Rel (Reads buf es) tree) :
    cmd.map (fun w => stringAt (nulterminate cmd buf) w.q) = tree.map some := by
  rw [nulterminate_eq_blank]
  exact hrel.map_eq fun w x hw hx => stringAt_blank h hrel.reads hw hx

/-! ## The whole string -/

variable {text rest : List Byte}

theorem strlen_eq (hnul : 0 ∉ text) : strlen (text ++ 0 :: rest) = text.length := by
  rw [strlen, List.idxOf_append_of_notMem hnul, List.idxOf_cons_self, Nat.add_zero]

theorem isString (hnul : 0 ∉ text) : IsString (text ++ 0 :: rest) text.length where
  lt := by simp
  nul := by simp
  ne_zero := by
    rw [List.take_left]
    exact fun c hc hzero => hnul (hzero ▸ hc)

theorem left_zero (text rest : List Byte) : left (text ++ 0 :: rest) text.length 0 = text := by
  rw [left, List.drop_zero, List.take_left]

/-- The part of `parsecmd` that reads the string. -/
def readAll (buf : List Byte) (es : Nat) : Parser (Cmd Span) := do
  let cmd ← parseline buf es (4 * es + 4)
  let _ ← peek buf es []
  let s ← get
  if s ≠ es then throw (.panic "syntax") else pure cmd

theorem parsecmd_eq (hnul : 0 ∉ text) : parsecmd (text ++ 0 :: rest) =
    (readAll (text ++ 0 :: rest) text.length 0).map fun r =>
      (r.1, nulterminate r.1 (text ++ 0 :: rest)) := by
  rw [parsecmd, strlen_eq hnul]
  rfl

theorem readAll_prints (h : IsString buf es) (line : Line)
    (hr : Renders line.tokens (left buf es 0)) :
    ∃ cmd, readAll buf es 0 = .ok (cmd, es) ∧ cmd.Rel (Reads buf es) line.tree := by
  rw [← List.append_nil line.tokens] at hr
  obtain ⟨cmd, s₁, hrun, -, hle, hr₁, hrel⟩ := parseline_prints h line (4 * es + 4) 0 []
    (by omega) (Nat.zero_le _) hr fun t ht => by cases ht
  refine ⟨cmd, ?_, hrel⟩
  rw [readAll, bind_of_ok hrun, bind_of_ok (peek_end h hle hr₁.blank []), bind_of_ok (get_eq es),
    if_neg (fun hne => hne rfl)]
  rfl

theorem readAll_parses (h : IsString buf es) :
    Triple Stop.IsPanic (fun u => u = 0) (readAll buf es) fun cmd _ =>
      ∃ line : Line, Renders line.tokens (left buf es 0) ∧ cmd.Rel (Reads buf es) line.tree := by
  refine Triple.bind ((parses h (4 * es + 4)).1 0 (Nat.zero_le _) (by omega)) fun cmd =>
    Triple.each ?_
  rintro s₁ ⟨line, -, hle, hrel, hrend⟩
  -- no character is in the empty string
  refine triple_peek h hle (fun t w s' hstep hfirst => absurd hfirst List.not_mem_nil) ?_
  refine Triple.bind_get ?_
  rintro _ rfl
  refine Triple.ite (fun _ => triple_panic _) fun heq => Triple.pure _ fun u hu => ?_
  refine ⟨line, ?_, hrel⟩
  rw [← List.append_nil line.tokens]
  refine hrend [] (renders_skipBlanks ?_)
  rw [not_not.mp heq, left_end h]
  exact .nil fun c hc => absurd hc List.not_mem_nil

/-- The parser inverts printing. On a string that renders a line it returns the tree of the line,
with every string NUL-terminated in the buffer; a string on which it returns renders a line with the
tree returned; and where it does not return, it panics: it neither runs out of fuel nor leaves the
string or `argv`. -/
theorem parsecmd_inverts (hnul : 0 ∉ text) :
    (∀ line : Line, Renders line.tokens text →
      ∃ cmd buf, parsecmd (text ++ 0 :: rest) = .ok (cmd, buf) ∧
        cmd.map (fun w => stringAt buf w.q) = line.tree.map some) ∧
    (∀ cmd buf, parsecmd (text ++ 0 :: rest) = .ok (cmd, buf) →
      ∃ line : Line, Renders line.tokens text ∧
        cmd.map (fun w => stringAt buf w.q) = line.tree.map some) ∧
    ∀ e, parsecmd (text ++ 0 :: rest) = .error e → ∃ msg, e = .panic msg := by
  have h : IsString (text ++ 0 :: rest) text.length := isString hnul
  have hparse := readAll_parses h 0 rfl
  rw [parsecmd_eq hnul]
  rw [left_zero] at hparse
  refine ⟨fun line hline => ?_, ?_, ?_⟩
  · rw [← left_zero text rest] at hline
    obtain ⟨cmd, hrun, hrel⟩ := readAll_prints h line hline
    rw [hrun]
    exact ⟨cmd, _, rfl, map_nulterminate h hrel⟩
  · intro cmd buf hrun
    cases hread : readAll (text ++ 0 :: rest) text.length 0 with
    | error e =>
        rw [hread] at hrun
        cases hrun
    | ok r =>
        rw [hread] at hrun hparse
        obtain ⟨line, hline, hrel⟩ := hparse
        cases hrun
        exact ⟨line, hline, map_nulterminate h hrel⟩
  · intro e hrun
    cases hread : readAll (text ++ 0 :: rest) text.length 0 with
    | ok r =>
        rw [hread] at hrun
        cases hrun
    | error e' =>
        rw [hread] at hrun hparse
        cases hrun
        cases e with
        | panic msg => exact ⟨msg, rfl⟩
        | wild => exact hparse.elim
        | fuel => exact hparse.elim

def echoWord : Word := ⟨['e', 'c', 'h', 'o'].map chr, by decide, by decide⟩
def aWord : Word := ⟨[chr 'a'], by decide, by decide⟩
def bWord : Word := ⟨[chr 'b'], by decide, by decide⟩

/-- The command `echo a > b`. -/
def echoLine : Line := .one (.one (.simple [] [(echoWord, []), (aWord, [⟨.output, bWord⟩])] (by decide))) 0

def echoText : List Byte := ['e', 'c', 'h', 'o', ' ', 'a', '>', 'b'].map chr

theorem renders_echoLine : Renders echoLine.tokens echoText := by
  have hnone : ∀ c ∈ ([] : List Byte), c ∈ whitespace := fun c hc => absurd hc List.not_mem_nil
  have hblank : ∀ c ∈ [chr ' '], c ∈ whitespace := by decide
  have hfile : Renders [.word bWord] [chr 'b'] :=
    .cons hnone (.nil hnone) fun _ h => absurd h (by simp)
  have hgt : Renders [.gt, .word bWord] (['>', 'b'].map chr) :=
    .cons hnone hfile fun h => absurd h (by decide)
  have harg : Renders [.word aWord, .gt, .word bWord] (chr ' ' :: ['a', '>', 'b'].map chr) :=
    .cons hblank hgt fun _ h => absurd h (by simp [Token.isWord])
  exact .cons hnone harg fun _ _ => ⟨chr ' ', rfl, by decide⟩

/-- In the buffer of a command line, with what was there before. -/
theorem parsecmd_inverts_echo : ∃ cmd buf, parsecmd (echoText ++ 0 :: [chr '\n']) = .ok (cmd, buf) ∧
    cmd.map (fun w => stringAt buf w.q) =
      .redir (.exec [some echoWord.chars, some aWord.chars]) (some bWord.chars) (O_WRONLY ||| O_CREATE ||| O_TRUNC) 1 :=
  (parsecmd_inverts (by decide)).1 echoLine renders_echoLine

end Xv6.Sh
