import Xv6.Sh.Grammar
import Mathlib.Data.List.TakeWhile

set_option autoImplicit false

/-! # One token at a time

What `gettoken` and `peek` do at a position of the string: `Step` says which token the position
stands before. -/

namespace Xv6.Sh

open Lib

variable {buf : List Byte} {es s s' : Nat}

/-- The buffer holds a string that ends at `es`. -/
structure IsString (buf : List Byte) (es : Nat) : Prop where
  lt : es < buf.length
  nul : buf.getD es 0 = 0
  ne_zero : ∀ c ∈ buf.take es, c ≠ 0

/-! ## Positions -/

theorem strchr_eq_true {l : List Byte} {c : Byte} : strchr l c = true ↔ c ∈ l := by
  simp [strchr]

theorem length_left (h : IsString buf es) : (left buf es s).length = es - s := by
  have := h.lt
  simp only [left, List.length_drop, List.length_take]
  omega

theorem left_add (n : Nat) : left buf es (s + n) = (left buf es s).drop n := by
  simp [left, List.drop_drop]

theorem ne_zero_of_mem_left (h : IsString buf es) {c : Byte} (hc : c ∈ left buf es s) : c ≠ 0 :=
  h.ne_zero c (List.mem_of_mem_drop hc)

theorem deref_eq (h : IsString buf es) (hs : s ≤ es) (s₀ : Nat) :
    deref buf es s s₀ = .ok ((left buf es s).headD 0, s₀) := by
  have hlt := h.lt
  have hget : buf.getD s 0 = (left buf es s).headD 0 := by
    rcases Nat.lt_or_eq_of_le hs with hs' | rfl
    · rw [left, List.drop_eq_getElem_cons (by simp; omega), List.headD_cons, List.getElem_take,
        List.getD_eq_getElem?_getD, List.getElem?_eq_getElem (by omega), Option.getD_some]
    · rw [h.nul, left, List.drop_of_length_le (by simp), List.headD_nil]
  rw [deref, if_pos hs, hget]
  rfl

theorem skipOver_eq (p : Byte → Bool) (l : List Byte) (s : Nat) :
    skipOver p l s = s + (l.takeWhile p).length := by
  induction l generalizing s with
  | nil => rfl
  | cons c l ih =>
    by_cases hc : p c
    · simp only [skipOver, hc, if_true, ih, List.takeWhile_cons_of_pos hc, List.length_cons]
      omega
    · simp [skipOver, hc]

theorem drop_length_takeWhile (p : Byte → Bool) (l : List Byte) :
    l.drop (l.takeWhile p).length = l.dropWhile p := by
  induction l with
  | nil => rfl
  | cons c l ih =>
    by_cases hc : p c
    · simpa [hc] using ih
    · simp [hc]

theorem left_skipBlanks :
    left buf es (skipBlanks buf es s) = (left buf es s).dropWhile (strchr whitespace) := by
  rw [skipBlanks, skipOver_eq, left_add, drop_length_takeWhile]

theorem le_skipBlanks : s ≤ skipBlanks buf es s := by
  rw [skipBlanks, skipOver_eq]
  exact Nat.le_add_right ..

theorem skipBlanks_le (h : IsString buf es) (hs : s ≤ es) : skipBlanks buf es s ≤ es := by
  have hlen := (List.takeWhile_prefix (l := left buf es s) (strchr whitespace)).length_le
  rw [length_left h] at hlen
  rw [skipBlanks, skipOver_eq]
  omega

/-! ## Blanks -/

variable {ws r l : List Byte} {t : Token}

theorem dropWhile_blank (blank : ∀ c ∈ ws, c ∈ whitespace) :
    (ws ++ l).dropWhile (strchr whitespace) = l.dropWhile (strchr whitespace) :=
  List.dropWhile_append_of_pos fun c hc => strchr_eq_true.mpr (blank c hc)

theorem dropWhile_token :
    (t.text ++ r).dropWhile (strchr whitespace) = t.text ++ r := by
  obtain ⟨l, hl⟩ := t.text_eq_cons
  have hws : ¬ strchr whitespace t.first = true := fun hc =>
    t.first_not_mem_whitespace (strchr_eq_true.mp hc)
  rw [hl, List.cons_append, List.dropWhile_cons_of_neg hws]

theorem exists_blank (l : List Byte) :
    ∃ ws, (∀ c ∈ ws, c ∈ whitespace) ∧ l = ws ++ l.dropWhile (strchr whitespace) :=
  ⟨l.takeWhile (strchr whitespace), fun _ hc => strchr_eq_true.mp (List.mem_takeWhile_imp hc),
    List.takeWhile_append_dropWhile.symm⟩

theorem skipBlanks_blank (hs : left buf es s = ws ++ l) (blank : ∀ c ∈ ws, c ∈ whitespace)
    (hl : l.dropWhile (strchr whitespace) = l) : skipBlanks buf es s = s + ws.length := by
  have htake : (ws ++ l).takeWhile (strchr whitespace) = ws := by
    have hsplit := List.takeWhile_append_dropWhile (p := strchr whitespace) (l := ws ++ l)
    rw [dropWhile_blank blank, hl] at hsplit
    exact List.append_cancel_right hsplit
  rw [skipBlanks, hs, skipOver_eq, htake]

/-! ## The code of a token -/

/-- What `gettoken` returns for the token. -/
def Token.code : Token → Byte
  | bar => chr '|'
  | amp => chr '&'
  | semi => chr ';'
  | lpar => chr '('
  | rpar => chr ')'
  | lt => chr '<'
  | gt => chr '>'
  | append => chr '+'
  | word _ => chr 'a'

/-- The token ends where the text goes on with `r`: a longer one does not start there. -/
def Ends : Token → List Byte → Prop
  | .word _, r => ∀ c ∈ r.head?, c ∈ whitespace ∨ c ∈ symbols
  | .gt, r => ∀ c ∈ r.head?, c ≠ chr '>'
  | _, _ => True

/-- Before `s'` stands the token `t`, after `s` and whitespace. -/
def Step (buf : List Byte) (es s : Nat) (t : Token) (w : Span) (s' : Nat) : Prop :=
  ∃ ws r, (∀ c ∈ ws, c ∈ whitespace) ∧ left buf es s = ws ++ t.text ++ r ∧ Ends t r ∧
    w = ⟨s + ws.length, s + ws.length + t.text.length⟩ ∧ s' = skipBlanks buf es w.eq

theorem inWord_eq_true {c : Byte} : inWord c = true ↔ c ∉ whitespace ∧ c ∉ symbols := by
  simp [inWord, strchr]

theorem takeWhile_word {w : Word} (h : Ends (.word w) r) :
    (w.chars ++ r).takeWhile inWord = w.chars := by
  rw [List.takeWhile_append_of_pos fun c hc => inWord_eq_true.mpr (w.plain c hc).2]
  cases r with
  | nil => simp
  | cons c r =>
    have hc : ¬ inWord c = true := by
      rw [inWord_eq_true, not_and_or, not_not, not_not]
      exact h c rfl
    rw [List.takeWhile_cons_of_neg hc, List.append_nil]

theorem scan_eq (h : IsString buf es) (hs : left buf es s = t.text ++ r) (hr : Ends t r)
    (hle : s ≤ es) (s₀ : Nat) : scan buf es s s₀ = .ok ((t.code, s + t.text.length), s₀) := by
  have hhead : (left buf es s).headD 0 = t.first := by
    obtain ⟨l, hl⟩ := t.text_eq_cons
    rw [hs, hl]
    rfl
  have hderef := deref_eq h hle s₀
  rw [hhead] at hderef
  rw [scan, bind_of_ok hderef]
  cases t with
  | word w =>
      have hsym := w.first_plain.2.2
      have hne : (Token.word w).first ≠ 0 := w.first_plain.1
      have hsingle : (Token.word w).first ∉ ['|', '(', ')', ';', '&', '<'].map chr := by
        intro hc
        refine hsym ?_
        revert hc
        generalize (Token.word w).first = c
        simp only [symbols, List.map_cons, List.map_nil, List.mem_cons, List.not_mem_nil, or_false]
        tauto
      have hgt : (Token.word w).first ≠ chr '>' := fun hc => hsym (hc ▸ by decide)
      rw [if_neg hne, if_neg hsingle, if_neg hgt, hs, skipOver_eq]
      show Except.ok ((chr 'a', s + _), s₀) = _
      rw [show (Token.word w).text = w.chars from rfl, takeWhile_word hr]
      rfl
  | gt =>
      have hs1 : left buf es (s + 1) = r := by
        rw [left_add, hs]
        rfl
      have hlt : s + 1 ≤ es := by
        have hlen := length_left (s := s) h
        rw [hs] at hlen
        simp only [Token.text, List.length_append, List.length_cons, List.length_nil] at hlen
        omega
      have hderef' := deref_eq h hlt s₀
      have hne : r.headD 0 ≠ chr '>' := by
        cases r with
        | nil => decide
        | cons c r => exact hr c rfl
      rw [if_neg (by decide), if_neg (by decide), if_pos (by decide), bind_of_ok hderef', hs1,
        if_neg hne]
      rfl
  | append =>
      have hs1 : left buf es (s + 1) = chr '>' :: r := by
        rw [left_add, hs]
        rfl
      have hlt : s + 1 ≤ es := by
        have hlen := length_left (s := s) h
        rw [hs] at hlen
        simp only [Token.text, List.length_append, List.length_cons, List.length_nil] at hlen
        omega
      have hderef' := deref_eq h hlt s₀
      rw [if_neg (by decide), if_neg (by decide), if_pos (by decide), bind_of_ok hderef', hs1,
        List.headD_cons, if_pos rfl]
      rfl
  | _ =>
      rw [if_neg (by decide), if_pos (by decide)]
      rfl

/-! ## `gettoken` and `peek` -/

variable {w : Span}

theorem get_eq (s : Nat) : (get : Parser Nat) s = .ok (s, s) := rfl

theorem advance_eq (hs : s' ≤ es) : advance es s' s = .ok (⟨⟩, s') := by
  rw [advance, if_pos hs]
  rfl

theorem Step.lt (h : IsString buf es) (hstep : Step buf es s t w s') :
    s ≤ w.q ∧ w.q < w.eq ∧ w.eq ≤ es ∧ w.eq ≤ s' ∧ s' ≤ es := by
  obtain ⟨ws, r, blank, hs, -, rfl, rfl⟩ := hstep
  obtain ⟨l, hl⟩ := t.text_eq_cons
  have hlen := length_left (s := s) h
  rw [hs, List.length_append, List.length_append] at hlen
  have hpos : 0 < t.text.length := by simp [hl]
  have hle : s + ws.length + t.text.length ≤ es := by omega
  exact ⟨Nat.le_add_right .., Nat.lt_add_of_pos_right hpos, hle, le_skipBlanks,
    skipBlanks_le h hle⟩

theorem Step.left_q (hstep : Step buf es s t w s') :
    ∃ r, left buf es w.q = t.text ++ r ∧ Ends t r ∧ w.eq = w.q + t.text.length ∧
      skipBlanks buf es s = w.q := by
  obtain ⟨ws, r, blank, hs, hr, rfl, rfl⟩ := hstep
  rw [List.append_assoc] at hs
  refine ⟨r, ?_, hr, rfl, skipBlanks_blank hs blank dropWhile_token⟩
  rw [left_add, hs, List.drop_left]

/-- What `gettoken` does before a token. -/
theorem gettoken_step (h : IsString buf es) (hstep : Step buf es s t w s') :
    gettoken buf es s = .ok ((t.code, w), s') := by
  have hle := hstep.lt h
  obtain ⟨r, hq, hr, heq, hskip⟩ := hstep.left_q
  have hscan := scan_eq h hq hr (by omega) s
  rw [← heq] at hscan
  obtain ⟨ws, r, -, -, -, -, rfl⟩ := hstep
  rw [gettoken, bind_of_ok (get_eq s), hskip, bind_of_ok hscan, bind_of_ok (advance_eq hle.2.2.2.2)]
  rfl

/-- What `peek` does before a character. -/
theorem peek_eq (h : IsString buf es) {c : Byte} (hs : left buf es s = ws ++ c :: l)
    (blank : ∀ c ∈ ws, c ∈ whitespace) (hc : c ∉ whitespace) (toks : List Byte) :
    peek buf es toks s = .ok (decide (c ∈ toks), skipBlanks buf es s) := by
  have hlen := length_left (s := s) h
  rw [hs, List.length_append, List.length_cons] at hlen
  have hskip : skipBlanks buf es s = s + ws.length :=
    skipBlanks_blank hs blank (List.dropWhile_cons_of_neg (by rwa [strchr_eq_true]))
  have hle : skipBlanks buf es s ≤ es := by omega
  have hleft : left buf es (skipBlanks buf es s) = c :: l := by
    rw [hskip, left_add, hs, List.drop_left]
  have hderef := deref_eq h hle (skipBlanks buf es s)
  rw [hleft, List.headD_cons] at hderef
  have hne : c ≠ 0 := ne_zero_of_mem_left h (s := s) (by simp [hs])
  have hfound : (decide (c ≠ 0) && strchr toks c) = decide (c ∈ toks) := by
    rw [decide_eq_true hne, Bool.true_and, strchr, List.contains_eq_mem]
  rw [peek, bind_of_ok (get_eq s), bind_of_ok (advance_eq hle), bind_of_ok hderef, hfound]
  rfl

/-- What `peek` does before a token. -/
theorem peek_step (h : IsString buf es) (hstep : Step buf es s t w s') (toks : List Byte) :
    peek buf es toks s = .ok (decide (t.first ∈ toks), w.q) := by
  obtain ⟨-, -, -, -, hskip⟩ := hstep.left_q
  obtain ⟨ws, r, blank, hs, -⟩ := hstep
  obtain ⟨l, hl⟩ := t.text_eq_cons
  rw [hl, List.append_assoc] at hs
  rw [← hskip]
  exact peek_eq h hs blank t.first_not_mem_whitespace toks

/-- The token still stands there after a `peek`. -/
theorem Step.peeked (hstep : Step buf es s t w s') : Step buf es w.q t w s' := by
  obtain ⟨r, hq, hr, heq, hskip⟩ := hstep.left_q
  obtain ⟨-, -, -, -, -, -, hs'⟩ := hstep
  refine ⟨[], r, fun c hc => absurd hc List.not_mem_nil, hq, hr, ?_, hs'⟩
  rw [List.length_nil, Nat.add_zero, ← heq]

theorem skipBlanks_end (h : IsString buf es) (hs : s ≤ es)
    (blank : ∀ c ∈ left buf es s, c ∈ whitespace) : skipBlanks buf es s = es := by
  have hskip := skipBlanks_blank (List.append_nil _).symm blank rfl
  rw [hskip, length_left h]
  omega

theorem left_end (h : IsString buf es) : left buf es es = [] := by
  rw [← List.length_eq_zero_iff, length_left h, Nat.sub_self]

/-- What `gettoken` does at the end. -/
theorem gettoken_end (h : IsString buf es) (hs : s ≤ es)
    (blank : ∀ c ∈ left buf es s, c ∈ whitespace) :
    gettoken buf es s = .ok ((0, ⟨es, es⟩), es) := by
  have hderef := deref_eq h (le_refl es) s
  rw [left_end h, List.headD_nil] at hderef
  have hscan : scan buf es es s = .ok ((0, es), s) := by
    rw [scan, bind_of_ok hderef]
    rfl
  have hend : ∀ c ∈ left buf es es, c ∈ whitespace := by simp [left_end h]
  have hskip := skipBlanks_end h hs blank
  rw [gettoken, bind_of_ok (get_eq s), hskip, bind_of_ok hscan, skipBlanks_end h (le_refl es) hend,
    bind_of_ok (advance_eq (le_refl es))]
  rfl

/-- What `peek` does at the end. -/
theorem peek_end (h : IsString buf es) (hs : s ≤ es)
    (blank : ∀ c ∈ left buf es s, c ∈ whitespace) (toks : List Byte) :
    peek buf es toks s = .ok (false, es) := by
  have hderef := deref_eq h (le_refl es) es
  rw [left_end h, List.headD_nil] at hderef
  have hskip := skipBlanks_end h hs blank
  rw [peek, bind_of_ok (get_eq s), hskip, bind_of_ok (advance_eq (le_refl es)), bind_of_ok hderef]
  rfl

/-! ## Texts -/

theorem exists_token {c : Byte} (hl : ∀ c' ∈ c :: l, c' ≠ 0) (hc : c ∉ whitespace) :
    ∃ t r, c :: l = t.text ++ r ∧ Ends t r := by
  by_cases hsym : c ∈ symbols
  · have hcases : c = chr '<' ∨ c = chr '|' ∨ c = chr '>' ∨ c = chr '&' ∨ c = chr ';' ∨
        c = chr '(' ∨ c = chr ')' := by simpa [symbols] using hsym
    rcases hcases with rfl | rfl | rfl | rfl | rfl | rfl | rfl
    · exact ⟨.lt, l, rfl, trivial⟩
    · exact ⟨.bar, l, rfl, trivial⟩
    · by_cases hgt : l.head? = some (chr '>')
      · obtain ⟨l', rfl⟩ := List.head?_eq_some_iff.mp hgt
        exact ⟨.append, l', rfl, trivial⟩
      · exact ⟨.gt, l, rfl, fun c hc hce => hgt (hce ▸ hc)⟩
    · exact ⟨.amp, l, rfl, trivial⟩
    · exact ⟨.semi, l, rfl, trivial⟩
    · exact ⟨.lpar, l, rfl, trivial⟩
    · exact ⟨.rpar, l, rfl, trivial⟩
  · have hword : inWord c = true := inWord_eq_true.mpr ⟨hc, hsym⟩
    let w : Word :=
      { chars := (c :: l).takeWhile inWord
        ne_nil := by simp [hword]
        plain := fun c hc => ⟨hl c (List.takeWhile_subset _ hc),
          inWord_eq_true.mp (List.mem_takeWhile_imp hc)⟩ }
    refine ⟨.word w, (c :: l).dropWhile inWord, List.takeWhile_append_dropWhile.symm, ?_⟩
    intro c' hc'
    have hnot := List.head?_dropWhile_not inWord (c :: l)
    rw [Option.mem_def.mp hc'] at hnot
    by_contra hcon
    rw [not_or] at hcon
    simp [inWord_eq_true.mpr hcon] at hnot

/-- Either only whitespace is left or a token comes next. -/
theorem Step.total (h : IsString buf es) (s : Nat) :
    (∀ c ∈ left buf es s, c ∈ whitespace) ∨ ∃ t w s', Step buf es s t w s' := by
  obtain ⟨ws, blank, hws⟩ := exists_blank (left buf es s)
  cases hd : (left buf es s).dropWhile (strchr whitespace) with
  | nil =>
      rw [hd, List.append_nil] at hws
      exact .inl (hws ▸ blank)
  | cons c l =>
      have hc : c ∉ whitespace := by
        have hnot := List.head?_dropWhile_not (strchr whitespace) (left buf es s)
        rw [hd] at hnot
        intro hcon
        simp [strchr_eq_true.mpr hcon] at hnot
      have hl : ∀ c' ∈ c :: l, c' ≠ 0 := by
        intro c' hc'
        rw [← hd] at hc'
        exact ne_zero_of_mem_left h (List.dropWhile_subset _ hc')
      obtain ⟨t, r, ht, hr⟩ := exists_token hl hc
      refine .inr ⟨t, _, _, ws, r, blank, ?_, hr, rfl, rfl⟩
      rw [hws, hd, ht, List.append_assoc]

variable {toks : List Token}

theorem Renders.unskip {l : List Byte} (h : Renders toks l) :
    Renders toks (l.dropWhile (strchr whitespace)) := by
  cases h with
  | nil blank =>
      rw [List.dropWhile_eq_nil_iff.mpr fun c hc => strchr_eq_true.mpr (blank c hc)]
      exact .nil fun c hc => absurd hc List.not_mem_nil
  | cons blank rest gap =>
      rw [List.append_assoc, dropWhile_blank blank, dropWhile_token]
      exact .cons (fun c hc => absurd hc List.not_mem_nil) rest gap

/-- The next token of a rendering comes next, where no `>` stands before it that it would be read
together with. -/
theorem Renders.step (h : Renders (t :: toks) (left buf es s))
    (hgt : t = .gt → ∀ t' ∈ toks.head?, t'.isWord) :
    ∃ w s', Step buf es s t w s' ∧ Renders toks (left buf es s') := by
  generalize hl : left buf es s = l at h
  cases h with
  | @cons _ _ ws r blank rest gap =>
    -- what may stand after the token
    have hhead : ∀ c ∈ r.head?, c ∈ whitespace ∨ ∃ t' ∈ toks.head?, c = t'.first := by
      intro c hc
      cases toks with
      | nil => exact .inl (rest.blank c (List.mem_of_mem_head? hc))
      | cons t' toks =>
        obtain ⟨ws', r', blank', rfl⟩ := rest.head
        cases ws' with
        | nil =>
            refine .inr ⟨t', rfl, ?_⟩
            simpa [eq_comm] using hc
        | cons c' ws' =>
            have hcc : c' = c := by simpa using hc
            exact .inl (hcc ▸ blank' c' (List.mem_cons_self ..))
    have hr : Ends t r := by
      cases t with
      | word w =>
        intro c hc
        rcases hhead c hc with hws | ⟨t', ht', rfl⟩
        · exact .inl hws
        · cases hword : t'.isWord with
          | false => exact .inr (Token.first_mem_symbols hword)
          | true =>
            obtain ⟨c', hc', hws⟩ := gap rfl ⟨t', ht', hword⟩
            have hcc : c' = t'.first := by
              rw [Option.mem_def] at hc hc'
              rw [hc] at hc'
              exact (Option.some.inj hc').symm
            exact .inl (hcc ▸ hws)
      | gt =>
        intro c hc
        rcases hhead c hc with hws | ⟨t', ht', rfl⟩
        · intro hcon
          rw [hcon] at hws
          exact absurd hws (by decide)
        · intro hcon
          have hword := hgt rfl t' ht'
          cases t' with
          | word w => exact w.first_plain.2.2 (hcon ▸ by decide)
          | _ => cases hword
      | _ => trivial
    refine ⟨_, _, ⟨ws, r, blank, hl, hr, rfl, rfl⟩, ?_⟩
    have hend : left buf es (s + ws.length + t.text.length) = r := by
      rw [Nat.add_assoc, left_add, hl, ← List.length_append, List.drop_left]
    rw [left_skipBlanks, hend]
    exact rest.unskip

/-- A text that goes on after a token with a rendering renders both. -/
theorem Step.renders (hstep : Step buf es s t w s') (h : Renders toks (left buf es s')) :
    Renders (t :: toks) (left buf es s) := by
  obtain ⟨ws, r, blank, hs, hr, rfl, rfl⟩ := hstep
  have hend : left buf es (s + ws.length + t.text.length) = r := by
    rw [Nat.add_assoc, left_add, hs, ← List.length_append, List.drop_left]
  rw [left_skipBlanks, hend] at h
  rw [hs]
  obtain ⟨ws', blank', hr'⟩ := exists_blank r
  have hrest : Renders toks r := by
    rw [hr']
    exact h.skip blank'
  refine .cons blank hrest fun hword hnext => ?_
  obtain ⟨t', ht', hword'⟩ := hnext
  obtain ⟨toks', rfl⟩ := List.head?_eq_some_iff.mp ht'
  obtain ⟨ws₁, r₁, blank₁, hr₁⟩ := hrest.head
  cases ws₁ with
  | cons c ws₁ => exact ⟨c, by simp [hr₁], blank₁ c (List.mem_cons_self ..)⟩
  | nil =>
    -- the word would have been read on
    cases t with
    | word _ =>
      cases t' with
      | word w' =>
        rcases hr _ (by rw [hr₁]; rfl) with hws | hsym
        · exact absurd hws w'.first_plain.2.1
        · exact absurd hsym w'.first_plain.2.2
      | _ => cases hword'
    | _ => cases hword

/-- Before whitespace that a `peek` has skipped. -/
theorem renders_skipBlanks (h : Renders toks (left buf es (skipBlanks buf es s))) :
    Renders toks (left buf es s) := by
  rw [left_skipBlanks] at h
  obtain ⟨ws, blank, hs⟩ := exists_blank (left buf es s)
  rw [hs]
  exact h.skip blank

/-! ## Words -/

/-- The span holds the string, a word that ends there. -/
def Reads (buf : List Byte) (es : Nat) (w : Span) (x : List Byte) : Prop :=
  ∃ v : Word, v.chars = x ∧ left buf es w.q = x ++ left buf es w.eq ∧ w.eq = w.q + x.length ∧
    w.eq ≤ es ∧ Ends (.word v) (left buf es w.eq)

theorem Step.reads (h : IsString buf es) {v : Word} (hstep : Step buf es s (.word v) w s') :
    Reads buf es w v.chars := by
  obtain ⟨r, hq, hr, heq, -⟩ := hstep.left_q
  have heq' : left buf es w.eq = r := by
    rw [heq, left_add, hq, List.drop_left]
  exact ⟨v, rfl, by rw [heq', hq]; rfl, heq, (hstep.lt h).2.2.1, heq'.symm ▸ hr⟩

theorem redircmd_rel {r : Redir} {cmd : Cmd Span} {tree : Cmd (List Byte)} {w : Span}
    (hrel : cmd.Rel (Reads buf es) tree) (hw : Reads buf es w r.file.chars) :
    (redircmd r.op.token.code cmd w).Rel (Reads buf es) (r.wrap tree) := by
  obtain ⟨op, file⟩ := r
  cases op with
  | input => exact .redir hrel hw
  | output => exact .redir hrel hw
  | append => exact .redir hrel hw

end Xv6.Sh
