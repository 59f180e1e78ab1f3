import Xv6.Grep.Model

set_option autoImplicit false

/-! # What a pattern matches

The language of a pattern, and that `match` decides it. -/

namespace Xv6.Grep

/-- The pattern matches a beginning of `text`. -/
inductive Here : List Byte → List Byte → Prop
  | done (text : List Byte) : Here [] text
  | star (c : Byte) (re run rest : List Byte) (each : ∀ b ∈ run, b = c ∨ c = period)
      (tail : Here re rest) : Here (c :: asterisk :: re) (run ++ rest)
  | atEnd : Here [dollar] []
  | one (c : Byte) (re : List Byte) (t : Byte) (text : List Byte) (single : re.head? ≠ some asterisk)
      (last : ¬ (c = dollar ∧ re = [])) (eq : c = period ∨ c = t) (tail : Here re text) :
      Here (c :: re) (t :: text)

/-- The language of a pattern: a leading `^` anchors it. -/
def Matches : List Byte → List Byte → Prop
  | [], _ => True
  | c :: re, text => if c = caret then Here re text else ∃ rest, rest <:+ text ∧ Here (c :: re) rest

variable {c d t : Byte} {re text rest : List Byte}

/-! ## Reading the pattern -/

theorem here_star_iff :
    Here (c :: asterisk :: re) text ↔
      ∃ run rest, text = run ++ rest ∧ (∀ b ∈ run, b = c ∨ c = period) ∧ Here re rest := by
  constructor
  · intro h
    cases h with
    | star _ _ run rest each tail => exact ⟨run, rest, rfl, each, tail⟩
    | one _ _ _ _ single => exact absurd rfl single
  · rintro ⟨run, rest, rfl, each, tail⟩
    exact .star c re run rest each tail

theorem here_star_nil_iff : Here (c :: asterisk :: re) [] ↔ Here re [] := by
  rw [here_star_iff]
  constructor
  · rintro ⟨run, rest, h, -, tail⟩
    rw [(List.append_eq_nil_iff.mp h.symm).2] at tail
    exact tail
  · intro h
    exact ⟨[], [], rfl, by simp, h⟩

/-- A run is empty, or its first character is taken off. -/
theorem here_star_cons_iff :
    Here (c :: asterisk :: re) (t :: text) ↔
      Here re (t :: text) ∨ (t = c ∨ c = period) ∧ Here (c :: asterisk :: re) text := by
  rw [here_star_iff]
  constructor
  · rintro ⟨run, rest, h, each, tail⟩
    cases run with
    | nil =>
        rw [List.nil_append] at h
        exact .inl (h ▸ tail)
    | cons b run =>
        obtain ⟨rfl, rfl⟩ := List.cons.inj h
        have hrun : ∀ b ∈ run, b = c ∨ c = period := fun b hb => each b (List.mem_cons_of_mem _ hb)
        exact .inr ⟨each t List.mem_cons_self, .star c re run rest hrun tail⟩
  · rintro (tail | ⟨ht, hstar⟩)
    · exact ⟨[], t :: text, rfl, by simp, tail⟩
    · obtain ⟨run, rest, rfl, each, tail⟩ := here_star_iff.mp hstar
      exact ⟨t :: run, rest, rfl, List.forall_mem_cons.mpr ⟨ht, each⟩, tail⟩

theorem here_dollar_iff : Here [dollar] text ↔ text = [] := by
  constructor
  · intro h
    cases h with
    | atEnd => rfl
    | one _ _ _ _ _ last => exact absurd ⟨rfl, rfl⟩ last
  · rintro rfl
    exact .atEnd

theorem not_here_one_nil (single : re.head? ≠ some asterisk) (last : ¬ (c = dollar ∧ re = [])) :
    ¬ Here (c :: re) [] := by
  generalize htext : ([] : List Byte) = text
  intro h
  cases h with
  | star => exact single rfl
  | atEnd => exact last ⟨rfl, rfl⟩
  | one => cases htext

theorem here_one_cons_iff (single : re.head? ≠ some asterisk) (last : ¬ (c = dollar ∧ re = [])) :
    Here (c :: re) (t :: text) ↔ (c = period ∨ c = t) ∧ Here re text := by
  constructor
  · generalize htext : t :: text = text'
    intro h
    cases h with
    | star => exact absurd rfl single
    | atEnd => cases htext
    | one _ _ _ _ _ _ eq tail =>
        obtain ⟨rfl, rfl⟩ := List.cons.inj htext
        exact ⟨eq, tail⟩
  · rintro ⟨eq, tail⟩
    exact .one c re t text single last eq tail

/-! ## The three functions -/

/-- A computation returns whether `P` holds. -/
def Decides (r : Option Bool) (P : Prop) : Prop := ∃ b, r = some b ∧ (b = true ↔ P)

theorem Decides.iff {r : Option Bool} {P Q : Prop} (h : Decides r P) (hPQ : P ↔ Q) : Decides r Q := by
  obtain ⟨b, hr, hb⟩ := h
  exact ⟨b, hr, hb.trans hPQ⟩

theorem Decides.of_eq {r r' : Option Bool} {P : Prop} (h : Decides r P) (hr : r' = r) : Decides r' P :=
  hr ▸ h

theorem decides_true {P : Prop} (h : P) : Decides (some true) P := ⟨true, rfl, by simp [h]⟩

theorem decides_false {P : Prop} (h : ¬ P) : Decides (some false) P := ⟨false, rfl, by simp [h]⟩

variable {pattern x y : List Byte}

/-- The loop of `matchstar`, where `matchhere` decides the rest of the pattern. -/
theorem decides_matchstar
    (hre : ∀ text, 0 ∉ text → Decides (matchhere (re ++ 0 :: x) (text ++ 0 :: y)) (Here re text))
    (ht : 0 ∉ text) :
    Decides (matchstar c (re ++ 0 :: x) (text ++ 0 :: y)) (Here (c :: asterisk :: re) text) := by
  induction text with
  | nil =>
      obtain ⟨b, hb, hiff⟩ := hre [] ht
      refine Decides.iff ?_ here_star_nil_iff.symm
      rw [matchstar.eq_def, hb]
      cases b with
      | true => exact decides_true (hiff.mp rfl)
      | false => exact decides_false fun h => Bool.false_ne_true (hiff.mpr h)
  | cons t text ih =>
      obtain ⟨ht0, htext⟩ := not_or.mp (mt List.mem_cons.mpr ht)
      obtain ⟨b, hb, hiff⟩ := hre (t :: text) ht
      refine Decides.iff ?_ here_star_cons_iff.symm
      rw [matchstar.eq_def, hb]
      cases b with
      | true => exact decides_true (.inl (hiff.mp rfl))
      | false =>
          have hnot : ¬ Here re (t :: text) := fun h => Bool.false_ne_true (hiff.mpr h)
          by_cases hc : t = c ∨ c = period
          · refine (ih htext).iff ⟨fun h => .inr ⟨hc, h⟩, fun h => ?_⟩ |>.of_eq (if_pos ⟨Ne.symm ht0, hc⟩)
            exact (h.resolve_left hnot).2
          · refine Decides.of_eq (decides_false ?_) (if_neg fun h => hc h.2)
            rintro (h | h)
            · exact hnot h
            · exact hc h.1

theorem matchhere_nul : matchhere (0 :: x) text = some true := by
  rw [matchhere.eq_def]
  rfl

theorem matchhere_star (hc : c ≠ 0) :
    matchhere (c :: asterisk :: re) text = matchstar c re text := by
  rw [matchhere.eq_def]
  exact if_neg hc

theorem matchhere_one_nul (hc : c ≠ 0) (hd : d ≠ asterisk) (last : ¬ (c = dollar ∧ d = 0)) :
    matchhere (c :: d :: re) (0 :: y) = some false := by
  rw [matchhere.eq_def]
  refine (if_neg hc).trans ((if_neg hd).trans ((if_neg last).trans (if_neg fun h => h.1 rfl)))

theorem matchhere_one_cons (hc : c ≠ 0) (hd : d ≠ asterisk) (last : ¬ (c = dollar ∧ d = 0))
    (ht : t ≠ 0) :
    matchhere (c :: d :: re) (t :: text) =
      if c = period ∨ c = t then matchhere (d :: re) text else some false := by
  rw [matchhere.eq_def]
  refine (if_neg hc).trans ((if_neg hd).trans ((if_neg last).trans ?_))
  by_cases heq : c = period ∨ c = t
  · rw [if_pos heq]
    exact if_pos ⟨ht, heq⟩
  · rw [if_neg heq]
    exact if_neg fun h => heq h.2

theorem matchhere_dollar : matchhere (dollar :: 0 :: x) (t :: text) = some (decide (t = 0)) := by
  rw [matchhere.eq_def]
  rfl

/-- A character of the pattern that no star follows, where `matchhere` decides the rest of it. -/
theorem decides_one (hc : c ≠ 0) (hre0 : 0 ∉ re) (single : re.head? ≠ some asterisk)
    (hre : ∀ text, 0 ∉ text → Decides (matchhere (re ++ 0 :: x) (text ++ 0 :: y)) (Here re text))
    (ht : 0 ∉ text) :
    Decides (matchhere (c :: (re ++ 0 :: x)) (text ++ 0 :: y)) (Here (c :: re) text) := by
  by_cases last : c = dollar ∧ re = []
  · obtain ⟨rfl, rfl⟩ := last
    refine Decides.iff ?_ here_dollar_iff.symm
    cases text with
    | nil => exact matchhere_dollar ▸ decides_true rfl
    | cons t text =>
        have ht0 : t ≠ 0 := fun h => ht (h ▸ List.mem_cons_self)
        rw [List.nil_append, List.cons_append, matchhere_dollar, decide_eq_false ht0]
        exact decides_false (List.cons_ne_nil t text)
  · -- The character after `c` is a `*` or the NUL exactly if the pattern says so.
    obtain ⟨d, re', hd, hstar, hnul⟩ :
        ∃ d re', re ++ 0 :: x = d :: re' ∧ d ≠ asterisk ∧ ¬ (c = dollar ∧ d = 0) := by
      cases re with
      | nil => exact ⟨0, x, rfl, by decide, fun h => last ⟨h.1, rfl⟩⟩
      | cons d re =>
          have hd0 : d ≠ 0 := fun h => hre0 (h ▸ List.mem_cons_self)
          exact ⟨d, re ++ 0 :: x, rfl, fun h => single (h ▸ rfl), fun h => hd0 h.2⟩
    cases text with
    | nil =>
        rw [hd]
        exact Decides.of_eq (decides_false (not_here_one_nil single last))
          (matchhere_one_nul hc hstar hnul)
    | cons t text =>
        obtain ⟨ht0, htext⟩ := not_or.mp (mt List.mem_cons.mpr ht)
        refine Decides.iff ?_ (here_one_cons_iff single last).symm
        rw [hd, List.cons_append, matchhere_one_cons hc hstar hnul (Ne.symm ht0), ← hd]
        split
        case isTrue heq => exact (hre text htext).iff (and_iff_right heq).symm
        case isFalse heq => exact decides_false fun h => heq h.1

/-- `matchhere` decides `Here`. By induction on the pattern; a star takes two characters off. -/
theorem decides_matchhere (hre : 0 ∉ re) :
    ∀ text, 0 ∉ text → Decides (matchhere (re ++ 0 :: x) (text ++ 0 :: y)) (Here re text) := by
  induction hn : re.length using Nat.strong_induction_on generalizing re with
  | _ n ih =>
    intro text ht
    cases re with
    | nil => exact matchhere_nul ▸ decides_true (.done text)
    | cons c re =>
        obtain ⟨hc, hre'⟩ := not_or.mp (mt List.mem_cons.mpr hre)
        by_cases single : re.head? = some asterisk
        · obtain ⟨re', rfl⟩ := List.head?_eq_some_iff.mp single
          have hre'' : 0 ∉ re' := fun h => hre' (List.mem_cons_of_mem _ h)
          rw [List.cons_append, List.cons_append, matchhere_star (Ne.symm hc)]
          have hlt : re'.length < n := by
            rw [← hn, List.length_cons, List.length_cons]
            omega
          exact decides_matchstar (ih re'.length hlt hre'' rfl) ht
        · exact decides_one (Ne.symm hc) hre' single (ih re.length (by simp [← hn]) hre' rfl) ht

theorem decides_matchFrom (hre : 0 ∉ re) (ht : 0 ∉ text) :
    Decides (matchFrom (re ++ 0 :: x) (text ++ 0 :: y)) (∃ rest, rest <:+ text ∧ Here re rest) := by
  induction text with
  | nil =>
      obtain ⟨b, hb, hiff⟩ := decides_matchhere (x := x) (y := y) hre [] ht
      rw [List.nil_append] at hb
      rw [List.nil_append, matchFrom, hb]
      cases b with
      | true => exact decides_true ⟨[], List.suffix_rfl, hiff.mp rfl⟩
      | false =>
          refine Decides.of_eq (decides_false ?_) (if_neg fun h => h rfl)
          rintro ⟨rest, hrest, h⟩
          rw [List.suffix_nil.mp hrest] at h
          exact Bool.false_ne_true (hiff.mpr h)
  | cons t text ih =>
      obtain ⟨ht0, htext⟩ := not_or.mp (mt List.mem_cons.mpr ht)
      obtain ⟨b, hb, hiff⟩ := decides_matchhere (x := x) (y := y) hre (t :: text) ht
      rw [List.cons_append] at hb
      rw [List.cons_append, matchFrom, hb]
      cases b with
      | true => exact decides_true ⟨t :: text, List.suffix_rfl, hiff.mp rfl⟩
      | false =>
          refine Decides.of_eq ((ih htext).iff ?_) (if_pos (Ne.symm ht0))
          constructor
          · rintro ⟨rest, hrest, h⟩
            exact ⟨rest, hrest.trans (List.suffix_cons t text), h⟩
          · rintro ⟨rest, hrest, h⟩
            rcases List.suffix_cons_iff.mp hrest with rfl | hrest
            · exact absurd (hiff.mpr h) Bool.false_ne_true
            · exact ⟨rest, hrest, h⟩

theorem decides_doMatch (hp : 0 ∉ pattern) (ht : 0 ∉ text) :
    Decides (doMatch (pattern ++ 0 :: x) (text ++ 0 :: y)) (Matches pattern text) := by
  cases pattern with
  | nil =>
      have hhere : ∃ rest, rest <:+ text ∧ Here [] rest := ⟨text, List.suffix_rfl, .done text⟩
      exact (decides_matchFrom hp ht).iff (iff_true_intro hhere)
  | cons c re =>
      have hre : 0 ∉ re := fun h => hp (List.mem_cons_of_mem _ h)
      rw [List.cons_append, doMatch, Matches]
      split
      · exact decides_matchhere hre text ht
      · exact decides_matchFrom hp ht

/-- `match` returns 1 exactly if the text is in the language of the pattern, and otherwise 0; what
    stands behind the two terminators, if anything, is not read. -/
theorem doMatch_eq (pattern text x y : List Byte) (hp : 0 ∉ pattern) (ht : 0 ∉ text) :
    (doMatch (pattern ++ 0 :: x) (text ++ 0 :: y) = some true ↔ Matches pattern text) ∧
    (doMatch (pattern ++ 0 :: x) (text ++ 0 :: y) = some false ↔ ¬ Matches pattern text) := by
  obtain ⟨b, hb, hiff⟩ := decides_doMatch (x := x) (y := y) hp ht
  rw [hb, ← hiff]
  cases b with
  | true => simp
  | false => simp

/-- `"a*$"` against `"baa"` -/
theorem doMatch_eq_star :
    (doMatch ([97, 42, 36] ++ 0 :: []) ([98, 97, 97] ++ 0 :: []) = some true ↔
      Matches [97, 42, 36] [98, 97, 97]) ∧
    (doMatch ([97, 42, 36] ++ 0 :: []) ([98, 97, 97] ++ 0 :: []) = some false ↔
      ¬ Matches [97, 42, 36] [98, 97, 97]) :=
  doMatch_eq [97, 42, 36] [98, 97, 97] [] [] (by decide) (by decide)

end Xv6.Grep
