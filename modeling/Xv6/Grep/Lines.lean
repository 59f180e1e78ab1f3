import Xv6.Grep.Matcher

set_option autoImplicit false

/-! # The lines that `grep` writes

Whatever `read` delivers, a line that fits into the buffer with its newline is looked at as a whole;
the first one that does not ends the loop. -/

namespace Xv6.Grep

/-- The newline-terminated lines of the input, without their newlines. -/
def lines : List Byte → List (List Byte)
  | [] => []
  | b :: s =>
    if b = newline then [] :: lines s
    else match lines s with
      | [] => []
      | line :: rest => (b :: line) :: rest

/-- The line matches the pattern. -/
def accepted (pattern line : List Byte) : Bool :=
  doMatch (terminated pattern) (terminated line) = some true

/-- The lines among `ls` that match the pattern, newlines included. -/
def written (pattern : List Byte) (ls : List (List Byte)) : List Byte :=
  (ls.filter (accepted pattern)).flatMap fun line => line ++ [newline]

open Classical in
/-- The lines among `ls` in the language of the pattern, newlines included. -/
noncomputable def matching (pattern : List Byte) (ls : List (List Byte)) : List Byte :=
  (ls.filter fun line => Matches pattern line).flatMap fun line => line ++ [newline]

/-- The line, its newline and a NUL fit into the buffer. -/
def fits (line : List Byte) : Bool := line.length + 2 ≤ BUFSIZE

variable {pattern line rest p s buf : List Byte}

theorem accepted_iff (hp : 0 ∉ pattern) (hl : 0 ∉ line) :
    accepted pattern line = true ↔ Matches pattern line := by
  obtain ⟨b, hb, hiff⟩ := decides_doMatch (x := []) (y := []) hp hl
  rw [accepted, terminated, terminated, hb, ← hiff]
  simp

/-! ## Lines -/

theorem lines_of_not_mem (h : newline ∉ s) : lines s = [] := by
  induction s with
  | nil => rfl
  | cons b s ih =>
      obtain ⟨hb, hs⟩ := not_or.mp (mt List.mem_cons.mpr h)
      rw [lines, if_neg (Ne.symm hb), ih hs]

theorem lines_append_newline (h : newline ∉ line) :
    lines (line ++ newline :: rest) = line :: lines rest := by
  induction line with
  | nil => exact if_pos rfl
  | cons b line ih =>
      obtain ⟨hb, hs⟩ := not_or.mp (mt List.mem_cons.mpr h)
      rw [List.cons_append, lines, if_neg (Ne.symm hb), ih hs]

/-- A line that has not come to its end is in front of the first line of what follows. -/
theorem lines_append_of_not_mem (h : newline ∉ buf) :
    lines (buf ++ s) = [] ∨ ∃ line ls, lines (buf ++ s) = line :: ls ∧ buf.length ≤ line.length := by
  induction buf with
  | nil =>
      cases hl : lines s with
      | nil => exact .inl hl
      | cons line ls => exact .inr ⟨line, ls, hl, Nat.zero_le _⟩
  | cons b buf ih =>
      obtain ⟨hb, hs⟩ := not_or.mp (mt List.mem_cons.mpr h)
      rw [List.cons_append, lines, if_neg (Ne.symm hb)]
      rcases ih hs with hnil | ⟨line, ls, hcons, hlen⟩
      · exact .inl (by rw [hnil])
      · exact .inr ⟨b :: line, ls, by rw [hcons], Nat.succ_le_succ hlen⟩

theorem strchr_newline (h0 : 0 ∉ p) :
    strchr newline p = none ∧ newline ∉ p ∨
    ∃ line rest, strchr newline p = some (line, rest) ∧ newline ∉ line ∧
      p = line ++ newline :: rest := by
  induction p with
  | nil => exact .inl ⟨rfl, List.not_mem_nil⟩
  | cons b p ih =>
      obtain ⟨hb, hp⟩ := not_or.mp (mt List.mem_cons.mpr h0)
      rw [strchr, if_neg (Ne.symm hb)]
      by_cases hnl : b = newline
      · rw [if_pos hnl]
        exact .inr ⟨[], p, rfl, List.not_mem_nil, by rw [hnl]; rfl⟩
      · rw [if_neg hnl]
        rcases ih hp with ⟨hnone, hmem⟩ | ⟨line, rest, hsome, hline, rfl⟩
        · rw [hnone]
          exact .inl ⟨rfl, fun h => (List.mem_cons.mp h).elim (fun h => hnl h.symm) hmem⟩
        · rw [hsome]
          refine .inr ⟨b :: line, rest, rfl, ?_, rfl⟩
          exact fun h => (List.mem_cons.mp h).elim (fun h => hnl h.symm) hline

/-! ## The lines in the buffer -/

theorem written_append (ls ls' : List (List Byte)) :
    written pattern (ls ++ ls') = written pattern ls ++ written pattern ls' := by
  simp [written]

theorem written_cons (ls : List (List Byte)) :
    written pattern (line :: ls) =
      if accepted pattern line then line ++ newline :: written pattern ls else written pattern ls := by
  by_cases h : accepted pattern line
  · simp [written, h]
  · simp [written, h]

theorem grepLines_none (h : strchr newline p = none) : grepLines pattern p = ([], p) := by
  rw [grepLines.eq_def]
  split
  · rfl
  · simp_all

theorem grepLines_some (h : strchr newline p = some (line, rest)) :
    grepLines pattern p =
      if accepted pattern line then
        (line ++ newline :: (grepLines pattern rest).1, (grepLines pattern rest).2)
      else grepLines pattern rest := by
  rw [grepLines.eq_def]
  split
  · simp_all
  · simp_all [accepted]

theorem grepLines_rest (h : strchr newline p = some (line, rest)) :
    (grepLines pattern p).2 = (grepLines pattern rest).2 := by
  rw [grepLines_some h]
  split <;> rfl

/-- What the loop over the buffer leaves behind of the bytes `p`. -/
structure Left (pattern p : List Byte) (r : List Byte × List Byte) : Prop where
  output : r.1 = written pattern (lines p)
  lines_append : ∀ s, lines (p ++ s) = lines p ++ lines (r.2 ++ s)
  not_mem : newline ∉ r.2
  suffix : r.2 <:+ p

/-- By induction along the loop: each round takes a line and its newline off. -/
theorem grepLines_left (h0 : 0 ∉ p) : Left pattern p (grepLines pattern p) := by
  induction hn : p.length using Nat.strong_induction_on generalizing p with
  | _ n ih =>
    rcases strchr_newline h0 with ⟨hnone, hmem⟩ | ⟨line, rest, hsome, hline, rfl⟩
    · rw [grepLines_none hnone]
      have hnil := lines_of_not_mem hmem
      exact ⟨by rw [hnil]; rfl, fun s => by rw [hnil]; rfl, hmem, List.suffix_rfl⟩
    · have hrest : 0 ∉ rest := fun h => h0 (List.mem_append_right _ (List.mem_cons_of_mem _ h))
      have hlt : rest.length < n := by
        rw [← hn, List.length_append, List.length_cons]
        omega
      have left := ih rest.length hlt hrest rfl
      have hsuffix : rest <:+ line ++ newline :: rest :=
        (List.suffix_cons newline rest).trans (List.suffix_append line _)
      refine ⟨?_, fun s => ?_, ?_, ?_⟩
      · rw [grepLines_some hsome, lines_append_newline hline, written_cons, ← left.output]
        split <;> rfl
      · rw [grepLines_rest hsome, List.append_assoc, List.cons_append, lines_append_newline hline,
          lines_append_newline hline, left.lines_append, List.cons_append]
      · rw [grepLines_rest hsome]
        exact left.not_mem
      · rw [grepLines_rest hsome]
        exact left.suffix.trans hsuffix

/-! ## The loop over the input -/

variable {sizes : Nat → Nat} {input : List Byte}

theorem subset_of_mem_lines (h : line ∈ lines s) : line ⊆ s := by
  induction s generalizing line with
  | nil => cases h
  | cons b s ih =>
      rw [lines] at h
      split at h
      · rcases List.mem_cons.mp h with rfl | h
        · exact List.nil_subset _
        · exact List.subset_cons_of_subset b (ih h)
      · split at h
        · cases h
        · next line' rest hs =>
          rw [hs] at ih
          rcases List.mem_cons.mp h with rfl | h
          · exact List.cons_subset_cons b (ih List.mem_cons_self)
          · exact List.subset_cons_of_subset b (ih (List.mem_cons_of_mem line' h))

theorem length_lt_of_mem_lines (h : line ∈ lines s) : line.length < s.length := by
  induction s generalizing line with
  | nil => cases h
  | cons b s ih =>
      rw [lines] at h
      split at h
      · rcases List.mem_cons.mp h with rfl | h
        · exact Nat.succ_pos _
        · exact Nat.lt_succ_of_lt (ih h)
      · cases hl : lines s with
        | nil => rw [hl] at h; cases h
        | cons first ls =>
            rw [hl] at h
            rcases List.mem_cons.mp h with rfl | h
            · exact Nat.succ_lt_succ (ih (hl ▸ List.mem_cons_self))
            · exact Nat.lt_succ_of_lt (ih (hl ▸ List.mem_cons_of_mem _ h))

theorem readCount_le_request (size request left : Nat) : readCount size request left ≤ request :=
  Nat.le_trans (Nat.min_le_right _ _) (Nat.min_le_left _ _)

theorem readCount_le_left (size request left : Nat) : readCount size request left ≤ left :=
  Nat.le_trans (Nat.min_le_right _ _) (Nat.min_le_right _ _)

/-- `read` returns 0 only if nothing is asked for, or nothing is left. -/
theorem readCount_eq_zero {size request left : Nat} (h : readCount size request left = 0) :
    request = 0 ∨ left = 0 := by
  rw [readCount] at h
  omega

theorem grepLoop_zero (h : readCount (sizes 0) (BUFSIZE - buf.length - 1) input.length = 0) :
    grepLoop pattern sizes buf input = [] := by
  rw [grepLoop]
  exact dif_pos h

theorem grepLoop_pos {n : Nat} (hn : readCount (sizes 0) (BUFSIZE - buf.length - 1) input.length = n)
    (h : n ≠ 0) :
    grepLoop pattern sizes buf input =
      (grepLines pattern (buf ++ input.take n)).1 ++
        grepLoop pattern (fun i => sizes (i + 1)) (grepLines pattern (buf ++ input.take n)).2
          (input.drop n) := by
  subst hn
  rw [grepLoop]
  exact dif_neg h

/-- The buffer has room for its NUL, and no newline stands in it before the bytes to be read. By
    induction on what is left to be read. -/
theorem grepLoop_eq (hbuf : newline ∉ buf) (hlen : buf.length < BUFSIZE) (h0 : 0 ∉ buf ++ input) :
    grepLoop pattern sizes buf input = written pattern ((lines (buf ++ input)).takeWhile fits) := by
  induction hm : input.length using Nat.strong_induction_on generalizing buf input sizes with
  | _ m ih =>
    obtain ⟨n, hn⟩ : ∃ n, readCount (sizes 0) (BUFSIZE - buf.length - 1) input.length = n := ⟨_, rfl⟩
    have hroom := readCount_le_request (sizes 0) (BUFSIZE - buf.length - 1) input.length
    have hleft := readCount_le_left (sizes 0) (BUFSIZE - buf.length - 1) input.length
    rw [hn] at hroom hleft
    by_cases hz : n = 0
    · rw [grepLoop_zero (hn.trans hz)]
      rcases readCount_eq_zero (hn.trans hz) with hfull | hnone
      · -- The buffer is full: the line that stands in it does not fit.
        rcases lines_append_of_not_mem (s := input) hbuf with hnil | ⟨line, ls, hcons, hlong⟩
        · rw [hnil]
          rfl
        · have hfits : ¬ fits line = true := by
            rw [fits, decide_eq_true_eq]
            omega
          rw [hcons, List.takeWhile_cons_of_neg hfits]
          rfl
      · rw [List.length_eq_zero_iff.mp hnone, List.append_nil, lines_of_not_mem hbuf]
        rfl
    · rw [grepLoop_pos hn hz]
      have hsplit : buf ++ input = (buf ++ input.take n) ++ input.drop n := by
        rw [List.append_assoc, List.take_append_drop]
      have hp : (buf ++ input.take n).length < BUFSIZE := by
        rw [List.length_append, List.length_take]
        omega
      rw [hsplit] at h0 ⊢
      generalize buf ++ input.take n = p at hp h0 ⊢
      have left : Left pattern p (grepLines pattern p) :=
        grepLines_left fun h => h0 (List.mem_append_left _ h)
      have hshort : ∀ line ∈ lines p, fits line = true := by
        intro line hline
        have := length_lt_of_mem_lines hline
        rw [fits, decide_eq_true_eq]
        omega
      have hrest : 0 ∉ (grepLines pattern p).2 ++ input.drop n := by
        intro h
        rcases List.mem_append.mp h with h | h
        · exact h0 (List.mem_append_left _ (left.suffix.subset h))
        · exact h0 (List.mem_append_right _ h)
      have hlt : (input.drop n).length < m := by
        rw [List.length_drop]
        omega
      rw [ih _ hlt left.not_mem (Nat.lt_of_le_of_lt left.suffix.length_le hp) hrest rfl, left.output,
        left.lines_append, List.takeWhile_append_of_pos hshort, written_append]

theorem grep_eq_takeWhile (h0 : 0 ∉ input) :
    grep pattern sizes input = written pattern ((lines input).takeWhile fits) :=
  grepLoop_eq List.not_mem_nil (Nat.zero_lt_succ 1023) h0

theorem written_eq_nil_iff (ls : List (List Byte)) :
    written pattern ls = [] ↔ ∀ line ∈ ls, accepted pattern line = false := by
  induction ls with
  | nil => simp [written]
  | cons line ls ih =>
      rw [written_cons, List.forall_mem_cons, ← ih]
      by_cases h : accepted pattern line <;> simp [h]

theorem matching_cons_of_pos {line : List Byte} (h : Matches pattern line) (ls : List (List Byte)) :
    matching pattern (line :: ls) = line ++ newline :: matching pattern ls := by
  unfold matching
  simp [h]

theorem matching_cons_of_neg {line : List Byte} (h : ¬ Matches pattern line) (ls : List (List Byte)) :
    matching pattern (line :: ls) = matching pattern ls := by
  unfold matching
  simp [h]

/-- The lines that the code writes are those of the language. -/
theorem written_eq_matching (hp : 0 ∉ pattern) {ls : List (List Byte)} (hls : ∀ line ∈ ls, 0 ∉ line) :
    written pattern ls = matching pattern ls := by
  classical
  unfold written matching
  refine congrArg (List.flatMap fun line => line ++ [newline]) (List.filter_congr fun line hline => ?_)
  rw [Bool.eq_iff_iff, accepted_iff hp (hls line hline), decide_eq_true_iff]

/-- However the input is delivered, `grep` writes the lines that match exactly if none does from the
    first line on that does not fit into the buffer. -/
theorem grep_eq_iff (sizes : Nat → Nat) (hp : 0 ∉ pattern) (h0 : 0 ∉ input) :
    grep pattern sizes input = matching pattern (lines input) ↔
      ∀ line ∈ (lines input).dropWhile fits, ¬ Matches pattern line := by
  have hlines : ∀ line ∈ lines input, 0 ∉ line := fun line hline h => h0 (subset_of_mem_lines hline h)
  have hsplit : written pattern (lines input) =
      written pattern ((lines input).takeWhile fits) ++ written pattern ((lines input).dropWhile fits) := by
    rw [← written_append, List.takeWhile_append_dropWhile]
  rw [← written_eq_matching hp hlines, grep_eq_takeWhile h0, hsplit, List.self_eq_append_right, written_eq_nil_iff]
  refine forall₂_congr fun line hline => ?_
  rw [← accepted_iff hp (hlines line ((List.dropWhile_suffix fits).subset hline)), Bool.not_eq_true]

/-- `"a"` in the lines `"ab"` and `"b"`, one byte a call -/
theorem grep_eq_iff_short : grep [97] (fun _ => 1) [97, 98, 10, 98, 10] = [97, 98, 10] ∧
    matching [97] (lines [97, 98, 10, 98, 10]) = [97, 98, 10] := by
  have hall : (lines [97, 98, 10, 98, 10]).dropWhile fits = [] := by decide
  have hab : Matches [97] [97, 98] := ⟨[97, 98], List.suffix_rfl, .one 97 [] 97 _ (by decide) (by decide) (.inr rfl) (.done _)⟩
  have hb : ¬ Matches [97] [98] := by
    rintro ⟨rest, hrest, h⟩
    cases h with
    | one _ _ t text _ _ heq _ =>
        have ht : t ∈ [98] := hrest.subset List.mem_cons_self
        rw [List.mem_singleton.mp ht] at heq
        exact absurd heq (by decide)
  have hmatching : matching [97] (lines [97, 98, 10, 98, 10]) = [97, 98, 10] := by
    rw [show lines [97, 98, 10, 98, 10] = [[97, 98], [98]] by decide, matching_cons_of_pos hab, matching_cons_of_neg hb]
    rfl
  refine ⟨((grep_eq_iff (fun _ => 1) (by decide) (by decide)).mpr fun line hline => ?_).trans hmatching, hmatching⟩
  rw [hall] at hline
  cases hline

/-- A line of 1023 characters is lost. -/
theorem grep_loses_line :
    grep [97] (fun _ => BUFSIZE) (List.replicate 1023 97 ++ [newline]) ≠
      matching [97] (lines (List.replicate 1023 97 ++ [newline])) := by
  have h0 : (0 : Byte) ∉ List.replicate 1023 (97 : Byte) ++ [newline] := by
    intro h
    rcases List.mem_append.mp h with h | h
    · exact absurd (List.eq_of_mem_replicate h) (by decide)
    · exact absurd (List.mem_singleton.mp h) (by decide)
  have hlines : lines (List.replicate 1023 97 ++ [newline]) = [List.replicate 1023 97] :=
    lines_append_newline fun h => absurd (List.eq_of_mem_replicate h) (by decide)
  have hlong : ¬ fits (List.replicate 1023 97) = true := by
    rw [fits, List.length_replicate]
    decide
  have hmatch : Matches [97] (List.replicate 1023 97) :=
    ⟨List.replicate 1023 97, List.suffix_rfl, .one 97 [] 97 _ (by decide) (by decide) (.inr rfl) (.done _)⟩
  rw [grep_eq_takeWhile h0, hlines, List.takeWhile_cons_of_neg hlong]
  intro h
  rw [matching_cons_of_pos hmatch] at h
  cases List.append_eq_nil_iff.mp h.symm |>.2

end Xv6.Grep
