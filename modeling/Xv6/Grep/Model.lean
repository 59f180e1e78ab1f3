import Xv6.Param

set_option autoImplicit false

/-! # The program `grep`

`user/grep.c` on its bytes. A pointer into a string is the list of the bytes from there on, the NUL
included; there is nothing to read behind the last one of them. -/

namespace Xv6.Grep

/-- `'.'`, `'*'`, `'$'`, `'^'` and `'\n'` -/
def period : Byte := 46
def asterisk : Byte := 42
def dollar : Byte := 36
def caret : Byte := 94
def newline : Byte := 10

/-! ## The regular expression matcher

`none` is a read past the end of one of the strings. -/

mutual

/-- Search for `re` at the beginning of `text`. -/
def matchhere (re text : List Byte) : Option Bool :=
  match re with
  | [] => none
  | c :: re =>
    if c = 0 then some true
    else match re with
      | [] => none
      | d :: re' =>
        if d = asterisk then matchstar c re' text
        else match text with
          | [] => none
          | t :: text' =>
            if c = dollar ∧ d = 0 then some (decide (t = 0))
            else if t ≠ 0 ∧ (c = period ∨ c = t) then matchhere (d :: re') text'
            else some false
  termination_by (re.length, text.length, 0)

/-- Search for `c*re` at the beginning of `text`. -/
def matchstar (c : Byte) (re text : List Byte) : Option Bool :=
  match matchhere re text with
  | none => none
  | some true => some true
  | some false => match text with
    | [] => none
    | t :: text' =>
      if t ≠ 0 ∧ (t = c ∨ c = period) then matchstar c re text' else some false
  termination_by (re.length, text.length, 1)

end

/-- The loop of `match`: `matchhere` at every position, the empty string included. -/
def matchFrom (re : List Byte) : List Byte → Option Bool
  | [] => none
  | t :: text => match matchhere re (t :: text) with
    | none => none
    | some true => some true
    | some false => if t ≠ 0 then matchFrom re text else some false

/-- `match` -/
def doMatch (re text : List Byte) : Option Bool :=
  match re with
  | [] => none
  | c :: re' => if c = caret then matchhere re' text else matchFrom re text

/-! ## The loop over the input -/

/-- `strchr`, on the bytes before the NUL: those before `c` and those after it. -/
def strchr (c : Byte) : List Byte → Option (List Byte × List Byte)
  | [] => none
  | b :: s =>
    if b = 0 then none
    else if b = c then some ([], s)
    else (strchr c s).map fun r => (b :: r.1, r.2)

theorem length_strchr {c : Byte} {s line rest : List Byte} (h : strchr c s = some (line, rest)) :
    rest.length < s.length := by
  induction s generalizing line with
  | nil => simp [strchr] at h
  | cons b s ih =>
      rw [strchr] at h
      split at h
      · simp at h
      · split at h
        · simp only [Option.some.injEq, Prod.mk.injEq] at h
          rw [← h.2]
          exact Nat.lt_succ_self _
        · obtain ⟨r, hr, he⟩ := Option.map_eq_some_iff.1 h
          simp only [Prod.mk.injEq] at he
          have hlt : rest.length < s.length := ih (hr.trans (by rw [← he.2]))
          exact Nat.lt_succ_of_lt hlt

/-- The string that ends here. -/
def terminated (s : List Byte) : List Byte := s ++ [0]

/-- The loop over the lines in the buffer from `p` on: what is written, and where `p` is then. -/
def grepLines (pattern p : List Byte) : List Byte × List Byte :=
  match h : strchr newline p with
  | none => ([], p)
  | some (line, rest) =>
    have := length_strchr h
    let r := grepLines pattern rest
    if doMatch (terminated pattern) (terminated line) = some true then (line ++ newline :: r.1, r.2)
    else r
  termination_by p.length

/-- `sizeof(buf)` -/
def BUFSIZE : Nat := 1024

/-- How many of the bytes that are left `read` returns if it is asked for `request`: not 0, unless
    nothing is asked for or left. -/
def readCount (size request left : Nat) : Nat := min (max 1 size) (min request left)

/-- The loop of `grep`, with `buf` in the buffer and `input` still to be read; `sizes` is what the calls
    of `read` are ready to return. -/
def grepLoop (pattern : List Byte) (sizes : Nat → Nat) (buf input : List Byte) : List Byte :=
  let n := readCount (sizes 0) (BUFSIZE - buf.length - 1) input.length
  if h : n = 0 then []
  else
    have : input.length - n < input.length := by
      have hn : n ≤ input.length := Nat.le_trans (Nat.min_le_right _ _) (Nat.min_le_right _ _)
      omega
    let r := grepLines pattern (buf ++ input.take n)
    r.1 ++ grepLoop pattern (fun i => sizes (i + 1)) r.2 (input.drop n)
  termination_by input.length
  decreasing_by
    rw [List.length_drop]
    exact this

/-- What `grep` writes. -/
def grep (pattern : List Byte) (sizes : Nat → Nat) (input : List Byte) : List Byte :=
  grepLoop pattern sizes [] input

end Xv6.Grep
