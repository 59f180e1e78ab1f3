import Mathlib.Data.List.Basic

set_option autoImplicit false

/-! # Writing into the middle of a list

A list of bytes in which some bytes from a place on are overwritten, or added at the end. -/

namespace Xv6.Lib

variable {α : Type} {c xs ys : List α} {off : Nat}

def splice (c : List α) (off : Nat) (xs : List α) : List α := c.take off ++ xs ++ c.drop (off + xs.length)

@[simp] theorem splice_nil (c : List α) (off : Nat) : splice c off [] = c := by
  rw [splice, List.append_nil, List.length_nil, Nat.add_zero, List.take_append_drop]

theorem length_splice (h : off ≤ c.length) : (splice c off xs).length = max c.length (off + xs.length) := by
  simp only [splice, List.length_append, List.length_take, List.length_drop]
  omega

/-- Two pieces one after the other are one piece. -/
theorem splice_splice {m : Nat} (h : off ≤ c.length) (hm : xs.length = m) :
    splice (splice c off xs) (off + m) ys = splice c off (xs ++ ys) := by
  subst hm
  have hlen : (c.take off ++ xs).length = off + xs.length := by
    rw [List.length_append, List.length_take, Nat.min_eq_left h]
  have htake : (splice c off xs).take (off + xs.length) = c.take off ++ xs := by
    rw [splice, ← hlen, List.take_left]
  have hdrop : (splice c off xs).drop (off + xs.length + ys.length) = c.drop (off + (xs ++ ys).length) := by
    rw [splice, ← hlen, ← List.drop_drop, List.drop_left, List.drop_drop, hlen, List.length_append, Nat.add_assoc]
  rw [splice, htake, hdrop, splice, List.append_assoc (c.take off)]

/-- A list of pieces of `w` elements, of which piece `j` is overwritten. -/
theorem piece_splice {w j : Nat} (hw : xs.length = w) (hj : w * j ≤ c.length) (i : Nat) :
    ((splice c (w * j) xs).drop (w * i)).take w = if i = j then xs else (c.drop (w * i)).take w := by
  have hlen : (c.take (w * j)).length = w * j := by rw [List.length_take, Nat.min_eq_left hj]
  unfold splice
  rw [List.append_assoc, hw]
  by_cases hij : i = j
  · rw [if_pos hij, hij, List.drop_left' hlen, List.take_left' hw]
  · rw [if_neg hij]
    rcases Nat.lt_or_gt_of_ne hij with hlt | hgt
    · have hle : w * i + w ≤ w * j := Nat.mul_le_mul_left w hlt
      rw [List.drop_append_of_le_length (by omega),
        List.take_append_of_le_length (by rw [List.length_drop]; omega), List.drop_take, List.take_take,
        Nat.min_eq_left (by omega)]
    · have hle : w * j + w ≤ w * i := Nat.mul_le_mul_left w hgt
      have hdrop : (c.take (w * j) ++ (xs ++ c.drop (w * j + w))).drop (w * j + w + (w * i - (w * j + w))) =
          c.drop (w * i) := by
        rw [← List.drop_drop, ← List.drop_drop, List.drop_left' hlen, List.drop_left' hw, List.drop_drop]
        congr 1
        omega
      rw [show w * j + w + (w * i - (w * j + w)) = w * i by omega] at hdrop
      rw [hdrop]

end Xv6.Lib
