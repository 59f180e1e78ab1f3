import Mathlib.Data.List.Basic

set_option autoImplicit false

/-! # Numerals

The digits of a number in a base up to 16, as `Nat.toDigits` writes them: the most significant one first, and
no zero in front. -/

namespace Xv6.Lib

variable {b n m : Nat}

theorem digitChar_inj (hn : n < 16) (hm : m < 16) (h : n.digitChar = m.digitChar) : n = m := by
  have hall : ∀ i : Fin 16, ∀ j : Fin 16, (i : Nat).digitChar = (j : Nat).digitChar → i = j := by decide
  exact congrArg Fin.val (hall ⟨n, hn⟩ ⟨m, hm⟩ h)

/-- A numeral is that of one number. -/
theorem toDigits_inj (hb : 1 < b) (hle : b ≤ 16) (h : Nat.toDigits b n = Nat.toDigits b m) : n = m := by
  induction n using Nat.strongRecOn generalizing m with
  | ind n ih =>
      have hlen := congrArg List.length h
      by_cases hn : n < b
      · rw [Nat.toDigits_of_lt_base hn] at h hlen
        by_cases hm : m < b
        · rw [Nat.toDigits_of_lt_base hm, List.singleton_inj] at h
          exact digitChar_inj (by omega) (by omega) h
        · have hpos : 0 < (Nat.toDigits b (m / b)).length := Nat.length_toDigits_pos
          rw [Nat.toDigits_of_base_le hb (Nat.le_of_not_lt hm), List.length_append] at hlen
          simp at hlen
      · rw [Nat.toDigits_of_base_le hb (Nat.le_of_not_lt hn)] at h hlen
        by_cases hm : m < b
        · rw [Nat.toDigits_of_lt_base hm, List.length_append] at hlen
          simp at hlen
        · rw [Nat.toDigits_of_base_le hb (Nat.le_of_not_lt hm)] at h
          obtain ⟨hhigh, hlow⟩ := List.append_inj' h rfl
          have hdiv := ih (n / b) (Nat.div_lt_self (by omega) hb) hhigh
          have hmod := digitChar_inj (Nat.lt_of_lt_of_le (Nat.mod_lt _ (by omega)) hle)
            (Nat.lt_of_lt_of_le (Nat.mod_lt _ (by omega)) hle) (List.singleton_inj.1 hlow)
          rw [← Nat.div_add_mod n b, ← Nat.div_add_mod m b, hdiv, hmod]

end Xv6.Lib
