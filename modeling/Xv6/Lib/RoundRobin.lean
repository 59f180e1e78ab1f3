import Mathlib.Data.Nat.ModEq

set_option autoImplicit false

/-! # Taking turns

`N` slots in a circle. The turn passes from slot `c` to the first one after it that is ready, `c` itself
being the last. A slot that is ready comes nearer each time, until it is its turn. -/

namespace Xv6.Lib

/-- The first slot after `c` that is ready is `k` places on. -/
structure FirstAfter (ready : Nat → Prop) (N c k : Nat) : Prop where
  pos : 0 < k
  le : k ≤ N
  found : ready ((c + k) % N)
  before : ∀ j, 0 < j → j < k → ¬ ready ((c + j) % N)

/-- How many places `i` is after `c`. -/
def ahead (N c i : Nat) : Nat := (i + N - c) % N

variable {ready : Nat → Prop} {N c i k : Nat}

theorem add_ahead (hc : c < N) (hi : i < N) : (c + ahead N c i) % N = i := by
  have hsum : c + (i + N - c) = i + N := by omega
  rw [ahead, Nat.add_mod_mod, hsum, Nat.add_mod_right, Nat.mod_eq_of_lt hi]

theorem ahead_lt (hc : c < N) : ahead N c i < N := Nat.mod_lt _ (by omega)

theorem ahead_pos (hc : c < N) (hi : i < N) (hne : i ≠ c) : 0 < ahead N c i := by
  by_contra hz
  have h := add_ahead hc hi
  rw [Nat.eq_zero_of_not_pos hz, Nat.add_zero, Nat.mod_eq_of_lt hc] at h
  exact hne h.symm

theorem ahead_unique (hc : c < N) (hi : i < N) {d : Nat} (hd : d < N) (h : (c + d) % N = i) :
    ahead N c i = d := by
  have heq : (c + ahead N c i) % N = (c + d) % N := by rw [add_ahead hc hi, h]
  have hmod : ahead N c i ≡ d [MOD N] := Nat.ModEq.add_left_cancel' c heq
  exact hmod.eq_of_lt_of_lt (ahead_lt hc) hd

namespace FirstAfter

/-- The turn does not pass by a slot that is ready. -/
theorem le_ahead (h : FirstAfter ready N c k) (hc : c < N) (hi : i < N) (hne : i ≠ c) (hr : ready i) :
    k ≤ ahead N c i := by
  by_contra hlt
  refine h.before (ahead N c i) (ahead_pos hc hi hne) (by omega) ?_
  rwa [add_ahead hc hi]

/-- It comes nearer by as many places as the turn moves on. -/
theorem ahead_next (h : FirstAfter ready N c k) (hc : c < N) (hi : i < N) (hne : i ≠ c) (hr : ready i) :
    ahead N ((c + k) % N) i = ahead N c i - k := by
  have hle := h.le_ahead hc hi hne hr
  have hlt := ahead_lt (i := i) hc
  refine ahead_unique (Nat.mod_lt _ (by omega)) hi (by omega) ?_
  rw [Nat.mod_add_mod, Nat.add_assoc, Nat.add_sub_cancel' hle, add_ahead hc hi]

theorem unique {k' : Nat} (h : FirstAfter ready N c k) (h' : FirstAfter ready N c k') : k = k' := by
  rcases Nat.lt_trichotomy k k' with hlt | heq | hlt
  · exact absurd h.found (h'.before k h.pos hlt)
  · exact heq
  · exact absurd h'.found (h.before k' h'.pos hlt)

end FirstAfter

end Xv6.Lib
